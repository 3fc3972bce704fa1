import NestTuner.Proofs.Calls
import NestTuner.Proofs.Simulation

/-!
The counts of a search add up. Every candidate is refused, found illegal, found in the tree or added
to it, and every node that is added is evaluated or fails. So the counts of a level sum to the
number of edits that the actions propose for the frontier before it, the counts of the run sum to
the size of the tree, and the evaluator is called once for each node.
-/

namespace NestTuner

namespace Action

/-- How many edits the actions propose for a kernel. -/
def proposalCount (actions : List Action) (k : Kernel) : Nat :=
  (actions.map fun a => (a.proposals k.nest.depth).length).sum

/-- Each proposal becomes a candidate. -/
theorem length_of_expandAll {actions : List Action} {k : Kernel} {cs : List Candidate}
    (h : expandAll actions k = .ok cs) : cs.length = proposalCount actions k := by
  obtain ⟨lists, hlists, hcs⟩ := bind_eq_ok.mp h
  obtain rfl := Except.ok.inj hcs
  have hall := mapM_eq_ok.mp hlists
  clear h hlists hcs
  unfold proposalCount
  induction hall with
  | nil => rfl
  | cons hfirst _ ih =>
    rw [List.flatten_cons, List.length_append, ih, List.map_cons, List.sum_cons,
      ← (mapM_eq_ok.mp hfirst).length_eq]

end Action

namespace Beam

namespace Expansion

/-- The candidates that were passed over, and the nodes of the tree. -/
def settled (x : Expansion) : Nat :=
  x.rejected + x.defects + x.duplicates + x.tree.size

/-- Between two expansions some candidates were counted, and as many were settled. -/
structure Counts (x x' : Expansion) (n : Nat) : Prop where
  candidates : x'.candidates = x.candidates + n
  settled : x'.settled = x.settled + n

namespace Counts

variable {x x' x'' : Expansion} {n n' : Nat}

theorem refl (x : Expansion) : Counts x x 0 :=
  ⟨rfl, rfl⟩

theorem trans (h : Counts x x' n) (h' : Counts x' x'' n') : Counts x x'' (n + n') := by
  refine ⟨?_, ?_⟩
  · rw [h'.candidates, h.candidates, Nat.add_assoc]
  · rw [h'.settled, h.settled, Nat.add_assoc]

end Counts

variable {deduplicate : Bool} {actions : List Action} {frontier : List Nat} {id : Nat}
  {x x' : Expansion}

/-- Each candidate is settled in one way. -/
theorem Absorbs.counts {c : Candidate} (h : Absorbs deduplicate id x c x') : Counts x x' 1 := by
  have hcandidates : x'.candidates = x.candidates + 1 := by cases h <;> rfl
  refine ⟨hcandidates, ?_⟩
  unfold Expansion.settled
  cases h with
  | refused => dsimp only; omega
  | defective => dsimp only; omega
  | repeated => dsimp only; omega
  | @added k tree place _ _ _ grown =>
    obtain ⟨l, -, hlabels, -⟩ := Tree.addChild_eq_ok grown
    have hsize : tree.size = x.tree.size + 1 := by
      rw [← Tree.length_labels, hlabels, List.length_append, Tree.length_labels,
        List.length_singleton]
    simp only [hsize, Nat.add_assoc]

theorem counts_of_absorb {cs : List Candidate}
    (h : cs.foldlM (absorb deduplicate id) x = .ok x') : Counts x x' cs.length := by
  induction cs generalizing x with
  | nil =>
    obtain rfl := Except.ok.inj h
    exact .refl x
  | cons c rest ih =>
    rw [List.foldlM_cons] at h
    obtain ⟨y, hy, h⟩ := bind_eq_ok.mp h
    rw [List.length_cons, Nat.add_comm]
    exact (absorbs_of_ok hy).counts.trans (ih h)

theorem counts_of_expandNode {l : Label} (h : x.expandNode deduplicate actions id = .ok x')
    (hl : x.tree.labels[id]? = some l) : Counts x x' (Action.proposalCount actions l.state) := by
  rw [expandNode_eq hl] at h
  obtain ⟨cs, hcs, h⟩ := bind_eq_ok.mp h
  rw [← Action.length_of_expandAll hcs]
  exact counts_of_absorb h

/-- Expanding a frontier counts what is proposed for its nodes. -/
theorem counts_of_expanded (h : frontier.foldlM (expandNode deduplicate actions) x = .ok x')
    {parents : List Label}
    (hparents : List.Forall₂ (fun id l => x.tree.labels[id]? = some l) frontier parents) :
    Counts x x' (parents.map fun l => Action.proposalCount actions l.state).sum := by
  induction frontier generalizing x parents with
  | nil =>
    obtain rfl := Except.ok.inj h
    cases hparents
    exact .refl x
  | cons id rest ih =>
    cases hparents with
    | @cons _ l _ parents hl hrest =>
      rw [List.foldlM_cons] at h
      obtain ⟨y, hy, h⟩ := bind_eq_ok.mp h
      have htakes := takes_of_expandNode (List.mem_singleton_self id) hy
      rw [List.map_cons, List.sum_cons]
      refine (counts_of_expandNode hy hl).trans (ih h ?_)
      exact hrest.imp fun _ _ hm => Takes.labels_getElem? htakes hm

end Expansion

end Beam

/-- The counts of a level that expands some nodes. -/
structure Level.Tallied (width : Nat) (actions : List Action) (expanded : List Kernel)
    (l : Level) : Prop where
  candidates : l.candidates = (expanded.map (Action.proposalCount actions)).sum
  accounted : l.candidates = l.rejected + l.defects + l.duplicates + l.evaluated + l.failed
  frontier : l.frontier = min width l.evaluated

namespace Beam

variable {σ : Type} {b : Beam} {root : Kernel} {actions : List Action}
  {evaluator : Evaluator (StateT σ Checked)} {d : Nat} {p p' : Progress} {x : Expansion}
  {outcomes : List Outcome} {level : Level}

theorem length_select (width : Nat) (entries : List (Node × Outcome)) :
    (select width entries).length = min width ((entries.map (·.2)).countP (!·.isFailed)) := by
  have hcost : ∀ o : Outcome, o.cost?.isSome = !o.isFailed := by
    intro o
    cases o <;> rfl
  unfold select
  rw [List.length_map, List.length_take, List.length_mergeSort, List.length_filterMap_eq_countP,
    List.countP_map]
  simp [Function.comp_def, hcost]

/-- Every outcome is a cost or a failure. -/
theorem countP_outcomes (outcomes : List Outcome) :
    outcomes.countP (!·.isFailed) + outcomes.countP (·.isFailed) = outcomes.length := by
  rw [List.length_eq_countP_add_countP (·.isFailed), Nat.add_comm]
  simp

theorem Stage.size_eq (h : Stage b actions evaluator d p x outcomes level p')
    (hp : Grown root actions p.tree.labels) :
    x.tree.size = p.tree.size + outcomes.length ∧ p'.tree.size = x.tree.size := by
  obtain ⟨new, hnew⟩ := extends_of_ok hp h.expanded
  have hlength : new.length = outcomes.length := by
    rw [← hnew.created, List.length_map, h.evaluated.length_eq]
  refine ⟨?_, ?_⟩
  · rw [← Tree.length_labels, hnew.labels, List.length_append, Tree.length_labels, hlength]
  · rw [← Tree.length_labels, (h.filled hnew).1, Tree.length_labels]

theorem Stage.tallied (h : Stage b actions evaluator d p x outcomes level p')
    (hp : Grown root actions p.tree.labels) {parents : List Label}
    (hparents : List.Forall₂ (fun id l => p.tree.labels[id]? = some l) p.frontier parents) :
    level.Tallied b.width actions (parents.map Label.state) := by
  have hcounts := Expansion.counts_of_expanded h.expanded hparents
  obtain ⟨hsize, -⟩ := h.size_eq hp
  have hcandidates :
      x.candidates = (parents.map fun l => Action.proposalCount actions l.state).sum :=
    hcounts.candidates.trans (Nat.zero_add _)
  have hsettled := hcounts.settled
  rw [← hcandidates] at hsettled
  simp only [Expansion.settled, Expansion.ofTree] at hsettled
  have houtcomes := countP_outcomes outcomes
  refine ⟨?_, ?_, ?_⟩
  · rw [h.summary, List.map_map]
    exact hcandidates
  · rw [h.summary]
    simp only
    omega
  · have hfrontier : p'.frontier.length = min b.width (outcomes.countP (!·.isFailed)) := by
      rw [h.frontier, length_select, List.map_snd_zip (by rw [h.evaluated.length_eq])]
    rw [h.summary]
    exact hfrontier

/-- What a run keeps of its counts. -/
structure Booked (b : Beam) (actions : List Action) (p : Progress) : Prop where
  level : ∀ (i : Nat) level, p.levels[i]? = some level → ∃ front parents,
    ([0] :: p.frontiers)[i]? = some front ∧
      List.Forall₂ (fun id l => p.tree.labels[id]? = some l) front parents ∧
        level.Tallied b.width actions (parents.map Label.state)
  size : p.tree.size = 1 + (p.levels.map (·.evaluated)).sum + (p.levels.map (·.failed)).sum
  last : (1 :: p.levels.map (·.frontier)).getLast? = some p.frontier.length

theorem Booked.stage (hbooked : Booked b actions p) (hp : Sound root actions evaluator d p)
    (hfiled : Filed b d p) (hsummed : p.levels.length = d)
    (h : Stage b actions evaluator (d + 1) p x outcomes level p') : Booked b actions p' := by
  obtain ⟨new, hgrows⟩ := h.grows hp.grown
  have hkeep : ∀ {i : Nat} {l : Label}, p.tree.labels[i]? = some l →
      p'.tree.labels[i]? = some l := by
    intro i l hl
    rw [hgrows.labels]
    exact getElem?_append_of_eq_some hl new
  refine ⟨?_, ?_, ?_⟩
  · intro i level' hi
    rw [h.levels] at hi
    rcases getElem?_concat_eq_some hi with hi | ⟨rfl, rfl⟩
    · obtain ⟨front, parents, hget, hparents, htallied⟩ := hbooked.level i level' hi
      exact ⟨front, parents, h.frontiers_getElem? hget, hparents.imp fun _ _ => hkeep, htallied⟩
    · obtain ⟨parents, hparents⟩ := hp.exists_parents
      refine ⟨p.frontier, parents, h.frontiers_getElem? ?_, hparents.imp fun _ _ => hkeep,
        h.tallied hp.grown hparents⟩
      rw [hsummed]
      exact hfiled.last
  · obtain ⟨hsize, hsize'⟩ := h.size_eq hp.grown
    have houtcomes := countP_outcomes outcomes
    have hold := hbooked.size
    have hevaluated : level.evaluated = outcomes.countP (!·.isFailed) := by rw [h.summary]
    have hfailed : level.failed = outcomes.countP (·.isFailed) := by rw [h.summary]
    rw [h.levels, List.map_append, List.map_append, List.sum_append, List.sum_append]
    simp only [List.map_cons, List.map_nil, List.sum_cons, List.sum_nil]
    omega
  · rw [h.levels, List.map_append, ← List.cons_append, show p'.frontier.length = level.frontier by
      rw [h.summary]]
    exact List.getLast?_concat

theorem Reaches.booked {baseline : Cost}
    (h : Reaches b actions evaluator (.start root baseline) d p)
    (hmeasured : Yields (evaluator.evaluate root) (.measured baseline)) : Booked b actions p := by
  induction h with
  | start => exact ⟨fun i level hi => (by cases hi), rfl, rfl⟩
  | level reached _ stage ih =>
    exact ih.stage (reached.sound hmeasured) (reached.filed hmeasured)
      (reached.summed hmeasured).length stage

end Beam

/-- The counts of a run are those of its levels together. The baseline counts as evaluated. -/
structure Stats.Sums (levels : List Level) (s : Stats) : Prop where
  evaluated : s.evaluated = 1 + (levels.map (·.evaluated)).sum
  failed : s.failed = (levels.map (·.failed)).sum
  rejected : s.rejected = (levels.map (·.rejected)).sum
  duplicates : s.duplicates = (levels.map (·.duplicates)).sum
  defects : s.defects = (levels.map (·.defects)).sum
  levels : s.levels = levels.length

namespace Stats

theorem foldl_absorb (levels : List Level) (s : Stats) : levels.foldl absorb s =
    ⟨s.nodes, s.evaluated + (levels.map (·.evaluated)).sum, s.failed + (levels.map (·.failed)).sum,
      s.rejected + (levels.map (·.rejected)).sum, s.duplicates + (levels.map (·.duplicates)).sum,
      s.defects + (levels.map (·.defects)).sum, s.levels + levels.length, s.elapsedMillis⟩ := by
  induction levels generalizing s with
  | nil => rfl
  | cons l rest ih =>
    rw [List.foldl_cons, ih]
    simp only [absorb, List.map_cons, List.sum_cons, List.length_cons, Nat.add_assoc,
      Nat.add_comm 1]

theorem sums_ofLevels (nodes : Nat) (levels : List Level) (millis : Float) :
    (ofLevels nodes levels millis).Sums levels := by
  rw [ofLevels, foldl_absorb]
  exact ⟨rfl, Nat.zero_add _, Nat.zero_add _, Nat.zero_add _, Nat.zero_add _, Nat.zero_add _⟩

end Stats

/-- The books of a search. Level by level the candidates are what the actions propose for the
frontier before, the root being the first, and each of them is accounted for. -/
structure Exploration.Balanced (b : Beam) (actions : List Action) (x : Exploration) : Prop where
  levels : ∀ (i : Nat) level, x.result.levels[i]? = some level → level.depth = i + 1 ∧
    ∃ front nodes, ([0] :: x.frontiers)[i]? = some front ∧
      List.Forall₂ (fun id n => x.tree.get? id = some n) front nodes ∧
        level.Tallied b.width actions (nodes.map Node.state)
  stats : x.result.stats.Sums x.result.levels
  nodes : x.result.stats.nodes = x.tree.size
  evaluations : x.tree.size = x.result.stats.evaluated + x.result.stats.failed
  stopped : x.result.termination = .emptyFrontier ↔
    ∃ last, x.result.levels.getLast? = some last ∧ last.frontier = 0
  otherwise : x.result.termination ≠ .emptyFrontier →
    x.result.termination = .maxDepth ∧ x.result.levels.length = b.maxDepth

theorem Tree.exists_nodes {t : Tree} {ids : List Nat} {labels : List Label}
    (h : List.Forall₂ (fun id l => t.labels[id]? = some l) ids labels) :
    ∃ nodes, List.Forall₂ (fun id n => t.get? id = some n) ids nodes ∧
      nodes.map Node.label = labels := by
  induction h with
  | nil => exact ⟨[], .nil, rfl⟩
  | cons hfirst _ ih =>
    obtain ⟨nodes, hnodes, rfl⟩ := ih
    rw [labels_getElem?] at hfirst
    obtain ⟨n, hn, rfl⟩ := Option.map_eq_some_iff.mp hfirst
    exact ⟨n :: nodes, .cons hn hnodes, rfl⟩

namespace Beam

variable {σ : Type} {b : Beam} {root : Kernel} {actions : List Action}
  {evaluator : Evaluator (StateT σ Checked)} {x : Exploration} {baseline : Cost} {d : Nat}
  {p : Progress} {best : Node}

/-- The frontier is empty exactly if the last level left none. -/
theorem Booked.frontier_eq_nil (h : Booked b actions p) :
    p.frontier = [] ↔ ∃ last, p.levels.getLast? = some last ∧ last.frontier = 0 := by
  have hlast := h.last
  rw [← List.length_eq_zero_iff]
  cases hlevels : p.levels.getLast? with
  | none =>
    rw [List.getLast?_eq_none_iff] at hlevels
    rw [hlevels] at hlast
    rw [← Option.some.inj hlast]
    simp
  | some last =>
    obtain ⟨front, hfront⟩ := List.getLast?_eq_some_iff.mp hlevels
    rw [hfront, List.map_append, List.map_singleton, ← List.cons_append, List.getLast?_concat]
      at hlast
    rw [← Option.some.inj hlast]
    simp

theorem Explores.balanced (h : Explores b root actions evaluator x baseline d p best)
    (hbudget : b.budgetMillis = none) : x.Balanced b actions := by
  have hbooked := h.reached.booked h.measured
  have hsummed := h.reached.summed h.measured
  obtain ⟨millis, hstats⟩ := h.concluded.stats
  have hsums : x.result.stats.Sums p.levels := hstats ▸ Stats.sums_ofLevels ..
  have hnodes : x.result.stats.nodes = p.tree.size := by
    rw [hstats, Stats.ofLevels, Stats.foldl_absorb]
  have hempty := hbooked.frontier_eq_nil
  have hstopped := h.stopped
  refine ⟨?_, ?_, ?_, ?_, ?_, ?_⟩
  · rw [h.concluded.levels, h.concluded.frontiers, h.concluded.tree]
    intro i level hi
    obtain ⟨front, parents, hfront, hparents, htallied⟩ := hbooked.level i level hi
    obtain ⟨nodes, hnodes, rfl⟩ := Tree.exists_nodes hparents
    refine ⟨(hsummed.level i level hi).1, front, nodes, hfront, hnodes, ?_⟩
    rw [List.map_map] at htallied
    exact htallied
  · rw [h.concluded.levels]
    exact hsums
  · rw [hnodes, h.concluded.tree]
  · rw [h.concluded.tree, hbooked.size, hsums.evaluated, hsums.failed]
  · rw [h.concluded.levels, ← hempty]
    generalize x.result.termination = termination at hstopped
    cases hstopped with
    | maxDepth _ live => simp [live]
    | emptyFrontier empty => simp [empty]
    | budgetExhausted limited => exact absurd hbudget limited
  · rw [h.concluded.levels, hsummed.length]
    generalize x.result.termination = termination at hstopped
    cases hstopped with
    | maxDepth deep _ => exact fun _ => ⟨rfl, deep⟩
    | emptyFrontier empty => exact fun hne => absurd rfl hne
    | budgetExhausted limited => exact absurd hbudget limited

theorem run_noted {α : Type} (x : StateT (List Kernel) (StateT σ Checked) α) (calls : List Kernel)
    (s : σ) : Stateful.run x (calls, (s, ())) =
      ((x.run calls).run s).map fun r => (r.1.1, (r.1.2, (r.2, ()))) := by
  simp only [Stateful.run]
  cases (x.run calls).run s <;> rfl

/-- An evaluator that takes notes is asked about the nodes of the tree, and the search is the
same. -/
theorem explore_noted {now : StateT σ Checked Duration} {s s' : σ} (hbudget : b.budgetMillis = none)
    (h : (b.explore root actions evaluator now).run s = .ok (.ok x, s')) :
    ∃ y, ((b.explore root actions evaluator.noting (StateT.lift now)).run []).run s =
      .ok ((.ok y, x.tree.states), s') ∧ y.untimed = x.untimed := by
  have hsimulates : Simulates _ _ (b.explore root actions evaluator now)
      (b.explore root actions evaluator.noting (StateT.lift now)) :=
    explore_simulates orderly_eq evaluator.noting_simulates hbudget (Evaluator.lift_simulates now)
      root
  have hsame := hsimulates (s, ()) ([], (s, ())) rfl
  rw [Stateful.run_single, run_noted, h] at hsame
  obtain ⟨⟨⟨r, calls⟩, t⟩, hr, hanswers, ht⟩ := hsame.of_map.exists_of_ok
  obtain ⟨y, rfl, halike⟩ := Answers.exists_of_ok hanswers
  obtain rfl : t = s' := congrArg Prod.fst ht
  have huntimed := halike.untimed_eq
  have hrun := run_noted (b.explore root actions evaluator.noting (StateT.lift now)) [] s
  rw [hr] at hrun
  obtain ⟨new, hcalls, hnew⟩ := explore_asks evaluator.noting_asks (Evaluator.lift_asks now) root
    ([], (s, ())) [] rfl _ hrun
  have hstates : calls = x.tree.states := by
    rw [Exploration.tree_eq_of_untimed huntimed]
    exact hcalls.trans hnew
  exact ⟨y, by rw [hr, hstates], huntimed.symm⟩

/-- The counts of a search add up. With an evaluator that takes notes, the same search makes one
call for each node. -/
theorem explore_balanced {now : StateT σ Checked Duration} {s s' : σ}
    (hbudget : b.budgetMillis = none)
    (h : (b.explore root actions evaluator now).run s = .ok (.ok x, s')) :
    x.Balanced b actions ∧ ∃ y calls,
      ((b.explore root actions evaluator.noting (StateT.lift now)).run []).run s =
        .ok ((.ok y, calls), s') ∧ y.untimed = x.untimed ∧ calls.length = x.result.stats.nodes := by
  obtain ⟨baseline, d, p, best, hexplores⟩ := explores_of_ok ⟨s, s', h⟩
  have hbalanced := hexplores.balanced hbudget
  obtain ⟨y, hy, huntimed⟩ := explore_noted hbudget h
  refine ⟨hbalanced, y, x.tree.states, hy, huntimed, ?_⟩
  rw [hbalanced.nodes]
  simp [Tree.states, Tree.size]

theorem explore_balanced_glance :
    ∃ x y calls, (glance.explore (Kernel.matmul "square" 8 8 8) moves (.ofFunction countLoops)
        (pure .zero : StateT Unit Checked Duration)).run () = .ok (.ok x, ()) ∧
      x.Balanced glance moves ∧
      ((glance.explore (Kernel.matmul "square" 8 8 8) moves (Evaluator.ofFunction countLoops).noting
        (StateT.lift (pure .zero : StateT Unit Checked Duration))).run []).run () =
          .ok ((.ok y, calls), ()) ∧
      y.untimed = x.untimed ∧ calls.length = x.result.stats.nodes ∧
      ∃ level, x.result.levels = [level] ∧ level.candidates = 8 := by
  obtain ⟨x, s, s', hx⟩ := exists_explore glance (Kernel.matmul "square" 8 8 8) moves countLoops rfl
    (by cbv) (Kernel.extentOf_lt_of_forall (by decide) (by decide)) rfl
  obtain ⟨hbalanced, y, calls, hy, huntimed, hcalls⟩ := explore_balanced rfl hx
  refine ⟨x, y, calls, hx, hbalanced, hy, huntimed, hcalls, ?_⟩
  obtain ⟨baseline, d, p, best, hexplores⟩ := explores_of_ok ⟨s, s', hx⟩
  obtain ⟨e, outcomes, level, hstage⟩ := hexplores.first rfl rfl rfl
  have hlevels : x.result.levels = [level] := by
    rw [hexplores.concluded.levels, hstage.levels]
    rfl
  refine ⟨level, hlevels, ?_⟩
  have htallied := hstage.tallied .root (.cons rfl .nil)
  rw [htallied.candidates]
  decide

end Beam

end NestTuner
