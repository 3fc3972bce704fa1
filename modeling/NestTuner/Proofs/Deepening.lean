import NestTuner.Proofs.Simulation
import NestTuner.Proofs.Sweeps

/-!
A deeper search goes on where a shallower one stops. Levels do not look at the depth that a search
may reach, and by a function they come out the same each time. So the deeper search passes through
the last progress of the shallower one, and what it does from there only adds to it: levels,
frontiers and nodes at the end, children under the frontier, and a best cost that is no higher.
-/

namespace NestTuner

namespace Tree

theorem map_fst_entries (t : Tree) : t.entries.map Prod.fst = t.labels :=
  List.map_fst_zip (by simp)

theorem map_snd_entries (t : Tree) : t.entries.map Prod.snd = t.outcomes :=
  List.map_snd_zip (by simp)

theorem entries_eq (t : Tree) :
    t.entries = t.nodes.toList.map fun n => (n.label, n.outcome) := by
  rw [entries, labels, outcomes, List.zip_map']

end Tree

namespace Beam

variable {σ τ : Type} {b : Beam} {root : Kernel} {actions : List Action} {f : Kernel → Outcome}
  {evaluator : Evaluator (StateT σ Checked)} {d d' : Nat} {p p' q q' : Progress}

/-- A progress without its times. -/
def Progress.untimed (p : Progress) : Progress :=
  { p with levels := p.levels.map Level.untimed }

theorem Progress.untimed_eq_iff : p.untimed = q.untimed ↔ p.tree = q.tree ∧ p.best = q.best ∧
    p.frontier = q.frontier ∧ p.frontiers = q.frontiers ∧
      p.levels.map Level.untimed = q.levels.map Level.untimed := by
  simp only [untimed, mk.injEq]

section Determined

variable {x y : Expansion} {outcomes outcomes' : List Outcome} {level level' : Level}

/-- A level by a function depends on the progress before it alone, apart from times. -/
theorem Stage.untimed_eq
    (h : Stage b actions (.ofFunction f : Evaluator (StateT σ Checked)) d p x outcomes level p')
    (h' : Stage b actions (.ofFunction f : Evaluator (StateT τ Checked)) d q y outcomes' level' q')
    (hpq : p.untimed = q.untimed) : p'.untimed = q'.untimed := by
  obtain ⟨tree, best, frontier, frontiers, levels⟩ := p
  obtain ⟨tree', best', frontier', frontiers', levels'⟩ := q
  obtain ⟨rfl, rfl, rfl, rfl, hlevels⟩ := Progress.untimed_eq_iff.mp hpq
  obtain rfl : x = y := Except.ok.inj (h.expanded.symm.trans h'.expanded)
  obtain rfl : outcomes = outcomes' := h.outcomes_eq.trans h'.outcomes_eq.symm
  have hrecorded := Except.ok.inj (h.recorded.symm.trans h'.recorded)
  obtain ⟨htree, hbest⟩ := Prod.mk.inj hrecorded
  have hfrontier : p'.frontier = q'.frontier := h.frontier.trans h'.frontier.symm
  have hlevel : level.untimed = level'.untimed := by
    rw [h.summary, h'.summary, hfrontier, hbest]
    rfl
  refine Progress.untimed_eq_iff.mpr ⟨htree, hbest, hfrontier, ?_, ?_⟩
  · rw [h.frontiers, h'.frontiers, hfrontier]
  · rw [h.levels, h'.levels, List.map_append, List.map_append, hlevels, List.map_singleton, hlevel,
      List.map_singleton]

theorem Reaches.untimed_eq {start : Progress}
    (h : Reaches b actions (.ofFunction f : Evaluator (StateT σ Checked)) start d p)
    (h' : Reaches b actions (.ofFunction f : Evaluator (StateT τ Checked)) start d q) :
    p.untimed = q.untimed := by
  induction h generalizing q with
  | start =>
    cases h'
    rfl
  | level _ _ stage ih =>
    cases h' with
    | level reached' _ stage' => exact stage.untimed_eq stage' (ih reached')

/-- Levels do not depend on the depth that a search may reach. -/
theorem Reaches.of_maxDepth {n : Nat} {start : Progress}
    (h : Reaches { b with maxDepth := n } actions evaluator start d p) :
    Reaches b actions evaluator start d p := by
  induction h with
  | start => exact .start
  | level _ live stage ih =>
    exact .level ih live ⟨stage.expanded, stage.evaluated, stage.recorded, stage.frontier,
      stage.frontiers, stage.levels, stage.summary⟩

end Determined

/-- A progress goes on in a later one. What is there stays, nodes that are there are expanded only
if they are in the frontier. -/
structure Continues (p p' : Progress) : Prop where
  frontiers : p.frontiers <+: p'.frontiers
  levels : p.levels <+: p'.levels
  entries : p.tree.entries <+: p'.tree.entries
  frontier : ∀ id ∈ p'.frontier, id < p.tree.size → id ∈ p.frontier
  borne : ∀ id < p.tree.size, id ∉ p.frontier → borne p'.tree id = borne p.tree id

namespace Continues

theorem refl (p : Progress) : Continues p p :=
  ⟨List.prefix_rfl, List.prefix_rfl, List.prefix_rfl, fun _ hid _ => hid, fun _ _ _ => rfl⟩

theorem labels (h : Continues p p') : p.tree.labels <+: p'.tree.labels := by
  rw [← Tree.map_fst_entries, ← Tree.map_fst_entries]
  exact h.entries.map Prod.fst

theorem outcomes (h : Continues p p') : p.tree.outcomes <+: p'.tree.outcomes := by
  rw [← Tree.map_snd_entries, ← Tree.map_snd_entries]
  exact h.entries.map Prod.snd

theorem size_le (h : Continues p p') : p.tree.size ≤ p'.tree.size := by
  rw [← Tree.length_labels, ← Tree.length_labels]
  exact h.labels.length_le

/-- A level has a frontier of new nodes, and adds children to the frontier before it. -/
theorem stage (h : Continues p p') {x : Expansion} {outcomes : List Outcome} {level : Level}
    (hstage : Stage b actions evaluator d p' x outcomes level q)
    (hp' : Grown root actions p'.tree.labels) : Continues p q := by
  obtain ⟨new, hgrows⟩ := hstage.grows hp'
  have hsize := h.size_le
  refine ⟨?_, ?_, ?_, ?_, ?_⟩
  · rw [hstage.frontiers]
    exact h.frontiers.trans (List.prefix_append ..)
  · rw [hstage.levels]
    exact h.levels.trans (List.prefix_append ..)
  · rw [hgrows.entries]
    exact h.entries.trans (List.prefix_append ..)
  · intro id hid hlt
    obtain ⟨l, hl, rfl⟩ := hgrows.frontier id hid
    obtain ⟨i, hi⟩ := List.getElem?_of_mem hl
    have hplace : q.tree.labels[p'.tree.size + i]? = some l := by
      rw [hgrows.labels, ← Tree.length_labels, List.getElem?_append_right (by omega)]
      simpa using hi
    rw [hgrows.grown.id_eq hplace] at hlt
    omega
  · intro id hlt hid
    have hid' : id ∉ p'.frontier := fun hmem => hid (h.frontier id hmem hlt)
    rw [hgrows.borne_eq hid', h.borne id hlt hid]

end Continues

/-- A run passes through every depth before its last one, with a frontier that is not empty. -/
theorem Reaches.exists_earlier {baseline : Cost}
    (h : Reaches b actions evaluator (.start root baseline) d' p')
    (hmeasured : Yields (evaluator.evaluate root) (.measured baseline)) (hd : d ≤ d') :
    ∃ p, Reaches b actions evaluator (.start root baseline) d p ∧ Continues p p' ∧
      (d < d' → p.frontier ≠ []) := by
  induction h with
  | start =>
    obtain rfl : d = 0 := by omega
    exact ⟨_, .start, .refl _, fun hlt => by omega⟩
  | @level d' mid p' x outcomes level reached live stage ih =>
    have hgrown := (reached.sound hmeasured).grown
    rcases Nat.lt_trichotomy d d' with hlt | rfl | hlt
    · obtain ⟨p, hp, hcontinues, hfrontier⟩ := ih hlt.le
      exact ⟨p, hp, hcontinues.stage stage hgrown, fun _ => hfrontier hlt⟩
    · exact ⟨mid, reached, (Continues.refl mid).stage stage hgrown, fun _ => live⟩
    · obtain rfl : d = d' + 1 := by omega
      exact ⟨p', reached.level live stage, .refl p', fun hlt => by omega⟩

end Beam

/-- What a deeper search has of a shallower one. The root counts as the frontier of a search without
levels. -/
structure Exploration.Deepens (x y : Exploration) : Prop where
  frontiers : x.frontiers <+: y.frontiers
  levels : x.result.levels.map Level.untimed <+: y.result.levels.map Level.untimed
  nodes : x.tree.nodes.toList.map (fun n => (n.id, n.parent, n.history, n.state, n.outcome)) <+:
    y.tree.nodes.toList.map fun n => (n.id, n.parent, n.history, n.state, n.outcome)
  children : ∀ i n m, x.tree.get? i = some n → y.tree.get? i = some m →
    n.children <+: m.children ∧ ∀ last, ([0] :: x.frontiers).getLast? = some last → i ∉ last →
      m.children = n.children
  bestCost : y.result.bestCost.le x.result.bestCost = true

namespace Beam

variable {σ τ : Type} {b : Beam} {root : Kernel} {actions : List Action} {f : Kernel → Outcome}
  {d d' : Nat} {p p' : Progress}

theorem Filed.getLast? (h : Filed b d p) : ([0] :: p.frontiers).getLast? = some p.frontier := by
  rw [List.getLast?_eq_getElem?, List.length_cons, h.length]
  exact h.last

/-- Children are read off the labels. -/
theorem Continues.children (h : Continues p p') (hlinked : p.tree.Linked)
    (hlinked' : p'.tree.Linked) {i : Nat} {n m : Node} (hn : p.tree.get? i = some n)
    (hm : p'.tree.get? i = some m) :
    n.children <+: m.children ∧ (i ∉ p.frontier → m.children = n.children) := by
  have hlt : i < p.tree.size := (Array.getElem?_eq_some_iff.mp hn).1
  rw [hlinked.children i _ (Tree.children_of_get? hn),
    hlinked'.children i _ (Tree.children_of_get? hm)]
  refine ⟨(h.labels.filter _).map _, fun hi => ?_⟩
  exact congrArg (List.map (·.id)) (h.borne i hlt hi)

theorem Continues.nodes (h : Continues p p') :
    p.tree.nodes.toList.map (fun n => (n.id, n.parent, n.history, n.state, n.outcome)) <+:
      p'.tree.nodes.toList.map fun n => (n.id, n.parent, n.history, n.state, n.outcome) := by
  have hentries := h.entries.map fun e => (e.1.id, e.1.parent, e.1.history, e.1.state, e.2)
  rw [Tree.entries_eq, Tree.entries_eq, List.map_map, List.map_map] at hentries
  exact hentries

/-- A search that may go deeper does not stop before a shallower one. -/
theorem Explores.depth_le_of_maxDepth {n n' : Nat} {x y : Exploration} {baseline : Cost}
    {best best' : Node} (hbudget : b.budgetMillis = none) (hle : n ≤ n')
    (h : Explores { b with maxDepth := n } root actions
      (.ofFunction f : Evaluator (StateT σ Checked)) x baseline d p best)
    (h' : Explores { b with maxDepth := n' } root actions
      (.ofFunction f : Evaluator (StateT τ Checked)) y baseline d' p' best') : d ≤ d' := by
  by_contra hlt
  have hlt : d' < d := by omega
  obtain ⟨q, hq, -, hlive⟩ := h.reached.of_maxDepth.exists_earlier h.measured hlt.le
  obtain ⟨-, -, hfrontier, -, -⟩ :=
    Progress.untimed_eq_iff.mp (h'.reached.of_maxDepth.untimed_eq hq)
  have hstopped := h'.stopped
  generalize y.result.termination = termination at hstopped
  cases hstopped with
  | maxDepth deep _ =>
    have hdepth : d ≤ n := h.depth_le
    have hdeep : d' = n' := deep
    omega
  | emptyFrontier empty => exact hlive hlt (hfrontier.symm.trans empty)
  | budgetExhausted limited => exact limited hbudget

/-- A search that may go deeper extends a shallower one by the same function. -/
theorem explore_deepened (b : Beam) {now : StateT σ Checked Duration}
    {now' : StateT τ Checked Duration} {x y : Exploration} {n n' : Nat}
    (hbudget : b.budgetMillis = none) (hle : n ≤ n')
    (hx : Yields ({ b with maxDepth := n }.explore root actions (.ofFunction f) now) (.ok x))
    (hy : Yields ({ b with maxDepth := n' }.explore root actions (.ofFunction f) now') (.ok y)) :
    x.Deepens y := by
  obtain ⟨baseline, d, p, best, hx⟩ := explores_of_ok hx
  obtain ⟨baseline', d', p', best', hy⟩ := explores_of_ok hy
  obtain rfl : baseline = baseline' :=
    Outcome.measured.inj (hx.measured.pure_inv.trans hy.measured.pure_inv.symm)
  have hd := hx.depth_le_of_maxDepth hbudget hle hy
  obtain ⟨q, hq, hcontinues, -⟩ := hy.reached.of_maxDepth.exists_earlier hy.measured hd
  obtain ⟨htree, hbest, hfrontier, hfrontiers, hlevels⟩ :=
    Progress.untimed_eq_iff.mp (hx.reached.of_maxDepth.untimed_eq hq)
  have hfiled := hx.reached.filed hx.measured
  refine ⟨?_, ?_, ?_, ?_, ?_⟩
  · rw [hx.concluded.frontiers, hy.concluded.frontiers, hfrontiers]
    exact hcontinues.frontiers
  · rw [hx.concluded.levels, hy.concluded.levels, hlevels]
    exact hcontinues.levels.map Level.untimed
  · rw [hx.concluded.tree, hy.concluded.tree, htree]
    exact hcontinues.nodes
  · intro i m m' hm hm'
    rw [hx.concluded.tree, htree] at hm
    rw [hy.concluded.tree] at hm'
    obtain ⟨hgains, hsame⟩ := hcontinues.children (hq.filed hy.measured).linked
      (hy.reached.filed hy.measured).linked hm hm'
    refine ⟨hgains, fun last hlast hi => hsame ?_⟩
    rw [hx.concluded.frontiers, hfiled.getLast?] at hlast
    rwa [← hfrontier, Option.some.inj hlast]
  · have hattained := (hx.reached.sound hx.measured).best.attained
    rw [htree, hbest] at hattained
    obtain ⟨rest, hrest⟩ := hcontinues.outcomes
    rw [hx.concluded.cost, hy.concluded.cost, hbest, Cost.le_iff]
    refine (hy.reached.sound hy.measured).best.least q.best.1 q.best.2 ?_
    rw [← hrest]
    exact getElem?_append_of_eq_some hattained rest

theorem explore_deepened_glance :
    ∃ x y, Yields (glance.explore (Kernel.matmul "square" 8 8 8) moves (.ofFunction countLoops)
        (pure .zero : StateT Unit Checked Duration)) (.ok x) ∧
      Yields ({ glance with maxDepth := 2 }.explore (Kernel.matmul "square" 8 8 8) moves
        (.ofFunction countLoops) (pure .zero : StateT Unit Checked Duration)) (.ok y) ∧
      x.frontiers.length = 1 ∧ x.Deepens y := by
  have hlegal : (Kernel.matmul "square" 8 8 8).checkLegality = .ok () := by cbv
  have hfits : ∀ i, (Kernel.matmul "square" 8 8 8).extentOf i < Word.largest :=
    Kernel.extentOf_lt_of_forall (by decide) (by decide)
  obtain ⟨x, hx⟩ := exists_explore glance _ moves countLoops rfl hlegal hfits rfl
  obtain ⟨y, hy⟩ :=
    exists_explore { glance with maxDepth := 2 } _ moves countLoops rfl hlegal hfits rfl
  refine ⟨x, y, hx, hy, ?_, explore_deepened glance rfl (by decide : 1 ≤ 2) hx hy⟩
  obtain ⟨baseline, d, p, best, hexplores⟩ := explores_of_ok hx
  obtain ⟨e, outcomes, level, hstage⟩ := hexplores.first rfl rfl rfl
  rw [hexplores.concluded.frontiers, hstage.frontiers]
  rfl

end Beam

end NestTuner
