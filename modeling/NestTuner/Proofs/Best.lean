import NestTuner.Proofs.Emission
import NestTuner.Proofs.Runs

/-!
What a search returns. The best node is the first of the cheapest nodes of the whole tree, kept by
a frontier or not. The best cost after a level is the least cost of the nodes down to it, so the
levels report costs that never rise and end in the cost returned. The trajectory is the path to the
best node, and replaying its history gives its state again.
-/

namespace NestTuner

theorem Cost.le_iff {a c : Cost} : a.le c = true ↔ a.rank ≤ c.rank := by
  simp [Cost.le]

theorem Node.cost?_eq_some {n : Node} {c : Cost} :
    n.cost? = some c ↔ n.outcome = some (.measured c) := by
  unfold Node.cost?
  cases hn : n.outcome with
  | none => simp
  | some outcome => cases outcome <;> simp [Outcome.cost?]

namespace Tree

/-- The least cost of the nodes down to a depth. -/
def Cheapest (t : Tree) (depth : Nat) (c : Cost) : Prop :=
  (∃ n ∈ t.nodes, n.depth ≤ depth ∧ n.cost? = some c) ∧
    ∀ n ∈ t.nodes, n.depth ≤ depth → ∀ c', n.cost? = some c' → c.le c' = true

/-- Labels with their outcomes. -/
def entries (t : Tree) : List (Label × Option Outcome) :=
  t.labels.zip t.outcomes

theorem mem_entries {t : Tree} {e : Label × Option Outcome} :
    e ∈ t.entries ↔ ∃ n ∈ t.nodes, (n.label, n.outcome) = e := by
  rw [entries, labels, outcomes, List.zip_map', List.mem_map]
  simp only [Array.mem_toList_iff]

theorem cheapest_iff {t : Tree} {depth : Nat} {c : Cost} : t.Cheapest depth c ↔
    (∃ e ∈ t.entries, e.1.history.length ≤ depth ∧ e.2 = some (.measured c)) ∧
      ∀ e ∈ t.entries, e.1.history.length ≤ depth → ∀ c', e.2 = some (.measured c') →
        c.le c' = true := by
  simp only [Cheapest, mem_entries, Node.cost?_eq_some]
  constructor
  · intro ⟨⟨n, hn, hdepth, hcost⟩, hleast⟩
    refine ⟨⟨_, ⟨n, hn, rfl⟩, hdepth, hcost⟩, ?_⟩
    intro e ⟨m, hm, he⟩
    subst he
    exact hleast m hm
  · intro ⟨⟨e, ⟨n, hn, he⟩, hdepth, hcost⟩, hleast⟩
    subst he
    exact ⟨⟨n, hn, hdepth, hcost⟩, fun m hm => hleast _ ⟨m, hm, rfl⟩⟩

end Tree

namespace Beam

variable {σ : Type} {b : Beam} {root : Kernel} {actions : List Action}
  {evaluator : Evaluator (StateT σ Checked)}

theorem Grows.entries {p p' : Progress} {new : List Label} {outcomes : List Outcome}
    (h : Grows root actions evaluator p p' new outcomes) :
    p'.tree.entries = p.tree.entries ++ new.zip (outcomes.map some) := by
  rw [Tree.entries, h.labels, h.recorded, List.zip_append (by simp), Tree.entries]

/-- Deeper nodes do not count. -/
theorem Grows.cheapest {p p' : Progress} {new : List Label} {outcomes : List Outcome}
    (h : Grows root actions evaluator p p' new outcomes) {depth : Nat} {c : Cost}
    (hnew : ∀ l ∈ new, depth < l.history.length) (hc : p.tree.Cheapest depth c) :
    p'.tree.Cheapest depth c := by
  rw [Tree.cheapest_iff] at hc ⊢
  obtain ⟨⟨e, he, hdepth, hcost⟩, hleast⟩ := hc
  rw [h.entries]
  refine ⟨⟨e, List.mem_append_left _ he, hdepth, hcost⟩, ?_⟩
  intro e' he' hdepth'
  rcases List.mem_append.mp he' with he' | he'
  · exact hleast e' he' hdepth'
  · have hlt := hnew e'.1 (List.of_mem_zip he').1
    omega

/-- The best so far is the least cost of the whole tree. -/
theorem Sound.cheapest {d : Nat} {p : Progress} (hp : Sound root actions evaluator d p) :
    p.tree.Cheapest d p.best.2 := by
  have hattained := hp.best.attained
  rw [Tree.outcomes_getElem?] at hattained
  obtain ⟨n, hn, houtcome⟩ := Option.map_eq_some_iff.mp hattained
  have hmem := Array.mem_of_getElem? hn
  refine ⟨⟨n, hmem, hp.depth_le n.label (Tree.label_mem hmem), Node.cost?_eq_some.mpr houtcome⟩, ?_⟩
  intro m hm _ c hc
  obtain ⟨i, hi⟩ := Array.getElem?_of_mem hm
  refine Cost.le_iff.mpr (hp.best.least i c ?_)
  rw [Tree.outcome_of_get? hi, Node.cost?_eq_some.mp hc]

/-- What the summaries of the levels say of the tree. -/
structure Summed (baseline : Cost) (d : Nat) (p : Progress) : Prop where
  length : p.levels.length = d
  level : ∀ i level, p.levels[i]? = some level →
    level.depth = i + 1 ∧ p.tree.Cheapest (i + 1) level.best
  last : (baseline :: p.levels.map (·.best)).getLast? = some p.best.2

theorem Summed.stage {baseline : Cost} {d : Nat} {p p' : Progress} {x : Expansion}
    {outcomes : List Outcome} {level : Level} (hsummed : Summed baseline d p)
    (hsound : Sound root actions evaluator d p)
    (h : Stage b actions evaluator (d + 1) p x outcomes level p') : Summed baseline (d + 1) p' := by
  obtain ⟨new, hgrows⟩ := h.grows hsound.grown
  have hbest : level.best = p'.best.2 := by rw [h.summary]
  refine ⟨by rw [h.levels, List.length_append, hsummed.length, List.length_singleton], ?_, ?_⟩
  · intro i level' hi
    rw [h.levels] at hi
    rcases getElem?_concat_eq_some hi with hi | ⟨rfl, rfl⟩
    · have hlt := (List.getElem?_eq_some_iff.mp hi).1
      rw [hsummed.length] at hlt
      obtain ⟨hdepth, hcheapest⟩ := hsummed.level i level' hi
      refine ⟨hdepth, hgrows.cheapest ?_ hcheapest⟩
      intro l hl
      rw [hgrows.depth hsound hl]
      omega
    · rw [hsummed.length, hbest]
      exact ⟨by rw [h.summary], (hsound.grows hgrows).cheapest⟩
  · rw [h.levels, List.map_append, ← List.cons_append, ← hbest]
    exact List.getLast?_concat

theorem Reaches.summed {baseline : Cost} {d : Nat} {p : Progress}
    (h : Reaches b actions evaluator (.start root baseline) d p)
    (hmeasured : Yields (evaluator.evaluate root) (.measured baseline)) : Summed baseline d p := by
  induction h with
  | start => exact ⟨rfl, fun i level hi => (by cases hi), rfl⟩
  | level reached _ stage ih => exact ih.stage (reached.sound hmeasured) stage

end Beam

/-- The lengths of the parts of a history up to each edit. -/
theorem map_length_inits {α : Type} (xs : List α) :
    xs.inits.map List.length = List.range (xs.length + 1) := by
  induction xs using List.reverseRecOn with
  | nil => rfl
  | append_singleton xs x ih =>
    rw [List.inits_append, List.map_append, ih, List.length_append, List.length_singleton,
      List.range_succ (n := xs.length + 1)]
    simp

theorem map_getLast?_inits {α : Type} (xs : List α) :
    xs.inits.map List.getLast? = none :: xs.map some := by
  induction xs using List.reverseRecOn with
  | nil => rfl
  | append_singleton xs x ih =>
    rw [List.inits_append, List.map_append, ih]
    simp

namespace Exploration

/-- The node that a result names: the first of the cheapest. -/
structure Leading (x : Exploration) (best : Node) : Prop where
  found : x.tree.get? best.id = some best
  history : x.result.bestHistory = best.history
  state : x.result.bestState = best.state
  cost : best.cost? = some x.result.bestCost
  least : ∀ n ∈ x.tree.nodes, ∀ c, n.cost? = some c → x.result.bestCost.le c = true
  first : ∀ n ∈ x.tree.nodes, n.cost? = some x.result.bestCost → best.id ≤ n.id

/-- The best costs of the levels, from the baseline to the result. -/
structure Descending (x : Exploration) : Prop where
  level : ∀ d level, x.result.levels[d]? = some level →
    level.depth = d + 1 ∧ x.tree.Cheapest (d + 1) level.best
  decreasing : (x.result.baseline :: x.result.levels.map (·.best)).Pairwise
    fun earlier later => later.le earlier = true
  last : (x.result.baseline :: x.result.levels.map (·.best)).getLast? = some x.result.bestCost

/-- The trajectory goes from the root to a node, one edit at a time. -/
structure Traced (x : Exploration) (best : Node) : Prop where
  depths : x.result.trajectory.map (·.depth) = List.range (x.result.bestHistory.length + 1)
  edits : x.result.trajectory.map (·.edit) = none :: x.result.bestHistory.map some
  nodes : ∃ path, x.tree.Lineage path best ∧ x.result.trajectory =
    path.map fun n => ⟨n.depth, n.lastEdit?, n.cost?, n.state.summary⟩

end Exploration

namespace Beam

variable {σ : Type} {b : Beam} {root : Kernel} {actions : List Action}
  {evaluator : Evaluator (StateT σ Checked)} {x : Exploration} {baseline : Cost} {d : Nat}
  {p : Progress} {best : Node}

theorem Explores.leading (h : Explores b root actions evaluator x baseline d p best) :
    x.Leading best := by
  have hsound := h.reached.sound h.measured
  have hfound := h.concluded.found
  have hid : best.id = p.best.1 := hsound.grown.id_eq (Tree.label_of_get? hfound)
  have hcost : best.cost? = some p.best.2 := by
    have hattained := hsound.best.attained
    rw [Tree.outcome_of_get? hfound] at hattained
    exact Node.cost?_eq_some.mpr (Option.some.inj hattained)
  refine ⟨?_, h.concluded.history, h.concluded.state, ?_, ?_, ?_⟩
  · rw [h.concluded.tree, hid]
    exact hfound
  · rw [hcost, h.concluded.cost]
  · rw [h.concluded.tree, h.concluded.cost]
    intro n hn c hc
    exact hsound.cheapest.2 n hn (hsound.depth_le n.label (Tree.label_mem hn)) c hc
  · rw [h.concluded.tree, h.concluded.cost, hid]
    intro n hn hc
    obtain ⟨i, hi⟩ := Array.getElem?_of_mem hn
    have hplace : n.id = i := hsound.grown.id_eq (Tree.label_of_get? hi)
    have hi' : p.tree.outcomes[i]? = some (some (Outcome.measured p.best.2)) := by
      rw [Tree.outcome_of_get? hi, Node.cost?_eq_some.mp hc]
    by_contra hlt
    have hrank := hsound.best.first i p.best.2 hi' (by omega)
    omega

theorem Explores.traced (h : Explores b root actions evaluator x baseline d p best) :
    x.Traced best := by
  have hsound := h.reached.sound h.measured
  obtain ⟨path, hlineage, hpath⟩ := trajectory_eq_ok hsound.grown h.concluded.found
  have htrajectory := Except.ok.inj (h.concluded.trajectory.symm.trans hpath)
  have hhistories := hlineage.histories
  refine ⟨?_, ?_, path, ?_, htrajectory⟩
  · calc x.result.trajectory.map (·.depth)
        = (path.map (·.history)).map List.length := by
          rw [htrajectory, List.map_map, List.map_map]
          rfl
      _ = List.range (x.result.bestHistory.length + 1) := by
          rw [hhistories, map_length_inits, h.concluded.history]
  · calc x.result.trajectory.map (·.edit)
        = (path.map (·.history)).map List.getLast? := by
          rw [htrajectory, List.map_map, List.map_map]
          rfl
      _ = none :: x.result.bestHistory.map some := by
          rw [hhistories, map_getLast?_inits, h.concluded.history]
  · rw [h.concluded.tree]
    exact hlineage

/-- The root is in the tree with the outcome that a function gives for it. -/
theorem Sound.root_mem {f : Kernel → Outcome}
    (hp : Sound root actions (.ofFunction f : Evaluator (StateT σ Checked)) d p) :
    ∃ n ∈ p.tree.nodes, n.depth = 0 ∧ n.outcome = some (f root) := by
  have hfirst := hp.grown.first
  rw [Tree.labels_getElem?] at hfirst
  obtain ⟨n, hn, hlabel⟩ := Option.map_eq_some_iff.mp hfirst
  have hmem := Array.mem_of_getElem? hn
  obtain ⟨outcome, houtcome, hyields⟩ := hp.outcome hmem
  have hstate : n.state = root := congrArg Label.state hlabel
  have hhistory : n.history = [] := congrArg Label.history hlabel
  refine ⟨n, hmem, by rw [Node.depth, hhistory, List.length_nil], ?_⟩
  rw [houtcome, hyields.pure_inv, hstate]

theorem Explores.descending {f : Kernel → Outcome}
    (h : Explores b root actions (.ofFunction f : Evaluator (StateT σ Checked)) x baseline d p
      best) : x.Descending := by
  have hsummed := h.reached.summed h.measured
  obtain ⟨n, hn, hdepth, houtcome⟩ := (h.reached.sound h.measured).root_mem
  have hbaseline : n.cost? = some baseline := by
    rw [Node.cost?_eq_some, houtcome, ← h.measured.pure_inv]
  have hlevel : ∀ d level, x.result.levels[d]? = some level →
      level.depth = d + 1 ∧ x.tree.Cheapest (d + 1) level.best := by
    rw [h.concluded.levels, h.concluded.tree]
    exact hsummed.level
  refine ⟨hlevel, ?_, ?_⟩
  · refine List.pairwise_cons.mpr ⟨?_, ?_⟩
    · intro c hc
      obtain ⟨level, hmem, rfl⟩ := List.mem_map.mp hc
      obtain ⟨i, hi⟩ := List.getElem?_of_mem hmem
      rw [h.concluded.baseline]
      rw [← h.concluded.tree] at hn
      exact (hlevel i level hi).2.2 n hn (by omega) baseline hbaseline
    · rw [List.pairwise_map, List.pairwise_iff_getElem]
      intro i j hi hj hij
      have hearlier := (hlevel i _ (List.getElem?_eq_getElem hi)).2
      have hlater := (hlevel j _ (List.getElem?_eq_getElem hj)).2
      obtain ⟨⟨m, hm, hdepth, hcost⟩, -⟩ := hearlier
      exact hlater.2 m hm (by omega) _ hcost
  · rw [h.concluded.levels, h.concluded.baseline, h.concluded.cost]
    exact hsummed.last

/-- A search returns the best node of its whole run. Its code can be written exactly if the operands
of the root are found, which validation makes sure of. -/
theorem explore_best {f : Kernel → Outcome} {now : StateT σ Checked Duration} {x : Exploration}
    (h : Yields (b.explore root actions (.ofFunction f) now) (.ok x)) :
    ∃ best, x.Leading best ∧ f root = .measured x.result.baseline ∧
      x.result.bestCost.le x.result.baseline = true ∧ x.Descending ∧ x.Traced best ∧
        ((∃ artifacts, Artifacts.ofHistory root x.result.bestHistory = .ok (.ok artifacts) ∧
          artifacts.kernel = x.result.bestState) ↔ root.OperandsFound) ∧
        (root.validate = .ok () → root.OperandsFound) := by
  obtain ⟨baseline, d, p, best, hx⟩ := explores_of_ok h
  have hsound := hx.reached.sound hx.measured
  have hmeasured : f root = .measured baseline := hx.measured.pure_inv.symm
  have hleading := hx.leading
  refine ⟨best, hleading, ?_, ?_, hx.descending, hx.traced, ?_, Kernel.operandsFound_of_validate⟩
  · rw [hmeasured, hx.concluded.baseline]
  · obtain ⟨n, hn, -, houtcome⟩ := hsound.root_mem
    rw [← hx.concluded.tree] at hn
    rw [hx.concluded.baseline]
    exact hleading.least n hn baseline (Node.cost?_eq_some.mpr (by rw [houtcome, hmeasured]))
  · refine Artifacts.exists_ofHistory ?_
    rw [hleading.history, hleading.state]
    exact hsound.grown.replay best.label
      (List.mem_of_getElem? (Tree.label_of_get? hx.concluded.found))

theorem explore_best_glance :
    ∃ x, Yields (glance.explore (Kernel.matmul "square" 8 8 8) moves (.ofFunction countLoops)
        (pure .zero : StateT Unit Checked Duration)) (.ok x) ∧
      ∃ best, x.Leading best ∧ x.result.baseline = ⟨6⟩ ∧ x.result.bestCost.le ⟨5⟩ = true ∧
        x.Descending ∧ x.Traced best ∧
        ∃ artifacts, Artifacts.ofHistory (Kernel.matmul "square" 8 8 8) x.result.bestHistory =
          .ok (.ok artifacts) ∧ artifacts.kernel = x.result.bestState := by
  obtain ⟨x, hx⟩ := exists_explore glance (Kernel.matmul "square" 8 8 8) moves countLoops rfl
    (by cbv) (Kernel.extentOf_lt_of_forall (by decide) (by decide)) rfl
  obtain ⟨best, hleading, hbaseline, -, hdescending, htraced, hcode, -⟩ := explore_best hx
  refine ⟨x, hx, best, hleading, (Outcome.measured.inj hbaseline).symm, ?_, hdescending, htraced,
    hcode.mpr (by decide)⟩
  -- The first tiling is in the tree, and has a loop more than the root.
  obtain ⟨baseline, d, p, best', hexplores⟩ := explores_of_ok hx
  obtain ⟨n, hn, -, hdepth⟩ := glance_tiled hexplores
  refine hleading.least n hn ⟨5⟩ (Node.cost?_eq_some.mpr ?_)
  rw [hexplores.concluded.tree] at hn
  obtain ⟨outcome, houtcome, hyields⟩ := (hexplores.reached.sound hexplores.measured).outcome hn
  rw [houtcome, hyields.pure_inv, countLoops, hdepth]
  rfl

/-- A copy to a tensor that is not there. -/
def adrift : Kernel :=
  ⟨"copy", none, [⟨"A", [4], .f32⟩], [⟨"i", 4, .parallel⟩],
    .elementwise .copy ⟨1, [0]⟩ [⟨0, [0]⟩], ⟨[Loop.full 0 4]⟩⟩

/-- Legality says nothing of operands: a search takes such a root, and its result has no code. -/
theorem explore_adrift_no_code :
    ∃ x, Yields (glance.explore adrift [] (.ofFunction countLoops)
        (pure .zero : StateT Unit Checked Duration)) (.ok x) ∧
      Artifacts.ofHistory adrift x.result.bestHistory = .error .outOfRange := by
  obtain ⟨x, hx⟩ := exists_explore glance adrift [] countLoops rfl
    (by cbv) (Kernel.extentOf_lt_of_forall (by decide) (by decide)) rfl
  obtain ⟨baseline, d, p, best, hexplores⟩ := explores_of_ok hx
  have hsound := hexplores.reached.sound hexplores.measured
  have hhistory : best.history = [] := by
    rcases hsound.grown.cases_getElem? (Tree.label_of_get? hexplores.concluded.found) with
      ⟨hroot, -⟩ | ⟨_, _, _, _, _, _, ⟨action, haction, -⟩, _⟩
    · exact congrArg Label.history hroot
    · cases haction
  refine ⟨x, hx, ?_⟩
  rw [hexplores.concluded.history, hhistory]
  rfl

end Beam

end NestTuner
