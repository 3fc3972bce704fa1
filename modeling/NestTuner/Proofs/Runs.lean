import Mathlib.Data.List.Permutation
import NestTuner.Proofs.Displacement
import NestTuner.Proofs.Levels

/-!
Whole runs of a beam search: the progress before the first level, the levels that follow, and the
result. Whatever the evaluator and the clock do, the tree has grown from the root, every node has
the outcome that the evaluator gave for its state, and a frontier lies on one level. A search from a
legal root comes to an end.
-/

namespace NestTuner

namespace Beam

variable {σ : Type} {b : Beam} {root : Kernel} {actions : List Action}
  {evaluator : Evaluator (StateT σ Checked)}

/-- The progress before the first level. -/
def Progress.start (root : Kernel) (baseline : Cost) : Progress :=
  ⟨⟨#[⟨0, none, [], [], root, some (.measured baseline)⟩], [root.nest]⟩, (0, baseline), [0], [], []⟩

/-- The progress after some levels, each from a frontier that was not empty. -/
inductive Reaches (b : Beam) (actions : List Action) (evaluator : Evaluator (StateT σ Checked))
    (start : Progress) : Nat → Progress → Prop
  | start : Reaches b actions evaluator start 0 start
  | level {d : Nat} {p p' : Progress} {x : Expansion} {outcomes : List Outcome} {level : Level}
      (reached : Reaches b actions evaluator start d p) (live : p.frontier ≠ [])
      (stage : Stage b actions evaluator (d + 1) p x outcomes level p') :
      Reaches b actions evaluator start (d + 1) p'

/-- Why a run stops where it does. -/
inductive Stops (b : Beam) (d : Nat) (p : Progress) : Termination → Prop
  | maxDepth (deep : d = b.maxDepth) (live : p.frontier ≠ []) : Stops b d p .maxDepth
  | emptyFrontier (empty : p.frontier = []) : Stops b d p .emptyFrontier
  | budgetExhausted (limited : b.budgetMillis ≠ none) : Stops b d p .budgetExhausted

theorem reaches_of_descend {start p : Progress} {d n : Nat} {elapsed : StateT σ Checked Duration}
    {final : Progress × Termination} (hp : Reaches b actions evaluator start d p)
    (hlive : p.frontier ≠ []) (hn : d + n = b.maxDepth)
    (h : Yields (b.descend actions evaluator elapsed n (d + 1) p) final) :
    ∃ d', d' ≤ b.maxDepth ∧ Reaches b actions evaluator start d' final.1 ∧
      Stops b d' final.1 final.2 := by
  induction n generalizing d p with
  | zero =>
    obtain rfl := h.pure_inv
    exact ⟨d, by omega, hp, .maxDepth (by omega) hlive⟩
  | succ n ih =>
    obtain ⟨time, -, h⟩ := h.bind_inv
    split at h
    case isTrue hbudget =>
      obtain rfl := h.pure_inv
      refine ⟨d, by omega, hp, .budgetExhausted fun hnone => ?_⟩
      simp [hnone] at hbudget
    case isFalse =>
      obtain ⟨p', hstep, h⟩ := h.bind_inv
      obtain ⟨x, outcomes, level, hstage⟩ := stage_of_step hstep
      have hp' := hp.level hlive hstage
      split at h
      case isTrue hempty =>
        obtain rfl := h.pure_inv
        exact ⟨d + 1, by omega, hp', .emptyFrontier (List.isEmpty_iff.mp hempty)⟩
      case isFalse hlive' => exact ih hp' (by simpa using hlive') (by omega) h

/-- What the result says of the last progress. -/
structure Concludes (p : Progress) (baseline : Cost) (x : Exploration) (best : Node) : Prop where
  tree : x.tree = p.tree
  frontiers : x.frontiers = p.frontiers
  levels : x.result.levels = p.levels
  baseline : x.result.baseline = baseline
  found : p.tree.get? p.best.1 = some best
  history : x.result.bestHistory = best.history
  state : x.result.bestState = best.state
  cost : x.result.bestCost = p.best.2
  trajectory : trajectory p.tree p.best.1 = .ok x.result.trajectory
  stats : ∃ millis, x.result.stats = .ofLevels p.tree.size p.levels millis

theorem concludes_of_ok {p : Progress} {baseline : Cost} {termination : Termination}
    {elapsed : Duration} {x : Exploration} (h : conclude p baseline termination elapsed = .ok x) :
    x.result.termination = termination ∧ ∃ best, Concludes p baseline x best := by
  obtain ⟨best, hbest, h⟩ := bind_eq_ok.mp h
  obtain ⟨waypoints, hwaypoints, h⟩ := bind_eq_ok.mp h
  obtain rfl := Except.ok.inj h
  exact ⟨rfl, best, rfl, rfl, rfl, rfl, Tree.get_eq_ok.mp hbest, rfl, rfl, rfl, hwaypoints,
    _, rfl⟩

/-- A run that returned a result. -/
structure Explores (b : Beam) (root : Kernel) (actions : List Action)
    (evaluator : Evaluator (StateT σ Checked)) (x : Exploration) (baseline : Cost) (d : Nat)
    (p : Progress) (best : Node) : Prop where
  legal : root.checkLegality = .ok ()
  measured : Yields (evaluator.evaluate root) (.measured baseline)
  depth_le : d ≤ b.maxDepth
  reached : Reaches b actions evaluator (.start root baseline) d p
  stopped : Stops b d p x.result.termination
  concluded : Concludes p baseline x best

theorem explores_of_ok {now : StateT σ Checked Duration} {x : Exploration}
    (h : Yields (b.explore root actions evaluator now) (.ok x)) :
    ∃ baseline d p best, Explores b root actions evaluator x baseline d p best := by
  unfold explore at h
  split at h
  case h_1 => cases h.pure_inv
  case h_2 =>
    split at h
    case h_1 => cases h.pure_inv
    case h_2 hlegal =>
      obtain ⟨start, -, h⟩ := h.bind_inv
      obtain ⟨outcome, houtcome, h⟩ := h.bind_inv
      cases outcome with
      | failed failure => cases h.pure_inv
      | measured baseline =>
        obtain ⟨⟨tree, written⟩, hrecord, h⟩ := h.bind_inv
        obtain ⟨rfl, -⟩ := Prod.mk.inj (Except.ok.inj hrecord.liftExcept_inv)
        obtain ⟨final, hfinal, h⟩ := h.bind_inv
        obtain ⟨d, hd, hreached, hstops⟩ :=
          reaches_of_descend .start (List.cons_ne_nil 0 []) (Nat.zero_add _) hfinal
        obtain ⟨time, -, h⟩ := h.bind_inv
        obtain ⟨x', hx', h⟩ := h.bind_inv
        obtain rfl := Except.ok.inj h.pure_inv
        obtain ⟨htermination, best, hbest⟩ := concludes_of_ok hx'.liftExcept_inv
        exact ⟨baseline, d, final.1, best, hlegal, houtcome, hd, hreached, htermination ▸ hstops,
          hbest⟩

/-- A search on a pool of workers finds what a search finds, whatever making the pool does, and the
only failure of its own is that the pool cannot be made. -/
theorem yields_of_exploreOn {α : Type} {pool : StateT σ Checked (Except String α)}
    {now : StateT σ Checked Duration} {result : Except SearchError Exploration}
    (h : Yields (b.exploreOn pool root actions evaluator now) result) :
    Yields (b.explore root actions evaluator now) result ∨
      b.validate = .ok () ∧ root.checkLegality = .ok () ∧
        ∃ reason, Yields pool (.error reason) ∧ result = .error (.workerPool reason) := by
  unfold exploreOn at h
  split at h
  case h_1 hvalid hlegal =>
    obtain ⟨made, hmade, h⟩ := h.bind_inv
    cases made with
    | error reason => exact .inr ⟨hvalid, hlegal, reason, hmade, h.pure_inv⟩
    | ok workers => exact .inl h
  case h_2 => exact .inl h

/-- What holds of the tree and the frontier after some levels. -/
structure Sound (root : Kernel) (actions : List Action) (evaluator : Evaluator (StateT σ Checked))
    (d : Nat) (p : Progress) : Prop where
  grown : Grown root actions p.tree.labels
  evaluated : List.Forall₂ (fun l o => ∃ outcome, o = some outcome ∧
    Yields (evaluator.evaluate l.state) outcome) p.tree.labels p.tree.outcomes
  depth_le : ∀ l ∈ p.tree.labels, l.history.length ≤ d
  frontier : ∀ id ∈ p.frontier, ∃ l, p.tree.labels[id]? = some l ∧ l.history.length = d
  best : Leads p.tree.outcomes p.best

theorem Sound.start {baseline : Cost} (h : Yields (evaluator.evaluate root) (.measured baseline)) :
    Sound root actions evaluator 0 (.start root baseline) where
  grown := .root
  evaluated := .cons ⟨_, rfl, h⟩ .nil
  depth_le := by
    intro l hl
    obtain rfl := List.mem_singleton.mp hl
    exact Nat.le_refl 0
  frontier := by
    intro id hid
    obtain rfl := List.mem_singleton.mp hid
    exact ⟨⟨0, none, [], root⟩, rfl, rfl⟩
  best := by
    refine ⟨rfl, ?_, fun i c _ hi => absurd hi (Nat.not_lt_zero i)⟩
    intro i c hi
    obtain ⟨hlt, hc⟩ := List.getElem?_eq_some_iff.mp hi
    obtain rfl : i = 0 := by simpa [Progress.start, Tree.size] using hlt
    obtain rfl : baseline = c := Outcome.measured.inj (Option.some.inj hc)
    exact Int.le_refl _

/-- New nodes are one level below the frontier. -/
theorem Grows.depth {p p' : Progress} {new : List Label} {outcomes : List Outcome} {d : Nat}
    (h : Grows root actions evaluator p p' new outcomes) (hp : Sound root actions evaluator d p)
    {l : Label} (hl : l ∈ new) : l.history.length = d + 1 := by
  obtain ⟨id, hid, hparent⟩ := h.parents l hl
  obtain ⟨m, hm, hdepth⟩ := hp.frontier id hid
  have hmem : l ∈ p'.tree.labels := by
    rw [h.labels]
    exact List.mem_append_right _ hl
  obtain ⟨i, hi⟩ := List.getElem?_of_mem hmem
  rcases h.grown.cases_getElem? hi with ⟨rfl, -⟩ | ⟨parent, m', e, hlt, hm', hchild, -⟩
  · cases hparent
  · obtain rfl : parent = id :=
      Option.some.inj ((congrArg Label.parent hchild).symm.trans hparent)
    rw [h.labels, getElem?_append_of_eq_some hm] at hm'
    obtain rfl := Option.some.inj hm'
    rw [hchild, List.length_append, hdepth, List.length_singleton]

theorem Sound.grows {p p' : Progress} {new : List Label} {outcomes : List Outcome} {d : Nat}
    (hp : Sound root actions evaluator d p) (h : Grows root actions evaluator p p' new outcomes) :
    Sound root actions evaluator (d + 1) p' where
  grown := h.grown
  evaluated := by
    rw [h.labels, h.recorded]
    refine List.rel_append hp.evaluated ?_
    exact List.forall₂_map_right_iff.mpr (h.evaluated.imp fun l o ho => ⟨o, rfl, ho⟩)
  depth_le := by
    intro l hl
    rw [h.labels] at hl
    rcases List.mem_append.mp hl with hl | hl
    · have hle := hp.depth_le l hl
      omega
    · exact (h.depth hp hl).le
  frontier := by
    intro id hid
    obtain ⟨l, hl, rfl⟩ := h.frontier id hid
    have hmem : l ∈ p'.tree.labels := by
      rw [h.labels]
      exact List.mem_append_right _ hl
    obtain ⟨i, hi⟩ := List.getElem?_of_mem hmem
    rw [h.grown.id_eq hi]
    exact ⟨l, hi, h.depth hp hl⟩
  best := by
    rw [h.recorded, h.best, ← Tree.length_outcomes]
    exact hp.best.foldl outcomes

/-- The outcome of a node is one that the evaluator gives for its state. -/
theorem Sound.outcome {d : Nat} {p : Progress} (hp : Sound root actions evaluator d p) {n : Node}
    (hn : n ∈ p.tree.nodes) :
    ∃ outcome, n.outcome = some outcome ∧ Yields (evaluator.evaluate n.state) outcome := by
  have hnodes := List.forall₂_map_right_iff.mp (List.forall₂_map_left_iff.mp hp.evaluated)
  exact List.forall₂_same.mp hnodes n (Array.mem_toList_iff.mpr hn)

theorem Reaches.sound {baseline : Cost} {d : Nat} {p : Progress}
    (h : Reaches b actions evaluator (.start root baseline) d p)
    (hmeasured : Yields (evaluator.evaluate root) (.measured baseline)) :
    Sound root actions evaluator d p := by
  induction h with
  | start => exact .start hmeasured
  | level _ _ stage ih =>
    obtain ⟨new, hgrows⟩ := stage.grows ih.grown
    exact ih.grows hgrows

/-- The path to a node is reported node by node. -/
theorem trajectory_eq_ok {t : Tree} (h : Grown root actions t.labels) {id : Nat} {n : Node}
    (hn : t.get? id = some n) : ∃ path, t.Lineage path n ∧
      trajectory t id =
        .ok (path.map fun m => ⟨m.depth, m.lastEdit?, m.cost?, m.state.summary⟩) := by
  obtain ⟨path, hpath, hlineage⟩ := Tree.path_eq_ok h hn
  refine ⟨path, hlineage, bind_eq_ok.mpr ⟨_, hpath, ?_⟩⟩
  refine mapM_eq_ok.mpr (List.forall₂_map_left_iff.mpr (List.forall₂_map_right_iff.mpr ?_))
  refine List.forall₂_same.mpr fun m hm => ?_
  exact bind_eq_ok.mpr ⟨m, Tree.get_eq_ok.mpr (hlineage.placed m hm), rfl⟩

theorem conclude_of_sound {d : Nat} {p : Progress} (hp : Sound root actions evaluator d p)
    (baseline : Cost) (termination : Termination) (elapsed : Duration) :
    ∃ x, conclude p baseline termination elapsed = .ok x := by
  have hlt : p.best.1 < p.tree.size := by
    simpa using (List.getElem?_eq_some_iff.mp hp.best.attained).1
  obtain ⟨n, hn⟩ := Tree.get_of_lt hlt
  obtain ⟨path, -, hpath⟩ := trajectory_eq_ok hp.grown (Tree.get_eq_ok.mp hn)
  exact ⟨_, bind_eq_ok.mpr ⟨n, hn, bind_eq_ok.mpr ⟨_, hpath, rfl⟩⟩⟩

/-- No edit of a state in the tree traps. -/
theorem apply_ne_trapped (hroot : root.checkLegality = .ok ())
    (hfits : ∀ i, root.extentOf i < Word.largest) {labels : List Label}
    (h : Grown root actions labels) {l : Label} (hl : l ∈ labels) (e : Edit) (trap : Trap) :
    l.state.apply e ≠ .error (.trapped trap) := by
  have hlegal := Kernel.checkLegality_eq_ok.mp (h.legal hroot hl)
  have hstate := h.extentOf_lt hfits hl
  exact (hlegal.decomposed hstate).apply_ne_trapped
    (fun i => (hstate i).trans (by decide)) e trap

/-- A level comes to an end if its expansion does. -/
theorem step_returns_of_expanded (hevaluator : ∀ k, Returns (evaluator.evaluate k) fun _ => True)
    {elapsed : StateT σ Checked Duration} (helapsed : Returns elapsed fun _ => True) {p : Progress}
    (hp : Grown root actions p.tree.labels) {x : Expansion}
    (hx : p.frontier.foldlM (Expansion.expandNode b.deduplicate actions) (.ofTree p.tree) = .ok x)
    (depth : Nat) : Returns (b.step actions evaluator elapsed depth p) fun _ => True := by
  obtain ⟨new, hnew⟩ := extends_of_ok hp hx
  refine (Returns.liftExcept (P := (· = x)) hx rfl).bind fun x' _ hx' => ?_
  subst hx'
  refine (Returns.mapM fun n _ => hevaluator n.state).bind fun outcomes _ _ => ?_
  obtain ⟨r, hr⟩ : ∃ r, recordAll x'.tree p.best ((created p x').zip outcomes) = .ok r := by
    refine recordAll_of_lt fun entry hentry => ?_
    have hmem := List.mem_of_mem_drop (List.of_mem_zip hentry).1
    exact (Array.getElem?_eq_some_iff.mp
      (Tree.get?_id hnew.grown (Array.mem_toList_iff.mp hmem))).1
  refine (Returns.liftExcept (P := fun _ => True) hr trivial).bind fun r' _ _ => ?_
  exact helapsed.bind fun time _ _ => Returns.pure trivial

section Total

variable {now elapsed : StateT σ Checked Duration} (hroot : root.checkLegality = .ok ())
  (hfits : ∀ i, root.extentOf i < Word.largest)
  (hevaluator : ∀ k, Returns (evaluator.evaluate k) fun _ => True)
include hroot hfits hevaluator

theorem step_returns (helapsed : Returns elapsed fun _ => True) {d : Nat} {p : Progress}
    (hp : Sound root actions evaluator d p) (depth : Nat) :
    Returns (b.step actions evaluator elapsed depth p) fun _ => True := by
  obtain ⟨x, hx⟩ : ∃ x, p.frontier.foldlM (Expansion.expandNode b.deduplicate actions)
      (.ofTree p.tree) = .ok x := by
    refine expanded_of_forall hp.grown ?_ ?_
    · intro id hid
      obtain ⟨l, hl, -⟩ := hp.frontier id hid
      simpa using (List.getElem?_eq_some_iff.mp hl).1
    · intro labels hlabels l hl e trap
      exact apply_ne_trapped hroot hfits hlabels hl e trap
  exact step_returns_of_expanded hevaluator helapsed hp.grown hx depth

theorem descend_returns (helapsed : Returns elapsed fun _ => True) {d : Nat} {p : Progress}
    (hp : Sound root actions evaluator d p) (n depth : Nat) :
    Returns (b.descend actions evaluator elapsed n depth p) fun r =>
      ∃ d, Sound root actions evaluator d r.1 := by
  induction n generalizing d p depth with
  | zero => exact Returns.pure ⟨d, hp⟩
  | succ n ih =>
    refine helapsed.bind fun time _ _ => ?_
    split
    case isTrue => exact Returns.pure ⟨d, hp⟩
    case isFalse =>
      refine (step_returns hroot hfits hevaluator helapsed hp depth).bind fun p' hstep _ => ?_
      obtain ⟨x, outcomes, level, hstage⟩ := stage_of_step hstep
      obtain ⟨new, hgrows⟩ := hstage.grows hp.grown
      have hp' := hp.grows hgrows
      split
      case isTrue => exact Returns.pure ⟨d + 1, hp'⟩
      case isFalse => exact ih hp' (depth + 1)

/-- A search comes to an end, with a result or because the root fails. -/
theorem explore_ends (hvalid : b.validate = .ok ()) (hnow : Returns now fun _ => True) :
    Returns (b.explore root actions evaluator now) fun r => (∃ x, r = .ok x) ∨
      ∃ failure, r = .error (.baselineFailed failure) ∧
        Yields (evaluator.evaluate root) (.failed failure) := by
  unfold explore
  rw [hvalid, hroot]
  refine hnow.bind fun start _ _ => ?_
  have helapsed : Returns (do return (← now).since start) fun _ => True :=
    hnow.bind fun time _ _ => Returns.pure trivial
  refine (hevaluator root).bind fun outcome houtcome _ => ?_
  cases outcome with
  | failed failure => exact Returns.pure (Or.inr ⟨failure, rfl, houtcome⟩)
  | measured baseline =>
    refine (Returns.liftExcept (P := (·.1 = (Progress.start root baseline).tree)) rfl rfl).bind ?_
    intro r _ hr
    obtain ⟨tree, written⟩ := r
    obtain rfl := hr
    have hstart : Sound root actions evaluator 0 (.start root baseline) := .start houtcome
    refine (descend_returns hroot hfits hevaluator helapsed hstart b.maxDepth 1).bind ?_
    intro final _ ⟨d, hfinal⟩
    refine helapsed.bind fun time _ _ => ?_
    obtain ⟨x, hx⟩ := conclude_of_sound hfinal baseline final.2 time
    refine (Returns.liftExcept (P := fun _ => True) hx trivial).bind fun x' _ _ => ?_
    exact Returns.pure (Or.inl ⟨x', rfl⟩)

/-- A search comes to a result if the root has a cost. -/
theorem explore_returns (hvalid : b.validate = .ok ())
    (hmeasured : ∀ o, Yields (evaluator.evaluate root) o → o.isFailed = false)
    (hnow : Returns now fun _ => True) :
    Returns (b.explore root actions evaluator now) fun r => ∃ x, r = .ok x := by
  intro s
  obtain ⟨r, s', hr, hend⟩ := explore_ends hroot hfits hevaluator hvalid hnow s
  refine ⟨r, s', hr, ?_⟩
  rcases hend with hx | ⟨failure, -, hfailed⟩
  · exact hx
  · cases hmeasured _ hfailed

end Total

/-- A search by a function that costs the root has a result. -/
theorem explore_ofFunction_returns {f : Kernel → Outcome} {now : StateT σ Checked Duration}
    (hvalid : b.validate = .ok ()) (hroot : root.checkLegality = .ok ())
    (hfits : ∀ i, root.extentOf i < Word.largest) (hf : (f root).isFailed = false)
    (hnow : Returns now fun _ => True) :
    Returns (b.explore root actions (.ofFunction f) now) fun r => ∃ x, r = .ok x := by
  refine explore_returns hroot hfits (fun k => Returns.pure trivial) hvalid (fun o ho => ?_) hnow
  rw [ho.pure_inv, hf]

/-- Such a search with a clock that stands still. -/
theorem exists_explore (b : Beam) (root : Kernel) (actions : List Action) (f : Kernel → Outcome)
    (hvalid : b.validate = .ok ()) (hroot : root.checkLegality = .ok ())
    (hfits : ∀ i, root.extentOf i < Word.largest) (hf : (f root).isFailed = false) :
    ∃ x, Yields (b.explore root actions (.ofFunction f)
      (pure .zero : StateT Unit Checked Duration)) (.ok x) := by
  obtain ⟨r, s, hr, x, rfl⟩ :=
    explore_ofFunction_returns hvalid hroot hfits hf (Returns.pure trivial) ()
  exact ⟨x, (), s, hr⟩

/-- Every node of a search is explained by its history: it is the state that replaying the history
gives, each edit was proposed for the state of the parent, and its outcome is that of its state. -/
theorem explore_explained {f : Kernel → Outcome} {now : StateT σ Checked Duration} {x : Exploration}
    (h : Yields (b.explore root actions (.ofFunction f) now) (.ok x)) {n : Node}
    (hn : n ∈ x.tree.nodes) : root.replay n.history = .ok n.state ∧
      n.state.checkLegality = .ok () ∧ n.depth = n.history.length ∧ n.outcome = some (f n.state) ∧
      (n.id = 0 ∧ n.parent = none ∧ n.history = [] ∨ ∃ id parent e, id < n.id ∧
        n.parent = some id ∧ x.tree.get? id = some parent ∧ n.history = parent.history ++ [e] ∧
        n.depth = parent.depth + 1 ∧ Action.Proposed actions parent.state e ∧
        parent.state.apply e = .ok n.state) := by
  obtain ⟨baseline, d, p, best, hx⟩ := explores_of_ok h
  have hsound := hx.reached.sound hx.measured
  rw [hx.concluded.tree] at hn ⊢
  obtain ⟨i, hi⟩ := Array.getElem?_of_mem hn
  have hmem := Tree.label_mem hn
  refine ⟨hsound.grown.replay _ hmem, hsound.grown.legal hx.legal hmem, rfl, ?_, ?_⟩
  · obtain ⟨outcome, houtcome, hyields⟩ := hsound.outcome hn
    rw [houtcome, hyields.pure_inv]
  · rcases hsound.grown.cases_getElem? (Tree.label_of_get? hi) with
      ⟨hroot, -⟩ | ⟨id, l, e, hlt, hl, hchild, hproposed, happly, -⟩
    · exact Or.inl ⟨congrArg Label.id hroot, congrArg Label.parent hroot,
        congrArg Label.history hroot⟩
    · rw [Tree.labels_getElem?] at hl
      obtain ⟨parent, hparent, rfl⟩ := Option.map_eq_some_iff.mp hl
      have hid : n.id = i := congrArg Label.id hchild
      have hhistory : n.history = parent.history ++ [e] := congrArg Label.history hchild
      refine Or.inr ⟨id, parent, e, by omega, congrArg Label.parent hchild, hparent, hhistory, ?_,
        hproposed, happly⟩
      rw [Node.depth, hhistory, List.length_append, List.length_singleton, Node.depth]

/-- A search of one level by a function goes through that level. -/
theorem Explores.first {f : Kernel → Outcome} {x : Exploration} {baseline cost : Cost} {d : Nat}
    {p : Progress} {best : Node}
    (h : Explores b root actions (.ofFunction f : Evaluator (StateT σ Checked)) x baseline d p best)
    (hdepth : b.maxDepth = 1) (hbudget : b.budgetMillis = none) (hf : f root = .measured cost) :
    ∃ e outcomes level, Stage b actions (.ofFunction f : Evaluator (StateT σ Checked)) 1
      (.start root cost) e outcomes level p := by
  obtain rfl : baseline = cost := Outcome.measured.inj (h.measured.pure_inv.trans hf)
  have hle := h.depth_le
  have hstopped := h.stopped
  generalize x.result.termination = termination at hstopped
  cases h.reached with
  | start =>
    cases hstopped with
    | maxDepth deep _ => omega
    | emptyFrontier empty => cases empty
    | budgetExhausted limited => exact absurd hbudget limited
  | @level d p p' e outcomes level reached _ stage =>
    obtain rfl : d = 0 := by omega
    cases reached
    exact ⟨e, outcomes, level, stage⟩

/-- One level of width two. -/
def glance : Beam :=
  ⟨2, 1, none, .serial, none, false⟩

/-- One action of every kind. -/
def moves : List Action :=
  [.tiling [4] none, .interchange none, .parallelization, .vectorization [4]]

/-- More loops cost less, but five are too many. -/
def countLoops (k : Kernel) : Outcome :=
  if k.nest.depth < 5 then .measured ⟨UInt64.ofNat (9 - k.nest.depth)⟩ else .failed (.timeout 5)

/-- The first tiling is tried, and its node stays in the tree. -/
theorem glance_tiled {x : Exploration} {baseline : Cost} {d : Nat} {p : Progress} {best : Node}
    (h : Explores glance (Kernel.matmul "square" 8 8 8) moves
      (.ofFunction countLoops : Evaluator (StateT Unit Checked)) x baseline d p best) :
    ∃ n ∈ x.tree.nodes, n.history = [.tile 0 4] ∧ n.state.nest.depth = 4 := by
  obtain ⟨e, outcomes, level, hstage⟩ := h.first rfl rfl rfl
  obtain ⟨cs, hcs, k, hc, hlegal, hdepth⟩ : ∃ cs,
      Action.expandAll moves (Kernel.matmul "square" 8 8 8) = .ok cs ∧
        ∃ k, ⟨.tile 0 4, .ok k⟩ ∈ cs ∧ k.checkLegality = .ok () ∧ k.nest.depth = 4 :=
    ⟨_, rfl, _, List.mem_cons_self .., by cbv, rfl⟩
  obtain ⟨i, hi⟩ := hstage.exists_label rfl .root (List.mem_singleton_self 0) rfl hcs hc rfl hlegal
  rw [Tree.labels_getElem?] at hi
  obtain ⟨n, hn, hlabel⟩ := Option.map_eq_some_iff.mp hi
  have hstate : n.state = k := congrArg Label.state hlabel
  refine ⟨n, ?_, congrArg Label.history hlabel, by rw [hstate, hdepth]⟩
  rw [h.concluded.tree]
  exact Array.mem_of_getElem? hn

theorem explore_explained_glance :
    ∃ x, Yields (glance.explore (Kernel.matmul "square" 8 8 8) moves (.ofFunction countLoops)
        (pure .zero : StateT Unit Checked Duration)) (.ok x) ∧
      ∃ n ∈ x.tree.nodes, n.history = [.tile 0 4] ∧
        (Kernel.matmul "square" 8 8 8).replay [.tile 0 4] = .ok n.state ∧
        n.state.checkLegality = .ok () ∧ n.outcome = some (countLoops n.state) := by
  obtain ⟨x, hx⟩ := exists_explore glance (Kernel.matmul "square" 8 8 8) moves countLoops rfl
    (by cbv) (Kernel.extentOf_lt_of_forall (by decide) (by decide)) rfl
  obtain ⟨baseline, d, p, best, hexplores⟩ := explores_of_ok hx
  obtain ⟨n, hn, hhistory, -⟩ := glance_tiled hexplores
  obtain ⟨hreplay, hlegal, -, houtcome, -⟩ := explore_explained hx hn
  exact ⟨x, hx, n, hn, hhistory, hhistory ▸ hreplay, hlegal, houtcome⟩

end Beam

end NestTuner
