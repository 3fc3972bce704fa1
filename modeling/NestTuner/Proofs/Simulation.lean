import NestTuner.Proofs.Lockstep
import NestTuner.Proofs.Ranking

/-!
Two searches side by side, by evaluators whose outcomes are related. If related outcomes fail
together and related costs are ordered alike, every decision of the one search is made in the other:
what is taken in, what counts as best, what survives a level and when to stop. So the searches
differ in their outcomes and their times alone.
-/

namespace NestTuner

/-- Related outcomes fail together, and related costs are ordered alike. -/
structure Orderly (Q : Outcome → Outcome → Prop) : Prop where
  isFailed : ∀ o o', Q o o' → o.isFailed = o'.isFailed
  lt : ∀ a a' c c', Q (.measured a) (.measured a') → Q (.measured c) (.measured c') →
    a.lt c = a'.lt c'

/-- Costs of outcomes that are related. -/
def CostsRelated (Q : Outcome → Outcome → Prop) (c c' : Cost) : Prop :=
  Q (.measured c) (.measured c')

section Alike

variable (Q : Outcome → Outcome → Prop)

/-- Nodes that differ in their outcomes alone, which are related. -/
structure Node.Alike (n n' : Node) : Prop where
  same : { n with outcome := n'.outcome } = n'
  outcome : Option.Rel Q n.outcome n'.outcome

structure Tree.Alike (t t' : Tree) : Prop where
  nodes : List.Forall₂ (Node.Alike Q) t.nodes.toList t'.nodes.toList
  seen : t.seen = t'.seen

/-- Levels of the same counts. -/
structure Level.Alike (l l' : Level) : Prop where
  same : { l with best := l'.best, elapsedMillis := l'.elapsedMillis } = l'
  best : CostsRelated Q l.best l'.best

structure Waypoint.Alike (w w' : Waypoint) : Prop where
  same : { w with cost := w'.cost } = w'
  cost : Option.Rel (CostsRelated Q) w.cost w'.cost

/-- Stats of the same counts. -/
def Stats.Alike (s s' : Stats) : Prop :=
  { s with elapsedMillis := s'.elapsedMillis } = s'

/-- Searches that differ in outcomes and times alone. -/
structure Exploration.Alike (x x' : Exploration) : Prop where
  tree : x.tree.Alike Q x'.tree
  frontiers : x.frontiers = x'.frontiers
  bestHistory : x.result.bestHistory = x'.result.bestHistory
  bestCost : CostsRelated Q x.result.bestCost x'.result.bestCost
  baseline : CostsRelated Q x.result.baseline x'.result.baseline
  bestState : x.result.bestState = x'.result.bestState
  trajectory : List.Forall₂ (Waypoint.Alike Q) x.result.trajectory x'.result.trajectory
  levels : List.Forall₂ (Level.Alike Q) x.result.levels x'.result.levels
  stats : x.result.stats.Alike x'.result.stats
  termination : x.result.termination = x'.result.termination

end Alike

/-- Two searches are refused for the same reason, or both have a root that fails, or both have
results, with relations between the failures and between the results. -/
inductive Answers (F : Failure → Failure → Prop) (R : Exploration → Exploration → Prop) :
    Except SearchError Exploration → Except SearchError Exploration → Prop
  | refused (e : SearchError) : Answers F R (.error e) (.error e)
  | rootFailed {failure failure' : Failure} (related : F failure failure') :
      Answers F R (.error (.baselineFailed failure)) (.error (.baselineFailed failure'))
  | found {x x' : Exploration} (related : R x x') : Answers F R (.ok x) (.ok x')

theorem Answers.exists_of_ok {F : Failure → Failure → Prop} {R : Exploration → Exploration → Prop}
    {x : Exploration} {r' : Except SearchError Exploration} (h : Answers F R (.ok x) r') :
    ∃ x', r' = .ok x' ∧ R x x' := by
  cases h with
  | found related => exact ⟨_, rfl, related⟩

theorem Answers.imp {F F' : Failure → Failure → Prop} {R R' : Exploration → Exploration → Prop}
    {r r' : Except SearchError Exploration} (h : Answers F R r r')
    (hF : ∀ failure failure', F failure failure' → F' failure failure')
    (hR : ∀ x x', R x x' → R' x x') : Answers F' R' r r' := by
  cases h with
  | refused e => exact .refused e
  | rootFailed related => exact .rootFailed (hF _ _ related)
  | found related => exact .found (hR _ _ related)

variable {Q : Outcome → Outcome → Prop}

theorem Cost.le_eq_not_lt (a c : Cost) : a.le c = !c.lt a := by
  rw [Bool.eq_iff_iff, le_iff, Bool.not_eq_true', Bool.eq_false_iff, ne_eq, lt_iff, Int.not_lt]

namespace Orderly

variable (hQ : Orderly Q)
include hQ

theorem cost? {o o' : Outcome} (h : Q o o') :
    Option.Rel (CostsRelated Q) o.cost? o'.cost? := by
  have hfailed := hQ.isFailed o o' h
  cases o with
  | measured c =>
    cases o' with
    | measured c' => exact .some h
    | failed failure' => cases hfailed
  | failed failure =>
    cases o' with
    | measured c' => cases hfailed
    | failed failure' => exact .none

theorem nodeCost? {n n' : Node} (h : n.Alike Q n') :
    Option.Rel (CostsRelated Q) n.cost? n'.cost? := by
  unfold Node.cost?
  have houtcome := h.outcome
  generalize n.outcome = o at houtcome
  generalize n'.outcome = o' at houtcome
  cases houtcome with
  | none => exact .none
  | some ho => exact hQ.cost? ho

theorem le {a a' c c' : Cost} (ha : CostsRelated Q a a') (hc : CostsRelated Q c c') :
    a.le c = a'.le c' := by
  rw [Cost.le_eq_not_lt, Cost.le_eq_not_lt, hQ.lt c c' a a' hc ha]

end Orderly

/-- Equal outcomes fail together and are ordered alike. -/
theorem orderly_eq : Orderly Eq where
  isFailed := by
    rintro o _ rfl
    rfl
  lt := by
    rintro a a' c c' ha hc
    rw [Outcome.measured.inj ha, Outcome.measured.inj hc]

namespace Node.Alike

variable {n n' : Node} (h : Node.Alike Q n n')
include h

theorem label_eq : n.label = n'.label := by
  rw [← h.same]
  rfl

theorem id_eq : n.id = n'.id := congrArg Label.id h.label_eq

theorem state_eq : n.state = n'.state := congrArg Label.state h.label_eq

theorem history_eq : n.history = n'.history := congrArg Label.history h.label_eq

end Node.Alike

namespace Tree.Alike

variable {t t' : Tree} (h : Tree.Alike Q t t')
include h

theorem labels_eq : t.labels = t'.labels :=
  map_eq_of_forall₂ h.nodes fun _ _ hn => hn.label_eq

theorem size_eq : t.size = t'.size := by
  rw [← length_labels, h.labels_eq, length_labels]

theorem containsState_eq (k : Kernel) : t.containsState k = t'.containsState k := by
  rw [containsState, h.seen, containsState]

theorem get (id : Nat) : Same (Node.Alike Q) (t.get id) (t'.get id) := by
  have hrel := forall₂_getElem? h.nodes id
  rw [Array.getElem?_toList, Array.getElem?_toList] at hrel
  unfold Tree.get
  revert hrel
  generalize t.nodes[id]? = found
  generalize t'.nodes[id]? = found'
  intro hrel
  cases hrel with
  | none => exact .trapped _
  | some hn => exact .returned hn

theorem addChild (parent : Nat) (e : Edit) (k : Kernel) :
    Same (fun r r' => r.1.Alike Q r'.1 ∧ r.2 = r'.2) (t.addChild parent e k)
      (t'.addChild parent e k) := by
  refine (h.get parent).bind fun n n' hn => .returned ⟨⟨?_, by rw [h.seen]⟩, h.size_eq⟩
  have hset : Node.Alike Q { n with children := n.children ++ [t.size] }
      { n' with children := n'.children ++ [t'.size] } := by
    refine ⟨?_, hn.outcome⟩
    rw [← hn.same, h.size_eq]
  have hchild : Node.Alike Q ⟨t.size, some parent, [], n.history ++ [e], k, none⟩
      ⟨t'.size, some parent, [], n'.history ++ [e], k, none⟩ :=
    ⟨by rw [h.size_eq, hn.history_eq], .none⟩
  show List.Forall₂ _ _ _
  rw [Array.toList_push, Array.toList_push, Array.set!_eq_setIfInBounds,
    Array.set!_eq_setIfInBounds, Array.toList_setIfInBounds, Array.toList_setIfInBounds]
  exact List.rel_append (forall₂_set h.nodes hset parent) (.cons hchild .nil)

theorem record (id : Nat) {o o' : Outcome} (ho : Q o o') :
    Same (fun r r' => r.1.Alike Q r'.1 ∧ r.2 = r'.2) (t.record id o) (t'.record id o') := by
  refine (h.get id).bind fun n n' hn => ?_
  rw [isSome_eq_of_rel hn.outcome]
  split
  case isTrue => exact .returned ⟨h, rfl⟩
  case isFalse =>
    refine .returned ⟨⟨?_, h.seen⟩, rfl⟩
    show List.Forall₂ _ _ _
    rw [Array.set!_eq_setIfInBounds, Array.set!_eq_setIfInBounds, Array.toList_setIfInBounds,
      Array.toList_setIfInBounds]
    exact forall₂_set h.nodes ⟨by rw [← hn.same], .some ho⟩ id

theorem pathWithin (fuel id : Nat) : Same Eq (t.pathWithin fuel id) (t'.pathWithin fuel id) := by
  induction fuel generalizing id with
  | zero => exact .trapped _
  | succ fuel ih =>
    refine (h.get id).bind fun n n' hn => ?_
    rw [show n.parent = n'.parent from congrArg Label.parent hn.label_eq]
    split
    case h_1 => exact .returned rfl
    case h_2 parent _ => exact (ih parent).bind fun path path' hpath => .returned (by rw [hpath])

theorem path (id : Nat) : Same Eq (t.path id) (t'.path id) := by
  rw [Tree.path, Tree.path, h.size_eq]
  exact h.pathWithin t'.size id

end Tree.Alike

namespace Beam

theorem trajectory_alike {t t' : Tree} (h : t.Alike Q t') (hQ : Orderly Q) (id : Nat) :
    Same (List.Forall₂ (Waypoint.Alike Q)) (trajectory t id) (trajectory t' id) := by
  refine (h.path id).bind fun path path' hpath => ?_
  subst hpath
  refine Same.mapM fun id => (h.get id).bind fun n n' hn => .returned ⟨?_, ?_⟩
  · simp only [Node.depth, Node.lastEdit?, hn.history_eq, hn.state_eq]
  · exact hQ.nodeCost? hn

/-- Trees that are being expanded, with the same counts. -/
structure Expansion.Alike (Q : Outcome → Outcome → Prop) (x x' : Expansion) : Prop where
  same : { x with tree := x'.tree } = x'
  tree : x.tree.Alike Q x'.tree

namespace Expansion

variable {x x' : Expansion}

theorem Alike.absorb (h : x.Alike Q x') (deduplicate : Bool) (parent : Nat) (c : Candidate) :
    Same (Alike Q) (x.absorb deduplicate parent c) (x'.absorb deduplicate parent c) := by
  obtain ⟨hsame, htree⟩ := h
  rw [← hsame]
  unfold Expansion.absorb
  split
  case h_1 => exact .returned ⟨rfl, htree⟩
  case h_2 k _ =>
    split
    case h_1 => exact .returned ⟨rfl, htree⟩
    case h_2 =>
      simp only [htree.containsState_eq]
      split
      case isTrue => exact .returned ⟨rfl, htree⟩
      case isFalse =>
        exact (htree.addChild parent c.edit k).bind fun r r' hr => .returned ⟨rfl, hr.1⟩

theorem Alike.expandNode (h : x.Alike Q x') (deduplicate : Bool) (actions : List Action)
    (id : Nat) : Same (Alike Q) (x.expandNode deduplicate actions id)
      (x'.expandNode deduplicate actions id) := by
  refine (h.tree.get id).bind fun n n' hn => ?_
  rw [hn.state_eq]
  refine Same.rfl.bind fun cs cs' hcs => ?_
  subst hcs
  exact Same.foldlM h fun c y y' hy => hy.absorb deduplicate id c

theorem Alike.ofTree {t t' : Tree} (h : t.Alike Q t') : (ofTree t).Alike Q (ofTree t') :=
  ⟨rfl, h⟩

end Expansion

/-- The same node is best, at related costs. -/
def BestAlike (Q : Outcome → Outcome → Prop) (best best' : Nat × Cost) : Prop :=
  best.1 = best'.1 ∧ CostsRelated Q best.2 best'.2

/-- New nodes with their outcomes. -/
def EntriesAlike (Q : Outcome → Outcome → Prop) (entries entries' : List (Node × Outcome)) : Prop :=
  List.Forall₂ (fun e e' => e.1.Alike Q e'.1 ∧ Q e.2 e'.2) entries entries'

section Orderly

variable (hQ : Orderly Q)
include hQ

theorem contend_alike {best best' : Nat × Cost} (h : BestAlike Q best best') {o o' : Outcome}
    (ho : Q o o') (id : Nat) : BestAlike Q (contend best (o, id)) (contend best' (o', id)) := by
  have hfailed := hQ.isFailed o o' ho
  cases o with
  | failed failure =>
    cases o' with
    | measured c' => cases hfailed
    | failed failure' => exact h
  | measured c =>
    cases o' with
    | failed failure' => cases hfailed
    | measured c' =>
      simp only [contend, hQ.lt c c' best.2 best'.2 ho h.2]
      split
      case isTrue => exact ⟨rfl, ho⟩
      case isFalse => exact h

theorem recordAll_alike {t t' : Tree} (ht : t.Alike Q t') {best best' : Nat × Cost}
    (hbest : BestAlike Q best best') {entries entries' : List (Node × Outcome)}
    (h : EntriesAlike Q entries entries') :
    Same (fun r r' => r.1.Alike Q r'.1 ∧ BestAlike Q r.2 r'.2) (recordAll t best entries)
      (recordAll t' best' entries') := by
  induction h generalizing t t' best best' with
  | nil => exact .returned ⟨ht, hbest⟩
  | @cons e e' rest rest' hfirst _ ih =>
    obtain ⟨n, o⟩ := e
    obtain ⟨n', o'⟩ := e'
    rw [recordAll_cons, recordAll_cons, hfirst.1.id_eq]
    refine (ht.record n'.id hfirst.2).bind fun r r' hr => ?_
    exact ih hr.1 (contend_alike hQ hbest hfirst.2 n'.id)

/-- The same nodes survive. -/
theorem select_alike (width : Nat) {entries entries' : List (Node × Outcome)}
    (h : EntriesAlike Q entries entries') : select width entries = select width entries' := by
  unfold select
  refine map_eq_of_forall₂ (R := fun a a' => CostsRelated Q a.1 a'.1 ∧ a.2 = a'.2)
    (List.forall₂_take width (forall₂_mergeSort (List.rel_filterMap ?_ h) ?_)) fun a a' ha => ha.2
  · intro e e' he
    have hcost := hQ.cost? he.2
    simp only [he.1.id_eq]
    generalize e.2.cost? = c at hcost
    generalize e'.2.cost? = c' at hcost
    cases hcost with
    | none => exact .none
    | some hc => exact .some ⟨hc, rfl⟩
  · intro a c a' c' ha hc
    rw [ranksBefore, ranksBefore, hQ.lt _ _ _ _ ha.1 hc.1, hQ.le ha.1 hc.1, ha.2, hc.2]

/-- The same number of outcomes failed. -/
theorem countP_alike {outcomes outcomes' : List Outcome} (h : List.Forall₂ Q outcomes outcomes')
    (p : Bool → Bool) : outcomes.countP (p ·.isFailed) = outcomes'.countP (p ·.isFailed) := by
  have hflags := map_eq_of_forall₂ h hQ.isFailed
  calc outcomes.countP (p ·.isFailed)
      = (outcomes.map Outcome.isFailed).countP p := by rw [List.countP_map]; rfl
    _ = outcomes'.countP (p ·.isFailed) := by rw [hflags, List.countP_map]; rfl

end Orderly

/-- Searches after some levels that differ in outcomes and times alone. -/
structure Progress.Alike (Q : Outcome → Outcome → Prop) (p p' : Progress) : Prop where
  tree : p.tree.Alike Q p'.tree
  best : BestAlike Q p.best p'.best
  frontier : p.frontier = p'.frontier
  frontiers : p.frontiers = p'.frontiers
  levels : List.Forall₂ (Level.Alike Q) p.levels p'.levels

theorem stats_alike {levels levels' : List Level}
    (h : List.Forall₂ (Level.Alike Q) levels levels') {s s' : Stats} (hs : s.Alike s') :
    (levels.foldl Stats.absorb s).Alike (levels'.foldl Stats.absorb s') := by
  induction h generalizing s s' with
  | nil => exact hs
  | @cons l l' _ _ hfirst _ ih =>
    refine ih ?_
    unfold Stats.Alike at hs ⊢
    rw [← hs, ← hfirst.same]
    rfl

theorem conclude_alike (hQ : Orderly Q) {p p' : Progress} (h : p.Alike Q p')
    {baseline baseline' : Cost}
    (hbaseline : CostsRelated Q baseline baseline') (termination : Termination)
    (elapsed elapsed' : Duration) : Same (Exploration.Alike Q)
      (conclude p baseline termination elapsed) (conclude p' baseline' termination elapsed') := by
  unfold conclude
  rw [h.best.1]
  refine (h.tree.get p'.best.1).bind fun n n' hn => ?_
  refine (trajectory_alike h.tree hQ p'.best.1).bind fun path path' hpath => .returned ?_
  refine ⟨h.tree, h.frontiers, hn.history_eq, h.best.2, hbaseline, hn.state_eq, hpath, h.levels, ?_,
    rfl⟩
  refine stats_alike h.levels ?_
  rw [h.tree.size_eq]
  rfl

section Runs

variable {m n : Type → Type} [Monad m] [LawfulMonad m] [MonadExceptOf Trap m] [Monad n]
  [LawfulMonad n] [MonadExceptOf Trap n] {b : Beam} {actions : List Action}
  {evaluator : Evaluator m} {evaluator' : Evaluator n} {elapsed now : m Duration}
  {elapsed' now' : n Duration}

section Coupled

variable (C : Coupling m n) (hQ : Orderly Q)
  (hevaluator : ∀ k, C.Rel Q (evaluator.evaluate k) (evaluator'.evaluate k))
include hQ hevaluator

/-- A level. -/
theorem step_coupled (helapsed : C.Rel (fun _ _ => True) elapsed elapsed') (depth : Nat)
    {p p' : Progress} (hp : p.Alike Q p') :
    C.Rel (Progress.Alike Q) (b.step actions evaluator elapsed depth p)
      (b.step actions evaluator' elapsed' depth p') := by
  unfold step
  rw [hp.frontier]
  have hexpanded : Same (Expansion.Alike Q)
      (p'.frontier.foldlM (Expansion.expandNode b.deduplicate actions) (.ofTree p.tree))
      (p'.frontier.foldlM (Expansion.expandNode b.deduplicate actions) (.ofTree p'.tree)) :=
    Same.foldlM (.ofTree hp.tree) fun id x x' hx => hx.expandNode b.deduplicate actions id
  refine C.rel_bind (C.liftExcept hexpanded) fun x x' hx => ?_
  have hcreated : List.Forall₂ (Node.Alike Q) (x.tree.nodes.toList.drop p.tree.size)
      (x'.tree.nodes.toList.drop p'.tree.size) := by
    rw [hp.tree.size_eq]
    exact List.forall₂_drop _ hx.tree.nodes
  have houtcomes : ∀ l l' : Node, l.Alike Q l' →
      C.Rel Q (evaluator.evaluate l.state) (evaluator'.evaluate l'.state) := by
    intro l l' hl
    rw [hl.state_eq]
    exact hevaluator l'.state
  refine C.rel_bind (C.mapM hcreated houtcomes) fun outcomes outcomes' ho => ?_
  have hentries := forall₂_zip hcreated ho
  refine C.rel_bind (C.liftExcept (recordAll_alike hQ hx.tree hp.best hentries)) fun r r' hr => ?_
  have hselect := select_alike hQ b.width hentries
  have hmeasured : outcomes.countP (!·.isFailed) = outcomes'.countP (!·.isFailed) :=
    countP_alike hQ ho (!·)
  have hfailed : outcomes.countP (·.isFailed) = outcomes'.countP (·.isFailed) :=
    countP_alike hQ ho id
  refine C.rel_bind helapsed fun time time' _ => C.rel_pure ?_
  refine ⟨hr.1, hr.2, hselect, by rw [hp.frontiers, hselect], ?_⟩
  refine List.rel_append hp.levels (.cons ⟨?_, hr.2.2⟩ .nil)
  rw [hselect, hmeasured, hfailed, ← hx.same]

theorem descend_coupled (hbudget : b.budgetMillis = none)
    (helapsed : C.Rel (fun _ _ => True) elapsed elapsed') (levels depth : Nat)
    {p p' : Progress} (hp : p.Alike Q p') :
    C.Rel (fun r r' => r.1.Alike Q r'.1 ∧ r.2 = r'.2)
      (b.descend actions evaluator elapsed levels depth p)
      (b.descend actions evaluator' elapsed' levels depth p') := by
  induction levels generalizing depth p p' with
  | zero => exact C.rel_pure ⟨hp, rfl⟩
  | succ levels ih =>
    unfold descend
    rw [hbudget]
    refine C.rel_bind helapsed fun time time' _ => ?_
    refine C.rel_bind (step_coupled C hQ hevaluator helapsed depth hp) fun next next' hnext => ?_
    rw [hnext.frontier]
    split
    case isTrue => exact C.rel_pure ⟨hnext, rfl⟩
    case isFalse => exact ih (depth + 1) hnext

/-- Whole searches without a time budget. -/
theorem explore_coupled (hbudget : b.budgetMillis = none)
    (hnow : C.Rel (fun _ _ => True) now now') (root : Kernel) :
    C.Rel (Answers (fun failure failure' => Q (.failed failure) (.failed failure'))
        (Exploration.Alike Q)) (b.explore root actions evaluator now)
      (b.explore root actions evaluator' now') := by
  unfold explore
  split
  case h_1 reason _ => exact C.rel_pure (.refused _)
  case h_2 =>
    split
    case h_1 violation _ => exact C.rel_pure (.refused _)
    case h_2 =>
      refine C.rel_bind hnow fun start start' _ => ?_
      have helapsed : C.Rel (fun _ _ => True) (do return (← now).since start : m Duration)
          (do return (← now').since start' : n Duration) :=
        C.rel_bind hnow fun _ _ _ => C.rel_pure trivial
      refine C.rel_bind (hevaluator root) fun o o' ho => ?_
      have hfailed := hQ.isFailed o o' ho
      cases o with
      | failed failure =>
        cases o' with
        | measured c' => cases hfailed
        | failed failure' => exact C.rel_pure (.rootFailed ho)
      | measured c =>
        cases o' with
        | failed failure' => cases hfailed
        | measured c' =>
          have hroot : (Tree.ofRoot root).Alike Q (Tree.ofRoot root) :=
            ⟨.cons ⟨rfl, .none⟩ .nil, rfl⟩
          refine C.rel_bind (C.liftExcept (hroot.record 0 ho)) fun r r' hr => ?_
          have hstart : Progress.Alike Q ⟨r.1, (0, c), [0], [], []⟩ ⟨r'.1, (0, c'), [0], [], []⟩ :=
            ⟨hr.1, ⟨rfl, ho⟩, rfl, rfl, .nil⟩
          refine C.rel_bind (descend_coupled C hQ hevaluator hbudget helapsed b.maxDepth 1 hstart)
            fun final final' hfinal => ?_
          refine C.rel_bind helapsed fun time time' _ => ?_
          obtain ⟨hfinal, htermination⟩ := hfinal
          rw [htermination]
          refine C.rel_bind (C.liftExcept (conclude_alike hQ hfinal ho _ _ _)) ?_
          exact fun x x' hx => C.rel_pure (.found hx)

end Coupled

/-- Searches along a relation between the states. -/
theorem explore_simulates {σ τ : Type} [Stateful m σ] [Stateful n τ] {I : σ → τ → Prop}
    (hQ : Orderly Q)
    (hevaluator : ∀ k, Simulates I Q (evaluator.evaluate k) (evaluator'.evaluate k))
    (hbudget : b.budgetMillis = none) (hnow : Simulates I (fun _ _ => True) now now')
    (root : Kernel) :
    Simulates I (Answers (fun failure failure' => Q (.failed failure) (.failed failure'))
        (Exploration.Alike Q)) (b.explore root actions evaluator now)
      (b.explore root actions evaluator' now') :=
  explore_coupled (Simulates.coupling I) hQ hevaluator hbudget hnow root

end Runs

end Beam

section Untimed

def Level.untimed (l : Level) : Level :=
  { l with elapsedMillis := 0 }

def Stats.untimed (s : Stats) : Stats :=
  { s with elapsedMillis := 0 }

/-- A search without its times. -/
def Exploration.untimed (x : Exploration) : Exploration :=
  { x with result := { x.result with
    levels := x.result.levels.map Level.untimed, stats := x.result.stats.untimed } }

theorem eq_of_costsRelated (c c' : Cost) (h : CostsRelated Eq c c') : c = c' :=
  Outcome.measured.inj h

theorem Node.Alike.eq (n n' : Node) (h : n.Alike Eq n') : n = n' := by
  rw [← h.same, ← eq_of_rel (fun _ _ ho => ho) h.outcome]

theorem Waypoint.Alike.eq (w w' : Waypoint) (h : w.Alike Eq w') : w = w' := by
  rw [← h.same, ← eq_of_rel eq_of_costsRelated h.cost]

theorem Level.Alike.untimed_eq (l l' : Level) (h : l.Alike Eq l') : l.untimed = l'.untimed := by
  rw [← h.same, ← eq_of_costsRelated _ _ h.best]
  rfl

theorem Tree.Alike.eq {t t' : Tree} (h : t.Alike Eq t') : t = t' := by
  have hnodes := Array.toList_inj.1 (eq_of_forall₂ Node.Alike.eq h.nodes)
  exact congr (congrArg Tree.mk hnodes) h.seen

theorem Exploration.tree_eq_of_untimed {x y : Exploration} (h : x.untimed = y.untimed) :
    x.tree = y.tree := by
  have htree : x.untimed.tree = y.untimed.tree := by rw [h]
  exact htree

/-- Searches with the same outcomes differ in their times alone. -/
theorem Exploration.Alike.untimed_eq {x y : Exploration} (h : x.Alike Eq y) :
    x.untimed = y.untimed := by
  have htree : x.tree = y.tree := h.tree.eq
  have hlevels : x.result.levels.map Level.untimed = y.result.levels.map Level.untimed :=
    map_eq_of_forall₂ h.levels Level.Alike.untimed_eq
  have hstats : x.result.stats.untimed = y.result.stats.untimed := by
    rw [← h.stats]
    rfl
  simp only [untimed, htree, hlevels, hstats, h.frontiers, h.bestHistory, h.bestState,
    h.termination, eq_of_costsRelated _ _ h.bestCost, eq_of_costsRelated _ _ h.baseline,
    eq_of_forall₂ Waypoint.Alike.eq h.trajectory]

end Untimed

end NestTuner
