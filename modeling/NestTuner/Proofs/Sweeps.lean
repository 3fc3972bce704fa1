import NestTuner.Proofs.Ranking

/-!
A search by a function, seen without its tree. It is a sequence of sweeps: the variants of the
frontier give their offspring, what is novel of it is added to the variants found, and the cheapest
of that make up the next frontier. The sort is stable, so that identifiers play no part in it: of
equal costs the one found first comes first.
-/

namespace NestTuner

/-- A stable sort keeps entries in order that are in order already. -/
theorem filter_mergeSort {α : Type} {le : α → α → Bool}
    (htrans : ∀ a b c, le a b = true → le b c = true → le a c = true)
    (htotal : ∀ a b, (le a b || le b a) = true) {xs : List α} {p : α → Bool}
    (h : (xs.filter p).Pairwise fun a b => le a b = true) :
    (xs.mergeSort le).filter p = xs.filter p := by
  have hsub := (List.sublist_mergeSort htrans htotal h List.filter_sublist).filter p
  simp only [List.filter_filter, Bool.and_self] at hsub
  exact (hsub.eq_of_length ((List.mergeSort_perm xs le).filter p).length_eq.symm).symm

section Keyed

variable {α : Type} {key : α → Int}

theorem mem_iff_of_filter_eq {xs ys : List α}
    (h : ∀ c, xs.filter (key · = c) = ys.filter (key · = c)) (a : α) : a ∈ xs ↔ a ∈ ys := by
  have hiff : a ∈ xs.filter (key · = key a) ↔ a ∈ ys.filter (key · = key a) := by rw [h]
  simpa using hiff

/-- Lists that are sorted by a key are equal if they agree on the entries of each key. -/
theorem eq_of_filter_eq {xs ys : List α} (hxs : xs.Pairwise fun a b => key a ≤ key b)
    (hys : ys.Pairwise fun a b => key a ≤ key b)
    (h : ∀ c, xs.filter (key · = c) = ys.filter (key · = c)) : xs = ys := by
  have hmem := mem_iff_of_filter_eq h
  induction xs generalizing ys with
  | nil => exact (List.eq_nil_iff_forall_not_mem.mpr fun a ha => by cases (hmem a).mpr ha).symm
  | cons x xs ih =>
    cases ys with
    | nil => cases (hmem x).mp (List.mem_cons_self ..)
    | cons y ys =>
      obtain ⟨hx, hxs'⟩ := List.pairwise_cons.mp hxs
      obtain ⟨hy, hys'⟩ := List.pairwise_cons.mp hys
      have hkey : key x = key y := by
        refine Int.le_antisymm ?_ ?_
        · rcases List.mem_cons.mp ((hmem y).mpr (List.mem_cons_self ..)) with rfl | hlater
          · exact Int.le_refl _
          · exact hx y hlater
        · rcases List.mem_cons.mp ((hmem x).mp (List.mem_cons_self ..)) with rfl | hlater
          · exact Int.le_refl _
          · exact hy x hlater
      have hfirst := h (key x)
      rw [List.filter_cons_of_pos (by simp), List.filter_cons_of_pos (by simp [hkey])] at hfirst
      have hrest : ∀ c, xs.filter (key · = c) = ys.filter (key · = c) := by
        intro c
        have hc := h c
        rw [List.filter_cons, List.filter_cons, hkey] at hc
        split at hc
        case isTrue => exact (List.cons.inj hc).2
        case isFalse => exact hc
      rw [(List.cons.inj hfirst).1, ih hxs' hys' hrest (mem_iff_of_filter_eq hrest)]

/-- An order that refines a key, and of equal keys the order of the list, sorts like the key. -/
theorem mergeSort_eq_of_refines {le : α → α → Bool}
    (htrans : ∀ a b c, le a b = true → le b c = true → le a c = true)
    (htotal : ∀ a b, (le a b || le b a) = true) (hle : ∀ a b, le a b = true → key a ≤ key b)
    {xs : List α} (hxs : xs.Pairwise fun a b => key a = key b → le a b = true) :
    xs.mergeSort le = xs.mergeSort fun a b => key a ≤ key b := by
  have htrans' : ∀ a b c, decide (key a ≤ key b) = true → decide (key b ≤ key c) = true →
      decide (key a ≤ key c) = true := by
    simp only [decide_eq_true_eq]
    omega
  have htotal' : ∀ a b, (decide (key a ≤ key b) || decide (key b ≤ key a)) = true := by
    simp only [Bool.or_eq_true, decide_eq_true_eq]
    omega
  refine eq_of_filter_eq ((List.pairwise_mergeSort htrans htotal xs).imp (hle _ _))
    ((List.pairwise_mergeSort htrans' htotal' xs).imp of_decide_eq_true) fun c => ?_
  have hequal : ∀ a ∈ xs.filter (key · = c), key a = c :=
    fun a ha => of_decide_eq_true (List.mem_filter.mp ha).2
  rw [filter_mergeSort htrans htotal, filter_mergeSort htrans' htotal']
  · refine List.pairwise_of_forall_mem_list fun a ha b hb => ?_
    rw [hequal a ha, hequal b hb]
    exact decide_eq_true (Int.le_refl c)
  · refine List.Pairwise.imp_of_mem (fun ha hb h => h ?_) (hxs.filter _)
    rw [hequal _ ha, hequal _ hb]

end Keyed

/-- The cost of an outcome, for outcomes that have one. -/
def Outcome.price : Outcome → Cost
  | measured cost => cost
  | failed _ => ⟨0⟩

namespace Variant

def measured (f : Kernel → Outcome) (v : Variant) : Bool :=
  !(f v.state).isFailed

def rank (f : Kernel → Outcome) (v : Variant) : Int :=
  (f v.state).price.rank

/-- The variants that have a cost, cheaper ones first. -/
def cheapestFirst (f : Kernel → Outcome) (vs : List Variant) : List Variant :=
  (vs.filter (measured f)).mergeSort fun v w => v.rank f ≤ w.rank f

theorem mem_cheapestFirst {f : Kernel → Outcome} {vs : List Variant} {v : Variant} :
    v ∈ cheapestFirst f vs ↔ v ∈ vs ∧ v.measured f = true := by
  rw [cheapestFirst, List.mem_mergeSort, List.mem_filter]

/-- Variants of one cost stay in order. -/
theorem cheapestFirst_eq_self {f : Kernel → Outcome} {vs : List Variant} {c : Cost}
    (h : ∀ v ∈ vs, f v.state = .measured c) : cheapestFirst f vs = vs := by
  have hmeasured : ∀ v ∈ vs, v.measured f = true := fun v hv => by
    rw [measured, h v hv]
    rfl
  have hrank : vs.Pairwise fun v w => decide (v.rank f ≤ w.rank f) = true :=
    List.pairwise_of_forall_mem_list fun v hv w hw => by simp [rank, h v hv, h w hw]
  rw [cheapestFirst, List.filter_eq_self.2 hmeasured, List.mergeSort_of_pairwise hrank]

theorem rank_trans (f : Kernel → Outcome) (u v w : Variant)
    (huv : decide (u.rank f ≤ v.rank f) = true) (hvw : decide (v.rank f ≤ w.rank f) = true) :
    decide (u.rank f ≤ w.rank f) = true := by
  rw [decide_eq_true_eq] at *
  omega

theorem rank_total (f : Kernel → Outcome) (v w : Variant) :
    (decide (v.rank f ≤ w.rank f) || decide (w.rank f ≤ v.rank f)) = true := by
  rw [Bool.or_eq_true, decide_eq_true_eq, decide_eq_true_eq]
  omega

theorem cheapestFirst_sorted (f : Kernel → Outcome) (vs : List Variant) :
    (cheapestFirst f vs).Pairwise fun v w => v.rank f ≤ w.rank f :=
  (List.pairwise_mergeSort (rank_trans f) (rank_total f) _).imp of_decide_eq_true

theorem filter_cheapestFirst (f : Kernel → Outcome) (vs : List Variant) (c : Int) :
    (cheapestFirst f vs).filter (·.rank f = c) =
      (vs.filter (measured f)).filter (·.rank f = c) := by
  refine filter_mergeSort (rank_trans f) (rank_total f) ?_
  refine List.pairwise_of_forall_mem_list fun v hv w hw => ?_
  rw [of_decide_eq_true (List.mem_filter.mp hv).2, of_decide_eq_true (List.mem_filter.mp hw).2]
  exact decide_eq_true (Int.le_refl c)

/-- The first of the cheapest variants. -/
structure Foremost (f : Kernel → Outcome) (vs : List Variant) (v : Variant) : Prop where
  least : ∀ w ∈ vs, w.measured f = true → v.rank f ≤ w.rank f
  first : vs.find? (fun w => w.measured f && w.rank f == v.rank f) = some v

namespace Foremost

theorem mem (h : Foremost f vs v) : v ∈ vs ∧ v.measured f = true := by
  have hv := List.find?_some h.first
  rw [Bool.and_eq_true] at hv
  exact ⟨List.mem_of_find?_eq_some h.first, hv.1⟩

theorem unique (hv : Foremost f vs v) (hw : Foremost f vs w) : v = w := by
  have hrank : v.rank f = w.rank f :=
    Int.le_antisymm (hv.least w hw.mem.1 hw.mem.2) (hw.least v hv.mem.1 hv.mem.2)
  have hfirst := hv.first
  rw [hrank, hw.first] at hfirst
  exact (Option.some.inj hfirst).symm

/-- What leads a list of outcomes is the first of the cheapest. -/
theorem of_leads {best : Nat × Cost}
    (h : Beam.Leads (vs.map fun v => some (f v.state)) best) (hv : vs[best.1]? = some v) :
    Foremost f vs v ∧ f v.state = .measured best.2 := by
  have hplace : ∀ {i : Nat} {w : Variant}, vs[i]? = some w → w.measured f = true →
      ∃ c, (vs.map fun v => some (f v.state))[i]? = some (some (.measured c)) ∧
        w.rank f = c.rank := by
    intro i w hw hmeasured
    rw [List.getElem?_map, hw]
    unfold measured at hmeasured
    unfold rank
    cases ho : f w.state with
    | measured c => exact ⟨c, by simp [ho], rfl⟩
    | failed failure => simp [ho, Outcome.isFailed] at hmeasured
  have hcost : f v.state = .measured best.2 := by
    have hattained := h.attained
    rw [List.getElem?_map, hv] at hattained
    exact Option.some.inj (Option.some.inj hattained)
  have hrank : v.rank f = best.2.rank := by
    rw [rank, hcost]
    rfl
  refine ⟨⟨fun w hw hmeasured => ?_, ?_⟩, hcost⟩
  · obtain ⟨i, hi⟩ := List.getElem?_of_mem hw
    obtain ⟨c, hc, hw⟩ := hplace hi hmeasured
    rw [hrank, hw]
    exact h.least i c hc
  · obtain ⟨hlt, hget⟩ := List.getElem?_eq_some_iff.mp hv
    refine List.find?_eq_some_iff_getElem.mpr ⟨?_, best.1, hlt, hget, fun j hj => ?_⟩
    · simp [measured, hcost, Outcome.isFailed]
    · rw [Bool.not_eq_true', Bool.and_eq_false_imp]
      intro hmeasured
      obtain ⟨c, hc, hw⟩ := hplace (List.getElem?_eq_getElem (by omega)) hmeasured
      have hbefore := h.first j c hc hj
      rw [hw, hrank]
      simp only [beq_eq_false_iff_ne, ne_eq]
      omega

end Foremost

end Variant

namespace Beam

/-- The variants found so far, and those of them to be expanded next. -/
structure Sweep where
  variants : List Variant
  frontier : List Variant

namespace Sweep

def start (root : Kernel) : Sweep :=
  ⟨[⟨[], root⟩], [⟨[], root⟩]⟩

/-- The variants that the next sweep adds. -/
def found (deduplicate : Bool) (actions : List Action) (s : Sweep) : List Variant :=
  Variant.novel deduplicate (s.variants.map Variant.nest)
    (s.frontier.flatMap (Variant.offspring actions))

def next (b : Beam) (actions : List Action) (f : Kernel → Outcome) (s : Sweep) : Sweep :=
  ⟨s.variants ++ s.found b.deduplicate actions,
    (Variant.cheapestFirst f (s.found b.deduplicate actions)).take b.width⟩

/-- Nothing comes after an empty frontier. -/
theorem next_of_nil {b : Beam} {actions : List Action} {f : Kernel → Outcome} {s : Sweep}
    (h : s.frontier = []) : s.next b actions f = s := by
  obtain ⟨variants, frontier⟩ := s
  obtain rfl : frontier = [] := h
  simp [next, found, Variant.novel, Variant.cheapestFirst]

theorem iterate_of_nil {b : Beam} {actions : List Action} {f : Kernel → Outcome} {s : Sweep}
    (h : s.frontier = []) (n : Nat) : (next b actions f)^[n] s = s :=
  Function.iterate_fixed (next_of_nil h) n

end Sweep

variable {σ : Type} {b : Beam} {root : Kernel} {actions : List Action} {f : Kernel → Outcome}
  {d : Nat} {p p' : Progress} {x : Expansion} {outcomes : List Outcome} {level : Level}

/-- The nodes of a progress and its frontier are those of a sweep. -/
structure Follows (p : Progress) (s : Sweep) : Prop where
  linked : p.tree.Linked
  variants : p.tree.labels.map Label.variant = s.variants
  frontier : ∃ parents, List.Forall₂ (fun id l => p.tree.labels[id]? = some l) p.frontier parents ∧
    parents.map Label.variant = s.frontier

/-- A new label with its cost, as selection compares it. -/
def priced (f : Kernel → Outcome) (l : Label) : Cost × Nat :=
  ((f l.state).price, l.id)

/-- For labels in the order of their numbers, selection is a stable sort by cost. -/
theorem mergeSort_priced {new : List Label} (hids : new.Pairwise fun l m => l.id < m.id) :
    new.mergeSort (fun l m => ranksBefore (priced f l) (priced f m)) =
      new.mergeSort fun l m => l.variant.rank f ≤ m.variant.rank f := by
  refine mergeSort_eq_of_refines (fun l m n => ranksBefore_trans (priced f l) (priced f m) _)
    (fun l m => ranksBefore_total (priced f l) (priced f m)) ?_ ?_
  · intro l m h
    simp only [ranksBefore, Bool.or_eq_true, Bool.and_eq_true, Cost.lt_iff, Cost.le_iff] at h
    rcases h with h | ⟨h, -⟩
    · exact h.le
    · exact h
  · refine hids.imp fun {l m} hlt hequal => ?_
    simp only [ranksBefore, Bool.or_eq_true, Bool.and_eq_true, Cost.le_iff, decide_eq_true_eq]
    exact Or.inr ⟨hequal.le, hlt.le⟩

theorem filterMap_cost? (new : List Label) :
    new.filterMap (fun l => (f l.state).cost?.map fun cost => (cost, l.id)) =
      (new.filter fun l => l.variant.measured f).map (priced f) := by
  induction new with
  | nil => rfl
  | cons l rest ih =>
    have hvariant : l.variant.measured f = !(f l.state).isFailed := rfl
    rw [List.filterMap_cons, List.filter_cons, ih, hvariant]
    cases ho : f l.state <;> simp [priced, ho, Outcome.cost?, Outcome.isFailed, Outcome.price]

/-- The labels that a level keeps, found by a stable sort. -/
def survivors (b : Beam) (f : Kernel → Outcome) (new : List Label) : List Label :=
  ((new.filter fun l => l.variant.measured f).mergeSort
    fun l m => l.variant.rank f ≤ m.variant.rank f).take b.width

theorem variant_survivors (b : Beam) (f : Kernel → Outcome) (new : List Label) :
    (survivors b f new).map Label.variant =
      (Variant.cheapestFirst f (new.map Label.variant)).take b.width := by
  rw [survivors, Variant.cheapestFirst, List.map_take, List.filter_map,
    List.map_mergeSort (s := fun v w : Variant => decide (v.rank f ≤ w.rank f))
      (fun _ _ _ _ => rfl)]
  rfl

theorem mem_of_mem_survivors {new : List Label} {l : Label} (h : l ∈ survivors b f new) :
    l ∈ new :=
  (List.mem_filter.mp (List.mem_mergeSort.mp (List.mem_of_mem_take h))).1

theorem Stage.outcomes_eq
    (h : Stage b actions (.ofFunction f : Evaluator (StateT σ Checked)) d p x outcomes level p') :
    outcomes = (created p x).map fun n => f n.state := by
  rw [← List.forall₂_eq_eq_eq, List.forall₂_map_right_iff]
  exact h.evaluated.flip.imp fun o n ho => Yields.pure_inv ho

/-- Selection keeps the survivors. -/
theorem Stage.frontier_eq
    (h : Stage b actions (.ofFunction f : Evaluator (StateT σ Checked)) d p x outcomes level p')
    {new : List Label} (hnew : Extends root actions p.frontier p.tree x.tree new) :
    p'.frontier = (survivors b f new).map (·.id) := by
  have hcosted : ((created p x).zip outcomes).filterMap
      (fun e => e.2.cost?.map fun cost => (cost, e.1.id)) =
        (new.filter fun l => l.variant.measured f).map (priced f) := by
    rw [← filterMap_cost?, ← hnew.created, List.filterMap_map, h.outcomes_eq,
      ← List.map_prod_left_eq_zip, List.filterMap_map]
    rfl
  have hids : (new.filter fun l => l.variant.measured f).Pairwise fun l m => l.id < m.id := by
    have hall := hnew.grown.pairwise_id
    rw [hnew.labels] at hall
    exact (List.pairwise_append.mp hall).2.1.filter _
  rw [h.frontier, select]
  simp only
  rw [hcosted, ← List.map_mergeSort (f := priced f) (fun _ _ _ _ => rfl), mergeSort_priced hids,
    ← List.map_take, List.map_map, survivors]
  rfl

/-- A level is a sweep. -/
theorem Follows.stage {s : Sweep} (hfollows : Follows p s)
    (h : Stage b actions (.ofFunction f : Evaluator (StateT σ Checked)) d p x outcomes level p')
    (hp : Grown root actions p.tree.labels) : Follows p' (s.next b actions f) := by
  obtain ⟨parents, hparents, hfrontier⟩ := hfollows.frontier
  obtain ⟨new, hnew⟩ := extends_of_ok hp h.expanded
  obtain ⟨blocks, hblocks, -, hvariants⟩ :=
    Expansion.exists_blocks h.expanded hfollows.linked.indexed hparents
  have hlabels : p'.tree.labels = p.tree.labels ++ new := (h.filled hnew).1.trans hnew.labels
  obtain rfl : new = blocks.flatten := List.append_cancel_left (hnew.labels.symm.trans hblocks)
  have hfound : blocks.flatten.map Label.variant = s.found b.deduplicate actions := by
    have hnests : (Expansion.ofTree p.tree).tree.nests = s.variants.map Variant.nest := by
      rw [← hfollows.variants, List.map_map]
      rfl
    rw [hvariants, hfrontier, hnests]
    rfl
  refine ⟨recordAll_linked h.recorded (expanded_linked hp hfollows.linked h.expanded), ?_,
    survivors b f blocks.flatten, ?_, ?_⟩
  · rw [hlabels, List.map_append, hfollows.variants, hfound]
    rfl
  · rw [h.frontier_eq hnew, List.forall₂_map_left_iff, List.forall₂_same]
    intro l hl
    have hmem : l ∈ p'.tree.labels := by
      rw [hlabels]
      exact List.mem_append_right _ (mem_of_mem_survivors hl)
    obtain ⟨i, hi⟩ := List.getElem?_of_mem hmem
    have hgrown : Grown root actions p'.tree.labels := by
      rw [(h.filled hnew).1]
      exact hnew.grown
    rw [hgrown.id_eq hi, hi]
  · rw [variant_survivors, hfound]
    rfl

theorem Reaches.follows {baseline : Cost}
    (h : Reaches b actions (.ofFunction f : Evaluator (StateT σ Checked)) (.start root baseline)
      d p)
    (hmeasured : Yields ((Evaluator.ofFunction f).evaluate root : StateT σ Checked Outcome)
      (.measured baseline)) :
    Follows p ((Sweep.next b actions f)^[d] (Sweep.start root)) := by
  induction h with
  | start => exact ⟨Tree.linked_root .., rfl, [⟨0, none, [], root⟩], .cons rfl .nil, rfl⟩
  | level reached _ stage ih =>
    rw [Function.iterate_succ_apply']
    exact ih.stage stage (reached.sound hmeasured).grown

section Result

variable {x : Exploration} {baseline : Cost} {best : Node}
  (h : Explores b root actions (.ofFunction f : Evaluator (StateT σ Checked)) x baseline d p best)
include h

theorem Explores.root_measured : (f root).isFailed = false := by
  rw [← h.measured.pure_inv]
  rfl

/-- Without a time budget, a search finds what as many sweeps find as it may go deep. -/
theorem Explores.variants_eq (hbudget : b.budgetMillis = none) :
    x.tree.labels.map Label.variant =
      ((Sweep.next b actions f)^[b.maxDepth] (Sweep.start root)).variants := by
  have hfollows := h.reached.follows h.measured
  have hdepth := h.depth_le
  have hstopped := h.stopped
  rw [h.concluded.tree, hfollows.variants]
  generalize x.result.termination = termination at hstopped
  cases hstopped with
  | maxDepth deep _ => rw [deep]
  | emptyFrontier empty =>
    -- The sweeps that the search leaves out would find nothing.
    obtain ⟨parents, hparents, hfrontier⟩ := hfollows.frontier
    rw [empty] at hparents
    cases hparents
    rw [← Nat.sub_add_cancel hdepth, Function.iterate_add_apply,
      Sweep.iterate_of_nil hfrontier.symm]
  | budgetExhausted limited => exact absurd hbudget limited

/-- The result names the first of the cheapest variants. -/
theorem Explores.foremost : Variant.Foremost f (x.tree.labels.map Label.variant)
    ⟨x.result.bestHistory, x.result.bestState⟩ ∧
      f x.result.bestState = .measured x.result.bestCost := by
  have hsound := h.reached.sound h.measured
  have houtcomes : p.tree.outcomes =
      (p.tree.labels.map Label.variant).map fun v => some (f v.state) := by
    rw [List.map_map, ← List.forall₂_eq_eq_eq, List.forall₂_map_right_iff]
    refine hsound.evaluated.flip.imp fun o l ho => ?_
    obtain ⟨outcome, rfl, hyields⟩ := ho
    rw [hyields.pure_inv]
    rfl
  have hleads := hsound.best
  rw [houtcomes] at hleads
  have hbest : (p.tree.labels.map Label.variant)[p.best.1]? = some best.label.variant := by
    rw [List.getElem?_map, Tree.label_of_get? h.concluded.found]
    rfl
  rw [h.concluded.tree, h.concluded.history, h.concluded.state, h.concluded.cost]
  exact Variant.Foremost.of_leads hleads hbest

end Result

end Beam

end NestTuner
