import NestTuner.Proofs.Sweeps

/-!
Sweeps with deduplication beside sweeps without it, both kept whole. Variants of one root with the
same nest have the same state, so what is dropped has the cost and the offspring of what was found
before it. After every sweep the variants found with deduplication are therefore the first ones of
each nest among all, and so are those of its frontier among the ones that are not known already.
-/

namespace NestTuner

namespace Variant

variable {root : Kernel} {actions : List Action} {f : Kernel → Outcome} {seen seen' : List Nest}
  {vs : List Variant} {v w : Variant}

/-- Everything but the nest is that of a root. -/
def OfRoot (root : Kernel) (v : Variant) : Prop :=
  v.state = { root with nest := v.nest }

theorem OfRoot.state_eq (hv : v.OfRoot root) (hw : w.OfRoot root) (h : v.nest = w.nest) :
    v.state = w.state := by
  rw [hv, hw, h]

theorem novel_cons (seen : List Nest) (v : Variant) (rest : List Variant) :
    novel true seen (v :: rest) = if v.nest ∈ seen then novel true seen rest
      else v :: novel true (seen ++ [v.nest]) rest := by
  simp [novel]

theorem novel_sublist (deduplicate : Bool) (seen : List Nest) (vs : List Variant) :
    (novel deduplicate seen vs).Sublist vs := by
  induction vs generalizing seen with
  | nil => exact .slnil
  | cons v rest ih =>
    rw [novel]
    split
    case isTrue => exact (ih seen).cons v
    case isFalse => exact (ih _).cons_cons v

/-- Only the nests in question matter. -/
theorem novel_congr (h : ∀ v ∈ vs, v.nest ∈ seen ↔ v.nest ∈ seen') :
    novel true seen vs = novel true seen' vs := by
  induction vs generalizing seen seen' with
  | nil => rfl
  | cons v rest ih =>
    have hrest : ∀ w ∈ rest, w.nest ∈ seen ↔ w.nest ∈ seen' :=
      fun w hw => h w (List.mem_cons_of_mem v hw)
    rw [novel_cons, novel_cons, ih hrest]
    simp only [h v (List.mem_cons_self ..)]
    congr 2
    refine ih fun w hw => ?_
    rw [List.mem_append, List.mem_append, hrest w hw]

/-- What is dropped was seen, or comes later than one of its nest. -/
theorem seen_or_novel (seen : List Nest) (h : v ∈ vs) :
    v.nest ∈ seen ∨ v.nest ∈ (novel true seen vs).map nest := by
  induction vs generalizing seen with
  | nil => cases h
  | cons u rest ih =>
    rw [novel_cons]
    split
    case isTrue hu =>
      rcases List.mem_cons.mp h with rfl | h
      · exact Or.inl hu
      · exact ih seen h
    case isFalse hu =>
      rw [List.map_cons, List.mem_cons]
      rcases List.mem_cons.mp h with rfl | h
      · exact Or.inr (Or.inl rfl)
      · have hor := ih (seen ++ [u.nest]) h
        rw [List.mem_append, List.mem_singleton] at hor
        tauto

theorem notMem_of_novel (h : v ∈ novel true seen vs) : v.nest ∉ seen := by
  induction vs generalizing seen with
  | nil => cases h
  | cons u rest ih =>
    rw [novel_cons] at h
    split at h
    case isTrue => exact ih h
    case isFalse hu =>
      rcases List.mem_cons.mp h with rfl | h
      · exact hu
      · exact fun hmem => ih h (List.mem_append_left _ hmem)

theorem nodup_novel (seen : List Nest) (vs : List Variant) :
    ((novel true seen vs).map nest).Nodup := by
  induction vs generalizing seen with
  | nil => exact List.nodup_nil
  | cons v rest ih =>
    rw [novel_cons]
    split
    case isTrue => exact ih seen
    case isFalse =>
      rw [List.map_cons]
      refine List.nodup_cons.mpr ⟨fun hmem => ?_, ih _⟩
      obtain ⟨w, hw, hnest⟩ := List.mem_map.mp hmem
      exact notMem_of_novel hw (by simp [hnest])

theorem mem_nests_novel {n : Nest} : n ∈ (novel true [] vs).map nest ↔ n ∈ vs.map nest := by
  constructor
  · intro h
    exact ((novel_sublist true [] vs).map nest).subset h
  · intro h
    obtain ⟨v, hv, rfl⟩ := List.mem_map.mp h
    rcases seen_or_novel [] hv with hnil | hnovel
    · cases hnil
    · exact hnovel

/-- What is kept is the first of its nest. -/
theorem first_of_novel {R : Variant → Variant → Prop} (hvs : vs.Pairwise R)
    (hv : v ∈ novel true seen vs) (hw : w ∈ vs) (h : v.nest = w.nest) : v = w ∨ R v w := by
  induction vs generalizing seen with
  | nil => cases hw
  | cons u rest ih =>
    obtain ⟨hu, hrest⟩ := List.pairwise_cons.mp hvs
    have hseen := notMem_of_novel hv
    rw [novel_cons] at hv
    split at hv
    case isTrue hmem =>
      rcases List.mem_cons.mp hw with rfl | hw
      · exact absurd (h ▸ hmem) hseen
      · exact ih hrest hv hw
    case isFalse =>
      rcases List.mem_cons.mp hv with rfl | hv <;> rcases List.mem_cons.mp hw with rfl | hw
      · exact Or.inl rfl
      · exact Or.inr (hu w hw)
      · exact absurd (by simp [h]) (notMem_of_novel hv)
      · exact ih hrest hv hw

/-- A choice by nest may come before or after. -/
theorem filter_novel {p : Variant → Bool}
    (hp : ∀ v ∈ vs, ∀ w ∈ vs, v.nest = w.nest → p v = p w) (seen : List Nest) :
    (novel true seen vs).filter p = novel true seen (vs.filter p) := by
  induction vs generalizing seen with
  | nil => rfl
  | cons v rest ih =>
    have ih := ih fun u hu w hw => hp u (List.mem_cons_of_mem v hu) w (List.mem_cons_of_mem v hw)
    rw [novel_cons, List.filter_cons]
    by_cases hpv : p v = true <;> by_cases hseen : v.nest ∈ seen
    · rw [if_pos hseen, if_pos hpv, novel_cons, if_pos hseen, ih]
    · rw [if_neg hseen, if_pos hpv, novel_cons, if_neg hseen, List.filter_cons, if_pos hpv, ih]
    · rw [if_pos hseen, if_neg hpv, ih]
    · rw [if_neg hseen, if_neg hpv, List.filter_cons, if_neg hpv, ih]
      refine novel_congr fun w hw => ?_
      obtain ⟨hw, hpw⟩ := List.mem_filter.mp hw
      have hne : w.nest ≠ v.nest := fun hnest =>
        hpv ((hp w (List.mem_cons_of_mem v hw) v (List.mem_cons_self ..) hnest).symm.trans hpw)
      simp [hne]

theorem measured_eq (hv : v.OfRoot root) (hw : w.OfRoot root) (h : v.nest = w.nest) :
    v.measured f = w.measured f := by
  rw [measured, measured, hv.state_eq hw h]

theorem rank_eq (hv : v.OfRoot root) (hw : w.OfRoot root) (h : v.nest = w.nest) :
    v.rank f = w.rank f := by
  rw [rank, rank, hv.state_eq hw h]

/-- Sorting may come before or after, as both keep the order of equal costs. -/
theorem cheapestFirst_novel (hvs : ∀ v ∈ vs, v.OfRoot root) (seen : List Nest) :
    cheapestFirst f (novel true seen vs) = novel true seen (cheapestFirst f vs) := by
  have hsorted := (cheapestFirst_sorted f vs).sublist (novel_sublist true seen _)
  refine eq_of_filter_eq (cheapestFirst_sorted f _) hsorted fun c => ?_
  rw [filter_cheapestFirst, filter_novel, filter_novel, filter_novel, filter_cheapestFirst]
  · intro v hv w hw hnest
    rw [rank_eq (hvs v (mem_cheapestFirst.mp hv).1) (hvs w (mem_cheapestFirst.mp hw).1) hnest]
  · intro v hv w hw hnest
    rw [rank_eq (hvs v (List.mem_filter.mp hv).1) (hvs w (List.mem_filter.mp hw).1) hnest]
  · intro v hv w hw hnest
    exact measured_eq (hvs v hv) (hvs w hw) hnest

theorem nests_offspring (h : v.state = w.state) :
    (v.offspring actions).map nest = (w.offspring actions).map nest := by
  rw [offspring, offspring, List.map_map, List.map_map, h]
  rfl

theorem novel_eq_nil (h : ∀ v ∈ vs, v.nest ∈ seen) : novel true seen vs = [] := by
  refine List.eq_nil_iff_forall_not_mem.mpr fun v hv => ?_
  exact notMem_of_novel hv (h v ((novel_sublist true seen vs).subset hv))

/-- Variants that are dropped would only have repeated offspring. -/
theorem novel_flatMap {old : List Nest} (hvs : ∀ v ∈ vs, v.OfRoot root)
    (hold : ∀ v ∈ vs, v.nest ∈ old → ∀ u ∈ v.offspring actions, u.nest ∈ seen) :
    novel true seen ((novel true old vs).flatMap (offspring actions)) =
      novel true seen (vs.flatMap (offspring actions)) := by
  induction vs generalizing seen old with
  | nil => rfl
  | cons v rest ih =>
    have hrest : ∀ w ∈ rest, w.OfRoot root := fun w hw => hvs w (List.mem_cons_of_mem v hw)
    have hv := hvs v (List.mem_cons_self ..)
    rw [novel_cons, List.flatMap_cons, novel_append]
    split
    case isTrue hmem =>
      rw [novel_eq_nil (hold v (List.mem_cons_self ..) hmem), List.map_nil, List.append_nil,
        List.nil_append]
      exact ih hrest fun w hw => hold w (List.mem_cons_of_mem v hw)
    case isFalse =>
      rw [List.flatMap_cons, novel_append]
      congr 1
      refine ih hrest fun w hw hmem u hu => List.mem_append.mpr ?_
      rcases List.mem_append.mp hmem with hmem | hmem
      · exact Or.inl (hold w (List.mem_cons_of_mem v hw) hmem u hu)
      · -- The nest was expanded just before, so its offspring has been seen or is new now.
        have hsame := (hrest w hw).state_eq hv (List.mem_singleton.mp hmem)
        have hnest : u.nest ∈ (v.offspring actions).map nest := by
          rw [← nests_offspring hsame]
          exact List.mem_map_of_mem hu
        obtain ⟨u', hu', heq⟩ := List.mem_map.mp hnest
        rw [← heq]
        exact seen_or_novel seen hu'

end Variant

namespace Beam

variable {b : Beam} {root : Kernel} {actions : List Action} {f : Kernel → Outcome} {n : Nat}
  {s p : Sweep}

/-- The variants of a root after some sweeps: those of the frontier have a cost and are as deep as
there were sweeps, and the others are not deeper. -/
structure Sweep.Layered (root : Kernel) (f : Kernel → Outcome) (n : Nat) (s : Sweep) : Prop where
  ofRoot : ∀ v ∈ s.variants, v.OfRoot root
  depth_le : ∀ v ∈ s.variants, v.history.length ≤ n
  sorted : s.variants.Pairwise fun v w => v.history.length ≤ w.history.length
  frontier : ∀ v ∈ s.frontier, v ∈ s.variants ∧ v.measured f = true ∧ v.history.length = n

namespace Sweep

theorem Layered.start (h : (f root).isFailed = false) : Layered root f 0 (.start root) := by
  refine ⟨?_, ?_, List.pairwise_singleton .., ?_⟩
  · intro v hv
    obtain rfl := List.mem_singleton.mp hv
    rfl
  · intro v hv
    obtain rfl := List.mem_singleton.mp hv
    exact Nat.le_refl 0
  · intro v hv
    obtain rfl := List.mem_singleton.mp hv
    exact ⟨List.mem_singleton_self _, by simpa [Variant.measured] using h, rfl⟩

/-- What a sweep finds comes from a variant of the frontier by an edit. -/
theorem exists_of_found {deduplicate : Bool} {v : Variant} (h : v ∈ s.found deduplicate actions) :
    ∃ u ∈ s.frontier, ∃ e, v.history = u.history ++ [e] ∧ Action.Proposed actions u.state e ∧
      u.state.apply e = .ok v.state ∧ v.state.checkLegality = .ok () := by
  obtain ⟨u, hu, hv⟩ := List.mem_flatMap.mp ((Variant.novel_sublist ..).subset h)
  obtain ⟨⟨e, k⟩, hmem, rfl⟩ := List.mem_map.mp hv
  obtain ⟨hproposed, happly, hlegal⟩ := Action.mem_successors.mp hmem
  exact ⟨u, hu, e, rfl, hproposed, happly, hlegal⟩

theorem Layered.found {deduplicate : Bool} (hs : Layered root f n s) {v : Variant}
    (h : v ∈ s.found deduplicate actions) : v.OfRoot root ∧ v.history.length = n + 1 := by
  obtain ⟨u, hu, e, hhistory, -, happly, -⟩ := exists_of_found h
  obtain ⟨hmem, -, hdepth⟩ := hs.frontier u hu
  obtain ⟨loops, -, hstate⟩ := Kernel.accepts_of_apply happly
  refine ⟨?_, by rw [hhistory, List.length_append, hdepth, List.length_singleton]⟩
  rw [Variant.OfRoot, Variant.nest, hstate, hs.ofRoot u hmem]

theorem Layered.next (hs : Layered root f n s) (b : Beam) (actions : List Action) :
    Layered root f (n + 1) (s.next b actions f) := by
  refine ⟨?_, ?_, ?_, ?_⟩
  · intro v hv
    rcases List.mem_append.mp hv with hv | hv
    · exact hs.ofRoot v hv
    · exact (hs.found hv).1
  · intro v hv
    rcases List.mem_append.mp hv with hv | hv
    · exact (hs.depth_le v hv).trans (Nat.le_succ n)
    · exact (hs.found hv).2.le
  · refine List.pairwise_append.mpr ⟨hs.sorted, ?_, ?_⟩
    · refine List.pairwise_of_forall_mem_list fun v hv w hw => ?_
      rw [(hs.found hv).2, (hs.found hw).2]
    · intro v hv w hw
      rw [(hs.found hw).2]
      exact (hs.depth_le v hv).trans (Nat.le_succ n)
  · intro v hv
    obtain ⟨hfound, hmeasured⟩ := Variant.mem_cheapestFirst.mp (List.mem_of_mem_take hv)
    exact ⟨List.mem_append_right _ hfound, hmeasured, (hs.found hfound).2⟩

theorem Layered.iterate (h : (f root).isFailed = false) (b : Beam) (actions : List Action)
    (n : Nat) : Layered root f n ((Sweep.next b actions f)^[n] (.start root)) := by
  induction n with
  | zero => exact .start h
  | succ n ih =>
    rw [Function.iterate_succ_apply']
    exact ih.next b actions

/-- The beam keeps all that a sweep finds. -/
def Roomy (b : Beam) (actions : List Action) (s : Sweep) : Prop :=
  (s.found b.deduplicate actions).length ≤ b.width

theorem Roomy.frontier_next (h : s.Roomy b actions) (f : Kernel → Outcome) :
    (s.next b actions f).frontier = Variant.cheapestFirst f (s.found b.deduplicate actions) := by
  refine List.take_of_length_le (Nat.le_trans ?_ h)
  rw [Variant.cheapestFirst, List.length_mergeSort]
  exact List.length_filter_le ..

/-- Sweeps with deduplication beside sweeps without, the nests before the last one being known. -/
structure Matches (actions : List Action) (f : Kernel → Outcome) (old : List Nest)
    (s p : Sweep) : Prop where
  variants : s.variants = Variant.novel true [] p.variants
  frontier : s.frontier = Variant.novel true old p.frontier
  old : ∀ nest ∈ old, ∃ v ∈ p.variants, v.nest = nest ∧
    (v.measured f = true → ∀ u ∈ v.offspring actions, u ∈ p.variants)
  closed : ∀ v ∈ p.variants, v.measured f = true →
    v ∈ p.frontier ∨ ∀ u ∈ v.offspring actions, u ∈ p.variants

theorem Matches.start (root : Kernel) : Matches actions f [] (.start root) (.start root) where
  variants := by simp [Sweep.start, Variant.novel]
  frontier := by simp [Sweep.start, Variant.novel]
  old := by
    intro nest hnest
    cases hnest
  closed := fun v hv _ => Or.inl hv

/-- With deduplication a sweep finds the first variants of each nest that is new. -/
theorem Matches.found_eq {old : List Nest} (h : Matches actions f old s p)
    (hp : Layered root f n p) : s.found true actions =
      Variant.novel true (s.variants.map Variant.nest) (p.found false actions) := by
  have hroots : ∀ v ∈ p.frontier, v.OfRoot root := fun v hv => hp.ofRoot v (hp.frontier v hv).1
  rw [found, found, Variant.novel_false, h.frontier]
  refine Variant.novel_flatMap hroots fun v hv hmem u hu => ?_
  obtain ⟨w, hw, hnest, hoffspring⟩ := h.old v.nest hmem
  have hstate := (hp.ofRoot w hw).state_eq (hroots v hv) hnest
  have hmeasured : w.measured f = true := by
    rw [Variant.measured_eq (hp.ofRoot w hw) (hroots v hv) hnest]
    exact (hp.frontier v hv).2.1
  have hu' : u.nest ∈ (w.offspring actions).map Variant.nest := by
    rw [Variant.nests_offspring hstate]
    exact List.mem_map_of_mem hu
  obtain ⟨u', hmem', hsame⟩ := List.mem_map.mp hu'
  rw [h.variants, Variant.mem_nests_novel, ← hsame]
  exact List.mem_map_of_mem (hoffspring hmeasured u' hmem')

theorem Matches.next {b b' : Beam} (hb : b.deduplicate = true) (hb' : b'.deduplicate = false)
    {old : List Nest} (h : Matches actions f old s p) (hp : Layered root f n p)
    (hs : s.Roomy b actions) (hp' : p.Roomy b' actions) :
    Matches actions f (p.variants.map Variant.nest) (s.next b actions f) (p.next b' actions f) := by
  have hfound := h.found_eq hp
  have hvariants : (p.next b' actions f).variants = p.variants ++ p.found false actions := by
    rw [Sweep.next, hb']
  have hfrontier := hp'.frontier_next f
  rw [hb'] at hfrontier
  have hoffspring : ∀ v ∈ p.frontier, ∀ u ∈ v.offspring actions, u ∈ p.found false actions := by
    intro v hv u hu
    rw [found, Variant.novel_false]
    exact List.mem_flatMap.mpr ⟨v, hv, hu⟩
  -- What was there before the sweep has its offspring after it.
  have hclosed : ∀ v ∈ p.variants, v.measured f = true → ∀ u ∈ v.offspring actions,
      u ∈ (p.next b' actions f).variants := by
    intro v hv hmeasured u hu
    rw [hvariants, List.mem_append]
    rcases h.closed v hv hmeasured with hv | hall
    · exact Or.inr (hoffspring v hv u hu)
    · exact Or.inl (hall u hu)
  refine ⟨?_, ?_, ?_, ?_⟩
  · rw [hvariants, Variant.novel_append, ← h.variants, List.nil_append, ← hfound, Sweep.next, hb]
  · rw [hs.frontier_next, hb, hfound, hfrontier,
      Variant.cheapestFirst_novel fun v hv => (hp.found hv).1]
    refine Variant.novel_congr fun v _ => ?_
    rw [h.variants, Variant.mem_nests_novel]
  · intro nest hnest
    obtain ⟨v, hv, rfl⟩ := List.mem_map.mp hnest
    refine ⟨v, ?_, rfl, hclosed v hv⟩
    rw [hvariants]
    exact List.mem_append_left _ hv
  · intro v hv hmeasured
    rw [hvariants] at hv
    rcases List.mem_append.mp hv with hv | hv
    · exact Or.inr (hclosed v hv hmeasured)
    · rw [hfrontier]
      exact Or.inl (Variant.mem_cheapestFirst.mpr ⟨hv, hmeasured⟩)

/-- After any number of sweeps, deduplication has kept the first variant of each nest. -/
theorem Matches.iterate {b b' : Beam} (hb : b.deduplicate = true) (hb' : b'.deduplicate = false)
    (h : (f root).isFailed = false)
    (hs : ∀ i < n, ((Sweep.next b actions f)^[i] (.start root)).Roomy b actions)
    (hp : ∀ i < n, ((Sweep.next b' actions f)^[i] (.start root)).Roomy b' actions) :
    ∃ old, Matches actions f old ((Sweep.next b actions f)^[n] (.start root))
      ((Sweep.next b' actions f)^[n] (.start root)) := by
  induction n with
  | zero => exact ⟨[], .start root⟩
  | succ n ih =>
    obtain ⟨old, hmatches⟩ := ih (fun i hi => hs i (by omega)) (fun i hi => hp i (by omega))
    rw [Function.iterate_succ_apply', Function.iterate_succ_apply']
    exact ⟨_, hmatches.next hb hb' (.iterate h b' actions n) (hs n (by omega)) (hp n (by omega))⟩

end Sweep

end Beam

end NestTuner
