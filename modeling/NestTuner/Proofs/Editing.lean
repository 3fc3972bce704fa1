import NestTuner.Kernel.Canonical
import NestTuner.Proofs.Lookups
import NestTuner.Proofs.Validity

/-!
What an accepted edit does to the loops of a kernel, and what every history of accepted edits keeps.
Legality alone is not kept by a tiling step: two loops of one iterator may tie in stride when one of
them has extent one. The nests that edits reach never tie, and that carries the induction.
-/

namespace NestTuner

theorem Word.mul_eq_ok {a b c : Nat} : Word.mul a b = .ok c ↔ a * b < count ∧ a * b = c := by
  unfold Word.mul
  by_cases hfits : a * b < count <;> simp [hfits]

theorem Word.mul_eq_error {a b : Nat} {trap : Trap} :
    Word.mul a b = .error trap ↔ trap = .overflow ∧ count ≤ a * b := by
  unfold Word.mul
  by_cases hfits : a * b < count
  · simp [hfits]
  · simp [hfits, Nat.le_of_not_lt hfits, eq_comm]

/-- A loop that has no mark and could be cut into tiles of a size, but for the stride of the loop
over the tiles, which is no word. -/
structure Loop.Overflows (l : Loop) (size : Nat) : Prop where
  parallel : l.parallel = false
  vector : l.vectorWidth = none
  two : 2 ≤ size
  lt : size < l.extent
  dvd : size ∣ l.extent
  exceeds : Word.count ≤ l.stride * size

/-- The strides of tiles stay within what loops in mixed radix cover. -/
theorem MixedRadix.not_overflows {loops : List Loop} {extent : Nat} (h : MixedRadix loops extent)
    (hfits : extent < Word.count) {l : Loop} (hl : l ∈ loops) {size : Nat} :
    ¬ l.Overflows size := by
  intro hover
  have hstride : l.stride * size < Word.count :=
    calc l.stride * size ≤ l.stride * l.extent := Nat.mul_le_mul_left _ hover.lt.le
      _ ≤ extent := (h.level_bounds hl).2.2
      _ < Word.count := hfits
  have hexceeds := hover.exceeds
  omega

namespace Nest

theorem filterMap_range (loops : List Loop) :
    (List.range loops.length).filterMap (loops[·]?) = loops := by
  induction loops with
  | nil => rfl
  | cons l loops ih => simpa [List.range_succ_eq_map, List.filterMap_map] using ih

/-- Loops taken in the order of a permutation are the same loops. -/
theorem permuted_perm {loops : List Loop} {permutation : List Nat}
    (h : permutation.Perm (List.range loops.length)) :
    (permutation.filterMap (loops[·]?)).Perm loops := by
  have hperm := h.filterMap (loops[·]?)
  rwa [filterMap_range] at hperm

theorem permuted_getElem? {loops : List Loop} {permutation : List Nat}
    (h : ∀ p ∈ permutation, p < loops.length) (i : Nat) :
    (permutation.filterMap (loops[·]?))[i]? = permutation[i]?.bind (loops[·]?) := by
  induction permutation generalizing i with
  | nil => simp
  | cons p rest ih =>
    obtain ⟨l, hp⟩ : ∃ l, loops[p]? = some l := ⟨_, List.getElem?_eq_getElem (h p (by simp))⟩
    rw [List.filterMap_cons_some hp]
    cases i with
    | zero => simp [hp]
    | succ i => simpa using ih (fun p hp => h p (by simp [hp])) i

/-- A list cut at one of its positions. -/
theorem loops_eq {n : Nest} {i : Nat} {l : Loop} (h : n.loops[i]? = some l) :
    n.loops = n.loops.take i ++ l :: n.loops.drop (i + 1) ∧ (n.loops.take i).length = i := by
  obtain ⟨hi, rfl⟩ := List.getElem?_eq_some_iff.mp h
  constructor
  · rw [← List.drop_eq_getElem_cons hi, List.take_append_drop]
  · rw [List.length_take]
    omega

theorem loopsFor_identity (iterators : List Iterator) (i : Nat) :
    (identity iterators).loopsFor i =
      (iterators[i]?.map fun it => Loop.full i it.extent).toList := by
  induction iterators using List.reverseRecOn with
  | nil => rfl
  | append_singleton iterators it ih =>
    simp only [loopsFor, identity, List.mapIdx_append, List.filter_append] at ih ⊢
    rw [ih]
    rcases Nat.lt_trichotomy i iterators.length with hlt | rfl | hgt
    · simp [List.getElem?_append_left hlt, Loop.full, Nat.ne_of_gt hlt]
    · simp [Loop.full]
    · have hend : (iterators ++ [it])[i]? = none := by simp; omega
      have hout : iterators[i]? = none := by simp; omega
      rw [hend, hout]
      simp [Loop.full, Nat.ne_of_lt hgt]

theorem mem_identity {iterators : List Iterator} {l : Loop} :
    l ∈ (identity iterators).loops ↔
      ∃ i it, iterators[i]? = some it ∧ l = Loop.full i it.extent := by
  simp only [identity, List.mem_mapIdx]
  constructor
  · rintro ⟨i, hi, rfl⟩
    exact ⟨i, _, List.getElem?_eq_getElem hi, rfl⟩
  · rintro ⟨i, it, hit, rfl⟩
    obtain ⟨hi, rfl⟩ := List.getElem?_eq_some_iff.mp hit
    exact ⟨i, hi, rfl⟩

theorem parallelLoop?_eq_none {n : Nest} :
    n.parallelLoop?.isSome = false ↔ ∀ l ∈ n.loops, l.parallel = false := by
  simp [parallelLoop?, List.findIdx?_isSome]

theorem vectorLoop?_eq_none {n : Nest} :
    n.vectorLoop?.isSome = false ↔ ∀ l ∈ n.loops, l.vectorWidth = none := by
  simp [vectorLoop?, List.findIdx?_isSome]

end Nest

namespace Kernel

/-- The loops that an edit leaves when a kernel accepts it. -/
inductive Accepts (k : Kernel) : Edit → List Loop → Prop
  | tile {before after : List Loop} {l : Loop} {size : Nat}
      (hloops : k.nest.loops = before ++ l :: after) (hparallel : l.parallel = false)
      (hvector : l.vectorWidth = none) (htwo : 2 ≤ size) (hlt : size < l.extent)
      (hdvd : size ∣ l.extent) (hfits : l.stride * size < Word.count) :
      Accepts k (.tile before.length size)
        (before ++ [{ l with extent := l.extent / size, stride := l.stride * size },
          { l with extent := size }] ++ after)
  | interchange {permutation : List Nat}
      (hperm : permutation.Perm (List.range k.nest.loops.length))
      (hchanged : permutation ≠ List.range k.nest.loops.length)
      (hparallel : ∀ p, k.nest.parallelLoop? = some p → permutation[p]? = some p)
      (hvector : ∀ p, k.nest.vectorLoop? = some p → permutation[p]? = some p) :
      Accepts k (.interchange permutation) (permutation.filterMap (k.nest.loops[·]?))
  | parallelize {after : List Loop} {l : Loop} {it : Iterator}
      (hloops : k.nest.loops = l :: after) (hfirst : ∀ l ∈ k.nest.loops, l.parallel = false)
      (hvector : l.vectorWidth = none) (hit : k.iterators[l.iterator]? = some it)
      (hkind : it.kind = .parallel)
      (houter : ∀ other ∈ k.nest.loops, other.iterator = l.iterator → other.stride ≤ l.stride) :
      Accepts k (.parallelize 0) ({ l with parallel := true } :: after)
  | vectorize {before : List Loop} {l : Loop} {width : Nat}
      (hloops : k.nest.loops = before ++ [l])
      (hfirst : ∀ l ∈ k.nest.loops, l.vectorWidth = none) (hparallel : l.parallel = false)
      (hpoint : ∃ other ∈ k.nest.loops, other.iterator = l.iterator ∧ l.stride < other.stride)
      (hwidth : width ∈ vectorWidths) (htwo : 2 ≤ width) (hle : width ≤ l.extent)
      (hdvd : l.extent % width = 0) :
      Accepts k (.vectorize width) (before ++ [{ l with vectorWidth := some width }])

theorem accepts_tile {k : Kernel} {i size : Nat} {nest : Nest} (h : k.nest.tile i size = .ok nest) :
    k.Accepts (.tile i size) nest.loops := by
  rw [Nest.tile_eq] at h
  obtain ⟨l, hl, h⟩ := bind_eq_ok.mp h
  obtain ⟨hparallel, h⟩ := guard_eq_ok.mp h
  obtain ⟨hvector, h⟩ := guard_eq_ok.mp h
  obtain ⟨htwo, h⟩ := guard_eq_ok.mp h
  obtain ⟨hlt, h⟩ := guard_eq_ok.mp h
  obtain ⟨hdvd, h⟩ := guard_eq_ok.mp h
  obtain ⟨hloops, hlength⟩ := Nest.loops_eq (Nest.loopAt_eq_ok.mp hl)
  rw [Bool.not_eq_true] at hparallel hvector
  rw [Option.isSome_eq_false_iff, Option.isNone_iff_eq_none] at hvector
  simp only [bne_iff_ne, ne_eq, not_not] at hdvd
  obtain ⟨stride, hstride, h⟩ := bind_eq_ok.mp h
  obtain ⟨hfits, rfl⟩ := Word.mul_eq_ok.mp (trapping_eq_ok.mp hstride)
  obtain rfl := Except.ok.inj h
  have haccepts := Accepts.tile hloops hparallel hvector (by omega) (by omega)
    (Nat.dvd_of_mod_eq_zero hdvd) hfits
  rwa [hlength] at haccepts

theorem accepts_interchange {k : Kernel} {permutation : List Nat} {nest : Nest}
    (h : k.nest.interchange permutation = .ok nest) :
    k.Accepts (.interchange permutation) nest.loops := by
  rw [Nest.interchange_eq] at h
  obtain ⟨hperm, h⟩ := guard_eq_ok.mp h
  obtain ⟨hchanged, h⟩ := guard_eq_ok.mp h
  obtain ⟨hparallel, h⟩ := guard_eq_ok.mp h
  obtain ⟨hvector, h⟩ := guard_eq_ok.mp h
  obtain rfl := Except.ok.inj h
  rw [Nest.depth] at hperm hchanged
  refine .interchange (not_not.mp hperm) (by simpa using hchanged) ?_ ?_
  · intro p hp
    simpa [hp] using hparallel
  · intro p hp
    simpa [hp] using hvector

theorem accepts_parallelize {k : Kernel} {i : Nat} {nest : Nest}
    (h : k.parallelizedNest i = .ok nest) : k.Accepts (.parallelize i) nest.loops := by
  rw [parallelizedNest_eq] at h
  obtain ⟨l, hl, h⟩ := bind_eq_ok.mp h
  obtain ⟨hfirst, h⟩ := guard_eq_ok.mp h
  obtain ⟨hzero, h⟩ := guard_eq_ok.mp h
  obtain ⟨hvector, h⟩ := guard_eq_ok.mp h
  obtain rfl : i = 0 := by simpa using hzero
  rw [Nest.loopAt_eq_ok] at hl
  obtain ⟨it, hit, h⟩ := bind_eq_ok.mp h
  obtain ⟨hkind, h⟩ := guard_eq_ok.mp h
  obtain ⟨houter, h⟩ := guard_eq_ok.mp h
  obtain rfl := Except.ok.inj h
  simp only [Bool.not_eq_true', Bool.not_eq_false, Nest.isOutermostLevel_iff hl] at houter
  refine .parallelize (by simpa using (Nest.loops_eq hl).1)
    (Nest.parallelLoop?_eq_none.mp (by simpa using hfirst)) (by simpa using hvector)
    (Checked.get_eq_ok.mp (trapping_eq_ok.mp hit)) ?_ houter
  cases hk : it.kind with
  | parallel => rfl
  | reduction => simp [hk] at hkind

theorem accepts_vectorize {k : Kernel} {width : Nat} {nest : Nest}
    (h : k.nest.vectorize width = .ok nest) : k.Accepts (.vectorize width) nest.loops := by
  rw [Nest.vectorize_eq] at h
  obtain ⟨hfirst, h⟩ := guard_eq_ok.mp h
  split at h
  case h_1 => cases h
  case h_2 l hl =>
    obtain ⟨hparallel, h⟩ := guard_eq_ok.mp h
    obtain ⟨hpoint, h⟩ := guard_eq_ok.mp h
    obtain ⟨hwidth, h⟩ := guard_eq_ok.mp h
    obtain rfl := Except.ok.inj h
    rw [Nest.innermost?, List.getLast?_eq_getElem?] at hl
    obtain ⟨hloops, hlength⟩ := Nest.loops_eq hl
    have hend : k.nest.loops.drop (k.nest.loops.length - 1 + 1) = [] :=
      List.drop_eq_nil_of_le (by omega)
    rw [hend] at hloops
    simp only [Bool.not_eq_true', Bool.not_eq_false, Bool.and_eq_true, decide_eq_true_eq,
      List.contains_iff_mem, beq_iff_eq] at hwidth
    obtain ⟨⟨⟨hmem, htwo⟩, hle⟩, hdvd⟩ := hwidth
    have haccepts := Accepts.vectorize hloops
      (Nest.vectorLoop?_eq_none.mp (by simpa using hfirst)) (by simpa using hparallel)
      (by simpa [Nest.isTilePoint, Nest.depth, hl, Nest.loopsFor, and_assoc] using hpoint)
      hmem htwo hle hdvd
    simpa [Nest.splice, Nest.depth, hend] using haccepts

/-- An edit that is applied was accepted, and only the nest changes. -/
theorem accepts_of_apply {k k' : Kernel} {e : Edit} (h : k.apply e = .ok k') :
    ∃ loops, k.Accepts e loops ∧ k' = { k with nest := ⟨loops⟩ } := by
  obtain ⟨nest, hnest, h⟩ := bind_eq_ok.mp h
  refine ⟨nest.loops, ?_, (Except.ok.inj h).symm⟩
  cases e with
  | tile i size => exact accepts_tile hnest
  | interchange permutation => exact accepts_interchange hnest
  | parallelize i => exact accepts_parallelize hnest
  | vectorize width => exact accepts_vectorize hnest

theorem tile_of_accepts {k : Kernel} {i size : Nat} {loops : List Loop}
    (h : k.Accepts (.tile i size) loops) : k.nest.tile i size = .ok ⟨loops⟩ := by
  cases h with
  | @tile before after l _ hloops hparallel hvector htwo hlt hdvd hfits =>
    have hl : k.nest.loops[before.length]? = some l := by simp [hloops]
    have hmul : Word.mul l.stride size = .ok (l.stride * size) := if_pos hfits
    rw [Nest.tile_eq]
    refine bind_eq_ok.mpr ⟨l, Nest.loopAt_eq_ok.mpr hl, ?_⟩
    refine guard_eq_ok.mpr ⟨by simp [hparallel], guard_eq_ok.mpr ⟨by simp [hvector], ?_⟩⟩
    refine guard_eq_ok.mpr ⟨by omega, guard_eq_ok.mpr ⟨by omega, guard_eq_ok.mpr ⟨?_, ?_⟩⟩⟩
    · simpa using Nat.mod_eq_zero_of_dvd hdvd
    · rw [trapping_bind hmul]
      simp [Nest.splice, hloops, pure, Except.pure]

theorem interchange_of_accepts {k : Kernel} {permutation : List Nat} {loops : List Loop}
    (h : k.Accepts (.interchange permutation) loops) :
    k.nest.interchange permutation = .ok ⟨loops⟩ := by
  cases h with
  | interchange hperm hchanged hparallel hvector =>
    rw [Nest.interchange_eq]
    refine guard_eq_ok.mpr ⟨not_not.mpr hperm, ?_⟩
    refine guard_eq_ok.mpr ⟨by simpa [Nest.depth] using hchanged, ?_⟩
    refine guard_eq_ok.mpr ⟨?_, guard_eq_ok.mpr ⟨?_, rfl⟩⟩
    · cases hp : k.nest.parallelLoop? with
      | none => simp
      | some p => simp [hparallel p hp]
    · cases hp : k.nest.vectorLoop? with
      | none => simp
      | some p => simp [hvector p hp]

theorem parallelize_of_accepts {k : Kernel} {i : Nat} {loops : List Loop}
    (h : k.Accepts (.parallelize i) loops) : k.parallelizedNest i = .ok ⟨loops⟩ := by
  cases h with
  | @parallelize after l it hloops hfirst hvector hit hkind houter =>
    have hl : k.nest.loops[0]? = some l := by simp [hloops]
    rw [parallelizedNest_eq]
    refine bind_eq_ok.mpr ⟨l, Nest.loopAt_eq_ok.mpr hl, ?_⟩
    refine guard_eq_ok.mpr ⟨by simp [Nest.parallelLoop?_eq_none.mpr hfirst], ?_⟩
    refine guard_eq_ok.mpr ⟨by simp, guard_eq_ok.mpr ⟨by simp [hvector], ?_⟩⟩
    rw [trapping_bind (Checked.get_eq_ok.mpr hit)]
    refine guard_eq_ok.mpr ⟨by simp [hkind], guard_eq_ok.mpr ⟨?_, ?_⟩⟩
    · simp [(Nest.isOutermostLevel_iff hl).mpr houter]
    · simp [Nest.splice, hloops, pure, Except.pure]

theorem vectorize_of_accepts {k : Kernel} {width : Nat} {loops : List Loop}
    (h : k.Accepts (.vectorize width) loops) : k.nest.vectorize width = .ok ⟨loops⟩ := by
  cases h with
  | @vectorize before l _ hloops hfirst hparallel hpoint hwidth htwo hle hdvd =>
    have hlast : k.nest.innermost? = some l := by simp [Nest.innermost?, hloops]
    have hl : k.nest.loops[k.nest.depth - 1]? = some l := by simp [Nest.depth, hloops]
    rw [Nest.vectorize_eq]
    refine guard_eq_ok.mpr ⟨by simp [Nest.vectorLoop?_eq_none.mpr hfirst], ?_⟩
    rw [hlast]
    refine guard_eq_ok.mpr ⟨by simp [hparallel], guard_eq_ok.mpr ⟨?_, guard_eq_ok.mpr ⟨?_, ?_⟩⟩⟩
    · simpa [Nest.isTilePoint, hl, Nest.loopsFor, and_assoc] using hpoint
    · simp [hwidth, htwo, hle, hdvd]
    · simp [Nest.splice, Nest.depth, hloops, pure, Except.pure]

/-- An edit is applied exactly if it is accepted, and only the nest changes. -/
theorem apply_eq_ok {k k' : Kernel} {e : Edit} :
    k.apply e = .ok k' ↔ ∃ loops, k.Accepts e loops ∧ k' = { k with nest := ⟨loops⟩ } := by
  constructor
  · exact accepts_of_apply
  · rintro ⟨loops, haccepts, rfl⟩
    have hnest : k.editedNest e = .ok ⟨loops⟩ := by
      cases e with
      | tile i size => exact tile_of_accepts haccepts
      | interchange permutation => exact interchange_of_accepts haccepts
      | parallelize i => exact parallelize_of_accepts haccepts
      | vectorize width => exact vectorize_of_accepts haccepts
    exact bind_eq_ok.mpr ⟨_, hnest, rfl⟩

theorem parallelPlaced_of_forall {k : Kernel} (h : ∀ l ∈ k.nest.loops, l.parallel = false) :
    k.ParallelPlaced := by
  refine ⟨fun l hl => h l (List.mem_of_mem_tail hl), fun l hl hparallel => ?_⟩
  simp [h l (List.mem_of_mem_head? hl)] at hparallel

theorem vectorPlaced_of_forall {k : Kernel} (h : ∀ l ∈ k.nest.loops, l.vectorWidth = none) :
    k.VectorPlaced := by
  refine ⟨fun l hl => h l (List.mem_of_mem_dropLast hl), fun l hl width hwidth => ?_⟩
  simp [h l (List.mem_of_getLast? hl)] at hwidth

/-- A parallel loop is the outermost one, so no loop of its iterator lies above it. -/
theorem ParallelPlaced.outermost {k : Kernel} (h : k.ParallelPlaced) {l other : Loop}
    (hl : l ∈ k.nest.loops) (hparallel : l.parallel = true) (hother : other ∈ k.nest.loops)
    (hiterator : other.iterator = l.iterator) : other.stride ≤ l.stride := by
  obtain ⟨inner, hloops⟩ := h.eq_cons hl hparallel
  exact (h.2 l (by simp [hloops]) hparallel).1 other hother hiterator

/-- Loops without a parallel mark may take the place of a loop without one, as long as none rises
above the parallel loop. -/
theorem ParallelPlaced.splice {k : Kernel} (h : k.ParallelPlaced) (loops : List Loop)
    {before after : List Loop} {l : Loop} (hloops : k.nest.loops = before ++ l :: after)
    (hunmarked : ∀ m ∈ loops, m.parallel = false)
    (hbelow : ∀ first ∈ before, first.parallel = true →
      ∀ m ∈ loops, m.iterator = first.iterator → m.stride ≤ first.stride) :
    { k with nest := ⟨before ++ loops ++ after⟩ }.ParallelPlaced := by
  obtain ⟨htail, hhead⟩ := h
  rw [hloops] at htail hhead
  cases before with
  | nil =>
    refine parallelPlaced_of_forall fun m hm => ?_
    rcases List.mem_append.mp hm with hm | hm
    · exact hunmarked m hm
    · exact htail m hm
  | cons first before =>
    simp only [List.cons_append, List.tail_cons, List.head?_cons, Option.mem_some_iff, forall_eq',
      List.mem_append, List.mem_cons] at htail hhead
    constructor
    · simp only [List.cons_append, List.tail_cons, List.mem_append]
      rintro m ((hm | hm) | hm)
      · exact htail m (Or.inl hm)
      · exact hunmarked m hm
      · exact htail m (Or.inr (Or.inr hm))
    · simp only [List.cons_append, List.head?_cons, Option.mem_some_iff, forall_eq']
      intro hfirst
      obtain ⟨houter, hkind⟩ := hhead hfirst
      refine ⟨?_, hkind⟩
      simp only [List.mem_append, List.mem_cons]
      rintro m (hm | (hm | hm) | hm) hiterator
      · exact houter m (Or.inl hm) hiterator
      · exact houter m (Or.inr (Or.inl hm)) hiterator
      · exact hbelow first (by simp) hfirst m hm hiterator
      · exact houter m (Or.inr (Or.inr (Or.inr hm))) hiterator

/-- Loops without a vector mark may take the place of a loop. -/
theorem VectorPlaced.splice {k : Kernel} (h : k.VectorPlaced) (loops : List Loop)
    {before after : List Loop} {l : Loop} (hloops : k.nest.loops = before ++ l :: after)
    (hunmarked : ∀ m ∈ loops, m.vectorWidth = none) :
    { k with nest := ⟨before ++ loops ++ after⟩ }.VectorPlaced := by
  obtain ⟨hinit, hlast⟩ := h
  rw [hloops] at hinit hlast
  rcases List.eq_nil_or_concat after with rfl | ⟨init, final, rfl⟩
  · rw [List.dropLast_concat] at hinit
    refine vectorPlaced_of_forall fun m hm => ?_
    rw [List.append_nil] at hm
    rcases List.mem_append.mp hm with hm | hm
    · exact hinit m hm
    · exact hunmarked m hm
  · rw [List.concat_eq_append, ← List.cons_append, ← List.append_assoc] at hinit hlast
    rw [List.dropLast_concat] at hinit
    rw [List.getLast?_concat] at hlast
    constructor
    · simp only [List.concat_eq_append, ← List.append_assoc, List.dropLast_concat,
        List.mem_append]
      rintro m ((hm | hm) | hm)
      · exact hinit m (by simp [hm])
      · exact hunmarked m hm
      · exact hinit m (by simp [hm])
    · simp only [List.concat_eq_append, ← List.append_assoc, List.getLast?_concat]
      exact hlast

/-- A tile and the loop over tiles, from the smaller stride up, cover what the loop they came from
covers. -/
theorem tower_tiled {l : Loop} {size : Nat} (htwo : 2 ≤ size) (hlt : size < l.extent)
    (hdvd : size ∣ l.extent) :
    Tower l.stride [{ l with extent := size },
      { l with extent := l.extent / size, stride := l.stride * size }] (l.stride * l.extent) := by
  have hdiv : 0 < l.extent / size := Nat.div_pos hlt.le (by omega)
  refine ⟨rfl, Nat.zero_lt_of_lt htwo, rfl, hdiv, ?_⟩
  rw [Tower, Nat.mul_assoc, Nat.mul_div_cancel' hdvd]

/-- Every loop is bound, every iterator has loops, and these are in mixed radix. -/
structure Decomposed (k : Kernel) : Prop where
  bound : ∀ l ∈ k.nest.loops, l.iterator < k.iterators.length
  present : ∀ i < k.iterators.length, ∃ l ∈ k.nest.loops, l.iterator = i
  radix : ∀ i, MixedRadix (k.nest.loopsFor i) (k.extentOf i)

namespace Decomposed

/-- Of two loops of one iterator, the one with the larger stride lies above the other. -/
theorem mul_le_of_lt {k : Kernel} (h : k.Decomposed) {a b : Loop} (ha : a ∈ k.nest.loops)
    (hb : b ∈ k.nest.loops) (hab : a.iterator = b.iterator) (hlt : a.stride < b.stride) :
    a.stride * a.extent ≤ b.stride :=
  (h.radix b.iterator).mul_le_of_lt (by simp [Nest.loopsFor, ha, hab])
    (by simp [Nest.loopsFor, hb]) hlt

theorem level_bounds {k : Kernel} (h : k.Decomposed) {l : Loop} (hl : l ∈ k.nest.loops) :
    0 < l.stride ∧ 0 < l.extent ∧ l.stride * l.extent ≤ k.extentOf l.iterator :=
  (h.radix l.iterator).level_bounds (by simp [Nest.loopsFor, hl])

/-- Loops may take the place of one that covers what they cover. -/
theorem splice {k : Kernel} (h : k.Decomposed) (loops : List Loop) {before after : List Loop}
    {l : Loop} (hloops : k.nest.loops = before ++ l :: after) (hne : loops ≠ [])
    (hiterator : ∀ m ∈ loops, m.iterator = l.iterator)
    (htower : Tower l.stride loops (l.stride * l.extent))
    {nest : Nest} (hnest : nest.loops = before ++ loops.reverse ++ after) :
    { k with nest := nest }.Decomposed where
  bound := by
    intro m hm
    have hbound := h.bound
    simp only [hnest, hloops, List.mem_append, List.mem_reverse, List.mem_cons] at hm hbound
    rcases hm with (hm | hm) | hm
    · exact hbound m (Or.inl hm)
    · rw [hiterator m hm]
      exact hbound l (Or.inr (Or.inl rfl))
    · exact hbound m (Or.inr (Or.inr hm))
  present := by
    intro i hi
    obtain ⟨m, hm, rfl⟩ := h.present i hi
    simp only [hloops, List.mem_append, List.mem_cons] at hm
    rcases hm with hm | rfl | hm
    · exact ⟨m, by simp [hnest, hm], rfl⟩
    · obtain ⟨first, hfirst⟩ := List.exists_mem_of_ne_nil loops hne
      exact ⟨first, by simp [hnest, hfirst], hiterator first hfirst⟩
    · exact ⟨m, by simp [hnest, hm], rfl⟩
  radix := by
    intro i
    change MixedRadix (nest.loopsFor i) (k.extentOf i)
    have hold := h.radix i
    simp only [Nest.loopsFor, hloops, hnest, List.filter_append, List.filter_cons,
      List.filter_reverse] at hold ⊢
    by_cases hi : l.iterator = i
    · have hall : loops.filter (·.iterator == i) = loops :=
        List.filter_eq_self.mpr fun m hm => by simp [hiterator m hm, hi]
      rw [hall]
      rw [if_pos (by simpa using hi)] at hold
      exact hold.splice htower
    · have hnone : loops.filter (·.iterator == i) = [] :=
        List.filter_eq_nil_iff.mpr fun m hm => by simp [hiterator m hm, hi]
      rw [if_neg (by simpa using hi)] at hold
      simpa [hnone] using hold

/-- The order of the loops does not matter. -/
theorem perm {k : Kernel} (h : k.Decomposed) {nest : Nest} (hnest : nest.loops.Perm k.nest.loops) :
    { k with nest := nest }.Decomposed where
  bound l hl := h.bound l (hnest.mem_iff.mp hl)
  present := by
    intro i hi
    obtain ⟨l, hl, hiterator⟩ := h.present i hi
    exact ⟨l, hnest.mem_iff.mpr hl, hiterator⟩
  radix i := (h.radix i).perm (hnest.filter _).symm

/-- With the marks in place, a nest in mixed radix is legal. -/
theorem legal {k : Kernel} (h : k.Decomposed) (hfits : ∀ i, k.extentOf i < Word.count)
    (hparallel : k.ParallelPlaced) (hvector : k.VectorPlaced) : k.Legal where
  bound := h.bound
  covered := by
    intro i it hit
    obtain ⟨hi, -⟩ := List.getElem?_eq_some_iff.mp hit
    obtain ⟨l, hl, hiterator⟩ := h.present i hi
    refine ⟨List.ne_nil_of_mem (List.mem_filter.mpr ⟨hl, by simpa using hiterator⟩), ?_⟩
    rw [← extentOf_eq hit]
    exact Nest.covered_of_mixedRadix (h.radix i) (hfits i)
  parallelPlaced := hparallel
  vectorPlaced := hvector

end Decomposed

/-- A mark that only one position may carry stays there when the loops move around it. -/
theorem permuted_marked {loops : List Loop} {permutation : List Nat}
    (hperm : permutation.Perm (List.range loops.length)) {mark : Loop → Bool}
    (hkeep : ∀ p, loops.findIdx? mark = some p → permutation[p]? = some p) {j : Nat}
    (honly : ∀ i l, loops[i]? = some l → mark l = true → i = j) {i : Nat} {l : Loop}
    (hl : (permutation.filterMap (loops[·]?))[i]? = some l) (hmark : mark l = true) :
    loops[i]? = some l := by
  rw [Nest.permuted_getElem? fun p hp => List.mem_range.mp (hperm.mem_iff.mp hp)] at hl
  obtain ⟨q, hq, hlq⟩ := Option.bind_eq_some_iff.mp hl
  obtain ⟨p, hp⟩ : ∃ p, loops.findIdx? mark = some p :=
    Option.isSome_iff_exists.mp (by
      rw [List.findIdx?_isSome, List.any_eq_true]
      exact ⟨l, List.mem_of_getElem? hlq, hmark⟩)
  obtain ⟨hlength, hpmark, -⟩ := List.findIdx?_eq_some_iff_getElem.mp hp
  have hpj : p = j := honly p _ (List.getElem?_eq_getElem hlength) hpmark
  have hqj : q = j := honly q l hlq hmark
  have hnodup : permutation.Nodup := hperm.nodup_iff.mpr List.nodup_range
  have hiq : i = q := by
    refine (List.getElem?_inj (List.getElem?_eq_some_iff.mp hq).1 hnodup).mp ?_
    rw [hq, hqj, ← hpj, hkeep p hp]
  rwa [hiq]

theorem ParallelPlaced.permuted {k : Kernel} (h : k.ParallelPlaced) {permutation : List Nat}
    (hperm : permutation.Perm (List.range k.nest.loops.length))
    (hkeep : ∀ p, k.nest.parallelLoop? = some p → permutation[p]? = some p) :
    { k with nest := ⟨permutation.filterMap (k.nest.loops[·]?)⟩ }.ParallelPlaced := by
  have hplaced := parallelPlaced_iff.mp h
  refine parallelPlaced_iff.mpr fun i l hl hmark => ?_
  have hl' := permuted_marked hperm hkeep (fun i l hl hmark => (hplaced i l hl hmark).1) hl hmark
  obtain ⟨hzero, houter, hkind⟩ := hplaced i l hl' hmark
  refine ⟨hzero, (Nest.isOutermostLevel_iff hl).mpr ?_, hkind⟩
  intro other hother
  exact (Nest.isOutermostLevel_iff hl').mp houter other
    ((Nest.permuted_perm hperm).mem_iff.mp hother)

theorem VectorPlaced.permuted {k : Kernel} (h : k.VectorPlaced) {permutation : List Nat}
    (hperm : permutation.Perm (List.range k.nest.loops.length))
    (hkeep : ∀ p, k.nest.vectorLoop? = some p → permutation[p]? = some p) :
    { k with nest := ⟨permutation.filterMap (k.nest.loops[·]?)⟩ }.VectorPlaced := by
  have hplaced := vectorPlaced_iff.mp h
  refine vectorPlaced_iff.mpr fun i l width hl hwidth => ?_
  have hl' := permuted_marked hperm (j := k.nest.depth - 1) hkeep
    (fun i l hl hmark => by
      obtain ⟨width, hwidth⟩ := Option.isSome_iff_exists.mp hmark
      have := (hplaced i l width hl hwidth).1
      omega) hl (by simp [hwidth])
  have hdepth : (permutation.filterMap (k.nest.loops[·]?)).length = k.nest.loops.length :=
    (Nest.permuted_perm hperm).length_eq
  rw [Nest.depth, hdepth]
  exact hplaced i l width hl' hwidth

/-- The outermost loop may be marked parallel, if it is at the outermost level of an iterator that
indexes the output. -/
theorem parallelPlaced_marked {k : Kernel} {after : List Loop} {l : Loop} {it : Iterator}
    (hloops : k.nest.loops = l :: after) (hfirst : ∀ l ∈ k.nest.loops, l.parallel = false)
    (hit : k.iterators[l.iterator]? = some it) (hkind : it.kind = .parallel)
    (houter : ∀ other ∈ k.nest.loops, other.iterator = l.iterator → other.stride ≤ l.stride) :
    { k with nest := ⟨{ l with parallel := true } :: after⟩ }.ParallelPlaced := by
  refine ⟨?_, ?_⟩
  · intro m hm
    exact hfirst m (by simp only [hloops]; exact List.mem_cons_of_mem l hm)
  · simp only [List.head?_cons, Option.mem_some_iff, forall_eq', hit]
    rintro -
    refine ⟨?_, fun it' hit' => Option.some.inj hit' ▸ hkind⟩
    intro other hother hiterator
    rcases List.mem_cons.mp hother with rfl | hother
    · exact Nat.le_refl _
    · exact houter other (by simp [hloops, hother]) hiterator

/-- The innermost loop may be vectorized by a width that fits it. -/
theorem vectorPlaced_marked {k : Kernel} {before : List Loop} {l : Loop} {width : Nat}
    (hloops : k.nest.loops = before ++ [l]) (hfirst : ∀ l ∈ k.nest.loops, l.vectorWidth = none)
    (hparallel : l.parallel = false) (hwidth : width ∈ vectorWidths)
    (hdvd : l.extent % width = 0) :
    { k with nest := ⟨before ++ [{ l with vectorWidth := some width }]⟩ }.VectorPlaced := by
  refine ⟨?_, ?_⟩
  · rw [List.dropLast_concat]
    intro m hm
    exact hfirst m (by simp [hloops, hm])
  · simp [hparallel, hwidth, hdvd]

/-- A vector mark does not move the parallel loop. -/
theorem ParallelPlaced.vectorized {k : Kernel} (h : k.ParallelPlaced) {before : List Loop}
    {l : Loop} (hloops : k.nest.loops = before ++ [l]) (hparallel : l.parallel = false)
    (width : Nat) :
    { k with nest := ⟨before ++ [{ l with vectorWidth := some width }]⟩ }.ParallelPlaced := by
  have hplaced := h.splice [{ l with vectorWidth := some width }] hloops (by simp [hparallel]) (by
    intro first hmem hmarked m hm hiterator
    obtain rfl := List.mem_singleton.mp hm
    have hfirst : first ∈ k.nest.loops := by simp [hloops, hmem]
    have hl : l ∈ k.nest.loops := by simp [hloops]
    have hle := h.outermost hfirst hmarked hl hiterator
    exact hle)
  rwa [List.append_nil] at hplaced

/-- Loops of one iterator differ in stride. -/
def Untied (a b : Loop) : Prop :=
  a.iterator = b.iterator → a.stride ≠ b.stride

theorem Untied.symm {a b : Loop} (h : Untied a b) : Untied b a :=
  fun hiterator => (h hiterator.symm).symm

/-- What the edits keep of a nest. -/
structure Scheduled (k : Kernel) : Prop extends Decomposed k where
  untied : k.nest.loops.Pairwise Untied
  parallelPlaced : k.ParallelPlaced
  vectorPlaced : k.VectorPlaced

namespace Scheduled

/-- Loops of one iterator at different places differ in stride. -/
theorem stride_ne {k : Kernel} (h : k.Scheduled) {before after : List Loop} {l other : Loop}
    (hloops : k.nest.loops = before ++ l :: after) (hother : other ∈ before ++ after)
    (hiterator : other.iterator = l.iterator) : other.stride ≠ l.stride := by
  have huntied := h.untied
  rw [hloops, List.pairwise_append, List.pairwise_cons] at huntied
  obtain ⟨-, ⟨hafter, -⟩, hbefore⟩ := huntied
  rcases List.mem_append.mp hother with hother | hother
  · exact hbefore other hother l (by simp) hiterator
  · exact (hafter other hother hiterator.symm).symm

/-- Loops may take the place of one that covers what they cover, if they tie with no other. -/
theorem splice {k : Kernel} (h : k.Scheduled) (loops : List Loop) {before after : List Loop}
    {l : Loop} (hloops : k.nest.loops = before ++ l :: after) (hne : loops ≠ [])
    (hiterator : ∀ m ∈ loops, m.iterator = l.iterator)
    (htower : Tower l.stride loops (l.stride * l.extent))
    (hdistinct : loops.Pairwise fun a b => a.stride ≠ b.stride)
    (hothers : ∀ m ∈ loops, ∀ other ∈ before ++ after, other.iterator = l.iterator →
      other.stride ≠ m.stride)
    {nest : Nest} (hnest : nest.loops = before ++ loops.reverse ++ after)
    (hparallel : { k with nest := nest }.ParallelPlaced)
    (hvector : { k with nest := nest }.VectorPlaced) : { k with nest := nest }.Scheduled where
  toDecomposed := h.toDecomposed.splice loops hloops hne hiterator htower hnest
  untied := by
    have hold := (List.perm_middle.pairwise_iff Untied.symm).mp (hloops ▸ h.untied)
    have hnew : (before ++ loops.reverse ++ after).Perm (loops ++ (before ++ after)) := by
      rw [← List.append_assoc]
      refine List.Perm.append_right after (List.perm_append_comm.trans ?_)
      exact (List.reverse_perm loops).append_right before
    have hwithin : loops.Pairwise Untied := by
      refine hdistinct.imp ?_
      intro a b hab _
      exact hab
    rw [hnest]
    refine (hnew.pairwise_iff Untied.symm).mpr (List.pairwise_append.mpr
      ⟨hwithin, (List.pairwise_cons.mp hold).2, ?_⟩)
    intro m hm other hother hiter
    exact (hothers m hm other hother (hiter.symm.trans (hiterator m hm))).symm
  parallelPlaced := hparallel
  vectorPlaced := hvector

theorem tile {k : Kernel} (h : k.Scheduled) {before after : List Loop} {l : Loop} {size : Nat}
    (hloops : k.nest.loops = before ++ l :: after) (hparallel : l.parallel = false)
    (hvector : l.vectorWidth = none) (htwo : 2 ≤ size) (hlt : size < l.extent)
    (hdvd : size ∣ l.extent) :
    { k with nest := ⟨before ++ [{ l with extent := l.extent / size, stride := l.stride * size },
      { l with extent := size }] ++ after⟩ }.Scheduled := by
  have hl : l ∈ k.nest.loops := by simp [hloops]
  have hstride := (h.level_bounds hl).1
  have hsize : l.stride * size < l.stride * l.extent := Nat.mul_lt_mul_of_pos_left hlt hstride
  have hgrow : l.stride * 1 < l.stride * size := Nat.mul_lt_mul_of_pos_left htwo hstride
  -- a loop of the same iterator is below the tiled loop or above all that it covers
  have habove : ∀ other ∈ before ++ after, other.iterator = l.iterator →
      other.stride < l.stride ∨ l.stride * size < other.stride := by
    intro other hother hiterator
    have hmem : other ∈ k.nest.loops := by
      simp only [hloops, List.mem_append, List.mem_cons] at hother ⊢
      tauto
    rcases Nat.lt_or_gt_of_ne (h.stride_ne hloops hother hiterator) with hlow | hhigh
    · exact Or.inl hlow
    · exact Or.inr (hsize.trans_le (h.mul_le_of_lt hl hmem hiterator.symm hhigh))
  refine h.splice [{ l with extent := size },
    { l with extent := l.extent / size, stride := l.stride * size }] hloops (by simp) (by simp)
    ?_ ?_ ?_ rfl ?_ ?_
  case refine_1 => exact tower_tiled htwo hlt hdvd
  case refine_2 => simp; omega
  case refine_3 =>
    intro m hm other hother hiterator
    have := habove other hother hiterator
    rcases List.mem_pair.mp hm with rfl | rfl <;> dsimp only <;> omega
  case refine_4 =>
    refine h.parallelPlaced.splice _ hloops (by simp [hparallel]) ?_
    intro first hfirst hmarked m hm hiterator
    have hfirst' : first ∈ k.nest.loops := by simp [hloops, hfirst]
    have hm' : m.iterator = l.iterator ∧ (m.stride = l.stride * size ∨ m.stride = l.stride) := by
      rcases List.mem_pair.mp hm with rfl | rfl <;> simp
    have hle := h.parallelPlaced.outermost hfirst' hmarked hl (hm'.1.symm.trans hiterator)
    have := habove first (by simp [hfirst]) (hiterator.symm.trans hm'.1)
    omega
  case refine_5 => exact h.vectorPlaced.splice _ hloops (by simp [hvector])

theorem interchange {k : Kernel} (h : k.Scheduled) {permutation : List Nat}
    (hperm : permutation.Perm (List.range k.nest.loops.length))
    (hparallel : ∀ p, k.nest.parallelLoop? = some p → permutation[p]? = some p)
    (hvector : ∀ p, k.nest.vectorLoop? = some p → permutation[p]? = some p) :
    { k with nest := ⟨permutation.filterMap (k.nest.loops[·]?)⟩ }.Scheduled := by
  have hloops := Nest.permuted_perm hperm
  exact ⟨h.toDecomposed.perm hloops, (hloops.pairwise_iff Untied.symm).mpr h.untied,
    h.parallelPlaced.permuted hperm hparallel, h.vectorPlaced.permuted hperm hvector⟩

theorem parallelize {k : Kernel} (h : k.Scheduled) {after : List Loop} {l : Loop} {it : Iterator}
    (hloops : k.nest.loops = l :: after) (hfirst : ∀ l ∈ k.nest.loops, l.parallel = false)
    (hvector : l.vectorWidth = none) (hit : k.iterators[l.iterator]? = some it)
    (hkind : it.kind = .parallel)
    (houter : ∀ other ∈ k.nest.loops, other.iterator = l.iterator → other.stride ≤ l.stride) :
    { k with nest := ⟨{ l with parallel := true } :: after⟩ }.Scheduled := by
  have hl : l ∈ k.nest.loops := by simp [hloops]
  have hcut : k.nest.loops = [] ++ l :: after := hloops
  refine h.splice [{ l with parallel := true }] hcut (by simp) (by simp)
    ⟨rfl, (h.level_bounds hl).2.1, rfl⟩ (by simp) ?_ rfl
    (parallelPlaced_marked hloops hfirst hit hkind houter) ?_
  · intro m hm other hother hiterator
    obtain rfl := List.mem_singleton.mp hm
    exact h.stride_ne (l := l) hcut hother hiterator
  · exact h.vectorPlaced.splice [{ l with parallel := true }] hcut (by simp [hvector])

theorem vectorize {k : Kernel} (h : k.Scheduled) {before : List Loop} {l : Loop} {width : Nat}
    (hloops : k.nest.loops = before ++ [l]) (hfirst : ∀ l ∈ k.nest.loops, l.vectorWidth = none)
    (hparallel : l.parallel = false) (hwidth : width ∈ vectorWidths)
    (hdvd : l.extent % width = 0) :
    { k with nest := ⟨before ++ [{ l with vectorWidth := some width }]⟩ }.Scheduled := by
  have hl : l ∈ k.nest.loops := by simp [hloops]
  refine h.splice [{ l with vectorWidth := some width }] hloops (by simp) (by simp)
    ⟨rfl, (h.level_bounds hl).2.1, rfl⟩ (by simp) ?_ (by simp)
    (h.parallelPlaced.vectorized hloops hparallel width)
    (vectorPlaced_marked hloops hfirst hparallel hwidth hdvd)
  intro m hm other hother hiterator
  obtain rfl := List.mem_singleton.mp hm
  exact h.stride_ne (l := l) hloops hother hiterator

/-- An accepted edit keeps the schedule. -/
theorem accepts {k : Kernel} (h : k.Scheduled) {e : Edit} {loops : List Loop}
    (haccepts : k.Accepts e loops) : { k with nest := ⟨loops⟩ }.Scheduled := by
  cases haccepts with
  | tile hloops hparallel hvector htwo hlt hdvd hfits =>
    exact h.tile hloops hparallel hvector htwo hlt hdvd
  | interchange hperm hchanged hparallel hvector => exact h.interchange hperm hparallel hvector
  | parallelize hloops hfirst hvector hit hkind houter =>
    exact h.parallelize hloops hfirst hvector hit hkind houter
  | vectorize hloops hfirst hparallel hpoint hwidth htwo hle hdvd =>
    exact h.vectorize hloops hfirst hparallel hwidth hdvd

theorem legal {k : Kernel} (h : k.Scheduled) (hfits : ∀ i, k.extentOf i < Word.count) :
    k.Legal :=
  h.toDecomposed.legal hfits h.parallelPlaced h.vectorPlaced

/-- One full loop per iterator is a schedule. -/
theorem identity {k : Kernel} (hpos : ∀ it ∈ k.iterators, 0 < it.extent)
    (hnest : k.nest = Nest.identity k.iterators) : k.Scheduled where
  bound := by
    intro l hl
    obtain ⟨i, it, hit, rfl⟩ := Nest.mem_identity.mp (hnest ▸ hl)
    exact (List.getElem?_eq_some_iff.mp hit).1
  present := by
    intro i hi
    refine ⟨Loop.full i k.iterators[i].extent, ?_, rfl⟩
    rw [hnest]
    exact Nest.mem_identity.mpr ⟨i, _, List.getElem?_eq_getElem hi, rfl⟩
  radix := by
    intro i
    rw [hnest, Nest.loopsFor_identity]
    refine ⟨_, List.Perm.refl _, ?_⟩
    cases hit : k.iterators[i]? with
    | none => simp [extentOf, hit, Tower]
    | some it => simp [extentOf, hit, Tower, Loop.full, hpos it (List.mem_of_getElem? hit)]
  untied := by
    rw [hnest, Nest.identity, List.pairwise_iff_getElem]
    intro i j hi hj hlt hiterator
    simp only [List.getElem_mapIdx, Loop.full] at hiterator
    omega
  parallelPlaced := by
    refine parallelPlaced_of_forall fun l hl => ?_
    obtain ⟨i, it, -, rfl⟩ := Nest.mem_identity.mp (hnest ▸ hl)
    rfl
  vectorPlaced := by
    refine vectorPlaced_of_forall fun l hl => ?_
    obtain ⟨i, it, -, rfl⟩ := Nest.mem_identity.mp (hnest ▸ hl)
    rfl

end Scheduled

/-! ### Traps -/

/-- An edit that tiles a loop that overflows. -/
def Overflows (k : Kernel) : Edit → Prop
  | .tile i size => ∃ l, k.nest.loops[i]? = some l ∧ l.Overflows size
  | _ => False

/-- A refusal, unless a condition fails to hold, and a trap in what comes after it. -/
theorem guard_eq_trapped {β : Type} {c : Prop} [Decidable c] {reason : Refusal}
    {f : Unit → Except EditError β} {trap : Trap} :
    (if c then (throw (.refused reason) >>= f : Except EditError β) else f ()) =
      .error (.trapped trap) ↔ ¬c ∧ f () = .error (.trapped trap) := by
  by_cases hc : c
  · simp only [hc, if_true, not_true_eq_false, false_and, iff_false]
    intro h
    cases h
  · simp [hc]

theorem loopAt_bind_eq_trapped {β : Type} {n : Nest} {i : Nat} {f : Loop → Except EditError β}
    {trap : Trap} : (n.loopAt i >>= f) = .error (.trapped trap) ↔
      ∃ l, n.loops[i]? = some l ∧ f l = .error (.trapped trap) := by
  cases hl : n.loops[i]? with
  | none =>
    simp only [Nest.loopAt, hl, reduceCtorEq, false_and, exists_false, iff_false]
    intro h
    cases h
  | some l =>
    rw [Nest.loopAt_eq_ok.mpr hl]
    simp only [Option.some.injEq, exists_eq_left']
    rfl

/-- A tiling traps if nothing but the new stride stands against it. -/
theorem tile_eq_trapped {n : Nest} {i size : Nat} {trap : Trap} :
    n.tile i size = .error (.trapped trap) ↔
      trap = .overflow ∧ ∃ l, n.loops[i]? = some l ∧ l.Overflows size := by
  rw [Nest.tile_eq]
  constructor
  · intro h
    obtain ⟨l, hl, h⟩ := loopAt_bind_eq_trapped.mp h
    obtain ⟨hparallel, h⟩ := guard_eq_trapped.mp h
    obtain ⟨hvector, h⟩ := guard_eq_trapped.mp h
    obtain ⟨htwo, h⟩ := guard_eq_trapped.mp h
    obtain ⟨hlt, h⟩ := guard_eq_trapped.mp h
    obtain ⟨hdvd, h⟩ := guard_eq_trapped.mp h
    cases hmul : Word.mul l.stride size with
    | ok stride =>
      rw [hmul] at h
      cases h
    | error trap' =>
      obtain ⟨rfl, hexceeds⟩ := Word.mul_eq_error.mp hmul
      rw [hmul] at h
      cases h
      exact ⟨rfl, l, hl, by simpa using hparallel, by simpa using hvector, by omega, by omega,
        Nat.dvd_of_mod_eq_zero (by simpa using hdvd), hexceeds⟩
  · rintro ⟨rfl, l, hl, hparallel, hvector, htwo, hlt, hdvd, hexceeds⟩
    refine loopAt_bind_eq_trapped.mpr ⟨l, hl, ?_⟩
    refine guard_eq_trapped.mpr ⟨by simp [hparallel], guard_eq_trapped.mpr ⟨by simp [hvector], ?_⟩⟩
    refine guard_eq_trapped.mpr ⟨by omega, guard_eq_trapped.mpr ⟨by omega, ?_⟩⟩
    refine guard_eq_trapped.mpr ⟨by simpa using Nat.mod_eq_zero_of_dvd hdvd, ?_⟩
    rw [Word.mul_eq_error.mpr ⟨rfl, hexceeds⟩]
    rfl

theorem interchange_ne_trapped (n : Nest) (permutation : List Nat) (trap : Trap) :
    n.interchange permutation ≠ .error (.trapped trap) := by
  intro h
  rw [Nest.interchange_eq] at h
  obtain ⟨-, h⟩ := guard_eq_trapped.mp h
  obtain ⟨-, h⟩ := guard_eq_trapped.mp h
  obtain ⟨-, h⟩ := guard_eq_trapped.mp h
  obtain ⟨-, h⟩ := guard_eq_trapped.mp h
  cases h

theorem parallelize_ne_trapped {k : Kernel}
    (hbound : ∀ l ∈ k.nest.loops, l.iterator < k.iterators.length) (i : Nat) (trap : Trap) :
    k.parallelizedNest i ≠ .error (.trapped trap) := by
  intro h
  rw [parallelizedNest_eq] at h
  obtain ⟨l, hl, h⟩ := loopAt_bind_eq_trapped.mp h
  obtain ⟨-, h⟩ := guard_eq_trapped.mp h
  obtain ⟨-, h⟩ := guard_eq_trapped.mp h
  obtain ⟨-, h⟩ := guard_eq_trapped.mp h
  have hit := List.getElem?_eq_getElem (hbound l (List.mem_of_getElem? hl))
  simp only [trapping_bind (Checked.get_eq_ok.mpr hit)] at h
  obtain ⟨-, h⟩ := guard_eq_trapped.mp h
  obtain ⟨-, h⟩ := guard_eq_trapped.mp h
  cases h

theorem vectorize_ne_trapped (n : Nest) (width : Nat) (trap : Trap) :
    n.vectorize width ≠ .error (.trapped trap) := by
  intro h
  rw [Nest.vectorize_eq] at h
  obtain ⟨-, h⟩ := guard_eq_trapped.mp h
  split at h
  case h_1 => cases h
  case h_2 =>
    obtain ⟨-, h⟩ := guard_eq_trapped.mp h
    obtain ⟨-, h⟩ := guard_eq_trapped.mp h
    obtain ⟨-, h⟩ := guard_eq_trapped.mp h
    cases h

/-- With every loop bound to an iterator, an edit traps if it tiles a loop that overflows, and for
no other reason. -/
theorem apply_eq_trapped {k : Kernel}
    (hbound : ∀ l ∈ k.nest.loops, l.iterator < k.iterators.length) {e : Edit} {trap : Trap} :
    k.apply e = .error (.trapped trap) ↔ trap = .overflow ∧ k.Overflows e := by
  have hnest : k.apply e = .error (.trapped trap) ↔ k.editedNest e = .error (.trapped trap) := by
    cases hedited : k.editedNest e <;>
      simp [Kernel.apply, hedited, pure, Except.pure, bind, Except.bind]
  rw [hnest]
  cases e with
  | tile i size => exact tile_eq_trapped
  | interchange permutation =>
    simpa [Overflows, editedNest] using interchange_ne_trapped k.nest permutation trap
  | parallelize i => simpa [Overflows, editedNest] using parallelize_ne_trapped hbound i trap
  | vectorize width => simpa [Overflows, editedNest] using vectorize_ne_trapped k.nest width trap

/-- On a nest in mixed radix whose extents fit a word no edit traps. -/
theorem Decomposed.apply_ne_trapped {k : Kernel} (h : k.Decomposed)
    (hfits : ∀ i, k.extentOf i < Word.count) (e : Edit) (trap : Trap) :
    k.apply e ≠ .error (.trapped trap) := by
  intro herror
  obtain ⟨-, hover⟩ := (apply_eq_trapped h.bound).mp herror
  cases e with
  | tile i size =>
    obtain ⟨l, hl, hover⟩ := hover
    have hmem : l ∈ k.nest.loopsFor l.iterator := by
      simp [Nest.loopsFor, List.mem_of_getElem? hl]
    exact (h.radix l.iterator).not_overflows (hfits l.iterator) hmem hover
  | interchange => cases hover
  | parallelize => cases hover
  | vectorize => cases hover

theorem Scheduled.apply {k k' : Kernel} (h : k.Scheduled) {e : Edit} (he : k.apply e = .ok k') :
    k'.Scheduled ∧ ∃ nest, k' = { k with nest := nest } := by
  obtain ⟨loops, haccepts, rfl⟩ := accepts_of_apply he
  exact ⟨h.accepts haccepts, _, rfl⟩

/-- A history changes only the nest, and keeps the schedule. -/
theorem Scheduled.replayFrom {k k' : Kernel} (h : k.Scheduled) {step : Nat} {history : List Edit}
    (hk' : k.replayFrom step history = .ok k') :
    k'.Scheduled ∧ ∃ nest, k' = { k with nest := nest } := by
  induction history generalizing k step with
  | nil =>
    obtain rfl := Except.ok.inj hk'
    exact ⟨h, k.nest, rfl⟩
  | cons e rest ih =>
    unfold Kernel.replayFrom at hk'
    split at hk'
    case h_1 next hnext =>
      obtain ⟨hscheduled, nest, rfl⟩ := h.apply hnext
      obtain ⟨hfinal, final, rfl⟩ := ih hscheduled hk'
      exact ⟨hfinal, final, rfl⟩
    case h_2 => cases hk'

theorem Scheduled.replayFrom_ne_trapped {k : Kernel} (h : k.Scheduled)
    (hfits : ∀ i, k.extentOf i < Word.count) (step : Nat) (history : List Edit)
    (failed : Nat) (trap : Trap) : k.replayFrom step history ≠ .error (failed, .trapped trap) := by
  induction history generalizing k step with
  | nil =>
    intro herror
    cases herror
  | cons e rest ih =>
    unfold Kernel.replayFrom
    split
    case h_1 next hnext =>
      obtain ⟨hscheduled, nest, rfl⟩ := h.apply hnext
      exact ih hscheduled hfits (step + 1)
    case h_2 failure hfailure =>
      intro herror
      refine h.apply_ne_trapped hfits e trap ?_
      rw [hfailure, (Prod.mk.inj (Except.error.inj herror)).2]

end Kernel

namespace Draft

theorem scheduled_of_build {d : Draft} {k : Kernel} (h : d.build = .ok k) : k.Scheduled := by
  obtain ⟨hsurface, hnest, -⟩ := checkSurface_of_build h
  exact .identity (Kernel.positive_of_checkSurface hsurface) hnest

theorem extentOf_lt_of_build {d : Draft} {k : Kernel} (h : d.build = .ok k)
    (hfits : ∀ it ∈ d.iterators, it.2 < Word.count) (i : Nat) : k.extentOf i < Word.count := by
  obtain ⟨-, -, hiterators⟩ := checkSurface_of_build h
  unfold Kernel.extentOf
  split
  case h_1 it hit =>
    refine hfits (it.name, it.extent) ?_
    rw [← hiterators]
    exact List.mem_map.mpr ⟨it, List.mem_of_getElem? hit, rfl⟩
  case h_2 => exact Nat.one_lt_two_pow (n := 64) (by omega)

/-- A kernel that a history leads to differs from the built one in its nest, and is valid. -/
theorem validate_of_replay {d : Draft} {k k' : Kernel} (hbuild : d.build = .ok k)
    (hfits : ∀ i, k.extentOf i < Word.count) {history : List Edit}
    (hreplay : k.replay history = .ok k') :
    k'.Scheduled ∧ k'.validate = .ok () ∧ ∃ nest, k' = { k with nest := nest } := by
  obtain ⟨hscheduled, nest, rfl⟩ := (scheduled_of_build hbuild).replayFrom hreplay
  obtain ⟨hsurface, -⟩ := checkSurface_of_build hbuild
  exact ⟨hscheduled, Kernel.validate_of_legal hsurface (hscheduled.legal hfits), nest, rfl⟩

/-- What holds of every kernel that a history leads to from one that was built. -/
theorem scheduled_of_replay {d : Draft} {k k' : Kernel}
    (hfits : ∀ it ∈ d.iterators, it.2 < Word.count) (hbuild : d.build = .ok k)
    {history : List Edit} (hreplay : k.replay history = .ok k') :
    k'.Scheduled ∧ ∀ i, k'.extentOf i < Word.count := by
  have hextents := extentOf_lt_of_build hbuild hfits
  obtain ⟨hscheduled, nest, rfl⟩ := (scheduled_of_build hbuild).replayFrom hreplay
  exact ⟨hscheduled, hextents⟩

/-- Histories of edits on a kernel that was built never trap, and a kernel that a history leads to
is valid: the loops of every iterator still cover its extent exactly once, and the parallel and
vector marks are still in place. -/
theorem replay_valid {d : Draft} {k : Kernel} (hfits : ∀ it ∈ d.iterators, it.2 < Word.count)
    (hbuild : d.build = .ok k) (history : List Edit) :
    (∀ step trap, k.replay history ≠ .error (step, .trapped trap)) ∧
      ∀ k', k.replay history = .ok k' →
        k'.validate = .ok () ∧ k'.checkLegality = .ok () ∧
          (∀ i, MixedRadix (k'.nest.loopsFor i) (k'.extentOf i)) ∧
            k'.ParallelPlaced ∧ k'.VectorPlaced := by
  have hextents := extentOf_lt_of_build hbuild hfits
  constructor
  · intro step trap
    exact (scheduled_of_build hbuild).replayFrom_ne_trapped hextents 0 history step trap
  · intro k' hk'
    obtain ⟨hscheduled, hvalid, -⟩ := validate_of_replay hbuild hextents hk'
    exact ⟨hvalid, (Kernel.validate_eq_ok.mp hvalid).2, hscheduled.radix,
      hscheduled.parallelPlaced, hscheduled.vectorPlaced⟩

/-- `C[i, j] += A[i, k] * B[k, j]` over square matrices. -/
def square (n : Nat) : Draft :=
  ⟨"square", some "matmul", [("i", n), ("j", n), ("k", n)],
    [⟨"A", [n, n], .f32⟩, ⟨"B", [n, n], .f32⟩, ⟨"C", [n, n], .f32⟩],
    some (.contraction ⟨"C", ["i", "j"]⟩ ⟨"A", ["i", "k"]⟩ ⟨"B", ["k", "j"]⟩)⟩

theorem square_build : (square 8).build = .ok (Kernel.matmul "square" 8 8 8) := rfl

/-- A history with every kind of edit. -/
def tuning : List Edit :=
  [.tile 0 4, .parallelize 0, .tile 3 2, .interchange [0, 3, 2, 1, 4], .vectorize 2]

/-- The product of square matrices of size eight after that history. -/
def tuned : Kernel :=
  { Kernel.matmul "square" 8 8 8 with
    nest := ⟨[⟨0, 2, 4, true, none⟩, ⟨2, 4, 2, false, none⟩, ⟨1, 8, 1, false, none⟩,
      ⟨0, 4, 1, false, none⟩, ⟨2, 2, 1, false, some 2⟩]⟩ }

theorem tuned_replay : (Kernel.matmul "square" 8 8 8).replay tuning = .ok tuned := rfl

theorem replay_valid_tuned :
    (square 8).build = .ok (Kernel.matmul "square" 8 8 8) ∧
      (Kernel.matmul "square" 8 8 8).replay tuning = .ok tuned ∧ tuned.validate = .ok () :=
  ⟨square_build, tuned_replay,
    ((replay_valid (by decide) square_build tuning).2 tuned tuned_replay).1⟩

end Draft

end NestTuner
