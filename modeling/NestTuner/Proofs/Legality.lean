import NestTuner.Proofs.MixedRadix
import NestTuner.Proofs.Results

/-!
What the legality check accepts, said without it: every loop is bound, the loops of every iterator
cover it, and the marks are placed well. Below the largest word the covering loops are in mixed
radix, which is what every later argument about a nest starts from.
-/

namespace NestTuner

namespace Nest

theorem mem_positions {n : Nest} {p : Loop → Bool} {i : Nat} :
    i ∈ n.positions p ↔ ∃ l, n.loops[i]? = some l ∧ p l = true := by
  simp only [positions, List.mem_map, List.mem_filter, Prod.exists]
  constructor
  · rintro ⟨l, j, ⟨hmem, hp⟩, rfl⟩
    exact ⟨l, List.mk_mem_zipIdx_iff_getElem?.mp hmem, hp⟩
  · rintro ⟨l, hl, hp⟩
    exact ⟨l, i, ⟨List.mk_mem_zipIdx_iff_getElem?.mpr hl, hp⟩, rfl⟩

theorem positions_nodup (n : Nest) (p : Loop → Bool) : (n.positions p).Nodup := by
  have hsub : (n.positions p).Sublist (n.loops.zipIdx.map (·.2)) :=
    List.filter_sublist.map _
  refine hsub.nodup ?_
  rw [List.zipIdx_map_snd]
  exact List.nodup_range'

/-- Positions that can only be one number are none or that one. -/
theorem positions_eq {n : Nest} {p : Loop → Bool} {j : Nat} (h : ∀ i ∈ n.positions p, i = j) :
    n.positions p = [] ∨ n.positions p = [j] := by
  have hnodup := n.positions_nodup p
  match hps : n.positions p with
  | [] => exact Or.inl rfl
  | [i] => exact Or.inr (by rw [h i (by simp [hps])])
  | i :: i' :: rest =>
    have hi := h i (by simp [hps])
    have hi' := h i' (by simp [hps])
    simp [hps, hi, hi'] at hnodup

theorem isOutermostLevel_iff {n : Nest} {i : Nat} {l : Loop} (hl : n.loops[i]? = some l) :
    n.isOutermostLevel i = true ↔
      ∀ other ∈ n.loops, other.iterator = l.iterator → other.stride ≤ l.stride := by
  simp [isOutermostLevel, hl, loopsFor, imp_iff_not_or]

end Nest

namespace Kernel

/-- The extent of an iterator, and one for an iterator that is not there. -/
def extentOf (k : Kernel) (i : Nat) : Nat :=
  match k.iterators[i]? with
  | some it => it.extent
  | none => 1

theorem extentOf_eq {k : Kernel} {i : Nat} {it : Iterator} (h : k.iterators[i]? = some it) :
    k.extentOf i = it.extent := by
  simp [extentOf, h]

theorem extentOf_lt_of_forall {k : Kernel} {bound : Nat}
    (h : ∀ it ∈ k.iterators, it.extent < bound) (hone : 1 < bound) (i : Nat) :
    k.extentOf i < bound := by
  unfold extentOf
  split
  case h_1 it hit => exact h it (List.mem_of_getElem? hit)
  case h_2 => exact hone

/-- Only the outermost loop may be parallel, and then no loop of its iterator has a larger stride
and the iterator is not a reduction. -/
def ParallelPlaced (k : Kernel) : Prop :=
  (∀ l ∈ k.nest.loops.tail, l.parallel = false) ∧
    ∀ l ∈ k.nest.loops.head?, l.parallel = true →
      (∀ other ∈ k.nest.loops, other.iterator = l.iterator → other.stride ≤ l.stride) ∧
        ∀ it, k.iterators[l.iterator]? = some it → it.kind = .parallel

/-- A copy whose parallel loop has a single value, on one level with the loop that does the work.
The parallel loop is well placed, as a tie is no larger stride. -/
def tied : Kernel :=
  ⟨"copy", none, [⟨"A", [4], .f32⟩, ⟨"B", [4], .f32⟩], [⟨"i", 4, .parallel⟩],
    .elementwise .copy ⟨1, [0]⟩ [⟨0, [0]⟩], ⟨[⟨0, 1, 1, true, none⟩, ⟨0, 4, 1, false, none⟩]⟩⟩

/-- Only the innermost loop may be vectorized, and then it is not parallel and is a whole number of
vectors. -/
def VectorPlaced (k : Kernel) : Prop :=
  (∀ l ∈ k.nest.loops.dropLast, l.vectorWidth = none) ∧
    ∀ l ∈ k.nest.loops.getLast?, ∀ width ∈ l.vectorWidth,
      l.parallel = false ∧ width ∈ vectorWidths ∧ l.extent % width = 0

/-- What the legality check accepts. -/
structure Legal (k : Kernel) : Prop where
  bound : ∀ l ∈ k.nest.loops, l.iterator < k.iterators.length
  covered : ∀ i it, k.iterators[i]? = some it →
    k.nest.loopsFor i ≠ [] ∧ k.nest.covered i = some it.extent
  parallelPlaced : k.ParallelPlaced
  vectorPlaced : k.VectorPlaced

theorem checkBindings_eq_ok {k : Kernel} :
    k.checkBindings = .ok () ↔ ∀ l ∈ k.nest.loops, l.iterator < k.iterators.length := by
  rw [checkBindings, forM_zipIdx_eq_ok]
  constructor
  · intro h l hl
    obtain ⟨i, hi⟩ := List.getElem?_of_mem hl
    simpa using h i l hi
  · intro h i l hl
    simpa using h l (List.mem_of_getElem? hl)

theorem checkCoverage_eq_ok {k : Kernel} :
    k.checkCoverage = .ok () ↔ ∀ i it, k.iterators[i]? = some it →
      k.nest.loopsFor i ≠ [] ∧ k.nest.covered i = some it.extent := by
  rw [checkCoverage, forM_zipIdx_eq_ok]
  refine forall_congr' fun i => forall_congr' fun it => imp_congr_right fun _ => ?_
  by_cases hnil : k.nest.loopsFor i = []
  · simp [hnil]
  · by_cases hcov : k.nest.covered i = some it.extent <;> simp [hnil, hcov]

/-- Placement of the parallel mark, loop by loop. -/
theorem parallelPlaced_iff {k : Kernel} : k.ParallelPlaced ↔
    ∀ i l, k.nest.loops[i]? = some l → l.parallel = true → i = 0 ∧
      k.nest.isOutermostLevel i = true ∧
        ∀ it, k.iterators[l.iterator]? = some it → it.kind = .parallel := by
  constructor
  · rintro ⟨htail, hhead⟩ i l hl hpar
    cases i with
    | zero =>
      rw [Nest.isOutermostLevel_iff hl]
      rw [← List.head?_eq_getElem?] at hl
      exact ⟨rfl, hhead l hl hpar⟩
    | succ i =>
      have hmem : l ∈ k.nest.loops.tail := List.mem_of_getElem? (i := i) (by simpa using hl)
      simp [htail l hmem] at hpar
  · intro h
    constructor
    · intro l hl
      obtain ⟨i, hi⟩ := List.getElem?_of_mem hl
      rw [List.getElem?_tail] at hi
      cases hpar : l.parallel with
      | false => rfl
      | true => exact absurd (h (i + 1) l hi hpar).1 (Nat.succ_ne_zero i)
    · intro l hl hpar
      have hl' : k.nest.loops[0]? = some l := by rwa [← List.head?_eq_getElem?]
      rw [← Nest.isOutermostLevel_iff hl']
      exact (h 0 l hl' hpar).2

/-- A parallel loop is the outermost one. -/
theorem ParallelPlaced.eq_cons {k : Kernel} (h : k.ParallelPlaced) {l : Loop}
    (hl : l ∈ k.nest.loops) (hparallel : l.parallel = true) :
    ∃ inner, k.nest.loops = l :: inner := by
  cases hloops : k.nest.loops with
  | nil => simp [hloops] at hl
  | cons first rest =>
    rcases List.mem_cons.mp (hloops ▸ hl) with rfl | hmem
    · exact ⟨rest, rfl⟩
    · have hunmarked := h.1 l (by simpa [hloops] using hmem)
      simp [hunmarked] at hparallel

theorem checkParallel_eq_ok {k : Kernel} : k.checkParallel = .ok () ↔ k.ParallelPlaced := by
  have hmem := fun i => Nest.mem_positions (n := k.nest) (p := (·.parallel)) (i := i)
  rw [parallelPlaced_iff]
  constructor
  · intro h i l hl hpar
    have hi : i ∈ k.nest.positions (·.parallel) := (hmem i).mpr ⟨l, hl, hpar⟩
    unfold checkParallel at h
    split at h
    case h_1 hnil => simp [hnil] at hi
    case h_2 j hone =>
      obtain rfl : i = j := by simpa [hone] using hi
      split at h
      case isTrue => cases h
      case isFalse hplace =>
        simp only [Bool.or_eq_true, bne_iff_ne, ne_eq, Bool.not_eq_true', not_or, not_not,
          Bool.not_eq_false] at hplace
        refine ⟨hplace.1, hplace.2, fun it hit => ?_⟩
        cases hkind : it.kind with
        | parallel => rfl
        | reduction => simp [hl, hit, hkind] at h
    case h_3 => cases h
  · intro h
    rcases Nest.positions_eq (n := k.nest) (p := (·.parallel)) (j := 0)
      (fun i hi => by obtain ⟨l, hl, hpar⟩ := (hmem i).mp hi; exact (h i l hl hpar).1) with
        hnil | hone
    · simp [checkParallel, hnil]
    · obtain ⟨l, hl, hpar⟩ := (hmem 0).mp (by rw [hone]; exact List.mem_singleton.mpr rfl)
      obtain ⟨-, houter, hkind⟩ := h 0 l hl hpar
      cases hit : k.iterators[l.iterator]? with
      | none => simp [checkParallel, hone, houter, hl, hit]
      | some it => simp [checkParallel, hone, houter, hl, hit, hkind it hit]

/-- Placement of the vector mark, loop by loop. -/
theorem vectorPlaced_iff {k : Kernel} : k.VectorPlaced ↔
    ∀ i l width, k.nest.loops[i]? = some l → l.vectorWidth = some width →
      i + 1 = k.nest.depth ∧ l.parallel = false ∧ width ∈ vectorWidths ∧
        l.extent % width = 0 := by
  constructor
  · rintro ⟨hinit, hlast⟩ i l width hl hwidth
    have hi : i < k.nest.loops.length := (List.getElem?_eq_some_iff.mp hl).1
    by_cases hend : i + 1 = k.nest.loops.length
    · have hget : k.nest.loops.getLast? = some l := by
        rw [List.getLast?_eq_getElem?, ← hl]
        congr 1
        omega
      exact ⟨hend, hlast l hget width hwidth⟩
    · have hmem : l ∈ k.nest.loops.dropLast := by
        refine List.mem_of_getElem? (i := i) ?_
        rw [List.getElem?_dropLast, if_pos (by omega), hl]
      simp [hinit l hmem] at hwidth
  · intro h
    constructor
    · intro l hl
      obtain ⟨i, hi⟩ := List.getElem?_of_mem hl
      rw [List.getElem?_dropLast] at hi
      split at hi
      case isTrue hlt =>
        cases hwidth : l.vectorWidth with
        | none => rfl
        | some width =>
          have hend := (h i l width hi hwidth).1
          rw [Nest.depth] at hend
          omega
      case isFalse => cases hi
    · intro l hl width hwidth
      rw [Option.mem_def, List.getLast?_eq_getElem?] at hl
      exact (h _ l width hl hwidth).2

theorem checkVector_eq_ok {k : Kernel} : k.checkVector = .ok () ↔ k.VectorPlaced := by
  have hmem := fun i => Nest.mem_positions (n := k.nest) (p := (·.vectorWidth.isSome)) (i := i)
  rw [vectorPlaced_iff]
  constructor
  · intro h i l width hl hwidth
    have hi : i ∈ k.nest.positions (·.vectorWidth.isSome) := (hmem i).mpr ⟨l, hl, by simp [hwidth]⟩
    obtain ⟨iterator, extent, stride, parallel, vectorWidth⟩ := l
    subst hwidth
    unfold checkVector at h
    split at h
    case h_1 hnil => simp [hnil] at hi
    case h_2 j hone =>
      obtain rfl : i = j := by simpa [hone] using hi
      simp only [hl] at h
      split at h
      case isTrue => cases h
      case isFalse hplace =>
        split at h
        case isTrue => cases h
        case isFalse hwidth => simpa [and_assoc] using And.intro hplace hwidth
    case h_3 => cases h
  · intro h
    rcases Nest.positions_eq (n := k.nest) (p := (·.vectorWidth.isSome)) (j := k.nest.depth - 1)
      (fun i hi => by
        obtain ⟨l, hl, hvec⟩ := (hmem i).mp hi
        obtain ⟨width, hwidth⟩ := Option.isSome_iff_exists.mp hvec
        have := (h i l width hl hwidth).1
        omega) with hnil | hone
    · simp [checkVector, hnil]
    · obtain ⟨l, hl, hvec⟩ := (hmem _).mp (by rw [hone]; exact List.mem_singleton.mpr rfl)
      obtain ⟨width, hwidth⟩ := Option.isSome_iff_exists.mp hvec
      obtain ⟨hlast, hpar, hmemw, hmod⟩ := h _ l width hl hwidth
      obtain ⟨iterator, extent, stride, parallel, vectorWidth⟩ := l
      subst hwidth hpar
      simp [checkVector, hone, hl, hlast, hmemw, hmod]

theorem checkLegality_eq_ok {k : Kernel} : k.checkLegality = .ok () ↔ k.Legal := by
  rw [checkLegality, seq_eq_ok, seq_eq_ok, seq_eq_ok, checkBindings_eq_ok, checkCoverage_eq_ok,
    checkParallel_eq_ok, checkVector_eq_ok]
  constructor
  · rintro ⟨hbound, hcov, hpar, hvec⟩
    exact ⟨hbound, hcov, hpar, hvec⟩
  · rintro ⟨hbound, hcov, hpar, hvec⟩
    exact ⟨hbound, hcov, hpar, hvec⟩

/-- An iterator that is not there has no loops to be bound to it. -/
theorem mixedRadix_of_length_le {k : Kernel}
    (hbound : ∀ l ∈ k.nest.loops, l.iterator < k.iterators.length) {i : Nat}
    (hi : k.iterators.length ≤ i) : MixedRadix (k.nest.loopsFor i) (k.extentOf i) := by
  have hnil : k.nest.loopsFor i = [] := by
    apply List.filter_eq_nil_iff.mpr
    intro l hl
    have := hbound l hl
    simp only [beq_iff_eq]
    omega
  have hit : k.iterators[i]? = none := List.getElem?_eq_none_iff.mpr hi
  rw [hnil]
  exact ⟨[], List.Perm.refl _, by simp [extentOf, hit, Tower]⟩

/-- In a legal nest the loops of every iterator are in mixed radix. -/
theorem Legal.mixedRadix {k : Kernel} (h : k.Legal) (hfits : ∀ i, k.extentOf i < Word.largest)
    (i : Nat) : MixedRadix (k.nest.loopsFor i) (k.extentOf i) := by
  cases hit : k.iterators[i]? with
  | some it =>
    have hcovered := (h.covered i it hit).2
    rw [← extentOf_eq hit] at hcovered
    exact Nest.mixedRadix_of_covered hcovered (hfits i)
  | none => exact mixedRadix_of_length_le h.bound (List.getElem?_eq_none_iff.mp hit)

/-- In a legal nest every stride is positive and within the extent of its iterator. -/
theorem Legal.stride_bounds {k : Kernel} (h : k.Legal) {l : Loop} (hl : l ∈ k.nest.loops) :
    0 < l.stride ∧ l.stride ≤ k.extentOf l.iterator := by
  have hit := List.getElem?_eq_getElem (h.bound l hl)
  rw [extentOf_eq hit]
  exact Nest.stride_bounds_of_covered (h.covered l.iterator _ hit).2
    (List.mem_filter.mpr ⟨hl, by simp⟩)

end Kernel

end NestTuner
