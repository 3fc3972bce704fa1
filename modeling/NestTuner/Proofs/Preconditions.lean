import NestTuner.Proofs.Coverage
import NestTuner.Proofs.Illegality

/-!
The preconditions of edits against the legality check. On every kernel that edits lead to, an edit
is accepted exactly if the nest it would leave is legal, so that the conditions of an edit are
neither too lax nor too strict. A mark that would leave its place is seen in the new nest. A tile
that does not divide its loop leaves a gap, because loops cover at most the product of their
extents, also where the check cuts products off.
-/

namespace NestTuner

namespace Word

theorem saturatingMul_le_mul (a b : Nat) : saturatingMul a b ≤ a * b := by
  unfold saturatingMul
  split
  case isTrue => exact Nat.le_refl _
  case isFalse hlarge =>
    unfold count at hlarge
    unfold largest
    omega

end Word

/-- The loop over tiles of a size and the loop inside each, both with the marks of the loop they
come from. -/
def Loop.tiles (l : Loop) (size : Nat) : List Loop :=
  [{ l with extent := l.extent / size, stride := l.stride * size }, { l with extent := size }]

namespace Nest

/-- Levels cover at most the product of their extents. -/
theorem le_prod_of_coveredFrom {levels : List (Nat × Nat)} {s extent : Nat}
    (h : coveredFrom s levels = some extent) : extent ≤ s * (levels.map (·.2)).prod := by
  induction levels generalizing s with
  | nil => simpa using Nat.le_of_eq (Option.some.inj h).symm
  | cons level rest ih =>
    obtain ⟨-, -, hrest⟩ := coveredFrom_cons.mp h
    calc extent ≤ Word.saturatingMul s level.2 * (rest.map (·.2)).prod := ih hrest
      _ ≤ s * level.2 * (rest.map (·.2)).prod :=
        Nat.mul_le_mul_right _ (Word.saturatingMul_le_mul ..)
      _ = s * ((level :: rest).map (·.2)).prod := by
        rw [List.map_cons, List.prod_cons, Nat.mul_assoc]

theorem le_prod_of_covered {n : Nest} {i extent : Nat} (h : n.covered i = some extent) :
    extent ≤ ((n.loopsFor i).map (·.extent)).prod := by
  have hle := le_prod_of_coveredFrom h
  have hperm := ((n.levels_perm i).map (·.2)).prod_eq
  rw [Nat.one_mul, hperm, List.map_map] at hle
  exact hle

theorem exists_cut {n : Nest} {i : Nat} {l : Loop} (h : n.loops[i]? = some l) :
    ∃ before after, n.loops = before ++ l :: after ∧ before.length = i :=
  ⟨_, _, loops_eq h⟩

theorem splice_eq {n : Nest} {before after : List Loop} {l : Loop}
    (hloops : n.loops = before ++ l :: after) (loops : List Loop) :
    n.splice before.length loops = ⟨before ++ loops ++ after⟩ := by
  simp [splice, hloops]

end Nest

namespace Kernel

/-- A tile that does not divide its loop leaves a gap. -/
theorem Scheduled.dvd_of_covered {k : Kernel} (h : k.Scheduled) {before after : List Loop}
    {l : Loop} {size : Nat} (hloops : k.nest.loops = before ++ l :: after)
    (hcovered : Nest.covered ⟨before ++ l.tiles size ++ after⟩ l.iterator =
      some (k.extentOf l.iterator)) :
    size ∣ l.extent := by
  have hprod := (h.radix l.iterator).eq_prod
  have hpos := (h.radix l.iterator).pos
  have hle := Nest.le_prod_of_covered hcovered
  simp only [Loop.tiles, Nest.loopsFor, hloops, List.filter_append, List.filter_cons,
    List.filter_nil, BEq.rfl, if_true, List.map_append, List.map_cons, List.map_nil,
    List.prod_append, List.prod_cons, List.prod_nil, Nat.mul_one] at hprod hle
  generalize ((before.filter (·.iterator == l.iterator)).map (·.extent)).prod = below at hprod hle
  generalize ((after.filter (·.iterator == l.iterator)).map (·.extent)).prod = above at hprod hle
  -- the other loops cancel
  have hothers : 0 < below * above := by
    refine Nat.pos_of_ne_zero fun hzero => ?_
    have hswap : below * (l.extent * above) = l.extent * (below * above) := by ring
    rw [hswap, hzero, Nat.mul_zero] at hprod
    omega
  have hwhole : below * above * l.extent ≤ below * above * (l.extent / size * size) :=
    calc below * above * l.extent = k.extentOf l.iterator := by
          rw [hprod]
          ring
      _ ≤ below * (l.extent / size * size) * above := hle
      _ = below * above * (l.extent / size * size) := by ring
  have hrest := Nat.le_of_mul_le_mul_left hwhole hothers
  have hfloor := Nat.div_mul_le_self l.extent size
  exact Dvd.intro_left (l.extent / size) (by omega)

/-- A mark that only one position may carry, before and after the loops are reordered, stays where
it is. -/
theorem permutation_fixes {loops : List Loop} {permutation : List Nat}
    (hperm : permutation.Perm (List.range loops.length)) {mark : Loop → Bool} {j : Nat}
    (hbefore : ∀ i l, loops[i]? = some l → mark l = true → i = j)
    (hafter : ∀ i l, (permutation.filterMap (loops[·]?))[i]? = some l → mark l = true → i = j)
    {p : Nat} (hp : loops.findIdx? mark = some p) : permutation[p]? = some p := by
  obtain ⟨hlt, hmark, -⟩ := List.findIdx?_eq_some_iff_getElem.mp hp
  have hl := List.getElem?_eq_getElem hlt
  obtain ⟨q, hq⟩ := List.getElem?_of_mem (hperm.mem_iff.mpr (List.mem_range.mpr hlt))
  have hmoved : (permutation.filterMap (loops[·]?))[q]? = some loops[p] := by
    rw [Nest.permuted_getElem? fun p hp => List.mem_range.mp (hperm.mem_iff.mp hp), hq]
    exact hl
  have hpj := hbefore p _ hl hmark
  have hqj := hafter q _ hmoved hmark
  rwa [hqj, ← hpj] at hq

section Reached

variable {k k' : Kernel} (h : k.Scheduled) (hfits : ∀ i, k.extentOf i < Word.count)

include h hfits

/-- What an accepted edit leaves is legal. -/
theorem Scheduled.checkLegality_of_accepts {e : Edit} {loops : List Loop}
    (haccepts : k.Accepts e loops) : { k with nest := ⟨loops⟩ }.checkLegality = .ok () :=
  checkLegality_eq_ok.mpr ((h.accepts haccepts).legal hfits)

/-- Marking a loop parallel is accepted exactly if the marked nest is legal. -/
theorem Scheduled.parallelize_iff (hnone : k.nest.parallelLoop? = none) (i : Nat) :
    k.apply (.parallelize i) = .ok k' ↔ ∃ l, k.nest.loops[i]? = some l ∧
      k' = { k with nest := k.nest.splice i [{ l with parallel := true }] } ∧
        k'.checkLegality = .ok () := by
  rw [apply_eq_ok]
  constructor
  · rintro ⟨loops, haccepts, rfl⟩
    have hlegal := h.checkLegality_of_accepts hfits haccepts
    cases haccepts with
    | @parallelize after l it hloops hfirst hvector hit hkind houter =>
      exact ⟨l, by simp [hloops], by simp [Nest.splice, hloops], hlegal⟩
  · rintro ⟨l, hl, rfl, hlegal⟩
    obtain ⟨before, after, hloops, rfl⟩ := Nest.exists_cut hl
    rw [Nest.splice_eq hloops] at hlegal ⊢
    have hplaced := checkLegality_eq_ok.mp hlegal
    have hmarked : (before ++ [{ l with parallel := true }] ++ after)[before.length]? =
        some { l with parallel := true } := by simp
    obtain ⟨hzero, houter, hkind⟩ :=
      parallelPlaced_iff.mp hplaced.parallelPlaced _ _ hmarked rfl
    obtain rfl := List.length_eq_zero_iff.mp hzero
    have hvector : l.vectorWidth = none := by
      refine Option.eq_none_iff_forall_ne_some.mpr fun width hwidth => ?_
      have hunmarked := (vectorPlaced_iff.mp hplaced.vectorPlaced _ _ width hmarked hwidth).2.1
      cases hunmarked
    have hmem : l ∈ k.nest.loops := by simp [hloops]
    have hit := List.getElem?_eq_getElem (h.bound l hmem)
    refine ⟨_, .parallelize hloops ?_ hvector hit (hkind _ hit) ?_, rfl⟩
    · exact Nest.parallelLoop?_eq_none.mp (by simp [hnone])
    · intro other hother hiterator
      rcases List.mem_cons.mp (hloops ▸ hother) with rfl | hafter
      · exact Nat.le_refl _
      · exact (Nest.isOutermostLevel_iff hmarked).mp houter other (by simp [hafter]) hiterator

/-- A reordering is accepted exactly if it changes the order and the reordered nest is legal. -/
theorem Scheduled.interchange_iff {permutation : List Nat}
    (hperm : permutation.Perm (List.range k.nest.depth)) :
    k.apply (.interchange permutation) = .ok k' ↔ permutation ≠ List.range k.nest.depth ∧
      k' = { k with nest := ⟨permutation.filterMap (k.nest.loops[·]?)⟩ } ∧
        k'.checkLegality = .ok () := by
  rw [apply_eq_ok]
  constructor
  · rintro ⟨loops, haccepts, rfl⟩
    have hlegal := h.checkLegality_of_accepts hfits haccepts
    cases haccepts with
    | interchange hperm hchanged hparallel hvector => exact ⟨hchanged, rfl, hlegal⟩
  · rintro ⟨hchanged, rfl, hlegal⟩
    have hplaced := checkLegality_eq_ok.mp hlegal
    have hdepth : (permutation.filterMap (k.nest.loops[·]?)).length = k.nest.loops.length :=
      (Nest.permuted_perm hperm).length_eq
    refine ⟨_, .interchange hperm hchanged (fun p hp => ?_) (fun p hp => ?_), rfl⟩
    · refine permutation_fixes (j := 0) hperm ?_ ?_ hp
      · exact fun i l hl hmark => (parallelPlaced_iff.mp h.parallelPlaced i l hl hmark).1
      · exact fun i l hl hmark => (parallelPlaced_iff.mp hplaced.parallelPlaced i l hl hmark).1
    · refine permutation_fixes (j := k.nest.depth - 1) hperm ?_ ?_ hp
      · intro i l hl hmark
        obtain ⟨width, hwidth⟩ := Option.isSome_iff_exists.mp hmark
        have hend := (vectorPlaced_iff.mp h.vectorPlaced i l width hl hwidth).1
        omega
      · intro i l hl hmark
        obtain ⟨width, hwidth⟩ := Option.isSome_iff_exists.mp hmark
        have hend := (vectorPlaced_iff.mp hplaced.vectorPlaced i l width hl hwidth).1
        rw [Nest.depth, hdepth, ← Nest.depth] at hend
        omega

/-- A tiling by a size below the extent is accepted exactly if the tiled nest is legal. -/
theorem Scheduled.tile_iff {i size : Nat} {l : Loop} (hl : k.nest.loops[i]? = some l)
    (htwo : 2 ≤ size) (hlt : size < l.extent) :
    k.apply (.tile i size) = .ok k' ↔
      k' = { k with nest := k.nest.splice i (l.tiles size) } ∧ k'.checkLegality = .ok () := by
  rw [apply_eq_ok]
  constructor
  · rintro ⟨loops, haccepts, rfl⟩
    have hlegal := h.checkLegality_of_accepts hfits haccepts
    cases haccepts with
    | @tile before after m _ hloops hparallel hvector _ _ hdvd hword =>
      obtain rfl : m = l := by simpa [hloops] using hl
      exact ⟨by rw [Nest.splice_eq hloops, Loop.tiles], hlegal⟩
  · rintro ⟨rfl, hlegal⟩
    obtain ⟨before, after, hloops, rfl⟩ := Nest.exists_cut hl
    rw [Nest.splice_eq hloops] at hlegal ⊢
    have hplaced := checkLegality_eq_ok.mp hlegal
    have hmem : l ∈ k.nest.loops := by simp [hloops]
    -- a mark would stand on both loops, and one of them is out of its place
    have hparallel : l.parallel = false := by
      by_contra hmark
      have hzero := (parallelPlaced_iff.mp hplaced.parallelPlaced (before.length + 1)
        { l with extent := size } (by simp [Loop.tiles]) (by simpa using hmark)).1
      omega
    have hvector : l.vectorWidth = none := by
      refine Option.eq_none_iff_forall_ne_some.mpr fun width hwidth => ?_
      have hend := (vectorPlaced_iff.mp hplaced.vectorPlaced before.length
        { l with extent := l.extent / size, stride := l.stride * size } width
        (by simp [Loop.tiles]) hwidth).1
      simp [Nest.depth, Loop.tiles] at hend
    have hit := List.getElem?_eq_getElem (h.bound l hmem)
    have hcovered := (hplaced.covered _ _ hit).2
    rw [← extentOf_eq hit] at hcovered
    have hword : l.stride * size < Word.count :=
      calc l.stride * size ≤ l.stride * l.extent := Nat.mul_le_mul_left _ hlt.le
        _ ≤ k.extentOf l.iterator := (h.level_bounds hmem).2.2
        _ < Word.count := hfits l.iterator
    exact ⟨_, .tile hloops hparallel hvector htwo hlt (h.dvd_of_covered hloops hcovered) hword, rfl⟩

end Reached

end Kernel

namespace Draft

/-- On every kernel that accepted edits lead to from one that was built, the preconditions of an
edit coincide with legality of the nest that it leaves: for the parallel mark on a nest without one,
for every reordering of the loops and for every tile size between two and the extent. -/
theorem apply_iff_legal {d : Draft} {root k : Kernel} {history : List Edit}
    (hfits : ∀ it ∈ d.iterators, it.2 < Word.count) (hbuild : d.build = .ok root)
    (hreplay : root.replay history = .ok k) (k' : Kernel) :
    (k.nest.parallelLoop? = none → ∀ i,
      (k.apply (.parallelize i) = .ok k' ↔ ∃ l, k.nest.loops[i]? = some l ∧
        k' = { k with nest := k.nest.splice i [{ l with parallel := true }] } ∧
          k'.checkLegality = .ok ())) ∧
    (∀ permutation : List Nat, permutation.Perm (List.range k.nest.depth) →
      (k.apply (.interchange permutation) = .ok k' ↔ permutation ≠ List.range k.nest.depth ∧
        k' = { k with nest := ⟨permutation.filterMap (k.nest.loops[·]?)⟩ } ∧
          k'.checkLegality = .ok ())) ∧
    ∀ i l size, k.nest.loops[i]? = some l → 2 ≤ size → size < l.extent →
      (k.apply (.tile i size) = .ok k' ↔
        k' = { k with nest := k.nest.splice i (l.tiles size) } ∧ k'.checkLegality = .ok ()) := by
  obtain ⟨hscheduled, hextents⟩ := scheduled_of_replay hfits hbuild hreplay
  refine ⟨fun hnone i => hscheduled.parallelize_iff hextents hnone i, fun permutation hperm => ?_,
    fun i l size hl htwo hlt => hscheduled.tile_iff hextents hl htwo hlt⟩
  exact hscheduled.interchange_iff hextents hperm

/-- A history that leads to the product in tiles. -/
def blocking : List Edit :=
  [.tile 0 4, .tile 3 2, .interchange [0, 3, 2, 1, 4]]

theorem blocking_replay : (Kernel.matmul "square" 8 8 8).replay blocking = .ok blocked := rfl

/-- There the outermost loop may be marked parallel, two loops may change places, and a loop of
eight has no tiles of three. -/
theorem apply_iff_legal_blocked :
    (square 8).build = .ok (Kernel.matmul "square" 8 8 8) ∧
      (Kernel.matmul "square" 8 8 8).replay blocking = .ok blocked ∧
      (∃ k', blocked.apply (.parallelize 0) = .ok k') ∧
      (∃ k', blocked.apply (.interchange [1, 0, 2, 3, 4]) = .ok k') ∧
      ∀ k', blocked.apply (.tile 2 3) ≠ .ok k' := by
  have hexact := apply_iff_legal (by decide) square_build blocking_replay
  refine ⟨square_build, blocking_replay, ?_, ?_, ?_⟩
  · exact ⟨_, ((hexact _).1 rfl 0).mpr ⟨_, rfl, rfl, by cbv⟩⟩
  · exact ⟨_, ((hexact _).2.1 _ (by decide)).mpr ⟨by decide, rfl, by cbv⟩⟩
  · intro k' h
    obtain ⟨rfl, hlegal⟩ := ((hexact k').2.2 2 _ 3 rfl (by decide) (by decide)).mp h
    refine absurd hlegal ?_
    cbv
    intro herror
    cases herror

end Draft

end NestTuner
