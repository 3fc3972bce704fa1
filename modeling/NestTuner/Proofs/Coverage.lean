import Mathlib.Data.List.Permutation
import Mathlib.Data.Set.Function
import NestTuner.Proofs.Editing
import NestTuner.Proofs.Visits

/-!
The legality check is exact about coverage. A tuple of loop indices gives every iterator a value,
and in a legal nest this is a bijection onto the box of all values. Conversely, loops with at least
two values each that give an iterator every value below its extent exactly once can only do so in
mixed radix: the loop of smallest stride fills a segment, and all the others together step by it.
-/

namespace NestTuner

open Point

/-- Tuples of numbers, each below the extent at its place. -/
def box (extents : List Nat) : Set (List Nat) :=
  {xs | List.Forall₂ (· < ·) xs extents}

theorem mem_box {xs extents : List Nat} : xs ∈ box extents ↔ List.Forall₂ (· < ·) xs extents :=
  Iff.rfl

/-- The tuples of a box, in lexicographic order. -/
def tuples : List Nat → List (List Nat)
  | [] => [[]]
  | extent :: rest => (List.range extent).flatMap fun n => (tuples rest).map (n :: ·)

theorem mem_tuples {extents xs : List Nat} : xs ∈ tuples extents ↔ xs ∈ box extents := by
  induction extents generalizing xs with
  | nil => simp [tuples, mem_box]
  | cons extent rest ih =>
    cases xs with
    | nil => simp [tuples, mem_box]
    | cons x xs => simp [tuples, mem_box, ih]

theorem nodup_tuples (extents : List Nat) : (tuples extents).Nodup := by
  induction extents with
  | nil => simp [tuples]
  | cons extent rest ih =>
    refine List.nodup_flatMap.mpr ⟨fun n _ => ih.map List.cons_injective, ?_⟩
    refine List.nodup_range.imp fun {a b} hab => ?_
    simp only [Function.onFun, List.disjoint_left, List.mem_map]
    rintro xs ⟨ys, -, rfl⟩ ⟨zs, -, hzs⟩
    exact hab (List.cons.inj hzs).1.symm

/-- A bijection between the entries of two lists, as a rearrangement. -/
theorem bijOn_iff_perm {α β : Type} {f : α → β} {xs : List α} {ys : List β} (hxs : xs.Nodup)
    (hys : ys.Nodup) : Set.BijOn f {x | x ∈ xs} {y | y ∈ ys} ↔ (xs.map f).Perm ys := by
  constructor
  · rintro ⟨hmaps, hinj, hsurj⟩
    have hnodup : (xs.map f).Nodup := hxs.map_on fun x hx y hy => hinj hx hy
    refine (List.perm_ext_iff_of_nodup hnodup hys).mpr fun y => ⟨fun hy => ?_, fun hy => ?_⟩
    · obtain ⟨x, hx, rfl⟩ := List.mem_map.mp hy
      exact hmaps hx
    · obtain ⟨x, hx, rfl⟩ := hsurj hy
      exact List.mem_map_of_mem hx
  · intro hperm
    refine ⟨fun x hx => hperm.mem_iff.mp (List.mem_map_of_mem hx), ?_, fun y hy => ?_⟩
    · have hinj := List.inj_on_of_nodup_map (hperm.nodup_iff.mpr hys)
      exact fun x hx y hy hxy => hinj hx hy hxy
    · obtain ⟨x, hx, rfl⟩ := List.mem_map.mp (hperm.mem_iff.mpr hy)
      exact ⟨x, hx, rfl⟩

/-- The point at a tuple of loop indices: an iterator has the sum of `index * stride` over its
loops. -/
def pointAt (loops : List Loop) (index : List Nat) : Point := fun i =>
  (((loops.zip index).filter fun entry => entry.1.iterator == i).map fun entry =>
    entry.2 * entry.1.stride).sum

theorem pointAt_cons (l : Loop) (loops : List Loop) (n : Nat) (index : List Nat) :
    pointAt (l :: loops) (n :: index) =
      (pointAt loops index).move l.iterator (n * l.stride) := by
  funext i
  by_cases hi : l.iterator = i
  · subst hi
    simp [pointAt, move, Nat.add_comm]
  · simp [pointAt, move, hi, Ne.symm hi]

/-- Loops visit one point for each tuple of their indices. -/
theorem visits_eq_map (loops : List Loop) (v : Point) :
    visits loops v =
      (tuples (loops.map (·.extent))).map fun index i => v i + pointAt loops index i := by
  induction loops generalizing v with
  | nil => simp [visits, tuples, pointAt]
  | cons l rest ih =>
    simp only [visits, List.map_cons, tuples, List.map_flatMap, List.map_map, ih]
    apply List.flatMap_congr
    intro n _
    apply List.map_congr_left
    intro index _
    funext i
    by_cases hi : i = l.iterator
    · simp [pointAt_cons, move, hi]
      omega
    · simp [pointAt_cons, move, hi]

theorem visits_origin (loops : List Loop) :
    visits loops origin = (tuples (loops.map (·.extent))).map (pointAt loops) := by
  simp [visits_eq_map, origin]

/-- Full loops go through the tuples of their box in order. -/
theorem tuples_eq_visits {extent : Nat → Nat} {iterators : List Nat} (hnodup : iterators.Nodup)
    {v : Point} (hv : ∀ i ∈ iterators, v i = 0) :
    (visits (fullLoops extent iterators) v).map (fun u => iterators.map u) =
      tuples (iterators.map extent) := by
  induction iterators generalizing v with
  | nil => simp [fullLoops, visits, tuples]
  | cons i rest ih =>
    obtain ⟨hi, hrest⟩ := List.nodup_cons.mp hnodup
    have hvi : v i = 0 := hv i (List.mem_cons_self ..)
    have hfull : fullLoops extent (i :: rest) = Loop.full i (extent i) :: fullLoops extent rest :=
      rfl
    rw [hfull, visits, List.map_flatMap, List.map_cons, tuples]
    apply List.flatMap_congr
    intro n _
    rw [← ih hrest (v := v.move i n), List.map_map]
    · simp only [Loop.full, Nat.mul_one]
      apply List.map_congr_left
      intro u hu
      -- the loops inside leave the outer iterator where it is
      have hui : u i = n := by
        rw [(mem_visits_fullLoops hrest hu).2 i hi, move_self, hvi, Nat.zero_add]
      simp [hui]
    · intro j hj
      have hji : j ≠ i := fun h => hi (h ▸ hj)
      rw [move_of_ne v n hji]
      exact hv j (List.mem_cons_of_mem i hj)

/-- Loops with a value visit the point they start from. -/
theorem self_mem_visits {loops : List Loop} (h : ∀ l ∈ loops, 0 < l.extent) (v : Point) :
    v ∈ visits loops v := by
  induction loops with
  | nil => simp [visits]
  | cons l rest ih =>
    refine List.mem_flatMap.mpr ⟨0, List.mem_range.mpr (h l (List.mem_cons_self ..)), ?_⟩
    rw [Nat.zero_mul, move_zero]
    exact ih fun a ha => h a (List.mem_cons_of_mem l ha)

/-- The values that loops give to an iterator, in order. -/
def spanned (i : Nat) (loops : List Loop) : List Nat :=
  (visits loops origin).map (· i)

theorem spanned_cons {i : Nat} {l : Loop} (hl : l.iterator = i) (rest : List Loop) :
    spanned i (l :: rest) =
      (List.range l.extent).flatMap fun n => (spanned i rest).map (· + n * l.stride) := by
  simp only [spanned, visits, List.map_flatMap, List.map_map]
  apply List.flatMap_congr
  intro n _
  rw [visits_move, List.map_map]
  apply List.map_congr_left
  intro u _
  simp [hl, move_self]

theorem spanned_perm {i : Nat} {loops loops' : List Loop} (h : loops.Perm loops') :
    (spanned i loops).Perm (spanned i loops') :=
  (visits_perm h origin).map _

theorem zero_mem_spanned {loops : List Loop} (h : ∀ l ∈ loops, 0 < l.extent) (i : Nat) :
    0 ∈ spanned i loops :=
  List.mem_map.mpr ⟨origin, self_mem_visits h origin, rfl⟩

/-- Loops that give an iterator the multiples of a step below a bound, each exactly once. -/
structure Fills (i : Nat) (loops : List Loop) (s m : Nat) : Prop where
  nodup : (spanned i loops).Nodup
  mem : ∀ x, x ∈ spanned i loops ↔ ∃ q < m, x = s * q

namespace Fills

variable {i s m : Nat} {loops rest : List Loop} {l : Loop}

theorem perm {loops' : List Loop} (h : Fills i loops s m) (hperm : loops.Perm loops') :
    Fills i loops' s m where
  nodup := (spanned_perm hperm).nodup_iff.mp h.nodup
  mem x := (spanned_perm hperm).mem_iff.symm.trans (h.mem x)

theorem mem_cons (h : Fills i (l :: rest) s m) (hl : l.iterator = i) {n y : Nat}
    (hn : n < l.extent) (hy : y ∈ spanned i rest) : ∃ q < m, y + n * l.stride = s * q := by
  refine (h.mem _).mp ?_
  rw [spanned_cons hl]
  exact List.mem_flatMap.mpr ⟨n, List.mem_range.mpr hn, List.mem_map.mpr ⟨y, hy, rfl⟩⟩

theorem exists_cons (h : Fills i (l :: rest) s m) (hl : l.iterator = i) {q : Nat} (hq : q < m) :
    ∃ n < l.extent, ∃ y ∈ spanned i rest, s * q = y + n * l.stride := by
  have hmem := (h.mem (s * q)).mpr ⟨q, hq, rfl⟩
  rw [spanned_cons hl] at hmem
  obtain ⟨n, hn, hmem⟩ := List.mem_flatMap.mp hmem
  obtain ⟨y, hy, hsum⟩ := List.mem_map.mp hmem
  exact ⟨n, List.mem_range.mp hn, y, hy, hsum.symm⟩

/-- A value comes from one index of a loop only. -/
theorem unique (h : Fills i (l :: rest) s m) (hl : l.iterator = i) {n n' y y' : Nat}
    (hn : n < l.extent) (hn' : n' < l.extent) (hy : y ∈ spanned i rest)
    (hy' : y' ∈ spanned i rest) (heq : y + n * l.stride = y' + n' * l.stride) : n = n' := by
  have hnodup := h.nodup
  rw [spanned_cons hl, List.nodup_flatMap] at hnodup
  by_contra hne
  have hsymm : Std.Symm (Function.onFun List.Disjoint fun n =>
      (spanned i rest).map (· + n * l.stride)) := ⟨fun _ _ hd => hd.symm⟩
  have hdisjoint := hnodup.2.forall (List.mem_range.mpr hn) (List.mem_range.mpr hn') hne
  exact hdisjoint (List.mem_map.mpr ⟨y, hy, rfl⟩) (List.mem_map.mpr ⟨y', hy', heq.symm⟩)

theorem tail_nodup (h : Fills i (l :: rest) s m) (hl : l.iterator = i) (hpos : 0 < l.extent) :
    (spanned i rest).Nodup := by
  have hnodup := h.nodup
  rw [spanned_cons hl, List.nodup_flatMap] at hnodup
  exact (hnodup.1 0 (List.mem_range.mpr hpos)).of_map

/-- A value above zero needs a stride that it reaches. -/
theorem exists_stride_le (hi : ∀ l ∈ loops, l.iterator = i) {x : Nat} (hx : x ∈ spanned i loops)
    (hpos : 0 < x) : ∃ l ∈ loops, 0 < l.stride ∧ l.stride ≤ x := by
  induction loops generalizing x with
  | nil =>
    have hzero : x = 0 := by simpa [spanned, visits, origin] using hx
    omega
  | cons l rest ih =>
    rw [spanned_cons (hi l (List.mem_cons_self ..))] at hx
    obtain ⟨n, -, hx⟩ := List.mem_flatMap.mp hx
    obtain ⟨y, hy, rfl⟩ := List.mem_map.mp hx
    by_cases hterm : n * l.stride = 0
    · obtain ⟨a, ha, hapos, hale⟩ := ih (fun a ha => hi a (List.mem_cons_of_mem l ha)) hy (by omega)
      exact ⟨a, List.mem_cons_of_mem l ha, hapos, by omega⟩
    · have hn : 0 < n := Nat.pos_of_ne_zero fun h0 => hterm (by rw [h0, Nat.zero_mul])
      have hstride : 0 < l.stride := Nat.pos_of_ne_zero fun h0 => hterm (by rw [h0, Nat.mul_zero])
      have hle : 1 * l.stride ≤ n * l.stride := Nat.mul_le_mul_right _ hn
      exact ⟨l, List.mem_cons_self .., hstride, by omega⟩

/-- Every stride is a multiple of the step other than zero. -/
theorem stride_eq (h : Fills i loops s m) (hi : ∀ l ∈ loops, l.iterator = i)
    (htwo : ∀ l ∈ loops, 2 ≤ l.extent) (hl : l ∈ loops) :
    ∃ q, 0 < q ∧ q < m ∧ l.stride = s * q := by
  obtain ⟨before, after, rfl⟩ := List.append_of_mem hl
  have hfront := h.perm List.perm_middle
  have hli := hi l hl
  have hl2 := htwo l hl
  have hzero : 0 ∈ spanned i (before ++ after) :=
    zero_mem_spanned (fun a ha => Nat.lt_of_lt_of_le Nat.two_pos
      (htwo a (List.perm_middle.mem_iff.mpr (List.mem_cons_of_mem l ha)))) i
  obtain ⟨q, hq, hstride⟩ := hfront.mem_cons hli (n := 1) (by omega) hzero
  refine ⟨q, Nat.pos_of_ne_zero fun hq0 => ?_, hq, by simpa using hstride⟩
  -- a stride of zero would give the value zero twice
  have hsame : 0 + 0 * l.stride = 0 + 1 * l.stride := by
    rw [hstride, hq0]
    simp
  have hne := hfront.unique hli (by omega) (by omega) hzero hzero hsame
  omega

/-- Some loop steps by as little as all of them together. -/
theorem exists_first (h : Fills i loops s m) (hs : 0 < s) (hi : ∀ l ∈ loops, l.iterator = i)
    (htwo : ∀ l ∈ loops, 2 ≤ l.extent) (hne : loops ≠ []) : ∃ l ∈ loops, l.stride = s := by
  obtain ⟨a, ha⟩ := List.exists_mem_of_ne_nil loops hne
  obtain ⟨q, hqpos, hqm, -⟩ := h.stride_eq hi htwo ha
  have hstep : s ∈ spanned i loops := (h.mem s).mpr ⟨1, by omega, (Nat.mul_one s).symm⟩
  obtain ⟨l, hl, -, hle⟩ := exists_stride_le hi hstep hs
  obtain ⟨r, hrpos, -, hr⟩ := h.stride_eq hi htwo hl
  have hge : s * 1 ≤ s * r := Nat.mul_le_mul_left s hrpos
  exact ⟨l, hl, by omega⟩

/-- What the other loops reach is a multiple of all that the loop of smallest stride covers: the
segment before it ends where it starts. -/
theorem dvd_of_mem (h : Fills i (l :: rest) s m) (hl : l.iterator = i) (hstride : l.stride = s)
    (hs : 0 < s) (hpos : 0 < l.extent) {y : Nat} (hy : y ∈ spanned i rest) :
    s * l.extent ∣ y := by
  induction y using Nat.strong_induction_on with
  | _ y ih =>
    obtain ⟨q, hq, hyq⟩ := h.mem_cons hl hpos hy
    rw [Nat.zero_mul, Nat.add_zero] at hyq
    cases q with
    | zero => exact hyq ▸ Nat.dvd_zero _
    | succ q =>
      obtain ⟨n, hn, y', hy', hprev⟩ := h.exists_cons hl (Nat.lt_of_succ_lt hq)
      rw [hstride] at hprev
      have hnext : y = y' + (n + 1) * s := by
        rw [hyq, Nat.mul_succ, hprev, Nat.succ_mul, Nat.add_assoc]
      by_cases hlast : n + 1 = l.extent
      · have hlt : y' < y := by
          rw [hnext]
          exact Nat.lt_add_of_pos_right (Nat.mul_pos (Nat.succ_pos n) hs)
        rw [hnext, hlast, Nat.mul_comm l.extent]
        exact Nat.dvd_add (ih y' hlt hy') (Nat.dvd_refl _)
      · have hzero : 0 = n + 1 :=
          h.unique hl hpos (by omega) hy hy' (by rw [hstride, hnext, Nat.zero_mul, Nat.add_zero])
        omega

/-- Without the loop of smallest stride, the others step by all that it covers. -/
theorem tail (h : Fills i (l :: rest) s m) (hl : l.iterator = i) (hstride : l.stride = s)
    (hs : 0 < s) (hpos : 0 < l.extent) (hrest : ∀ a ∈ rest, 0 < a.extent) :
    ∃ m', m = l.extent * m' ∧ Fills i rest (s * l.extent) m' := by
  have hdvd := fun {y} hy => h.dvd_of_mem hl hstride hs hpos (y := y) hy
  -- the last value is the last of its segment
  obtain ⟨q₀, hq₀, -⟩ := h.mem_cons hl hpos (zero_mem_spanned hrest i)
  obtain ⟨n, hn, y, hy, hlast⟩ := h.exists_cons hl (q := m - 1) (by omega)
  obtain ⟨r, rfl⟩ := hdvd hy
  have hm : m - 1 = l.extent * r + n := by
    refine Nat.eq_of_mul_eq_mul_left hs ?_
    rw [hlast, hstride]
    ring
  have hend : n + 1 = l.extent := by
    by_contra hne
    obtain ⟨q, hq, hsum⟩ := h.mem_cons hl (n := n + 1) (by omega) hy
    have hqm : q = l.extent * r + (n + 1) := by
      refine Nat.eq_of_mul_eq_mul_left hs ?_
      rw [← hsum, hstride]
      ring
    omega
  have hbound : m = l.extent * (r + 1) := by
    rw [Nat.mul_succ]
    omega
  refine ⟨r + 1, hbound, h.tail_nodup hl hpos, fun x => ⟨fun hx => ?_, ?_⟩⟩
  · obtain ⟨t, rfl⟩ := hdvd hx
    obtain ⟨q, hq, hsum⟩ := h.mem_cons hl hpos hx
    have hqt : q = l.extent * t := by
      refine Nat.eq_of_mul_eq_mul_left hs ?_
      rw [← hsum]
      ring
    refine ⟨t, Nat.lt_of_mul_lt_mul_left (a := l.extent) ?_, rfl⟩
    rwa [← hbound, ← hqt]
  · rintro ⟨t, ht, rfl⟩
    obtain ⟨n', hn', y', hy', hsum⟩ := h.exists_cons hl (q := l.extent * t) (by
      rw [hbound]
      exact Nat.mul_lt_mul_of_pos_left ht hpos)
    obtain ⟨t', rfl⟩ := hdvd hy'
    have hdigits : l.extent * t = l.extent * t' + n' := by
      refine Nat.eq_of_mul_eq_mul_left hs ?_
      rw [hsum, hstride]
      ring
    have htt : t = t' := by
      have hdiv := congrArg (· / l.extent) hdigits
      simpa [Nat.mul_add_div hpos, Nat.div_eq_of_lt hn', Nat.mul_div_cancel_left _ hpos] using hdiv
    exact htt ▸ hy'

/-- Loops that fill a segment by steps can be stacked into a tower, smallest stride first. -/
theorem tower (h : Fills i loops s m) (hs : 0 < s) (hi : ∀ l ∈ loops, l.iterator = i)
    (htwo : ∀ l ∈ loops, 2 ≤ l.extent) : ∃ sorted, sorted.Perm loops ∧ Tower s sorted (s * m) := by
  induction hlen : loops.length generalizing loops s m with
  | zero =>
    obtain rfl := List.length_eq_zero_iff.mp hlen
    have hmem : ∀ x, x = 0 ↔ ∃ q < m, x = s * q := by simpa [spanned, visits, origin] using h.mem
    have hone : m = 1 := by
      obtain ⟨q, hq, -⟩ := (hmem 0).mp rfl
      by_contra hne
      have hs0 : s = 0 := (hmem s).mpr ⟨1, by omega, (Nat.mul_one s).symm⟩
      omega
    exact ⟨[], List.Perm.refl _, by rw [Tower, hone, Nat.mul_one]⟩
  | succ len ih =>
    have hne : loops ≠ [] := fun hnil => by simp [hnil] at hlen
    obtain ⟨l, hl, hstride⟩ := h.exists_first hs hi htwo hne
    obtain ⟨before, after, rfl⟩ := List.append_of_mem hl
    have hrest : ∀ a ∈ before ++ after, a ∈ before ++ l :: after :=
      fun a ha => List.perm_middle.mem_iff.mpr (List.mem_cons_of_mem l ha)
    have hpos : 0 < l.extent := Nat.lt_of_lt_of_le Nat.two_pos (htwo l hl)
    obtain ⟨m', rfl, htail⟩ := (h.perm List.perm_middle).tail (hi l hl) hstride hs hpos
      fun a ha => Nat.lt_of_lt_of_le Nat.two_pos (htwo a (hrest a ha))
    obtain ⟨sorted, hsorted, htower⟩ := ih htail (Nat.mul_pos hs hpos)
      (fun a ha => hi a (hrest a ha)) (fun a ha => htwo a (hrest a ha)) (by simp at hlen ⊢; omega)
    refine ⟨l :: sorted, (hsorted.cons l).trans List.perm_middle.symm, hstride, hpos, ?_⟩
    rwa [Nat.mul_assoc] at htower

theorem mixedRadix (h : Fills i loops 1 m) (hi : ∀ l ∈ loops, l.iterator = i)
    (htwo : ∀ l ∈ loops, 2 ≤ l.extent) : MixedRadix loops m := by
  obtain ⟨sorted, hsorted, htower⟩ := h.tower Nat.one_pos hi htwo
  exact ⟨sorted, hsorted, by rwa [Nat.one_mul] at htower⟩

end Fills

namespace Kernel

/-- The values of all iterators at a tuple of loop indices. -/
def valuesAt (k : Kernel) (index : List Nat) : List Nat :=
  (List.range k.iterators.length).map (pointAt k.nest.loops index)

/-- Every tuple of iterator values comes from exactly one tuple of loop indices, and no other values
come up. -/
def VisitsOnce (k : Kernel) : Prop :=
  Set.BijOn k.valuesAt (box (k.nest.loops.map (·.extent))) (box (k.iterators.map (·.extent)))

theorem map_extentOf (k : Kernel) :
    (List.range k.iterators.length).map k.extentOf = k.iterators.map (·.extent) := by
  apply List.ext_getElem (by simp)
  intro i hi hi'
  simp only [List.length_map, List.length_range] at hi
  simp [extentOf, List.getElem?_eq_getElem hi]

/-- The points of a nest against the tuples of the box. -/
theorem visitsOnce_iff {k : Kernel} : k.VisitsOnce ↔
    ((visits k.nest.loops origin).map fun u => (List.range k.iterators.length).map u).Perm
      (tuples (k.iterators.map (·.extent))) := by
  have hbox : ∀ extents, box extents = {xs | xs ∈ tuples extents} := by
    intro extents
    ext xs
    exact mem_tuples.symm
  rw [VisitsOnce, hbox, hbox, bijOn_iff_perm (nodup_tuples _) (nodup_tuples _), visits_origin,
    List.map_map]
  rfl

/-- Loops in mixed radix, iterator by iterator, visit every point of the box once. -/
theorem visitsOnce_of_mixedRadix {k : Kernel} (hbound : ∀ l ∈ k.nest.loops,
      l.iterator < k.iterators.length)
    (hradix : ∀ i, MixedRadix (k.nest.loopsFor i) (k.extentOf i)) : k.VisitsOnce := by
  have hperm : (visits k.nest.loops origin).Perm
      (visits (fullLoops k.extentOf (List.range k.iterators.length)) origin) :=
    visits_perm_fullLoops (fun l hl => List.mem_range.mpr (hbound l hl)) List.nodup_range
      (fun i _ => hradix i) origin
  have hvalues := hperm.map fun u => (List.range k.iterators.length).map u
  rw [tuples_eq_visits (v := origin) List.nodup_range (fun _ _ => rfl), map_extentOf] at hvalues
  exact visitsOnce_iff.mpr hvalues

namespace VisitsOnce

variable {k : Kernel}

/-- A point is visited exactly when its values lie in the box. -/
theorem mem_iff (h : k.VisitsOnce) {values : List Nat} :
    (∃ u ∈ visits k.nest.loops origin, (List.range k.iterators.length).map u = values) ↔
      values ∈ box (k.iterators.map (·.extent)) := by
  rw [← mem_tuples, ← (visitsOnce_iff.mp h).mem_iff, List.mem_map]

theorem lt_extentOf (h : k.VisitsOnce) {u : Point} (hu : u ∈ visits k.nest.loops origin) {i : Nat}
    (hi : i < k.iterators.length) : u i < k.extentOf i := by
  have hbox := h.mem_iff.mp ⟨u, hu, rfl⟩
  rw [mem_box, ← map_extentOf, List.forall₂_map_left_iff,
    List.forall₂_map_right_iff] at hbox
  exact List.forall₂_same.mp hbox i (List.mem_range.mpr hi)

/-- The points of a nest fall into groups that start where the loops of one iterator lead. -/
theorem grouped (k : Kernel) (i : Nat) : (visits k.nest.loops origin).Perm
    ((visits (k.nest.loopsFor i) origin).flatMap
      (visits (k.nest.loops.filter fun l => !(l.iterator == i)))) := by
  have hgroups := List.filter_append_perm (·.iterator == i) k.nest.loops
  rw [← visits_append]
  exact visits_perm hgroups.symm origin

theorem mem_of_loopsFor (hpos : ∀ l ∈ k.nest.loops, 0 < l.extent) {i : Nat} {u : Point}
    (hu : u ∈ visits (k.nest.loopsFor i) origin) : u ∈ visits k.nest.loops origin :=
  (grouped k i).mem_iff.mpr (List.mem_flatMap.mpr
    ⟨u, hu, self_mem_visits (fun l hl => hpos l (List.mem_of_mem_filter hl)) u⟩)

/-- The loops of each iterator give it every value below its extent once. -/
theorem fills (h : k.VisitsOnce) (hpos : ∀ l ∈ k.nest.loops, 0 < l.extent) {i : Nat}
    (hi : i < k.iterators.length) : Fills i (k.nest.loopsFor i) 1 (k.extentOf i) where
  nodup := by
    have hpoints : (visits k.nest.loops origin).Nodup :=
      ((visitsOnce_iff.mp h).nodup_iff.mpr (nodup_tuples _)).of_map
    have hgroups := List.nodup_flatMap.mp ((grouped k i).nodup_iff.mp hpoints)
    have hothers : ∀ l ∈ k.nest.loops.filter fun l => !(l.iterator == i), 0 < l.extent :=
      fun l hl => hpos l (List.mem_of_mem_filter hl)
    have hstarts : (visits (k.nest.loopsFor i) origin).Nodup := by
      refine hgroups.2.imp ?_
      rintro u w hdisjoint rfl
      exact hdisjoint (self_mem_visits hothers u) (self_mem_visits hothers u)
    refine hstarts.map_on fun u hu w hw huw => ?_
    funext j
    by_cases hj : j = i
    · exact hj ▸ huw
    · have hne : ∀ l ∈ k.nest.loopsFor i, l.iterator ≠ j := by
        intro l hl hlj
        exact hj (hlj.symm.trans (by simpa using (List.mem_filter.mp hl).2))
      rw [visits_of_ne hne hu, visits_of_ne hne hw]
  mem x := by
    simp only [Nat.one_mul, exists_eq_right', spanned, List.mem_map]
    constructor
    · rintro ⟨u, hu, rfl⟩
      exact h.lt_extentOf (mem_of_loopsFor hpos hu) hi
    · intro hx
      -- every extent is positive, so some point of the box has this value
      have horigin : ∀ j < k.iterators.length, 0 < k.extentOf j :=
        fun j hj => Nat.lt_of_le_of_lt (Nat.zero_le _)
          (h.lt_extentOf (self_mem_visits hpos origin) hj)
      have hbox : (List.range k.iterators.length).map (origin.move i x) ∈
          box (k.iterators.map (·.extent)) := by
        rw [mem_box, ← map_extentOf, List.forall₂_map_left_iff,
          List.forall₂_map_right_iff, List.forall₂_same]
        intro j hj
        by_cases hji : j = i
        · subst hji
          simpa [move_self, origin] using hx
        · rw [move_of_ne _ _ hji]
          exact horigin j (List.mem_range.mp hj)
      obtain ⟨u, hu, hvalues⟩ := h.mem_iff.mpr hbox
      have hui : u i = x := by
        have hmap := List.map_inj_left.mp hvalues i (List.mem_range.mpr hi)
        simpa [move_self, origin] using hmap
      obtain ⟨w, hw, huw⟩ := List.mem_flatMap.mp ((grouped k i).mem_iff.mp hu)
      exact ⟨w, hw, by rw [← visits_of_ne (by simp) huw, hui]⟩

end VisitsOnce

/-- Bare loops: each is bound to an iterator, has at least two values and no mark, and no iterator
is without a loop. -/
structure Bare (k : Kernel) : Prop where
  bound : ∀ l ∈ k.nest.loops, l.iterator < k.iterators.length
  present : ∀ i < k.iterators.length, ∃ l ∈ k.nest.loops, l.iterator = i
  two : ∀ l ∈ k.nest.loops, 2 ≤ l.extent
  unmarked : ∀ l ∈ k.nest.loops, l.parallel = false ∧ l.vectorWidth = none

/-- Bare loops that visit every point once are in mixed radix. -/
theorem Bare.decomposed {k : Kernel} (h : k.Bare) (hvisits : k.VisitsOnce) : k.Decomposed where
  bound := h.bound
  present := h.present
  radix := by
    intro i
    rcases Nat.lt_or_ge i k.iterators.length with hi | hi
    · refine (hvisits.fills (fun l hl => Nat.lt_of_lt_of_le Nat.two_pos (h.two l hl)) hi).mixedRadix
        (fun l hl => ?_) fun l hl => h.two l (List.mem_of_mem_filter hl)
      simpa using (List.mem_filter.mp hl).2
    · exact mixedRadix_of_length_le h.bound hi

/-- The check is exact about coverage: what it accepts visits every point of the box of iterator
values once, and bare loops that do so are accepted. Only an extent of the largest word, where a
product that was cut off cannot be told from a true one, is left out of the first half. -/
theorem checkLegality_exact {k : Kernel} (hwords : ∀ it ∈ k.iterators, it.extent < Word.count) :
    ((∀ it ∈ k.iterators, it.extent < Word.largest) → k.checkLegality = .ok () → k.VisitsOnce) ∧
      (k.Bare → k.VisitsOnce → k.checkLegality = .ok ()) := by
  constructor
  · intro hfits hlegal
    have h := checkLegality_eq_ok.mp hlegal
    exact visitsOnce_of_mixedRadix h.bound (h.mixedRadix (extentOf_lt_of_forall hfits (by decide)))
  · intro hbare hvisits
    exact checkLegality_eq_ok.mpr ((hbare.decomposed hvisits).legal
      (extentOf_lt_of_forall hwords (by decide))
      (parallelPlaced_of_forall fun l hl => (hbare.unmarked l hl).1)
      (vectorPlaced_of_forall fun l hl => (hbare.unmarked l hl).2))

end Kernel

namespace Draft

/-- The product of square matrices of size eight with two loops tiled and moved, without marks. -/
def blocked : Kernel :=
  { Kernel.matmul "square" 8 8 8 with
    nest := ⟨[⟨0, 2, 4, false, none⟩, ⟨2, 4, 2, false, none⟩, ⟨1, 8, 1, false, none⟩,
      ⟨0, 4, 1, false, none⟩, ⟨2, 2, 1, false, none⟩]⟩ }

theorem blocked_bare : blocked.Bare := by
  constructor <;> decide

theorem checkLegality_exact_blocked :
    blocked.Bare ∧ blocked.VisitsOnce ∧ blocked.checkLegality = .ok () := by
  obtain ⟨hsound, hcomplete⟩ := Kernel.checkLegality_exact (k := blocked) (by decide)
  have hvisits := hsound (by decide) (by cbv)
  exact ⟨blocked_bare, hvisits, hcomplete blocked_bare hvisits⟩

end Draft

end NestTuner
