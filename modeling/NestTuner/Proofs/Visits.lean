import NestTuner.Proofs.MixedRadix
import Mathlib.Data.Multiset.Bind

/-!
The points that a nest visits, in order. A point gives every iterator a value, and a loop moves one
iterator by its stride. Tiling a loop leaves the sequence of points alone, an interchange permutes
it, and loops in mixed radix visit what a single loop over the whole extent visits.
-/

namespace NestTuner

/-- A value for every iterator. -/
abbrev Point := Nat → Nat

namespace Point

/-- Every iterator at its start. -/
def origin : Point := fun _ => 0

/-- One iterator moved ahead. -/
def move (v : Point) (iterator x : Nat) : Point :=
  fun i => if i = iterator then v i + x else v i

theorem move_self (v : Point) (i x : Nat) : v.move i x i = v i + x := by
  simp [move]

theorem move_of_ne (v : Point) {i j : Nat} (x : Nat) (h : j ≠ i) : v.move i x j = v j := by
  simp [move, h]

theorem move_zero (v : Point) (i : Nat) : v.move i 0 = v := by
  funext j
  simp [move]

theorem move_eq_update {v : Point} {i : Nat} (h : v i = 0) (x : Nat) :
    v.move i x = Function.update v i x := by
  funext j
  by_cases hj : j = i <;> simp [move, hj, h]

theorem move_move (v : Point) (i x y : Nat) : (v.move i x).move i y = v.move i (x + y) := by
  funext j
  by_cases h : j = i <;> simp [move, h, Nat.add_assoc]

theorem move_comm (v : Point) (i j x y : Nat) :
    (v.move i x).move j y = (v.move j y).move i x := by
  funext a
  simp only [move]
  split <;> split <;> omega

theorem le_move (v : Point) (i x j : Nat) : v j ≤ v.move i x j := by
  simp only [move]
  split <;> omega

theorem move_le_move {u v : Point} (h : ∀ j, u j ≤ v j) (i x j : Nat) :
    u.move i x j ≤ v.move i x j := by
  have hj := h j
  simp only [move]
  split <;> omega

/-- The points of an operand do not see an iterator that does not index it. -/
theorem map_move_of_notMem {indices : List Nat} {i : Nat} (h : i ∉ indices) (v : Point) (x : Nat) :
    indices.map (v.move i x) = indices.map v := by
  apply List.map_congr_left
  intro j hj
  exact move_of_ne v x (fun hji => h (hji ▸ hj))

/-- Iterators set to the entries of an index, one after another. -/
def assign : List Nat → List Nat → Point → Point
  | i :: indices, x :: index, v => assign indices index (Function.update v i x)
  | _, _, v => v

theorem assign_of_notMem {indices : List Nat} {i : Nat} (h : i ∉ indices) (index : List Nat)
    (v : Point) : assign indices index v i = v i := by
  induction indices generalizing index v with
  | nil => rfl
  | cons j rest ih =>
    have hij : i ≠ j := fun hij => h (hij ▸ List.mem_cons_self ..)
    have hrest : i ∉ rest := fun hi => h (List.mem_cons_of_mem j hi)
    cases index with
    | nil => rfl
    | cons x xs => rw [assign, ih hrest, Function.update_of_ne hij]

theorem map_assign {indices index : List Nat} (hnodup : indices.Nodup)
    (hlen : index.length = indices.length) (v : Point) :
    indices.map (assign indices index v) = index := by
  induction indices generalizing index v with
  | nil => simpa [eq_comm] using hlen
  | cons i rest ih =>
    obtain ⟨hi, hrest⟩ := List.nodup_cons.mp hnodup
    cases index with
    | nil => simp at hlen
    | cons x xs =>
      simp only [List.length_cons, Nat.add_right_cancel_iff] at hlen
      rw [List.map_cons, assign, ih hrest hlen, assign_of_notMem hi, Function.update_self]

/-- An index determines the point that has it and is nowhere else moved. -/
theorem assign_eq {indices : List Nat} (hnodup : indices.Nodup) {u : Point}
    (hzero : ∀ i, i ∉ indices → u i = 0) : assign indices (indices.map u) origin = u := by
  funext i
  by_cases hi : i ∈ indices
  · exact List.map_inj_left.mp (map_assign hnodup (by simp) origin) i hi
  · rw [assign_of_notMem hi, hzero i hi]
    rfl

end Point

open Point

/-- The points that loops visit from a given one, in order. -/
def visits : List Loop → Point → List Point
  | [], v => [v]
  | l :: rest, v =>
    (List.range l.extent).flatMap fun n => visits rest (v.move l.iterator (n * l.stride))

theorem visits_append (xs ys : List Loop) (v : Point) :
    visits (xs ++ ys) v = (visits xs v).flatMap (visits ys) := by
  induction xs generalizing v with
  | nil => simp [visits]
  | cons l rest ih => simp only [List.cons_append, visits, ih, List.flatMap_assoc]

theorem visits_singleton (l : Loop) (v : Point) :
    visits [l] v = (List.range l.extent).map fun n => v.move l.iterator (n * l.stride) := by
  simp only [visits, List.map_eq_flatMap]

theorem visits_move (loops : List Loop) (v : Point) (i x : Nat) :
    visits loops (v.move i x) = (visits loops v).map (·.move i x) := by
  induction loops generalizing v with
  | nil => rfl
  | cons l rest ih =>
    simp only [visits, List.map_flatMap]
    apply List.flatMap_congr
    intro n _
    rw [move_comm, ih]

/-- Loops may be replaced by others that visit the same. -/
theorem visits_splice {xs ys : List Loop} (h : ∀ v, visits xs v = visits ys v)
    (before after : List Loop) (v : Point) :
    visits (before ++ xs ++ after) v = visits (before ++ ys ++ after) v := by
  simp only [visits_append]
  congr 2
  funext u
  exact h u

/-- Numbers below a product, taken block by block. -/
theorem range_mul (a b : Nat) :
    List.range (a * b) = (List.range a).flatMap fun m => (List.range b).map (m * b + ·) := by
  induction a with
  | zero => simp
  | succ a ih => rw [Nat.succ_mul, List.range_add, List.range_succ, List.flatMap_append, ← ih]; simp

/-- A loop over tiles and a loop inside each visit what the loop they came from visits. -/
theorem visits_tiled {l outer point : Loop} (houter : outer.iterator = l.iterator)
    (hpoint : point.iterator = l.iterator) (hstride : point.stride = l.stride)
    (htile : outer.stride = l.stride * point.extent)
    (hextent : outer.extent * point.extent = l.extent) (v : Point) :
    visits [outer, point] v = visits [l] v := by
  rw [visits, visits_singleton, ← hextent, range_mul, List.map_flatMap]
  apply List.flatMap_congr
  intro m _
  rw [visits_singleton, List.map_map]
  apply List.map_congr_left
  intro n _
  rw [houter, hpoint, move_move, hstride, htile]
  simp only [Function.comp_apply]
  congr 1
  ring

/-- The values that the loops of a tower give to their iterator, outermost loop first. -/
theorem visits_tower {loops : List Loop} {i s extent : Nat} (h : Tower s loops extent)
    (hi : ∀ l ∈ loops, l.iterator = i) (v : Point) :
    visits loops.reverse v =
      (List.range (loops.map (·.extent)).prod).map fun n => v.move i (n * s) := by
  induction loops generalizing s with
  | nil => simp [visits, move_zero]
  | cons l rest ih =>
    obtain ⟨hs, -, hrest⟩ := h
    have hl : l.iterator = i := hi l (List.mem_cons_self ..)
    rw [List.reverse_cons, visits_append,
      ih hrest (fun a ha => hi a (List.mem_cons_of_mem l ha)), List.flatMap_map, List.map_cons,
      List.prod_cons, Nat.mul_comm l.extent, range_mul, List.map_flatMap]
    apply List.flatMap_congr
    intro m _
    rw [visits_singleton, List.map_map]
    apply List.map_congr_left
    intro n _
    rw [hl, hs, move_move]
    simp only [Function.comp_apply]
    congr 1
    ring

/-- The order of two loops next to each other does not matter for what they visit. -/
theorem visits_swap (a b : Loop) (rest : List Loop) (v : Point) :
    (visits (a :: b :: rest) v).Perm (visits (b :: a :: rest) v) := by
  rw [← Multiset.coe_eq_coe]
  simp only [visits, ← Multiset.coe_bind]
  rw [Multiset.bind_bind]
  simp only [move_comm v a.iterator]

theorem visits_perm {loops loops' : List Loop} (h : loops.Perm loops') (v : Point) :
    (visits loops v).Perm (visits loops' v) := by
  induction h generalizing v with
  | nil => exact List.Perm.refl _
  | cons l _ ih => exact List.Perm.flatMap_left _ (fun n _ => ih _)
  | swap a b rest => exact visits_swap b a rest v
  | trans _ _ ih ih' => exact (ih v).trans (ih' v)

/-- Loops in mixed radix visit what one loop over the whole extent visits. -/
theorem visits_mixedRadix {loops : List Loop} {i extent : Nat} (h : MixedRadix loops extent)
    (hi : ∀ l ∈ loops, l.iterator = i) (v : Point) :
    (visits loops v).Perm (visits [Loop.full i extent] v) := by
  obtain ⟨sorted, hperm, htower⟩ := h
  have hsorted : ∀ l ∈ sorted, l.iterator = i := fun l hl => hi l (hperm.mem_iff.mp hl)
  have hprod : extent = (sorted.map (·.extent)).prod := by
    simpa using htower.eq_mul_prod
  have hfull : visits sorted.reverse v = visits [Loop.full i extent] v := by
    rw [visits_tower htower hsorted, visits_singleton, hprod]
    rfl
  exact hfull ▸ visits_perm ((List.reverse_perm sorted).trans hperm).symm v

/-- One loop for each of several iterators. -/
def fullLoops (extent : Nat → Nat) (iterators : List Nat) : List Loop :=
  iterators.map fun i => Loop.full i (extent i)

/-- A nest whose loops are in mixed radix, iterator by iterator, visits what full loops visit. -/
theorem visits_perm_fullLoops {extent : Nat → Nat} {iterators : List Nat} {loops : List Loop}
    (hmem : ∀ l ∈ loops, l.iterator ∈ iterators) (hnodup : iterators.Nodup)
    (hradix : ∀ i ∈ iterators, MixedRadix (loops.filter (·.iterator == i)) (extent i))
    (v : Point) : (visits loops v).Perm (visits (fullLoops extent iterators) v) := by
  induction iterators generalizing loops v with
  | nil =>
    have hnil : loops = [] := List.eq_nil_iff_forall_not_mem.mpr fun l hl => by
      simpa using hmem l hl
    rw [hnil]
    exact List.Perm.refl _
  | cons i rest ih =>
    obtain ⟨hi, hrest⟩ := List.nodup_cons.mp hnodup
    have hgroups := List.filter_append_perm (·.iterator == i) loops
    have hfull : fullLoops extent (i :: rest) = [Loop.full i (extent i)] ++ fullLoops extent rest :=
      rfl
    refine (visits_perm hgroups.symm v).trans ?_
    rw [visits_append, hfull, visits_append]
    refine List.Perm.flatMap ?_ ?_
    · exact visits_mixedRadix (hradix i (List.mem_cons_self ..)) (by simp) v
    · intro u _
      apply ih
      · intro l hl
        have hl' := List.mem_filter.mp hl
        have hne : l.iterator ≠ i := by simpa using hl'.2
        exact (List.mem_cons.mp (hmem l hl'.1)).resolve_left hne
      · exact hrest
      · intro j hj
        have hji : j ≠ i := fun h => hi (h ▸ hj)
        have hsame : (loops.filter fun l => !(l.iterator == i)).filter (·.iterator == j) =
            loops.filter (·.iterator == j) := by
          rw [List.filter_filter]
          apply List.filter_congr
          intro l _
          by_cases hl : l.iterator = j <;> simp [hl, hji]
        rw [hsame]
        exact hradix j (List.mem_cons_of_mem i hj)

/-- What full loops do to each iterator. -/
theorem mem_visits_fullLoops {extent : Nat → Nat} {iterators : List Nat}
    (hnodup : iterators.Nodup) {v u : Point} (hu : u ∈ visits (fullLoops extent iterators) v) :
    (∀ i ∈ iterators, u i < v i + extent i) ∧ ∀ i, i ∉ iterators → u i = v i := by
  induction iterators generalizing v with
  | nil => simp_all [fullLoops, visits]
  | cons i rest ih =>
    obtain ⟨hi, hrest⟩ := List.nodup_cons.mp hnodup
    simp only [fullLoops, List.map_cons, visits, List.mem_flatMap, List.mem_range] at hu
    obtain ⟨n, hn, hu⟩ := hu
    obtain ⟨hlt, heq⟩ := ih hrest hu
    simp only [Loop.full, Nat.mul_one] at hn hlt heq
    constructor
    · intro j hj
      rcases List.mem_cons.mp hj with rfl | hj
      · rw [heq j hi, move_self]
        omega
      · have hji : j ≠ i := fun h => hi (h ▸ hj)
        simpa [move_of_ne v n hji] using hlt j hj
    · intro j hj
      have hji : j ≠ i := fun h => hj (h ▸ List.mem_cons_self ..)
      rw [heq j (fun h => hj (List.mem_cons_of_mem i h)), move_of_ne v n hji]

theorem flatMap_range_single {α : Type} {n x : Nat} (hx : x < n) (a : α) :
    ((List.range n).flatMap fun m => if m = x then [a] else []) = [a] := by
  obtain ⟨k, rfl⟩ : ∃ k, n = x + 1 + k := ⟨n - (x + 1), by omega⟩
  have hbefore : ((List.range x).flatMap fun m => if m = x then [a] else []) = [] := by
    apply List.flatMap_eq_nil_iff.mpr
    intro m hm
    simp [(List.mem_range.mp hm).ne]
  rw [List.range_add, List.range_succ, List.flatMap_append, List.flatMap_append, hbefore]
  simp [List.flatMap_map, Nat.add_assoc]

/-- Full loops meet every index of their box exactly once. -/
theorem filter_visits_fullLoops {extent : Nat → Nat} {iterators index : List Nat}
    (hnodup : iterators.Nodup) (hindex : List.Forall₂ (· < ·) index (iterators.map extent))
    {v : Point} (hv : ∀ i ∈ iterators, v i = 0) :
    (visits (fullLoops extent iterators) v).filter (fun u => iterators.map u == index) =
      [assign iterators index v] := by
  induction iterators generalizing index v with
  | nil =>
    cases hindex
    simp [fullLoops, visits, assign]
  | cons i rest ih =>
    obtain ⟨hi, hrest⟩ := List.nodup_cons.mp hnodup
    cases index with
    | nil => cases hindex
    | cons x xs =>
      obtain ⟨hx, hxs⟩ := List.forall₂_cons.mp hindex
      have hvi : v i = 0 := hv i (List.mem_cons_self ..)
      -- Only one round of the outer loop gives its iterator the value asked for.
      have hround : ∀ n, (visits (fullLoops extent rest) (v.move i n)).filter
          (fun u => (i :: rest).map u == x :: xs) =
            if n = x then [assign (i :: rest) (x :: xs) v] else [] := by
        intro n
        have hval : ∀ u ∈ visits (fullLoops extent rest) (v.move i n), u i = n := by
          intro u hu
          rw [(mem_visits_fullLoops hrest hu).2 i hi, move_self, hvi, Nat.zero_add]
        split
        case isTrue hn =>
          subst hn
          rw [assign, ← move_eq_update hvi, ← ih hrest hxs]
          · apply List.filter_congr
            intro u hu
            simp [hval u hu]
          · intro j hj
            have hji : j ≠ i := fun h => hi (h ▸ hj)
            rw [move_of_ne v n hji]
            exact hv j (List.mem_cons_of_mem i hj)
        case isFalse hn =>
          apply List.filter_eq_nil_iff.mpr
          intro u hu
          simp [hval u hu, hn]
      simp only [fullLoops, List.map_cons, visits, Loop.full, Nat.mul_one, List.filter_flatMap]
      simp only [fullLoops, Loop.full, List.map_cons] at hround
      simp only [hround]
      exact flatMap_range_single hx _

/-- Points kept by a test that some of the loops do not influence. If the other loops by themselves
pass it at most once, what is kept is a run of the loops without influence from there on. -/
theorem filter_visits {loops : List Loop} {p : Loop → Bool} {q : Point → Bool}
    (hq : ∀ l ∈ loops, p l = false → ∀ u x, q (u.move l.iterator x) = q u) (v : Point)
    (hone : ((visits (loops.filter p) v).filter q).length ≤ 1) :
    (visits loops v).filter q =
      ((visits (loops.filter p) v).filter q).flatMap (visits (loops.filter fun l => !p l)) := by
  induction loops generalizing v with
  | nil => by_cases hv : q v <;> simp [visits, hv]
  | cons l rest ih =>
    have hrest : ∀ l ∈ rest, p l = false → ∀ u x, q (u.move l.iterator x) = q u :=
      fun a ha => hq a (List.mem_cons_of_mem l ha)
    cases hl : p l with
    | true =>
      simp only [List.filter_cons, hl, if_true, Bool.not_true, Bool.false_eq_true, if_false, visits,
        List.filter_flatMap, List.flatMap_assoc] at hone ⊢
      apply List.flatMap_congr
      intro n hn
      apply ih hrest
      have hsub := ((List.singleton_sublist.mpr hn).flatMap fun n =>
        (visits (rest.filter p) (v.move l.iterator (n * l.stride))).filter q).length_le
      rw [List.flatMap_singleton] at hsub
      exact hsub.trans hone
    | false =>
      simp only [List.filter_cons, hl, if_true, Bool.not_false, Bool.false_eq_true, if_false,
        visits, List.filter_flatMap] at hone ⊢
      have hmoved : ∀ n, (visits (rest.filter p) (v.move l.iterator (n * l.stride))).filter q =
          ((visits (rest.filter p) v).filter q).map (·.move l.iterator (n * l.stride)) := by
        intro n
        rw [visits_move, List.filter_map]
        congr 1
        apply List.filter_congr
        intro u _
        exact hq l (List.mem_cons_self ..) hl u _
      have hround : ∀ n, (visits rest (v.move l.iterator (n * l.stride))).filter q =
          ((visits (rest.filter p) v).filter q).flatMap fun u =>
            visits (rest.filter fun a => !p a) (u.move l.iterator (n * l.stride)) := by
        intro n
        rw [ih hrest _ (by rw [hmoved]; simpa using hone), hmoved, List.flatMap_map]
      simp only [hround]
      match hkept : (visits (rest.filter p) v).filter q, hone with
      | [], _ => simp
      | [u], _ => simp
      | _ :: _ :: _, hone => simp at hone

theorem visits_of_ne {loops : List Loop} {i : Nat} (h : ∀ l ∈ loops, l.iterator ≠ i) {u v : Point}
    (hv : v ∈ visits loops u) : v i = u i := by
  induction loops generalizing u with
  | nil => rw [List.mem_singleton.mp hv]
  | cons l rest ih =>
    obtain ⟨n, -, hv⟩ := List.mem_flatMap.mp hv
    rw [ih (fun a ha => h a (List.mem_cons_of_mem l ha)) hv,
      move_of_ne u _ (h l (List.mem_cons_self ..)).symm]

/-- Loops in mixed radix keep their iterator within the extent they cover. -/
theorem lt_of_mem_visits {loops : List Loop} {i extent : Nat}
    (h : MixedRadix (loops.filter (·.iterator == i)) extent) {u v : Point}
    (hv : v ∈ visits loops u) : v i < u i + extent := by
  have hgroups := List.filter_append_perm (·.iterator == i) loops
  have hv' := (visits_perm hgroups.symm u).mem_iff.mp hv
  rw [visits_append] at hv'
  obtain ⟨w, hw, hv'⟩ := List.mem_flatMap.mp hv'
  rw [visits_of_ne (by simp) hv']
  have hw' := (visits_mixedRadix (i := i) h (by simp) u).mem_iff.mp hw
  obtain ⟨n, hn, rfl⟩ := List.mem_map.mp (visits_singleton .. ▸ hw')
  have hlt : n < extent := List.mem_range.mp hn
  simpa [Loop.full, move_self] using hlt

theorem visits_ne_nil {loops : List Loop} (h : ∀ l ∈ loops, 0 < l.extent) (v : Point) :
    visits loops v ≠ [] := by
  induction loops generalizing v with
  | nil => simp [visits]
  | cons l rest ih =>
    intro hnil
    have hfirst := List.flatMap_eq_nil_iff.mp hnil 0
      (List.mem_range.mpr (h l (List.mem_cons_self ..)))
    exact ih (fun a ha => h a (List.mem_cons_of_mem l ha)) _ hfirst

/-- Loops move iterators ahead only. -/
theorem le_of_mem_visits {loops : List Loop} {u v : Point} (hv : v ∈ visits loops u) (i : Nat) :
    u i ≤ v i := by
  induction loops generalizing u with
  | nil => rw [List.mem_singleton.mp hv]
  | cons l rest ih =>
    obtain ⟨n, -, hv⟩ := List.mem_flatMap.mp hv
    exact (le_move u l.iterator (n * l.stride) i).trans (ih hv)

/-- Choosing loops by their iterators leaves those of a chosen iterator. -/
theorem filter_iterator (p : Nat → Bool) {i : Nat} (hi : p i = true) {loops : List Loop} :
    (loops.filter fun l => p l.iterator).filter (·.iterator == i) =
      loops.filter (·.iterator == i) := by
  rw [List.filter_filter]
  apply List.filter_congr
  intro l _
  by_cases hl : l.iterator = i <;> simp [hl, hi]

/-- The points that give certain iterators certain values: the other loops run from there. -/
theorem filter_visits_index {extent : Nat → Nat} {indices index : List Nat} {loops : List Loop}
    (hnodup : indices.Nodup) (hindex : List.Forall₂ (· < ·) index (indices.map extent))
    (hradix : ∀ i ∈ indices, MixedRadix (loops.filter (·.iterator == i)) (extent i)) :
    (visits loops origin).filter (fun v => indices.map v == index) =
      visits (loops.filter fun l => !indices.contains l.iterator)
        (assign indices index origin) := by
  have hfull : (visits (loops.filter fun l => indices.contains l.iterator) origin).filter
      (fun v => indices.map v == index) = [assign indices index origin] := by
    have hbox := filter_visits_fullLoops (v := origin) hnodup hindex fun _ _ => rfl
    rw [← List.perm_singleton, ← hbox]
    refine (visits_perm_fullLoops (by simp) hnodup ?_ origin).filter _
    intro i hi
    rw [filter_iterator indices.contains (by simpa using hi)]
    exact hradix i hi
  rw [filter_visits ?_ origin (by rw [hfull]; exact Nat.le_refl 1), hfull, List.flatMap_singleton]
  intro l _ hl u x
  rw [map_move_of_notMem (by simpa using hl)]

end NestTuner
