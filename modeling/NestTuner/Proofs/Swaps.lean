import Mathlib.Data.List.Permutation
import Mathlib.Logic.Equiv.Basic
import NestTuner.Proofs.Editing
import NestTuner.Search.Action

/-!
Swaps reach every order of the loops. The loop that belongs to the first position is brought there
by a swap, then the loop that belongs to the second, and so on; the last loop is in place when all
others are. A swap moves only loops that are not yet in place, and a loop that carries a mark is in
place from the start, so a nest that accepts the whole reordering accepts every swap on the way.
-/

namespace NestTuner

theorem Edit.swap_eq {depth a b : Nat} (ha : a < depth) (hb : b < depth) :
    swap depth a b = .interchange ((List.range depth).map (Equiv.swap a b)) := by
  simp [swap, ha, hb, Equiv.swap_apply_def]

/-- All pairs of positions are proposed. -/
theorem Action.swap_mem_proposals {depth a b : Nat} (hab : a < b) (hb : b < depth) :
    Edit.swap depth a b ∈ (interchange none).proposals depth := by
  have hpair : (a, b) ∈ pairs depth := by
    simp only [pairs, List.mem_flatMap, List.mem_map, List.mem_filter, List.mem_range,
      decide_eq_true_eq]
    exact ⟨a, by omega, b, ⟨hb, hab⟩, rfl⟩
  exact List.mem_map_of_mem (f := fun pair => Edit.swap depth pair.1 pair.2) hpair

theorem swap_lt {depth a b i : Nat} (ha : a < depth) (hb : b < depth) (hi : i < depth) :
    Equiv.swap a b i < depth := by
  rw [Equiv.swap_apply_def]
  split
  · exact hb
  · split
    · exact ha
    · exact hi

/-- Exchanging two positions in a permutation leaves a permutation. -/
theorem map_swap_perm {depth a b : Nat} (ha : a < depth) (hb : b < depth) {permutation : List Nat}
    (h : permutation.Perm (List.range depth)) :
    (permutation.map (Equiv.swap a b)).Perm (List.range depth) := by
  have hnodup : (permutation.map (Equiv.swap a b)).Nodup :=
    (h.nodup_iff.mpr List.nodup_range).map (Equiv.swap a b).injective
  have hsubset : permutation.map (Equiv.swap a b) ⊆ List.range depth := by
    intro p hp
    obtain ⟨i, hi, rfl⟩ := List.mem_map.mp hp
    exact List.mem_range.mpr (swap_lt ha hb (List.mem_range.mp (h.mem_iff.mp hi)))
  have hlength : permutation.length = depth := by simpa using h.length_eq
  exact (List.subperm_of_subset hnodup hsubset).perm_of_length_le (by simp [hlength])

section Fixed

variable {depth : Nat} {permutation : List Nat} (hperm : permutation.Perm (List.range depth))

include hperm

/-- What stands at a position outside of its own one is not in its own place. -/
theorem eq_of_fixed {i p : Nat} (hi : permutation[i]? = some p) (hp : permutation[p]? = some p) :
    i = p := by
  have hnodup : permutation.Nodup := hperm.nodup_iff.mpr List.nodup_range
  exact (List.getElem?_inj (List.getElem?_eq_some_iff.mp hi).1 hnodup).mp (hi.trans hp.symm)

theorem lt_of_getElem? {i p : Nat} (hi : permutation[i]? = some p) : p < depth :=
  List.mem_range.mp (hperm.mem_iff.mp (List.mem_of_getElem? hi))

/-- With everything before it in place, a position holds what belongs there or further on. -/
theorem le_of_fixed {i p : Nat} (hfixed : ∀ q < i, permutation[q]? = some q)
    (hi : permutation[i]? = some p) : i ≤ p := by
  by_contra hlt
  have heq := eq_of_fixed hperm hi (hfixed p (by omega))
  omega

/-- When all positions but the last are in place, so is the last. -/
theorem eq_range_of_fixed {j : Nat} (hfixed : ∀ i < j, permutation[i]? = some i)
    (hj : depth ≤ j + 1) : permutation = List.range depth := by
  have hlength : permutation.length = depth := by simpa using hperm.length_eq
  refine List.ext_getElem? fun i => ?_
  by_cases hi : i < depth
  · rw [List.getElem?_range hi]
    by_cases hij : i < j
    · exact hfixed i hij
    · have hget : permutation[i]? = some permutation[i] := List.getElem?_eq_getElem (by omega)
      have hle := le_of_fixed hperm (fun q hq => hfixed q (by omega)) hget
      have hlt := lt_of_getElem? hperm hget
      rw [hget]
      congr 1
      omega
  · rw [List.getElem?_eq_none (by omega), List.getElem?_eq_none (by simpa using hi)]

end Fixed

namespace Nest

/-- The nest after a swap of two positions. -/
def exchange (n : Nest) (a b : Nat) : Nest :=
  ⟨((List.range n.loops.length).map (Equiv.swap a b)).filterMap (n.loops[·]?)⟩

section Exchange

variable {n : Nest} {a b : Nat} (ha : a < n.loops.length) (hb : b < n.loops.length)

include ha hb

theorem length_exchange : (n.exchange a b).loops.length = n.loops.length :=
  (permuted_perm (map_swap_perm ha hb (.refl _))).length_eq

theorem exchange_getElem? (i : Nat) :
    (n.exchange a b).loops[i]? = n.loops[Equiv.swap a b i]? := by
  have hlt : ∀ p ∈ (List.range n.loops.length).map (Equiv.swap a b), p < n.loops.length := by
    intro p hp
    exact List.mem_range.mp ((map_swap_perm ha hb (.refl _)).mem_iff.mp hp)
  rw [exchange, permuted_getElem? hlt, List.getElem?_map]
  by_cases hi : i < n.loops.length
  · simp [List.getElem?_range hi]
  · have hsame : Equiv.swap a b i = i := Equiv.swap_apply_of_ne_of_ne (by omega) (by omega)
    have hend : (List.range n.loops.length)[i]? = none := by simpa using hi
    rw [hsame, hend, List.getElem?_eq_none (by omega)]
    rfl

/-- A reordering after a swap is one reordering. -/
theorem exchange_filterMap (permutation : List Nat) :
    (permutation.map (Equiv.swap a b)).filterMap ((n.exchange a b).loops[·]?) =
      permutation.filterMap (n.loops[·]?) := by
  rw [List.filterMap_map]
  refine List.filterMap_congr fun p _ => ?_
  rw [Function.comp_apply, exchange_getElem? ha hb, Equiv.swap_apply_self]

end Exchange

/-- Loops that carry a mark stay where they are. -/
def Pinned (n : Nest) (permutation : List Nat) : Prop :=
  ∀ (i : Nat) (l : Loop), n.loops[i]? = some l →
    l.parallel = true ∨ l.vectorWidth.isSome = true → permutation[i]? = some i

/-- A swap of two positions that are not in place moves no mark, and leaves in place what is. -/
theorem Pinned.exchange {n : Nest} {permutation : List Nat} (h : n.Pinned permutation)
    (hperm : permutation.Perm (List.range n.loops.length)) {a b : Nat} (hab : a ≠ b)
    (ha : permutation[a]? = some b) (hlength : a < n.loops.length) :
    (n.exchange a b).Pinned (permutation.map (Equiv.swap a b)) := by
  intro i l hl hmark
  have hb := lt_of_getElem? hperm ha
  rw [exchange_getElem? hlength hb] at hl
  have hfixed := h _ l hl hmark
  -- neither of the two positions is in place
  have hnea : Equiv.swap a b i ≠ a := by
    intro heq
    rw [heq, ha] at hfixed
    exact hab (Option.some.inj hfixed).symm
  have hneb : Equiv.swap a b i ≠ b := by
    intro heq
    rw [heq] at hfixed
    exact hab (eq_of_fixed hperm ha hfixed)
  have hi : Equiv.swap a b i = i := by
    have hback := Equiv.swap_apply_of_ne_of_ne hnea hneb
    rw [Equiv.swap_apply_self] at hback
    exact hback.symm
  rw [hi] at hfixed
  rw [List.getElem?_map, hfixed, Option.map_some, hi]

end Nest

namespace Kernel

/-- A run of edits that are all among the swaps proposed for the nest at hand, and accepted. -/
inductive Swapped : Kernel → List Edit → Kernel → Prop
  | refl (k : Kernel) : Swapped k [] k
  | step {k next last : Kernel} {e : Edit} {rest : List Edit}
      (hproposed : e ∈ (Action.interchange none).proposals k.nest.depth)
      (haccepted : k.apply e = .ok next) (hrest : Swapped next rest last) :
      Swapped k (e :: rest) last

theorem Swapped.replayFrom {k last : Kernel} {history : List Edit} (h : k.Swapped history last)
    (step : Nat) : k.replayFrom step history = .ok last := by
  induction h generalizing step with
  | refl => rfl
  | step _ haccepted _ ih =>
    rw [Kernel.replayFrom, haccepted]
    exact ih (step + 1)

/-- A nest accepts a swap of two positions that carry no mark. -/
theorem apply_swap {k : Kernel} {permutation : List Nat} (hpinned : k.nest.Pinned permutation)
    (hperm : permutation.Perm (List.range k.nest.loops.length)) {a b : Nat} (hab : a < b)
    (ha : permutation[a]? = some b) :
    k.apply (Edit.swap k.nest.depth a b) = .ok { k with nest := k.nest.exchange a b } := by
  have hb := lt_of_getElem? hperm ha
  have hfixes : ∀ p : Nat, permutation[p]? = some p →
      ((List.range k.nest.loops.length).map (Equiv.swap a b))[p]? = some p := by
    intro p hp
    have hnea : p ≠ a := by
      rintro rfl
      have heq := Option.some.inj (ha.symm.trans hp)
      omega
    have hneb : p ≠ b := by
      rintro rfl
      have heq := eq_of_fixed hperm ha hp
      omega
    rw [List.getElem?_map, List.getElem?_range (lt_of_getElem? hperm hp), Option.map_some,
      Equiv.swap_apply_of_ne_of_ne hnea hneb]
  have hmoved : (List.range k.nest.loops.length).map (Equiv.swap a b) ≠
      List.range k.nest.loops.length := by
    intro heq
    have hget := congrArg (·[a]?) heq
    simp only [List.getElem?_map, List.getElem?_range (hab.trans hb), Option.map_some,
      Equiv.swap_apply_left] at hget
    have := Option.some.inj hget
    omega
  refine apply_eq_ok.mpr ⟨(k.nest.exchange a b).loops, ?_, rfl⟩
  rw [Nest.depth, Edit.swap_eq (hab.trans hb) hb]
  refine .interchange (map_swap_perm (hab.trans hb) hb (.refl _)) hmoved ?_ ?_
  · intro p hp
    obtain ⟨hlt, hmark, -⟩ := List.findIdx?_eq_some_iff_getElem.mp hp
    exact hfixes p (hpinned p _ (List.getElem?_eq_getElem hlt) (.inl hmark))
  · intro p hp
    obtain ⟨hlt, hmark, -⟩ := List.findIdx?_eq_some_iff_getElem.mp hp
    exact hfixes p (hpinned p _ (List.getElem?_eq_getElem hlt) (.inr hmark))

/-- Sorting by selection: with the first positions in place, the others take a swap each, and the
last takes none. -/
theorem exists_swapped {k : Kernel} {permutation : List Nat} {j : Nat}
    (hperm : permutation.Perm (List.range k.nest.loops.length))
    (hpinned : k.nest.Pinned permutation) (hfixed : ∀ i < j, permutation[i]? = some i) :
    ∃ history, history.length ≤ k.nest.depth - 1 - j ∧
      k.Swapped history { k with nest := ⟨permutation.filterMap (k.nest.loops[·]?)⟩ } := by
  induction hn : k.nest.depth - 1 - j generalizing k permutation j with
  | zero =>
    have hidentity := eq_range_of_fixed hperm hfixed (by rw [Nest.depth] at hn; omega)
    refine ⟨[], Nat.le_refl _, ?_⟩
    rw [hidentity, Nest.filterMap_range]
    exact .refl k
  | succ m ih =>
    have hj : j < k.nest.loops.length := by
      rw [Nest.depth] at hn
      omega
    have hlength : permutation.length = k.nest.loops.length := by simpa using hperm.length_eq
    obtain ⟨b, hb⟩ : ∃ b, permutation[j]? = some b := ⟨_, List.getElem?_eq_getElem (by omega)⟩
    by_cases hbj : b = j
    · subst hbj
      have hfixed' : ∀ i < b + 1, permutation[i]? = some i := by
        intro i hi
        by_cases heq : i = b
        · rwa [heq]
        · exact hfixed i (by omega)
      obtain ⟨history, hshort, hrun⟩ := ih hperm hpinned hfixed' (by omega)
      exact ⟨history, by omega, hrun⟩
    · have hlt : j < b := by
        have hle := le_of_fixed hperm hfixed hb
        omega
      have hlast := lt_of_getElem? hperm hb
      have hsize := Nest.length_exchange hj hlast
      -- the swap puts the loop at `j` in place and keeps those before it there
      have hfixed' : ∀ i < j + 1, (permutation.map (Equiv.swap j b))[i]? = some i := by
        intro i hi
        rw [List.getElem?_map]
        by_cases heq : i = j
        · rw [heq, hb, Option.map_some, Equiv.swap_apply_right]
        · rw [hfixed i (by omega), Option.map_some,
            Equiv.swap_apply_of_ne_of_ne heq (by omega)]
      obtain ⟨history, hshort, hrun⟩ :=
        @ih { k with nest := k.nest.exchange j b } (permutation.map (Equiv.swap j b)) (j + 1)
          (by rw [hsize]; exact map_swap_perm hj hlast hperm)
          (hpinned.exchange hperm (by omega) hb hj) hfixed'
          (by rw [Nest.depth] at hn; rw [Nest.depth, hsize]; omega)
      rw [Nest.exchange_filterMap hj hlast] at hrun
      refine ⟨Edit.swap k.nest.depth j b :: history, ?_, .step ?_ ?_ hrun⟩
      · rw [List.length_cons]
        omega
      · exact Action.swap_mem_proposals hlt hlast
      · exact apply_swap hpinned hperm hlt hb

/-- In a legal nest a reordering that is accepted moves no loop with a mark. -/
theorem Legal.pinned {k : Kernel} (h : k.Legal) {permutation : List Nat}
    (hparallel : ∀ p, k.nest.parallelLoop? = some p → permutation[p]? = some p)
    (hvector : ∀ p, k.nest.vectorLoop? = some p → permutation[p]? = some p) :
    k.nest.Pinned permutation := by
  intro i l hl hmark
  -- the mark of a legal nest is on one loop only, so the first one found is this one
  have hfound : ∀ mark : Loop → Bool, mark l = true →
      (∀ i' l', k.nest.loops[i']? = some l' → mark l' = true → i' = i) →
        k.nest.loops.findIdx? mark = some i := by
    intro mark hmark honly
    obtain ⟨p, hp⟩ : ∃ p, k.nest.loops.findIdx? mark = some p :=
      Option.isSome_iff_exists.mp (by
        rw [List.findIdx?_isSome, List.any_eq_true]
        exact ⟨l, List.mem_of_getElem? hl, hmark⟩)
    obtain ⟨hlt, hpmark, -⟩ := List.findIdx?_eq_some_iff_getElem.mp hp
    rwa [← honly p _ (List.getElem?_eq_getElem hlt) hpmark]
  rcases hmark with hmark | hmark
  · have hplaced := parallelPlaced_iff.mp h.parallelPlaced
    refine hparallel i (hfound (·.parallel) hmark fun i' l' hl' hmark' => ?_)
    rw [(hplaced i l hl hmark).1, (hplaced i' l' hl' hmark').1]
  · have hplaced := vectorPlaced_iff.mp h.vectorPlaced
    refine hvector i (hfound (·.vectorWidth.isSome) hmark fun i' l' hl' hmark' => ?_)
    obtain ⟨width, hwidth⟩ := Option.isSome_iff_exists.mp hmark
    obtain ⟨width', hwidth'⟩ := Option.isSome_iff_exists.mp hmark'
    have hend := (hplaced i l width hl hwidth).1
    have hend' := (hplaced i' l' width' hl' hwidth').1
    omega

/-- On a legal nest every reordering that is accepted can be made by swaps of two loops, fewer than
there are loops, each proposed by the action that swaps all pairs and accepted where it is made. -/
theorem interchange_by_swaps {k k' : Kernel} {permutation : List Nat}
    (hlegal : k.checkLegality = .ok ()) (h : k.apply (.interchange permutation) = .ok k') :
    ∃ history, history.length ≤ k.nest.depth - 1 ∧ k.Swapped history k' ∧
      k.replay history = .ok k' := by
  obtain ⟨loops, haccepts, rfl⟩ := accepts_of_apply h
  cases haccepts with
  | interchange hperm _ hparallel hvector =>
    have hpinned := (checkLegality_eq_ok.mp hlegal).pinned hparallel hvector
    obtain ⟨history, hshort, hrun⟩ := exists_swapped hperm hpinned (j := 0) (by simp)
    exact ⟨history, hshort, hrun, hrun.replayFrom 0⟩

/-- Three loops change places between a parallel and a vector loop. -/
theorem interchange_by_swaps_tuned :
    Draft.tuned.checkLegality = .ok () ∧
      ∃ k', Draft.tuned.apply (.interchange [0, 2, 3, 1, 4]) = .ok k' ∧
        k'.nest.loops.map (·.extent) = [2, 8, 4, 4, 2] ∧
        ∃ history, history.length ≤ 4 ∧ Draft.tuned.Swapped history k' := by
  have hlegal : Draft.tuned.checkLegality = .ok () := by cbv
  have happly : Draft.tuned.apply (.interchange [0, 2, 3, 1, 4]) =
      .ok { Draft.tuned with nest := ⟨[⟨0, 2, 4, true, none⟩, ⟨1, 8, 1, false, none⟩,
        ⟨0, 4, 1, false, none⟩, ⟨2, 4, 2, false, none⟩, ⟨2, 2, 1, false, some 2⟩]⟩ } := rfl
  obtain ⟨history, hshort, hrun, -⟩ := interchange_by_swaps hlegal happly
  exact ⟨hlegal, _, happly, rfl, history, hshort, hrun⟩

end Kernel

end NestTuner
