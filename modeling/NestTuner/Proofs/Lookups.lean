import Mathlib.Data.List.Perm.Subperm
import NestTuner.Edit.Apply
import NestTuner.Proofs.Results

/-!
What an edit looks up is there. A loop that is replaced was found before, a position of a
permutation is below the depth once it has passed the check, and the table in which the check marks
positions has one entry for each of them. So edits come down to look-ups that cannot trap, and a
trap can only come from a stride that does not fit, or from a loop without an iterator.
-/

namespace NestTuner

open EditError (trapping)

theorem trapping_eq_ok {α : Type} {x : Checked α} {a : α} : trapping x = .ok a ↔ x = .ok a := by
  cases x <;> simp [trapping, Except.mapError]

theorem trapping_bind {α β : Type} {x : Checked α} {a : α} (h : x = .ok a)
    (f : α → Except EditError β) : trapping x >>= f = f a := by
  rw [h]
  rfl

theorem insertIdx_append {α : Type} (front back : List α) (x : α) :
    (front ++ back).insertIdx front.length x = front ++ x :: back := by
  induction front with
  | nil => rfl
  | cons first front ih => simp [ih]

namespace Nest

theorem loopAt_eq_ok {n : Nest} {i : Nat} {l : Loop} :
    n.loopAt i = .ok l ↔ n.loops[i]? = some l := by
  unfold loopAt
  split <;> simp_all

/-- Replaces the loop at a position by several. -/
def splice (n : Nest) (i : Nat) (loops : List Loop) : Nest :=
  ⟨n.loops.take i ++ loops ++ n.loops.drop (i + 1)⟩

theorem set_eq_splice {n : Nest} {i : Nat} (hi : i < n.loops.length) (l : Loop) :
    Checked.set n.loops i l = .ok (n.splice i [l]).loops := by
  simp [Checked.set, hi, splice, List.set_eq_take_append_cons_drop]

theorem insert_splice {n : Nest} {i : Nat} (hi : i < n.loops.length) (l m : Loop) :
    Checked.insert (n.splice i [l]).loops (i + 1) m = .ok (n.splice i [l, m]).loops := by
  have hlength : (n.loops.take i ++ [l]).length = i + 1 := by
    simp
    omega
  have hle : i + 1 ≤ (n.splice i [l]).loops.length := by
    rw [splice, List.length_append, hlength]
    exact Nat.le_add_right ..
  have hspliced := insertIdx_append (n.loops.take i ++ [l]) (n.loops.drop (i + 1)) m
  rw [hlength] at hspliced
  rw [Checked.insert, if_pos hle, splice, hspliced]
  simp [splice]

/-- A tiled loop is where it was looked up, so its replacement does not trap. -/
theorem tile_eq (n : Nest) (i size : Nat) : n.tile i size = (do
    let l ← n.loopAt i
    if l.parallel then throw (.refused (.loopConsumed i .parallel))
    if l.vectorWidth.isSome then throw (.refused (.loopConsumed i .vectorized))
    if size < 2 then throw (.refused (.degenerateTile size))
    if size ≥ l.extent then throw (.refused (.tileExceedsExtent size l.extent))
    if l.extent % size != 0 then throw (.refused (.tileNotDivisor size l.extent))
    let stride ← trapping (Word.mul l.stride size)
    return n.splice i [{ l with extent := l.extent / size, stride := stride },
      { l with extent := size }]) := by
  unfold tile
  cases hl : n.loopAt i with
  | error e => rfl
  | ok l =>
    have hi := (List.getElem?_eq_some_iff.mp (loopAt_eq_ok.mp hl)).1
    simp only [trapping_bind (set_eq_splice hi _), trapping_bind (insert_splice hi _ _)]

/-- With a table of all positions no look-up traps, and what is refused is a position out of range,
a marked one or one that comes twice. -/
theorem checkPositions_eq {depth : Nat} {seen : List Bool} (hseen : seen.length = depth)
    (positions : List Nat) : checkPositions depth seen positions =
      if (∀ p ∈ positions, seen[p]? = some false) ∧ positions.Nodup then .ok ()
      else .error (.refused (.notBijection depth)) := by
  induction positions generalizing seen with
  | nil => simp [checkPositions]
  | cons p rest ih =>
    rw [checkPositions]
    by_cases hp : p < depth
    · obtain ⟨b, hb⟩ : ∃ b, seen[p]? = some b := ⟨_, List.getElem?_eq_getElem (hseen ▸ hp)⟩
      rw [if_neg (Nat.not_le.mpr hp), trapping_bind (Checked.get_eq_ok.mpr hb)]
      cases b with
      | true =>
        rw [if_pos rfl, if_neg (by simp [hb])]
        rfl
      | false =>
        have hset : Checked.set seen p true = .ok (seen.set p true) := if_pos (hseen ▸ hp)
        have hmarked : ∀ q, (seen.set p true)[q]? = some false ↔ q ≠ p ∧ seen[q]? = some false := by
          intro q
          rw [List.getElem?_set]
          by_cases hq : p = q
          · simp [hq]
          · simp [hq, Ne.symm hq]
        rw [if_neg (by decide), trapping_bind hset, ih (by simpa using hseen)]
        refine if_congr ?_ rfl rfl
        simp only [hmarked, List.forall_mem_cons, hb, List.nodup_cons, true_and]
        grind
    · rw [if_pos (Nat.le_of_not_lt hp), if_neg]
      · rfl
      · have hnone : seen[p]? = none := List.getElem?_eq_none (by omega)
        simp [hnone]

theorem checkPositions_range {depth : Nat} {permutation : List Nat}
    (hlength : permutation.length = depth) :
    checkPositions depth (List.replicate depth false) permutation =
      if permutation.Perm (List.range depth) then .ok ()
      else .error (.refused (.notBijection depth)) := by
  rw [checkPositions_eq List.length_replicate]
  refine if_congr ⟨fun h => ?_, fun h => ?_⟩ rfl rfl
  · have hsub : permutation.Subperm (List.range depth) :=
      List.subperm_of_subset h.2 fun p hp => List.mem_range.mpr
        (by simpa [List.getElem?_replicate] using h.1 p hp)
    exact hsub.perm_of_length_le (by simp [hlength])
  · refine ⟨fun p hp => ?_, h.nodup_iff.mpr List.nodup_range⟩
    simpa [List.getElem?_replicate] using h.mem_iff.mp hp

theorem checkPinned_eq {permutation : List Nat} {mark : Mark} {pinned : Option Nat}
    (h : ∀ p ∈ pinned, p < permutation.length) : checkPinned permutation mark pinned =
      if pinned.any fun p => permutation[p]? != some p then
        .error (.refused (.pinnedLoopMoved mark))
      else .ok () := by
  cases pinned with
  | none => rfl
  | some p =>
    obtain ⟨q, hq⟩ : ∃ q, permutation[p]? = some q := ⟨_, List.getElem?_eq_getElem (h p rfl)⟩
    rw [checkPinned, trapping_bind (Checked.get_eq_ok.mpr hq), Option.any_some, hq]
    by_cases hmoved : q = p
    · simp [hmoved, pure, Except.pure]
    · simp [hmoved]
      rfl

theorem mapM_get {loops : List Loop} {positions : List Nat}
    (h : ∀ p ∈ positions, p < loops.length) :
    positions.mapM (Checked.get loops) = .ok (positions.filterMap (loops[·]?)) := by
  induction positions with
  | nil => rfl
  | cons p rest ih =>
    obtain ⟨hp, hrest⟩ := List.forall_mem_cons.mp h
    have hl := List.getElem?_eq_getElem hp
    rw [List.mapM_cons, Checked.get_eq_ok.mpr hl, List.filterMap_cons_some hl, ih hrest]
    rfl

/-- The positions of a permutation, and those of the marked loops, are all there. -/
theorem interchange_eq (n : Nest) (permutation : List Nat) : n.interchange permutation = (do
    if ¬ permutation.Perm (List.range n.depth) then throw (.refused (.notBijection n.depth))
    if permutation == List.range n.depth then throw (.refused .identityPermutation)
    if n.parallelLoop?.any fun p => permutation[p]? != some p then
      throw (.refused (.pinnedLoopMoved .parallel))
    if n.vectorLoop?.any fun p => permutation[p]? != some p then
      throw (.refused (.pinnedLoopMoved .vectorized))
    return ⟨permutation.filterMap (n.loops[·]?)⟩) := by
  unfold interchange
  by_cases hlength : permutation.length = n.depth
  · rw [if_neg (by simp [hlength]), checkPositions_range hlength]
    by_cases hperm : permutation.Perm (List.range n.depth)
    · have hparallel : ∀ p ∈ n.parallelLoop?, p < permutation.length := fun p hp =>
        hlength ▸ (List.findIdx?_eq_some_iff_getElem.mp hp).1
      have hvector : ∀ p ∈ n.vectorLoop?, p < permutation.length := fun p hp =>
        hlength ▸ (List.findIdx?_eq_some_iff_getElem.mp hp).1
      have hloops := mapM_get fun p hp => List.mem_range.mp (hperm.mem_iff.mp hp)
      rw [if_pos hperm, if_neg (not_not.mpr hperm), checkPinned_eq hparallel,
        checkPinned_eq hvector]
      simp only [check_bind, trapping_bind hloops]
      rfl
    · rw [if_neg hperm, if_pos hperm]
      rfl
  · have hperm : ¬ permutation.Perm (List.range n.depth) := fun h =>
      hlength (by simpa using h.length_eq)
    rw [if_pos (by simpa using hlength), if_pos hperm]
    rfl

/-- The innermost loop is there. -/
theorem vectorize_eq (n : Nest) (width : Nat) : n.vectorize width = (do
    if n.vectorLoop?.isSome then throw (.refused .alreadyVectorized)
    match n.innermost? with
    | none => throw (.refused .emptyNest)
    | some l =>
      let i := n.depth - 1
      if l.parallel then throw (.refused (.loopConsumed i .parallel))
      if !n.isTilePoint i then throw (.refused .innermostNotTiled)
      if !(vectorWidths.contains width && 2 ≤ width && width ≤ l.extent && l.extent % width == 0)
        then throw (.refused (.vectorWidth width l.extent))
      return n.splice i [{ l with vectorWidth := some width }]) := by
  unfold vectorize
  cases hlast : n.innermost? with
  | none =>
    have hnil : n.loops = [] := List.getLast?_eq_none_iff.mp hlast
    simp [depth, hnil]
    rfl
  | some l =>
    have hl : n.loops[n.depth - 1]? = some l := by
      rw [← hlast, innermost?, List.getLast?_eq_getElem?, depth]
    have hi := (List.getElem?_eq_some_iff.mp hl).1
    have hdepth : (n.depth == 0) = false := by
      rw [beq_eq_false_iff_ne, depth]
      omega
    simp only [hdepth, trapping_bind (Checked.get_eq_ok.mpr hl), trapping_bind (set_eq_splice hi _)]
    rfl

end Nest

/-- The outermost loop is there. -/
theorem Kernel.parallelizedNest_eq (k : Kernel) (i : Nat) : k.parallelizedNest i = (do
    let l ← k.nest.loopAt i
    if k.nest.parallelLoop?.isSome then throw (.refused .alreadyParallel)
    if i != 0 then throw (.refused (.notOutermost i))
    if l.vectorWidth.isSome then throw (.refused (.loopConsumed i .vectorized))
    let it ← trapping (Checked.get k.iterators l.iterator)
    if it.kind == .reduction then throw (.refused (.carriesReduction it.name))
    if !k.nest.isOutermostLevel i then throw (.refused (.innerTileLevel i))
    return k.nest.splice i [{ l with parallel := true }]) := by
  unfold parallelizedNest
  cases hl : k.nest.loopAt i with
  | error e => rfl
  | ok l =>
    have hi := (List.getElem?_eq_some_iff.mp (Nest.loopAt_eq_ok.mp hl)).1
    simp only [trapping_bind (Nest.set_eq_splice hi _)]

end NestTuner
