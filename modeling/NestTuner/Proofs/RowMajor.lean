import NestTuner.Plan.Basic
import NestTuner.Proofs.Results
import NestTuner.Proofs.Visits
import Mathlib.Tactic.NormNum

/-!
Row-major positions. The position of an index is the number of elements before it when the last
axis varies fastest. Within a shape positions are a numbering of the indices, a step of a loop
moves an operand by a fixed distance, and an axis can be cut out of a position and put back. Strides
and distances are computed in words: what is computed is right or an overflow, and which of the two
is said by the size of the result.
-/

namespace NestTuner

/-! ### Positions -/

namespace Shape

/-- The row-major position of an index. -/
def position : List Nat → List Nat → Nat
  | _ :: shape, i :: index => i * size shape + position shape index
  | _, _ => 0

@[simp] theorem size_nil : size [] = 1 := rfl

@[simp] theorem size_cons (dim : Nat) (shape : List Nat) : size (dim :: shape) = dim * size shape :=
  rfl

theorem size_append (xs ys : List Nat) : size (xs ++ ys) = size xs * size ys := by
  induction xs with
  | nil => simp
  | cons dim rest ih => rw [List.cons_append, size_cons, size_cons, ih, Nat.mul_assoc]

theorem size_pos {shape : List Nat} (h : ∀ dim ∈ shape, 0 < dim) : 0 < size shape := by
  induction shape with
  | nil => exact Nat.one_pos
  | cons dim rest ih =>
    exact Nat.mul_pos (h dim (List.mem_cons_self ..))
      (ih fun d hd => h d (List.mem_cons_of_mem dim hd))

theorem size_map_le {indices : List Nat} {f g : Nat → Nat} (h : ∀ i ∈ indices, f i ≤ g i) :
    size (indices.map f) ≤ size (indices.map g) := by
  induction indices with
  | nil => exact Nat.le_refl _
  | cons i rest ih =>
    exact Nat.mul_le_mul (h i (List.mem_cons_self ..))
      (ih fun j hj => h j (List.mem_cons_of_mem i hj))

theorem map_update_of_notMem {indices : List Nat} {i : Nat} (h : i ∉ indices) (f : Nat → Nat)
    (x : Nat) : indices.map (Function.update f i x) = indices.map f := by
  apply List.map_congr_left
  intro j hj
  have hne : j ≠ i := fun heq => h (heq ▸ hj)
  exact Function.update_of_ne hne x f

/-- Giving one iterator another value changes an index along its axis. -/
theorem map_update {a : Access} {i axis : Nat} (haxis : a.axisOf i = some axis)
    (hnodup : a.indices.Nodup) (f : Nat → Nat) (x : Nat) :
    a.indices.map (Function.update f i x) = (a.indices.map f).set axis x := by
  obtain ⟨tensor, indices⟩ := a
  simp only [Access.axisOf] at haxis hnodup ⊢
  induction indices generalizing axis with
  | nil => simp at haxis
  | cons j rest ih =>
    obtain ⟨hj, hrest⟩ := List.nodup_cons.mp hnodup
    rw [List.findIdx?_cons] at haxis
    by_cases hji : j = i
    · subst hji
      obtain rfl : 0 = axis := by simpa using haxis
      rw [List.map_cons, List.map_cons, List.set_cons_zero, Function.update_self,
        map_update_of_notMem hj]
    · obtain ⟨tail, htail, rfl⟩ : ∃ tail, rest.findIdx? (· == i) = some tail ∧ tail + 1 = axis := by
        simpa [beq_eq_false_iff_ne.mpr hji] using haxis
      rw [List.map_cons, List.map_cons, List.set_cons_succ, Function.update_of_ne hji,
        ih htail hrest]

theorem dvd_size {shape : List Nat} {dim : Nat} (h : dim ∈ shape) : dim ∣ size shape := by
  induction shape with
  | nil => simp at h
  | cons head rest ih =>
    rcases List.mem_cons.mp h with rfl | h
    · exact Nat.dvd_mul_right ..
    · exact (ih h).mul_left head

theorem row_div {i width r : Nat} (h : r < width) : (i * width + r) / width = i := by
  rw [Nat.mul_comm, Nat.mul_add_div (Nat.zero_lt_of_lt h), Nat.div_eq_of_lt h, Nat.add_zero]

theorem row_mod {i width r : Nat} (h : r < width) : (i * width + r) % width = r := by
  rw [Nat.mul_comm, Nat.mul_add_mod, Nat.mod_eq_of_lt h]

theorem position_lt {shape index : List Nat} (h : List.Forall₂ (· < ·) index shape) :
    position shape index < size shape := by
  induction h with
  | nil => exact Nat.one_pos
  | @cons i dim index shape hi _ ih =>
    have hrow : (i + 1) * size shape ≤ dim * size shape := Nat.mul_le_mul_right _ hi
    rw [position, size_cons]
    rw [Nat.succ_mul] at hrow
    omega

theorem forall₂_map {indices : List Nat} {v extent : Nat → Nat}
    (h : ∀ i ∈ indices, v i < extent i) :
    List.Forall₂ (· < ·) (indices.map v) (indices.map extent) := by
  rw [List.forall₂_map_left_iff, List.forall₂_map_right_iff]
  exact List.forall₂_same.mpr h

/-- Shorter axes bring an index no further. -/
theorem position_map_le {indices : List Nat} {f g : Nat → Nat} (h : ∀ i ∈ indices, f i ≤ g i)
    (v : Point) : position (indices.map f) (indices.map v) ≤
      position (indices.map g) (indices.map v) := by
  induction indices with
  | nil => exact Nat.le_refl _
  | cons i rest ih =>
    obtain ⟨-, hrest⟩ := List.forall_mem_cons.mp h
    exact Nat.add_le_add (Nat.mul_le_mul_left _ (size_map_le hrest)) (ih hrest)

/-- Within a shape an index is determined by its position. -/
theorem position_injective {shape index index' : List Nat}
    (h : List.Forall₂ (· < ·) index shape) (h' : List.Forall₂ (· < ·) index' shape)
    (heq : position shape index = position shape index') : index = index' := by
  induction h generalizing index' with
  | nil => cases h'; rfl
  | @cons i dim index shape hi hindex ih =>
    cases h' with
    | @cons j _ tail _ hj htail =>
      simp only [position] at heq
      have hlt := position_lt hindex
      have hlt' := position_lt htail
      have hhead : i = j := by
        have hdiv := congrArg (· / size shape) heq
        simpa only [row_div hlt, row_div hlt'] using hdiv
      subst hhead
      rw [ih htail (by omega)]

/-- Every position within a shape is that of some index. -/
theorem exists_index {shape : List Nat} {c : Nat} (h : c < size shape) :
    ∃ index, List.Forall₂ (· < ·) index shape ∧ position shape index = c := by
  induction shape generalizing c with
  | nil => exact ⟨[], List.Forall₂.nil, by simp only [size_nil] at h; simp [position]; omega⟩
  | cons dim rest ih =>
    rw [size_cons] at h
    have hpos : 0 < size rest := Nat.pos_of_mul_pos_left (Nat.zero_lt_of_lt h)
    obtain ⟨index, hindex, hc⟩ := ih (Nat.mod_lt c hpos)
    refine ⟨c / size rest :: index, List.Forall₂.cons ?_ hindex, ?_⟩
    · exact (Nat.div_lt_iff_lt_mul hpos).mpr h
    · rw [position, hc]
      exact Nat.div_add_mod' c (size rest)

theorem position_append {xs is : List Nat} (h : is.length = xs.length) (ys js : List Nat) :
    position (xs ++ ys) (is ++ js) = position xs is * size ys + position ys js := by
  induction xs generalizing is with
  | nil =>
    rw [List.length_nil, List.length_eq_zero_iff] at h
    simp [h, position]
  | cons dim rest ih =>
    cases is with
    | nil => simp at h
    | cons i is =>
      simp only [List.length_cons, Nat.add_right_cancel_iff] at h
      rw [List.cons_append, List.cons_append, position, position, ih h, size_append]
      ring

theorem position_origin (shape indices : List Nat) :
    position shape (indices.map Point.origin) = 0 := by
  induction indices generalizing shape with
  | nil => cases shape <;> rfl
  | cons i rest ih =>
    cases shape with
    | nil => rfl
    | cons dim shape => simp [position, ih, Point.origin]

/-- A position with one axis taken apart. -/
theorem position_axis {pre ipre : List Nat} (hlen : ipre.length = pre.length) (along x : Nat)
    (post ipost : List Nat) : position (pre ++ along :: post) (ipre ++ x :: ipost) =
      (position pre ipre * along + x) * size post + position post ipost := by
  rw [position_append hlen, position, size_cons]
  ring

/-- The last index of a shape has the last position. -/
theorem position_last {shape : List Nat} (h : ∀ dim ∈ shape, 0 < dim) :
    position shape (shape.map (· - 1)) + 1 = size shape := by
  induction shape with
  | nil => rfl
  | cons dim rest ih =>
    have hdim : 0 < dim := h dim (List.mem_cons_self ..)
    have hrest := ih fun d hd => h d (List.mem_cons_of_mem dim hd)
    obtain ⟨n, rfl⟩ : ∃ n, dim = n + 1 := ⟨dim - 1, by omega⟩
    simp only [List.map_cons, position, size_cons, Nat.add_sub_cancel, Nat.succ_mul]
    omega

/-! ### Strides and steps -/

/-- The number of elements that one step along each axis moves by. -/
def weights : List Nat → List Nat
  | [] => []
  | _ :: rest => size rest :: weights rest

theorem checkedSize_givesIf {shape : List Nat} (hpos : ∀ dim ∈ shape, 0 < dim) :
    (checkedSize shape).GivesIf (size shape < Word.count) (size shape) := by
  induction shape with
  | nil => exact (Checked.GivesIf.ok 1).congr (by decide)
  | cons dim rest ih =>
    obtain ⟨hdim, hrest⟩ := List.forall_mem_cons.mp hpos
    have hle : size rest ≤ size rest * dim := Nat.le_mul_of_pos_right _ hdim
    rw [size_cons, Nat.mul_comm]
    exact ((ih hrest).bind (Word.mul_givesIf _ dim)).congr (by omega)

theorem strides_givesIf {shape : List Nat} (hpos : ∀ dim ∈ shape, 0 < dim) :
    (strides shape).GivesIf (∀ w ∈ weights shape, w < Word.count) (weights shape) := by
  induction shape with
  | nil => exact (Checked.GivesIf.ok []).congr (by simp [weights])
  | cons dim rest ih =>
    obtain ⟨-, hrest⟩ := List.forall_mem_cons.mp hpos
    rw [strides, weights]
    refine .congr ((ih hrest).bind ((checkedSize_givesIf hrest).bind (.ok _))) ?_
    simp [and_comm]

theorem le_size_of_mem_weights {shape : List Nat} (hpos : ∀ dim ∈ shape, 0 < dim) {w : Nat}
    (hw : w ∈ weights shape) : w ≤ size shape := by
  induction shape with
  | nil => simp [weights] at hw
  | cons dim rest ih =>
    obtain ⟨hdim, hrest⟩ := List.forall_mem_cons.mp hpos
    have hle : size rest ≤ dim * size rest := Nat.le_mul_of_pos_left _ hdim
    rw [size_cons]
    rcases List.mem_cons.mp hw with rfl | hw
    · exact hle
    · exact (ih hrest hw).trans hle

/-- Shorter axes have smaller weights. -/
theorem weights_map_lt {indices : List Nat} {f g : Nat → Nat} (h : ∀ i ∈ indices, f i ≤ g i)
    {bound : Nat} (hg : ∀ w ∈ weights (indices.map g), w < bound) :
    ∀ w ∈ weights (indices.map f), w < bound := by
  induction indices with
  | nil => simp [weights]
  | cons i rest ih =>
    obtain ⟨-, hrest⟩ := List.forall_mem_cons.mp h
    obtain ⟨hsize, hweights⟩ := List.forall_mem_cons.mp hg
    exact List.forall_mem_cons.mpr ⟨(size_map_le hrest).trans_lt hsize, ih hrest hweights⟩

end Shape

/-- A product taken from the left fits when the whole product does. -/
theorem Word.product_eq {shape : List Nat} (hpos : ∀ dim ∈ shape, 0 < dim)
    (hfits : Shape.size shape < Word.count) : Word.product shape = .ok (Shape.size shape) := by
  have hfold : ∀ (shape : List Nat) (a : Nat), (∀ dim ∈ shape, 0 < dim) →
      a * Shape.size shape < Word.count →
      shape.foldlM Word.mul a = .ok (a * Shape.size shape) := by
    intro shape
    induction shape with
    | nil => intro a _ _; simp; rfl
    | cons dim rest ih =>
      intro a hpos hfits
      rw [Shape.size_cons, ← Nat.mul_assoc] at hfits ⊢
      have hrestpos : ∀ d ∈ rest, 0 < d := fun d hd => hpos d (List.mem_cons_of_mem dim hd)
      have hle : a * dim * 1 ≤ a * dim * Shape.size rest :=
        Nat.mul_le_mul_left _ (Shape.size_pos hrestpos)
      have hmul : Word.mul a dim = .ok (a * dim) := by
        rw [Word.mul, if_pos (by omega)]
      rw [List.foldlM_cons, hmul]
      exact ih _ hrestpos hfits
  simpa [Word.product] using hfold shape 1 hpos (by simpa using hfits)

namespace Shape

/-- How far one step of a loop moves an operand with given axes: nowhere if its iterator does not
index the operand. -/
def stepSize : List Nat → List Nat → Loop → Nat
  | _ :: shape, i :: indices, l =>
    if i = l.iterator then size shape * l.stride else stepSize shape indices l
  | _, _, _ => 0

theorem stepSize_of_notMem {indices : List Nat} {l : Loop} (h : l.iterator ∉ indices)
    (shape : List Nat) : stepSize shape indices l = 0 := by
  induction indices generalizing shape with
  | nil => cases shape <;> rfl
  | cons i rest ih =>
    have hi : i ≠ l.iterator := fun hi => h (hi ▸ List.mem_cons_self ..)
    cases shape with
    | nil => rfl
    | cons dim shape =>
      rw [stepSize, if_neg hi, ih fun hmem => h (List.mem_cons_of_mem i hmem)]

/-- Steps of a loop add up in the position of an operand. -/
theorem position_move {shape indices : List Nat} (hnodup : indices.Nodup) (l : Loop) (v : Point)
    (n : Nat) : position shape (indices.map (v.move l.iterator (n * l.stride))) =
      position shape (indices.map v) + n * stepSize shape indices l := by
  induction indices generalizing shape with
  | nil => cases shape <;> simp [position, stepSize]
  | cons i rest ih =>
    obtain ⟨hi, hrest⟩ := List.nodup_cons.mp hnodup
    cases shape with
    | nil => simp [position, stepSize]
    | cons dim shape =>
      simp only [List.map_cons, position, stepSize]
      by_cases hl : i = l.iterator
      · subst hl
        rw [Point.map_move_of_notMem hi, Point.move_self, if_pos rfl]
        ring
      · rw [Point.move_of_ne v _ hl, if_neg hl, ih hrest]
        ring

/-- Steps of a loop stay within an operand whose axes are as long as the extents. -/
theorem mul_stepSize_le {indices : List Nat} {extent : Nat → Nat} {l : Loop} {n : Nat}
    (hpos : ∀ i ∈ indices, 0 < extent i) (hl : n * l.stride ≤ extent l.iterator) :
    n * stepSize (indices.map extent) indices l ≤ size (indices.map extent) := by
  induction indices with
  | nil => exact Nat.zero_le _
  | cons i rest ih =>
    rw [List.map_cons, stepSize, size_cons]
    split
    case isTrue hi =>
      rw [hi, Nat.mul_left_comm, Nat.mul_comm]
      exact Nat.mul_le_mul_right _ hl
    case isFalse =>
      have hrest := ih fun j hj => hpos j (List.mem_cons_of_mem i hj)
      have hle : 1 * size (rest.map extent) ≤ extent i * size (rest.map extent) :=
        Nat.mul_le_mul_right _ (hpos i (List.mem_cons_self ..))
      omega

theorem stepSize_le {indices : List Nat} {extent : Nat → Nat} {l : Loop}
    (hpos : ∀ i ∈ indices, 0 < extent i) (hl : l.stride ≤ extent l.iterator) :
    stepSize (indices.map extent) indices l ≤ size (indices.map extent) := by
  rw [← Nat.one_mul (stepSize _ _ _)]
  exact mul_stepSize_le hpos (by rwa [Nat.one_mul])

theorem stepSize_map_le {indices : List Nat} {f g : Nat → Nat} (h : ∀ i ∈ indices, f i ≤ g i)
    (l : Loop) : stepSize (indices.map f) indices l ≤ stepSize (indices.map g) indices l := by
  induction indices with
  | nil => exact Nat.le_refl _
  | cons i rest ih =>
    obtain ⟨-, hrest⟩ := List.forall_mem_cons.mp h
    simp only [List.map_cons, stepSize]
    split
    · exact Nat.mul_le_mul_right _ (size_map_le hrest)
    · exact ih hrest

/-- A step of a loop whose iterator indexes the operand moves it. -/
theorem stepSize_pos {indices : List Nat} {extent : Nat → Nat} {l : Loop}
    (hpos : ∀ i ∈ indices, 0 < extent i) (hstride : 0 < l.stride)
    (hmem : l.iterator ∈ indices) : 0 < stepSize (indices.map extent) indices l := by
  induction indices with
  | nil => simp at hmem
  | cons i rest ih =>
    have hrest : ∀ j ∈ rest, 0 < extent j := fun j hj => hpos j (List.mem_cons_of_mem i hj)
    rw [List.map_cons, stepSize]
    split
    case isTrue =>
      refine Nat.mul_pos (size_pos ?_) hstride
      simpa using hrest
    case isFalse hi =>
      exact ih hrest ((List.mem_cons.mp hmem).resolve_left (Ne.symm hi))

end Shape

namespace Plan

/-- The first axis of an iterator carries the weight by which its loops step. -/
theorem stepSize_of_axisOf {a : Access} {shape : List Nat} (hlen : shape.length = a.indices.length)
    (l : NestTuner.Loop) :
    match a.axisOf l.iterator with
    | none => Shape.stepSize shape a.indices l = 0
    | some axis => ∃ w, (Shape.weights shape)[axis]? = some w ∧
        Shape.stepSize shape a.indices l = w * l.stride := by
  obtain ⟨tensor, indices⟩ := a
  simp only [Access.axisOf] at hlen ⊢
  induction indices generalizing shape with
  | nil => cases shape <;> simp [Shape.stepSize]
  | cons i rest ih =>
    cases shape with
    | nil => simp at hlen
    | cons dim shape =>
      simp only [List.length_cons, Nat.add_right_cancel_iff] at hlen
      have hrest := ih hlen
      rw [List.findIdx?_cons, Shape.stepSize]
      by_cases hi : i = l.iterator
      · simp [hi, Shape.weights]
      · rw [if_neg hi]
        simp only [beq_eq_false_iff_ne.mpr hi, Bool.false_eq_true, if_false]
        cases hfind : rest.findIdx? (· == l.iterator) with
        | none => simpa [hfind] using hrest
        | some axis => simpa [hfind, Shape.weights] using hrest

/-- The distance computed for a loop is the step of its operand, if that is a word. -/
theorem delta_givesIf {a : Access} {shape : List Nat}
    (hlen : shape.length = a.indices.length) (l : NestTuner.Loop) :
    (delta a (Shape.weights shape) l).GivesIf (Shape.stepSize shape a.indices l < Word.count)
      (Shape.stepSize shape a.indices l) := by
  have haxis := stepSize_of_axisOf hlen l
  unfold delta
  split
  case h_1 hnone =>
    rw [hnone] at haxis
    rw [haxis]
    exact (Checked.GivesIf.ok 0).congr (by decide)
  case h_2 axis hsome =>
    rw [hsome] at haxis
    obtain ⟨w, hw, hstep⟩ := haxis
    have hget : Checked.get (Shape.weights shape) axis = .ok w := Checked.get_eq_ok.mpr hw
    rw [hget, hstep]
    exact Word.mul_givesIf w l.stride

end Plan

end NestTuner
