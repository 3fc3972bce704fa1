import NestTuner.Proofs.Execution
import Mathlib.Algebra.BigOperators.Group.Finset.Sigma
import Mathlib.Algebra.Ring.Defs

/-!
What a statement means, and that every history of edits keeps it. A contraction is a sum over all
values of the reduction iterators, an elementwise statement an operation of its inputs, each input
read at the values of the iterators that index it. Over a commutative semiring a run computes this
whatever the order of the loops, the slabs and the lanes.
-/

namespace NestTuner

open Point

/-- The operations of a commutative semiring; sums start from its zero. -/
def Arithmetic.semiring (R : Type) [CommSemiring R] : Arithmetic R :=
  ⟨0, 0, (· + ·), (· * ·)⟩

/-- The element at an index within the shape. -/
def Grid.get? {α : Type} (grid : Grid α) (index : List Nat) : Option α :=
  if List.Forall₂ (· < ·) index grid.shape then grid.data[Shape.position grid.shape index]?
  else none

variable {R : Type} [CommSemiring R]

/-- An operand at the values that a point gives to its iterators. -/
def Inputs.entry (inputs : Inputs R) (a : Access) (v : Point) : R :=
  ((inputs.tensor a.tensor).bind (·.get? (a.indices.map v))).getD 0

/-- The sum over all values of several iterators. -/
def sumOver (extent : Nat → Nat) : List Nat → (Point → R) → Point → R
  | [], f, v => f v
  | i :: rest, f, v => ∑ x ∈ Finset.range (extent i), sumOver extent rest f (Function.update v i x)

namespace Kernel

/-- The iterators that are summed away. -/
def reduced (k : Kernel) : List Nat :=
  (List.range k.iterators.length).filter k.reduces

/-- The value of the output where the iterators that index it are at a given point. -/
def meaning (k : Kernel) (inputs : Inputs R) (v : Point) : R :=
  match k.statement with
  | .contraction _ lhs rhs =>
    sumOver k.extentOf k.reduced (fun u => inputs.entry lhs u * inputs.entry rhs u) v
  | .elementwise .add _ [lhs, rhs] => inputs.entry lhs v + inputs.entry rhs v
  | .elementwise .mul _ [lhs, rhs] => inputs.entry lhs v * inputs.entry rhs v
  | .elementwise .copy _ [source] => inputs.entry source v
  | .elementwise .. => 0

theorem reduced_nodup (k : Kernel) : k.reduced.Nodup :=
  List.nodup_range.filter _

theorem Valid.mem_reduced {k : Kernel} (h : k.Valid) {i : Nat} :
    i ∈ k.reduced ↔ i < k.iterators.length ∧ i ∉ k.statement.output.indices := by
  rw [reduced, List.mem_filter, List.mem_range, and_congr_right_iff]
  intro hi
  simp [h.reduces_eq hi]

/-- The reduction loops of a nest visit what full loops over the reduction iterators visit. -/
theorem Valid.visits_reduced {k : Kernel} (h : k.Valid)
    (hradix : ∀ i, MixedRadix (k.nest.loopsFor i) (k.extentOf i)) (v : Point) :
    (visits (k.nest.loops.filter fun l => !k.statement.output.indices.contains l.iterator) v).Perm
      (visits (fullLoops k.extentOf k.reduced) v) := by
  refine visits_perm_fullLoops ?_ k.reduced_nodup ?_ v
  · intro l hl
    obtain ⟨hl, hout⟩ := List.mem_filter.mp hl
    exact h.mem_reduced.mpr ⟨h.legal.bound l hl, by simpa using hout⟩
  · intro i hi
    have hout := (h.mem_reduced.mp hi).2
    rw [filter_iterator (fun j => !k.statement.output.indices.contains j) (by simpa using hout)]
    exact hradix i

end Kernel

theorem sum_map_range (f : Nat → R) (n : Nat) :
    ((List.range n).map f).sum = ∑ x ∈ Finset.range n, f x :=
  rfl

theorem foldl_add_eq_sum {β : Type} (f : β → R) (xs : List β) (a : R) :
    xs.foldl (fun a x => a + f x) a = a + (xs.map f).sum := by
  induction xs generalizing a with
  | nil => simp
  | cons x rest ih => rw [List.foldl_cons, ih, List.map_cons, List.sum_cons, add_assoc]

theorem sum_map_flatMap {β γ : Type} (f : γ → R) (g : β → List γ) (xs : List β) :
    ((xs.flatMap g).map f).sum = (xs.map fun x => ((g x).map f).sum).sum := by
  induction xs with
  | nil => simp
  | cons x rest ih => simp [ih]

/-- Full loops sum over all values of their iterators. -/
theorem sum_visits_fullLoops {extent : Nat → Nat} {iterators : List Nat}
    (hnodup : iterators.Nodup) (f : Point → R) {v : Point} (hv : ∀ i ∈ iterators, v i = 0) :
    ((visits (fullLoops extent iterators) v).map f).sum = sumOver extent iterators f v := by
  induction iterators generalizing v with
  | nil => simp [fullLoops, visits, sumOver]
  | cons i rest ih =>
    obtain ⟨hi, hrest⟩ := List.nodup_cons.mp hnodup
    simp only [fullLoops, List.map_cons, visits, sum_map_flatMap, sumOver]
    rw [sum_map_range]
    refine Finset.sum_congr rfl fun x _ => ?_
    simp only [Loop.full, Nat.mul_one]
    rw [move_eq_update (hv i (List.mem_cons_self ..))]
    refine ih hrest fun j hj => ?_
    have hne : j ≠ i := fun heq => hi (heq ▸ hj)
    rw [Function.update_of_ne hne]
    exact hv j (List.mem_cons_of_mem i hj)

/-- The lanes of a vectorized reduction sum up all its terms. -/
theorem sum_laneSums (f : Nat → R) (rows width : Nat) :
    (Plan.laneSums (.semiring R) f rows width).foldl (· + ·) 0 =
      ((List.range (rows * width)).map f).sum := by
  have hlanes : Plan.laneSums (.semiring R) f rows width = (List.range width).map fun n =>
      ∑ row ∈ Finset.range rows, f (row * width + n) := by
    apply List.map_congr_left
    intro n _
    have hsum := foldl_add_eq_sum (fun row => f (row * width + n)) (List.range rows) 0
    rw [zero_add, sum_map_range] at hsum
    exact hsum
  have htotal := foldl_add_eq_sum id (Plan.laneSums (.semiring R) f rows width) 0
  rw [zero_add, List.map_id, hlanes, sum_map_range, Finset.sum_comm] at htotal
  rw [range_mul, sum_map_flatMap]
  simp only [List.map_map, sum_map_range]
  rw [hlanes]
  exact htotal

namespace Kernel

/-- Over a semiring a cell of a contraction is the sum of the products at the points of its
reduction loops, lanes included. -/
theorem cell_contraction {k : Kernel} {ops : Plan.Operands R} {loops : List Loop} {v : Point}
    (hrows : ∀ l ∈ loops.getLast?, Plan.LanesFit l.extent l.vectorWidth)
    (hpoint : ∀ u ∈ visits
      (loops.filter fun l => !k.statement.output.indices.contains l.iterator) v,
      ∀ a, k.pointValue (.semiring R) ops u a = a + k.term (.semiring R) ops u) :
    k.cell (.semiring R) ops loops v =
      ((visits (loops.filter fun l => !k.statement.output.indices.contains l.iterator) v).map
        (k.term (.semiring R) ops)).sum := by
  unfold cell
  cases hlanes : k.laneLoop? loops with
  | none =>
    rw [reductions, walked_of_none hlanes]
    have hsteps := List.foldl_ext (fun a u => k.step (.semiring R) ops none u a)
      (fun a u => a + k.term (.semiring R) ops u) (.semiring R : Arithmetic R).zero
      fun a u hu => hpoint u hu a
    rw [hsteps, foldl_add_eq_sum]
    exact zero_add _
  | some lane =>
    obtain ⟨l, width⟩ := lane
    obtain ⟨hsplit, hwidth, -⟩ := laneLoop?_eq_some hlanes
    have hlast : l ∈ loops.getLast? := by rw [hsplit]; simp
    have hstep : ∀ u a, k.step (.semiring R) ops (some (l, width)) u a =
        a + ((visits [l] u).map (k.term (.semiring R) ops)).sum := by
      intro u a
      have hsum := sum_laneSums
        (fun n => k.term (.semiring R) ops (u.move l.iterator (n * l.stride)))
        (l.extent / width) width
      rw [(hrows l hlast width hwidth).2.2] at hsum
      rw [visits_singleton, List.map_map]
      exact congrArg (a + ·) hsum
    have hfilter := k.filter_eq_reductions loops
    rw [hlanes, Option.map_some, Option.toList_some] at hfilter
    rw [hfilter, visits_append, sum_map_flatMap]
    simp only [hstep]
    rw [foldl_add_eq_sum]
    exact zero_add _

namespace Runnable

/-- The array of an input holds its entries. -/
theorem operand_eq {k : Kernel} (h : k.Runnable) {inputs : Inputs R} (hfits : inputs.fits k = true)
    {slot : Nat} {a : Access} (ha : k.statement.inputs[slot]? = some a) {v : Point}
    (hv : k.Within v) : (k.operand inputs slot)[Shape.position (k.shapeOf (k.input slot))
      ((k.input slot).indices.map v)]? = some (inputs.entry a v) := by
  obtain ⟨grid, hgrid, hshape⟩ := h.tensor_eq_some hfits (List.mem_of_getElem? ha)
  have hbox : List.Forall₂ (· < ·) (a.indices.map v) (k.shapeOf a) :=
    Shape.forall₂_map fun i _ => hv i
  obtain ⟨x, hx⟩ := read_eq_some hv (by rw [grid.size_data, hshape] : grid.data.size = _)
  simp only [operand, input, Inputs.entry, Grid.get?, ha, hgrid, hshape, hx, if_pos hbox,
    Option.map_some, Option.bind_some, Option.getD_some]

/-- What is read at a point, with two inputs. -/
theorem operands_read {k : Kernel} (h : k.Runnable) {inputs : Inputs R}
    (hfits : inputs.fits k = true) {lhs rhs : Access} (hinputs : k.statement.inputs = [lhs, rhs])
    {v : Point} (hv : k.Within v) :
    (k.operands inputs).lhs[(k.offsets k.extentOf v v).lhs]? = some (inputs.entry lhs v) ∧
      (k.operands inputs).rhs[(k.offsets k.extentOf v v).rhs]? = some (inputs.entry rhs v) :=
  ⟨h.operand_eq hfits (by rw [hinputs]; rfl) hv, h.operand_eq hfits (by rw [hinputs]; rfl) hv⟩

/-- What a point of a contraction adds to its output element. -/
theorem point_contraction {k : Kernel} (h : k.Runnable) {inputs : Inputs R}
    (hfits : inputs.fits k = true) {output lhs rhs : Access}
    (hs : k.statement = .contraction output lhs rhs) {v : Point} (hv : k.Within v) :
    k.term (.semiring R) (k.operands inputs) v = inputs.entry lhs v * inputs.entry rhs v ∧
      ∀ a, k.pointValue (.semiring R) (k.operands inputs) v a =
        a + k.term (.semiring R) (k.operands inputs) v := by
  obtain ⟨hlhs, hrhs⟩ := h.operands_read hfits (by rw [hs]; rfl) hv
  constructor
  · simp only [term, Plan.product, hlhs, hrhs]
    rfl
  · intro a
    simp only [pointValue, term, Plan.product, hs, Plan.Body.ofStatement, Plan.pointStep, hlhs,
      hrhs]
    rfl

/-- What a point of an elementwise statement makes of its output element. -/
theorem point_elementwise {k : Kernel} (h : k.Runnable) {inputs : Inputs R}
    (hfits : inputs.fits k = true) (hs : k.statement.isElementwise = true) {v : Point}
    (hv : k.Within v) (a : R) :
    k.pointValue (.semiring R) (k.operands inputs) v a = k.meaning inputs v := by
  have harity := h.valid.arity
  cases hstatement : k.statement with
  | contraction output lhs rhs => simp [hstatement, Statement.isElementwise] at hs
  | elementwise op output accesses =>
    have hlength := harity op output accesses hstatement
    have hinputs : k.statement.inputs = accesses := by rw [hstatement]; rfl
    cases op with
    | copy =>
      obtain ⟨source, rfl⟩ := List.length_eq_one_iff.mp hlength
      have hsource : (k.operands inputs).lhs[(k.offsets k.extentOf v v).lhs]? =
          some (inputs.entry source v) := h.operand_eq hfits (by rw [hinputs]; rfl) hv
      simp only [pointValue, Plan.pointStep, Plan.Body.ofStatement, meaning, hstatement, hsource,
        Option.getD_some]
    | _ =>
      obtain ⟨lhs, rhs, rfl⟩ := List.length_eq_two.mp hlength
      obtain ⟨hlhs, hrhs⟩ := h.operands_read hfits hinputs hv
      simp only [pointValue, Plan.pointStep, Plan.Body.ofStatement, meaning, hstatement, hlhs, hrhs]
      rfl

/-- Every loop of an elementwise statement moves the output. -/
theorem reductions_elementwise {k : Kernel} (h : k.Runnable)
    (hs : k.statement.isElementwise = true) :
    k.laneLoop? k.nest.loops = none ∧ k.reductions k.nest.loops = [] := by
  have hnone : k.laneLoop? k.nest.loops = none := by simp [laneLoop?, hs]
  refine ⟨hnone, ?_⟩
  rw [reductions, walked_of_none hnone, List.filter_eq_nil_iff]
  intro l hl
  have hit := List.getElem?_eq_getElem (h.valid.legal.bound l hl)
  have hkind := (h.valid.used _ _ hit).2.2 hs
  simpa using (h.valid.mem_output_iff hit).mpr hkind

/-- Over a semiring the cells of a run are what the statement means. -/
theorem cell_eq_meaning {k : Kernel} (h : k.Runnable) {inputs : Inputs R}
    (hfits : inputs.fits k = true) {index : List Nat}
    (hindex : List.Forall₂ (· < ·) index (k.shapeOf k.statement.output)) :
    k.cell (.semiring R) (k.operands inputs) k.nest.loops
      (assign k.statement.output.indices index origin) =
      k.meaning inputs (assign k.statement.output.indices index origin) := by
  have hwithin : ∀ u ∈ visits
      (k.nest.loops.filter fun l => !k.statement.output.indices.contains l.iterator)
      (assign k.statement.output.indices index origin), k.Within u := by
    intro u hu
    rw [← filter_visits_index h.output_nodup hindex fun i _ => h.radix i] at hu
    exact h.within (List.mem_of_mem_filter hu)
  generalize hv : assign k.statement.output.indices index origin = v at hwithin ⊢
  cases hs : k.statement with
  | contraction output lhs rhs =>
    have hpoint := fun u hu => h.point_contraction hfits hs (hwithin u hu)
    rw [cell_contraction h.rows fun u hu => (hpoint u hu).2,
      List.map_congr_left fun u hu => (hpoint u hu).1,
      ((h.valid.visits_reduced h.radix v).map _).sum_eq, sum_visits_fullLoops k.reduced_nodup,
      meaning, hs]
    intro i hi
    rw [← hv, assign_of_notMem (h.valid.mem_reduced.mp hi).2, origin]
  | elementwise op output accesses =>
    have helementwise : k.statement.isElementwise = true := by rw [hs]; rfl
    obtain ⟨hlane, hreductions⟩ := h.reductions_elementwise helementwise
    have hloops := hreductions
    rw [reductions, walked_of_none hlane] at hloops
    rw [hloops] at hwithin
    rw [cell, hlane, hreductions]
    exact h.point_elementwise hfits helementwise (hwithin v (List.mem_singleton_self v)) _

theorem execute_eq_meaning {k : Kernel} (h : k.Runnable) {inputs : Inputs R}
    (hfits : inputs.fits k = true) (hwhole : k.Whole)
    (halloc : Grid.allocatable (Shape.size (k.shapeOf k.statement.output)) = true)
    (hlisted : k.SlabsListable) :
    ∃ grid, k.execute (.semiring R) inputs = .ok grid ∧
      grid.shape = k.shapeOf k.statement.output ∧
        ∀ index, List.Forall₂ (· < ·) index (k.shapeOf k.statement.output) → grid.get? index =
          some (k.meaning inputs (assign k.statement.output.indices index origin)) := by
  obtain ⟨grid, hgrid, hshape, hcells⟩ := h.execute_eq (.semiring R) hfits hwhole halloc hlisted
  refine ⟨grid, hgrid, hshape, fun index hindex => ?_⟩
  rw [Grid.get?, hshape, if_pos hindex, hcells index hindex, h.cell_eq_meaning hfits hindex]

end Runnable

end Kernel

namespace Draft

/-- Whatever history of edits leads to a kernel, its run returns an array of the shape of the output
that holds, at every index, what the statement means there, as long as the output and the list of
slabs can be allocated. Otherwise it is reported. -/
theorem execute_replayed_meaning {d : Draft} {k k' : Kernel} (hbuild : d.build = .ok k)
    (hsingle : ∀ t ∈ k.tensors, t.element = .f32)
    (hcounts : ∀ t ∈ k.tensors, Shape.size t.shape < 2 ^ 63) {history : List Edit}
    (hreplay : k.replay history = .ok k') {inputs : Inputs R} (hfits : inputs.fits k = true) :
    ∃ t, k.outputTensor = .ok t ∧
      (Grid.allocatable (Shape.size t.shape) = true ∧ k'.SlabsListable →
        ∃ grid, k'.execute (.semiring R) inputs = .ok grid ∧ grid.shape = t.shape ∧
          ∀ index, List.Forall₂ (· < ·) index t.shape → grid.get? index =
            some (k.meaning inputs (assign k.statement.output.indices index origin))) ∧
      (¬(Grid.allocatable (Shape.size t.shape) = true ∧ k'.SlabsListable) →
        k'.execute (.semiring R) inputs = .error (.trapped k.name)) := by
  obtain ⟨hscheduled, nest, rfl⟩ := (scheduled_of_build hbuild).replayFrom hreplay
  have hrun := runnable_of_scheduled hbuild hsingle hcounts hscheduled
  obtain ⟨t, ht, hshape⟩ := hrun.outputTensor_eq
  refine ⟨t, ht, ?_⟩
  rw [hshape]
  refine ⟨fun hroom => ?_, fun hnot => ?_⟩
  · exact hrun.execute_eq_meaning hfits hscheduled.whole hroom.1 hroom.2
  · exact hrun.execute_eq_error _ hfits fun hall => hnot ⟨hall.1, hall.2.1⟩

theorem execute_replayed_meaning_tuned : ∃ grid,
    tuned.execute (.semiring Nat) (.uniform tuned 1) = .ok grid ∧ grid.get? [3, 5] = some 8 := by
  obtain ⟨t, ht, hrun, -⟩ := execute_replayed_meaning square_build (by decide) (by decide)
    tuned_replay (Inputs.uniform_fits tuned 1)
  cases ht
  obtain ⟨grid, hgrid, -, hmeaning⟩ := hrun ⟨by decide, by decide⟩
  refine ⟨grid, hgrid, ?_⟩
  rw [hmeaning [3, 5] (by decide)]
  decide

/-- An output of more bytes than a buffer may have is never returned, nor one whose slabs cannot be
listed. -/
theorem replayed_trapped : (spread.build = .ok spreadKernel ∧
    (∀ t ∈ spreadKernel.tensors, t.element = .f32 ∧ Shape.size t.shape < 2 ^ 63) ∧
      spreadKernel.replay [] = .ok spreadKernel ∧
        (Inputs.uniform spreadKernel 1).fits spreadKernel = true ∧
          spreadKernel.execute (.semiring Nat) (.uniform spreadKernel 1) =
            .error (.trapped "spread")) ∧
    broadcast.build = .ok broadcastKernel ∧
      (∀ t ∈ broadcastKernel.tensors, t.element = .f32 ∧ Shape.size t.shape < 2 ^ 63) ∧
        broadcastKernel.replay [.parallelize 0] = .ok broadcastSlabs ∧
          (Inputs.uniform broadcastKernel 1).fits broadcastKernel = true ∧
            broadcastSlabs.execute (.semiring Nat) (.uniform broadcastKernel 1) =
              .error (.trapped "broadcast") :=
  ⟨⟨spread_build, by decide, rfl, Inputs.uniform_fits spreadKernel 1,
      execute_spread (.semiring Nat) spread_scheduled (Inputs.uniform_fits spreadKernel 1)⟩,
    broadcast_build, by decide, rfl, Inputs.uniform_fits broadcastKernel 1,
    (execute_broadcastSlabs (.semiring Nat) (Inputs.uniform_fits broadcastKernel 1)).2⟩

end Draft

end NestTuner
