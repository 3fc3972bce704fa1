import NestTuner.Proofs.RowMajor
import NestTuner.Proofs.Validity
import NestTuner.Proofs.Walking

/-!
Lowering a valid kernel. Its plan is computed without a trap exactly if every stride of an operand
and every step of a loop in it is a word, which they are if no tensor has more elements than there
are words, and the deltas of the plan are the steps of row-major positions. A plan in slabs lays the
output out anew, with the axis of the parallel loop cut down to one slab. Slabs are no larger than
the output, so they add nothing that could overflow.
-/

namespace NestTuner

namespace Kernel

/-- The operand read in a slot; one that is not there has no axes. -/
def input (k : Kernel) (slot : Nat) : Access :=
  k.statement.inputs[slot]?.getD ⟨0, []⟩

/-- The shape of an operand. -/
def shapeOf (k : Kernel) (a : Access) : List Nat :=
  a.indices.map k.extentOf

/-- A valid kernel over single-precision tensors of moderate size. -/
structure Runnable (k : Kernel) : Prop where
  validated : k.validate = .ok ()
  single : ∀ t ∈ k.tensors, t.element = .f32
  counts : ∀ t ∈ k.tensors, Shape.size t.shape < 2 ^ 63

theorem lt_count {n : Nat} (h : n < 2 ^ 63) : n < Word.count := by
  unfold Word.count
  omega

namespace Runnable

theorem valid {k : Kernel} (h : k.Runnable) : k.Valid :=
  valid_of_validate h.validated

theorem extentOf_lt {k : Kernel} (h : k.Runnable) (i : Nat) : k.extentOf i < 2 ^ 63 := by
  rcases extent_le_size (validate_eq_ok.mp h.validated).1 i with hone | ⟨t, ht, hle⟩
  · rw [hone]
    exact Nat.one_lt_two_pow (n := 63) (by omega)
  · exact hle.trans_lt (h.counts t ht)

/-- The loops of every iterator are in mixed radix: no extent is out of reach of a word. -/
theorem radix {k : Kernel} (h : k.Runnable) (i : Nat) :
    MixedRadix (k.nest.loopsFor i) (k.extentOf i) := by
  refine h.valid.legal.mixedRadix (fun i => ?_) i
  have hlt := h.extentOf_lt i
  unfold Word.largest
  omega

theorem level_bounds {k : Kernel} (h : k.Runnable) {l : Loop} (hl : l ∈ k.nest.loops) :
    0 < l.stride ∧ 0 < l.extent ∧ l.stride * l.extent ≤ k.extentOf l.iterator :=
  (h.radix l.iterator).level_bounds (by simp [Nest.loopsFor, hl])

theorem stride_le {k : Kernel} (h : k.Runnable) {l : Loop} (hl : l ∈ k.nest.loops) :
    l.stride ≤ k.extentOf l.iterator :=
  (h.valid.legal.stride_bounds hl).2

theorem size_lt {k : Kernel} (h : k.Runnable) {a : Access} (ha : a ∈ k.statement.accesses) :
    Shape.size (k.shapeOf a) < 2 ^ 63 := by
  obtain ⟨-, -, t, ht, hshape⟩ := h.valid.backed a ha
  rw [shapeOf, ← hshape]
  exact h.counts t (List.mem_of_getElem? ht)

theorem output_nodup {k : Kernel} (h : k.Runnable) : k.statement.output.indices.Nodup :=
  (h.valid.backed _ (List.mem_cons_self ..)).1

theorem output_size_lt {k : Kernel} (h : k.Runnable) :
    Shape.size (k.shapeOf k.statement.output) < 2 ^ 63 :=
  h.size_lt (List.mem_cons_self ..)

theorem input_cases (k : Kernel) (slot : Nat) :
    k.input slot ∈ k.statement.accesses ∨ (k.input slot).indices = [] := by
  unfold input
  cases ha : k.statement.inputs[slot]? with
  | none => exact Or.inr rfl
  | some a => exact Or.inl (List.mem_cons_of_mem _ (List.mem_of_getElem? ha))

theorem input_nodup {k : Kernel} (h : k.Runnable) (slot : Nat) : (k.input slot).indices.Nodup := by
  rcases input_cases k slot with hmem | hnil
  · exact (h.valid.backed _ hmem).1
  · rw [hnil]
    exact List.nodup_nil

theorem input_size_lt {k : Kernel} (h : k.Runnable) (slot : Nat) :
    Shape.size (k.shapeOf (k.input slot)) < 2 ^ 63 := by
  rcases input_cases k slot with hmem | hnil
  · exact h.size_lt hmem
  · rw [shapeOf, hnil]
    exact Nat.one_lt_two_pow (by decide)

end Runnable

/-- The inputs with their strides. -/
def inputStrides (k : Kernel) : List (Access × List Nat) :=
  k.statement.inputs.map fun a => (a, Shape.weights (k.shapeOf a))

/-- The offsets of the operands: of the output at one point, in a layout with given extents, and of
the inputs at another. -/
def offsets (k : Kernel) (extent : Nat → Nat) (v w : Point) : Plan.Offsets where
  output :=
    Shape.position (k.statement.output.indices.map extent) (k.statement.output.indices.map v)
  lhs := Shape.position (k.shapeOf (k.input 0)) ((k.input 0).indices.map w)
  rhs := Shape.position (k.shapeOf (k.input 1)) ((k.input 1).indices.map w)

/-- A loop lowered to the steps of the operands. -/
def lowered (k : Kernel) (extent : Nat → Nat) (l : Loop) : Plan.Loop where
  extent := l.extent
  deltas :=
    { output := Shape.stepSize (k.statement.output.indices.map extent) k.statement.output.indices l
      lhs := Shape.stepSize (k.shapeOf (k.input 0)) (k.input 0).indices l
      rhs := Shape.stepSize (k.shapeOf (k.input 1)) (k.input 1).indices l }
  vectorWidth := l.vectorWidth

/-- The extents of a slab. -/
def slabExtent (k : Kernel) (outer : Loop) : Nat → Nat :=
  Function.update k.extentOf outer.iterator outer.stride

/-- The slabs of a parallel loop around others. -/
def slabs (k : Kernel) (outer : Loop) (inner : List Loop) : Plan.Split where
  extent := outer.extent
  axis := (k.statement.output.axisOf outer.iterator).getD 0
  chunk := outer.stride
  slabShape := k.statement.output.indices.map (k.slabExtent outer)
  deltas := { (k.lowered k.extentOf outer).deltas with output := 0 }
  slabLoops := inner.map (k.lowered (k.slabExtent outer))

/-- The plan of a kernel. -/
def plan (k : Kernel) : Plan where
  name := k.name
  body := .ofStatement k.statement
  inputs := k.statement.inputs.map (·.tensor)
  outputShape := k.shapeOf k.statement.output
  loops := k.nest.loops.map (k.lowered k.extentOf)
  split :=
    match k.nest.loops with
    | [] => none
    | outer :: inner => if outer.parallel then some (k.slabs outer inner) else none

@[simp] theorem plan_outputShape (k : Kernel) : k.plan.outputShape = k.shapeOf k.statement.output :=
  rfl

@[simp] theorem plan_body (k : Kernel) : k.plan.body = .ofStatement k.statement := rfl

/-- A parallel loop runs along an axis of the output. -/
theorem Valid.mem_output_of_parallel {k : Kernel} (h : k.Valid) {outer : Loop} {inner : List Loop}
    (hloops : k.nest.loops = outer :: inner) (hparallel : outer.parallel = true) :
    outer.iterator ∈ k.statement.output.indices := by
  have hmem : outer ∈ k.nest.loops := by simp [hloops]
  have hit := List.getElem?_eq_getElem (h.legal.bound outer hmem)
  rw [h.mem_output_iff hit]
  exact (h.legal.parallelPlaced.2 outer (by simp [hloops]) hparallel).2 _ hit

/-- The first parallel loop of a valid nest is the outermost one. -/
theorem ParallelPlaced.parallelLoop?_eq {k : Kernel} (h : k.ParallelPlaced) {outer : Loop}
    {inner : List Loop} (hloops : k.nest.loops = outer :: inner) :
    k.nest.parallelLoop? = if outer.parallel then some 0 else none := by
  have hinner : inner.findIdx? (·.parallel) = none := by
    simpa [hloops] using h.1
  rw [Nest.parallelLoop?, hloops, List.findIdx?_cons, hinner]
  rfl

/-! ### Planning within the range of words -/

/-- Every stride of an operand, and every step of a loop in it, is a word. -/
def Addressable (k : Kernel) (a : Access) : Prop :=
  (∀ w ∈ Shape.weights (k.shapeOf a), w < Word.count) ∧
    ∀ l ∈ k.nest.loops, Shape.stepSize (k.shapeOf a) a.indices l < Word.count

/-- A kernel that planning does not refuse: it is valid and in single precision. -/
def Admitted (k : Kernel) : Prop :=
  (∀ t ∈ k.tensors, t.element = .f32) ∧ k.validate = .ok ()

theorem inputDelta_givesIf (k : Kernel) (slot : Nat) (l : Loop) :
    (Plan.inputDelta k.inputStrides slot l).GivesIf
      (Shape.stepSize (k.shapeOf (k.input slot)) (k.input slot).indices l < Word.count)
      (Shape.stepSize (k.shapeOf (k.input slot)) (k.input slot).indices l) := by
  unfold Plan.inputDelta inputStrides
  rw [List.getElem?_map]
  cases ha : k.statement.inputs[slot]? with
  | none =>
    have hnone : k.input slot = ⟨0, []⟩ := by simp [input, ha]
    rw [hnone]
    show Checked.GivesIf (.ok 0) (0 < Word.count) 0
    exact (Checked.GivesIf.ok 0).congr (by decide)
  | some a =>
    have hinput : k.input slot = a := by simp [input, ha]
    rw [hinput]
    exact Plan.delta_givesIf (by simp [shapeOf]) l

theorem lowerLoop_givesIf (k : Kernel) (extent : Nat → Nat) (l : Loop) :
    (Plan.lowerLoop (k.statement.output, Shape.weights (k.statement.output.indices.map extent))
      k.inputStrides l).GivesIf
      (Shape.stepSize (k.statement.output.indices.map extent) k.statement.output.indices l <
          Word.count ∧
        ∀ slot < 2, Shape.stepSize (k.shapeOf (k.input slot)) (k.input slot).indices l < Word.count)
      (k.lowered extent l) := by
  have hlen : (k.statement.output.indices.map extent).length = k.statement.output.indices.length :=
    List.length_map ..
  have houtput := Plan.delta_givesIf hlen l
  unfold Plan.lowerLoop
  refine .congr (houtput.bind ((k.inputDelta_givesIf 0 l).bind
    ((k.inputDelta_givesIf 1 l).bind (.ok _)))) ?_
  constructor
  · rintro ⟨hfirst, hlhs, hrhs, -⟩
    refine ⟨hfirst, fun slot hslot => ?_⟩
    obtain rfl | rfl : slot = 0 ∨ slot = 1 := by omega
    · exact hlhs
    · exact hrhs
  · rintro ⟨hfirst, hslots⟩
    exact ⟨hfirst, hslots 0 (by omega), hslots 1 (by omega), trivial⟩

namespace Valid

variable {k : Kernel} (h : k.Valid)

include h

theorem shapeOf_pos (a : Access) : ∀ dim ∈ k.shapeOf a, 0 < dim := by
  simpa [shapeOf] using fun i _ => h.extentOf_pos i

/-- There are two slots for the inputs. -/
theorem length_inputs_le : k.statement.inputs.length ≤ 2 := by
  cases hs : k.statement with
  | contraction output lhs rhs => simp [Statement.inputs]
  | elementwise op output inputs =>
    have harity := h.arity op output inputs hs
    have htwo : op.arity ≤ 2 := by cases op <;> decide
    simp only [Statement.inputs]
    omega

/-- What is asked slot by slot is asked of every operand. -/
theorem forall_addressable_iff : (∀ a ∈ k.statement.accesses, k.Addressable a) ↔
    (∀ w ∈ Shape.weights (k.shapeOf k.statement.output), w < Word.count) ∧
    (∀ a ∈ k.statement.inputs, ∀ w ∈ Shape.weights (k.shapeOf a), w < Word.count) ∧
    ∀ l ∈ k.nest.loops,
      Shape.stepSize (k.shapeOf k.statement.output) k.statement.output.indices l < Word.count ∧
      ∀ slot < 2,
        Shape.stepSize (k.shapeOf (k.input slot)) (k.input slot).indices l < Word.count := by
  rw [Statement.accesses, List.forall_mem_cons]
  constructor
  · rintro ⟨houtput, hinputs⟩
    refine ⟨houtput.1, fun a ha => (hinputs a ha).1, fun l hl => ⟨houtput.2 l hl, ?_⟩⟩
    intro slot _
    unfold input
    cases ha : k.statement.inputs[slot]? with
    | none => exact Nat.zero_lt_of_lt (show 0 < Word.count by decide)
    | some a => exact (hinputs a (List.mem_of_getElem? ha)).2 l hl
  · rintro ⟨houtput, hinputs, hsteps⟩
    refine ⟨⟨houtput, fun l hl => (hsteps l hl).1⟩, fun a ha => ⟨hinputs a ha, fun l hl => ?_⟩⟩
    obtain ⟨slot, hslot⟩ := List.getElem?_of_mem ha
    have hlt : slot < 2 :=
      (List.getElem?_eq_some_iff.mp hslot).1.trans_le h.length_inputs_le
    simpa [input, hslot] using (hsteps l hl).2 slot hlt

/-- Lowering overflows unless every operand is addressable. -/
theorem lower_givesIf : (Plan.lower k).GivesIf (∀ a ∈ k.statement.accesses, k.Addressable a)
    (k.shapeOf k.statement.output, k.inputStrides, k.nest.loops.map (k.lowered k.extentOf)) := by
  have hoperand : ∀ a ∈ k.statement.accesses, ∃ t, t.shape = k.shapeOf a ∧
      (Checked.get k.tensors a.tensor).GivesIf True t ∧ t.strides.GivesIf
        (∀ w ∈ Shape.weights (k.shapeOf a), w < Word.count) (Shape.weights (k.shapeOf a)) := by
    intro a ha
    obtain ⟨-, -, t, ht, hshape⟩ := h.backed a ha
    have hget : Checked.get k.tensors a.tensor = .ok t := Checked.get_eq_ok.mpr ht
    refine ⟨t, hshape, hget ▸ .ok t, ?_⟩
    rw [Tensor.strides, hshape]
    exact Shape.strides_givesIf (h.shapeOf_pos a)
  obtain ⟨t, hshape, htensor, hstrides⟩ := hoperand _ List.mem_cons_self
  have hinputs : (k.statement.inputs.mapM fun a => do
      return (a, ← Plan.operandStrides k a)).GivesIf
        (∀ a ∈ k.statement.inputs, ∀ w ∈ Shape.weights (k.shapeOf a), w < Word.count)
        k.inputStrides := by
    refine .mapM _ fun a ha => ?_
    obtain ⟨t, -, htensor, hstrides⟩ := hoperand a (List.mem_cons_of_mem _ ha)
    refine .congr (.bind (htensor.bind hstrides) (.ok _)) ?_
    simp
  have hloops := Checked.GivesIf.mapM k.nest.loops
    fun l _ => k.lowerLoop_givesIf k.extentOf l
  rw [h.forall_addressable_iff, ← hshape]
  rw [← hshape] at hstrides
  rw [← shapeOf, ← hshape] at hloops
  refine .congr (htensor.bind (hstrides.bind (hinputs.bind (hloops.bind (.ok _))))) ?_
  simp

theorem slabExtent_le {outer : Loop} (houter : outer ∈ k.nest.loops) (i : Nat) :
    0 < k.slabExtent outer i ∧ k.slabExtent outer i ≤ k.extentOf i := by
  by_cases hi : i = outer.iterator
  · subst hi
    simpa only [slabExtent, Function.update_self] using h.legal.stride_bounds houter
  · simp only [slabExtent, Function.update_of_ne hi]
    exact ⟨h.extentOf_pos i, Nat.le_refl _⟩

/-- The axis of the output that a parallel loop cuts. -/
theorem exists_axisOf {outer : Loop} {inner : List Loop} (hloops : k.nest.loops = outer :: inner)
    (hparallel : outer.parallel = true) :
    ∃ axis < (k.shapeOf k.statement.output).length,
      k.statement.output.axisOf outer.iterator = some axis := by
  have hmem := h.mem_output_of_parallel hloops hparallel
  obtain ⟨axis, haxis⟩ : ∃ axis, k.statement.output.axisOf outer.iterator = some axis := by
    refine Option.isSome_iff_exists.mp ?_
    rw [Access.axisOf, List.findIdx?_isSome]
    simpa using hmem
  have hlt : axis < k.statement.output.indices.length :=
    (List.findIdx?_eq_some_iff_getElem.mp haxis).1
  exact ⟨axis, by simpa [shapeOf] using hlt, haxis⟩

/-- Slabs are no larger than the output, so they have strides and steps if the output has. -/
theorem splitAlong_eq (hall : ∀ a ∈ k.statement.accesses, k.Addressable a) {outer : Loop}
    {inner : List Loop} {axis : Nat} (hloops : k.nest.loops = outer :: inner)
    (haxis : k.statement.output.axisOf outer.iterator = some axis) :
    Plan.splitAlong (k.shapeOf k.statement.output) k.statement.output k.inputStrides outer inner
      axis = .ok (k.slabs outer inner) := by
  have houter : outer ∈ k.nest.loops := by simp [hloops]
  have hle : ∀ i ∈ k.statement.output.indices, k.slabExtent outer i ≤ k.extentOf i :=
    fun i _ => (h.slabExtent_le houter i).2
  have hshape : (k.shapeOf k.statement.output).set axis outer.stride =
      k.statement.output.indices.map (k.slabExtent outer) :=
    (Shape.map_update haxis (h.backed _ List.mem_cons_self).1 k.extentOf outer.stride).symm
  obtain ⟨houtput, -, hsteps⟩ := h.forall_addressable_iff.mp hall
  have hpos : ∀ dim ∈ k.statement.output.indices.map (k.slabExtent outer), 0 < dim := by
    simpa using fun i _ => (h.slabExtent_le houter i).1
  have hstrides := (Shape.strides_givesIf hpos).1 (Shape.weights_map_lt hle houtput)
  have hinner := (Checked.GivesIf.mapM inner
    fun l _ => k.lowerLoop_givesIf (k.slabExtent outer) l).1 fun l hl => by
      have hmem : l ∈ k.nest.loops := by simp [hloops, hl]
      exact ⟨(Shape.stepSize_map_le hle l).trans_lt (hsteps l hmem).1, (hsteps l hmem).2⟩
  have hlhs := (k.inputDelta_givesIf 0 outer).1 ((hsteps outer houter).2 0 (by omega))
  have hrhs := (k.inputDelta_givesIf 1 outer).1 ((hsteps outer houter).2 1 (by omega))
  have hlt : axis < (k.shapeOf k.statement.output).length := by
    simpa [shapeOf] using (List.findIdx?_eq_some_iff_getElem.mp haxis).1
  obtain ⟨dim, hdim⟩ := Checked.exists_get.mpr hlt
  unfold Plan.splitAlong
  rw [hshape]
  refine bind_eq_ok.mpr ⟨dim, hdim, bind_eq_ok.mpr ⟨_, hstrides, bind_eq_ok.mpr ⟨_, hinner, ?_⟩⟩⟩
  refine bind_eq_ok.mpr ⟨_, hlhs, bind_eq_ok.mpr ⟨_, hrhs, ?_⟩⟩
  simp only [slabs, haxis]
  rfl

theorem splitOf_eq (hall : ∀ a ∈ k.statement.accesses, k.Addressable a) :
    Plan.splitOf k (k.shapeOf k.statement.output) k.inputStrides = .ok k.plan.split := by
  simp only [Plan.splitOf, plan]
  cases hloops : k.nest.loops with
  | nil => simp [Nest.parallelLoop?, hloops]
  | cons outer inner =>
    rw [h.legal.parallelPlaced.parallelLoop?_eq hloops]
    cases hparallel : outer.parallel with
    | false => simp [hparallel]
    | true =>
      obtain ⟨axis, -, haxis⟩ := h.exists_axisOf hloops hparallel
      simp [hparallel, haxis, h.splitAlong_eq hall hloops haxis]

/-- A tensor with fewer elements than there are words is addressable. -/
theorem addressable_of_size {a : Access}
    (hsize : Shape.size (k.shapeOf a) < Word.count) : k.Addressable a := by
  constructor
  · intro w hw
    exact (Shape.le_size_of_mem_weights (h.shapeOf_pos a) hw).trans_lt hsize
  · intro l hl
    exact (Shape.stepSize_le (fun i _ => h.extentOf_pos i)
      (h.legal.stride_bounds hl).2).trans_lt hsize

end Valid

/-- An admitted kernel has its plan, unless an operand is out of reach. -/
theorem Admitted.compile_eq {k : Kernel} (h : k.Admitted) :
    ((∀ a ∈ k.statement.accesses, k.Addressable a) → Plan.compile k = .ok k.plan) ∧
    ((¬∀ a ∈ k.statement.accesses, k.Addressable a) →
      Plan.compile k = .error (.trapped .overflow)) := by
  obtain ⟨hsingle, hvalidate⟩ := h
  have hvalid := valid_of_validate hvalidate
  have hfind : k.tensors.find? (·.element != .f32) = none := by simpa using hsingle
  unfold Plan.compile
  rw [hfind, hvalidate]
  constructor
  · intro hall
    rw [hvalid.lower_givesIf.1 hall]
    exact bind_eq_ok.mpr ⟨_, hvalid.splitOf_eq hall, rfl⟩
  · intro hnot
    rw [hvalid.lower_givesIf.2 hnot]
    rfl

/-- A kernel that is not admitted is refused for its tensors or by validation. -/
theorem compile_of_not_admitted {k : Kernel} (h : ¬k.Admitted) :
    (∃ t ∈ k.tensors, Plan.compile k = .error (.unsupported t.name t.element)) ∨
      ∃ defect, k.validate = .error defect ∧ Plan.compile k = .error (.invalid defect) := by
  unfold Plan.compile
  cases hfind : k.tensors.find? (·.element != .f32) with
  | some t => exact Or.inl ⟨t, List.mem_of_find?_eq_some hfind, rfl⟩
  | none =>
    cases hvalidate : k.validate with
    | error defect => exact Or.inr ⟨defect, rfl, rfl⟩
    | ok u => exact absurd ⟨by simpa using hfind, hvalidate⟩ h

/-- There is no other reason for a kernel to have no plan. A parallel loop that is not outermost, or
not along an axis of the output, is never met while planning: validation has refused it before. -/
theorem compile_eq_error {k : Kernel} {e : PlanError} (h : Plan.compile k = .error e) :
    (∃ t ∈ k.tensors, e = .unsupported t.name t.element) ∨
      (∃ defect, k.validate = .error defect ∧ e = .invalid defect) ∨ e = .trapped .overflow := by
  by_cases hadmitted : k.Admitted
  · by_cases hall : ∀ a ∈ k.statement.accesses, k.Addressable a
    · rw [hadmitted.compile_eq.1 hall] at h
      cases h
    · rw [hadmitted.compile_eq.2 hall] at h
      exact Or.inr (Or.inr (Except.error.inj h).symm)
  · rcases compile_of_not_admitted hadmitted with ⟨t, ht, hrefused⟩ | ⟨defect, hdefect, hrefused⟩
    · rw [hrefused] at h
      exact Or.inl ⟨t, ht, (Except.error.inj h).symm⟩
    · rw [hrefused] at h
      exact Or.inr (Or.inl ⟨defect, hdefect, (Except.error.inj h).symm⟩)

/-- A kernel with a plan is valid, and its plan steps between row-major positions. -/
theorem plan_of_compile {k : Kernel} {p : Plan} (h : Plan.compile k = .ok p) :
    k.Valid ∧ p = k.plan := by
  by_cases hadmitted : k.Admitted
  · by_cases hall : ∀ a ∈ k.statement.accesses, k.Addressable a
    · rw [hadmitted.compile_eq.1 hall] at h
      exact ⟨valid_of_validate hadmitted.2, (Except.ok.inj h).symm⟩
    · rw [hadmitted.compile_eq.2 hall] at h
      cases h
  · rcases compile_of_not_admitted hadmitted with ⟨t, ht, hrefused⟩ | ⟨defect, hdefect, hrefused⟩
    all_goals
      rw [hrefused] at h
      cases h

namespace Runnable

/-- Steps of a loop add up in the offsets. -/
theorem offsets_move {k : Kernel} (h : k.Runnable) (extent : Nat → Nat) (l : Loop) (v w : Point)
    (n : Nat) :
    k.offsets extent (v.move l.iterator (n * l.stride)) (w.move l.iterator (n * l.stride)) =
      (k.offsets extent v w).ahead n (k.lowered extent l).deltas := by
  simp only [offsets, lowered, Plan.Offsets.ahead, Shape.position_move h.output_nodup,
    Shape.position_move (h.input_nodup _)]

theorem mem_output_of_parallel {k : Kernel} (h : k.Runnable) {outer : Loop} {inner : List Loop}
    (hloops : k.nest.loops = outer :: inner) (hparallel : outer.parallel = true) :
    outer.iterator ∈ k.statement.output.indices :=
  h.valid.mem_output_of_parallel hloops hparallel

theorem slab_size_lt {k : Kernel} (h : k.Runnable) {outer : Loop} (houter : outer ∈ k.nest.loops) :
    Shape.size (k.statement.output.indices.map (k.slabExtent outer)) < 2 ^ 63 :=
  (Shape.size_map_le fun i _ => (h.valid.slabExtent_le houter i).2).trans_lt h.output_size_lt

/-- A runnable kernel has a plan. -/
theorem compile_eq {k : Kernel} (h : k.Runnable) : Plan.compile k = .ok k.plan := by
  have hadmitted : k.Admitted := ⟨h.single, h.validated⟩
  refine hadmitted.compile_eq.1 fun a ha => ?_
  exact h.valid.addressable_of_size (lt_count (h.size_lt ha))

end Runnable

end Kernel

end NestTuner
