import NestTuner.Kernel.Validity

/-!
A plan is a nest lowered to offsets. All tensors are row-major, so one step of a loop moves each
operand by a fixed number of elements, and a run only adds up these deltas. A parallel outermost
loop cuts the output into slabs along one axis, which are computed apart and put together.
-/

namespace NestTuner

namespace Plan

/-- What happens at a point: the output gains a product, or is set to a value. -/
inductive Body where
  | mulAcc
  | add
  | mul
  | copy
  deriving DecidableEq

/-- One offset for each operand. -/
structure Offsets where
  output : Nat
  lhs : Nat
  rhs : Nat
  deriving DecidableEq

namespace Offsets

def zero : Offsets := ⟨0, 0, 0⟩

/-- One step further, unless an offset leaves the range of words. -/
def advance (o deltas : Offsets) : Option Offsets := do
  return ⟨← (Word.add o.output deltas.output).toOption, ← (Word.add o.lhs deltas.lhs).toOption,
    ← (Word.add o.rhs deltas.rhs).toOption⟩

end Offsets

structure Loop where
  extent : Nat
  deltas : Offsets
  vectorWidth : Option Nat
  deriving DecidableEq

/-- How a parallel loop partitions the output. Iteration `t` has a slab of its own, which is put in
the output from `t * chunk` to `(t + 1) * chunk` along an axis. The loops inside write all of it,
and nothing else, if the loop reaches the end of the axis; validation does not ask for that. -/
structure Split where
  extent : Nat
  axis : Nat
  chunk : Nat
  slabShape : List Nat
  /-- How far one iteration moves the inputs. -/
  deltas : Offsets
  /-- The loops inside, with output deltas in the layout of a slab. -/
  slabLoops : List Loop
  deriving DecidableEq

end Plan

structure Plan where
  name : String
  body : Plan.Body
  /-- The tensors read, in order. -/
  inputs : List Nat
  outputShape : List Nat
  loops : List Plan.Loop
  split : Option Plan.Split
  deriving DecidableEq

/-- Why a kernel has no plan. -/
inductive PlanError where
  | unsupported (tensor : String) (element : ElementType)
  | invalid (defect : Defect)
  | parallelInside (position : Nat)
  | parallelOutsideOutput (iterator : String)
  | trapped (trap : Trap)
  deriving DecidableEq

namespace PlanError

def message : PlanError → String
  | unsupported tensor element =>
    s!"tensor `{tensor}` has unsupported element type {element.text}"
  | invalid defect => defect.message
  | parallelInside position => s!"parallel loop at position {position} is not outermost"
  | parallelOutsideOutput iterator =>
    s!"parallel iterator `{iterator}` does not index the output"
  | trapped .overflow => "size out of range"
  | trapped .outOfRange => "index out of range"
  | trapped .zeroDivisor => "division by zero"

end PlanError

namespace Plan

def Body.ofStatement : Statement → Body
  | .contraction .. => .mulAcc
  | .elementwise .add .. => .add
  | .elementwise .mul .. => .mul
  | .elementwise .copy .. => .copy

/-- How far one step of a loop moves an operand: nowhere if its iterator does not index it. -/
def delta (a : Access) (strides : List Nat) (l : NestTuner.Loop) : Checked Nat :=
  match a.axisOf l.iterator with
  | none => .ok 0
  | some axis => do Word.mul (← Checked.get strides axis) l.stride

/-- Row-major strides of the tensor behind an operand. -/
def operandStrides (k : Kernel) (a : Access) : Checked (List Nat) := do
  (← Checked.get k.tensors a.tensor).strides

/-- The delta of an input, zero for an input that is not there. -/
def inputDelta (inputs : List (Access × List Nat)) (slot : Nat) (l : NestTuner.Loop) :
    Checked Nat :=
  match inputs[slot]? with
  | some (a, strides) => delta a strides l
  | none => .ok 0

/-- A loop with its deltas, given the operands with their strides. -/
def lowerLoop (output : Access × List Nat) (inputs : List (Access × List Nat))
    (l : NestTuner.Loop) : Checked Loop := do
  let deltas : Offsets := ⟨← delta output.1 output.2 l, ← inputDelta inputs 0 l,
    ← inputDelta inputs 1 l⟩
  return ⟨l.extent, deltas, l.vectorWidth⟩

/-- The slabs of a parallel outermost loop along an axis of the output. -/
def splitAlong (shape : List Nat) (output : Access) (inputs : List (Access × List Nat))
    (outer : NestTuner.Loop) (inner : List NestTuner.Loop) (axis : Nat) : Checked Split := do
  let _ ← Checked.get shape axis
  let slabShape := shape.set axis outer.stride
  let slabStrides ← Shape.strides slabShape
  let slabLoops ← inner.mapM (lowerLoop (output, slabStrides) inputs)
  let deltas : Offsets := ⟨0, ← inputDelta inputs 0 outer, ← inputDelta inputs 1 outer⟩
  return ⟨outer.extent, axis, outer.stride, slabShape, deltas, slabLoops⟩

/-- The slabs of a nest with a parallel loop, which has to be outermost. -/
def splitOf (k : Kernel) (shape : List Nat) (inputs : List (Access × List Nat)) :
    Except PlanError (Option Split) :=
  match k.nest.parallelLoop?, k.nest.loops with
  | none, _ => .ok none
  | some _, [] => .error (.trapped .outOfRange)
  | some position, outer :: inner =>
    if position != 0 then .error (.parallelInside position)
    else
      match k.statement.output.axisOf outer.iterator with
      | none => .error (.parallelOutsideOutput (k.iteratorName outer.iterator))
      | some axis =>
        match splitAlong shape k.statement.output inputs outer inner axis with
        | .ok split => .ok (some split)
        | .error trap => .error (.trapped trap)

/-- The shape of the output, the inputs with their strides, and the lowered loops. -/
def lower (k : Kernel) : Checked (List Nat × List (Access × List Nat) × List Loop) := do
  let output := k.statement.output
  let tensor ← k.outputTensor
  let outputStrides ← tensor.strides
  let inputs ← k.statement.inputs.mapM fun a => do return (a, ← operandStrides k a)
  let loops ← k.nest.loops.mapM (lowerLoop (output, outputStrides) inputs)
  return (tensor.shape, inputs, loops)

/-- The plan of a valid kernel over single-precision tensors. -/
def compile (k : Kernel) : Except PlanError Plan := do
  match k.tensors.find? (·.element != .f32) with
  | some t => throw (.unsupported t.name t.element)
  | none => pure ()
  match k.validate with
  | .error defect => throw (.invalid defect)
  | .ok () => pure ()
  match lower k with
  | .error trap => throw (.trapped trap)
  | .ok (shape, inputs, loops) =>
    return ⟨k.name, .ofStatement k.statement, k.statement.inputs.map (·.tensor), shape, loops,
      ← splitOf k shape inputs⟩

/-- The number of elements of the output. -/
def outputSize (p : Plan) : Checked Nat :=
  Word.product p.outputShape

end Plan

end NestTuner
