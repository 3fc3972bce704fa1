import NestTuner.Inputs
import NestTuner.Plan.Basic

/-!
Running a plan. The arithmetic is a parameter, about which nothing is assumed, so that a run can be
read over single-precision numbers as well as over any other carrier. A run that leaves a buffer,
an offset that leaves the range of words, or a buffer of too many bytes has no result.
-/

namespace NestTuner

/-- The operations of a run. Lanes are summed from `sumStart`, the output grows from `zero`. -/
structure Arithmetic (α : Type) where
  zero : α
  sumStart : α
  add : α → α → α
  mul : α → α → α

namespace Arithmetic

/-- Single precision. Minus zero is the number that a sum leaves alone. -/
def single : Arithmetic Float32 :=
  ⟨0.0, -0.0, (· + ·), (· * ·)⟩

end Arithmetic

namespace Plan

variable {α : Type}

/-- The arrays read. -/
structure Operands (α : Type) where
  lhs : Array α
  rhs : Array α

/-- The value at a point. -/
@[specialize]
def value (A : Arithmetic α) (body : Body) (ops : Operands α) (o : Offsets) (out : Array α) :
    Option α :=
  match body with
  | .mulAcc => do
    return A.add (← out[o.output]?) (A.mul (← ops.lhs[o.lhs]?) (← ops.rhs[o.rhs]?))
  | .add => do return A.add (← ops.lhs[o.lhs]?) (← ops.rhs[o.rhs]?)
  | .mul => do return A.mul (← ops.lhs[o.lhs]?) (← ops.rhs[o.rhs]?)
  | .copy => ops.lhs[o.lhs]?

/-- Writes an element that is there. -/
def store (out : Array α) (i : Nat) (a : α) : Option (Array α) :=
  if h : i < out.size then some (out.set i a h) else none

/-- Computes one point. -/
@[specialize]
def point (A : Arithmetic α) (body : Body) (ops : Operands α) (o : Offsets) (out : Array α) :
    Option (Array α) :=
  match value A body ops o out with
  | some a => store out o.output a
  | none => none

/-- Carries out a step `n` times, and moves on after each. -/
@[specialize]
def iterate (deltas : Offsets) (step : Offsets → Array α → Option (Array α)) :
    Nat → Offsets → Array α → Option (Array α)
  | 0, _, out => some out
  | n + 1, o, out => do
    let next ← step o out
    iterate deltas step n (← o.advance deltas) next

/-- Adds one product to each lane. The offsets end behind the last one. -/
def accumulate (A : Arithmetic α) (ops : Operands α) (deltas : Offsets) :
    Offsets → List α → Option (List α × Offsets)
  | o, [] => some ([], o)
  | o, lane :: lanes => do
    let product := A.mul (← ops.lhs[o.lhs]?) (← ops.rhs[o.rhs]?)
    let rest ← accumulate A ops deltas (← o.advance deltas) lanes
    return (A.add lane product :: rest.1, rest.2)

/-- Adds `n` rows of products to the lanes. -/
def accumulateRows (A : Arithmetic α) (ops : Operands α) (deltas : Offsets) :
    Nat → Offsets → List α → Option (List α)
  | 0, _, lanes => some lanes
  | n + 1, o, lanes => do
    let next ← accumulate A ops deltas o lanes
    accumulateRows A ops deltas n next.2 next.1

/-- A reduction along a vectorized loop: every lane has a sum of its own, and their total is added
to the output once. -/
def reduceLanes (A : Arithmetic α) (ops : Operands α) (l : Loop) (width : Nat) (o : Offsets)
    (out : Array α) : Option (Array α) := do
  let lanes ← accumulateRows A ops l.deltas (l.extent / width) o (List.replicate width A.zero)
  store out o.output (A.add (← out[o.output]?) (lanes.foldl A.add A.sumStart))

/-- The values of `width` consecutive points. -/
def loadLanes (A : Arithmetic α) (body : Body) (ops : Operands α) (deltas : Offsets)
    (out : Array α) : Nat → Offsets → Option (List α)
  | 0, _ => some []
  | width + 1, o => do
    let lane ← value A body ops o out
    return lane :: (← loadLanes A body ops deltas out width (← o.advance deltas))

/-- Writes consecutive points. The offsets end behind the last one. -/
def storeLanes (deltas : Offsets) : Offsets → List α → Array α → Option (Array α × Offsets)
  | o, [], out => some (out, o)
  | o, lane :: lanes, out => do
    let next ← store out o.output lane
    storeLanes deltas (← o.advance deltas) lanes next

/-- One row of lanes: all values are computed before any is written. -/
def row (A : Arithmetic α) (body : Body) (ops : Operands α) (deltas : Offsets) (width : Nat)
    (o : Offsets) (out : Array α) : Option (Array α × Offsets) := do
  storeLanes deltas o (← loadLanes A body ops deltas out width o) out

/-- `n` rows of lanes. -/
def rows (A : Arithmetic α) (body : Body) (ops : Operands α) (deltas : Offsets) (width : Nat) :
    Nat → Offsets → Array α → Option (Array α)
  | 0, _, out => some out
  | n + 1, o, out => do
    let next ← row A body ops deltas width o out
    rows A body ops deltas width n next.2 next.1

/-- The number of lanes there is room for. -/
def laneLimit : Nat := 16

/-- The innermost loop. -/
@[specialize]
def innermost (A : Arithmetic α) (body : Body) (ops : Operands α) (l : Loop) (o : Offsets)
    (out : Array α) : Option (Array α) :=
  match l.vectorWidth with
  | none => iterate l.deltas (point A body ops) l.extent o out
  | some width =>
    if width == 0 || laneLimit < width then none
    else if body == .mulAcc && l.deltas.output == 0 then reduceLanes A ops l width o out
    else rows A body ops l.deltas width (l.extent / width) o out

/-- The points of a nest of loops, from given offsets. -/
@[specialize]
def walk (A : Arithmetic α) (body : Body) (ops : Operands α) :
    List Loop → Offsets → Array α → Option (Array α)
  | [] => point A body ops
  | [l] => innermost A body ops l
  | l :: rest => iterate l.deltas (walk A body ops rest) l.extent

/-- A buffer of zeros, if there can be one. -/
def zeros (A : Arithmetic α) (shape : List Nat) : Option (Array α) :=
  match Word.product shape with
  | .ok n => if Grid.allocatable n then some (Array.replicate n A.zero) else none
  | .error _ => none

/-- The offsets that an iteration of a parallel loop starts from: the start of its slab, and the
inputs moved ahead. -/
def Split.start (s : Split) (t : Nat) : Option Offsets := do
  return ⟨0, ← (Word.mul t s.deltas.lhs).toOption, ← (Word.mul t s.deltas.rhs).toOption⟩

/-- The slab of one iteration of a parallel loop. -/
def slab (A : Arithmetic α) (body : Body) (ops : Operands α) (s : Split) (t : Nat) :
    Option (Array α) := do
  let out ← zeros A s.slabShape
  walk A body ops s.slabLoops (← s.start t) out

/-- All slabs can be listed. An entry of the list has 24 bytes: where the slab is, its length and
its capacity. -/
def Split.listable (s : Split) : Bool :=
  24 * s.extent < Grid.byteLimit

/-- The element of the output at a row-major position, taken from the slab that covers it. -/
def stitched (shape : List Nat) (s : Split) (slabs : Array (Array α)) (position : Nat) :
    Option α := do
  let inner := Shape.size (shape.drop (s.axis + 1))
  let along ← shape[s.axis]?
  let x := position / inner % along
  let outer := position / (inner * along)
  let slab ← slabs[x / s.chunk]?
  slab[(outer * s.chunk + x % s.chunk) * inner + position % inner]?

/-- The output of a parallel loop. -/
def runSplit (A : Arithmetic α) (p : Plan) (ops : Operands α) (s : Split) :
    Option (Array α) :=
  if s.listable then do
    let slabs ← (Array.range s.extent).mapM (slab A p.body ops s)
    let out ← zeros A p.outputShape
    (Array.range out.size).mapM (stitched p.outputShape s slabs)
  else none

/-- The output of a plan. -/
@[specialize]
def run (A : Arithmetic α) (p : Plan) (ops : Operands α) : Option (Array α) :=
  match p.split with
  | some s => runSplit A p ops s
  | none => do walk A p.body ops p.loops .zero (← zeros A p.outputShape)

/-- Why a kernel did not run. -/
inductive RunError where
  | noPlan (error : PlanError)
  | missingInput (tensor : Nat)
  | trapped (kernel : String)
  deriving DecidableEq

/-- The arrays that a plan reads. -/
def operands (p : Plan) (inputs : Inputs α) : Except RunError (Operands α) := do
  let arrays ← p.inputs.mapM fun tensor =>
    match inputs.tensor tensor with
    | some grid => Except.ok grid.data
    | none => .error (.missingInput tensor)
  return ⟨arrays.headD #[], (arrays.drop 1).headD #[]⟩

/-- Runs a plan on inputs. -/
def runOn (A : Arithmetic α) (p : Plan) (inputs : Inputs α) : Except RunError (Grid α) := do
  let ops ← p.operands inputs
  match run A p ops with
  | none => throw (.trapped p.name)
  | some data =>
    match Grid.ofData? p.outputShape data with
    | some grid => return grid
    | none => throw (.trapped p.name)

end Plan

namespace Kernel

/-- Plans a kernel and runs it once. -/
def execute {α : Type} (A : Arithmetic α) (k : Kernel) (inputs : Inputs α) :
    Except Plan.RunError (Grid α) :=
  match Plan.compile k with
  | .error e => .error (.noPlan e)
  | .ok p => p.runOn A inputs

end Kernel

end NestTuner
