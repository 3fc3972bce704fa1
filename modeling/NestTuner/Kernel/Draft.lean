import NestTuner.Kernel.Validity

/-!
A draft describes a kernel by names. Building it resolves the names, derives the kind of every
iterator from the statement and lays out the identity nest.
-/

namespace NestTuner

namespace Draft

/-- A tensor and the iterators along its axes, by name. -/
structure Operand where
  tensor : String
  indices : List String

inductive Statement where
  | contraction (output lhs rhs : Operand)
  | elementwise (op : ElementwiseOp) (output : Operand) (inputs : List Operand)

end Draft

structure Draft where
  name : String
  tag : Option String
  iterators : List (String × Nat)
  tensors : List Tensor
  statement : Option Draft.Statement

namespace Draft

open Validity

/-- The iterators along the axes of an operand, by position. -/
def resolveAxes (d : Draft) (tensor : String) :
    List Nat → List (Nat × String) → Except Defect (List Nat)
  | earlier, [] => .ok earlier
  | earlier, (dim, name) :: rest => do
    match d.iterators.zipIdx.find? (·.1.1 == name) with
    | none => throw (.unknownIterator name)
    | some ((_, extent), index) =>
      checkAxis tensor earlier.length dim earlier index name extent
      d.resolveAxes tensor (earlier ++ [index]) rest

/-- An operand with its names resolved. -/
def resolve (d : Draft) (o : Operand) : Except Defect Access := do
  match d.tensors.zipIdx.find? (·.1.name == o.tensor) with
  | none => throw (.unknownTensor o.tensor)
  | some (t, index) =>
    if t.shape.length != o.indices.length then
      throw (.rankMismatch o.tensor t.shape.length o.indices.length)
    let indices ← d.resolveAxes o.tensor [] (t.shape.zip o.indices)
    return ⟨index, indices⟩

def resolveStatement (d : Draft) : Statement → Except Defect NestTuner.Statement
  | .contraction output lhs rhs => do
    return .contraction (← d.resolve output) (← d.resolve lhs) (← d.resolve rhs)
  | .elementwise op output inputs => do
    checkArity op inputs.length
    return .elementwise op (← d.resolve output) (← inputs.mapM d.resolve)

/-- The kernel that a draft describes, with the identity nest, or its first defect. -/
def build (d : Draft) : Except Defect Kernel := do
  checkNames d.name d.iterators (d.tensors.map (·.name))
  match d.statement with
  | none => throw (.missingStatement d.name)
  | some named =>
    let statement ← d.resolveStatement named
    checkAliasing d.tensors statement
    let iterators := d.iterators.mapIdx fun i (name, extent) =>
      Iterator.mk name extent (statement.kindOf i)
    iterators.zipIdx.forM fun (it, i) => checkUse statement i it.name it.kind
    return ⟨d.name, d.tag, d.tensors, iterators, statement, Nest.identity iterators⟩

end Draft

end NestTuner
