import NestTuner.Word

/-!
Tensors are row-major: the stride of an axis is the product of the lengths of the axes after it.
-/

namespace NestTuner

inductive ElementType where
  | f32
  | f16
  | bf16
  deriving DecidableEq

namespace ElementType

def text : ElementType → String
  | f32 => "f32"
  | f16 => "f16"
  | bf16 => "bf16"

end ElementType

structure Tensor where
  name : String
  shape : List Nat
  element : ElementType
  deriving DecidableEq

namespace Shape

/-- The number of elements of a shape. -/
def size (shape : List Nat) : Nat :=
  shape.foldr (· * ·) 1

/-- The number of elements, multiplied up from the last axis. -/
def checkedSize : List Nat → Checked Nat
  | [] => .ok 1
  | dim :: rest => do Word.mul (← checkedSize rest) dim

/-- Row-major strides. Only the products that are strides have to fit. -/
def strides : List Nat → Checked (List Nat)
  | [] => .ok []
  | _ :: rest => do
    let inner ← strides rest
    let stride ← checkedSize rest
    return stride :: inner

end Shape

namespace Tensor

def strides (t : Tensor) : Checked (List Nat) :=
  Shape.strides t.shape

/-- The memory type of a tensor: its axis lengths and its element type, divided by crosses. -/
def memref (t : Tensor) : String :=
  "memref<" ++ "x".intercalate (t.shape.map Nat.repr ++ [t.element.text]) ++ ">"

end Tensor

end NestTuner
