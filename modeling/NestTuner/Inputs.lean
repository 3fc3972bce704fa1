import NestTuner.Kernel.Basic
import NestTuner.Random

/-!
Row-major arrays, and the arrays that a kernel reads. The output has no array of its own among the
inputs: a run allocates it.
-/

namespace NestTuner

/-- A row-major array with as many elements as its shape says. -/
structure Grid (α : Type) where
  shape : List Nat
  data : Array α
  size_data : data.size = Shape.size shape

namespace Grid

variable {α : Type}

def ofData? (shape : List Nat) (data : Array α) : Option (Grid α) :=
  if h : data.size = Shape.size shape then some ⟨shape, data, h⟩ else none

/-- Every element the same. -/
def fill (shape : List Nat) (a : α) : Grid α :=
  ⟨shape, Array.replicate (Shape.size shape) a, by simp⟩

/-- Half the values of a word: no buffer has as many bytes. -/
def byteLimit : Nat := 9223372036854775808

/-- A buffer of `n` elements of four bytes can be asked for. -/
def allocatable (n : Nat) : Bool :=
  4 * n < byteLimit

/-- A shape can be asked for. Its axes of length zero do not excuse the others. -/
def allocatableShape (shape : List Nat) : Bool :=
  Shape.size (shape.filter (· != 0)) < byteLimit && allocatable (Shape.size shape)

end Grid

structure Inputs (α : Type) where
  seed : Nat
  tensors : List (Option (Grid α))

namespace Inputs

variable {α : Type}

/-- The array of a tensor. -/
def tensor (inputs : Inputs α) (i : Nat) : Option (Grid α) :=
  (inputs.tensors[i]?).join

/-- One random array per tensor but the output, drawn in order from one generator. -/
def draw (output : Nat) : Nat → List Tensor → UInt64 → Checked (List (Option (Grid Float32)))
  | _, [], _ => .ok []
  | i, t :: rest, state =>
    if i == output then do return none :: (← draw output (i + 1) rest state)
    else if Grid.allocatableShape t.shape then
      let drawn := Random.symmetric (Shape.size t.shape) state
      let grid : Grid Float32 := ⟨t.shape, drawn.1, Random.size_symmetric ..⟩
      do return some grid :: (← draw output (i + 1) rest drawn.2)
    else .error .overflow

/-- Reproducible inputs for a kernel. -/
def random (k : Kernel) (seed : Nat) : Checked (Inputs Float32) := do
  return ⟨seed, ← draw k.statement.output.tensor 0 k.tensors (UInt64.ofNat seed)⟩

/-- Whether there is an array of the right shape for every tensor but the output. -/
def fits (inputs : Inputs α) (k : Kernel) : Bool :=
  inputs.tensors.length == k.tensors.length &&
    k.tensors.zipIdx.all fun (t, i) =>
      i == k.statement.output.tensor || (inputs.tensor i).any (·.shape == t.shape)

end Inputs

end NestTuner
