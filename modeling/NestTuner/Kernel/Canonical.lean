import NestTuner.Kernel.Draft

/-!
Well-known kernels over single-precision matrices, laid out with the identity nest.
-/

namespace NestTuner

namespace Kernel

/-- A kernel over single-precision tensors whose name is its own and whose tag is its kind. -/
def canonical (name tag : String) (iterators : List Iterator) (tensors : List (String × List Nat))
    (statement : Statement) : Kernel :=
  ⟨name, some tag, tensors.map fun (tensor, shape) => ⟨tensor, shape, .f32⟩, iterators, statement,
    Nest.identity iterators⟩

/-- `C[i, j] += A[i, k] * B[k, j]`. -/
def matmul (name : String) (m n k : Nat) : Kernel :=
  canonical name "matmul"
    [⟨"i", m, .parallel⟩, ⟨"j", n, .parallel⟩, ⟨"k", k, .reduction⟩]
    [("A", [m, k]), ("B", [k, n]), ("C", [m, n])]
    (.contraction ⟨2, [0, 1]⟩ ⟨0, [0, 2]⟩ ⟨1, [2, 1]⟩)

/-- `y[i] += A[i, k] * x[k]`. -/
def matvec (name : String) (m n : Nat) : Kernel :=
  canonical name "matvec"
    [⟨"i", m, .parallel⟩, ⟨"k", n, .reduction⟩]
    [("A", [m, n]), ("x", [n]), ("y", [m])]
    (.contraction ⟨2, [0]⟩ ⟨0, [0, 1]⟩ ⟨1, [1]⟩)

/-- `B[j, i] = A[i, j]`. -/
def transpose (name : String) (m n : Nat) : Kernel :=
  canonical name "transpose"
    [⟨"i", m, .parallel⟩, ⟨"j", n, .parallel⟩]
    [("A", [m, n]), ("B", [n, m])]
    (.elementwise .copy ⟨1, [1, 0]⟩ [⟨0, [0, 1]⟩])

/-- `C[i, j] = A[i, j] + B[i, j]`. -/
def add (name : String) (m n : Nat) : Kernel :=
  canonical name "add"
    [⟨"i", m, .parallel⟩, ⟨"j", n, .parallel⟩]
    [("A", [m, n]), ("B", [m, n]), ("C", [m, n])]
    (.elementwise .add ⟨2, [0, 1]⟩ [⟨0, [0, 1]⟩, ⟨1, [0, 1]⟩])

/-- `Y[i, j] = X[i, j] * G[i, j]`, the gate of a decoder block. -/
def gate (name : String) (m n : Nat) : Kernel :=
  canonical name "gate"
    [⟨"i", m, .parallel⟩, ⟨"j", n, .parallel⟩]
    [("X", [m, n]), ("G", [m, n]), ("Y", [m, n])]
    (.elementwise .mul ⟨2, [0, 1]⟩ [⟨0, [0, 1]⟩, ⟨1, [0, 1]⟩])

/-- The kernels of a small decoder block: projections, a transpose, a residual sum and a gate. -/
def samples : List Kernel :=
  [matmul "q_proj" 128 128 256, matvec "decode_proj" 256 256, transpose "k_transpose" 128 64,
    add "residual_add" 128 256, gate "gate_mul" 128 256]

end Kernel

end NestTuner
