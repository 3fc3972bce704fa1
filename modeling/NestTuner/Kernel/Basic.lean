import NestTuner.Kernel.Tensor

/-!
A kernel is one statement over tensors, indexed by iterators, and the loop nest that carries it
out. The value of an iterator at a point of the nest is the sum of `index * stride` over the loops
bound to it.
-/

namespace NestTuner

/-- Whether an iterator indexes the output or is summed away. -/
inductive IteratorKind where
  | parallel
  | reduction
  deriving DecidableEq

structure Iterator where
  name : String
  extent : Nat
  kind : IteratorKind
  deriving DecidableEq

/-- One operand: a tensor and the iterator along each of its axes, both by position. -/
structure Access where
  tensor : Nat
  indices : List Nat
  deriving DecidableEq

namespace Access

/-- The first axis that an iterator runs along. -/
def axisOf (a : Access) (iterator : Nat) : Option Nat :=
  a.indices.findIdx? (· == iterator)

end Access

inductive ElementwiseOp where
  | add
  | mul
  | copy
  deriving DecidableEq

namespace ElementwiseOp

def text : ElementwiseOp → String
  | add => "add"
  | mul => "mul"
  | copy => "copy"

def arity : ElementwiseOp → Nat
  | add => 2
  | mul => 2
  | copy => 1

end ElementwiseOp

inductive Statement where
  /-- The output gains `lhs * rhs`, summed over every iterator that does not index it. -/
  | contraction (output lhs rhs : Access)
  /-- The output is an operation of the inputs at the same point. -/
  | elementwise (op : ElementwiseOp) (output : Access) (inputs : List Access)
  deriving DecidableEq

namespace Statement

def output : Statement → Access
  | contraction output _ _ => output
  | elementwise _ output _ => output

/-- The operands read, in order. -/
def inputs : Statement → List Access
  | contraction _ lhs rhs => [lhs, rhs]
  | elementwise _ _ inputs => inputs

/-- The output, then the inputs. -/
def accesses (s : Statement) : List Access :=
  s.output :: s.inputs

def isElementwise : Statement → Bool
  | contraction .. => false
  | elementwise .. => true

/-- Whether some operand is indexed by an iterator. -/
def uses (s : Statement) (iterator : Nat) : Bool :=
  s.accesses.any fun a => a.indices.contains iterator

/-- The kind that a statement gives to an iterator. -/
def kindOf (s : Statement) (iterator : Nat) : IteratorKind :=
  if s.output.indices.contains iterator then .parallel else .reduction

end Statement

structure Loop where
  iterator : Nat
  extent : Nat
  stride : Nat
  parallel : Bool
  vectorWidth : Option Nat
  deriving DecidableEq

namespace Loop

/-- A loop over all values of an iterator, without marks. -/
def full (iterator extent : Nat) : Loop :=
  ⟨iterator, extent, 1, false, none⟩

end Loop

/-- The loops of a kernel, outermost first. -/
structure Nest where
  loops : List Loop
  deriving DecidableEq

namespace Nest

/-- One full loop per iterator, in order of declaration. -/
def identity (iterators : List Iterator) : Nest :=
  ⟨iterators.mapIdx fun i it => Loop.full i it.extent⟩

def depth (n : Nest) : Nat :=
  n.loops.length

def innermost? (n : Nest) : Option Loop :=
  n.loops.getLast?

def loopsFor (n : Nest) (iterator : Nat) : List Loop :=
  n.loops.filter fun l => l.iterator == iterator

/-- No loop of the same iterator has a larger stride. -/
def isOutermostLevel (n : Nest) (i : Nat) : Bool :=
  match n.loops[i]? with
  | some l => (n.loopsFor l.iterator).all fun other => other.stride ≤ l.stride
  | none => false

/-- Some loop of the same iterator has a larger stride: the loop walks inside a tile. -/
def isTilePoint (n : Nest) (i : Nat) : Bool :=
  match n.loops[i]? with
  | some l => (n.loopsFor l.iterator).any fun other => l.stride < other.stride
  | none => false

/-- The position of the first parallel loop. -/
def parallelLoop? (n : Nest) : Option Nat :=
  n.loops.findIdx? (·.parallel)

/-- The position of the first vectorized loop. -/
def vectorLoop? (n : Nest) : Option Nat :=
  n.loops.findIdx? (·.vectorWidth.isSome)

end Nest

structure Kernel where
  name : String
  tag : Option String
  tensors : List Tensor
  iterators : List Iterator
  statement : Statement
  nest : Nest
  deriving DecidableEq

namespace Kernel

/-- The tensor that the statement writes. -/
def outputTensor (k : Kernel) : Checked Tensor :=
  Checked.get k.tensors k.statement.output.tensor

def iteratorName (k : Kernel) (iterator : Nat) : String :=
  match k.iterators[iterator]? with
  | some it => it.name
  | none => "?"

/-- The number of points of the iteration space. -/
def points (k : Kernel) : Checked Nat :=
  Word.product (k.iterators.map (·.extent))

/-- Floating-point operations of one run, as a double; moving data counts none. -/
def flops (k : Kernel) : Checked Float := do
  let points := (UInt64.ofNat (← k.points)).toFloat
  match k.statement with
  | .contraction .. => return 2.0 * points
  | .elementwise .copy .. => return 0.0
  | .elementwise .. => return points

/-- One loop of a schedule: name, stride when the iterator is split, extent, marks. -/
def loopSummary (k : Kernel) (i : Nat) (l : Loop) : String :=
  k.iteratorName l.iterator
    ++ (if l.stride > 1 || k.nest.isTilePoint i then "/" ++ l.stride.repr else "")
    ++ "[" ++ l.extent.repr
    ++ (if l.parallel then " par" else "")
    ++ (match l.vectorWidth with
        | some width => " vec" ++ width.repr
        | none => "")
    ++ "]"

/-- The nest in one line, outermost loop first. -/
def summary (k : Kernel) : String :=
  " > ".intercalate (k.nest.loops.mapIdx k.loopSummary)

end Kernel

end NestTuner
