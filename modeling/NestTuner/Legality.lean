import NestTuner.Kernel.Basic

/-!
A legal nest visits every point of the iteration space exactly once: the loops of an iterator,
taken from the smallest stride up, form a mixed-radix decomposition of its extent. A parallel mark
belongs to the outermost loop and never to a reduction, a vector mark to the innermost loop.
-/

namespace NestTuner

/-- The vector widths there are: the powers of two up to sixteen. -/
def vectorWidths : List Nat := [1, 2, 4, 8, 16]

/-- What makes a nest illegal. -/
inductive Violation where
  | unknownIterator (loop iterator : Nat)
  | missingIterator (iterator : String)
  | brokenCoverage (iterator : String) (extent : Nat)
  | multipleParallel (count : Nat)
  | misplacedParallel (loop : Nat)
  | parallelReduction (iterator : String)
  | multipleVector (count : Nat)
  | misplacedVector (loop : Nat)
  | badVectorWidth (width extent : Nat)
  deriving DecidableEq

namespace Violation

def message : Violation → String
  | unknownIterator loop iterator => s!"loop {loop} references unknown iterator {iterator}"
  | missingIterator iterator => s!"iterator `{iterator}` has no loop"
  | brokenCoverage iterator extent =>
    s!"loops of iterator `{iterator}` do not cover its extent {extent} exactly once"
  | multipleParallel count => s!"nest has {count} parallel loops"
  | misplacedParallel loop => s!"parallel loop sits at position {loop}"
  | parallelReduction iterator => s!"parallel loop carries reduction iterator `{iterator}`"
  | multipleVector count => s!"nest has {count} vectorized loops"
  | misplacedVector loop => s!"vectorized loop sits at position {loop}"
  | badVectorWidth width extent => s!"vector width {width} does not fit extent {extent}"

end Violation

namespace Nest

/-- The pairs of stride and extent of an iterator's loops, smallest first. -/
def levels (n : Nest) (iterator : Nat) : List (Nat × Nat) :=
  ((n.loopsFor iterator).map fun l => (l.stride, l.extent)).mergeSort fun a b =>
    a.1 < b.1 || (a.1 == b.1 && a.2 ≤ b.2)

/-- The extent that sorted levels cover when each stride is the extent covered so far. -/
def coveredFrom : Nat → List (Nat × Nat) → Option Nat
  | expected, [] => some expected
  | expected, (stride, extent) :: rest =>
    if stride == expected && extent != 0 then
      coveredFrom (Word.saturatingMul stride extent) rest
    else
      none

/-- The extent that an iterator's loops cover exactly once, if they do. -/
def covered (n : Nest) (iterator : Nat) : Option Nat :=
  coveredFrom 1 (n.levels iterator)

/-- The positions of the loops with a property. -/
def positions (n : Nest) (p : Loop → Bool) : List Nat :=
  (n.loops.zipIdx.filter fun entry => p entry.1).map (·.2)

end Nest

namespace Kernel

/-- Every loop is bound to a declared iterator. -/
def checkBindings (k : Kernel) : Except Violation Unit :=
  k.nest.loops.zipIdx.forM fun (l, i) =>
    if l.iterator < k.iterators.length then .ok () else .error (.unknownIterator i l.iterator)

/-- The loops of every iterator cover its extent exactly once. -/
def checkCoverage (k : Kernel) : Except Violation Unit :=
  k.iterators.zipIdx.forM fun (it, i) =>
    if (k.nest.loopsFor i).isEmpty then .error (.missingIterator it.name)
    else if k.nest.covered i == some it.extent then .ok ()
    else .error (.brokenCoverage it.name it.extent)

/-- At most one loop is parallel: the outermost one, at the outermost level of an iterator that
indexes the output. -/
def checkParallel (k : Kernel) : Except Violation Unit :=
  match k.nest.positions (·.parallel) with
  | [] => .ok ()
  | [i] =>
    if i != 0 || !k.nest.isOutermostLevel i then .error (.misplacedParallel i)
    else
      match k.nest.loops[i]? >>= fun l => k.iterators[l.iterator]? with
      | some it => if it.kind == .reduction then .error (.parallelReduction it.name) else .ok ()
      | none => .ok ()
  | loops => .error (.multipleParallel loops.length)

/-- At most one loop is vectorized: the innermost one, not also parallel, by a width that divides
its extent. -/
def checkVector (k : Kernel) : Except Violation Unit :=
  match k.nest.positions (·.vectorWidth.isSome) with
  | [] => .ok ()
  | [i] =>
    match k.nest.loops[i]? with
    | some ⟨_, extent, _, parallel, some width⟩ =>
      if i + 1 != k.nest.depth || parallel then .error (.misplacedVector i)
      else if !vectorWidths.contains width || extent % width != 0 then
        .error (.badVectorWidth width extent)
      else .ok ()
    | _ => .ok ()
  | loops => .error (.multipleVector loops.length)

/-- The first violation of a nest, in the order of the checks. -/
def checkLegality (k : Kernel) : Except Violation Unit := do
  k.checkBindings
  k.checkCoverage
  k.checkParallel
  k.checkVector

end Kernel

end NestTuner
