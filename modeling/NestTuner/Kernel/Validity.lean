import NestTuner.Legality

/-!
A valid kernel has distinct names, operands whose axes match the iterators that index them, an
output that is not read, no idle iterator, iterator kinds that the statement implies, and a legal
nest. The checks run in a fixed order and report the first defect.
-/

namespace NestTuner

namespace IteratorKind

def text : IteratorKind → String
  | parallel => "Parallel"
  | reduction => "Reduction"

end IteratorKind

/-- What makes a kernel unusable. -/
inductive Defect where
  | noIterators (kernel : String)
  | duplicateName (name : String)
  | zeroExtent (iterator : String)
  | unknownTensor (tensor : String)
  | unknownIterator (iterator : String)
  | repeatedIterator (tensor iterator : String)
  | rankMismatch (tensor : String) (rank indices : Nat)
  | extentMismatch (tensor : String) (axis dim : Nat) (iterator : String) (extent : Nat)
  | unusedIterator (iterator : String)
  | aliasedOutput (tensor : String)
  | arity (op : ElementwiseOp) (got : Nat)
  | elementwiseReduction (iterator : String)
  | missingStatement (kernel : String)
  | kindMismatch (iterator : String) (declared derived : IteratorKind)
  | illegalNest (violation : Violation)
  deriving DecidableEq

namespace Defect

def message : Defect → String
  | noIterators kernel => s!"kernel `{kernel}` declares no iterators"
  | duplicateName name => s!"duplicate name `{name}`"
  | zeroExtent iterator => s!"iterator `{iterator}` has zero extent"
  | unknownTensor tensor => s!"unknown tensor `{tensor}`"
  | unknownIterator iterator => s!"unknown iterator `{iterator}`"
  | repeatedIterator tensor iterator =>
    s!"iterator `{iterator}` indexes tensor `{tensor}` more than once"
  | rankMismatch tensor rank indices =>
    s!"tensor `{tensor}` has rank {rank} but is indexed by {indices} iterators"
  | extentMismatch tensor axis dim iterator extent =>
    s!"tensor `{tensor}` dimension {axis} is {dim} but iterator `{iterator}` spans {extent}"
  | unusedIterator iterator => s!"iterator `{iterator}` is never used by the statement"
  | aliasedOutput tensor => s!"output tensor `{tensor}` is also read as an input"
  | arity op got => s!"elementwise `{op.text}` takes {op.arity} inputs, got {got}"
  | elementwiseReduction iterator =>
    s!"elementwise statement cannot reduce over iterator `{iterator}`"
  | missingStatement kernel => s!"kernel `{kernel}` has no statement"
  | kindMismatch iterator declared derived =>
    s!"iterator `{iterator}` is marked {declared.text} but the statement makes it {derived.text}"
  | illegalNest violation => violation.message

end Defect

namespace Validity

/-- Iterator names are new and extents positive. The names in use are passed on. -/
def checkIterators : List String → List (String × Nat) → Except Defect (List String)
  | seen, [] => .ok seen
  | seen, (name, extent) :: rest =>
    if seen.contains name then .error (.duplicateName name)
    else if extent == 0 then .error (.zeroExtent name)
    else checkIterators (name :: seen) rest

/-- Tensor names are new. -/
def checkTensors : List String → List String → Except Defect Unit
  | _, [] => .ok ()
  | seen, name :: rest =>
    if seen.contains name then .error (.duplicateName name) else checkTensors (name :: seen) rest

/-- A kernel has iterators, and no name stands for two things. -/
def checkNames (kernel : String) (iterators : List (String × Nat)) (tensors : List String) :
    Except Defect Unit := do
  if iterators.isEmpty then throw (.noIterators kernel)
  let seen ← checkIterators [] iterators
  checkTensors seen tensors

/-- An elementwise operation takes as many inputs as its arity. -/
def checkArity (op : ElementwiseOp) (got : Nat) : Except Defect Unit :=
  if got == op.arity then .ok () else .error (.arity op got)

/-- An iterator fits an axis: it runs along no earlier axis and spans the axis length. -/
def checkAxis (tensor : String) (axis dim : Nat) (earlier : List Nat) (index : Nat)
    (iterator : String) (extent : Nat) : Except Defect Unit :=
  if earlier.contains index then .error (.repeatedIterator tensor iterator)
  else if dim != extent then .error (.extentMismatch tensor axis dim iterator extent)
  else .ok ()

/-- The output is not among the tensors read. -/
def checkAliasing (tensors : List Tensor) (s : Statement) : Except Defect Unit :=
  if s.inputs.any (·.tensor == s.output.tensor) then
    match tensors[s.output.tensor]? with
    | some t => .error (.aliasedOutput t.name)
    | none => .ok ()
  else .ok ()

/-- An iterator indexes some operand, and the output as well if the statement is elementwise. -/
def checkUse (s : Statement) (index : Nat) (name : String) (declared : IteratorKind) :
    Except Defect Unit :=
  if !s.uses index then .error (.unusedIterator name)
  else if s.kindOf index != declared then .error (.kindMismatch name declared (s.kindOf index))
  else if s.isElementwise && s.kindOf index == .reduction then .error (.elementwiseReduction name)
  else .ok ()

end Validity

namespace Kernel

open Validity

/-- The axes of an operand from a position on, given the iterators of the axes before. -/
def checkAxes (k : Kernel) (tensor : String) : List Nat → List (Nat × Nat) → Except Defect Unit
  | _, [] => .ok ()
  | earlier, (dim, index) :: rest => do
    match k.iterators[index]? with
    | none => throw (.unknownIterator s!"#{index}")
    | some it => checkAxis tensor earlier.length dim earlier index it.name it.extent
    k.checkAxes tensor (earlier ++ [index]) rest

/-- An operand names a tensor, once per axis an iterator of that length. -/
def checkAccess (k : Kernel) (a : Access) : Except Defect Unit :=
  match k.tensors[a.tensor]? with
  | none => .error (.unknownTensor s!"#{a.tensor}")
  | some t =>
    if t.shape.length != a.indices.length then
      .error (.rankMismatch t.name t.shape.length a.indices.length)
    else
      k.checkAxes t.name [] (t.shape.zip a.indices)

/-- An elementwise statement has the number of inputs its operation takes. -/
def checkInputCount (k : Kernel) : Except Defect Unit :=
  match k.statement with
  | .contraction .. => .ok ()
  | .elementwise op _ inputs => checkArity op inputs.length

/-- The first defect of a kernel, in the order of the checks. Operands, iterators and loops of a
kernel without one fit together. Its runs stay within their buffers, unless its parallel loop has
extent one and ties in stride with a longer loop. -/
def validate (k : Kernel) : Except Defect Unit := do
  checkNames k.name (k.iterators.map fun it => (it.name, it.extent)) (k.tensors.map (·.name))
  k.checkInputCount
  k.statement.accesses.forM k.checkAccess
  checkAliasing k.tensors k.statement
  k.iterators.zipIdx.forM fun (it, i) => checkUse k.statement i it.name it.kind
  match k.checkLegality with
  | .ok () => return ()
  | .error violation => throw (.illegalNest violation)

end Kernel

end NestTuner
