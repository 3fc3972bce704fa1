import NestTuner.Mlir.Op

/-!
A kernel as a function over memory references. Constants come first, then the loops of the nest,
inside them the value of every iterator and the statement, and the ends of the loops. A kernel whose
operands point outside its tables traps.
-/

namespace NestTuner

/-- Adds a number to an ascending list that does not hold it. -/
def insertAscending (n : Nat) : List Nat → List Nat
  | [] => [n]
  | m :: rest =>
    if n < m then n :: m :: rest else if n == m then m :: rest else m :: insertAscending n rest

namespace Mlir

/-- The term that a loop adds to its iterator, and the instruction that computes it. -/
def term (position : Nat) (l : Loop) : Value × List Op :=
  if l.stride == 1 then (.index position, [])
  else (.scaled position, [.muli (.scaled position) (.index position) (.const l.stride)])

/-- Adds terms to a value, numbering the partial sums from `n`. -/
def sumFrom (iterator : Nat) : Nat → Value → List Value → Value × List Op
  | _, value, [] => (value, [])
  | n, value, t :: rest =>
    let partialSum := Value.partialSum iterator n
    let (total, ops) := sumFrom iterator (n + 1) partialSum rest
    (total, .addi partialSum value t :: ops)

/-- The value of an iterator, and the instructions that compute it. -/
def iteratorValue (n : Nest) (iterator : Nat) : Value × List Op :=
  let terms := (n.loops.zipIdx.filter (·.1.iterator == iterator)).map fun (l, i) => term i l
  let scaling := terms.flatMap (·.2)
  match terms.map (·.1) with
  | [] => (.const 0, scaling)
  | first :: rest =>
    let (total, ops) := sumFrom iterator 1 first rest
    (total, scaling ++ ops)

/-- The element that an operand selects at given iterator values. -/
def element (k : Kernel) (values : List Value) (a : Access) : Checked Element := do
  let subscripts ← a.indices.mapM (Checked.get values)
  return ⟨a.tensor, ← Checked.get k.tensors a.tensor, subscripts⟩

/-- The statement at given iterator values. -/
def statementOps (k : Kernel) (values : List Value) : Checked (List Op) := do
  let type := (← k.outputTensor).element
  let output ← element k values k.statement.output
  match k.statement with
  | .contraction _ lhs rhs =>
    return [.load .lhs (← element k values lhs), .load .rhs (← element k values rhs),
      .load .acc output, .mulf .prod .lhs .rhs type, .addf .sum .acc .prod type,
      .store .sum output]
  | .elementwise op _ inputs =>
    let sources ← inputs.mapM (element k values)
    let loads := sources.mapIdx fun n source => Op.load (.input n) source
    match op with
    | .copy => return loads ++ [.store (.input 0) output]
    | .add => return loads ++ [.addf .res (.input 0) (.input 1) type, .store .res output]
    | .mul => return loads ++ [.mulf .res (.input 0) (.input 1) type, .store .res output]

/-- The index constants of a nest in ascending order. -/
def constants (n : Nest) : List Nat :=
  (n.loops.flatMap fun l => [l.extent, l.stride]).foldl (fun cs c => insertAscending c cs) [0, 1]

/-- The instructions of a function. -/
def ops (k : Kernel) : Checked (List Op) := do
  let values := (List.range k.iterators.length).map (iteratorValue k.nest)
  let statement ← statementOps k (values.map (·.1))
  return (constants k.nest).map .constant
    ++ k.nest.loops.mapIdx (fun i l => .enter i l.extent l.parallel)
    ++ values.flatMap (·.2) ++ statement
    ++ k.nest.loops.reverse.map (fun l => .leave l.vectorWidth)

/-- The head of a function: its arguments and its schedule. -/
def header (k : Kernel) : String :=
  let arguments := ", ".intercalate (k.tensors.mapIdx fun i t => s!"%arg{i}: {t.memref}")
  s!"  func.func @{k.name}({arguments}) attributes "
    ++ s!"\x7blooptune.schedule = \"{k.summary}\"\x7d \x7b\n"

/-- The text of a function. -/
def function (k : Kernel) : Checked String := do
  return header k ++ lines 2 (← ops k) ++ "    return\n  \x7d\n"

/-- The text of a module. -/
def moduleText (kernels : List Kernel) : Checked String := do
  return "module \x7b\n" ++ String.join (← kernels.mapM function) ++ "\x7d\n"

end Mlir

end NestTuner
