import NestTuner.Kernel.Basic

/-!
The instructions of an emitted function. Values have structured names, so that what an instruction
defines and uses can be read off without a look at its text.
-/

namespace NestTuner.Mlir

/-- The names of values. -/
inductive Value where
  /-- An index constant. -/
  | const (n : Nat)
  /-- The index of the loop at a position. -/
  | index (loop : Nat)
  /-- That index times the stride of the loop. -/
  | scaled (loop : Nat)
  /-- The sum of the first `n + 1` terms of an iterator. -/
  | partialSum (iterator n : Nat)
  | lhs
  | rhs
  | acc
  | prod
  | sum
  /-- An input of an elementwise statement. -/
  | input (n : Nat)
  | res
  deriving DecidableEq

namespace Value

def text : Value → String
  | const n => s!"%c{n}"
  | index loop => s!"%l{loop}"
  | scaled loop => s!"%t{loop}"
  | partialSum iterator n => s!"%iv{iterator}_{n}"
  | lhs => "%lhs"
  | rhs => "%rhs"
  | acc => "%acc"
  | prod => "%prod"
  | sum => "%sum"
  | input n => s!"%in{n}"
  | res => "%res"

end Value

/-- An element of a tensor: the argument that holds it and a value along each axis. -/
structure Element where
  argument : Nat
  tensor : Tensor
  subscripts : List Value
  deriving DecidableEq

namespace Element

def text (e : Element) : String :=
  s!"%arg{e.argument}[" ++ ", ".intercalate (e.subscripts.map Value.text) ++ "] : "
    ++ e.tensor.memref

end Element

inductive Op where
  | constant (n : Nat)
  /-- Opens a loop from zero below a constant, by steps of one. -/
  | enter (loop extent : Nat) (parallel : Bool)
  /-- Closes the loop opened last. -/
  | leave (vectorWidth : Option Nat)
  | muli (result a b : Value)
  | addi (result a b : Value)
  | load (result : Value) (source : Element)
  | mulf (result a b : Value) (type : ElementType)
  | addf (result a b : Value) (type : ElementType)
  | store (value : Value) (target : Element)
  deriving DecidableEq

namespace Op

def text : Op → String
  | constant n => s!"%c{n} = arith.constant {n} : index"
  | enter loop extent true =>
    s!"scf.parallel (%l{loop}) = (%c0) to (%c{extent}) step (%c1) \x7b"
  | enter loop extent false => s!"scf.for %l{loop} = %c0 to %c{extent} step %c1 \x7b"
  | leave none => "\x7d"
  | leave (some width) => s!"\x7d \x7blooptune.vector_width = {width} : i64\x7d"
  | muli result a b => s!"{result.text} = arith.muli {a.text}, {b.text} : index"
  | addi result a b => s!"{result.text} = arith.addi {a.text}, {b.text} : index"
  | load result source => s!"{result.text} = memref.load {source.text}"
  | mulf result a b type => s!"{result.text} = arith.mulf {a.text}, {b.text} : {type.text}"
  | addf result a b type => s!"{result.text} = arith.addf {a.text}, {b.text} : {type.text}"
  | store value target => s!"memref.store {value.text}, {target.text}"

/-- The level of the lines after an instruction at a level. -/
def levelAfter (level : Nat) : Op → Nat
  | enter .. => level + 1
  | leave .. => level - 1
  | _ => level

/-- The level at which an instruction stands: a closing line is one level out. -/
def ownLevel (level : Nat) : Op → Nat
  | leave .. => level - 1
  | _ => level

end Op

/-- Lines with two blanks for each level and a line end. -/
def lines : Nat → List Op → String
  | _, [] => ""
  | level, op :: rest =>
    String.ofList (List.replicate (2 * op.ownLevel level) ' ') ++ op.text ++ "\n"
      ++ lines (op.levelAfter level) rest

end NestTuner.Mlir
