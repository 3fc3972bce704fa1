/-!
Sizes are natural numbers kept within 64 bits. An operation whose result leaves that range, a
look-up past the end of a table, or a division by zero traps: the trap is an ordinary value that
callers pass on.
-/

namespace NestTuner

/-- Why a computation stopped at a limit of the machine. -/
inductive Trap where
  | overflow
  | outOfRange
  | zeroDivisor
  deriving DecidableEq

/-- A computation that may trap. -/
abbrev Checked (α : Type) := Except Trap α

/-- The entry at a position, or a trap past the end. -/
def Checked.get {α : Type} (xs : List α) (i : Nat) : Checked α :=
  match xs[i]? with
  | some x => .ok x
  | none => .error .outOfRange

/-- Replaces the entry at a position, or traps past the end. -/
def Checked.set {α : Type} (xs : List α) (i : Nat) (x : α) : Checked (List α) :=
  if i < xs.length then .ok (xs.set i x) else .error .outOfRange

/-- Puts an entry in at a position, or traps past the end. -/
def Checked.insert {α : Type} (xs : List α) (i : Nat) (x : α) : Checked (List α) :=
  if i ≤ xs.length then .ok (xs.insertIdx i x) else .error .outOfRange

namespace Word

/-- The number of values that fit into 64 bits. -/
def count : Nat := 18446744073709551616

/-- The largest value. -/
def largest : Nat := 18446744073709551615

/-- The part of a value that fits into 32 bits. -/
def low (a : Nat) : Nat :=
  a % 4294967296

/-- A sum that traps when it leaves the range. -/
def add (a b : Nat) : Checked Nat :=
  if a + b < count then .ok (a + b) else .error .overflow

/-- A product that traps when it leaves the range. -/
def mul (a b : Nat) : Checked Nat :=
  if a * b < count then .ok (a * b) else .error .overflow

/-- A product cut off at the largest value. -/
def saturatingMul (a b : Nat) : Nat :=
  if a * b < count then a * b else largest

/-- The product of a list, taken from the left. A partial product out of range traps, also when a
later factor is zero. -/
def product (xs : List Nat) : Checked Nat :=
  xs.foldlM mul 1

end Word

end NestTuner
