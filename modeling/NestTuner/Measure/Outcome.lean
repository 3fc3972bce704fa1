import NestTuner.Json.Decode
import NestTuner.Measure.Duration

/-!
The outcome of evaluating a kernel: a cost in milliseconds, lower being better, or a failure. Costs
are kept by their bits and ordered totally: negative numbers come before positive ones, and what is
not a number comes last, or first if its sign is set.
-/

namespace NestTuner

structure Cost where
  bits : UInt64
  deriving DecidableEq

namespace Cost

def ofMillis (x : Float) : Cost :=
  ⟨x.toBits⟩

def ofDuration (d : Duration) : Cost :=
  ofMillis d.toMillis

def millis (c : Cost) : Float :=
  Float.ofBits c.bits

/-- The place of a cost in the order. -/
def rank (c : Cost) : Int :=
  if c.bits.toNat < 9223372036854775808 then c.bits.toNat
  else 9223372036854775807 - (c.bits.toNat : Int)

def lt (a b : Cost) : Bool :=
  a.rank < b.rank

def le (a b : Cost) : Bool :=
  a.rank ≤ b.rank

def text (c : Cost) : String :=
  Decimal.fixed 4 c.millis ++ " ms"

def toJson (c : Cost) : Json :=
  .float c.millis

def ofJson? (v : Json) : Option Cost :=
  v.float?.map ofMillis

end Cost

/-- Why a kernel has no cost. -/
inductive Failure where
  | compilation (reason : String)
  | execution (reason : String)
  | timeout (millis : Nat)
  | resultMismatch (reason : String)
  deriving DecidableEq

namespace Failure

def message : Failure → String
  | compilation reason => s!"compilation failed: {reason}"
  | execution reason => s!"execution failed: {reason}"
  | timeout millis => s!"timed out after {millis} ms"
  | resultMismatch reason => s!"output differs from reference: {reason}"

def toJson : Failure → Json
  | compilation reason => .object [("kind", .string "compilation"), ("detail", .string reason)]
  | execution reason => .object [("kind", .string "execution"), ("detail", .string reason)]
  | timeout millis => .object [("kind", .string "timeout"), ("detail", .nat millis)]
  | resultMismatch reason =>
    .object [("kind", .string "result-mismatch"), ("detail", .string reason)]

def ofJson? (v : Json) : Option Failure := do
  let r ← v.record? ["kind", "detail"]
  match ← r.required "kind" Json.choice? with
  | "compilation" => return compilation (← r.required "detail" Json.string?)
  | "execution" => return execution (← r.required "detail" Json.string?)
  | "timeout" => return timeout (← r.required "detail" Json.word?)
  | "result-mismatch" => return resultMismatch (← r.required "detail" Json.string?)
  | _ => none

end Failure

inductive Outcome where
  | measured (cost : Cost)
  | failed (failure : Failure)
  deriving DecidableEq

namespace Outcome

def cost? : Outcome → Option Cost
  | measured cost => some cost
  | failed _ => none

def isFailed : Outcome → Bool
  | measured _ => false
  | failed _ => true

def toJson : Outcome → Json
  | measured cost => .object [("Ok", cost.toJson)]
  | failed failure => .object [("Err", failure.toJson)]

def ofJson? (v : Json) : Option Outcome := do
  match ← v.choiceWith? with
  | ("Ok", content) => return measured (← Cost.ofJson? content)
  | ("Err", content) => return failed (← Failure.ofJson? content)
  | _ => none

end Outcome

end NestTuner
