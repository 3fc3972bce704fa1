import NestTuner.Json.Decode
import NestTuner.Measure.Duration

/-!
How timed samples become one duration.
-/

namespace NestTuner

inductive Reduction where
  | min
  | median
  | mean
  deriving DecidableEq

namespace Reduction

/-- The least of a first sample and others. -/
def least : Duration → List Duration → Duration
  | d, [] => d
  | d, e :: rest => least (if e.le d then e else d) rest

/-- The middle sample, or half the sum of the two middle ones. -/
def middle (sorted : List Duration) : Checked (Option Duration) :=
  let half := sorted.length / 2
  if sorted.length % 2 == 0 then
    match sorted[half - 1]?, sorted[half]? with
    | some a, some b => do return some (← (← a.add b).div 2)
    | _, _ => .ok none
  else .ok sorted[half]?

/-- One duration for many. None stands for no samples; a sum out of range traps. A mean divides by
the number of samples in 32 bits. -/
def reduce (r : Reduction) : List Duration → Checked (Option Duration)
  | [] => .ok none
  | d :: rest =>
    match r with
    | min => .ok (some (least d rest))
    | median => middle ((d :: rest).mergeSort Duration.le)
    | mean => do
      let total ← Duration.ofNanos (((d :: rest).map (·.nanos)).foldl (· + ·) 0)
      return some (← total.div (Word.low (rest.length + 1)))

def text : Reduction → String
  | min => "min"
  | median => "median"
  | mean => "mean"

/-- The name in a measurement scope. -/
def scopeText : Reduction → String
  | min => "Min"
  | median => "Median"
  | mean => "Mean"

/-- The reduction of exactly this name. -/
def ofName? : String → Option Reduction
  | "min" => some min
  | "median" => some median
  | "mean" => some mean
  | _ => none

/-- The reduction of a name in letters of either case, or else the name in small letters. -/
def parse (name : String) : Except String Reduction :=
  let small := String.ofList (name.toList.map Char.toLower)
  match ofName? small with
  | some r => .ok r
  | none => .error small

/-- What is said about a name that is no reduction's. -/
def unknownMessage (name : String) : String :=
  s!"unknown reduction `{name}`"

def toJson (r : Reduction) : Json :=
  .string r.text

def ofJson? (v : Json) : Option Reduction :=
  v.choice?.bind ofName?

end Reduction

end NestTuner
