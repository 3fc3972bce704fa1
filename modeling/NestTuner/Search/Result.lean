import NestTuner.Edit.Codec
import NestTuner.Kernel.Codec
import NestTuner.Legality
import NestTuner.Measure.Outcome

/-!
What a search reports: the counts of every level and of the whole run, the best history with the
path to it, and why the search stopped.
-/

namespace NestTuner

/-- Why a search stopped. -/
inductive Termination where
  | maxDepth
  | emptyFrontier
  | budgetExhausted
  deriving DecidableEq

/-- The counts of one level, and the best cost after it. -/
structure Level where
  depth : Nat
  candidates : Nat
  rejected : Nat
  duplicates : Nat
  defects : Nat
  evaluated : Nat
  failed : Nat
  frontier : Nat
  best : Cost
  elapsedMillis : Float

/-- The counts of a run. The baseline counts as evaluated. -/
structure Stats where
  nodes : Nat
  evaluated : Nat
  failed : Nat
  rejected : Nat
  duplicates : Nat
  defects : Nat
  levels : Nat
  elapsedMillis : Float

namespace Stats

/-- Adds the counts of a level. -/
def absorb (s : Stats) (l : Level) : Stats :=
  { s with
    evaluated := s.evaluated + l.evaluated
    failed := s.failed + l.failed
    rejected := s.rejected + l.rejected
    duplicates := s.duplicates + l.duplicates
    defects := s.defects + l.defects
    levels := s.levels + 1 }

/-- The counts of a run with given levels. -/
def ofLevels (nodes : Nat) (levels : List Level) (elapsedMillis : Float) : Stats :=
  levels.foldl absorb ⟨nodes, 1, 0, 0, 0, 0, 0, elapsedMillis⟩

end Stats

/-- One step on the way to the best node. -/
structure Waypoint where
  depth : Nat
  edit : Option Edit
  cost : Option Cost
  schedule : String

/-- The best of a search. -/
structure SearchResult where
  bestHistory : List Edit
  bestCost : Cost
  baseline : Cost
  bestState : Kernel
  trajectory : List Waypoint
  levels : List Level
  stats : Stats
  termination : Termination

namespace SearchResult

/-- How many times the best is faster than the baseline; one if it takes no time. -/
def speedup (r : SearchResult) : Float :=
  if r.bestCost.millis > 0.0 then r.baseline.millis / r.bestCost.millis else 1.0

def improved (r : SearchResult) : Bool :=
  r.bestCost.lt r.baseline

end SearchResult

/-- Why there is no result. Failures of single candidates do not count. -/
inductive SearchError where
  | baselineFailed (failure : Failure)
  | illegalRoot (violation : Violation)
  | invalidSettings (reason : String)
  | workerPool (reason : String)
  deriving DecidableEq

namespace SearchError

def message : SearchError → String
  | baselineFailed failure => s!"baseline kernel could not be evaluated: {failure.message}"
  | illegalRoot violation => s!"root kernel is not a legal loop nest: {violation.message}"
  | invalidSettings reason => s!"invalid search configuration: {reason}"
  | workerPool reason => s!"failed to start worker pool: {reason}"

/-- The message, and that of the cause behind it. -/
def chain (e : SearchError) : List String :=
  match e with
  | baselineFailed failure => [e.message, failure.message]
  | illegalRoot violation => [e.message, violation.message]
  | invalidSettings _ => [e.message]
  | workerPool _ => [e.message]

end SearchError

open Json

namespace Termination

def text : Termination → String
  | maxDepth => "max-depth"
  | emptyFrontier => "empty-frontier"
  | budgetExhausted => "budget-exhausted"

/-- The name in a summary. -/
def summaryText : Termination → String
  | maxDepth => "MaxDepth"
  | emptyFrontier => "EmptyFrontier"
  | budgetExhausted => "BudgetExhausted"

def toJson (t : Termination) : Json :=
  .string t.text

def ofJson? (v : Json) : Option Termination :=
  match v.choice? with
  | some "max-depth" => some maxDepth
  | some "empty-frontier" => some emptyFrontier
  | some "budget-exhausted" => some budgetExhausted
  | _ => none

end Termination

namespace Level

def toJson (l : Level) : Json :=
  .object [("depth", nat l.depth), ("candidates", nat l.candidates), ("rejected", nat l.rejected),
    ("duplicates", nat l.duplicates), ("legality_defects", nat l.defects),
    ("evaluated", nat l.evaluated), ("failed", nat l.failed), ("frontier", nat l.frontier),
    ("best_cost_ms", l.best.toJson), ("elapsed_ms", .float l.elapsedMillis)]

def ofJson? (v : Json) : Option Level := do
  let r ← v.record? ["depth", "candidates", "rejected", "duplicates", "legality_defects",
    "evaluated", "failed", "frontier", "best_cost_ms", "elapsed_ms"]
  return ⟨← r.required "depth" word?, ← r.required "candidates" word?,
    ← r.required "rejected" word?, ← r.required "duplicates" word?,
    ← r.required "legality_defects" word?, ← r.required "evaluated" word?,
    ← r.required "failed" word?, ← r.required "frontier" word?,
    ← r.required "best_cost_ms" Cost.ofJson?, ← r.required "elapsed_ms" float?⟩

end Level

namespace Stats

def toJson (s : Stats) : Json :=
  .object [("nodes", nat s.nodes), ("evaluated", nat s.evaluated), ("failed", nat s.failed),
    ("rejected", nat s.rejected), ("duplicates", nat s.duplicates),
    ("legality_defects", nat s.defects), ("levels", nat s.levels),
    ("elapsed_ms", .float s.elapsedMillis)]

def ofJson? (v : Json) : Option Stats := do
  let r ← v.record? ["nodes", "evaluated", "failed", "rejected", "duplicates",
    "legality_defects", "levels", "elapsed_ms"]
  return ⟨← r.required "nodes" word?, ← r.required "evaluated" word?,
    ← r.required "failed" word?, ← r.required "rejected" word?, ← r.required "duplicates" word?,
    ← r.required "legality_defects" word?, ← r.required "levels" word?,
    ← r.required "elapsed_ms" float?⟩

end Stats

namespace Waypoint

def toJson (w : Waypoint) : Json :=
  .object <| [("depth", nat w.depth)] ++ memberIfSome "edit" Edit.toJson w.edit ++
    [("cost", ofOption Cost.toJson w.cost), ("schedule", .string w.schedule)]

def ofJson? (v : Json) : Option Waypoint := do
  let r ← v.record? ["depth", "edit", "cost", "schedule"]
  return ⟨← r.required "depth" word?, ← r.defaulted "edit" none (option? Edit.ofJson?),
    ← r.nullable "cost" Cost.ofJson?, ← r.required "schedule" string?⟩

end Waypoint

namespace SearchResult

def toJson (r : SearchResult) : Json :=
  .object [("best_history", ofList Edit.toJson r.bestHistory), ("best_cost", r.bestCost.toJson),
    ("baseline_cost", r.baseline.toJson), ("best_state", r.bestState.toJson),
    ("trajectory", ofList Waypoint.toJson r.trajectory), ("levels", ofList Level.toJson r.levels),
    ("stats", r.stats.toJson), ("termination", r.termination.toJson)]

end SearchResult

end NestTuner
