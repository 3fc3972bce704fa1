import NestTuner.Json.Printer
import NestTuner.Json.Reader
import NestTuner.Measure.Oracle
import NestTuner.Search.Result
import NestTuner.Search.Settings

/-!
A report keeps what a search found for one function, so that it can be compared with a later run
and replayed.
-/

namespace NestTuner

structure Report where
  function : String
  tag : Option String
  backend : String
  baselineSchedule : String
  bestSchedule : String
  baselineMillis : Float
  bestMillis : Float
  speedup : Float
  /-- Billions of operations per second of the best; zero for a mere copy. -/
  gflops : Float
  history : List Edit
  trajectory : List Waypoint
  levels : List Level
  stats : Stats
  termination : Termination
  beam : Beam
  measurement : Measurement
  /-- When the report was made. -/
  unixMillis : Nat

/-- What changed between two reports on one function. -/
structure ReportDelta where
  baselineMillis : Float
  bestMillis : Float
  speedup : Float
  historyChanged : Bool

namespace Report

/-- Billions of operations per second of a kernel that takes some time. -/
def throughput (k : Kernel) (millis : Float) : Checked Float :=
  if millis > 0.0 then do return (← k.flops) / (millis * 1.0e6) else return 0.0

def ofResult (root : Kernel) (backend : String) (r : SearchResult) (beam : Beam)
    (measurement : Measurement) (unixMillis : Nat) : Checked Report := do
  return {
    function := root.name, tag := root.tag, backend := backend,
    baselineSchedule := root.summary, bestSchedule := r.bestState.summary,
    baselineMillis := r.baseline.millis, bestMillis := r.bestCost.millis, speedup := r.speedup,
    gflops := ← throughput root r.bestCost.millis, history := r.bestHistory,
    trajectory := r.trajectory, levels := r.levels, stats := r.stats,
    termination := r.termination, beam := beam, measurement := measurement,
    unixMillis := unixMillis }

/-- Compares with an earlier report, if it is on the same function. -/
def diff? (current previous : Report) : Option ReportDelta :=
  if current.function != previous.function then none
  else some {
    baselineMillis := current.baselineMillis - previous.baselineMillis
    bestMillis := current.bestMillis - previous.bestMillis
    speedup := current.speedup - previous.speedup
    historyChanged := current.history != previous.history }

/-- The result in three lines. -/
def summary (r : Report) : String :=
  let history :=
    if r.history.isEmpty then "(identity)"
    else " ; ".intercalate (r.history.map Edit.text)
  s!"@{r.function} on {r.backend}: {Decimal.fixed 4 r.baselineMillis} ms -> "
    ++ s!"{Decimal.fixed 4 r.bestMillis} ms ({Decimal.fixed 2 r.speedup}x, "
    ++ s!"{Decimal.fixed 3 r.gflops} GFLOP/s, {r.termination.summaryText})\n"
    ++ s!"  schedule: {r.bestSchedule}\n  history:  {history}"

open Json

def toJson (r : Report) : Json :=
  .object <| [("function", .string r.function)] ++ memberIfSome "tag" .string r.tag ++
    [("backend", .string r.backend), ("baseline_schedule", .string r.baselineSchedule),
      ("best_schedule", .string r.bestSchedule), ("baseline_ms", .float r.baselineMillis),
      ("best_ms", .float r.bestMillis), ("speedup", .float r.speedup),
      ("best_gflops", .float r.gflops), ("history", ofList Edit.toJson r.history),
      ("trajectory", ofList Waypoint.toJson r.trajectory), ("levels", ofList Level.toJson r.levels),
      ("stats", r.stats.toJson), ("termination", r.termination.toJson), ("beam", r.beam.toJson),
      ("oracle", r.measurement.toJson), ("generated_at_unix_ms", nat r.unixMillis)]

def ofJson? (v : Json) : Option Report := do
  let r ← v.record? ["function", "tag", "backend", "baseline_schedule", "best_schedule",
    "baseline_ms", "best_ms", "speedup", "best_gflops", "history", "trajectory", "levels", "stats",
    "termination", "beam", "oracle", "generated_at_unix_ms"]
  return {
    function := ← r.required "function" string?
    tag := ← r.defaulted "tag" none (option? string?)
    backend := ← r.required "backend" string?
    baselineSchedule := ← r.required "baseline_schedule" string?
    bestSchedule := ← r.required "best_schedule" string?
    baselineMillis := ← r.required "baseline_ms" float?
    bestMillis := ← r.required "best_ms" float?
    speedup := ← r.required "speedup" float?
    gflops := ← r.defaulted "best_gflops" 0.0 float?
    history := ← r.required "history" (list? Edit.ofJson?)
    trajectory := ← r.required "trajectory" (list? Waypoint.ofJson?)
    levels := ← r.required "levels" (list? Level.ofJson?)
    stats := ← r.required "stats" Stats.ofJson?
    termination := ← r.required "termination" Termination.ofJson?
    beam := ← r.required "beam" Beam.ofJson?
    measurement := ← r.required "oracle" Measurement.ofJson?
    unixMillis := ← r.required "generated_at_unix_ms"
      (natBelow? 340282366920938463463374607431768211456) }

/-- The text of a report file. -/
def text (r : Report) : String :=
  r.toJson.pretty

def ofText? (text : String) : Option Report :=
  (Json.parse? text).bind ofJson?

end Report

end NestTuner
