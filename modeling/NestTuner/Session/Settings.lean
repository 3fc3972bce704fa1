import NestTuner.Json.Printer
import NestTuner.Json.Reader
import NestTuner.Measure.Oracle
import NestTuner.Search.Action
import NestTuner.Search.Settings

/-!
The settings of a session: the beam, the measurement, the actions, and the files that it keeps.
-/

namespace NestTuner

structure Settings where
  beam : Beam
  measurement : Measurement
  actions : List Action
  /-- Threads for the parallel loop inside a kernel. -/
  threads : Option Nat
  /-- Kernels may be timed at the same time. -/
  concurrent : Bool
  cachePath : Option String
  dumpPath : Option String
  validateMlir : Bool

namespace Settings

def default : Settings :=
  ⟨.default, .default, Action.defaults, none, false, none, none, false⟩

/-- What is wrong with the settings, if anything is. -/
def validate (s : Settings) : Except String Unit := do
  s.beam.validate
  s.measurement.validate
  if s.actions.isEmpty then throw "at least one transformation action is required"
  if s.threads == some 0 then throw "executor_threads must be >= 1 when set"

/-- Takes over what an environment says. Parallel evaluation needs concurrent runs. -/
def overriddenBy (s : Settings) (env : Environment) : Settings :=
  let beam := s.beam.overriddenBy env
  { s with beam := beam, concurrent := s.concurrent || beam.evaluation == .parallel }

open Json

def toJson (s : Settings) : Json :=
  .object [("beam", s.beam.toJson), ("oracle", s.measurement.toJson),
    ("actions", Action.listToJson s.actions), ("executor_threads", ofOption nat s.threads),
    ("concurrent_runs", .bool s.concurrent), ("cost_cache", ofOption .string s.cachePath),
    ("dump_dir", ofOption .string s.dumpPath), ("validate_mlir", .bool s.validateMlir)]

/-- Settings that are left out take their default. -/
def ofJson? (v : Json) : Option Settings := do
  let d := default
  let r ← v.record? ["beam", "oracle", "actions", "executor_threads", "concurrent_runs",
    "cost_cache", "dump_dir", "validate_mlir"]
  return ⟨← r.defaulted "beam" d.beam Beam.ofJson?,
    ← r.defaulted "oracle" d.measurement Measurement.ofJson?,
    ← r.defaulted "actions" d.actions Action.listOfJson?,
    ← r.defaulted "executor_threads" d.threads (option? word?),
    ← r.defaulted "concurrent_runs" d.concurrent bool?,
    ← r.defaulted "cost_cache" d.cachePath (option? string?),
    ← r.defaulted "dump_dir" d.dumpPath (option? string?),
    ← r.defaulted "validate_mlir" d.validateMlir bool?⟩

/-- The text of a settings file. -/
def text (s : Settings) : String :=
  s.toJson.pretty

def ofText? (text : String) : Option Settings :=
  (Json.parse? text).bind ofJson?

end Settings

end NestTuner
