import NestTuner.Measure.Backend
import NestTuner.Measure.Reduction
import NestTuner.Measure.Tolerance

/-!
Evaluating kernels by running them. An oracle draws its inputs once and, if it verifies, keeps the
output of the root kernel as a reference for all others. Its scope names the backend and the
settings of the measurement; the threads that the backend runs on are not part of it.
-/

namespace NestTuner

/-- Anything that puts a cost on a kernel. -/
structure Evaluator (m : Type → Type) where
  evaluate : Kernel → m Outcome
  /-- Independent kernels may be evaluated at the same time. -/
  reentrant : Bool
  /-- Names the setup that the costs belong to. -/
  scope : String

namespace Evaluator

/-- An evaluator from a function. -/
def ofFunction {m : Type → Type} [Monad m] (f : Kernel → Outcome) : Evaluator m :=
  ⟨fun k => return f k, true, "custom"⟩

end Evaluator

/-- How candidates are measured. -/
structure Measurement where
  warmups : Nat
  repetitions : Nat
  reduction : Reduction
  /-- The limit for one candidate; none without one. -/
  timeoutMillis : Option Nat
  verify : Bool
  tolerance : Tolerance
  seed : Nat

namespace Measurement

def default : Measurement :=
  ⟨1, 5, .min, some 10000, true, .default, 24301⟩

/-- What is wrong with the settings, if anything is. -/
def validate (s : Measurement) : Except String Unit :=
  if s.repetitions == 0 then .error "repetitions must be >= 1"
  else if s.timeoutMillis == some 0 then .error "timeout must be > 0 ms when set"
  else .ok ()

def runOptions (s : Measurement) : RunOptions :=
  ⟨s.warmups, s.repetitions, s.timeoutMillis.map Duration.ofMillis⟩

/-- The options of the run that gives the reference. -/
def referenceOptions (s : Measurement) : RunOptions :=
  ⟨0, 1, s.timeoutMillis.map Duration.ofMillis⟩

/-- The settings in one line, after the name of a backend. -/
def scope (s : Measurement) (backend : String) : String :=
  let verify :=
    if s.verify then
      "abs" ++ Decimal.scientific (.ofFloat32 s.tolerance.absolute) ++ ":rel"
        ++ Decimal.scientific (.ofFloat32 s.tolerance.relative)
    else "noverify"
  let timeout :=
    match s.timeoutMillis with
    | some millis => s!"t{millis}"
    | none => "tnone"
  s!"{backend}:w{s.warmups}:r{s.repetitions}:{s.reduction.scopeText}:seed{s.seed}:"
    ++ verify ++ ":" ++ timeout

def toJson (s : Measurement) : Json :=
  .object [("warmup_runs", .nat s.warmups), ("repetitions", .nat s.repetitions),
    ("reduction", s.reduction.toJson), ("timeout_ms", .ofOption .nat s.timeoutMillis),
    ("verify", .bool s.verify), ("tolerance", s.tolerance.toJson), ("seed", .nat s.seed)]

/-- Settings that are left out take their default. -/
def ofJson? (v : Json) : Option Measurement := do
  let d := default
  let r ← v.record? ["warmup_runs", "repetitions", "reduction", "timeout_ms", "verify",
    "tolerance", "seed"]
  return ⟨← r.defaulted "warmup_runs" d.warmups Json.word?,
    ← r.defaulted "repetitions" d.repetitions Json.word?,
    ← r.defaulted "reduction" d.reduction Reduction.ofJson?,
    ← r.defaulted "timeout_ms" d.timeoutMillis (Json.option? Json.word?),
    ← r.defaulted "verify" d.verify Json.bool?,
    ← r.defaulted "tolerance" d.tolerance Tolerance.ofJson?,
    ← r.defaulted "seed" d.seed Json.word?⟩

end Measurement

structure Oracle (m : Type → Type) where
  backend : Backend m
  settings : Measurement
  inputs : Inputs Float32
  reference : Option (Grid Float32)

namespace Oracle

variable {m : Type → Type} [Monad m] [MonadExceptOf Trap m]

/-- An oracle for a root kernel. -/
def calibrate (backend : Backend m) (root : Kernel) (settings : Measurement) :
    m (Except Failure (Oracle m)) := do
  let inputs ← liftExcept (Inputs.random root settings.seed)
  if settings.verify then
    match ← backend.run root inputs settings.referenceOptions with
    | .error e => return .error e.toFailure
    | .ok execution => return .ok ⟨backend, settings, inputs, some execution.output⟩
  else
    return .ok ⟨backend, settings, inputs, none⟩

/-- Whether an output agrees with the reference, if there is one. -/
def verifyOutput (o : Oracle m) (output : Grid Float32) : Except Failure Unit :=
  match o.reference with
  | none => .ok ()
  | some reference =>
    match o.settings.tolerance.compare reference output with
    | .ok () => .ok ()
    | .error mismatch => .error (.resultMismatch mismatch.message)

/-- The outcome of a kernel that ran. -/
def judge (o : Oracle m) (execution : Execution) : Checked Outcome :=
  match o.verifyOutput execution.output with
  | .error failure => .ok (.failed failure)
  | .ok () => do
    match ← o.settings.reduction.reduce execution.samples with
    | some d => return .measured (.ofDuration d)
    | none => return .failed (.execution "no timed samples")

/-- Runs a kernel on the inputs and judges it. -/
def evaluate (o : Oracle m) (k : Kernel) : m Outcome := do
  if !o.inputs.fits k then
    return .failed (.compilation s!"inputs do not match tensors of `{k.name}`")
  match ← o.backend.run k o.inputs o.settings.runOptions with
  | .error e => return .failed e.toFailure
  | .ok execution => liftExcept (o.judge execution)

def scope (o : Oracle m) : String :=
  o.settings.scope o.backend.name

def evaluator (o : Oracle m) : Evaluator m :=
  ⟨o.evaluate, o.backend.reentrant, o.scope⟩

end Oracle

end NestTuner
