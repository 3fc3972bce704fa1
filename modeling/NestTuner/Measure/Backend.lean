import NestTuner.Measure.Outcome
import NestTuner.Plan.Run

/-!
A backend compiles a kernel, runs it a number of times and reports the time of each run and the
output. What a run does beyond computing, such as reading a clock, is an effect; the monad is a
parameter in which a trap can be thrown.
-/

namespace NestTuner

structure RunOptions where
  warmups : Nat
  repetitions : Nat
  timeout : Option Duration

namespace RunOptions

def default : RunOptions := ⟨1, 5, none⟩

end RunOptions

/-- The time of each measured run, and the output. -/
structure Execution where
  samples : List Duration
  output : Grid Float32

inductive ExecutionError where
  | compile (reason : String)
  | runtime (reason : String)
  | timeout (limit : Duration)
  deriving DecidableEq

namespace ExecutionError

def message : ExecutionError → String
  | compile reason => s!"compile error: {reason}"
  | runtime reason => s!"runtime error: {reason}"
  | timeout limit => s!"timed out after {limit.text}"

/-- The failure of an evaluation that ends in an error. -/
def toFailure : ExecutionError → Failure
  | compile reason => .compilation reason
  | runtime reason => .execution reason
  | timeout limit => .timeout limit.millis

end ExecutionError

structure Backend (m : Type → Type) where
  name : String
  /-- Independent kernels may run at the same time. -/
  reentrant : Bool
  run : Kernel → Inputs Float32 → RunOptions → m (Except ExecutionError Execution)

/-- A way to carry out a computation at a moment. -/
def Runner (m : Type → Type) : Type :=
  (Unit → Except Plan.RunError (Grid Float32)) → m (Except Plan.RunError (Grid Float32))

/-- A clock, and ways to carry out a computation. -/
structure Machine (m : Type → Type) where
  now : m Duration
  /-- On the threads that are there. -/
  perform : Runner m
  /-- On a new pool of so many threads, the usual number for zero; or why there is no pool. -/
  pool : Nat → m (Except String (Runner m))

/-- The error of a run. A trap while planning is thrown. -/
def Plan.RunError.toError : Plan.RunError → Checked ExecutionError
  | .noPlan (.trapped trap) => .error trap
  | .noPlan e => .ok (.compile e.message)
  | .missingInput tensor => .ok (.runtime s!"missing input tensor {tensor}")
  | .trapped kernel => .ok (.runtime s!"kernel `{kernel}` trapped")

namespace Machine

variable {m : Type → Type} [Monad m]

/-- The machine that carries out its computations on a pool of its own, if a number of threads is
given. -/
def withThreads (machine : Machine m) (threads : Option Nat) :
    m (Except String (Machine m)) := do
  match threads with
  | none => return .ok machine
  | some n =>
    match ← machine.pool n with
    | .error reason => return .error reason
    | .ok runner => return .ok { machine with perform := runner }

/-- One run within a time limit counted from `start`, with its duration. -/
def runOnce (machine : Machine m) (p : Plan) (inputs : Inputs Float32) (start : Duration)
    (timeout : Option Duration) :
    m (Except (Plan.RunError ⊕ Duration) (Duration × Grid Float32)) := do
  let begun ← machine.now
  match ← machine.perform fun _ => p.runOn .single inputs with
  | .error e => return .error (.inl e)
  | .ok output =>
    let ended ← machine.now
    let elapsed ← machine.now
    match timeout with
    | some limit =>
      if (elapsed.since start).le limit then return .ok (ended.since begun, output)
      else return .error (.inr limit)
    | none => return .ok (ended.since begun, output)

/-- `n` runs in turn, with the durations so far in reverse. -/
def runRepeatedly (machine : Machine m) (p : Plan) (inputs : Inputs Float32) (start : Duration)
    (timeout : Option Duration) : Nat → List Duration → Option (Grid Float32) →
    m (Except (Plan.RunError ⊕ Duration) (List Duration × Option (Grid Float32)))
  | 0, samples, output => return .ok (samples.reverse, output)
  | n + 1, samples, _ => do
    match ← machine.runOnce p inputs start timeout with
    | .error e => return .error e
    | .ok (sample, output) =>
      machine.runRepeatedly p inputs start timeout n (sample :: samples) (some output)

/-- Warm-up runs, then the measured runs, at least one. -/
def measure (machine : Machine m) (p : Plan) (inputs : Inputs Float32) (options : RunOptions)
    (start : Duration) : m (Except (Plan.RunError ⊕ Duration) Execution) := do
  match ← machine.runRepeatedly p inputs start options.timeout options.warmups [] none with
  | .error e => return .error e
  | .ok _ =>
    let repetitions := if options.repetitions == 0 then 1 else options.repetitions
    match ← machine.runRepeatedly p inputs start options.timeout repetitions [] none with
    | .error e => return .error e
    | .ok (samples, some output) => return .ok ⟨samples, output⟩
    | .ok (_, none) => return .error (.inl (.trapped p.name))

/-- The backend that interprets plans on the machine at hand. -/
def cpu [MonadExceptOf Trap m] (machine : Machine m) (concurrent : Bool) : Backend m where
  name := "cpu"
  reentrant := concurrent
  run k inputs options := do
    let start ← machine.now
    match Plan.compile k with
    | .error e => return .error (← liftExcept (Plan.RunError.noPlan e).toError)
    | .ok p =>
      match ← machine.measure p inputs options start with
      | .error (.inl e) => return .error (← liftExcept e.toError)
      | .error (.inr limit) => return .error (.timeout limit)
      | .ok execution => return .ok execution

end Machine

end NestTuner
