import NestTuner.Search.Beam
import NestTuner.Session.Files

/-!
A session tunes kernels one after the other under the same settings. It keeps the costs it learns,
in memory from one kernel to the next and in a file between sessions.
-/

namespace NestTuner

structure Session where
  settings : Settings
  /-- The costs of the kernels tuned so far. -/
  cache : Option Cache

/-- A tuned kernel. -/
structure Tuning where
  root : Kernel
  result : SearchResult
  artifacts : Artifacts
  report : Report

namespace Session

/-- A session with valid settings. -/
def start (settings : Settings) : Except SessionError Session :=
  match settings.validate with
  | .error reason => .error (.search (.invalidSettings reason))
  | .ok () => .ok ⟨settings, none⟩

variable {m : Type → Type} [Monad m]

/-- The cache to go on with: that of the session if its scope is right, else that of the file. -/
def takeCache (host : Host m) (s : Session) (scope : String) : m (Except SessionError Cache) :=
  let stored : m (Except SessionError Cache) :=
    match s.settings.cachePath with
    | some path => Cache.load host path scope
    | none => return .ok (.empty scope)
  match s.cache with
  | some cache => if cache.scope == scope then return .ok cache else stored
  | none => stored

/-- Writes the artifacts of a tuned kernel into a directory. -/
def dump (host : Host m) (directory : String) (root : Kernel) (baseline : String)
    (artifacts : Artifacts) (report : Report) : ExceptT FileError m Unit := do
  let path (ending : String) := Path.join directory (root.name ++ ending)
  ExceptT.mk (host.createDirectory directory)
  ExceptT.mk (host.write (path ".baseline.mlir") baseline)
  ExceptT.mk (host.write (path ".tuned.mlir") artifacts.mlir)
  ExceptT.mk (host.write (path ".transform.mlir") artifacts.script)
  ExceptT.mk (report.save host (path ".report.json"))

variable [MonadExceptOf Trap m]

/-- The oracle for a root, on as many threads as the settings ask for. -/
def calibrate (host : Host m) (settings : Settings) (root : Kernel) :
    m (Except SessionError (Oracle m)) := do
  match ← host.machine.withThreads settings.threads with
  | .error reason => return .error (.noThreads reason)
  | .ok machine =>
    match ← Oracle.calibrate (machine.cpu settings.concurrent) root settings.measurement with
    | .error failure => return .error (.search (.baselineFailed failure))
    | .ok oracle => return .ok oracle

/-- Searches from a root, through the cache. -/
def search (host : Host m) (s : Session) (root : Kernel) :
    m (Session × Except SessionError Exploration) := do
  match ← calibrate host s.settings root with
  | .error e => return (s, .error e)
  | .ok oracle =>
    match ← s.takeCache host oracle.scope with
    | .error e => return ({ s with cache := none }, .error e)
    | .ok cache =>
      let beam := s.settings.beam
      let explored := beam.exploreOn (StateT.lift (host.machine.pool beam.poolSize)) root
        s.settings.actions (Cache.memoise oracle.evaluator) (StateT.lift host.machine.now)
      let (result, cache) ← explored.run cache
      let s := { s with cache := some cache }
      match result with
      | .error e => return (s, .error (.search e))
      | .ok exploration => return (s, .ok exploration)

/-- Replays the best history, reports on it and keeps what it leaves behind. -/
def finish (host : Host m) (settings : Settings) (root : Kernel) (result : SearchResult) :
    m (Except SessionError Tuning) := do
  match ← liftExcept (Artifacts.ofHistory root result.bestHistory) with
  | .error step => return .error (.stale step)
  | .ok artifacts =>
    let report ← liftExcept (Report.ofResult root "cpu" result settings.beam settings.measurement
      (← host.unixMillis))
    let tuning : Tuning := ⟨root, result, artifacts, report⟩
    match settings.dumpPath with
    | none => return .ok tuning
    | some directory =>
      let baseline ← liftExcept (Module.mlir ⟨[root]⟩)
      match ← (dump host directory root baseline artifacts report).run with
      | .error e => return .error (.file e)
      | .ok () => return .ok tuning

/-- Tunes a kernel of a module. -/
def tune (host : Host m) (s : Session) (module : Module) (target : Target) :
    m (Session × Except SessionError Tuning) := do
  match target.locate? module with
  | none => return (s, .error (.unknownTarget target))
  | some root =>
    match ← s.search host root with
    | (s, .error e) => return (s, .error e)
    | (s, .ok exploration) => return (s, ← finish host s.settings root exploration.result)

omit [MonadExceptOf Trap m] in
/-- Writes the cache to its file, if there is one. -/
def shutdown (host : Host m) (s : Session) : m (Except SessionError Unit) := do
  match s.settings.cachePath, s.cache with
  | some path, some cache =>
    match ← cache.save host path with
    | .error e => return .error (.file e)
    | .ok () => return .ok ()
  | _, _ => return .ok ()

end Session

variable {m : Type → Type} [Monad m] [MonadExceptOf Trap m]

/-- Searches from a root with the default actions and measurement but for the repetitions. -/
def Machine.search (machine : Machine m) (root : Kernel) (width depth repetitions : Nat) :
    m (Except SearchError Exploration) := do
  let measurement := { Measurement.default with repetitions := repetitions }
  match measurement.validate with
  | .error reason => return .error (.invalidSettings reason)
  | .ok () =>
    match ← Oracle.calibrate (machine.cpu false) root measurement with
    | .error failure => return .error (.baselineFailed failure)
    | .ok oracle =>
      let beam := { Beam.default with width := width, maxDepth := depth }
      beam.exploreOn (machine.pool beam.poolSize) root Action.defaults oracle.evaluator
        machine.now

end NestTuner
