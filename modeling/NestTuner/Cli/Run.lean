import NestTuner.Cli.Help
import NestTuner.Session.Basic

/-!
Running a command line on a host.
-/

namespace NestTuner.Cli

variable {m : Type → Type} [Monad m] [MonadExceptOf Trap m]

/-- Stops with an error of the session. -/
def fail {α : Type} (e : SessionError) : ExceptT SessionError m α :=
  ExceptT.mk (return .error e)

/-- An effect of the host. -/
def perform {α : Type} (action : m α) : ExceptT SessionError m α :=
  ExceptT.lift action

/-- A computation that may trap. -/
def checked {α : Type} (computation : Checked α) : ExceptT SessionError m α :=
  ExceptT.lift (liftExcept computation)

/-- The result of writing a file. -/
def written (action : m (Except FileError Unit)) : ExceptT SessionError m Unit := do
  match ← perform action with
  | .error e => fail (.file e)
  | .ok () => return ()

/-- The line that compares two reports on a function. -/
def deltaLine (function : String) (d : ReportDelta) : String :=
  let changed := if d.historyChanged then "true" else "false"
  s!"Δ @{function}: baseline_ms={Decimal.signedFixed 4 d.baselineMillis} "
    ++ s!"best_ms={Decimal.signedFixed 4 d.bestMillis} "
    ++ s!"speedup={Decimal.signedFixed 3 d.speedup} history_changed={changed}"

/-- Prints what changed since an earlier report, if it is there and on the same function. -/
def printDelta (host : Host m) (report : Report) (path : String) :
    ExceptT SessionError m Unit := do
  if ← perform (host.isPresent path) then
    let previous ← ExceptT.mk (Report.load host path)
    match report.diff? previous with
    | some delta => perform (host.print (deltaLine report.function delta))
    | none => return ()

def runTune (host : Host m) (settings : Settings) (module : Module) (o : TuneOptions) :
    ExceptT SessionError m Unit := do
  let some target := o.target | fail .noTarget
  let session ← ExceptT.mk (return Session.start (o.applyTo settings))
  let (session, tuned) ← perform (session.tune host module target)
  let tuning ← ExceptT.mk (return tuned)
  perform (host.print tuning.report.summary)
  if o.printMlir then
    perform (host.print tuning.artifacts.mlir)
    perform (host.print tuning.artifacts.script)
  match o.baseline with
  | some path => printDelta host tuning.report path
  | none => pure ()
  match o.output with
  | some path => written (tuning.report.save host path)
  | none => pure ()
  ExceptT.mk (session.shutdown host)

/-- The kernel of a target. -/
def located (module : Module) (target : Target) : ExceptT SessionError m Kernel := do
  match target.locate? module with
  | some k => return k
  | none => fail (.unknownTarget target)

def runEmit (host : Host m) (module : Module) (target : Option Target) :
    ExceptT SessionError m Unit := do
  let module ←
    match target with
    | some target => do pure ⟨[← located module target]⟩
    | none => pure module
  perform (host.print (← checked module.mlir))

def runReplay (host : Host m) (settings : Settings) (module : Module) (path : String)
    (script measure : Bool) : ExceptT SessionError m Unit := do
  let report ← ExceptT.mk (Report.load host path)
  let root ← located module (.function report.function)
  match ← checked (Artifacts.ofHistory root report.history) with
  | .error step => fail (.stale step)
  | .ok artifacts =>
    perform (host.print artifacts.mlir)
    if script then perform (host.print artifacts.script)
    if measure then
      match ← perform (Oracle.calibrate (host.machine.cpu false) root settings.measurement) with
      | .error failure => fail (.evaluation failure)
      | .ok oracle =>
        match ← perform (oracle.evaluate artifacts.kernel) with
        | .failed failure => fail (.evaluation failure)
        | .measured cost =>
          perform (host.print (s!"@{report.function}: recorded "
            ++ s!"{Decimal.fixed 4 report.bestMillis} ms, measured {cost.text}"))

/-- Carries out a command: settings first, then the module, then the command itself. -/
def run (host : Host m) (env : Environment) (invocation : Invocation) :
    ExceptT SessionError m Unit := do
  let settings ←
    match invocation.settingsPath with
    | some path => ExceptT.mk (Settings.load host path)
    | none => pure .default
  let settings := settings.overriddenBy env
  let module ←
    match invocation.modulePath with
    | some path => ExceptT.mk (Module.load host path)
    | none => pure .samples
  match invocation.command with
  | .tune options => runTune host settings module options
  | .emitMlir target => runEmit host module target
  | .replay report script measure => runReplay host settings module report script measure

/-- Runs a command line and gives the exit code: one for an error, two for wrong usage. -/
def execute (host : Host m) (env : Environment) (words : List String) : m Nat := do
  match parse words with
  | .error (.help command) =>
    host.print (helpText command)
    return 0
  | .error e =>
    host.complain e.message
    return 2
  | .ok invocation =>
    match ← (run host env invocation).run with
    | .ok () => return 0
    | .error e =>
      host.complain e.trace
      return 1

end NestTuner.Cli
