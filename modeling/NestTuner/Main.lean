import NestTuner.Cli.Run
import Std.Time.DateTime.Timestamp

/-!
The command line on the computer at hand.
-/

namespace NestTuner

/-- Effects of the computer, any of which may end in a trap. -/
abbrev Live := ExceptT Trap IO

namespace Live

def fileError : IO.Error → FileError
  | .noFileOrDirectory .. => .missing
  | .alreadyExists .. => .occupied
  | .inappropriateType _ code _ => if code == 21 then .isDirectory else .notDirectory
  | e => .other (toString e)

/-- Runs an action on files. -/
def attempt {α : Type} (action : IO α) : Live (Except FileError α) := ExceptT.lift do
  try return .ok (← action)
  catch e => return .error (fileError e)

/-- The text of a file. -/
def readText (path : String) : Live (Except FileError String) := do
  match ← attempt (IO.FS.readBinFile path) with
  | .error e => return .error e
  | .ok bytes =>
    match String.fromUTF8? bytes with
    | some text => return .ok text
    | none => return .error .notText

/-- Carries out a computation in the thread at hand, whatever the number of threads. -/
def inPlace : Runner Live := fun computation =>
  ExceptT.lift (IO.lazyPure computation)

def host : Host Live where
  machine :=
    { now := do return ⟨← IO.monoNanosNow⟩
      perform := inPlace
      pool := fun _ => return .ok inPlace }
  unixMillis := do return (← Std.Time.Timestamp.now).toMillisecondsSinceUnixEpoch.toInt.toNat
  isPresent path := do
    match ← attempt (IO.FS.Handle.mk path .read) with
    | .error .missing => return false
    | _ => return true
  read := readText
  write path text := attempt (IO.FS.writeFile path text)
  createDirectory path := attempt (do if path != "" then IO.FS.createDirAll path)
  print line := ExceptT.lift (IO.println line)
  complain line := ExceptT.lift (IO.eprintln line)

/-- The variables that settings look at. -/
def environment : IO Environment := do
  let names := ["LOOPTUNE_BEAM_WIDTH", "LOOPTUNE_MAX_DEPTH", "LOOPTUNE_TIME_BUDGET_MS",
    "LOOPTUNE_PARALLEL_EVAL"]
  names.filterMapM fun name => do return (← IO.getEnv name).map ((name, ·))

end Live

end NestTuner

def main (words : List String) : IO UInt32 := do
  let env ← NestTuner.Live.environment
  match ← (NestTuner.Cli.execute NestTuner.Live.host env words).run with
  | .ok code => return UInt32.ofNat code
  | .error _ =>
    IO.eprintln "arithmetic out of range"
    return 101
