import NestTuner.Session.Host

/-!
A computer in memory. Its clock moves on by a fixed amount at every reading and while kernels run,
and its files and what was printed can be looked at afterwards.
-/

namespace NestTuner

/-- Directories and files by their names. The working directory and the root are always there. -/
structure Disk where
  directories : List (List String)
  files : List (List String × String)

namespace Disk

def empty : Disk := ⟨[], []⟩

def isDirectory (d : Disk) (names : List String) : Bool :=
  names == [] || names == ["/"] || d.directories.contains names

def file? (d : Disk) (names : List String) : Option String :=
  d.files.lookup names

/-- Why nothing is found in a place: some name on the way belongs to a file, or nothing is there. -/
def absence (d : Disk) (names : List String) : FileError :=
  if (Path.segments names).dropLast.any fun above => (d.file? above).isSome then .notDirectory
  else .missing

def read (d : Disk) (path : String) : Except FileError String :=
  let names := Path.names path
  match d.file? names with
  | some text => .ok text
  | none => .error (if d.isDirectory names then .isDirectory else d.absence names)

def write (d : Disk) (path text : String) : Except FileError Disk :=
  let names := Path.names path
  if d.isDirectory names then .error .isDirectory
  else if d.isDirectory names.dropLast then
    .ok { d with files := (names, text) :: d.files.filter (·.1 != names) }
  else .error (d.absence names)

/-- Creates the directories of a list that are missing, until a file stands in the way, at the last
of them or before it. -/
def createAll (d : Disk) : List (List String) → Except FileError Disk
  | [] => .ok d
  | names :: rest =>
    if (d.file? names).isSome then .error (if rest.isEmpty then .occupied else .notDirectory)
    else if d.isDirectory names then createAll d rest
    else createAll { d with directories := names :: d.directories } rest

def createDirectory (d : Disk) (path : String) : Except FileError Disk :=
  d.createAll (Path.segments (Path.names path))

/-- The files in a directory, by their last name. -/
def filesIn (d : Disk) (path : String) : List (String × String) :=
  let directory := Path.names path
  d.files.filterMap fun (names, text) =>
    if names.dropLast == directory then names.getLast?.map fun name => (name, text) else none

end Disk

structure World where
  disk : Disk
  /-- Nanoseconds passed. -/
  time : Nat
  /-- How far one reading moves the clock. -/
  tick : Nat
  /-- Nanoseconds that a run takes on a pool of so many threads, or without a pool. -/
  runTime : Option Nat → Nat
  /-- Why a pool of so many threads cannot be made. -/
  poolError : Nat → Option String
  /-- The lines printed, last first. -/
  printed : List String
  /-- The lines about errors, last first. -/
  complaints : List String

namespace World

/-- Nothing has happened yet. Runs take no time, and pools of any size can be made. -/
def start (tick : Nat) : World :=
  ⟨.empty, 0, tick, fun _ => 0, fun _ => none, [], []⟩

/-- The output printed so far. -/
def output (w : World) : String :=
  String.join (w.printed.reverse.map (· ++ "\n"))

/-- What happens in a world. A trap leaves the world as it is by then. -/
abbrev Action (α : Type) := ExceptT Trap (StateM World) α

/-- Changes the disk. -/
def onDisk (change : Disk → Except FileError Disk) : World.Action (Except FileError Unit) := do
  let w ← get
  match change w.disk with
  | .error e => return .error e
  | .ok disk =>
    set { w with disk := disk }
    return .ok ()

/-- Carries out a computation while time passes. -/
def runner (threads : Option Nat) : Runner World.Action := fun computation => do
  modify fun w => { w with time := w.time + w.runTime threads }
  return computation ()

def machine : Machine World.Action where
  now := do
    let w ← get
    set { w with time := w.time + w.tick }
    return ⟨w.time⟩
  perform := runner none
  pool threads := do
    match (← get).poolError threads with
    | some reason => return .error reason
    | none => return .ok (runner (some threads))

def host : Host World.Action where
  machine := machine
  unixMillis := return 0
  isPresent path := do
    let d := (← get).disk
    return d.isDirectory (Path.names path) || (d.file? (Path.names path)).isSome
  read path := return (← get).disk.read path
  write path text := onDisk (·.write path text)
  createDirectory path := onDisk (·.createDirectory path)
  print line := modify fun w => { w with printed := line :: w.printed }
  complain line := modify fun w => { w with complaints := line :: w.complaints }

end World

end NestTuner
