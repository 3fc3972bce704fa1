import NestTuner.Measure.Backend

/-!
What a session needs of the computer it runs on: a machine that runs kernels, the date, files and a
place to print to.
-/

namespace NestTuner

/-- Why a file or a directory could not be used. -/
inductive FileError where
  | missing
  | isDirectory
  | notDirectory
  /-- A file is where a directory should come to be. -/
  | occupied
  | notText
  | other (reason : String)
  deriving DecidableEq

namespace FileError

def message : FileError → String
  | missing => "No such file or directory (os error 2)"
  | isDirectory => "Is a directory (os error 21)"
  | notDirectory => "Not a directory (os error 20)"
  | occupied => "File exists (os error 17)"
  | notText => "stream did not contain valid UTF-8"
  | other reason => reason

end FileError

structure Host (m : Type → Type) where
  machine : Machine m
  /-- Milliseconds since 1970. -/
  unixMillis : m Nat
  isPresent : String → m Bool
  read : String → m (Except FileError String)
  /-- Replaces the text of a file whose directory is there. -/
  write : String → String → m (Except FileError Unit)
  /-- Creates a directory and those above it, where they are missing. -/
  createDirectory : String → m (Except FileError Unit)
  /-- Prints a line of output. -/
  print : String → m Unit
  /-- Prints a line about an error. -/
  complain : String → m Unit

namespace Path

/-- The names in a path, without empty ones and dots. A leading slash counts as a name. -/
def names (path : String) : List String :=
  let parts := ((path.toList.splitOn '/').map String.ofList).filter fun part =>
    part != "" && part != "."
  if path.toList.head? == some '/' then "/" :: parts else parts

/-- The initial segments of a path, the path itself last. -/
def segments (names : List String) : List (List String) :=
  (List.range (names.length + 1)).map names.take

/-- A path below a directory, unless it starts at the root. -/
def join (directory path : String) : String :=
  if path.startsWith "/" || directory == "" then path
  else if directory.endsWith "/" then directory ++ path
  else directory ++ "/" ++ path

/-- The names of the directory that a path lies in; none for the root. -/
def parentNames? (path : String) : Option (List String) :=
  match names path with
  | [] => none
  | ["/"] => none
  | parts => some parts.dropLast

/-- A path from its names. -/
def ofNames : List String → String
  | "/" :: rest => "/" ++ "/".intercalate rest
  | parts => "/".intercalate parts

/-- The directory that a path lies in; none for the root. -/
def parent? (path : String) : Option String :=
  (parentNames? path).map ofNames

end Path

namespace Host

variable {m : Type → Type} [Monad m]

/-- Writes a file, and creates its directory if need be. -/
def save (host : Host m) (path text : String) : m (Except FileError Unit) := do
  match Path.parent? path with
  | none => host.write path text
  | some directory =>
    match ← host.createDirectory directory with
    | .error e => return .error e
    | .ok () => host.write path text

end Host

end NestTuner
