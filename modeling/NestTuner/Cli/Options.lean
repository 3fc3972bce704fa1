import NestTuner.Measure.Reduction
import NestTuner.Search.Settings

/-!
Options of a command line. An option is written `--name`, and its value follows as the next word or
after an equals sign. A value that is read as a word of its own is looked at only when the next
option comes, or at the end.
-/

namespace NestTuner.Cli

/-- What is wrong with a command line, or that help was asked for. -/
inductive UsageError where
  | invalidValue
  | missingValue
  | needlessValue
  | unknownArgument
  | conflict
  | missingOption
  | unknownCommand
  | missingCommand
  /-- Help on a command, or on all of them. -/
  | help (command : Option String)
  | noArguments
  deriving DecidableEq

/-- What an option takes. -/
inductive Kind where
  | flag
  | text
  | path
  | word
  | reduction
  deriving DecidableEq

inductive Value where
  | set
  | text (value : String)
  | word (value : Nat)
  | reduction (value : Reduction)
  deriving DecidableEq

/-- The options of a command, or of those before any command, and the commands that may follow. -/
structure Grammar where
  command : Option String
  options : List (String × Kind)
  commands : List String

/-- Options with their values. -/
abbrev Given := List (String × Value)

namespace Given

def text? (g : Given) (name : String) : Option String :=
  match g.lookup name with
  | some (.text value) => some value
  | _ => none

def word? (g : Given) (name : String) : Option Nat :=
  match g.lookup name with
  | some (.word value) => some value
  | _ => none

def reduction? (g : Given) (name : String) : Option Reduction :=
  match g.lookup name with
  | some (.reduction value) => some value
  | _ => none

def has (g : Given) (name : String) : Bool :=
  (g.lookup name).isSome

end Given

/-- Reads a value. A path may not be empty. -/
def Kind.read (kind : Kind) (s : String) : Except UsageError Value :=
  match kind with
  | flag => .error .needlessValue
  | text => .ok (.text s)
  | path => if s == "" then .error .missingValue else .ok (.text s)
  | word =>
    match Text.word? s with
    | some n => .ok (.word n)
    | none => .error .invalidValue
  | reduction =>
    match Reduction.parse s with
    | .ok r => .ok (.reduction r)
    | .error _ => .error .invalidValue

/-- An option that waits for its value, or for its value to be read. -/
structure Pending where
  name : String
  kind : Kind
  value : Option String

/-- A command line as far as it was scanned. -/
structure Scan where
  given : Given
  pending : Option Pending

namespace Scan

def start : Scan := ⟨[], none⟩

/-- Waits for a value. -/
def awaits (s : Scan) : Bool :=
  s.pending.any fun p => p.value.isNone

/-- Adds an option; none may come twice. -/
def add (s : Scan) (name : String) (kind : Kind) (value : String) : Except UsageError Scan := do
  if s.given.has name then throw .conflict
  return { s with given := s.given ++ [(name, ← kind.read value)] }

/-- Settles the option that is pending. -/
def settle (s : Scan) : Except UsageError Scan :=
  match s.pending with
  | none => .ok s
  | some ⟨_, _, none⟩ => .error .missingValue
  | some ⟨name, kind, some value⟩ => { s with pending := none }.add name kind value

/-- Takes an option, with the value attached to it if there is one. -/
def takeOption (g : Grammar) (s : Scan) (name : String) (attached : Option String) :
    Except UsageError Scan := do
  match g.options.lookup name, attached with
  | none, some _ => throw (if name == "help" then .needlessValue else .unknownArgument)
  | none, none =>
    if name != "help" then throw .unknownArgument
    let _ ← s.settle
    throw (.help g.command)
  | some .flag, some _ => throw .needlessValue
  | some .flag, none =>
    let s ← s.settle
    if s.given.has name then throw .conflict
    return { s with given := s.given ++ [(name, .set)] }
  | some kind, some value => (← s.settle).add name kind value
  | some kind, none => return { ← s.settle with pending := some ⟨name, kind, none⟩ }

end Scan

/-- The name of a long option, and what follows its equals sign. -/
def splitOption (word : String) : String × Option String :=
  let body := word.toList.drop 2
  let name := body.takeWhile (· != '=')
  match body.dropWhile (· != '=') with
  | [] => (String.ofList name, none)
  | _ :: value => (String.ofList name, some (String.ofList value))

/-- The error of a word that is neither an option nor a value. -/
def Grammar.strayWord (g : Grammar) : UsageError :=
  if g.commands.isEmpty then .unknownArgument else .unknownCommand

/-- The words after a double dash; there is no place for any. -/
def afterDashes (g : Grammar) (s : Scan) : List String → Except UsageError Scan
  | [] => .ok s
  | word :: _ => .error (if g.commands.contains word then .unknownArgument else g.strayWord)

/-- Scans up to the first command, and gives it with the words after it. -/
def scan (g : Grammar) (s : Scan) : List String →
    Except UsageError (Scan × Option (String × List String))
  | [] => .ok (s, none)
  | word :: rest => do
    if !s.awaits && g.commands.contains word then return (s, some (word, rest))
    else if word == "--" then return (← afterDashes g s rest, none)
    else if word.startsWith "--" then
      let (name, attached) := splitOption word
      scan g (← s.takeOption g name attached) rest
    else if word.startsWith "-h" then
      let _ ← s.settle
      throw (.help g.command)
    else if word.startsWith "-" && word != "-" then throw .unknownArgument
    else
      match s.pending with
      | some ⟨name, kind, none⟩ => scan g { s with pending := some ⟨name, kind, some word⟩ } rest
      | _ => throw g.strayWord

end NestTuner.Cli
