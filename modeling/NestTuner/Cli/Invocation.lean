import NestTuner.Cli.Options
import NestTuner.Session.Settings
import NestTuner.Session.Target

/-!
The commands and their options. `--config` and `--module` may stand before the command or after it,
where the latter wins.
-/

namespace NestTuner.Cli

/-- The options of `tune`. Those that are given override the settings. -/
structure TuneOptions where
  target : Option Target
  width : Option Nat
  maxDepth : Option Nat
  budgetMillis : Option Nat
  repetitions : Option Nat
  warmups : Option Nat
  reduction : Option Reduction
  noVerify : Bool
  parallel : Bool
  threads : Option Nat
  cachePath : Option String
  dumpPath : Option String
  output : Option String
  baseline : Option String
  printMlir : Bool

inductive Command where
  /-- Searches for a faster schedule of a kernel. -/
  | tune (options : TuneOptions)
  /-- Prints the code of the module, or of one kernel. -/
  | emitMlir (target : Option Target)
  /-- Applies the history of a report again. -/
  | replay (report : String) (script measure : Bool)

structure Invocation where
  settingsPath : Option String
  modulePath : Option String
  command : Command

namespace TuneOptions

def applyTo (o : TuneOptions) (s : Settings) : Settings :=
  let beam :=
    { s.beam with
      width := o.width.getD s.beam.width
      maxDepth := o.maxDepth.getD s.beam.maxDepth
      budgetMillis := o.budgetMillis.or s.beam.budgetMillis
      evaluation := if o.parallel then .parallel else s.beam.evaluation }
  let measurement :=
    { s.measurement with
      repetitions := o.repetitions.getD s.measurement.repetitions
      warmups := o.warmups.getD s.measurement.warmups
      reduction := o.reduction.getD s.measurement.reduction
      verify := s.measurement.verify && !o.noVerify }
  { s with
    beam := beam
    measurement := measurement
    concurrent := s.concurrent || o.parallel
    threads := o.threads.or s.threads
    cachePath := o.cachePath.or s.cachePath
    dumpPath := o.dumpPath.or s.dumpPath }

end TuneOptions

def globalOptions : List (String × Kind) :=
  [("config", .path), ("module", .path)]

def targetOptions : List (String × Kind) :=
  [("function", .text), ("tag", .text)]

def tuneOptions : List (String × Kind) :=
  [("beam-width", .word), ("max-depth", .word), ("time-budget-ms", .word),
    ("repetitions", .word), ("warmup", .word), ("reduction", .reduction), ("no-verify", .flag),
    ("parallel-eval", .flag), ("threads", .word), ("cost-cache", .path), ("dump-dir", .path),
    ("output", .path), ("baseline", .path), ("print-mlir", .flag)]

def replayOptions : List (String × Kind) :=
  [("report", .path), ("script", .flag), ("measure", .flag)]

def commandNames : List String :=
  ["tune", "emit-mlir", "replay", "help"]

def topGrammar : Grammar :=
  ⟨none, globalOptions, commandNames⟩

def Grammar.ofCommand (name : String) (options : List (String × Kind)) : Grammar :=
  ⟨some name, globalOptions ++ options, []⟩

/-- The target of a command; a function and a tag exclude each other. -/
def targetOf (g : Given) : Except UsageError (Option Target) :=
  match g.text? "function", g.text? "tag" with
  | some _, some _ => .error .conflict
  | some name, none => .ok (some (.function name))
  | none, some label => .ok (some (.tag label))
  | none, none => .ok none

/-- Scans the options of a command to the end. -/
def scanCommand (name : String) (options : List (String × Kind)) (words : List String) :
    Except UsageError Given := do
  let (s, _) ← scan (.ofCommand name options) .start words
  return (← s.settle).given

def parseTune (words : List String) : Except UsageError (Given × Command) := do
  let g ← scanCommand "tune" (targetOptions ++ tuneOptions) words
  let target ← targetOf g
  return (g, .tune {
    target := target, width := g.word? "beam-width", maxDepth := g.word? "max-depth",
    budgetMillis := g.word? "time-budget-ms", repetitions := g.word? "repetitions",
    warmups := g.word? "warmup", reduction := g.reduction? "reduction",
    noVerify := g.has "no-verify", parallel := g.has "parallel-eval",
    threads := g.word? "threads", cachePath := g.text? "cost-cache",
    dumpPath := g.text? "dump-dir", output := g.text? "output", baseline := g.text? "baseline",
    printMlir := g.has "print-mlir" })

def parseEmit (words : List String) : Except UsageError (Given × Command) := do
  let g ← scanCommand "emit-mlir" targetOptions words
  return (g, .emitMlir (← targetOf g))

def parseReplay (words : List String) : Except UsageError (Given × Command) := do
  let g ← scanCommand "replay" replayOptions words
  match g.text? "report" with
  | none => throw .missingOption
  | some report => return (g, .replay report (g.has "script") (g.has "measure"))

/-- Asks for help on a command, or on all. -/
def parseHelp : List String → UsageError
  | [] => .help none
  | [word] => if commandNames.contains word then .help (some word) else .unknownCommand
  | _ => .unknownCommand

/-- Parses the words of a command line. -/
def parse (words : List String) : Except UsageError Invocation := do
  let (top, found) ← scan topGrammar .start words
  match found with
  | none =>
    let top ← top.settle
    throw (if top.given.isEmpty then .noArguments else .missingCommand)
  | some (name, rest) =>
    let (g, command) ←
      match name with
      | "tune" => parseTune rest
      | "emit-mlir" => parseEmit rest
      | "replay" => parseReplay rest
      | _ => throw (parseHelp rest)
    let outer := (← top.settle).given
    return ⟨(g.text? "config").or (outer.text? "config"),
      (g.text? "module").or (outer.text? "module"), command⟩

end NestTuner.Cli
