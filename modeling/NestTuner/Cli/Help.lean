import NestTuner.Cli.Invocation

/-!
The texts of the command line: help on the commands, and what is said about a command line that
cannot be used.
-/

namespace NestTuner.Cli

/-- A column of names, and beside it what they stand for. -/
def table (rows : List (String × String)) : List String :=
  let width := rows.foldl (fun n (name, _) => if n < name.length then name.length else n) 0
  rows.map fun (name, meaning) =>
    if meaning == "" then "  " ++ name
    else
      let gap := String.ofList (List.replicate (width - name.length) ' ')
      "  " ++ name ++ gap ++ "  " ++ meaning

/-- An option with the name of its value. -/
def valued (name value : String) : String :=
  s!"    --{name} <{value}>"

/-- An option without a value. -/
def plainFlag (name : String) : String :=
  s!"    --{name}"

def configRow : String × String :=
  (valued "config" "CONFIG", "Driver config (JSON). Environment and flags override it")

def moduleRow : String × String :=
  (valued "module" "MODULE", "Kernel module (JSON). The built-in sample module when omitted")

def functionRow : String × String :=
  (valued "function" "FUNCTION", "Function to operate on")

def tagRow : String × String :=
  (valued "tag" "TAG", "Pick the first kernel carrying this tag instead")

def helpRow : String × String :=
  ("-h, --help", "Print help")

def commandRows : List (String × String) :=
  [("tune", "Search for a faster schedule of one kernel"),
    ("emit-mlir", "Emit the MLIR of the module, or of a single kernel"),
    ("replay", "Re-apply the history recorded in a tuning report"),
    ("help", "Print this message or the help of the given subcommand(s)")]

def tuneRows : List (String × String) :=
  [configRow, functionRow, moduleRow, tagRow, (valued "beam-width" "BEAM_WIDTH", ""),
    (valued "max-depth" "MAX_DEPTH", ""), (valued "time-budget-ms" "TIME_BUDGET_MS", ""),
    (valued "repetitions" "REPETITIONS", ""), (valued "warmup" "WARMUP", ""),
    (valued "reduction" "REDUCTION", ""),
    (plainFlag "no-verify", "Skip comparing candidate outputs with the baseline output"),
    (plainFlag "parallel-eval", "Evaluate the candidates of a level concurrently"),
    (valued "threads" "THREADS", "Threads for parallel loops inside a candidate"),
    (valued "cost-cache" "COST_CACHE", ""),
    (valued "dump-dir" "DUMP_DIR",
      "Directory for baseline/tuned MLIR, transform script and report"),
    (valued "output" "OUTPUT", "Write the tuning report here"),
    (valued "baseline" "BASELINE", "Earlier report to diff against"),
    (plainFlag "print-mlir", ""), helpRow]

def emitRows : List (String × String) :=
  [configRow, functionRow, moduleRow, tagRow, helpRow]

def replayRows : List (String × String) :=
  [configRow, (valued "report" "REPORT", ""), moduleRow,
    (plainFlag "script", "Print the transform script as well as the tuned MLIR"),
    (plainFlag "measure", "Measure the replayed kernel and compare with the recorded latency"),
    helpRow]

/-- Help on one command. -/
def commandHelp (about usage : String) (rows : List (String × String)) : List String :=
  [about, "", s!"Usage: looptune {usage}", "", "Options:"] ++ table rows

/-- Help on a command, or on all of them. -/
def helpText (command : Option String) : String :=
  "\n".intercalate <|
    match command with
    | some "tune" =>
      commandHelp "Search for a faster schedule of one kernel" "tune [OPTIONS]" tuneRows
    | some "emit-mlir" =>
      commandHelp "Emit the MLIR of the module, or of a single kernel" "emit-mlir [OPTIONS]"
        emitRows
    | some "replay" =>
      commandHelp "Re-apply the history recorded in a tuning report"
        "replay [OPTIONS] --report <REPORT>" replayRows
    | _ =>
      ["Execution-driven loop nest autotuner", "", "Usage: looptune [OPTIONS] <COMMAND>", "",
        "Commands:"] ++ table commandRows ++ ["", "Options:"]
        ++ table [configRow, moduleRow, helpRow]

def UsageError.message : UsageError → String
  | invalidValue => "error: invalid value for an option"
  | missingValue => "error: a value is required for an option but none was supplied"
  | needlessValue => "error: unexpected value for a flag"
  | unknownArgument => "error: unexpected argument found"
  | conflict => "error: an option was used twice or cannot be used with another"
  | missingOption => "error: a required option was not provided"
  | unknownCommand => "error: unrecognized subcommand"
  | missingCommand => "error: a subcommand is required but was not provided"
  | help command => helpText command
  | noArguments => helpText none

end NestTuner.Cli
