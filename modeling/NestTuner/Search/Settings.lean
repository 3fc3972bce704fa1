import NestTuner.Json.Decode

/-!
The settings of a beam search, and what the environment overrides of them.
-/

namespace NestTuner

/-- How the children of a level are evaluated. -/
inductive EvaluationMode where
  | serial
  | parallel
  deriving DecidableEq

namespace EvaluationMode

def text : EvaluationMode → String
  | serial => "serial"
  | parallel => "parallel"

def ofName? : String → Option EvaluationMode
  | "serial" => some serial
  | "parallel" => some parallel
  | _ => none

def toJson (e : EvaluationMode) : Json :=
  .string e.text

def ofJson? (v : Json) : Option EvaluationMode :=
  v.choice?.bind ofName?

end EvaluationMode

/-- A beam: how many nodes survive a level, and how many levels there are. -/
structure Beam where
  width : Nat
  maxDepth : Nat
  /-- A limit on the time of the whole search. -/
  budgetMillis : Option Nat
  evaluation : EvaluationMode
  workers : Option Nat
  /-- Drops children whose nest is already in the tree. -/
  deduplicate : Bool
  deriving DecidableEq

namespace Text

/-- White space in the sense of the Unicode property. -/
def isSpace (c : Char) : Bool :=
  let n := c.toNat
  (9 ≤ n && n ≤ 13) || n == 32 || n == 0x85 || n == 0xa0 || n == 0x1680
    || (0x2000 ≤ n && n ≤ 0x200a) || n == 0x2028 || n == 0x2029 || n == 0x202f || n == 0x205f
    || n == 0x3000

/-- A text without the white space at both ends. -/
def trim (s : String) : String :=
  String.ofList ((s.toList.dropWhile isSpace).reverse.dropWhile isSpace).reverse

/-- A decimal number of at most 64 bits, with a plus sign or without. -/
def word? (s : String) : Option Nat :=
  let digits := match s.toList with
    | '+' :: rest => rest
    | cs => cs
  if digits.isEmpty || !digits.all Char.isDigit then none
  else
    let n := digits.foldl (fun n c => 10 * n + (c.toNat - '0'.toNat)) 0
    if n < Word.count then some n else none

end Text

/-- The variables of an environment. -/
abbrev Environment := List (String × String)

namespace Environment

/-- A variable that holds a number; blanks around it do not count. -/
def word? (env : Environment) (name : String) : Option Nat :=
  (env.lookup name).bind fun s => Text.word? (Text.trim s)

end Environment

namespace Beam

def default : Beam :=
  ⟨4, 4, none, .serial, none, false⟩

/-- What is wrong with the settings, if anything is. -/
def validate (b : Beam) : Except String Unit :=
  if b.width == 0 then .error "beam width must be >= 1"
  else if b.workers == some 0 then .error "worker threads must be >= 1 when set"
  else .ok ()

/-- Takes over what an environment says. A number that cannot be read is passed over; any word but
`1`, `true` and `yes` turns parallel evaluation off. -/
def overriddenBy (b : Beam) (env : Environment) : Beam :=
  { b with
    width := (env.word? "LOOPTUNE_BEAM_WIDTH").getD b.width
    maxDepth := (env.word? "LOOPTUNE_MAX_DEPTH").getD b.maxDepth
    budgetMillis :=
      match env.word? "LOOPTUNE_TIME_BUDGET_MS" with
      | some budget => some budget
      | none => b.budgetMillis
    evaluation :=
      match env.lookup "LOOPTUNE_PARALLEL_EVAL" with
      | some flag => if ["1", "true", "yes"].contains flag then .parallel else .serial
      | none => b.evaluation }

def toJson (b : Beam) : Json :=
  .object [("beam_width", .nat b.width), ("max_depth", .nat b.maxDepth),
    ("time_budget_ms", .ofOption .nat b.budgetMillis), ("evaluation", b.evaluation.toJson),
    ("worker_threads", .ofOption .nat b.workers), ("deduplicate", .bool b.deduplicate)]

/-- Settings that are left out take their default. -/
def ofJson? (v : Json) : Option Beam := do
  let d := default
  let r ← v.record? ["beam_width", "max_depth", "time_budget_ms", "evaluation", "worker_threads",
    "deduplicate"]
  return ⟨← r.defaulted "beam_width" d.width Json.word?,
    ← r.defaulted "max_depth" d.maxDepth Json.word?,
    ← r.defaulted "time_budget_ms" d.budgetMillis (Json.option? Json.word?),
    ← r.defaulted "evaluation" d.evaluation EvaluationMode.ofJson?,
    ← r.defaulted "worker_threads" d.workers (Json.option? Json.word?),
    ← r.defaulted "deduplicate" d.deduplicate Json.bool?⟩

end Beam

end NestTuner
