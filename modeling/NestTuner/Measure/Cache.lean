import NestTuner.Json.Printer
import NestTuner.Json.Reader
import NestTuner.Kernel.Codec
import NestTuner.Measure.Oracle

/-!
Outcomes remembered by kernel, for one scope of measurement. An evaluator with a memory evaluates
each kernel at most once; failures are remembered like costs.
-/

namespace NestTuner

structure Cache where
  scope : String
  /-- Outcomes by key, each key once, in order of arrival. -/
  entries : List (String × Outcome)
  deriving DecidableEq

namespace Cache

def empty (scope : String) : Cache :=
  ⟨scope, []⟩

/-- What a kernel is remembered by. -/
def key (k : Kernel) : String :=
  k.toJson.compact

def size (c : Cache) : Nat :=
  c.entries.length

def find? (c : Cache) (k : Kernel) : Option Outcome :=
  c.entries.lookup (key k)

/-- Sets the outcome of a key. A key that is there keeps its place. -/
def put (entries : List (String × Outcome)) (key : String) (o : Outcome) :
    List (String × Outcome) :=
  match entries with
  | [] => [(key, o)]
  | (k, old) :: rest => if k == key then (key, o) :: rest else (k, old) :: put rest key o

def insert (c : Cache) (k : Kernel) (o : Outcome) : Cache :=
  { c with entries := put c.entries (key k) o }

def toJson (c : Cache) : Json :=
  .object [("scope", .string c.scope),
    ("entries", .object (c.entries.map fun (key, o) => (key, o.toJson)))]

/-- The outcomes of an object. The last one counts for a key that is named twice. -/
def entriesOfJson? : Json → Option (List (String × Outcome))
  | .object members =>
    members.foldlM (fun entries (key, v) => do return put entries key (← Outcome.ofJson? v)) []
  | _ => none

def ofJson? (v : Json) : Option Cache := do
  let r ← v.record? ["scope", "entries"]
  return ⟨← r.required "scope" Json.string?, ← r.required "entries" entriesOfJson?⟩

/-- The text of a cache file. -/
def text (c : Cache) : String :=
  c.toJson.pretty

/-- The cache in a file for a scope. One of another scope counts as empty. -/
def ofText? (scope text : String) : Option Cache := do
  let c ← (Json.parse? text).bind ofJson?
  if c.scope == scope then return c else return empty scope

variable {m : Type → Type} [Monad m]

/-- Looks a kernel up before evaluating it, and remembers what it learns. -/
def evaluate (inner : Evaluator m) (k : Kernel) : StateT Cache m Outcome := do
  match (← get).find? k with
  | some o => return o
  | none =>
    let o ← inner.evaluate k
    modify (·.insert k o)
    return o

/-- An evaluator with a memory. -/
def memoise (inner : Evaluator m) : Evaluator (StateT Cache m) :=
  ⟨evaluate inner, inner.reentrant, inner.scope⟩

end Cache

end NestTuner
