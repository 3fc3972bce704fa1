import NestTuner.Edit.Apply
import NestTuner.Edit.Codec

/-!
Actions propose edits for a nest, in a fixed order. A proposal comes back with the verdict of the
nest on it, so that refused ones can be counted.
-/

namespace NestTuner

inductive Action where
  /-- Every size at every loop, or at the loops listed. -/
  | tiling (sizes : List Nat) (loops : Option (List Nat))
  /-- A swap of every pair of loops, or of the pairs listed. -/
  | interchange (pairs : Option (List (Nat × Nat)))
  | parallelization
  | vectorization (widths : List Nat)
  deriving DecidableEq

/-- A proposed edit and what became of it. -/
structure Candidate where
  edit : Edit
  verdict : Except Refusal Kernel

namespace Action

def kind : Action → EditKind
  | tiling .. => .tiling
  | interchange .. => .interchange
  | parallelization => .parallelization
  | vectorization .. => .vectorization

/-- The pairs of positions below a depth, the smaller one first. -/
def pairs (depth : Nat) : List (Nat × Nat) :=
  (List.range depth).flatMap fun a =>
    ((List.range depth).filter (a < ·)).map fun b => (a, b)

/-- The edits proposed for a nest of a given depth. -/
def proposals (action : Action) (depth : Nat) : List Edit :=
  match action with
  | tiling sizes loops =>
    (loops.getD (List.range depth)).flatMap fun loop => sizes.map (Edit.tile loop)
  | interchange chosen =>
    (chosen.getD (pairs depth)).map fun (a, b) => Edit.swap depth a b
  | parallelization => [.parallelize 0]
  | vectorization widths => widths.map Edit.vectorize

/-- Tries an edit. -/
def attempt (k : Kernel) (e : Edit) : Checked Candidate :=
  match k.apply e with
  | .ok next => .ok ⟨e, .ok next⟩
  | .error (.refused reason) => .ok ⟨e, .error reason⟩
  | .error (.trapped trap) => .error trap

/-- Tries every proposal. -/
def expand (action : Action) (k : Kernel) : Checked (List Candidate) :=
  (action.proposals k.nest.depth).mapM (attempt k)

/-- Tries every proposal of several actions. -/
def expandAll (actions : List Action) (k : Kernel) : Checked (List Candidate) := do
  return (← actions.mapM (·.expand k)).flatten

/-- The actions of a search that names none. -/
def defaults : List Action :=
  [tiling [8, 16, 32, 64] none, interchange none, parallelization, vectorization [4, 8, 16]]

open Json

def pairToJson (pair : Nat × Nat) : Json :=
  .array [nat pair.1, nat pair.2]

def pairOfJson? : Json → Option (Nat × Nat)
  | .array [a, b] => do return (← a.word?, ← b.word?)
  | _ => none

def toJson : Action → Json
  | tiling sizes loops =>
    .object <| [("kind", .string "tiling"), ("sizes", ofList nat sizes)]
      ++ memberIfSome "loops" (ofList nat) loops
  | interchange chosen =>
    .object <| ("kind", .string "interchange") :: memberIfSome "pairs" (ofList pairToJson) chosen
  | parallelization => .object [("kind", .string "parallelization")]
  | vectorization widths =>
    .object [("kind", .string "vectorization"), ("widths", ofList nat widths)]

def ofJson? (v : Json) : Option Action := do
  match ← v.tagged? "kind" with
  | ("tiling", content) =>
    let r ← content.record? ["sizes", "loops"]
    return tiling (← r.required "sizes" words?) (← r.defaulted "loops" none (option? words?))
  | ("interchange", content) =>
    let r ← content.record? ["pairs"]
    return interchange (← r.defaulted "pairs" none (option? (list? pairOfJson?)))
  | ("parallelization", content) =>
    let _ ← content.record? []
    return parallelization
  | ("vectorization", content) =>
    let r ← content.record? ["widths"]
    return vectorization (← r.required "widths" words?)
  | _ => none

/-- A list of actions as a record. -/
def listToJson (actions : List Action) : Json :=
  .object [("actions", ofList toJson actions)]

def listOfJson? (v : Json) : Option (List Action) := do
  let r ← v.record? ["actions"]
  r.required "actions" (list? ofJson?)

end Action

end NestTuner
