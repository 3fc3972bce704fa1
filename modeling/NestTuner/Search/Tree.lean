import NestTuner.Edit.Basic
import NestTuner.Measure.Outcome

/-!
The tree of a search. Nodes live in one array and refer to each other by position; a parent always
comes before its children. A node keeps the history that leads to it from the root, and its outcome
is written once. The loop nests of the nodes are kept once more, each of them once, for look-ups.
-/

namespace NestTuner

structure Node where
  id : Nat
  parent : Option Nat
  children : List Nat
  history : List Edit
  state : Kernel
  outcome : Option Outcome

namespace Node

def depth (n : Node) : Nat :=
  n.history.length

def cost? (n : Node) : Option Cost :=
  n.outcome.bind Outcome.cost?

def failed (n : Node) : Bool :=
  n.outcome.any Outcome.isFailed

def lastEdit? (n : Node) : Option Edit :=
  n.history.getLast?

end Node

structure Tree where
  nodes : Array Node
  seen : List Nest

namespace Tree

/-- A root without an outcome. -/
def ofRoot (root : Kernel) : Tree :=
  ⟨#[⟨0, none, [], [], root, none⟩], [root.nest]⟩

def size (t : Tree) : Nat :=
  t.nodes.size

def get? (t : Tree) (id : Nat) : Option Node :=
  t.nodes[id]?

/-- The node of an identifier; an unknown one traps. -/
def get (t : Tree) (id : Nat) : Checked Node :=
  match t.nodes[id]? with
  | some n => .ok n
  | none => .error .outOfRange

/-- Whether this loop nest was seen in the tree. -/
def containsState (t : Tree) (state : Kernel) : Bool :=
  t.seen.contains state.nest

/-- Adds a state reached from a parent by an edit, and gives its identifier. -/
def addChild (t : Tree) (parent : Nat) (edit : Edit) (state : Kernel) : Checked (Tree × Nat) := do
  let n ← t.get parent
  let id := t.size
  let nodes := t.nodes.set! parent { n with children := n.children ++ [id] }
  let child : Node := ⟨id, some parent, [], n.history ++ [edit], state, none⟩
  return (⟨nodes.push child, t.seen.insert state.nest⟩, id)

/-- Writes the outcome of a node that has none. Tells whether it did. -/
def record (t : Tree) (id : Nat) (o : Outcome) : Checked (Tree × Bool) := do
  let n ← t.get id
  if n.outcome.isSome then return (t, false)
  return ({ t with nodes := t.nodes.set! id { n with outcome := some o } }, true)

/-- The chain of parents down to a node, of at most `fuel` nodes. -/
def pathWithin (t : Tree) : Nat → Nat → Checked (List Nat)
  | 0, _ => .error .outOfRange
  | fuel + 1, id => do
    match (← t.get id).parent with
    | none => return [id]
    | some parent => return (← t.pathWithin fuel parent) ++ [id]

/-- The identifiers from the root down to a node. -/
def path (t : Tree) (id : Nat) : Checked (List Nat) :=
  t.pathWithin t.size id

end Tree

end NestTuner
