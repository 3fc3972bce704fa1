import NestTuner.Measure.Oracle
import NestTuner.Search.Action
import NestTuner.Search.Result
import NestTuner.Search.Settings
import NestTuner.Search.Tree

/-!
Beam search over histories of edits. The root is evaluated first. Each level then expands the
frontier by every action, evaluates the new nodes and keeps the cheapest of them as the next
frontier; of equal costs the older node comes first. The best node of the whole run is returned,
whether or not a frontier kept it.
-/

namespace NestTuner

/-- A search with its whole tree and the frontier after each level. -/
structure Exploration where
  result : SearchResult
  tree : Tree
  frontiers : List (List Nat)

namespace Beam

/-- The tree of a level that is being expanded, and its counts so far. -/
structure Expansion where
  tree : Tree
  candidates : Nat
  rejected : Nat
  duplicates : Nat
  defects : Nat

namespace Expansion

def ofTree (t : Tree) : Expansion :=
  ⟨t, 0, 0, 0, 0⟩

/-- Counts a candidate, and adds it to the tree unless it was refused, is illegal or, when asked
for, is there already. -/
def absorb (deduplicate : Bool) (parent : Nat) (x : Expansion) (c : Candidate) :
    Checked Expansion :=
  let x := { x with candidates := x.candidates + 1 }
  match c.verdict with
  | .error _ => .ok { x with rejected := x.rejected + 1 }
  | .ok state =>
    match state.checkLegality with
    | .error _ => .ok { x with defects := x.defects + 1 }
    | .ok () =>
      if deduplicate && x.tree.containsState state then
        .ok { x with duplicates := x.duplicates + 1 }
      else do
        let (tree, _) ← x.tree.addChild parent c.edit state
        return { x with tree := tree }

/-- Expands one node by all actions. -/
def expandNode (deduplicate : Bool) (actions : List Action) (x : Expansion) (id : Nat) :
    Checked Expansion := do
  let candidates ← Action.expandAll actions (← x.tree.get id).state
  candidates.foldlM (absorb deduplicate id) x

end Expansion

/-- A run after some levels. -/
structure Progress where
  tree : Tree
  best : Nat × Cost
  frontier : List Nat
  frontiers : List (List Nat)
  levels : List Level

/-- Records outcomes of new nodes. Only a cheaper node replaces the best. -/
def recordAll (tree : Tree) (best : Nat × Cost) :
    List (Node × Outcome) → Checked (Tree × (Nat × Cost))
  | [] => .ok (tree, best)
  | (n, o) :: rest => do
    let (tree, _) ← tree.record n.id o
    let best :=
      match o with
      | .measured cost => if cost.lt best.2 then (n.id, cost) else best
      | .failed _ => best
    recordAll tree best rest

/-- Cheaper first, then older. -/
def ranksBefore (a b : Cost × Nat) : Bool :=
  a.1.lt b.1 || (a.1.le b.1 && a.2 ≤ b.2)

/-- The `width` cheapest of the nodes that have a cost. -/
def select (width : Nat) (nodes : List (Node × Outcome)) : List Nat :=
  let measured := nodes.filterMap fun (n, o) => o.cost?.map fun cost => (cost, n.id)
  ((measured.mergeSort ranksBefore).take width).map (·.2)

variable {m : Type → Type} [Monad m] [MonadExceptOf Trap m]

/-- One level: expand, evaluate, select. -/
def step (b : Beam) (actions : List Action) (evaluator : Evaluator m) (elapsed : m Duration)
    (depth : Nat) (p : Progress) : m Progress := do
  let x ← liftExcept
    (p.frontier.foldlM (Expansion.expandNode b.deduplicate actions) (.ofTree p.tree))
  let created := x.tree.nodes.toList.drop p.tree.size
  let outcomes ← created.mapM fun n => evaluator.evaluate n.state
  let evaluated := created.zip outcomes
  let (tree, best) ← liftExcept (recordAll x.tree p.best evaluated)
  let frontier := select b.width evaluated
  let time ← elapsed
  let level : Level :=
    { depth := depth, candidates := x.candidates, rejected := x.rejected,
      duplicates := x.duplicates, defects := x.defects,
      evaluated := outcomes.countP (!·.isFailed), failed := outcomes.countP (·.isFailed),
      frontier := frontier.length, best := best.2, elapsedMillis := time.toMillis }
  return ⟨tree, best, frontier, p.frontiers ++ [frontier], p.levels ++ [level]⟩

/-- At most `n` levels from a depth on. -/
def descend (b : Beam) (actions : List Action) (evaluator : Evaluator m) (elapsed : m Duration) :
    Nat → Nat → Progress → m (Progress × Termination)
  | 0, _, p => return (p, .maxDepth)
  | n + 1, depth, p => do
    let time ← elapsed
    if b.budgetMillis.any fun budget => (Duration.ofMillis budget).le time then
      return (p, .budgetExhausted)
    let p ← step b actions evaluator elapsed depth p
    if p.frontier.isEmpty then return (p, .emptyFrontier)
    descend b actions evaluator elapsed n (depth + 1) p

/-- The path to a node, step by step. -/
def trajectory (tree : Tree) (id : Nat) : Checked (List Waypoint) := do
  (← tree.path id).mapM fun id => do
    let n ← tree.get id
    return ⟨n.depth, n.lastEdit?, n.cost?, n.state.summary⟩

/-- The result of a finished run. -/
def conclude (p : Progress) (baseline : Cost) (termination : Termination) (elapsed : Duration) :
    Checked Exploration := do
  let n ← p.tree.get p.best.1
  let result : SearchResult :=
    { bestHistory := n.history, bestCost := p.best.2, baseline := baseline, bestState := n.state,
      trajectory := ← trajectory p.tree p.best.1, levels := p.levels,
      stats := .ofLevels p.tree.size p.levels elapsed.toMillis, termination := termination }
  return ⟨result, p.tree, p.frontiers⟩

/-- Searches from a root. `now` is a running clock. The workers that expand a level are there, and
what they find is put together in the order of the frontier. -/
def explore (b : Beam) (root : Kernel) (actions : List Action) (evaluator : Evaluator m)
    (now : m Duration) : m (Except SearchError Exploration) := do
  match b.validate with
  | .error reason => return .error (.invalidSettings reason)
  | .ok () =>
    match root.checkLegality with
    | .error violation => return .error (.illegalRoot violation)
    | .ok () =>
      let start ← now
      let elapsed : m Duration := do return (← now).since start
      match ← evaluator.evaluate root with
      | .failed failure => return .error (.baselineFailed failure)
      | .measured baseline =>
        let (tree, _) ← liftExcept ((Tree.ofRoot root).record 0 (.measured baseline))
        let p : Progress := ⟨tree, (0, baseline), [0], [], []⟩
        let (p, termination) ← descend b actions evaluator elapsed b.maxDepth 1 p
        return .ok (← liftExcept (conclude p baseline termination (← elapsed)))

/-- The number of workers to ask for. Zero stands for the usual number. -/
def poolSize (b : Beam) : Nat :=
  b.workers.getD 0

/-- Searches from a root with a pool of workers, which is made once the settings and the root are
found to be right. -/
def exploreOn {α : Type} (b : Beam) (pool : m (Except String α)) (root : Kernel)
    (actions : List Action) (evaluator : Evaluator m) (now : m Duration) :
    m (Except SearchError Exploration) := do
  match b.validate, root.checkLegality with
  | .ok (), .ok () =>
    match ← pool with
    | .error reason => return .error (.workerPool reason)
    | .ok _ => b.explore root actions evaluator now
  | _, _ => b.explore root actions evaluator now

end Beam

end NestTuner
