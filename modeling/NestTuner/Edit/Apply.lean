import NestTuner.Edit.Basic

/-!
Applying an edit gives a new kernel that differs in its nest alone. A history is a list of edits;
replaying it applies them in turn.
-/

namespace NestTuner

open EditError (trapping)

namespace Nest

/-- The loop at a position, for an edit that names it. -/
def loopAt (n : Nest) (i : Nat) : Except EditError Loop :=
  match n.loops[i]? with
  | some l => .ok l
  | none => .error (.refused (.loopOutOfRange i n.depth))

/-- Tiles an unmarked loop by a proper divisor of its extent. -/
def tile (n : Nest) (i size : Nat) : Except EditError Nest := do
  let l ← n.loopAt i
  if l.parallel then throw (.refused (.loopConsumed i .parallel))
  if l.vectorWidth.isSome then throw (.refused (.loopConsumed i .vectorized))
  if size < 2 then throw (.refused (.degenerateTile size))
  if size ≥ l.extent then throw (.refused (.tileExceedsExtent size l.extent))
  if l.extent % size != 0 then throw (.refused (.tileNotDivisor size l.extent))
  let stride ← trapping (Word.mul l.stride size)
  let outer := { l with extent := l.extent / size, stride := stride }
  let loops ← trapping (Checked.set n.loops i outer)
  return ⟨← trapping (Checked.insert loops (i + 1) { l with extent := size })⟩

/-- Goes through positions below `depth`, of which none may come twice. The table holds those that
were there already. -/
def checkPositions (depth : Nat) : List Bool → List Nat → Except EditError Unit
  | _, [] => .ok ()
  | seen, p :: rest => do
    if p ≥ depth then throw (.refused (.notBijection depth))
    if ← trapping (Checked.get seen p) then throw (.refused (.notBijection depth))
    checkPositions depth (← trapping (Checked.set seen p true)) rest

/-- A marked loop, if there is one, keeps its place. -/
def checkPinned (permutation : List Nat) (mark : Mark) : Option Nat → Except EditError Unit
  | none => .ok ()
  | some p => do
    if (← trapping (Checked.get permutation p)) != p then
      throw (.refused (.pinnedLoopMoved mark))

/-- Reorders the loops. A parallel loop and a vectorized loop keep their places. -/
def interchange (n : Nest) (permutation : List Nat) : Except EditError Nest := do
  if permutation.length != n.depth then throw (.refused (.notBijection n.depth))
  checkPositions n.depth (List.replicate n.depth false) permutation
  if permutation == List.range n.depth then throw (.refused .identityPermutation)
  checkPinned permutation .parallel n.parallelLoop?
  checkPinned permutation .vectorized n.vectorLoop?
  return ⟨← trapping (permutation.mapM (Checked.get n.loops))⟩

/-- Vectorizes the innermost loop, which walks inside a tile, by a width that divides its extent. -/
def vectorize (n : Nest) (width : Nat) : Except EditError Nest := do
  if n.vectorLoop?.isSome then throw (.refused .alreadyVectorized)
  if n.depth == 0 then throw (.refused .emptyNest)
  let i := n.depth - 1
  let l ← trapping (Checked.get n.loops i)
  if l.parallel then throw (.refused (.loopConsumed i .parallel))
  if !n.isTilePoint i then throw (.refused .innermostNotTiled)
  if !(vectorWidths.contains width && 2 ≤ width && width ≤ l.extent && l.extent % width == 0) then
    throw (.refused (.vectorWidth width l.extent))
  return ⟨← trapping (Checked.set n.loops i { l with vectorWidth := some width })⟩

end Nest

namespace Kernel

/-- Marks the outermost loop parallel, if its iterator indexes the output and no loop of it lies
further out. -/
def parallelizedNest (k : Kernel) (i : Nat) : Except EditError Nest := do
  let l ← k.nest.loopAt i
  if k.nest.parallelLoop?.isSome then throw (.refused .alreadyParallel)
  if i != 0 then throw (.refused (.notOutermost i))
  if l.vectorWidth.isSome then throw (.refused (.loopConsumed i .vectorized))
  let it ← trapping (Checked.get k.iterators l.iterator)
  if it.kind == .reduction then throw (.refused (.carriesReduction it.name))
  if !k.nest.isOutermostLevel i then throw (.refused (.innerTileLevel i))
  return ⟨← trapping (Checked.set k.nest.loops i { l with parallel := true })⟩

/-- The nest after an edit. -/
def editedNest (k : Kernel) : Edit → Except EditError Nest
  | .tile loop size => k.nest.tile loop size
  | .interchange permutation => k.nest.interchange permutation
  | .parallelize loop => k.parallelizedNest loop
  | .vectorize width => k.nest.vectorize width

/-- The kernel after an edit. -/
def apply (k : Kernel) (e : Edit) : Except EditError Kernel := do
  return { k with nest := ← k.editedNest e }

/-- Replays a history whose first edit is step `step`. A failure names its step. -/
def replayFrom (step : Nat) (k : Kernel) : List Edit → Except (Nat × EditError) Kernel
  | [] => .ok k
  | e :: rest =>
    match k.apply e with
    | .ok next => replayFrom (step + 1) next rest
    | .error failure => .error (step, failure)

/-- The kernel after a history of edits. -/
def replay (k : Kernel) (history : List Edit) : Except (Nat × EditError) Kernel :=
  replayFrom 0 k history

end Kernel

end NestTuner
