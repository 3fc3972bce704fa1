import NestTuner.Legality

/-!
Edits of a loop nest, and the reasons for which a nest refuses one. A refusal is an expected answer
while a space of edits is tried out.
-/

namespace NestTuner

/-- The families of edits. -/
inductive EditKind where
  | tiling
  | interchange
  | parallelization
  | vectorization
  deriving DecidableEq

inductive Edit where
  /-- Splits a loop into a loop over tiles and a loop of `size` points inside each. -/
  | tile (loop size : Nat)
  /-- Position `i` of the new nest holds the loop that was at `permutation[i]`. -/
  | interchange (permutation : List Nat)
  | parallelize (loop : Nat)
  /-- Vectorizes the innermost loop. -/
  | vectorize (width : Nat)
  deriving DecidableEq

namespace Edit

def kind : Edit → EditKind
  | tile .. => .tiling
  | interchange .. => .interchange
  | parallelize .. => .parallelization
  | vectorize .. => .vectorization

/-- Exchanges two positions of a nest of a given depth; a position past the end leaves all loops
where they are. -/
def swap (depth a b : Nat) : Edit :=
  interchange <| (List.range depth).map fun i =>
    if a < depth && b < depth then
      if i == a then b else if i == b then a else i
    else i

def text : Edit → String
  | tile loop size => s!"tile(loop={loop}, size={size})"
  | interchange permutation => "interchange([" ++ ",".intercalate (permutation.map Nat.repr) ++ "])"
  | parallelize loop => s!"parallelize(loop={loop})"
  | vectorize width => s!"vectorize(width={width})"

end Edit

/-- The two marks a loop can carry. -/
inductive Mark where
  | parallel
  | vectorized
  deriving DecidableEq

namespace Mark

def text : Mark → String
  | parallel => "parallel"
  | vectorized => "vectorized"

end Mark

/-- Why an edit does not fit a nest. -/
inductive Refusal where
  | loopOutOfRange (loop depth : Nat)
  | loopConsumed (loop : Nat) (mark : Mark)
  | degenerateTile (size : Nat)
  | tileExceedsExtent (size extent : Nat)
  | tileNotDivisor (size extent : Nat)
  | notBijection (depth : Nat)
  | identityPermutation
  | pinnedLoopMoved (mark : Mark)
  | alreadyParallel
  | notOutermost (loop : Nat)
  | carriesReduction (iterator : String)
  | innerTileLevel (loop : Nat)
  | alreadyVectorized
  | innermostNotTiled
  | vectorWidth (width extent : Nat)
  | emptyNest
  deriving DecidableEq

namespace Refusal

def message : Refusal → String
  | loopOutOfRange loop depth => s!"loop {loop} is out of range for a nest of depth {depth}"
  | loopConsumed loop mark => s!"loop {loop} is already {mark.text}"
  | degenerateTile size => s!"tile size {size} is degenerate"
  | tileExceedsExtent size extent => s!"tile size {size} does not fit inside loop extent {extent}"
  | tileNotDivisor size extent =>
    s!"tile size {size} does not evenly divide loop extent {extent}"
  | notBijection depth => s!"permutation is not a bijection over {depth} loops"
  | identityPermutation => "permutation is the identity"
  | pinnedLoopMoved mark => s!"permutation moves the {mark.text} loop"
  | alreadyParallel => "nest already has a parallel loop"
  | notOutermost loop => s!"only the outermost loop can be parallelized, got loop {loop}"
  | carriesReduction iterator => s!"iterator `{iterator}` carries a reduction"
  | innerTileLevel loop => s!"loop {loop} is not the outermost level of its iterator"
  | alreadyVectorized => "nest already has a vectorized loop"
  | innermostNotTiled => "innermost loop has not been fixed by tiling"
  | vectorWidth width extent => s!"vector width {width} is not usable for extent {extent}"
  | emptyNest => "nest has no loops"

end Refusal

/-- An edit fails by a refusal, or by a trap on a nest that is not legal. -/
inductive EditError where
  | refused (reason : Refusal)
  | trapped (trap : Trap)
  deriving DecidableEq

/-- A computation in an edit that may trap. -/
def EditError.trapping {α : Type} (x : Checked α) : Except EditError α :=
  x.mapError trapped

end NestTuner
