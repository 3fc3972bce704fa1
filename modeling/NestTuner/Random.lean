/-!
A small generator of reproducible numbers. A step adds an odd constant to the state and mixes the
two halves of a 128-bit product.
-/

namespace NestTuner.Random

/-- One step: the next number and the state after it. -/
def next (state : UInt64) : UInt64 × UInt64 :=
  let state := state + 0x2d358dccaa6c78a5
  let product := state.toNat * (state ^^^ 0x8bb84b93962eacc9).toNat
  (UInt64.ofNat product ^^^ UInt64.ofNat (product / 18446744073709551616), state)

/-- A number in the unit interval from 63 bits. The nearest single may be one, which is drawn
again. -/
def unitFrom : Nat → UInt64 → Float32 × UInt64
  | 0, state => (0.0, state)
  | fuel + 1, state =>
    let (bits, state) := next state
    let x := (bits >>> 1).toFloat32 * Float32.ofBits 0x20000000
    if x ≥ 1.0 then unitFrom fuel state else (x, state)

/-- A number from zero up to, and without, one. Two draws in a row give one by a chance of one in
`2 ^ 50`, so the bound on draws is out of reach. -/
def unit (state : UInt64) : Float32 × UInt64 :=
  unitFrom 64 state

/-- Appends a number between minus one and one. -/
def appendSymmetric (drawn : Array Float32 × UInt64) : Array Float32 × UInt64 :=
  let drawing := unit drawn.2
  (drawn.1.push (drawing.1 * 2.0 - 1.0), drawing.2)

/-- `n` numbers between minus one and one, and the state after them. -/
def symmetric (n : Nat) (state : UInt64) : Array Float32 × UInt64 :=
  n.repeat appendSymmetric (#[], state)

theorem size_symmetric (n : Nat) (state : UInt64) : (symmetric n state).1.size = n := by
  unfold symmetric
  induction n with
  | zero => rfl
  | succ n ih => rw [Nat.repeat, appendSymmetric, Array.size_push, ih]

end NestTuner.Random
