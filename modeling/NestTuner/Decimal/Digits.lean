import NestTuner.Decimal.Binary

/-!
Two ways to choose decimal digits for a binary number: the fewest that round back to it, and the
exact value rounded at a given place.
-/

namespace NestTuner.Decimal

/-- The number `digits * 10 ^ place`. -/
structure Digits where
  digits : Nat
  place : Int

/-- Which neighbour an exact half goes to. -/
inductive Tie where
  | up
  | toEven

/-- Rounds a quotient of naturals to the nearest natural. -/
def roundDiv (tie : Tie) (numerator denominator : Nat) : Nat :=
  let floor := numerator / denominator
  let twice := 2 * (numerator % denominator)
  if twice < denominator then floor
  else if denominator < twice then floor + 1
  else
    match tie with
    | .up => floor + 1
    | .toEven => if floor % 2 == 0 then floor else floor + 1

namespace Binary

/-- The exact value, rounded to a multiple of `10 ^ place`. -/
def roundAt (tie : Tie) (b : Binary) (place : Int) : Nat :=
  roundDiv tie (b.quotient place).1 (b.quotient place).2

/-- A neighbour of the number on the grid of `10 ^ place` that rounds back to it, the nearer one if
both do. -/
def neighbour? (tie : Tie) (b : Binary) (place : Int) : Option Nat :=
  let floor := (b.quotient place).1 / (b.quotient place).2
  match b.rounds floor place, b.rounds (floor + 1) place with
  | true, true => some (b.roundAt tie place)
  | true, false => some floor
  | false, true => some (floor + 1)
  | false, false => none

/-- Tries ever finer grids until one holds a number that rounds back. -/
def shortestFrom (tie : Tie) (b : Binary) : Nat → Int → Digits
  | 0, place => ⟨b.roundAt tie place, place⟩
  | fuel + 1, place =>
    match b.neighbour? tie place with
    | some digits => ⟨digits, place⟩
    | none => shortestFrom tie b fuel (place - 1)

/-- A power of ten above the number, at most a few places too high. -/
def placeAbove (b : Binary) : Int :=
  ((b.mantissa.log2 : Int) + b.exponent + 2) * 30103 / 100000 + 2

/-- The fewest digits that round back to the number. -/
def shortest (tie : Tie) (b : Binary) : Digits :=
  if b.mantissa == 0 then ⟨0, 0⟩ else b.shortestFrom tie 30 b.placeAbove

/-- The first place, from a given one down, at which the integral part has `count` digits. -/
def placeOf (b : Binary) (count : Nat) : Nat → Int → Int
  | 0, place => place
  | fuel + 1, place =>
    if (b.quotient place).1 / (b.quotient place).2 < Nat.pow 10 (count - 1) then
      placeOf b count fuel (place - 1)
    else place

/-- The exact value of a positive number rounded half to even to `count` significant digits. -/
def significant (b : Binary) (count : Nat) : Digits :=
  let place := b.placeOf count 30 (b.placeAbove - count)
  let digits := b.roundAt .toEven place
  if digits < Nat.pow 10 count then ⟨digits, place⟩ else ⟨digits / 10, place + 1⟩

end Binary

namespace Digits

/-- The decimal exponent of the leading digit. -/
def exponent (d : Digits) : Int :=
  d.place + (d.digits.repr.length : Int) - 1

end Digits

end NestTuner.Decimal
