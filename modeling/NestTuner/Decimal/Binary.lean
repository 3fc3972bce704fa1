/-!
Floating-point numbers as exact binary fractions. A finite number is `mantissa * 2 ^ exponent`; the
reals that round to it form an interval around it, whose ends belong to it when the mantissa is
even. Lengths are measured in quarters of a unit, because the gap below a power of two is half the
gap above.
-/

namespace NestTuner.Decimal

/-- A finite number without its sign. -/
structure Binary where
  mantissa : Nat
  exponent : Int
  /-- The next smaller number is half a unit away. -/
  narrowBelow : Bool

/-- What the bits of a floating-point number stand for. -/
inductive Reading where
  | nan
  | infinite (negative : Bool)
  | finite (negative : Bool) (value : Binary)

/-- Reads a sign bit, `exponentBits` bits of exponent and `fractionBits` bits of fraction. -/
def Reading.ofBits (exponentBits fractionBits bits : Nat) : Reading :=
  let fraction := bits % Nat.pow 2 fractionBits
  let exponent := bits / Nat.pow 2 fractionBits % Nat.pow 2 exponentBits
  let negative := bits / Nat.pow 2 (fractionBits + exponentBits) % 2 == 1
  let bias : Int := (Nat.pow 2 (exponentBits - 1) - 1 + fractionBits : Nat)
  if exponent == Nat.pow 2 exponentBits - 1 then
    if fraction == 0 then .infinite negative else .nan
  else if exponent == 0 then
    .finite negative ⟨fraction, 1 - bias, false⟩
  else
    .finite negative ⟨fraction + Nat.pow 2 fractionBits, exponent - bias,
      fraction == 0 && exponent != 1⟩

def Reading.ofFloat (x : Float) : Reading :=
  .ofBits 11 52 x.toBits.toNat

def Reading.ofFloat32 (x : Float32) : Reading :=
  .ofBits 8 23 x.toBits.toNat

namespace Binary

/-- The number as a quotient over a power of ten: `value = numerator / denominator * 10 ^ place`. -/
def quotient (b : Binary) (place : Int) : Nat × Nat :=
  (b.mantissa * Nat.pow 2 b.exponent.toNat * Nat.pow 10 (-place).toNat,
    Nat.pow 2 (-b.exponent).toNat * Nat.pow 10 place.toNat)

/-- Whether `digits * 10 ^ place` rounds to the number. -/
def rounds (b : Binary) (digits : Nat) (place : Int) : Bool :=
  let scale := Nat.pow 2 b.exponent.toNat * Nat.pow 10 (-place).toNat
  let candidate := 4 * digits * (b.quotient place).2
  let low := (4 * b.mantissa - if b.narrowBelow then 1 else 2) * scale
  let high := (4 * b.mantissa + 2) * scale
  if b.mantissa % 2 == 0 then low ≤ candidate && candidate ≤ high
  else low < candidate && candidate < high

end Binary

end NestTuner.Decimal
