import NestTuner.Decimal.Digits

/-!
Decimal text of floating-point numbers, for reading by people: positional with the fewest digits,
positional with a fixed number of places, and scientific.
-/

namespace NestTuner.Decimal

/-- Puts a point before the last `places` digits, with at least one digit before it. -/
def withPoint (digits places : Nat) : String :=
  if places == 0 then digits.repr
  else
    let text := digits.repr
    let padded := String.ofList (List.replicate (places + 1 - text.length) '0') ++ text
    let whole := padded.length - places
    String.ofList (padded.toList.take whole) ++ "." ++ String.ofList (padded.toList.drop whole)

namespace Digits

/-- Positional text without an exponent, however large the number. -/
def positional (d : Digits) : String :=
  withPoint (d.digits * Nat.pow 10 d.place.toNat) (-d.place).toNat

/-- One digit, a point if more follow, the rest, and the exponent. -/
def scientific (d : Digits) : String :=
  withPoint d.digits (d.digits.repr.length - 1) ++ "e" ++ toString d.exponent

end Digits

/-- Text of a number whose sign is written when negative, or always. -/
def Reading.text (plus : Bool) (finite : Binary → String) : Reading → String
  | .nan => "NaN"
  | .infinite negative => sign negative ++ "inf"
  | .finite negative value => sign negative ++ finite value
where
  sign (negative : Bool) : String :=
    if negative then "-" else if plus then "+" else ""

/-- The fewest digits that read back, positional. -/
def plain (r : Reading) : String :=
  r.text false fun b => (b.shortest .up).positional

/-- The fewest digits that read back, scientific. -/
def scientific (r : Reading) : String :=
  r.text false fun b => (b.shortest .up).scientific

/-- The exact value rounded half to even at a number of places. -/
def fixedText (places : Nat) (b : Binary) : String :=
  withPoint (b.roundAt .toEven (-(places : Int))) places

/-- A fixed number of places. -/
def fixed (places : Nat) (x : Float) : String :=
  (Reading.ofFloat x).text false (fixedText places)

/-- A fixed number of places, with the sign always written. -/
def signedFixed (places : Nat) (x : Float) : String :=
  (Reading.ofFloat x).text true (fixedText places)

/-- Scientific text with a fixed number of places after the point. -/
def fixedScientific (places : Nat) (r : Reading) : String :=
  r.text false fun b =>
    if b.mantissa == 0 then withPoint 0 places ++ "e0"
    else (b.significant (places + 1)).scientific

end NestTuner.Decimal
