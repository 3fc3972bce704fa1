import NestTuner.Decimal.Digits

/-!
JSON values. An object keeps its members in order and may name one twice; what that means is for
the reader of the value to say. A number keeps its digits, so that an integer literal differs from
a fraction or a power of ten of the same value.
-/

namespace NestTuner

/-- A decimal literal. Without digits after the point there is no point. -/
structure Number where
  negative : Bool
  whole : Nat
  fraction : List Nat
  exponent : Option Int

inductive Json where
  | null
  | bool (value : Bool)
  | number (value : Number)
  | string (value : String)
  | array (items : List Json)
  | object (members : List (String × Json))

namespace Number

def ofNat (n : Nat) : Number :=
  ⟨false, n, [], none⟩

/-- The decimal digits of a natural number. -/
def digitsOf (n : Nat) : List Nat :=
  (Nat.toDigits 10 n).map fun c => c.toNat - '0'.toNat

def text (n : Number) : String :=
  (if n.negative then "-" else "") ++ n.whole.repr
    ++ (if n.fraction.isEmpty then "" else "." ++ String.join (n.fraction.map Nat.repr))
    ++ (match n.exponent with
        | none => ""
        | some e => "e" ++ (if e < 0 then "-" else "+") ++ e.natAbs.repr)

/-- The literal of an integer: no fraction, no exponent, and not a negative zero. -/
def nat? (n : Number) : Option Nat :=
  if n.negative || !n.fraction.isEmpty || n.exponent.isSome then none else some n.whole

end Number

/-- How a format writes floating-point numbers: positional for decimal exponents in a range. -/
structure NumberLayout where
  least : Int
  greatest : Int

namespace NumberLayout

/-- Double precision: positional from `0.00001` up to sixteen digits before the point. -/
def double : NumberLayout := ⟨-5, 15⟩

/-- Single precision: positional from `0.000001` up to thirteen digits before the point. -/
def single : NumberLayout := ⟨-6, 12⟩

open Decimal in
/-- Writes the fewest digits that read back. Positional text has a digit after the point, and other
text a single digit before it. -/
def number (layout : NumberLayout) (negative : Bool) (b : Binary) : Number :=
  let d := b.shortest .toEven
  let digits := Number.digitsOf d.digits
  if layout.least ≤ d.exponent && d.exponent ≤ layout.greatest then
    let scaled := d.digits * Nat.pow 10 d.place.toNat
    let places := (-d.place).toNat
    let fraction := Number.digitsOf (scaled % Nat.pow 10 places)
    let padded := List.replicate (places - fraction.length) 0 ++ fraction
    ⟨negative, scaled / Nat.pow 10 places, if places == 0 then [0] else padded, none⟩
  else
    ⟨negative, digits.headD 0, digits.drop 1, some d.exponent⟩

end NumberLayout

namespace Json

def nat (n : Nat) : Json :=
  .number (.ofNat n)

/-- A floating-point number. What is not finite has no literal and becomes `null`. -/
def ofReading (layout : NumberLayout) : Decimal.Reading → Json
  | .finite negative value => .number (layout.number negative value)
  | _ => .null

def float (x : Float) : Json :=
  ofReading .double (.ofFloat x)

def float32 (x : Float32) : Json :=
  ofReading .single (.ofFloat32 x)

def ofOption {α : Type} (encode : α → Json) : Option α → Json
  | none => .null
  | some a => encode a

def ofList {α : Type} (encode : α → Json) (items : List α) : Json :=
  .array (items.map encode)

/-- A member that is left out when there is nothing to write. -/
def memberIfSome {α : Type} (name : String) (encode : α → Json) : Option α → List (String × Json)
  | none => []
  | some a => [(name, encode a)]

end Json

end NestTuner
