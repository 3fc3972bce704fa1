import NestTuner.Json.Basic
import NestTuner.Word

/-!
Decoding JSON values. A record is an object, whose unknown members are passed over and whose known
ones come at most once, or an array of its fields in order. A choice is a name alone or an object
with the name as its single member; a tagged record names its choice in a member of its own.
-/

namespace NestTuner

namespace Number

/-- A power of ten in double precision. -/
def tenTo (e : Nat) : Float :=
  Float.ofScientific 1 false e

/-- Divides by a power of ten, at most `10 ^ 308` at a time. -/
def scaleDown (f : Float) (e : Nat) : Float :=
  if e ≤ 308 then f / tenTo e
  else if f == 0.0 then f
  else scaleDown (f / tenTo 308) (e - 308)
termination_by e

/-- Multiplies or divides by one power of ten. A result out of range is none. -/
def scale? (f : Float) (e : Int) : Option Float :=
  if e < 0 then some (scaleDown f e.natAbs)
  else if e ≤ 308 then
    let scaled := f * tenTo e.natAbs
    if scaled.isInf then none else some scaled
  else if f == 0.0 then some f
  else none

/-- Appends digits while the number fits a word. Gives the number and the count of digits left over
from the first one that did not fit. -/
def appendDigits : Nat → List Nat → Nat × Nat
  | n, [] => (n, 0)
  | n, d :: rest =>
    if 10 * n + d < Word.count then appendDigits (10 * n + d) rest else (n, rest.length + 1)

/-- The double of a literal: the leading digits that fit a word, scaled by one power of ten. An
integer that fits is converted on its own. -/
def float? (n : Number) : Option Float :=
  let (leading, dropped) := appendDigits 0 (digitsOf n.whole)
  let (significand, ignored) := appendDigits leading n.fraction
  let places := n.fraction.length - ignored
  let f := (UInt64.ofNat significand).toFloat
  let magnitude :=
    if dropped == 0 && n.fraction.isEmpty && n.exponent.isNone then some f
    else scale? f ((dropped : Int) - (places : Int) + n.exponent.getD 0)
  magnitude.map fun f => if n.negative then -f else f

end Number

namespace Json

def string? : Json → Option String
  | .string s => some s
  | _ => none

def bool? : Json → Option Bool
  | .bool b => some b
  | _ => none

/-- An integer literal below a bound. -/
def natBelow? (bound : Nat) : Json → Option Nat
  | .number n =>
    match n.nat? with
    | some value => if value < bound then some value else none
    | none => none
  | _ => none

/-- An integer literal of at most 64 bits. -/
def word? : Json → Option Nat :=
  natBelow? Word.count

def float? : Json → Option Float
  | .number n => n.float?
  | _ => none

/-- A number read in double precision and then rounded to single precision. -/
def float32? (v : Json) : Option Float32 :=
  v.float?.map Float.toFloat32

def list? {α : Type} (decode : Json → Option α) : Json → Option (List α)
  | .array items => items.mapM decode
  | _ => none

/-- A value or `null`. -/
def option? {α : Type} (decode : Json → Option α) : Json → Option (Option α)
  | .null => some none
  | v => (decode v).map some

def words? : Json → Option (List Nat) :=
  list? word?

/-- The name of a choice that holds nothing. -/
def choice? : Json → Option String
  | .string name => some name
  | .object [(name, .null)] => some name
  | _ => none

/-- The name and the content of a choice that holds something. -/
def choiceWith? : Json → Option (String × Json)
  | .object [(name, content)] => some (name, content)
  | _ => none

/-- Splits a record into the name in its tag and its other fields. -/
def tagged? (tag : String) : Json → Option (String × Json)
  | .object members =>
    match members.filter (·.1 == tag) with
    | [(_, .string name)] => some (name, .object (members.filter (·.1 != tag)))
    | _ => none
  | .array (.string name :: rest) => some (name, .array rest)
  | _ => none

/-- The fields of a record that are present, and whether they were given by position. -/
structure Record where
  fields : List (String × Json)
  positional : Bool

def distinctNames : List (String × Json) → Bool
  | [] => true
  | (name, _) :: rest => !rest.any (·.1 == name) && distinctNames rest

def record? (names : List String) : Json → Option Record
  | .object members =>
    let known := members.filter fun member => names.contains member.1
    if distinctNames known then some ⟨known, false⟩ else none
  | .array items =>
    if items.length ≤ names.length then some ⟨names.zip items, true⟩ else none
  | _ => none

namespace Record

variable {α : Type}

/-- A field that has to be present. -/
def required (r : Record) (name : String) (decode : Json → Option α) : Option α :=
  match r.fields.lookup name with
  | some v => decode v
  | none => none

/-- A field with a value to fall back on. -/
def defaulted (r : Record) (name : String) (fallback : α) (decode : Json → Option α) : Option α :=
  match r.fields.lookup name with
  | some v => decode v
  | none => some fallback

/-- A field that may be `null`, or left out of an object. -/
def nullable (r : Record) (name : String) (decode : Json → Option α) : Option (Option α) :=
  match r.fields.lookup name with
  | some v => v.option? decode
  | none => if r.positional then none else some none

end Record

end Json

end NestTuner
