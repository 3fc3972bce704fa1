import NestTuner.Decimal.Text
import NestTuner.Inputs
import NestTuner.Json.Decode

/-!
Comparing an output with a reference. An element fails when it leaves both the absolute and the
relative bound; a reference close to zero has no relative error.
-/

namespace NestTuner

structure Tolerance where
  absolute : Float32
  relative : Float32

namespace Tolerance

def default : Tolerance := ⟨1e-3, 1e-3⟩

/-- How an output differs from a reference. -/
inductive Mismatch where
  | shape (reference candidate : List Nat)
  | notANumber (index : Nat)
  | element (index : Nat) (expected got error : Float32)

def shapeText (shape : List Nat) : String :=
  "[" ++ ", ".intercalate (shape.map Nat.repr) ++ "]"

namespace Mismatch

def message : Mismatch → String
  | shape reference candidate =>
    s!"shape mismatch: {shapeText reference} vs {shapeText candidate}"
  | notANumber index => s!"output element {index} is NaN"
  | element index expected got error =>
    let expected := Decimal.plain (.ofFloat32 expected)
    let got := Decimal.plain (.ofFloat32 got)
    let error := Decimal.fixedScientific 3 (.ofFloat32 error)
    s!"element {index}: expected {expected}, got {got} (abs error {error})"

end Mismatch

/-- Compares one element. -/
def compareElement (t : Tolerance) (i : Nat) (expected got : Float32) : Except Mismatch Unit :=
  let error := (expected - got).abs
  if error.isNaN then .error (.notANumber i)
  else if error > t.absolute &&
      (expected.abs ≤ 1e-6 || error / expected.abs > t.relative) then
    .error (.element i expected got error)
  else .ok ()

/-- The first difference that matters, if there is one. -/
def compare (t : Tolerance) (reference candidate : Grid Float32) : Except Mismatch Unit :=
  if reference.shape != candidate.shape then .error (.shape reference.shape candidate.shape)
  else
    (reference.data.zip candidate.data).toList.zipIdx.forM fun ((expected, got), i) =>
      t.compareElement i expected got

def toJson (t : Tolerance) : Json :=
  .object [("max_abs_error", .float32 t.absolute), ("max_rel_error", .float32 t.relative)]

def ofJson? (v : Json) : Option Tolerance := do
  let r ← v.record? ["max_abs_error", "max_rel_error"]
  return ⟨← r.required "max_abs_error" Json.float32?, ← r.required "max_rel_error" Json.float32?⟩

end Tolerance

end NestTuner
