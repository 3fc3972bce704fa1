import NestTuner.Json.Printer
import NestTuner.Json.Reader
import NestTuner.Kernel.Canonical
import NestTuner.Kernel.Codec
import NestTuner.Mlir.Emit

/-!
A module is a list of kernels, kept in a file as JSON. Loading one checks every kernel.
-/

namespace NestTuner

structure Module where
  kernels : List Kernel
  deriving DecidableEq

namespace Module

/-- The first kernel with a name. -/
def locate (m : Module) (name : String) : Option Kernel :=
  m.kernels.find? (·.name == name)

/-- The first kernel with a tag. -/
def locateTagged (m : Module) (tag : String) : Option Kernel :=
  m.kernels.find? (·.tag == some tag)

def push (m : Module) (k : Kernel) : Module :=
  ⟨m.kernels ++ [k]⟩

/-- Puts a kernel in the place of the first one of its name, if there is one. -/
def replace? (m : Module) (k : Kernel) : Option Module :=
  match m.kernels.findIdx? (·.name == k.name) with
  | some i => some ⟨m.kernels.set i k⟩
  | none => none

def mlir (m : Module) : Checked String :=
  Mlir.moduleText m.kernels

def toJson (m : Module) : Json :=
  .object [("kernels", Json.ofList Kernel.toJson m.kernels)]

def ofJson? (v : Json) : Option Module := do
  let r ← v.record? ["kernels"]
  return ⟨← r.required "kernels" (Json.list? Kernel.ofJson?)⟩

/-- The text of a module file. -/
def text (m : Module) : String :=
  m.toJson.pretty

/-- Why the text of a module file is not accepted. -/
inductive LoadError where
  | malformed
  | invalid (kernel : String) (defect : Defect)
  deriving DecidableEq

/-- Checks kernels in order. -/
def checkKernels : List Kernel → Except LoadError Unit
  | [] => .ok ()
  | k :: rest =>
    match k.validate with
    | .ok () => checkKernels rest
    | .error defect => .error (.invalid k.name defect)

/-- The module of a file, with all kernels valid. -/
def ofText (text : String) : Except LoadError Module := do
  match (Json.parse? text).bind ofJson? with
  | none => throw .malformed
  | some m =>
    checkKernels m.kernels
    return m

/-- The kernels to work on when no file is given. -/
def samples : Module :=
  ⟨Kernel.samples⟩

end Module

end NestTuner
