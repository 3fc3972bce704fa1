import NestTuner.Module

/-!
A target picks a kernel out of a module, by its name or by a tag.
-/

namespace NestTuner

inductive Target where
  | function (name : String)
  | tag (label : String)
  deriving DecidableEq

namespace Target

def text : Target → String
  | function name => s!"@{name}"
  | tag label => s!"tag:{label}"

/-- The first kernel that matches. -/
def locate? (t : Target) (m : Module) : Option Kernel :=
  match t with
  | function name => m.locate name
  | tag label => m.locateTagged label

/-- The message when no kernel matches. -/
def missingMessage : Target → String
  | function name => s!"no function named `{name}` in module"
  | tag label => s!"no kernel tagged `{label}` in module"

end Target

end NestTuner
