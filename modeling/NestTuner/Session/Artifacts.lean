import NestTuner.Edit.Apply
import NestTuner.Module

/-!
What a history leaves behind: the kernel it leads to, the code of that kernel, and a script that
transforms the code of the root. A script names loops by their position when a step is applied,
as the history does.
-/

namespace NestTuner

namespace Script

/-- The operation of one step on the result of the step before. -/
def operation (step : Nat) : Edit → String
  | .tile loop size =>
    s!"transform.looptune.tile %f{step} \x7bloop = {loop} : i64, size = {size} : i64\x7d"
  | .interchange permutation =>
    s!"transform.looptune.interchange %f{step} \x7bpermutation = array<i64: "
      ++ ", ".intercalate (permutation.map Nat.repr) ++ ">\x7d"
  | .parallelize loop => s!"transform.looptune.parallelize %f{step} \x7bloop = {loop} : i64\x7d"
  | .vectorize width => s!"transform.looptune.vectorize %f{step} \x7bwidth = {width} : i64\x7d"

/-- Every operation takes one handle to another. -/
def signature : String :=
  " : (!transform.any_op) -> !transform.any_op"

/-- A comment and an operation for every edit. -/
def steps (first : Nat) : List Edit → List String
  | [] => []
  | e :: rest =>
    s!"    // step {first}: {e.text}"
      :: (s!"    %f{first + 1} = " ++ operation first e ++ signature)
      :: steps (first + 1) rest

/-- The lines before the steps, which find the function. -/
def header (function : String) : List String :=
  ["module attributes \x7btransform.with_named_sequence\x7d \x7b",
    "  transform.named_sequence @__transform_main(%root: !transform.any_op "
      ++ "\x7btransform.readonly\x7d) \x7b",
    "    %f0 = transform.structured.match ops\x7b[\"func.func\"]\x7d attributes "
      ++ "\x7bsym_name = \"" ++ function ++ "\"\x7d in %root" ++ signature]

/-- The lines after the steps. -/
def footer : List String :=
  ["    transform.yield", "  \x7d", "\x7d"]

/-- Lines, each with its end. -/
def joined (lines : List String) : String :=
  String.join (lines.map (· ++ "\n"))

/-- The script that applies a history to a function. -/
def text (function : String) (history : List Edit) : String :=
  joined (header function ++ steps 0 history ++ footer)

end Script

structure Artifacts where
  kernel : Kernel
  mlir : String
  script : String

/-- A step of a history that a kernel refuses. -/
structure StaleStep where
  step : Nat
  edit : Option Edit
  kernel : String
  reason : Refusal
  deriving DecidableEq

namespace StaleStep

def message (s : StaleStep) : String :=
  let edit := (s.edit.map Edit.text).getD ""
  s!"step {s.step} ({edit}) no longer applies to `{s.kernel}`: {s.reason.message}"

end StaleStep

namespace Artifacts

/-- Replays a history from a root. -/
def ofHistory (root : Kernel) (history : List Edit) : Checked (Except StaleStep Artifacts) :=
  match root.replay history with
  | .error (_, .trapped trap) => .error trap
  | .error (step, .refused reason) => .ok (.error ⟨step, history[step]?, root.name, reason⟩)
  | .ok k => do return .ok ⟨k, ← Module.mlir ⟨[k]⟩, Script.text root.name history⟩

end Artifacts

end NestTuner
