import NestTuner.Edit.Basic
import NestTuner.Json.Decode

/-!
Edits as JSON, tagged by their kind.
-/

namespace NestTuner

open Json

namespace EditKind

def text : EditKind → String
  | tiling => "tiling"
  | interchange => "interchange"
  | parallelization => "parallelization"
  | vectorization => "vectorization"

def toJson (k : EditKind) : Json :=
  .string k.text

end EditKind

namespace Edit

def toJson : Edit → Json
  | tile loop size =>
    .object [("kind", .string "tile"), ("loop_index", nat loop), ("size", nat size)]
  | interchange permutation =>
    .object [("kind", .string "interchange"), ("permutation", ofList nat permutation)]
  | parallelize loop => .object [("kind", .string "parallelize"), ("loop_index", nat loop)]
  | vectorize width => .object [("kind", .string "vectorize"), ("width", nat width)]

def ofJson? (v : Json) : Option Edit := do
  match ← v.tagged? "kind" with
  | ("tile", content) =>
    let r ← content.record? ["loop_index", "size"]
    return tile (← r.required "loop_index" word?) (← r.required "size" word?)
  | ("interchange", content) =>
    let r ← content.record? ["permutation"]
    return interchange (← r.required "permutation" words?)
  | ("parallelize", content) =>
    let r ← content.record? ["loop_index"]
    return parallelize (← r.required "loop_index" word?)
  | ("vectorize", content) =>
    let r ← content.record? ["width"]
    return vectorize (← r.required "width" word?)
  | _ => none

end Edit

end NestTuner
