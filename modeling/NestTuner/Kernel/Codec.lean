import NestTuner.Json.Decode
import NestTuner.Kernel.Validity

/-!
Kernels as JSON. An absent tag or vector width is not written, and a loop without a parallel field
is not parallel.
-/

namespace NestTuner

open Json

namespace ElementType

def toJson (e : ElementType) : Json :=
  .string <| match e with
    | f32 => "F32"
    | f16 => "F16"
    | bf16 => "BF16"

def ofJson? (v : Json) : Option ElementType :=
  match v.choice? with
  | some "F32" => some f32
  | some "F16" => some f16
  | some "BF16" => some bf16
  | _ => none

end ElementType

namespace Tensor

def toJson (t : Tensor) : Json :=
  .object [("name", .string t.name), ("shape", ofList nat t.shape), ("dtype", t.element.toJson)]

def ofJson? (v : Json) : Option Tensor := do
  let r ← v.record? ["name", "shape", "dtype"]
  return ⟨← r.required "name" string?, ← r.required "shape" words?,
    ← r.required "dtype" ElementType.ofJson?⟩

end Tensor

namespace IteratorKind

def toJson (k : IteratorKind) : Json :=
  .string k.text

def ofJson? (v : Json) : Option IteratorKind :=
  match v.choice? with
  | some "Parallel" => some parallel
  | some "Reduction" => some reduction
  | _ => none

end IteratorKind

namespace Iterator

def toJson (it : Iterator) : Json :=
  .object [("name", .string it.name), ("extent", nat it.extent), ("kind", it.kind.toJson)]

def ofJson? (v : Json) : Option Iterator := do
  let r ← v.record? ["name", "extent", "kind"]
  return ⟨← r.required "name" string?, ← r.required "extent" word?,
    ← r.required "kind" IteratorKind.ofJson?⟩

end Iterator

namespace Access

def toJson (a : Access) : Json :=
  .object [("tensor", nat a.tensor), ("indices", ofList nat a.indices)]

def ofJson? (v : Json) : Option Access := do
  let r ← v.record? ["tensor", "indices"]
  return ⟨← r.required "tensor" word?, ← r.required "indices" words?⟩

end Access

namespace ElementwiseOp

def toJson (op : ElementwiseOp) : Json :=
  .string <| match op with
    | add => "Add"
    | mul => "Mul"
    | copy => "Copy"

def ofJson? (v : Json) : Option ElementwiseOp :=
  match v.choice? with
  | some "Add" => some add
  | some "Mul" => some mul
  | some "Copy" => some copy
  | _ => none

end ElementwiseOp

namespace Statement

def toJson : Statement → Json
  | contraction output lhs rhs =>
    .object [("Contraction",
      .object [("output", output.toJson), ("lhs", lhs.toJson), ("rhs", rhs.toJson)])]
  | elementwise op output inputs =>
    .object [("Elementwise",
      .object [("op", op.toJson), ("output", output.toJson),
        ("inputs", ofList Access.toJson inputs)])]

def ofJson? (v : Json) : Option Statement := do
  match ← v.choiceWith? with
  | ("Contraction", content) =>
    let r ← content.record? ["output", "lhs", "rhs"]
    return .contraction (← r.required "output" Access.ofJson?) (← r.required "lhs" Access.ofJson?)
      (← r.required "rhs" Access.ofJson?)
  | ("Elementwise", content) =>
    let r ← content.record? ["op", "output", "inputs"]
    return .elementwise (← r.required "op" ElementwiseOp.ofJson?)
      (← r.required "output" Access.ofJson?) (← r.required "inputs" (list? Access.ofJson?))
  | _ => none

end Statement

namespace Loop

def toJson (l : Loop) : Json :=
  .object <| [("iterator", nat l.iterator), ("extent", nat l.extent), ("stride", nat l.stride),
    ("parallel", .bool l.parallel)] ++ memberIfSome "vector_width" nat l.vectorWidth

def ofJson? (v : Json) : Option Loop := do
  let r ← v.record? ["iterator", "extent", "stride", "parallel", "vector_width"]
  return ⟨← r.required "iterator" word?, ← r.required "extent" word?, ← r.required "stride" word?,
    ← r.defaulted "parallel" false bool?, ← r.defaulted "vector_width" none (option? word?)⟩

end Loop

namespace Nest

def toJson (n : Nest) : Json :=
  .object [("loops", ofList Loop.toJson n.loops)]

def ofJson? (v : Json) : Option Nest := do
  let r ← v.record? ["loops"]
  return ⟨← r.required "loops" (list? Loop.ofJson?)⟩

end Nest

namespace Kernel

def toJson (k : Kernel) : Json :=
  .object <| [("name", .string k.name)] ++ memberIfSome "tag" .string k.tag ++
    [("tensors", ofList Tensor.toJson k.tensors), ("iterators", ofList Iterator.toJson k.iterators),
      ("statement", k.statement.toJson), ("nest", k.nest.toJson)]

def ofJson? (v : Json) : Option Kernel := do
  let r ← v.record? ["name", "tag", "tensors", "iterators", "statement", "nest"]
  return ⟨← r.required "name" string?, ← r.defaulted "tag" none (option? string?),
    ← r.required "tensors" (list? Tensor.ofJson?),
    ← r.required "iterators" (list? Iterator.ofJson?),
    ← r.required "statement" Statement.ofJson?, ← r.required "nest" Nest.ofJson?⟩

end Kernel

end NestTuner
