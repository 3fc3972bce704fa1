import NestTuner.Measure.Cache
import NestTuner.Proofs.JsonText

/-!
Kernels are told apart by what they are remembered by. Each part of a kernel is written with all its
fields, so its JSON determines it, and every number in that JSON is natural, so its text determines
it too.
-/

namespace NestTuner

open Function

namespace Json

theorem nat_injective : Injective nat := by
  intro n n' h
  simpa [nat, Number.ofNat] using h

theorem ofList_injective {α : Type} {encode : α → Json} (h : Injective encode) :
    Injective (ofList encode) := by
  intro xs ys hxs
  exact (List.map_inj_right fun _ _ heq => h heq).1 (by simpa [ofList] using hxs)

@[simp]
theorem plain_string (s : String) : (Json.string s).Plain :=
  .string s

@[simp]
theorem plain_bool (b : Bool) : (Json.bool b).Plain :=
  .bool b

@[simp]
theorem plain_nat (n : Nat) : (nat n).Plain :=
  .nat n

@[simp]
theorem plain_object {members : List (String × Json)} :
    (Json.object members).Plain ↔ ∀ p ∈ members, p.2.Plain :=
  ⟨fun h => by cases h; assumption, .object⟩

theorem plain_ofList {α : Type} {encode : α → Json} (h : ∀ a, (encode a).Plain) (xs : List α) :
    (ofList encode xs).Plain := by
  refine .array fun v hv => ?_
  obtain ⟨a, -, rfl⟩ := List.mem_map.1 hv
  exact h a

end Json

open Json

/-! ### JSON tells kernels apart -/

theorem ElementType.toJson_injective : Injective toJson := by
  intro e e' h
  cases e <;> cases e' <;> simp_all [toJson]

theorem IteratorKind.toJson_injective : Injective toJson := by
  intro k k' h
  cases k <;> cases k' <;> simp_all [toJson, text]

theorem ElementwiseOp.toJson_injective : Injective toJson := by
  intro op op' h
  cases op <;> cases op' <;> simp_all [toJson]

theorem Tensor.toJson_injective : Injective toJson := by
  intro t t' h
  cases t
  cases t'
  simpa [toJson, ElementType.toJson_injective.eq_iff, (ofList_injective nat_injective).eq_iff]
    using h

theorem Iterator.toJson_injective : Injective toJson := by
  intro it it' h
  cases it
  cases it'
  simpa [toJson, nat_injective.eq_iff, IteratorKind.toJson_injective.eq_iff] using h

theorem Access.toJson_injective : Injective toJson := by
  intro a a' h
  cases a
  cases a'
  simpa [toJson, nat_injective.eq_iff, (ofList_injective nat_injective).eq_iff] using h

theorem Statement.toJson_injective : Injective toJson := by
  intro s s' h
  cases s <;> cases s' <;>
    simp_all [toJson, ElementwiseOp.toJson_injective.eq_iff, Access.toJson_injective.eq_iff,
      (ofList_injective Access.toJson_injective).eq_iff]

theorem Loop.toJson_injective : Injective toJson := by
  intro l l' h
  obtain ⟨iterator, extent, stride, parallel, width⟩ := l
  obtain ⟨iterator', extent', stride', parallel', width'⟩ := l'
  cases width <;> cases width' <;>
    simp_all [toJson, memberIfSome, nat_injective.eq_iff]

theorem Nest.toJson_injective : Injective toJson := by
  intro n n' h
  cases n
  cases n'
  simpa [toJson, (ofList_injective Loop.toJson_injective).eq_iff] using h

theorem Kernel.toJson_injective : Injective toJson := by
  intro k k' h
  obtain ⟨name, tag, tensors, iterators, statement, nest⟩ := k
  obtain ⟨name', tag', tensors', iterators', statement', nest'⟩ := k'
  cases tag <;> cases tag' <;>
    simp_all [toJson, memberIfSome, (ofList_injective Tensor.toJson_injective).eq_iff,
      (ofList_injective Iterator.toJson_injective).eq_iff, Statement.toJson_injective.eq_iff,
      Nest.toJson_injective.eq_iff]

/-! ### Kernels are plain -/

theorem Tensor.plain_toJson (t : Tensor) : t.toJson.Plain := by
  simp [toJson, ElementType.toJson, plain_ofList plain_nat]

theorem Iterator.plain_toJson (it : Iterator) : it.toJson.Plain := by
  simp [toJson, IteratorKind.toJson]

theorem Access.plain_toJson (a : Access) : a.toJson.Plain := by
  simp [toJson, plain_ofList plain_nat]

theorem Statement.plain_toJson (s : Statement) : s.toJson.Plain := by
  cases s with
  | contraction output lhs rhs => simp [toJson, Access.plain_toJson]
  | elementwise op output inputs =>
    simp [toJson, ElementwiseOp.toJson, Access.plain_toJson, plain_ofList Access.plain_toJson]

theorem Loop.plain_toJson (l : Loop) : l.toJson.Plain := by
  cases hwidth : l.vectorWidth <;> simp [toJson, memberIfSome, hwidth]

theorem Nest.plain_toJson (n : Nest) : n.toJson.Plain := by
  simp [toJson, plain_ofList Loop.plain_toJson]

theorem Kernel.plain_toJson (k : Kernel) : k.toJson.Plain := by
  cases htag : k.tag <;>
    simp [toJson, memberIfSome, htag, plain_ofList Tensor.plain_toJson,
      plain_ofList Iterator.plain_toJson, Statement.plain_toJson, Nest.plain_toJson]

/-- No two kernels share a place in a cache. -/
theorem Cache.key_injective : Injective key := by
  intro k k' h
  exact Kernel.toJson_injective (k.plain_toJson.eq_of_compact_eq k'.plain_toJson h)

end NestTuner
