import NestTuner.Proofs.Touches

/-!
The types of emitted code. A value that is loaded has the element type of its memory, and a sum or a
product has the type that its instruction names. Arithmetic needs operands of that type and a store
needs a value of the type of its memory. All arithmetic names the type of the output, so the code of
a kernel keeps to the types exactly if the operands of the statement have one type.
-/

namespace NestTuner

/-- The element type of an operand. -/
def Kernel.typeOf (k : Kernel) (a : Access) : Option ElementType :=
  k.tensors[a.tensor]?.map (·.element)

namespace Mlir

/-- The element types of the values that have one. -/
abbrev Types := Value → Option ElementType

def Types.empty : Types := fun _ => none

/-- The types after an instruction. -/
def Op.types (Γ : Types) : Op → Types
  | load result source => Function.update Γ result (some source.tensor.element)
  | mulf result _ _ type => Function.update Γ result (some type)
  | addf result _ _ type => Function.update Γ result (some type)
  | _ => Γ

/-- An element that is written with the type of the argument that holds it and a subscript for each
axis. -/
def Element.Typed (arguments : List Tensor) (e : Element) : Prop :=
  arguments[e.argument]? = some e.tensor ∧ e.subscripts.length = e.tensor.shape.length

instance (arguments : List Tensor) (e : Element) : Decidable (e.Typed arguments) :=
  inferInstanceAs (Decidable (_ ∧ _))

/-- An instruction whose operands have the types that it names. -/
def Op.Typed (arguments : List Tensor) (Γ : Types) : Op → Prop
  | load _ source => source.Typed arguments
  | mulf _ a b type => Γ a = some type ∧ Γ b = some type
  | addf _ a b type => Γ a = some type ∧ Γ b = some type
  | store value target => target.Typed arguments ∧ Γ value = some target.tensor.element
  | _ => True

instance (arguments : List Tensor) (Γ : Types) : (op : Op) → Decidable (op.Typed arguments Γ)
  | .load .. => inferInstanceAs (Decidable (Element.Typed _ _))
  | .mulf .. => inferInstanceAs (Decidable (_ ∧ _))
  | .addf .. => inferInstanceAs (Decidable (_ ∧ _))
  | .store .. => inferInstanceAs (Decidable (_ ∧ _))
  | .constant .. => .isTrue trivial
  | .enter .. => .isTrue trivial
  | .leave .. => .isTrue trivial
  | .muli .. => .isTrue trivial
  | .addi .. => .isTrue trivial

/-- Instructions that keep to the types, each of them at the types of the values before it. -/
def WellTyped (arguments : List Tensor) : Types → List Op → Prop
  | _, [] => True
  | Γ, op :: rest => op.Typed arguments Γ ∧ WellTyped arguments (op.types Γ) rest

instance decidableWellTyped (arguments : List Tensor) :
    (Γ : Types) → (ops : List Op) → Decidable (WellTyped arguments Γ ops)
  | _, [] => .isTrue trivial
  | Γ, op :: rest =>
    have := decidableWellTyped arguments (op.types Γ) rest
    inferInstanceAs (Decidable (_ ∧ _))

section WellTyped

variable {arguments : List Tensor} {Γ : Types}

theorem wellTyped_append {xs ys : List Op} :
    WellTyped arguments Γ (xs ++ ys) ↔
      WellTyped arguments Γ xs ∧ WellTyped arguments (xs.foldl Op.types Γ) ys := by
  induction xs generalizing Γ with
  | nil => simp [WellTyped]
  | cons op rest ih => simp [WellTyped, ih, and_assoc]

theorem Op.typed_of_isIndexing {op : Op} (h : op.isIndexing = true) :
    op.Typed arguments Γ ∧ op.types Γ = Γ := by
  cases op <;> simp_all [isIndexing, Typed, types]

theorem wellTyped_of_isIndexing {ops : List Op} (h : ∀ op ∈ ops, op.isIndexing = true) :
    WellTyped arguments Γ ops ∧ ops.foldl Op.types Γ = Γ := by
  induction ops with
  | nil => exact ⟨trivial, rfl⟩
  | cons op rest ih =>
    obtain ⟨hop, hrest⟩ := List.forall_mem_cons.mp h
    obtain ⟨htyped, htypes⟩ := Op.typed_of_isIndexing hop
    rw [WellTyped, List.foldl_cons, htypes]
    exact ⟨⟨htyped, (ih hrest).1⟩, (ih hrest).2⟩

/-- Code on indices around instructions makes no difference to their types. -/
theorem wellTyped_inside {front ops back : List Op}
    (h : ∀ op ∈ front ++ back, op.isIndexing = true) :
    WellTyped arguments Γ (front ++ ops ++ back) ↔ WellTyped arguments Γ ops := by
  obtain ⟨hfront, hback⟩ := List.forall_mem_append.mp h
  obtain ⟨htyped, htypes⟩ := @wellTyped_of_isIndexing arguments Γ front hfront
  rw [wellTyped_append, wellTyped_append, htypes]
  simp [htyped, (wellTyped_of_isIndexing hback).1]

end WellTyped

/-! ### The code of a kernel -/

section Statement

variable {k : Kernel} {values : List Value} {a : Access} {e : Element}

theorem typeOf_of_element (h : element k values a = .ok e) :
    k.typeOf a = some e.tensor.element := by
  rw [Kernel.typeOf, Checked.get_eq_ok.mp (element_eq_ok.mp h).2.1, Option.map_some]

theorem typed_of_element (hbacked : k.Backed a) (h : element k values a = .ok e) :
    e.Typed k.tensors := by
  obtain ⟨hargument, htensor, hsubscripts⟩ := element_eq_ok.mp h
  obtain ⟨-, -, t, ht, hshape⟩ := hbacked
  have hget := Checked.get_eq_ok.mp htensor
  obtain rfl : e.tensor = t := Option.some.inj (hget.symm.trans ht)
  refine ⟨hargument ▸ hget, ?_⟩
  rw [hshape, List.length_map, ← (mapM_eq_ok.mp hsubscripts).length_eq]

/-- The statement of a valid kernel keeps to the types if its inputs have the type of the output. -/
theorem Written.wellTyped_iff {ops : List Op} (hvalid : k.Valid) (h : Written k values ops)
    (Γ : Types) :
    WellTyped k.tensors Γ ops ↔
      ∀ a ∈ k.statement.inputs, k.typeOf a = k.typeOf k.statement.output := by
  have hbacked := hvalid.backed
  cases h with
  | contraction hs htarget hx hy =>
    simp only [hs, Statement.accesses, Statement.output, Statement.inputs,
      List.forall_mem_cons] at hbacked ⊢
    obtain ⟨houtput, hlhs, hrhs, -⟩ := hbacked
    simp [WellTyped, Op.Typed, Op.types, typed_of_element houtput htarget,
      typed_of_element hlhs hx, typed_of_element hrhs hy, typeOf_of_element htarget,
      typeOf_of_element hx, typeOf_of_element hy]
  | @elementwise op output inputs target sources hs htarget hsources =>
    have harity := hvalid.arity _ _ _ hs
    have hall := mapM_eq_ok.mp hsources
    simp only [hs, Statement.accesses, Statement.output, Statement.inputs,
      List.forall_mem_cons] at hbacked ⊢
    obtain ⟨houtput, hinputs⟩ := hbacked
    have htarget' := typed_of_element houtput htarget
    cases op with
    | copy =>
      obtain ⟨a, rfl⟩ := List.length_eq_one_iff.mp harity
      obtain ⟨x, _, hx, hnil, rfl⟩ := List.forall₂_cons_left_iff.mp hall
      obtain rfl := List.forall₂_nil_left_iff.mp hnil
      obtain ⟨ha, -⟩ := List.forall_mem_cons.mp hinputs
      simp [combination, outcome, WellTyped, Op.Typed, Op.types, htarget', typed_of_element ha hx,
        typeOf_of_element htarget, typeOf_of_element hx]
    | add | mul =>
      obtain ⟨a, b, rfl⟩ := List.length_eq_two.mp harity
      obtain ⟨x, _, hx, hrest, rfl⟩ := List.forall₂_cons_left_iff.mp hall
      obtain ⟨y, _, hy, hnil, rfl⟩ := List.forall₂_cons_left_iff.mp hrest
      obtain rfl := List.forall₂_nil_left_iff.mp hnil
      obtain ⟨ha, hb, -⟩ := by simpa only [List.forall_mem_cons] using hinputs
      simp [combination, outcome, WellTyped, Op.Typed, Op.types, htarget', typed_of_element ha hx,
        typed_of_element hb hy, typeOf_of_element htarget, typeOf_of_element hx,
        typeOf_of_element hy]

end Statement

/-- Every valid kernel has code, and the code keeps to the types exactly if the inputs of the
statement have the element type of its output: validation does not ask for that. -/
theorem function_wellTyped_iff {k : Kernel} (h : k.validate = .ok ()) :
    ∃ code, ops k = .ok code ∧
      function k = .ok (header k ++ lines 2 code ++ "    return\n  \x7d\n") ∧
      (WellTyped k.tensors .empty code ↔
        ∀ a ∈ k.statement.inputs, k.typeOf a = k.typeOf k.statement.output) := by
  obtain ⟨code, hcode, htext⟩ := exists_function (Kernel.operandsFound_of_validate h)
  obtain ⟨front, statement, back, hstatement, rfl, hframe⟩ := exists_frame hcode
  refine ⟨_, hcode, htext, (wellTyped_inside hframe).trans ?_⟩
  exact hstatement.wellTyped_iff (Kernel.valid_of_validate h) .empty

/-- The product of matrices after a tuning, with elements of half the width. -/
def halved : Kernel :=
  { Draft.tuned with tensors := Draft.tuned.tensors.map fun t => { t with element := .bf16 } }

theorem function_wellTyped_iff_halved :
    halved.validate = .ok () ∧
      ∃ code, ops halved = .ok code ∧ WellTyped halved.tensors .empty code := by
  have hvalid : halved.validate = .ok () := by cbv
  obtain ⟨code, hcode, -, htyped⟩ := function_wellTyped_iff hvalid
  exact ⟨hvalid, code, hcode, htyped.mpr (by decide)⟩

/-- A copy from half precision to single precision. -/
def widening : Kernel :=
  ⟨"copy", none, [⟨"A", [4], .f16⟩, ⟨"B", [4], .f32⟩], [⟨"i", 4, .parallel⟩],
    .elementwise .copy ⟨1, [0]⟩ [⟨0, [0]⟩], ⟨[⟨0, 4, 1, false, none⟩]⟩⟩

/-- The value that is loaded in half precision is stored where single precision is kept. -/
theorem widening_not_wellTyped :
    widening.validate = .ok () ∧ ∃ code, ops widening = .ok code ∧
      .load (.input 0) ⟨0, ⟨"A", [4], .f16⟩, [.index 0]⟩ ∈ code ∧
      .store (.input 0) ⟨1, ⟨"B", [4], .f32⟩, [.index 0]⟩ ∈ code ∧
      ¬ WellTyped widening.tensors .empty code := by
  have hvalid : widening.validate = .ok () := by cbv
  exact ⟨hvalid, _, rfl, by decide, by decide, by decide⟩

end Mlir

end NestTuner
