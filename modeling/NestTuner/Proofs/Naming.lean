import Mathlib.Data.List.Permutation
import NestTuner.Proofs.Editing

/-!
A kernel written down by names. When no name stands for two things, looking a name up finds the
tensor or the iterator that it was written for, so building the draft of a kernel goes through the
same checks as validating the kernel, and ends with the kernel or with the same defect.
-/

namespace NestTuner

open Validity

/-! ### Names that stand for one thing -/

/-- A name that was not seen goes before names that differ from it and were not seen. -/
theorem nodup_cons_of_fresh {seen names : List String} {name : String} (hnew : name ∉ seen)
    (h : names.Nodup ∧ ∀ other ∈ names, other ∉ name :: seen) :
    (name :: names).Nodup ∧ ∀ other ∈ name :: names, other ∉ seen := by
  obtain ⟨hnodup, hfresh⟩ := h
  rw [List.nodup_cons, List.forall_mem_cons]
  refine ⟨⟨fun hmem => hfresh name hmem List.mem_cons_self, hnodup⟩, hnew, ?_⟩
  exact fun other hmem hseen => hfresh other hmem (List.mem_cons_of_mem name hseen)

theorem nodup_of_checkIterators {seen names : List String} {iterators : List (String × Nat)}
    (h : checkIterators seen iterators = .ok names) :
    (iterators.map (·.1)).Nodup ∧ ∀ name ∈ iterators.map (·.1), name ∉ seen := by
  induction iterators generalizing seen with
  | nil => simp
  | cons it rest ih =>
    obtain ⟨name, extent⟩ := it
    rw [checkIterators] at h
    split at h
    case isTrue => cases h
    case isFalse hnew =>
      split at h
      case isTrue => cases h
      case isFalse => exact nodup_cons_of_fresh (by simpa using hnew) (ih h)

theorem nodup_of_checkTensors {seen names : List String} (h : checkTensors seen names = .ok ()) :
    names.Nodup ∧ ∀ name ∈ names, name ∉ seen := by
  induction names generalizing seen with
  | nil => simp
  | cons name rest ih =>
    rw [checkTensors] at h
    split at h
    case isTrue => cases h
    case isFalse hnew => exact nodup_cons_of_fresh (by simpa using hnew) (ih h)

theorem nodup_of_checkNames {kernel : String} {iterators : List (String × Nat)}
    {tensors : List String} (h : checkNames kernel iterators tensors = .ok ()) :
    (iterators.map (·.1)).Nodup ∧ tensors.Nodup := by
  unfold checkNames at h
  split at h
  case isTrue => cases h
  case isFalse =>
    obtain ⟨seen, hiterators, htensors⟩ := bind_eq_ok.mp h
    exact ⟨(nodup_of_checkIterators hiterators).1, (nodup_of_checkTensors htensors).1⟩

/-- The first entry with the name of an entry is that entry. -/
theorem find?_zipIdx_of_nodup {α : Type} {f : α → String} {xs : List α} (h : (xs.map f).Nodup)
    {i : Nat} {x : α} (hx : xs[i]? = some x) :
    xs.zipIdx.find? (fun entry => f entry.1 == f x) = some (x, i) := by
  cases hfind : xs.zipIdx.find? (fun entry => f entry.1 == f x) with
  | none =>
    have hmiss := List.find?_eq_none.mp hfind (x, i) (List.mk_mem_zipIdx_iff_getElem?.mpr hx)
    simp at hmiss
  | some entry =>
    obtain ⟨y, j⟩ := entry
    have hy : xs[j]? = some y :=
      List.mk_mem_zipIdx_iff_getElem?.mp (List.mem_of_find?_eq_some hfind)
    have hname : f y = f x := by simpa using List.find?_some hfind
    have hi : i < (xs.map f).length := by simpa using (List.getElem?_eq_some_iff.mp hx).1
    obtain rfl : i = j := (List.getElem?_inj hi h).mp (by simp [hx, hy, hname])
    rw [Option.some.inj (hx.symm.trans hy)]

/-! ### The draft of a kernel -/

namespace Kernel

def tensorName (k : Kernel) (tensor : Nat) : String :=
  match k.tensors[tensor]? with
  | some t => t.name
  | none => "?"

theorem iteratorName_eq {k : Kernel} {i : Nat} {it : Iterator} (h : k.iterators[i]? = some it) :
    k.iteratorName i = it.name := by
  simp [iteratorName, h]

theorem tensorName_eq {k : Kernel} {tensor : Nat} {t : Tensor} (h : k.tensors[tensor]? = some t) :
    k.tensorName tensor = t.name := by
  simp [tensorName, h]

/-- An operand by its names. -/
def draftOperand (k : Kernel) (a : Access) : Draft.Operand :=
  ⟨k.tensorName a.tensor, a.indices.map k.iteratorName⟩

def namedStatement (k : Kernel) : Draft.Statement :=
  match k.statement with
  | .contraction output lhs rhs =>
    .contraction (k.draftOperand output) (k.draftOperand lhs) (k.draftOperand rhs)
  | .elementwise op output inputs =>
    .elementwise op (k.draftOperand output) (inputs.map k.draftOperand)

/-- A kernel by its names. The kinds of the iterators and the nest are left out. -/
def draft (k : Kernel) : Draft :=
  ⟨k.name, k.tag, k.iterators.map fun it => (it.name, it.extent), k.tensors, some k.namedStatement⟩

theorem mapM_resolve_eq (k : Kernel) (inputs : List Access)
    (hresolve : ∀ a ∈ inputs, k.draft.resolve (k.draftOperand a) = (do k.checkAccess a; return a)) :
    (inputs.map k.draftOperand).mapM k.draft.resolve =
      (do inputs.forM k.checkAccess; return inputs) := by
  induction inputs with
  | nil => rfl
  | cons a inputs ih =>
    obtain ⟨hhead, htail⟩ := List.forall_mem_cons.1 hresolve
    have hforM : (a :: inputs).forM k.checkAccess =
      (do k.checkAccess a; inputs.forM k.checkAccess) := rfl
    rw [List.map_cons, List.mapM_cons, hhead, ih htail, hforM]
    simp only [bind_assoc, pure_bind]

/-- The draft leaves nothing out: the kinds are those that the statement gives, the nest is the
identity, and every number names something. -/
structure Draftable (k : Kernel) : Prop where
  nest : k.nest = Nest.identity k.iterators
  kinds : ∀ i (_ : i < k.iterators.length), k.iterators[i].kind = k.statement.kindOf i
  tensors : ∀ a ∈ k.statement.accesses, a.tensor < k.tensors.length
  iterators : ∀ a ∈ k.statement.accesses, ∀ i ∈ a.indices, i < k.iterators.length
  words : ∀ it ∈ k.iterators, it.extent < Word.count

/-- No two iterators have one name, and no two tensors. -/
structure DistinctNames (k : Kernel) : Prop where
  iterators : (k.iterators.map (·.name)).Nodup
  tensors : (k.tensors.map (·.name)).Nodup

theorem distinctNames_of_checkNames {k : Kernel} {u : Unit}
    (h : checkNames k.name (k.iterators.map fun it => (it.name, it.extent))
      (k.tensors.map (·.name)) = .ok u) : k.DistinctNames := by
  obtain ⟨hiterators, htensors⟩ := nodup_of_checkNames h
  exact ⟨by simpa [Function.comp_def] using hiterators, htensors⟩

namespace DistinctNames

variable {k : Kernel} (h : k.DistinctNames)

include h

theorem find?_iterator {i : Nat} {it : Iterator} (hit : k.iterators[i]? = some it) :
    k.draft.iterators.zipIdx.find? (·.1.1 == it.name) = some ((it.name, it.extent), i) := by
  refine find?_zipIdx_of_nodup (f := (·.1)) (x := (it.name, it.extent)) ?_ ?_
  · simpa [draft, Function.comp_def] using h.iterators
  · simp [draft, hit]

theorem find?_tensor {tensor : Nat} {t : Tensor} (ht : k.tensors[tensor]? = some t) :
    k.draft.tensors.zipIdx.find? (·.1.name == t.name) = some (t, tensor) :=
  find?_zipIdx_of_nodup h.tensors ht

/-- The axes of an operand are resolved when they are in order, and have the same defect else. -/
theorem resolveAxes_eq (tensor : String) (earlier : List Nat) (axes : List (Nat × Nat))
    (hbound : ∀ axis ∈ axes, axis.2 < k.iterators.length) :
    k.draft.resolveAxes tensor earlier (axes.map (Prod.map id k.iteratorName)) =
      (do k.checkAxes tensor earlier axes; return earlier ++ axes.map (·.2)) := by
  induction axes generalizing earlier with
  | nil => simp [Draft.resolveAxes, checkAxes, pure, Except.pure, bind, Except.bind]
  | cons axis rest ih =>
    obtain ⟨dim, index⟩ := axis
    obtain ⟨hindex, hrest⟩ := List.forall_mem_cons.1 hbound
    have hit := List.getElem?_eq_getElem hindex
    rw [List.map_cons, Prod.map_apply, Draft.resolveAxes, checkAxes, id, iteratorName_eq hit]
    simp only [h.find?_iterator hit, hit, ih (earlier ++ [index]) hrest, bind_assoc, List.map_cons,
      List.append_assoc, List.cons_append, List.nil_append]

theorem resolve_eq {a : Access} (htensor : a.tensor < k.tensors.length)
    (hindices : ∀ i ∈ a.indices, i < k.iterators.length) :
    k.draft.resolve (k.draftOperand a) = (do k.checkAccess a; return a) := by
  obtain ⟨t, ht⟩ : ∃ t, k.tensors[a.tensor]? = some t := ⟨_, List.getElem?_eq_getElem htensor⟩
  have haxes := h.resolveAxes_eq t.name [] (t.shape.zip a.indices)
    fun axis haxis => hindices axis.2 (List.of_mem_zip haxis).2
  rw [← List.zip_map_right] at haxes
  rw [Draft.resolve, draftOperand, tensorName_eq ht, checkAccess, ht]
  simp only [h.find?_tensor ht, haxes, List.length_map, List.nil_append]
  by_cases hrank : t.shape.length = a.indices.length
  · rw [List.map_snd_zip (Nat.le_of_eq hrank.symm)]
    simp only [hrank, bne_self_eq_false, Bool.false_eq_true, if_false, bind_assoc, pure_bind]
  · simp only [bne_iff_ne, ne_eq, hrank, not_false_eq_true, if_true]
    rfl

theorem resolveStatement_eq (hk : k.Draftable) :
    k.draft.resolveStatement k.namedStatement = (do
      k.checkInputCount
      k.statement.accesses.forM k.checkAccess
      return k.statement) := by
  have hresolve : ∀ a ∈ k.statement.accesses,
      k.draft.resolve (k.draftOperand a) = (do k.checkAccess a; return a) := fun a ha =>
    h.resolve_eq (hk.tensors a ha) (hk.iterators a ha)
  obtain ⟨houtput, hinputs⟩ := List.forall_mem_cons.1 hresolve
  have hforM : k.statement.accesses.forM k.checkAccess =
    (do k.checkAccess k.statement.output; k.statement.inputs.forM k.checkAccess) := rfl
  rw [hforM, namedStatement, checkInputCount]
  cases hs : k.statement with
  | contraction output lhs rhs =>
    rw [hs] at houtput hinputs
    have hpair : [lhs, rhs].forM k.checkAccess =
      (do k.checkAccess lhs; k.checkAccess rhs; return ()) := rfl
    simp only [Statement.output, Statement.inputs, List.forall_mem_cons] at houtput hinputs
    obtain ⟨hlhs, hrhs, -⟩ := hinputs
    simp only [Draft.resolveStatement, houtput, hlhs, hrhs, hpair, Statement.output,
      Statement.inputs, bind_assoc, pure_bind]
    rfl
  | elementwise op output inputs =>
    rw [hs] at houtput hinputs
    have hmapM := k.mapM_resolve_eq inputs hinputs
    simp only [Statement.output] at houtput
    simp only [Draft.resolveStatement, houtput, hmapM, List.length_map, Statement.output,
      Statement.inputs, bind_assoc, pure_bind]

end DistinctNames

theorem Draftable.kernelOf_draft {k : Kernel} (h : k.Draftable) :
    k.draft.kernelOf k.statement = k := by
  have hiterators : (k.draft.kernelOf k.statement).iterators = k.iterators := by
    apply List.ext_getElem?
    intro i
    rw [Draft.kernelOf_iterators]
    cases hit : k.iterators[i]? with
    | none => simp [draft, hit]
    | some it =>
      obtain ⟨hi, rfl⟩ := List.getElem?_eq_some_iff.mp hit
      simp [draft, hit, ← h.kinds i hi]
  have hnest : (k.draft.kernelOf k.statement).nest = k.nest := by
    rw [h.nest, ← hiterators]
    rfl
  obtain ⟨name, tag, tensors, iterators, statement, nest⟩ := k
  exact congrArg₂ (Kernel.mk name tag tensors · statement ·) hiterators hnest

/-- Building the draft of a kernel, step by step. -/
theorem draft_build (k : Kernel) : k.draft.build = (do
    checkNames k.name (k.iterators.map fun it => (it.name, it.extent)) (k.tensors.map (·.name))
    let s ← k.draft.resolveStatement k.namedStatement
    checkAliasing k.tensors s
    (k.draft.kernelOf s).iterators.zipIdx.forM fun entry =>
      checkUse s entry.2 entry.1.name entry.1.kind
    return k.draft.kernelOf s) :=
  rfl

/-- The draft of a kernel is built if the kernel passes the checks that do not look at its nest, and
has the same defect else. -/
theorem Draftable.build_eq_checkSurface {k : Kernel} (h : k.Draftable) :
    k.draft.build = (do k.checkSurface; return k) := by
  rw [draft_build, checkSurface]
  cases hnames : checkNames k.name (k.iterators.map fun it => (it.name, it.extent))
    (k.tensors.map (·.name)) with
  | error defect => rfl
  | ok u =>
    have hdistinct := distinctNames_of_checkNames hnames
    simp only [hdistinct.resolveStatement_eq h, bind_assoc, pure_bind, h.kernelOf_draft]

/-- With a full loop for every iterator, the nest adds no defect. -/
theorem Draftable.validate_eq_checkSurface {k : Kernel} (h : k.Draftable) :
    k.validate = k.checkSurface := by
  have hassoc : k.validate = k.checkSurface >>= fun _ => k.checkLegality.mapError .illegalNest := by
    simp only [validate, checkSurface, bind_assoc]
    cases k.checkLegality <;> rfl
  rw [hassoc]
  cases hsurface : k.checkSurface with
  | error defect => rfl
  | ok u =>
    have hscheduled : k.Scheduled := .identity (positive_of_checkSurface hsurface) h.nest
    have hfits := extentOf_lt_of_forall h.words (Nat.one_lt_two_pow (n := 64) (by omega))
    rw [checkLegality_eq_ok.mpr (hscheduled.legal hfits)]
    rfl

theorem validate_of_build {d : Draft} {k : Kernel} (h : d.build = .ok k)
    (hfits : ∀ it ∈ d.iterators, it.2 < Word.count) : k.validate = .ok () := by
  have hreplay : k.replay [] = .ok k := rfl
  exact (Draft.validate_of_replay h (Draft.extentOf_lt_of_build h hfits) hreplay).2.1

/-- Building and validating agree: the draft of a kernel is built as the kernel if the kernel is
valid, else it has the defect of the kernel. Every kernel that was built is valid. -/
theorem build_draft :
    (∀ k : Kernel, k.Draftable → k.draft.build = k.validate.map fun _ => k) ∧
      ∀ (d : Draft) (k : Kernel), (∀ it ∈ d.iterators, it.2 < Word.count) → d.build = .ok k →
        k.validate = .ok () := by
  constructor
  · intro k hk
    rw [hk.build_eq_checkSurface, hk.validate_eq_checkSurface]
    cases k.checkSurface <;> rfl
  · intro d k hfits h
    exact validate_of_build h hfits

/-- A product that reads what it writes, and a vector along two iterators. -/
def muddled : Kernel :=
  { matmul "muddled" 8 8 8 with
    tensors := [⟨"A", [8], .f32⟩, ⟨"B", [8, 8], .f32⟩, ⟨"C", [8, 8], .f32⟩]
    statement := .contraction ⟨2, [0, 1]⟩ ⟨2, [0, 2]⟩ ⟨0, [2, 1]⟩ }

theorem build_draft_muddled :
    (matmul "square" 8 8 8).draft.build = .ok (matmul "square" 8 8 8) ∧
      muddled.draft.build = .error (.rankMismatch "A" 1 2) ∧
      (matmul "square" 8 8 8).validate = .ok () := by
  have hsquare : (matmul "square" 8 8 8).Draftable :=
    ⟨rfl, by decide, by decide, by decide, by decide⟩
  have hmuddled : muddled.Draftable := ⟨rfl, by decide, by decide, by decide, by decide⟩
  refine ⟨?_, ?_, build_draft.2 (Draft.square 8) _ (by decide) Draft.square_build⟩
  · rw [build_draft.1 _ hsquare]
    cbv
  · rw [build_draft.1 _ hmuddled]
    cbv

end Kernel

end NestTuner
