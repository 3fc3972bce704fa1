import Mathlib.Data.List.Permutation
import NestTuner.Proofs.Editing
import NestTuner.Proofs.Lowering

/-!
When planning traps. Validation looks tensors, axes, loops and iterators up by position and divides
by a vector width, each time after a check that makes this safe, whatever the kernel. A valid kernel
then has room for its operands and an axis for its slabs, but nothing bounds the sizes of its
tensors: planning overflows exactly if a stride of an operand, or a step of a loop in it, is out of
the range of a word.
-/

namespace NestTuner

/-! ### Look-ups without a guard -/

/-- Checks that may also trap. -/
abbrev Unguarded (ε : Type) := ExceptT ε Checked

namespace Unguarded

variable {ε α β : Type}

/-- The outcome of checks that did not trap. -/
def report (x : Except ε α) : Unguarded ε α :=
  ExceptT.mk (.ok x)

/-- The entry at a position, or a trap past the end. -/
def look (xs : List α) (i : Nat) : Unguarded ε α :=
  ExceptT.lift (Checked.get xs i)

/-- A remainder, or a trap if there is no divisor. -/
def rem (a b : Nat) : Unguarded ε Nat :=
  if b = 0 then ExceptT.lift (.error .zeroDivisor) else report (.ok (a % b))

theorem report_bind {x : Except ε α} {f : α → Except ε β} {g : α → Unguarded ε β}
    (h : ∀ a, x = .ok a → g a = report (f a)) : report x >>= g = report (x >>= f) := by
  cases x with
  | error e => rfl
  | ok a => exact h a rfl

theorem look_bind {xs : List α} {i : Nat} {x : α} (h : xs[i]? = some x) (g : α → Unguarded ε β) :
    look xs i >>= g = g x := by
  have hget : Checked.get xs i = .ok x := Checked.get_eq_ok.mpr h
  rw [look, hget]
  rfl

theorem rem_bind {a b : Nat} (h : b ≠ 0) (g : Nat → Unguarded ε β) :
    rem a b >>= g = g (a % b) := by
  rw [rem, if_neg h]
  rfl

theorem forM_report {f : α → Except ε Unit} {g : α → Unguarded ε Unit} {xs : List α}
    (h : ∀ x ∈ xs, g x = report (f x)) : xs.forM g = report (xs.forM f) := by
  induction xs with
  | nil => rfl
  | cons x rest ih =>
    obtain ⟨hx, hrest⟩ := List.forall_mem_cons.mp h
    show (g x >>= fun _ => rest.forM g) = report (f x >>= fun _ => rest.forM f)
    rw [hx]
    exact report_bind fun _ _ => ih hrest

open Validity

/-- The axes of an operand, each looked up in the shape of the tensor. -/
def checkAxes (k : Kernel) (t : Tensor) : List Nat → List Nat → Unguarded Defect Unit
  | _, [] => report (.ok ())
  | earlier, index :: rest =>
    match k.iterators[index]? with
    | none => report (.error (.unknownIterator s!"#{index}"))
    | some it => do
      let dim ← look t.shape earlier.length
      report (checkAxis t.name earlier.length dim earlier index it.name it.extent)
      checkAxes k t (earlier ++ [index]) rest

def checkAccess (k : Kernel) (a : Access) : Unguarded Defect Unit :=
  match k.tensors[a.tensor]? with
  | none => report (.error (.unknownTensor s!"#{a.tensor}"))
  | some t =>
    if t.shape.length != a.indices.length then
      report (.error (.rankMismatch t.name t.shape.length a.indices.length))
    else checkAxes k t [] a.indices

def checkAliasing (k : Kernel) : Unguarded Defect Unit :=
  match k.statement.inputs.find? (·.tensor == k.statement.output.tensor) with
  | none => report (.ok ())
  | some a => do
    let t ← look k.tensors a.tensor
    report (.error (.aliasedOutput t.name))

def checkParallel (k : Kernel) : Unguarded Violation Unit :=
  match k.nest.positions (·.parallel) with
  | [] => report (.ok ())
  | [i] =>
    if i != 0 || !k.nest.isOutermostLevel i then report (.error (.misplacedParallel i))
    else do
      let l ← look k.nest.loops i
      let it ← look k.iterators l.iterator
      report (if it.kind == .reduction then .error (.parallelReduction it.name) else .ok ())
  | loops => report (.error (.multipleParallel loops.length))

def checkVector (k : Kernel) : Unguarded Violation Unit :=
  match k.nest.positions (·.vectorWidth.isSome) with
  | [] => report (.ok ())
  | [i] => do
    let l ← look k.nest.loops i
    if i + 1 != k.nest.depth || l.parallel then report (.error (.misplacedVector i))
    else
      let width := l.vectorWidth.getD 1
      if !vectorWidths.contains width then report (.error (.badVectorWidth width l.extent))
      else do
        let excess ← rem l.extent width
        report (if excess != 0 then .error (.badVectorWidth width l.extent) else .ok ())
  | loops => report (.error (.multipleVector loops.length))

def checkLegality (k : Kernel) : Unguarded Violation Unit := do
  report k.checkBindings
  report k.checkCoverage
  checkParallel k
  checkVector k

/-- Validation with all its look-ups. -/
def validate (k : Kernel) : Unguarded Defect Unit := do
  report <| checkNames k.name (k.iterators.map fun it => (it.name, it.extent))
    (k.tensors.map (·.name))
  report k.checkInputCount
  k.statement.accesses.forM (checkAccess k)
  checkAliasing k
  report <| k.iterators.zipIdx.forM fun (it, i) => checkUse k.statement i it.name it.kind
  ExceptT.adapt .illegalNest (checkLegality k)

/-- Once the ranks agree, there is an axis for every iterator. -/
theorem checkAxes_eq {k : Kernel} {t : Tensor} {before dims : List Nat} (earlier indices : List Nat)
    (hshape : t.shape = before ++ dims) (hbefore : before.length = earlier.length)
    (hdims : dims.length = indices.length) :
    checkAxes k t earlier indices = report (k.checkAxes t.name earlier (dims.zip indices)) := by
  induction indices generalizing earlier before dims with
  | nil => simp [checkAxes, Kernel.checkAxes]
  | cons index rest ih =>
    cases dims with
    | nil => simp at hdims
    | cons dim dims =>
      rw [checkAxes, List.zip_cons_cons, Kernel.checkAxes]
      cases hit : k.iterators[index]? with
      | none => rfl
      | some it =>
        -- the axes gone through are as many as the iterators before this one
        have hdim : t.shape[earlier.length]? = some dim := by
          rw [hshape, ← hbefore]
          simp
        dsimp only
        rw [look_bind hdim]
        have hnext : t.shape = (before ++ [dim]) ++ dims := by simpa using hshape
        exact report_bind fun _ _ => ih (earlier ++ [index]) hnext (by simpa using hbefore)
          (by simpa using hdims)

theorem checkAccess_eq (k : Kernel) (a : Access) : checkAccess k a = report (k.checkAccess a) := by
  unfold checkAccess Kernel.checkAccess
  cases ht : k.tensors[a.tensor]? with
  | none => rfl
  | some t =>
    by_cases hlen : t.shape.length = a.indices.length
    · simpa [hlen] using checkAxes_eq [] a.indices (List.nil_append t.shape).symm rfl hlen
    · simp [hlen]

/-- The output is looked up after it was found as an operand. -/
theorem checkAliasing_eq {k : Kernel} (h : k.statement.accesses.forM k.checkAccess = .ok ()) :
    checkAliasing k = report (Validity.checkAliasing k.tensors k.statement) := by
  have hbacked : k.Backed k.statement.output :=
    Kernel.checkAccess_eq_ok.mp (forM_eq_ok.mp h _ List.mem_cons_self)
  obtain ⟨-, -, t, ht, -⟩ := hbacked
  unfold checkAliasing Validity.checkAliasing
  cases hfind : k.statement.inputs.find? (·.tensor == k.statement.output.tensor) with
  | none =>
    have hany : k.statement.inputs.any (·.tensor == k.statement.output.tensor) = false := by
      simpa using hfind
    simp [hany]
  | some a =>
    have hsame : a.tensor = k.statement.output.tensor := by simpa using List.find?_some hfind
    have hany : k.statement.inputs.any (·.tensor == k.statement.output.tensor) = true :=
      List.any_eq_true.mpr ⟨a, List.mem_of_find?_eq_some hfind, by simpa using hsame⟩
    dsimp only
    rw [hsame, look_bind ht, hany, ht]
    rfl

/-- The parallel loop is looked up where it was found, and its iterator after the bindings. -/
theorem checkParallel_eq {k : Kernel} (h : k.checkBindings = .ok ()) :
    checkParallel k = report k.checkParallel := by
  have hfound := fun i => Nest.mem_positions (n := k.nest) (p := (·.parallel)) (i := i)
  unfold checkParallel Kernel.checkParallel
  cases hpositions : k.nest.positions (·.parallel) with
  | nil => rfl
  | cons i rest =>
    cases rest with
    | cons j rest => rfl
    | nil =>
      obtain ⟨l, hl, -⟩ := (hfound i).mp (by simp [hpositions])
      have hit := List.getElem?_eq_getElem
        (Kernel.checkBindings_eq_ok.mp h l (List.mem_of_getElem? hl))
      dsimp only
      split
      · rfl
      · rw [look_bind hl, look_bind hit, hl]
        simp [hit]

/-- The extent is divided only by a width that is known, and zero is none. -/
theorem checkVector_eq (k : Kernel) : checkVector k = report k.checkVector := by
  have hfound := fun i => Nest.mem_positions (n := k.nest) (p := (·.vectorWidth.isSome)) (i := i)
  unfold checkVector Kernel.checkVector
  cases hpositions : k.nest.positions (·.vectorWidth.isSome) with
  | nil => rfl
  | cons i rest =>
    cases rest with
    | cons j rest => rfl
    | nil =>
      obtain ⟨⟨iterator, extent, stride, parallel, vectorWidth⟩, hl, hwidth⟩ :=
        (hfound i).mp (by simp [hpositions])
      obtain ⟨width, rfl⟩ := Option.isSome_iff_exists.mp hwidth
      dsimp only
      rw [look_bind hl, hl]
      by_cases hplace : (i + 1 != k.nest.depth || parallel) = true
      · simp [hplace]
      · by_cases hknown : width ∈ vectorWidths
        · have hne : width ≠ 0 := by
            rintro rfl
            exact absurd hknown (by decide)
          simp [hplace, hknown, rem_bind hne]
        · simp [hplace, hknown]

/-- No look-up of validation is out of range. -/
theorem validate_eq (k : Kernel) : validate k = report k.validate := by
  have hlegality : checkLegality k = report k.checkLegality := by
    refine report_bind fun _ hbindings => report_bind fun _ _ => ?_
    rw [checkParallel_eq hbindings, checkVector_eq]
    exact report_bind fun _ _ => rfl
  refine report_bind fun _ _ => report_bind fun _ _ => ?_
  rw [forM_report fun a _ => checkAccess_eq k a]
  refine report_bind fun _ haccesses => ?_
  rw [checkAliasing_eq haccesses, hlegality]
  refine report_bind fun _ _ => report_bind fun _ _ => ?_
  cases k.checkLegality <;> rfl

end Unguarded

/-! ### Outcomes of planning -/

namespace Kernel

/-- A kernel that is not admitted is refused without a trap. -/
theorem exists_refusal {k : Kernel} (h : ¬k.Admitted) :
    ∃ e, Plan.compile k = .error e ∧ ∀ trap, e ≠ .trapped trap := by
  rcases compile_of_not_admitted h with ⟨t, -, hrefused⟩ | ⟨defect, -, hrefused⟩
  · exact ⟨_, hrefused, fun trap => nofun⟩
  · exact ⟨_, hrefused, fun trap => nofun⟩

theorem exists_compile_iff {k : Kernel} : (∃ p, Plan.compile k = .ok p) ↔
    k.Admitted ∧ ∀ a ∈ k.statement.accesses, k.Addressable a := by
  by_cases hadmitted : k.Admitted
  · by_cases hall : ∀ a ∈ k.statement.accesses, k.Addressable a
    · simpa [hadmitted.compile_eq.1 hall, hadmitted] using hall
    · simp [hadmitted.compile_eq.2 hall, hadmitted, hall]
  · obtain ⟨e, he, -⟩ := exists_refusal hadmitted
    simp [he, hadmitted]

theorem compile_eq_trapped_iff {k : Kernel} {trap : Trap} :
    Plan.compile k = .error (.trapped trap) ↔
      trap = .overflow ∧ k.Admitted ∧ ∃ a ∈ k.statement.accesses, ¬k.Addressable a := by
  by_cases hadmitted : k.Admitted
  · by_cases hall : ∀ a ∈ k.statement.accesses, k.Addressable a
    · simpa [hadmitted.compile_eq.1 hall, hadmitted] using fun _ => hall
    · have hsome : ∃ a ∈ k.statement.accesses, ¬k.Addressable a := by simpa using hall
      simp [hadmitted.compile_eq.2 hall, hadmitted, hsome, eq_comm]
  · obtain ⟨e, he, hnot⟩ := exists_refusal hadmitted
    simp [he, hadmitted, hnot]

/-- The parallel loop of a valid kernel is the outermost one. -/
theorem Valid.eq_zero_of_parallelLoop? {k : Kernel} (h : k.Valid) {i : Nat}
    (hi : k.nest.parallelLoop? = some i) : i = 0 ∧ ∃ outer inner,
      k.nest.loops = outer :: inner ∧ outer.parallel = true := by
  obtain ⟨hlt, hparallel, -⟩ := List.findIdx?_eq_some_iff_getElem.mp hi
  have hplaced := h.legal.parallelPlaced
  obtain ⟨rfl, -⟩ := parallelPlaced_iff.mp hplaced i _ (List.getElem?_eq_getElem hlt) hparallel
  obtain ⟨inner, hloops⟩ := hplaced.eq_cons (List.getElem_mem hlt) hparallel
  exact ⟨rfl, _, inner, hloops, hparallel⟩

/-- Validation never traps, whatever the kernel, and it leaves planning room for the operands and an
axis for the slabs. So planning returns a plan or a refusal unless the kernel is admitted with an
operand that is not addressable, where it overflows. No kernel whose tensors have fewer elements
than there are words has such an operand. -/
theorem compile_trapped_iff (k : Kernel) :
    Unguarded.validate k = Unguarded.report k.validate ∧
    (k.validate = .ok () → k.statement.inputs.length ≤ 2 ∧
      ∀ i, k.nest.parallelLoop? = some i → i = 0 ∧ ∃ outer inner, k.nest.loops = outer :: inner ∧
        ∃ axis < (k.shapeOf k.statement.output).length,
          k.statement.output.axisOf outer.iterator = some axis) ∧
    ((∃ p, Plan.compile k = .ok p) ↔
      k.Admitted ∧ ∀ a ∈ k.statement.accesses, k.Addressable a) ∧
    (∀ trap, Plan.compile k = .error (.trapped trap) ↔
      trap = .overflow ∧ k.Admitted ∧ ∃ a ∈ k.statement.accesses, ¬k.Addressable a) ∧
    ((∀ t ∈ k.tensors, Shape.size t.shape < Word.count) →
      ∀ trap, Plan.compile k ≠ .error (.trapped trap)) := by
  refine ⟨Unguarded.validate_eq k, fun hvalidate => ?_, exists_compile_iff,
    fun _ => compile_eq_trapped_iff, ?_⟩
  · have hvalid := valid_of_validate hvalidate
    refine ⟨hvalid.length_inputs_le, fun i hi => ?_⟩
    obtain ⟨hzero, outer, inner, hloops, hparallel⟩ := hvalid.eq_zero_of_parallelLoop? hi
    exact ⟨hzero, outer, inner, hloops, hvalid.exists_axisOf hloops hparallel⟩
  · intro hsizes trap htrap
    obtain ⟨-, hadmitted, a, ha, hnot⟩ := compile_eq_trapped_iff.mp htrap
    have hvalid := valid_of_validate hadmitted.2
    obtain ⟨-, -, t, ht, hshape⟩ := hvalid.backed a ha
    refine hnot (hvalid.addressable_of_size ?_)
    rw [shapeOf, ← hshape]
    exact hsizes t (List.mem_of_getElem? ht)

/-- The product of square matrices after a history with every kind of edit has a plan in slabs. -/
theorem compile_trapped_iff_tuned :
    Draft.tuned.validate = .ok () ∧ Draft.tuned.statement.inputs.length ≤ 2 ∧
    Draft.tuned.nest.parallelLoop? = some 0 ∧
    (∃ axis < (Draft.tuned.shapeOf Draft.tuned.statement.output).length,
      Draft.tuned.statement.output.axisOf 0 = some axis) ∧
    (∀ t ∈ Draft.tuned.tensors, Shape.size t.shape < Word.count) ∧
    ∀ trap, Plan.compile Draft.tuned ≠ .error (.trapped trap) := by
  have hvalidate : Draft.tuned.validate = .ok () := by cbv
  have hparallel : Draft.tuned.nest.parallelLoop? = some 0 := by decide
  have hsizes : ∀ t ∈ Draft.tuned.tensors, Shape.size t.shape < Word.count := by decide
  obtain ⟨-, hrange, -, -, htotal⟩ := compile_trapped_iff Draft.tuned
  obtain ⟨hlength, hsplit⟩ := hrange hvalidate
  obtain ⟨-, outer, inner, hloops, axis, haxis, hfound⟩ := hsplit 0 hparallel
  obtain rfl : ⟨0, 2, 4, true, none⟩ = outer := (List.cons.inj hloops).1
  exact ⟨hvalidate, hlength, hparallel, ⟨axis, haxis, hfound⟩, hsizes, htotal hsizes⟩

/-- A copy of a tensor with as many elements as there are words, along two axes. -/
def vast : Kernel where
  name := "copy"
  tag := none
  tensors := [⟨"A", [1, 4294967296, 4294967296], .f32⟩, ⟨"B", [1, 4294967296, 4294967296], .f32⟩]
  iterators := [⟨"i", 1, .parallel⟩, ⟨"j", 4294967296, .parallel⟩, ⟨"k", 4294967296, .parallel⟩]
  statement := .elementwise .copy ⟨1, [0, 1, 2]⟩ [⟨0, [0, 1, 2]⟩]
  nest := ⟨[.full 0 1, .full 1 4294967296, .full 2 4294967296]⟩

/-- A valid kernel on which planning overflows: the stride of its first axis is no word. -/
theorem compile_vast_overflows :
    vast.validate = .ok () ∧ Plan.compile vast = .error (.trapped .overflow) := by
  constructor
  · cbv
  · cbv

end Kernel

end NestTuner
