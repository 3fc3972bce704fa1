import Mathlib.Data.List.Permutation
import NestTuner.Proofs.Keys
import NestTuner.Session.Files
import NestTuner.Session.World

/-!
Module files. The JSON of a kernel is decoded as the kernel when every number in it fits into a
word, and a disk gives back what was saved on it, so a module of valid kernels comes back from its
file as it was. A kernel that is not valid is named when the file is loaded.
-/

namespace NestTuner

open Json

/-! ### What was saved can be read -/

theorem Disk.read_of_write {d d' : Disk} {path text : String} (h : d.write path text = .ok d') :
    d'.read path = .ok text := by
  simp only [Disk.write] at h
  split at h
  case isTrue => cases h
  case isFalse =>
    split at h
    case isTrue =>
      cases h
      simp [Disk.read, Disk.file?]
    case isFalse => cases h

namespace World

variable {α β : Type} {w w' : World}

/-- What an action gives in a world, and the world after it. -/
def after (w : World) (action : World.Action α) : Except Trap α × World :=
  action.run.run w

theorem after_bind {x : World.Action α} {a : α} (h : w.after x = (.ok a, w'))
    (f : α → World.Action β) : w.after (x >>= f) = w'.after (f a) := by
  change ExceptT.bindCont f (w.after x).1 (w.after x).2 = _
  rw [h]
  rfl

theorem after_bind_inv {x : World.Action α} {f : α → World.Action β} {b : β}
    (h : w.after (x >>= f) = (.ok b, w')) :
    ∃ a v, w.after x = (.ok a, v) ∧ v.after (f a) = (.ok b, w') := by
  change ExceptT.bindCont f (w.after x).1 (w.after x).2 = _ at h
  rcases hx : w.after x with ⟨trap | a, v⟩
  · rw [hx] at h
    cases h
  · rw [hx] at h
    exact ⟨a, v, rfl, h⟩

/-- A change of the disk is refused or takes place. -/
theorem after_onDisk (w : World) (change : Disk → Except FileError Disk) :
    (∃ e, w.after (onDisk change) = (.ok (.error e), w)) ∨
      ∃ disk, change w.disk = .ok disk ∧
        w.after (onDisk change) = (.ok (.ok ()), { w with disk := disk }) := by
  have hget : w.after (get : World.Action World) = (.ok w, w) := rfl
  rw [onDisk, after_bind hget]
  cases change w.disk with
  | error e => exact .inl ⟨e, rfl⟩
  | ok disk => exact .inr ⟨disk, rfl, rfl⟩

theorem read_of_write {path text : String}
    (h : w.after (host.write path text) = (.ok (.ok ()), w')) : w'.disk.read path = .ok text := by
  obtain ⟨e, hrun⟩ | ⟨disk, hdisk, hrun⟩ := after_onDisk w (·.write path text)
  · cases hrun.symm.trans h
  · cases hrun.symm.trans h
    exact Disk.read_of_write hdisk

/-- Saving is writing, perhaps after directories have been created. -/
theorem write_of_save {path text : String}
    (h : w.after (host.save path text) = (.ok (.ok ()), w')) :
    ∃ disk, { w with disk }.after (host.write path text) = (.ok (.ok ()), w') := by
  unfold Host.save at h
  cases hparent : Path.parent? path with
  | none =>
    rw [hparent] at h
    exact ⟨w.disk, h⟩
  | some directory =>
    rw [hparent] at h
    obtain ⟨e, hrun⟩ | ⟨disk, -, hrun⟩ := after_onDisk w (·.createDirectory directory)
    · rw [after_bind (x := host.createDirectory directory) hrun] at h
      cases h
    · rw [after_bind (x := host.createDirectory directory) hrun] at h
      exact ⟨disk, h⟩

theorem read_of_save {path text : String}
    (h : w.after (host.save path text) = (.ok (.ok ()), w')) : w'.disk.read path = .ok text := by
  obtain ⟨disk, hwrite⟩ := write_of_save h
  exact read_of_write hwrite

/-- Saving a file changes nothing but the disk. -/
theorem eq_of_save {path text : String}
    (h : w.after (host.save path text) = (.ok (.ok ()), w')) : ∃ disk, w' = { w with disk } := by
  obtain ⟨created, hwrite⟩ := write_of_save h
  obtain ⟨e, hrun⟩ | ⟨disk, -, hrun⟩ := after_onDisk { w with disk := created } (·.write path text)
  · cases hrun.symm.trans hwrite
  · cases hrun.symm.trans hwrite
    exact ⟨disk, rfl⟩

theorem after_read {path text : String} (h : w.disk.read path = .ok text) :
    w.after (host.read path) = (.ok (.ok text), w) := by
  rw [← h]
  rfl

end World

/-! ### Numbers and lists -/

namespace Json

theorem word?_nat {n : Nat} (h : n < Word.count) : (nat n).word? = some n := by
  simp [word?, natBelow?, nat, Number.nat?, Number.ofNat, h]

theorem option?_nat {n : Nat} (h : n < Word.count) : option? word? (nat n) = some (some n) := by
  have hvalue : option? word? (nat n) = (word? (nat n)).map some := rfl
  rw [hvalue, word?_nat h]
  rfl

theorem list?_ofList {α : Type} {encode : α → Json} {decode : Json → Option α} {xs : List α}
    (h : ∀ x ∈ xs, decode (encode x) = some x) : list? decode (ofList encode xs) = some xs := by
  rw [ofList, list?]
  induction xs with
  | nil => rfl
  | cons x xs ih =>
    rw [List.map_cons, List.mapM_cons, h x List.mem_cons_self,
      ih fun y hy => h y (List.mem_cons_of_mem x hy)]
    rfl

theorem words?_ofList {xs : List Nat} (h : ∀ x ∈ xs, x < Word.count) :
    (ofList nat xs).words? = some xs :=
  list?_ofList fun x hx => word?_nat (h x hx)

end Json

def Access.numbers (a : Access) : List Nat :=
  a.tensor :: a.indices

def Loop.numbers (l : Loop) : List Nat :=
  [l.iterator, l.extent, l.stride] ++ l.vectorWidth.toList

namespace Kernel

/-- All numbers of a kernel. -/
def numbers (k : Kernel) : List Nat :=
  k.tensors.flatMap (·.shape) ++ k.iterators.map (·.extent) ++
    k.statement.accesses.flatMap Access.numbers ++ k.nest.loops.flatMap Loop.numbers

/-- Every number fits into a word. -/
def InWords (k : Kernel) : Prop :=
  ∀ n ∈ k.numbers, n < Word.count

instance (k : Kernel) : Decidable k.InWords :=
  inferInstanceAs (Decidable (∀ n ∈ k.numbers, n < Word.count))

namespace InWords

variable {k : Kernel}

theorem shape (h : k.InWords) {t : Tensor} (ht : t ∈ k.tensors) :
    ∀ dim ∈ t.shape, dim < Word.count :=
  fun dim hdim => h dim (by simp only [numbers, List.mem_append, List.mem_flatMap]; grind)

theorem extent (h : k.InWords) {it : Iterator} (hit : it ∈ k.iterators) :
    it.extent < Word.count :=
  h it.extent (by simp only [numbers, List.mem_append, List.mem_map]; grind)

theorem access (h : k.InWords) {a : Access} (ha : a ∈ k.statement.accesses) :
    ∀ n ∈ a.numbers, n < Word.count :=
  fun n hn => h n (by simp only [numbers, List.mem_append, List.mem_flatMap]; grind)

theorem loop (h : k.InWords) {l : Loop} (hl : l ∈ k.nest.loops) :
    ∀ n ∈ l.numbers, n < Word.count :=
  fun n hn => h n (by simp only [numbers, List.mem_append, List.mem_flatMap]; grind)

end InWords

end Kernel

/-! ### Decoding gives back what was encoded -/

theorem ElementType.ofJson?_toJson (e : ElementType) : ofJson? e.toJson = some e := by
  cases e <;> rfl

theorem IteratorKind.ofJson?_toJson (k : IteratorKind) : ofJson? k.toJson = some k := by
  cases k <;> rfl

theorem ElementwiseOp.ofJson?_toJson (op : ElementwiseOp) : ofJson? op.toJson = some op := by
  cases op <;> rfl

theorem Tensor.ofJson?_toJson {t : Tensor} (h : ∀ dim ∈ t.shape, dim < Word.count) :
    ofJson? t.toJson = some t := by
  simp [ofJson?, toJson, record?, distinctNames, Record.required, List.lookup_cons, string?,
    words?_ofList h, ElementType.ofJson?_toJson]

theorem Iterator.ofJson?_toJson {it : Iterator} (h : it.extent < Word.count) :
    ofJson? it.toJson = some it := by
  simp [ofJson?, toJson, record?, distinctNames, Record.required, List.lookup_cons, string?,
    word?_nat h, IteratorKind.ofJson?_toJson]

theorem Access.ofJson?_toJson {a : Access} (h : ∀ n ∈ a.numbers, n < Word.count) :
    ofJson? a.toJson = some a := by
  obtain ⟨htensor, hindices⟩ := List.forall_mem_cons.1 h
  simp [ofJson?, toJson, record?, distinctNames, Record.required, List.lookup_cons,
    word?_nat htensor, words?_ofList hindices]

theorem Statement.ofJson?_toJson {s : Statement}
    (h : ∀ a ∈ s.accesses, Access.ofJson? a.toJson = some a) : ofJson? s.toJson = some s := by
  cases s with
  | contraction output lhs rhs =>
    obtain ⟨houtput, hinputs⟩ := List.forall_mem_cons.1 h
    obtain ⟨hlhs, hinputs⟩ := List.forall_mem_cons.1 hinputs
    obtain ⟨hrhs, -⟩ := List.forall_mem_cons.1 hinputs
    rw [Statement.output] at houtput
    simp [ofJson?, toJson, choiceWith?, record?, distinctNames, Record.required, List.lookup_cons,
      houtput, hlhs, hrhs]
  | elementwise op output inputs =>
    obtain ⟨houtput, hinputs⟩ := List.forall_mem_cons.1 h
    rw [Statement.output] at houtput
    rw [Statement.inputs] at hinputs
    simp [ofJson?, toJson, choiceWith?, record?, distinctNames, Record.required, List.lookup_cons,
      ElementwiseOp.ofJson?_toJson, houtput, list?_ofList hinputs]

theorem Loop.ofJson?_toJson {l : Loop} (h : ∀ n ∈ l.numbers, n < Word.count) :
    ofJson? l.toJson = some l := by
  obtain ⟨iterator, extent, stride, parallel, width⟩ := l
  simp only [numbers, List.cons_append, List.nil_append, List.forall_mem_cons] at h
  obtain ⟨hiterator, hextent, hstride, hwidth⟩ := h
  cases width with
  | none =>
    simp [ofJson?, toJson, memberIfSome, record?, distinctNames, Record.required, Record.defaulted,
      List.lookup_cons, bool?, word?_nat hiterator, word?_nat hextent, word?_nat hstride]
  | some width =>
    simp [ofJson?, toJson, memberIfSome, record?, distinctNames, Record.required, Record.defaulted,
      List.lookup_cons, bool?, word?_nat hiterator, word?_nat hextent, word?_nat hstride,
      option?_nat (hwidth width List.mem_cons_self)]

theorem Nest.ofJson?_toJson {n : Nest} (h : ∀ l ∈ n.loops, Loop.ofJson? l.toJson = some l) :
    ofJson? n.toJson = some n := by
  simp [ofJson?, toJson, record?, distinctNames, Record.required, list?_ofList h]

theorem Kernel.ofJson?_toJson {k : Kernel} (h : k.InWords) : ofJson? k.toJson = some k := by
  have htensors : list? Tensor.ofJson? (ofList Tensor.toJson k.tensors) = some k.tensors :=
    list?_ofList fun t ht => Tensor.ofJson?_toJson (h.shape ht)
  have hiterators :
      list? Iterator.ofJson? (ofList Iterator.toJson k.iterators) = some k.iterators :=
    list?_ofList fun it hit => Iterator.ofJson?_toJson (h.extent hit)
  have hstatement : Statement.ofJson? k.statement.toJson = some k.statement :=
    Statement.ofJson?_toJson fun a ha => Access.ofJson?_toJson (h.access ha)
  have hnest : Nest.ofJson? k.nest.toJson = some k.nest :=
    Nest.ofJson?_toJson fun l hl => Loop.ofJson?_toJson (h.loop hl)
  obtain ⟨name, tag, tensors, iterators, statement, nest⟩ := k
  cases tag <;>
    simp_all [ofJson?, toJson, memberIfSome, record?, distinctNames, Record.required,
      Record.defaulted, List.lookup_cons, string?, option?]

/-! ### Modules -/

namespace Module

theorem plain_toJson (m : Module) : m.toJson.Plain := by
  simp [toJson, plain_ofList Kernel.plain_toJson]

theorem toJson_injective : Function.Injective toJson := by
  intro m m' h
  cases m
  cases m'
  simpa [toJson, (ofList_injective Kernel.toJson_injective).eq_iff] using h

/-- Modules are told apart by their texts. -/
theorem text_injective : Function.Injective text :=
  fun m m' h => toJson_injective (m.plain_toJson.eq_of_pretty_eq m'.plain_toJson h)

theorem ofJson?_toJson {m : Module} (h : ∀ k ∈ m.kernels, k.InWords) :
    ofJson? m.toJson = some m := by
  have hkernels : list? Kernel.ofJson? (ofList Kernel.toJson m.kernels) = some m.kernels :=
    list?_ofList fun k hk => Kernel.ofJson?_toJson (h k hk)
  simp [ofJson?, toJson, record?, distinctNames, Record.required, hkernels]

/-- The text of a module is read as the module, whose kernels are then checked. -/
theorem ofText_text {m : Module} (h : ∀ k ∈ m.kernels, k.InWords) :
    ofText m.text = (checkKernels m.kernels).map fun _ => m := by
  have hparse : (Json.parse? m.text).bind ofJson? = some m := by
    rw [text, pretty, (m.plain_toJson.reads_pretty 0).parse?, Option.bind_some, ofJson?_toJson h]
  rw [ofText, hparse]
  change (checkKernels m.kernels >>= fun _ => pure m) = _
  cases checkKernels m.kernels <;> rfl

theorem checkKernels_append {before : List Kernel} (h : ∀ k ∈ before, k.validate = .ok ())
    (rest : List Kernel) : checkKernels (before ++ rest) = checkKernels rest := by
  induction before with
  | nil => rfl
  | cons k before ih =>
    obtain ⟨hk, hbefore⟩ := List.forall_mem_cons.1 h
    rw [List.cons_append, checkKernels, hk]
    exact ih hbefore

/-- A kernel with a defect, and valid kernels before it. -/
structure FirstDefect (kernels : List Kernel) (k : Kernel) (defect : Defect) : Prop where
  defective : k.validate = .error defect
  first : ∃ before after, kernels = before ++ k :: after ∧ ∀ k' ∈ before, k'.validate = .ok ()

theorem FirstDefect.checkKernels {kernels : List Kernel} {k : Kernel} {defect : Defect}
    (h : FirstDefect kernels k defect) :
    Module.checkKernels kernels = .error (.invalid k.name defect) := by
  obtain ⟨before, after, rfl, hbefore⟩ := h.first
  rw [checkKernels_append hbefore, Module.checkKernels, h.defective]

theorem exists_firstDefect {kernels : List Kernel} (h : ∃ k ∈ kernels, k.validate ≠ .ok ()) :
    ∃ k defect, FirstDefect kernels k defect := by
  induction kernels with
  | nil => simp at h
  | cons k kernels ih =>
    cases hk : k.validate with
    | error defect => exact ⟨k, defect, hk, [], kernels, rfl, by simp⟩
    | ok u =>
      obtain ⟨k', hk', hinvalid⟩ := h
      have hrest : k' ∈ kernels := by
        refine (List.mem_cons.1 hk').resolve_left ?_
        rintro rfl
        exact hinvalid hk
      obtain ⟨first, defect, hdefect, before, after, rfl, hbefore⟩ := ih ⟨k', hrest, hinvalid⟩
      exact ⟨first, defect, hdefect, k :: before, after, rfl,
        List.forall_mem_cons.2 ⟨hk, hbefore⟩⟩

section Loading

variable {path text : String} {w : World} (hread : w.disk.read path = .ok text)

include hread

theorem after_load {m : Module} (h : ofText text = .ok m) :
    w.after (load World.host path) = (.ok (.ok m), w) := by
  rw [load, World.after_bind (World.after_read hread)]
  simp only [h]
  rfl

theorem after_load_invalid {kernel : String} {defect : Defect}
    (h : ofText text = .error (.invalid kernel defect)) :
    w.after (load World.host path) = (.ok (.error (.invalidKernel kernel path defect)), w) := by
  rw [load, World.after_bind (World.after_read hread)]
  simp only [h]
  rfl

end Loading

/-- A module that was saved is loaded as it was if all its kernels are valid, else the error names
the first kernel that is not. The file holds the text of the module, and of no other module. -/
theorem load_saved {m : Module} (hwords : ∀ k ∈ m.kernels, k.InWords) {path : String}
    {w w' : World} (hsaved : w.after (m.save World.host path) = (.ok (.ok ()), w')) :
    ((∀ k ∈ m.kernels, k.validate = .ok ()) →
      w'.after (load World.host path) = (.ok (.ok m), w')) ∧
    ((∃ k ∈ m.kernels, k.validate ≠ .ok ()) → ∃ k defect, FirstDefect m.kernels k defect ∧
      w'.after (load World.host path) =
        (.ok (.error (.invalidKernel k.name path defect)), w')) ∧
    w'.disk.read path = .ok m.text ∧ ∀ m' : Module, m'.text = m.text → m' = m := by
  have hread := World.read_of_save hsaved
  refine ⟨fun hvalid => ?_, fun hinvalid => ?_, hread, fun m' h => text_injective h⟩
  · have hchecked : checkKernels m.kernels = .ok () := by
      simpa [checkKernels] using checkKernels_append hvalid []
    exact after_load hread (by rw [ofText_text hwords, hchecked]; rfl)
  · obtain ⟨k, defect, hfirst⟩ := exists_firstDefect hinvalid
    refine ⟨k, defect, hfirst, after_load_invalid hread ?_⟩
    rw [ofText_text hwords, hfirst.checkKernels]
    rfl

/-- A product of matrices with a name that has to be escaped, without a tag, and marks on its
loops. -/
def escaped : Kernel :=
  { Kernel.matmul "\"é\\\x01\n" 4 4 4 with
    tag := none
    nest := ⟨[⟨0, 4, 1, true, none⟩, ⟨1, 4, 1, false, none⟩, ⟨2, 4, 1, false, some 4⟩]⟩ }

/-- The same kernel without loops. -/
def unlooped : Kernel :=
  { escaped with nest := ⟨[]⟩ }

theorem exists_after_save (text : String) :
    ∃ w, (World.start 0).after (World.host.save "m" text) = (.ok (.ok ()), w) :=
  ⟨_, rfl⟩

theorem load_saved_escaped :
    (∃ w, (World.start 0).after (save World.host "m" ⟨[escaped]⟩) = (.ok (.ok ()), w) ∧
      w.after (load World.host "m") = (.ok (.ok ⟨[escaped]⟩), w)) ∧
    ∃ w k defect, (World.start 0).after (save World.host "m" ⟨[escaped, unlooped]⟩) =
        (.ok (.ok ()), w) ∧
      FirstDefect [escaped, unlooped] k defect ∧
      w.after (load World.host "m") = (.ok (.error (.invalidKernel k.name "m" defect)), w) := by
  have hvalid : escaped.validate = .ok () := by cbv
  have hinvalid : unlooped.validate ≠ .ok () := by cbv; simp
  constructor
  · obtain ⟨w, hsaved⟩ := exists_after_save (text ⟨[escaped]⟩)
    refine ⟨w, hsaved, (load_saved (m := ⟨[escaped]⟩) (by decide) hsaved).1 ?_⟩
    simpa using hvalid
  · obtain ⟨w, hsaved⟩ := exists_after_save (text ⟨[escaped, unlooped]⟩)
    obtain ⟨k, defect, hfirst, hload⟩ :=
      (load_saved (m := ⟨[escaped, unlooped]⟩) (by decide) hsaved).2.1
        ⟨unlooped, by simp, hinvalid⟩
    exact ⟨w, k, defect, hsaved, hfirst, hload⟩

end Module

end NestTuner
