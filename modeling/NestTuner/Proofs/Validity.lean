import NestTuner.Kernel.Draft
import NestTuner.Proofs.Legality
import NestTuner.Proofs.RowMajor

/-!
What a valid kernel guarantees: every operand has a tensor whose axes are as long as the iterators
that index them, no iterator indexes an operand twice, and the output is not read. Whether a kernel
is valid depends on its nest through legality only, and a kernel built from a draft is valid.
-/

namespace NestTuner

open Validity

namespace Kernel

/-- An operand with a tensor behind it, laid out by the iterators that index it. -/
def Backed (k : Kernel) (a : Access) : Prop :=
  a.indices.Nodup ∧ (∀ i ∈ a.indices, i < k.iterators.length) ∧
    ∃ t, k.tensors[a.tensor]? = some t ∧ t.shape = a.indices.map k.extentOf

/-- What validation promises beside the names. -/
structure Valid (k : Kernel) : Prop where
  positive : ∀ it ∈ k.iterators, 0 < it.extent
  arity : ∀ op output inputs, k.statement = .elementwise op output inputs →
    inputs.length = op.arity
  backed : ∀ a ∈ k.statement.accesses, k.Backed a
  unaliased : ∀ a ∈ k.statement.inputs, a.tensor ≠ k.statement.output.tensor
  used : ∀ i it, k.iterators[i]? = some it → k.statement.uses i = true ∧
    k.statement.kindOf i = it.kind ∧ (k.statement.isElementwise = true → it.kind = .parallel)
  legal : k.Legal

theorem checkIterators_eq_ok {seen names : List String} {iterators : List (String × Nat)}
    (h : checkIterators seen iterators = .ok names) : ∀ it ∈ iterators, 0 < it.2 := by
  induction iterators generalizing seen with
  | nil => simp
  | cons it rest ih =>
    obtain ⟨name, extent⟩ := it
    rw [checkIterators] at h
    split at h
    case isTrue => cases h
    case isFalse =>
      split at h
      case isTrue => cases h
      case isFalse hextent =>
        refine List.forall_mem_cons.mpr ⟨?_, ih h⟩
        simpa [Nat.pos_iff_ne_zero] using hextent

theorem checkAxis_eq_ok {tensor iterator : String} {axis dim index extent : Nat}
    {earlier : List Nat} : checkAxis tensor axis dim earlier index iterator extent = .ok () ↔
      index ∉ earlier ∧ dim = extent := by
  unfold checkAxis
  by_cases hmem : index ∈ earlier
  · simp [hmem]
  · by_cases hdim : dim = extent <;> simp [hmem, hdim]

/-- The axes of an operand pass when every iterator is there, new, and as long as its axis. -/
theorem checkAxes_eq_ok {k : Kernel} {tensor : String} {earlier : List Nat}
    {axes : List (Nat × Nat)} : k.checkAxes tensor earlier axes = .ok () ↔
      (∀ axis ∈ axes, ∃ it, k.iterators[axis.2]? = some it ∧ axis.1 = it.extent) ∧
        (axes.map (·.2)).Nodup ∧ ∀ axis ∈ axes, axis.2 ∉ earlier := by
  induction axes generalizing earlier with
  | nil => simp [checkAxes]
  | cons axis rest ih =>
    obtain ⟨dim, index⟩ := axis
    rw [checkAxes]
    cases hit : k.iterators[index]? with
    | none =>
      constructor
      · intro h
        cases h
      · rintro ⟨h, -⟩
        obtain ⟨it, hsome, -⟩ := h (dim, index) (List.mem_cons_self ..)
        simp [hit] at hsome
    | some it =>
      rw [seq_eq_ok, checkAxis_eq_ok, ih]
      simp only [List.forall_mem_cons, List.map_cons, List.nodup_cons, List.mem_append,
        List.mem_singleton, hit, Option.some.injEq, exists_eq_left', List.mem_map]
      constructor
      · rintro ⟨⟨hnew, hdim⟩, hrest, hnodup, hearlier⟩
        refine ⟨⟨hdim, hrest⟩, ⟨?_, hnodup⟩, hnew, fun a ha h => hearlier a ha (Or.inl h)⟩
        rintro ⟨a, ha, rfl⟩
        exact hearlier a ha (Or.inr rfl)
      · rintro ⟨⟨hdim, hrest⟩, ⟨hfresh, hnodup⟩, hnew, hearlier⟩
        refine ⟨⟨hnew, hdim⟩, hrest, hnodup, ?_⟩
        rintro a ha (h | h)
        · exact hearlier a ha h
        · exact hfresh ⟨a, ha, h⟩

theorem checkAccess_eq_ok {k : Kernel} {a : Access} : k.checkAccess a = .ok () ↔ k.Backed a := by
  unfold checkAccess Backed
  cases ht : k.tensors[a.tensor]? with
  | none => simp
  | some t =>
    by_cases hlen : t.shape.length = a.indices.length
    · have hsnd : (t.shape.zip a.indices).map (·.2) = a.indices :=
        List.map_snd_zip (Nat.le_of_eq hlen.symm)
      simp only [hlen, bne_self_eq_false, Bool.false_eq_true, if_false, checkAxes_eq_ok, hsnd,
        List.not_mem_nil, not_false_eq_true, implies_true, and_true, Option.some.injEq,
        exists_eq_left']
      constructor
      · rintro ⟨haxes, hnodup⟩
        have hget : ∀ n (hn : n < t.shape.length) (hn' : n < a.indices.length), ∃ it,
            k.iterators[a.indices[n]]? = some it ∧ t.shape[n] = it.extent := fun n hn hn' =>
          haxes (t.shape[n], a.indices[n])
            (List.mem_iff_getElem.mpr ⟨n, by simpa using ⟨hn, hn'⟩, by simp⟩)
        refine ⟨hnodup, ?_, ?_⟩
        · intro i hi
          obtain ⟨n, hn, rfl⟩ := List.mem_iff_getElem.mp hi
          obtain ⟨it, hit, -⟩ := hget n (hlen ▸ hn) hn
          exact (List.getElem?_eq_some_iff.mp hit).1
        · refine List.ext_getElem (by simpa using hlen) fun n hn hn' => ?_
          obtain ⟨it, hit, hdim⟩ := hget n hn (hlen ▸ hn)
          rw [List.getElem_map, extentOf_eq hit, hdim]
      · rintro ⟨hnodup, hbound, hshape⟩
        refine ⟨fun axis haxis => ?_, hnodup⟩
        obtain ⟨n, hn, rfl⟩ := List.mem_iff_getElem.mp haxis
        simp only [List.getElem_zip]
        have hn' : n < a.indices.length := by
          rw [List.length_zip] at hn
          omega
        have hit := List.getElem?_eq_getElem (hbound _ (List.getElem_mem hn'))
        refine ⟨_, hit, ?_⟩
        simp only [hshape, List.getElem_map, extentOf_eq hit]
    · have hne : t.shape ≠ a.indices.map k.extentOf := fun h => hlen (by simp [h])
      simp [hlen, hne]

theorem checkUse_eq_ok {s : Statement} {index : Nat} {name : String} {kind : IteratorKind} :
    checkUse s index name kind = .ok () ↔ s.uses index = true ∧ s.kindOf index = kind ∧
      (s.isElementwise = true → kind = .parallel) := by
  unfold checkUse
  by_cases huses : s.uses index = true
  · by_cases hkind : s.kindOf index = kind
    · subst hkind
      cases s.isElementwise <;> cases s.kindOf index <;> simp [huses]
    · simp [huses, hkind]
  · simp [huses]

theorem checkAliasing_of_eq_ok {k : Kernel} (h : checkAliasing k.tensors k.statement = .ok ())
    (hbacked : k.Backed k.statement.output) :
    ∀ a ∈ k.statement.inputs, a.tensor ≠ k.statement.output.tensor := by
  obtain ⟨-, -, t, ht, -⟩ := hbacked
  intro a ha heq
  have hany : k.statement.inputs.any (·.tensor == k.statement.output.tensor) = true :=
    List.any_eq_true.mpr ⟨a, ha, by simpa using heq⟩
  simp [checkAliasing, hany, ht] at h

/-- The checks of a kernel that do not look at its nest. -/
def checkSurface (k : Kernel) : Except Defect Unit := do
  checkNames k.name (k.iterators.map fun it => (it.name, it.extent)) (k.tensors.map (·.name))
  k.checkInputCount
  k.statement.accesses.forM k.checkAccess
  checkAliasing k.tensors k.statement
  k.iterators.zipIdx.forM fun (it, i) => checkUse k.statement i it.name it.kind

theorem validate_eq_ok {k : Kernel} :
    k.validate = .ok () ↔ k.checkSurface = .ok () ∧ k.checkLegality = .ok () := by
  simp only [validate, checkSurface]
  rw [seq_eq_ok, seq_eq_ok, seq_eq_ok, seq_eq_ok, seq_eq_ok, seq_eq_ok, seq_eq_ok, seq_eq_ok,
    seq_eq_ok]
  cases k.checkLegality with
  | error violation => simp [throw, throwThe, MonadExceptOf.throw]
  | ok u => simp [pure, Except.pure]

theorem checkSurface_eq_ok {k : Kernel} : k.checkSurface = .ok () ↔
    checkNames k.name (k.iterators.map fun it => (it.name, it.extent)) (k.tensors.map (·.name)) =
      .ok () ∧ k.checkInputCount = .ok () ∧ (∀ a ∈ k.statement.accesses, k.Backed a) ∧
    checkAliasing k.tensors k.statement = .ok () ∧
    ∀ i it, k.iterators[i]? = some it → k.statement.uses i = true ∧
      k.statement.kindOf i = it.kind ∧
      (k.statement.isElementwise = true → it.kind = .parallel) := by
  rw [checkSurface, seq_eq_ok, seq_eq_ok, seq_eq_ok, seq_eq_ok, forM_eq_ok, forM_zipIdx_eq_ok]
  simp only [checkAccess_eq_ok, checkUse_eq_ok]

theorem positive_of_checkSurface {k : Kernel} (h : k.checkSurface = .ok ()) :
    ∀ it ∈ k.iterators, 0 < it.extent := by
  obtain ⟨hnames, -⟩ := checkSurface_eq_ok.mp h
  unfold checkNames at hnames
  split at hnames
  case isTrue => cases hnames
  case isFalse =>
    obtain ⟨names, hiterators, -⟩ := bind_eq_ok.mp hnames
    intro it hit
    exact checkIterators_eq_ok hiterators (it.name, it.extent) (List.mem_map.mpr ⟨it, hit, rfl⟩)

/-- Every iterator runs along an axis of some tensor. -/
theorem extent_le_size {k : Kernel} (h : k.checkSurface = .ok ()) (i : Nat) :
    k.extentOf i = 1 ∨ ∃ t ∈ k.tensors, k.extentOf i ≤ Shape.size t.shape := by
  obtain ⟨-, -, hbacked, -, huse⟩ := checkSurface_eq_ok.mp h
  cases hi : k.iterators[i]? with
  | none => exact Or.inl (by simp [extentOf, hi])
  | some it =>
    obtain ⟨a, ha, hmem⟩ := List.any_eq_true.mp (huse i it hi).1
    obtain ⟨-, hbound, t, ht, hshape⟩ := hbacked a ha
    refine Or.inr ⟨t, List.mem_of_getElem? ht, ?_⟩
    have hdim : k.extentOf i ∈ t.shape := by
      rw [hshape]
      exact List.mem_map_of_mem (by simpa using hmem)
    have hpos : ∀ dim ∈ t.shape, 0 < dim := by
      intro dim hdim
      rw [hshape] at hdim
      obtain ⟨j, hj, rfl⟩ := List.mem_map.mp hdim
      have hget := List.getElem?_eq_getElem (hbound j hj)
      rw [extentOf_eq hget]
      exact positive_of_checkSurface h _ (List.mem_of_getElem? hget)
    exact Nat.le_of_dvd (Shape.size_pos hpos) (Shape.dvd_size hdim)

theorem valid_of_validate {k : Kernel} (h : k.validate = .ok ()) : k.Valid := by
  obtain ⟨hsurface, hlegal⟩ := validate_eq_ok.mp h
  obtain ⟨-, hcount, hbacked, haliasing, huse⟩ := checkSurface_eq_ok.mp hsurface
  refine ⟨positive_of_checkSurface hsurface, ?_, hbacked,
    checkAliasing_of_eq_ok haliasing (hbacked _ (List.mem_cons_self ..)), huse,
    checkLegality_eq_ok.mp hlegal⟩
  intro op output inputs hstatement
  simpa [checkInputCount, hstatement, checkArity] using hcount

/-- A kernel whose surface is in order is valid with every legal nest. -/
theorem validate_of_legal {k : Kernel} (h : k.checkSurface = .ok ()) {nest : Nest}
    (hlegal : ({ k with nest := nest } : Kernel).Legal) :
    ({ k with nest := nest } : Kernel).validate = .ok () := by
  have hfacts := checkSurface_eq_ok.mp h
  exact validate_eq_ok.mpr ⟨checkSurface_eq_ok.mpr hfacts, checkLegality_eq_ok.mpr hlegal⟩

/-- Whether an iterator is summed away. -/
def reduces (k : Kernel) (i : Nat) : Bool :=
  k.iterators[i]?.any fun it => it.kind == .reduction

namespace Valid

theorem extentOf_pos {k : Kernel} (h : k.Valid) (i : Nat) : 0 < k.extentOf i := by
  unfold extentOf
  split
  case h_1 it hit => exact h.positive it (List.mem_of_getElem? hit)
  case h_2 => exact Nat.one_pos

/-- The iterators of the output are the parallel ones. -/
theorem mem_output_iff {k : Kernel} (h : k.Valid) {i : Nat} {it : Iterator}
    (hit : k.iterators[i]? = some it) :
    i ∈ k.statement.output.indices ↔ it.kind = .parallel := by
  obtain ⟨-, hkind, -⟩ := h.used i it hit
  rw [← hkind, Statement.kindOf]
  by_cases hmem : i ∈ k.statement.output.indices <;> simp [hmem]

/-- What the output does not name is summed away. -/
theorem reduces_eq {k : Kernel} (h : k.Valid) {i : Nat} (hi : i < k.iterators.length) :
    k.reduces i = !k.statement.output.indices.contains i := by
  have hit := List.getElem?_eq_getElem hi
  rw [Bool.eq_iff_iff, Bool.not_eq_true', ← Bool.not_eq_true, List.contains_iff_mem,
    h.mem_output_iff hit, reduces, hit, Option.any_some]
  cases k.iterators[i].kind <;> simp

end Valid

end Kernel

namespace Draft

/-- The iterators of a kernel are those of a draft, with kinds. -/
def Declares (d : Draft) (k : Kernel) : Prop :=
  k.tensors = d.tensors ∧ ∀ (i : Nat) (named : String × Nat), d.iterators[i]? = some named →
    ∃ it, k.iterators[i]? = some it ∧ it.extent = named.2

/-- Resolving axes adds iterators that are new and as long as the axes. -/
theorem resolveAxes_eq_ok {d : Draft} {k : Kernel} (hk : d.Declares k) {tensor : String}
    {earlier indices : List Nat} {axes : List (Nat × String)} (hnodup : earlier.Nodup)
    (h : d.resolveAxes tensor earlier axes = .ok indices) :
    indices.Nodup ∧ ∃ added, indices = earlier ++ added ∧
      (∀ i ∈ added, i < k.iterators.length) ∧ axes.map (·.1) = added.map k.extentOf := by
  induction axes generalizing earlier with
  | nil =>
    cases h
    exact ⟨hnodup, [], by simp⟩
  | cons axis rest ih =>
    obtain ⟨dim, name⟩ := axis
    rw [resolveAxes] at h
    split at h
    case h_1 => cases h
    case h_2 named extent index hfind =>
      obtain ⟨haxis, hrest⟩ := seq_eq_ok.mp h
      obtain ⟨hnew, hdim⟩ := Kernel.checkAxis_eq_ok.mp haxis
      have hindex : d.iterators[index]? = some (named, extent) :=
        List.mk_mem_zipIdx_iff_getElem?.mp (List.mem_of_find?_eq_some hfind)
      obtain ⟨it, hit, hextent⟩ := hk.2 index _ hindex
      have hgrown : (earlier ++ [index]).Nodup := by
        refine List.nodup_append.mpr ⟨hnodup, List.nodup_singleton index, ?_⟩
        rintro a ha b hb rfl
        exact hnew (List.mem_singleton.mp hb ▸ ha)
      obtain ⟨hall, added, rfl, hbound, hdims⟩ := ih hgrown hrest
      refine ⟨hall, index :: added, by simp, ?_, ?_⟩
      · exact List.forall_mem_cons.mpr ⟨(List.getElem?_eq_some_iff.mp hit).1, hbound⟩
      · rw [List.map_cons, List.map_cons, hdims, Kernel.extentOf_eq hit, hextent, hdim]

theorem backed_of_resolve {d : Draft} {k : Kernel} (hk : d.Declares k) {o : Operand} {a : Access}
    (h : d.resolve o = .ok a) : k.Backed a := by
  unfold resolve at h
  split at h
  case h_1 => cases h
  case h_2 t index hfind =>
    split at h
    case isTrue => cases h
    case isFalse hlen =>
      obtain ⟨indices, hindices, hpure⟩ := bind_eq_ok.mp h
      cases hpure
      obtain ⟨hnodup, added, rfl, hbound, hdims⟩ := resolveAxes_eq_ok hk List.nodup_nil hindices
      have ht : d.tensors[index]? = some t :=
        List.mk_mem_zipIdx_iff_getElem?.mp (List.mem_of_find?_eq_some hfind)
      have hshape : (t.shape.zip o.indices).map (·.1) = t.shape :=
        List.map_fst_zip (by simpa using Nat.le_of_eq (by simpa using hlen))
      rw [hshape] at hdims
      exact ⟨hnodup, hbound, t, hk.1 ▸ ht, hdims⟩

/-- The operands of a resolved statement are backed, and an elementwise one has its arity. -/
theorem resolveStatement_eq_ok {d : Draft} {k : Kernel} (hk : d.Declares k) {named : Statement}
    {s : NestTuner.Statement} (h : d.resolveStatement named = .ok s) :
    (∀ a ∈ s.accesses, k.Backed a) ∧
      ∀ op output inputs, s = .elementwise op output inputs → inputs.length = op.arity := by
  cases named with
  | contraction output lhs rhs =>
    obtain ⟨out, hout, h⟩ := bind_eq_ok.mp h
    obtain ⟨l, hl, h⟩ := bind_eq_ok.mp h
    obtain ⟨r, hr, h⟩ := bind_eq_ok.mp h
    cases h
    refine ⟨?_, by simp⟩
    simp only [Statement.accesses, Statement.output, Statement.inputs, List.forall_mem_cons,
      List.not_mem_nil, false_implies, implies_true, and_true]
    exact ⟨backed_of_resolve hk hout, backed_of_resolve hk hl, backed_of_resolve hk hr⟩
  | elementwise op output inputs =>
    obtain ⟨harity, h⟩ := seq_eq_ok.mp h
    obtain ⟨out, hout, h⟩ := bind_eq_ok.mp h
    obtain ⟨ins, hins, h⟩ := bind_eq_ok.mp h
    cases h
    have hall := mapM_eq_ok.mp hins
    constructor
    · refine List.forall_mem_cons.mpr ⟨backed_of_resolve hk hout, fun a ha => ?_⟩
      obtain ⟨n, hn, rfl⟩ := List.mem_iff_getElem.mp ha
      exact backed_of_resolve hk (hall.get (hall.length_eq ▸ hn) hn)
    · rintro op' output' inputs' heq
      cases heq
      rw [← hall.length_eq]
      simpa [checkArity] using harity

/-- The kernel of a draft once its statement is resolved. -/
def kernelOf (d : Draft) (s : NestTuner.Statement) : Kernel :=
  let iterators := d.iterators.mapIdx fun i (name, extent) => Iterator.mk name extent (s.kindOf i)
  ⟨d.name, d.tag, d.tensors, iterators, s, Nest.identity iterators⟩

theorem kernelOf_iterators (d : Draft) (s : NestTuner.Statement) (i : Nat) :
    (d.kernelOf s).iterators[i]? =
      d.iterators[i]?.map fun named => ⟨named.1, named.2, s.kindOf i⟩ := by
  simp [kernelOf]

theorem kernelOf_names (d : Draft) (s : NestTuner.Statement) :
    (d.kernelOf s).iterators.map (fun it => (it.name, it.extent)) = d.iterators := by
  apply List.ext_getElem?
  intro i
  cases hi : d.iterators[i]? <;> simp [kernelOf_iterators, hi]

theorem declares_kernelOf (d : Draft) (s : NestTuner.Statement) : d.Declares (d.kernelOf s) :=
  ⟨rfl, fun i named hi => ⟨_, by rw [kernelOf_iterators, hi]; rfl, rfl⟩⟩

/-- A draft that can be built has a statement that can be resolved, and gives its kernel. -/
theorem build_eq_ok {d : Draft} {k : Kernel} (h : d.build = .ok k) :
    ∃ named s, d.resolveStatement named = .ok s ∧ k = d.kernelOf s ∧
      checkNames d.name d.iterators (d.tensors.map (·.name)) = .ok () ∧
      checkAliasing d.tensors s = .ok () ∧
      k.iterators.zipIdx.forM (fun (it, i) => checkUse s i it.name it.kind) = .ok () := by
  obtain ⟨hnames, h⟩ := seq_eq_ok.mp h
  cases hnamed : d.statement with
  | none =>
    rw [hnamed] at h
    cases h
  | some named =>
    rw [hnamed] at h
    obtain ⟨s, hs, h⟩ := bind_eq_ok.mp h
    obtain ⟨haliasing, h⟩ := seq_eq_ok.mp h
    obtain ⟨huse, hpure⟩ := seq_eq_ok.mp h
    cases hpure
    exact ⟨named, s, hs, rfl, hnames, haliasing, huse⟩

/-- The kernel that a draft describes passes every check that does not look at its nest, and its
nest is the identity. -/
theorem checkSurface_of_build {d : Draft} {k : Kernel} (h : d.build = .ok k) :
    k.checkSurface = .ok () ∧ k.nest = Nest.identity k.iterators ∧
      k.iterators.map (fun it => (it.name, it.extent)) = d.iterators := by
  obtain ⟨named, s, hs, rfl, hnames, haliasing, huse⟩ := build_eq_ok h
  obtain ⟨hbacked, harity⟩ := resolveStatement_eq_ok (declares_kernelOf d s) hs
  refine ⟨Kernel.checkSurface_eq_ok.mpr ⟨?_, ?_, hbacked, haliasing, ?_⟩, rfl, kernelOf_names d s⟩
  · rw [kernelOf_names]
    exact hnames
  · cases s with
    | contraction output lhs rhs => rfl
    | elementwise op output inputs =>
      simp [Kernel.checkInputCount, kernelOf, checkArity, harity op output inputs rfl]
  · intro i it hit
    exact Kernel.checkUse_eq_ok.mp (forM_zipIdx_eq_ok.mp huse i it hit)

end Draft

end NestTuner
