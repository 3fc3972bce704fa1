import NestTuner.Proofs.Growth
import NestTuner.Session.Artifacts

/-!
When the code of a kernel can be written. Every operand has to name a tensor and iterators of the
kernel, and nothing else is asked. Edits do not change operands, so a history that replays has code
exactly if its root has.
-/

namespace NestTuner

namespace Kernel

/-- The operands name tensors and iterators of the kernel. -/
def OperandsFound (k : Kernel) : Prop :=
  ∀ a ∈ k.statement.accesses, a.tensor < k.tensors.length ∧ ∀ i ∈ a.indices, i < k.iterators.length

instance (k : Kernel) : Decidable k.OperandsFound :=
  inferInstanceAs (Decidable (∀ a ∈ k.statement.accesses, _ ∧ ∀ i ∈ a.indices, _))

theorem operandsFound_of_validate {k : Kernel} (h : k.validate = .ok ()) : k.OperandsFound := by
  intro a ha
  obtain ⟨-, hindices, t, ht, -⟩ := (valid_of_validate h).backed a ha
  exact ⟨(List.getElem?_eq_some_iff.mp ht).1, hindices⟩

end Kernel

namespace Mlir

theorem element_eq_ok {k : Kernel} {values : List Value} {a : Access} {e : Element} :
    element k values a = .ok e ↔ e.argument = a.tensor ∧
      Checked.get k.tensors a.tensor = .ok e.tensor ∧
      a.indices.mapM (Checked.get values) = .ok e.subscripts := by
  unfold element
  constructor
  · intro h
    obtain ⟨subscripts, hsubscripts, h⟩ := bind_eq_ok.mp h
    obtain ⟨t, ht, h⟩ := bind_eq_ok.mp h
    obtain rfl := Except.ok.inj h
    exact ⟨rfl, ht, hsubscripts⟩
  · intro ⟨hargument, htensor, hsubscripts⟩
    refine bind_eq_ok.mpr ⟨_, hsubscripts, bind_eq_ok.mpr ⟨_, htensor, ?_⟩⟩
    rw [← hargument]
    rfl

theorem exists_element {k : Kernel} {values : List Value} {a : Access} :
    (∃ e, element k values a = .ok e) ↔
      a.tensor < k.tensors.length ∧ ∀ i ∈ a.indices, i < values.length := by
  constructor
  · intro ⟨e, he⟩
    obtain ⟨-, htensor, hsubscripts⟩ := element_eq_ok.mp he
    refine ⟨Checked.exists_get.mp ⟨_, htensor⟩, fun i hi => ?_⟩
    exact Checked.exists_get.mp (exists_mapM.mp ⟨_, hsubscripts⟩ i hi)
  · intro ⟨htensor, hindices⟩
    obtain ⟨subscripts, hsubscripts⟩ :=
      exists_mapM.mpr fun i hi => Checked.exists_get.mpr (hindices i hi)
    obtain ⟨t, ht⟩ := Checked.exists_get.mpr htensor
    exact ⟨⟨a.tensor, t, subscripts⟩, element_eq_ok.mpr ⟨rfl, ht, hsubscripts⟩⟩

/-- The instruction that combines the inputs of an elementwise statement. -/
def combination : ElementwiseOp → ElementType → List Op
  | .copy, _ => []
  | .add, type => [.addf .res (.input 0) (.input 1) type]
  | .mul, type => [.mulf .res (.input 0) (.input 1) type]

/-- The value that an elementwise statement stores. -/
def outcome : ElementwiseOp → Value
  | .copy => .input 0
  | .add => .res
  | .mul => .res

/-- The code of a statement. The arithmetic has the type of the output. -/
inductive Written (k : Kernel) (values : List Value) : List Op → Prop
  | contraction {output lhs rhs : Access} {target x y : Element}
      (hstatement : k.statement = .contraction output lhs rhs)
      (htarget : element k values output = .ok target) (hx : element k values lhs = .ok x)
      (hy : element k values rhs = .ok y) :
      Written k values [.load .lhs x, .load .rhs y, .load .acc target,
        .mulf .prod .lhs .rhs target.tensor.element, .addf .sum .acc .prod target.tensor.element,
        .store .sum target]
  | elementwise {op : ElementwiseOp} {output : Access} {inputs : List Access} {target : Element}
      {sources : List Element} (hstatement : k.statement = .elementwise op output inputs)
      (htarget : element k values output = .ok target)
      (hsources : inputs.mapM (element k values) = .ok sources) :
      Written k values (sources.mapIdx (fun n source => .load (.input n) source) ++
        combination op target.tensor.element ++ [.store (outcome op) target])

theorem statementOps_eq_ok {k : Kernel} {values : List Value} {ops : List Op} :
    statementOps k values = .ok ops ↔ Written k values ops := by
  constructor
  · intro h
    obtain ⟨t, ht, h⟩ := bind_eq_ok.mp h
    obtain ⟨target, htarget, h⟩ := bind_eq_ok.mp h
    obtain rfl : target.tensor = t :=
      Except.ok.inj ((element_eq_ok.mp htarget).2.1.symm.trans ht)
    cases hs : k.statement with
    | contraction output lhs rhs =>
      simp only [hs] at h htarget
      obtain ⟨x, hx, h⟩ := bind_eq_ok.mp h
      obtain ⟨y, hy, h⟩ := bind_eq_ok.mp h
      exact Except.ok.inj h ▸ .contraction hs htarget hx hy
    | elementwise op output inputs =>
      simp only [hs] at h htarget
      obtain ⟨sources, hsources, h⟩ := bind_eq_ok.mp h
      have hwritten := Written.elementwise hs htarget hsources
      cases op <;> exact Except.ok.inj h ▸ (by simpa [combination, outcome] using hwritten)
  · intro h
    cases h with
    | contraction hs htarget hx hy =>
      have htensor := (element_eq_ok.mp htarget).2.1
      simp only [statementOps, Kernel.outputTensor, hs, Statement.output]
      refine bind_eq_ok.mpr ⟨_, htensor, bind_eq_ok.mpr ⟨_, htarget, ?_⟩⟩
      exact bind_eq_ok.mpr ⟨_, hx, bind_eq_ok.mpr ⟨_, hy, rfl⟩⟩
    | @elementwise op _ _ _ _ hs htarget hsources =>
      have htensor := (element_eq_ok.mp htarget).2.1
      simp only [statementOps, Kernel.outputTensor, hs, Statement.output]
      refine bind_eq_ok.mpr ⟨_, htensor, bind_eq_ok.mpr ⟨_, htarget, ?_⟩⟩
      refine bind_eq_ok.mpr ⟨_, hsources, ?_⟩
      cases op <;> simp [combination, outcome, pure, Except.pure]

/-- The statement is written if all of its operands are. -/
theorem exists_statementOps {k : Kernel} {values : List Value} :
    (∃ ops, statementOps k values = .ok ops) ↔
      ∀ a ∈ k.statement.accesses, ∃ e, element k values a = .ok e := by
  simp only [statementOps_eq_ok, Statement.accesses, List.forall_mem_cons]
  constructor
  · rintro ⟨ops, h⟩
    cases h with
    | contraction hs htarget hx hy =>
      simpa [hs, Statement.output, Statement.inputs] using ⟨⟨_, htarget⟩, ⟨_, hx⟩, ⟨_, hy⟩⟩
    | elementwise hs htarget hsources =>
      rw [hs]
      exact ⟨⟨_, htarget⟩, exists_mapM.mp ⟨_, hsources⟩⟩
  · rintro ⟨⟨target, htarget⟩, hinputs⟩
    cases hs : k.statement with
    | contraction output lhs rhs =>
      simp only [hs, Statement.inputs, List.forall_mem_cons] at hinputs htarget
      obtain ⟨⟨x, hx⟩, ⟨y, hy⟩, -⟩ := hinputs
      exact ⟨_, .contraction hs htarget hx hy⟩
    | elementwise op output inputs =>
      rw [hs] at hinputs htarget
      obtain ⟨sources, hsources⟩ := exists_mapM.mpr hinputs
      exact ⟨_, .elementwise hs htarget hsources⟩

/-! ### The code of the iterators -/

theorem mem_sumFrom {i n : Nat} {value : Value} {terms : List Value} {op : Op}
    (h : op ∈ (sumFrom i n value terms).2) : ∃ m a b, op = .addi (.partialSum i m) a b := by
  induction terms generalizing n value with
  | nil => cases h
  | cons t rest ih =>
    rcases List.mem_cons.mp h with rfl | h
    · exact ⟨n, value, t, rfl⟩
    · exact ih h

/-- The code of an iterator scales the indices of its loops and sums them. -/
theorem exists_iteratorValue (n : Nest) (i : Nat) : ∃ first rest, (iteratorValue n i).2 =
    (n.loops.zipIdx.filter (·.1.iterator == i)).flatMap (fun e => (term e.2 e.1).2) ++
      (sumFrom i 1 first rest).2 := by
  simp only [iteratorValue, List.flatMap_map]
  split
  · exact ⟨.const 0, [], (List.append_nil _).symm⟩
  · exact ⟨_, _, rfl⟩

theorem mem_iteratorValue {n : Nest} {i : Nat} {op : Op} (h : op ∈ (iteratorValue n i).2) :
    (∃ j l, n.loops[j]? = some l ∧ l.iterator = i ∧
      op = .muli (.scaled j) (.index j) (.const l.stride)) ∨
    ∃ m a b, op = .addi (.partialSum i m) a b := by
  obtain ⟨first, rest, heq⟩ := exists_iteratorValue n i
  rw [heq] at h
  rcases List.mem_append.mp h with h | h
  · obtain ⟨⟨l, j⟩, he, hop⟩ := List.mem_flatMap.mp h
    obtain ⟨hmem, hi⟩ := List.mem_filter.mp he
    refine .inl ⟨j, l, List.mk_mem_zipIdx_iff_getElem?.mp hmem, by simpa using hi, ?_⟩
    unfold term at hop
    split at hop
    · cases hop
    · exact List.mem_singleton.mp hop
  · exact .inr (mem_sumFrom h)

theorem exists_ops {k : Kernel} : (∃ code, ops k = .ok code) ↔ k.OperandsFound := by
  refine exists_map.trans (exists_statementOps.trans ?_)
  simp only [exists_element, List.length_map, List.length_range, Kernel.OperandsFound]

/-- The text of a function is the text of its code between its head and its end. -/
theorem exists_function {k : Kernel} (h : k.OperandsFound) : ∃ code, ops k = .ok code ∧
    function k = .ok (header k ++ lines 2 code ++ "    return\n  \x7d\n") := by
  obtain ⟨code, hcode⟩ := exists_ops.mpr h
  exact ⟨code, hcode, bind_eq_ok.mpr ⟨code, hcode, rfl⟩⟩

/-- A module of one kernel has a text if the operands of the kernel are found. -/
theorem exists_moduleText {k : Kernel} :
    (∃ text, moduleText [k] = .ok text) ↔ k.OperandsFound := by
  have hfunction : (∃ text, function k = .ok text) ↔ ∃ o, ops k = .ok o := exists_map
  refine exists_map.trans (exists_mapM.trans ?_)
  rw [List.forall_mem_singleton, hfunction, exists_ops]

end Mlir

/-- The code of a history that replays can be written if the operands of the root are found. -/
theorem Artifacts.exists_ofHistory {root k : Kernel} {history : List Edit}
    (h : root.replay history = .ok k) :
    (∃ artifacts, ofHistory root history = .ok (.ok artifacts) ∧ artifacts.kernel = k) ↔
      root.OperandsFound := by
  have hmlir : (∃ text, Module.mlir ⟨[k]⟩ = .ok text) ↔ root.OperandsFound := by
    obtain ⟨nest, rfl⟩ := Kernel.nest_of_replayFrom h
    exact Mlir.exists_moduleText
  rw [ofHistory, h, ← hmlir]
  constructor
  · intro ⟨artifacts, hartifacts, _⟩
    obtain ⟨text, htext, -⟩ := bind_eq_ok.mp hartifacts
    exact ⟨text, htext⟩
  · intro ⟨text, htext⟩
    exact ⟨_, bind_eq_ok.mpr ⟨text, htext, rfl⟩, rfl⟩

end NestTuner
