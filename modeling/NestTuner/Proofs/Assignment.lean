import NestTuner.Proofs.Lines
import NestTuner.Proofs.Touches

/-!
Emitted code defines every name once and before its uses. An instruction that runs finds numbers
for the indices it uses, so a run of the code inside the loops shows that they were defined before.
The values of the statement are defined by its loads. No value is defined twice: constants ascend,
every loop has its own position, and an iterator scales the indices of its own loops only.
-/

namespace NestTuner.Mlir

/-! ### Defined before use -/

namespace Op

/-- The indices that an instruction uses. -/
def indices : Op → List Value
  | enter _ extent _ => [.const 0, .const extent, .const 1]
  | muli _ a b => [a, b]
  | addi _ a b => [a, b]
  | load _ source => source.subscripts
  | store _ target => target.subscripts
  | _ => []

/-- The elements that an instruction calculates with or stores. -/
def scalars : Op → List Value
  | mulf _ a b _ => [a, b]
  | addf _ a b _ => [a, b]
  | store value _ => [value]
  | _ => []

/-- The arguments that an instruction reads or writes. -/
def arguments : Op → List Nat
  | load _ source => [source.argument]
  | store _ target => [target.argument]
  | _ => []

theorem mem_uses {op : Op} {name : String} (h : name ∈ op.uses) :
    (∃ v ∈ op.indices ++ op.scalars, v.text = name) ∨
      ∃ i ∈ op.arguments, argumentName i = name := by
  cases op <;> simp [uses, indices, scalars, arguments, Element.uses] at h ⊢ <;> grind

end Op

/-- Instructions that read values which are known or come from instructions before them. -/
def Bound (reads : Op → List Value) : List Value → List Op → Prop
  | _, [] => True
  | known, op :: rest => reads op ⊆ known ∧ Bound reads (known ++ op.results) rest

section Bound

variable {reads : Op → List Value} {known : List Value}

theorem bound_append {xs ys : List Op} : Bound reads known (xs ++ ys) ↔
    Bound reads known xs ∧ Bound reads (known ++ xs.flatMap Op.results) ys := by
  induction xs generalizing known with
  | nil => simp [Bound]
  | cons op rest ih => simp [Bound, ih, and_assoc]

theorem bound_of_forall {ops : List Op} (h : ∀ op ∈ ops, reads op ⊆ known) :
    Bound reads known ops := by
  induction ops generalizing known with
  | nil => trivial
  | cons op rest ih =>
    obtain ⟨hop, hrest⟩ := List.forall_mem_cons.mp h
    exact ⟨hop, ih fun op hop => List.subset_append_of_subset_left _ (hrest op hop)⟩

theorem Bound.and {reads' : Op → List Value} {ops : List Op} (h : Bound reads known ops)
    (h' : Bound reads' known ops) : Bound (fun op => reads op ++ reads' op) known ops := by
  induction ops generalizing known with
  | nil => trivial
  | cons op rest ih => exact ⟨List.append_subset.mpr ⟨h.1, h'.1⟩, ih h.2 h'.2⟩

end Bound

theorem Element.ne_none_of_touch {e : Element} {σ : Scope} {writes : Bool} {touch : Touch}
    (h : e.touch σ writes = some touch) : ∀ v ∈ e.subscripts, σ v ≠ none := by
  obtain ⟨index, hindex, -⟩ := Option.bind_eq_some_iff.mp h
  intro v hv hnone
  cases (mapM_eq_none hv hnone).symm.trans hindex

theorem Scope.set_ne_none {σ : Scope} {v w : Value} {n : Nat} (h : σ.set w n v ≠ none) :
    σ v ≠ none ∨ v ∈ [w] := by
  by_cases heq : v = w
  · exact .inr (List.mem_singleton.mpr heq)
  · rw [Scope.set, Function.update_of_ne heq] at h
    exact .inl h

/-- An instruction that runs finds the indices it uses, and only its result is new after it. -/
theorem Op.indices_of_step {σ next : Scope} {op : Op} {touched : List Touch}
    (h : op.step σ = some (next, touched)) :
    (∀ v ∈ op.indices, σ v ≠ none) ∧ ∀ v, next v ≠ none → σ v ≠ none ∨ v ∈ op.results := by
  cases op with
  | constant n =>
    obtain ⟨rfl, -⟩ := by simpa [step] using h
    exact ⟨by simp [indices], fun v hv => Scope.set_ne_none hv⟩
  | enter => cases h
  | leave => cases h
  | muli result a b =>
    obtain ⟨x, hx, y, hy, rfl, -⟩ := by simpa [step, Option.bind_eq_some_iff] using h
    exact ⟨by simp [indices, hx, hy], fun v hv => Scope.set_ne_none hv⟩
  | addi result a b =>
    obtain ⟨x, hx, y, hy, rfl, -⟩ := by simpa [step, Option.bind_eq_some_iff] using h
    exact ⟨by simp [indices, hx, hy], fun v hv => Scope.set_ne_none hv⟩
  | load result source =>
    obtain ⟨touch, htouch, rfl, -⟩ := by simpa [step, Option.bind_eq_some_iff] using h
    exact ⟨Element.ne_none_of_touch htouch, fun v hv => .inl hv⟩
  | mulf =>
    obtain ⟨rfl, -⟩ := by simpa [step] using h
    exact ⟨by simp [indices], fun v hv => .inl hv⟩
  | addf =>
    obtain ⟨rfl, -⟩ := by simpa [step] using h
    exact ⟨by simp [indices], fun v hv => .inl hv⟩
  | store value target =>
    obtain ⟨touch, htouch, rfl, -⟩ := by simpa [step, Option.bind_eq_some_iff] using h
    exact ⟨Element.ne_none_of_touch htouch, fun v hv => .inl hv⟩

theorem Steps.bound {σ last : Scope} {ops : List Op} {touched : List Touch}
    (h : Steps σ ops last touched) {known : List Value} (hknown : ∀ v, σ v ≠ none → v ∈ known) :
    Bound Op.indices known ops := by
  induction h generalizing known with
  | nil => trivial
  | cons hop _ ih =>
    obtain ⟨hindices, hnext⟩ := Op.indices_of_step hop
    refine ⟨fun v hv => hknown v (hindices v hv), ih fun v hv => ?_⟩
    rcases hnext v hv with hv | hv
    · exact List.mem_append_left _ (hknown v hv)
    · exact List.mem_append_right _ hv

theorem Steps.braces {σ last : Scope} {ops : List Op} {touched : List Touch}
    (h : Steps σ ops last touched) : ∀ op ∈ ops, op.braces = (false, false) := by
  induction h with
  | nil => simp
  | @cons _ _ _ op _ _ _ hop _ ih =>
    refine List.forall_mem_cons.mpr ⟨?_, ih⟩
    cases op <;> first | rfl | cases hop

/-! ### Loops in lines -/

theorem Balanced.append {xs ys : List String} (hxs : Balanced xs) (hys : Balanced ys) :
    Balanced (xs ++ ys) := by
  induction hxs with
  | nil => exact hys
  | line hopens hcloses _ ih => exact .line hopens hcloses ih
  | loop hopens hfirst hbody hlast hcloses _ _ ih =>
    simpa using Balanced.loop hopens hfirst hbody hlast hcloses ih

theorem balanced_of_braces {ops : List Op} (h : ∀ op ∈ ops, op.braces = (false, false)) :
    Balanced (ops.map Op.text) := by
  induction ops with
  | nil => exact .nil
  | cons op rest ih =>
    obtain ⟨hop, hrest⟩ := List.forall_mem_cons.mp h
    have hbraces := op.braces_text
    rw [hop] at hbraces
    exact .line hbraces.1 hbraces.2 (ih hrest)

theorem balanced_nested {body : List Op} (h : Balanced (body.map Op.text)) (n : Nat)
    (loops : List Loop) : Balanced ((nested n loops body).map Op.text) := by
  induction loops generalizing n with
  | nil => exact h
  | cons l rest ih =>
    have hfirst := (Op.enter n l.extent l.parallel).braces_text
    have hlast := (Op.leave l.vectorWidth).braces_text
    simpa [nested] using Balanced.loop hfirst.1 hfirst.2 (ih (n + 1)) hlast.1 hlast.2 .nil

theorem balanced_function {code : List Op} (h : Balanced (code.map Op.text)) (k : Kernel) :
    Balanced (headLine k :: (code.map Op.text ++ ["return", "\x7d"])) := by
  have hbody : Balanced (code.map Op.text ++ ["return"]) :=
    h.append (.line (by decide) (by decide) .nil)
  obtain ⟨hopens, hcloses⟩ := braces_headLine k
  simpa using Balanced.loop hopens hcloses hbody (by decide) (by decide) .nil

theorem Balanced.countP_eq {lines : List String} (h : Balanced lines) :
    lines.countP opens = lines.countP closes := by
  induction h with
  | nil => rfl
  | line hopens hcloses _ ih => simp [hopens, hcloses, ih]
  | loop hopens hfirst _ hlast hcloses _ ihbody ihrest =>
    simp [hopens, hfirst, hlast, hcloses, ihbody, ihrest]
    omega

/-! ### No value twice -/

/-- The part of the code that defines a value: constants, loops, iterators, the statement. -/
def Value.part : Value → Nat
  | const _ => 0
  | index _ => 1
  | scaled _ => 2
  | partialSum _ _ => 2
  | _ => 3

theorem nodup_append_of_part {xs ys : List Value} (n : Nat) (hxs : xs.Nodup) (hys : ys.Nodup)
    (hx : ∀ v ∈ xs, v.part = n) (hy : ∀ v ∈ ys, n < v.part) : (xs ++ ys).Nodup := by
  refine List.nodup_append.mpr ⟨hxs, hys, fun v hv w hw heq => ?_⟩
  have hlt := hy w hw
  rw [← heq, hx v hv] at hlt
  exact Nat.lt_irrefl n hlt

theorem pairwise_insertAscending {cs : List Nat} (h : cs.Pairwise (· < ·)) (c : Nat) :
    (insertAscending c cs).Pairwise (· < ·) := by
  induction cs with
  | nil => simp [insertAscending]
  | cons d rest ih =>
    obtain ⟨hd, hrest⟩ := List.pairwise_cons.mp h
    unfold insertAscending
    split
    case isTrue hlt =>
      refine List.pairwise_cons.mpr ⟨List.forall_mem_cons.mpr ⟨hlt, fun e he => ?_⟩, h⟩
      exact hlt.trans (hd e he)
    case isFalse hge =>
      split
      case isTrue => exact h
      case isFalse hne =>
        have hlt : d < c := by
          have hne : c ≠ d := by simpa using hne
          omega
        refine List.pairwise_cons.mpr ⟨fun e he => ?_, ih hrest⟩
        rcases mem_insertAscending.mp he with rfl | he
        · exact hlt
        · exact hd e he

theorem nodup_constants (n : Nest) : (constants n).Nodup := by
  have hfold : ∀ cs start : List Nat, start.Pairwise (· < ·) →
      (cs.foldl (fun cs c => insertAscending c cs) start).Pairwise (· < ·) := by
    intro cs
    induction cs with
    | nil => exact fun _ h => h
    | cons c rest ih => exact fun start h => ih _ (pairwise_insertAscending h c)
  exact (hfold _ _ (by decide)).imp Nat.ne_of_lt

/-- Only the loops with a stride other than one are scaled. -/
theorem results_terms (entries : List (Loop × Nat)) :
    (entries.flatMap fun e => (term e.2 e.1).2).flatMap Op.results =
      (entries.filter (·.1.stride != 1)).map fun e => .scaled e.2 := by
  induction entries with
  | nil => rfl
  | cons e rest ih =>
    rw [List.flatMap_cons, List.flatMap_append, ih, List.filter_cons]
    by_cases hone : e.1.stride = 1 <;> simp [term, hone, Op.results]

theorem results_sumFrom (i n : Nat) (value : Value) (terms : List Value) :
    (sumFrom i n value terms).2.flatMap Op.results =
      (List.range' n terms.length).map (.partialSum i) := by
  induction terms generalizing n value with
  | nil => rfl
  | cons t rest ih => simp [sumFrom, Op.results, ih, List.range'_succ]

theorem nodup_iteratorValue (n : Nest) (i : Nat) :
    ((iteratorValue n i).2.flatMap Op.results).Nodup := by
  obtain ⟨first, rest, heq⟩ := exists_iteratorValue n i
  rw [heq, List.flatMap_append, results_terms, results_sumFrom]
  refine List.nodup_append.mpr ⟨?_, ?_, ?_⟩
  · have hall : (n.loops.zipIdx.map fun e => Value.scaled e.2).Nodup := by
      have hpositions : (n.loops.zipIdx.map (·.2)).Nodup := by
        rw [List.zipIdx_map_snd]
        exact List.nodup_range' ..
      have hscaled := hpositions.map fun _ _ h => Value.scaled.inj h
      rwa [List.map_map] at hscaled
    exact hall.sublist ((List.filter_sublist.trans List.filter_sublist).map _)
  · exact (List.nodup_range' ..).map fun _ _ h => (Value.partialSum.inj h).2
  · intro v hv w hw hvw
    obtain ⟨e, -, rfl⟩ := List.mem_map.mp hv
    obtain ⟨m, -, rfl⟩ := List.mem_map.mp hw
    cases hvw

/-- The iterator for which a value is computed. -/
def Value.owner (n : Nest) : Value → Option Nat
  | scaled j => n.loops[j]?.map (·.iterator)
  | partialSum i _ => some i
  | _ => none

theorem owner_of_mem_iteratorValue {n : Nest} {i : Nat} {v : Value}
    (h : v ∈ (iteratorValue n i).2.flatMap Op.results) : v.owner n = some i ∧ v.part = 2 := by
  obtain ⟨op, hop, hv⟩ := List.mem_flatMap.mp h
  rcases mem_iteratorValue hop with ⟨j, l, hl, rfl, rfl⟩ | ⟨m, a, b, rfl⟩
  · obtain rfl := List.mem_singleton.mp hv
    exact ⟨by simp [Value.owner, hl], rfl⟩
  · obtain rfl := List.mem_singleton.mp hv
    exact ⟨rfl, rfl⟩

theorem nodup_valueOps (k : Kernel) : ((valueOps k).flatMap Op.results).Nodup ∧
    ∀ v ∈ (valueOps k).flatMap Op.results, v.part = 2 := by
  rw [valueOps, List.flatMap_assoc]
  refine ⟨List.nodup_flatMap.mpr ⟨fun i _ => nodup_iteratorValue k.nest i, ?_⟩, fun v hv => ?_⟩
  · -- a value of two iterators would have two owners
    refine List.nodup_range.imp fun hne v hi hj => hne ?_
    have howner := (owner_of_mem_iteratorValue hi).1
    rw [(owner_of_mem_iteratorValue hj).1] at howner
    exact (Option.some.inj howner).symm
  · obtain ⟨i, -, hv⟩ := List.mem_flatMap.mp hv
    exact (owner_of_mem_iteratorValue hv).2

/-! ### The statement -/

theorem results_mapIdx {α : Type} (xs : List α) {op : Nat → α → Op} {name : Nat → Value}
    (h : ∀ n x, (op n x).results = [name n]) :
    (xs.mapIdx op).flatMap Op.results = (List.range xs.length).map name := by
  induction xs generalizing op name with
  | nil => rfl
  | cons x rest ih =>
    have hrest := @ih (fun n => op (n + 1)) (fun n => name (n + 1)) fun n => h (n + 1)
    rw [List.mapIdx_cons, List.flatMap_cons, hrest, h, List.length_cons, List.range_succ_eq_map,
      List.map_cons, List.map_map]
    rfl

section Statement

variable {k : Kernel} {values : List Value} {ops : List Op}

theorem argument_lt_of_element {a : Access} {e : Element} (h : element k values a = .ok e) :
    e.argument < k.tensors.length := by
  obtain ⟨hargument, htensor, -⟩ := element_eq_ok.mp h
  exact hargument ▸ Checked.exists_get.mp ⟨_, htensor⟩

theorem Written.arguments_lt (h : Written k values ops) :
    ∀ op ∈ ops, ∀ i ∈ op.arguments, i < k.tensors.length := by
  cases h with
  | contraction hs htarget hx hy =>
    simp [Op.arguments, argument_lt_of_element htarget, argument_lt_of_element hx,
      argument_lt_of_element hy]
  | @elementwise op _ _ _ sources hs htarget hsources =>
    have hload : ∀ source ∈ sources, source.argument < k.tensors.length := by
      intro source hsource
      obtain ⟨a, -, ha⟩ := mem_of_mapM hsources hsource
      exact argument_lt_of_element ha
    simp only [List.forall_mem_append, List.forall_mem_singleton]
    refine ⟨⟨fun o ho => ?_, fun o ho => ?_⟩, ?_⟩
    · obtain ⟨n, hn, rfl⟩ := List.mem_mapIdx.mp ho
      simpa [Op.arguments] using hload _ (List.getElem_mem hn)
    · cases op <;> simp_all [combination, Op.arguments]
    · simpa [Op.arguments] using argument_lt_of_element htarget

theorem Written.results (h : Written k values ops) :
    (ops.flatMap Op.results).Nodup ∧ ∀ v ∈ ops.flatMap Op.results, v.part = 3 := by
  cases h with
  | contraction => simp [Op.results, Value.part]
  | @elementwise op _ _ target sources =>
    have hcombination : (combination op target.tensor.element).flatMap Op.results = [] ∨
        (combination op target.tensor.element).flatMap Op.results = [.res] := by
      cases op <;> simp [combination, Op.results]
    have hloads : ((List.range sources.length).map Value.input).Nodup :=
      List.nodup_range.map fun _ _ h => Value.input.inj h
    rw [List.flatMap_append, List.flatMap_append, results_mapIdx sources fun _ _ => rfl]
    rcases hcombination with hnone | hres
    · rw [hnone]
      simp [Op.results, hloads, Value.part]
    · rw [hres]
      refine ⟨by simp [Op.results, hloads, List.nodup_append], fun v hv => ?_⟩
      rcases (by simpa [Op.results] using hv) with ⟨n, -, rfl⟩ | rfl <;> rfl

/-- The statement of a valid kernel calculates with what it has loaded. -/
theorem Written.bound_scalars (hvalid : k.Valid) (h : Written k values ops) (known : List Value) :
    Bound Op.scalars known ops := by
  cases h with
  | contraction => simp [Bound, Op.scalars, Op.results]
  | @elementwise op _ inputs target sources hs htarget hsources =>
    have harity : sources.length = op.arity := by
      rw [← (mapM_eq_ok.mp hsources).length_eq, hvalid.arity _ _ _ hs]
    rw [bound_append, bound_append, List.flatMap_append, results_mapIdx sources fun _ _ => rfl,
      harity]
    refine ⟨⟨bound_of_forall fun o ho => ?_, ?_⟩, ?_⟩
    · obtain ⟨n, hn, rfl⟩ := List.mem_mapIdx.mp ho
      simp [Op.scalars]
    · cases op <;> simp [combination, Bound, Op.scalars, ElementwiseOp.arity]
    · cases op <;> simp [combination, outcome, Bound, Op.scalars, Op.results, ElementwiseOp.arity]

end Statement

/-! ### The code of a kernel -/

section Code

variable {k : Kernel} {code : List Op}

theorem results_constants (cs : List Nat) :
    (cs.map Op.constant).flatMap Op.results = cs.map .const := by
  rw [List.flatMap_map, List.map_eq_flatMap]
  rfl

theorem results_loops (loops : List Loop) :
    (loops.mapIdx fun i l => Op.enter (0 + i) l.extent l.parallel).flatMap Op.results =
      (List.range loops.length).map .index :=
  results_mapIdx loops fun i l => by simp [Op.results]

theorem nodup_results (h : ops k = .ok code) : (code.flatMap Op.results).Nodup := by
  obtain ⟨statement, hstatement, rfl⟩ := ops_eq_ok.mp h
  obtain ⟨hstatement, hpart⟩ := hstatement.results
  have hconstants : ((constants k.nest).map Value.const).Nodup :=
    (nodup_constants k.nest).map fun _ _ h => Value.const.inj h
  have hloops : ((List.range k.nest.loops.length).map Value.index).Nodup :=
    List.nodup_range.map fun _ _ h => Value.index.inj h
  have hleave : (k.nest.loops.reverse.map fun l => Op.leave l.vectorWidth).flatMap Op.results =
      [] := by
    simp [Op.results]
  obtain ⟨hvalues, hpart'⟩ := nodup_valueOps k
  have hbody := nodup_append_of_part 2 hvalues hstatement hpart' fun v hv => by simp [hpart v hv]
  have hinside : ∀ v ∈ (valueOps k).flatMap Op.results ++ statement.flatMap Op.results,
      2 ≤ v.part := by
    intro v hv
    rcases List.mem_append.mp hv with hv | hv
    · exact (hpart' v hv).ge
    · simp [hpart v hv]
  have hnest := nodup_append_of_part 1 hloops hbody (by simp [Value.part]) hinside
  rw [nested_eq]
  simp only [List.flatMap_append, results_constants, results_loops, hleave, List.append_nil]
  refine nodup_append_of_part 0 hconstants hnest (by simp [Value.part]) fun v hv => ?_
  rcases List.mem_append.mp hv with hv | hv
  · obtain ⟨i, -, rfl⟩ := List.mem_map.mp hv
    exact Nat.one_pos
  · exact Nat.lt_of_lt_of_le (by decide) (hinside v hv)

theorem bound_indices (h : ops k = .ok code) : Bound Op.indices [] code := by
  obtain ⟨statement, hstatement, rfl⟩ := ops_eq_ok.mp h
  have hzeros : (List.replicate k.nest.loops.length 0).length = k.nest.loops.length := by simp
  obtain ⟨τ, hsteps⟩ := body_steps hstatement hzeros
  have hconstant : ∀ {c}, (c = 0 ∨ c = 1 ∨ ∃ l ∈ k.nest.loops, c = l.extent ∨ c = l.stride) →
      Value.const c ∈ (constants k.nest).map Value.const := fun hc =>
    List.mem_map_of_mem (mem_constants.mpr hc)
  rw [nested_eq, bound_append, bound_append, bound_append, results_constants, List.flatMap_append,
    results_loops, List.nil_append]
  refine ⟨bound_of_forall ?_, ⟨bound_of_forall ?_, hsteps.bound ?_⟩, bound_of_forall ?_⟩
  · intro op hop
    obtain ⟨c, -, rfl⟩ := List.mem_map.mp hop
    exact List.nil_subset _
  · intro op hop
    obtain ⟨i, hi, rfl⟩ := List.mem_mapIdx.mp hop
    intro v hv
    rcases (by simpa [Op.indices] using hv) with rfl | rfl | rfl
    · exact hconstant (.inl rfl)
    · exact hconstant (.inr (.inr ⟨_, List.getElem_mem hi, .inl rfl⟩))
    · exact hconstant (.inr (.inl rfl))
  · -- the scope in which the loops are entered knows the constants and the indices of the loops
    intro v hv
    cases v with
    | const c => simpa [entry] using hv
    | index j =>
      have hj : j < k.nest.loops.length := by
        by_contra hge
        exact hv (by simp [entry, hge])
      simp [hj]
    | _ => cases hv rfl
  · intro op hop
    obtain ⟨l, -, rfl⟩ := List.mem_map.mp hop
    exact List.nil_subset _

theorem bound_scalars (hvalid : k.Valid) (h : ops k = .ok code) : Bound Op.scalars [] code := by
  obtain ⟨front, statement, back, hstatement, rfl, hframe⟩ := exists_frame h
  have hnone : ∀ op : Op, op.isIndexing = true → op.scalars = [] := by
    intro op hop
    cases op <;> first | rfl | cases hop
  obtain ⟨hfront, hback⟩ := List.forall_mem_append.mp hframe
  rw [bound_append, bound_append]
  refine ⟨⟨bound_of_forall fun op hop => ?_, hstatement.bound_scalars hvalid _⟩,
    bound_of_forall fun op hop => ?_⟩
  · simp [hnone op (hfront op hop)]
  · simp [hnone op (hback op hop)]

theorem arguments_lt (h : ops k = .ok code) :
    ∀ op ∈ code, ∀ i ∈ op.arguments, i < k.tensors.length := by
  obtain ⟨front, statement, back, hstatement, rfl, hframe⟩ := exists_frame h
  have hnone : ∀ op : Op, op.isIndexing = true → op.arguments = [] := by
    intro op hop
    cases op <;> first | rfl | cases hop
  obtain ⟨hfront, hback⟩ := List.forall_mem_append.mp hframe
  refine List.forall_mem_append.mpr ⟨List.forall_mem_append.mpr ⟨fun op hop => ?_,
    hstatement.arguments_lt⟩, fun op hop => ?_⟩
  · simp [hnone op (hfront op hop)]
  · simp [hnone op (hback op hop)]

theorem balanced_code (h : ops k = .ok code) : Balanced (code.map Op.text) := by
  obtain ⟨statement, hstatement, rfl⟩ := ops_eq_ok.mp h
  have hzeros : (List.replicate k.nest.loops.length 0).length = k.nest.loops.length := by simp
  obtain ⟨τ, hsteps⟩ := body_steps hstatement hzeros
  rw [List.map_append]
  refine .append (balanced_of_braces fun op hop => ?_)
    (balanced_nested (balanced_of_braces hsteps.braces) 0 k.nest.loops)
  obtain ⟨c, -, rfl⟩ := List.mem_map.mp hop
  rfl

end Code

/-- Lines in which every name that is not known has one definition, before all its uses. -/
structure SingleAssignment (known lines : List String) : Prop where
  once : (known ++ lines.flatMap defined).Nodup
  bound : ∀ before line after, lines = before ++ line :: after →
    ∀ name ∈ used line, name ∈ known ++ before.flatMap defined

namespace SingleAssignment

variable {known lines : List String}

/-- A line that defines what was known, and uses nothing, can stand in front. -/
theorem cons (h : SingleAssignment known lines) {first : String} (hdefined : defined first = known)
    (hused : used first = []) : SingleAssignment [] (first :: lines) where
  once := by simpa [hdefined] using h.once
  bound := by
    intro before line after hlines name hname
    cases before with
    | nil =>
      obtain rfl := (List.cons.inj hlines).1
      simp [hused] at hname
    | cons head before =>
      obtain ⟨rfl, hrest⟩ := List.cons.inj hlines
      simpa [hdefined] using h.bound before line after hrest name hname

theorem append (h : SingleAssignment known lines) {more : List String}
    (hmore : ∀ line ∈ more, defined line = [] ∧ used line = []) :
    SingleAssignment known (lines ++ more) where
  once := by
    have hnone : more.flatMap defined = [] :=
      List.flatMap_eq_nil_iff.mpr fun line hline => (hmore line hline).1
    simpa [hnone] using h.once
  bound := by
    intro before line after hlines name hname
    obtain ⟨more', hbefore, hline⟩ | ⟨rest, hbefore, hline⟩ := List.append_eq_append_iff.mp hlines
    · have hmem : line ∈ more := by simp [hline]
      simp [(hmore line hmem).2] at hname
    · cases rest with
      | nil =>
        have hmem : line ∈ more := by
          rw [List.nil_append] at hline
          exact hline ▸ List.mem_cons_self
        simp [(hmore line hmem).2] at hname
      | cons head rest =>
        obtain ⟨rfl, -⟩ := List.cons.inj hline
        exact h.bound before line rest hbefore name hname

end SingleAssignment

theorem defined_lines (code : List Op) :
    (code.map Op.text).flatMap defined = (code.flatMap Op.results).map Value.text := by
  rw [List.flatMap_map, List.map_flatMap]
  exact List.flatMap_congr fun op _ => op.sides_text.1

/-- Code that defines values once and before their uses does so for the names in its text. -/
theorem singleAssignment_of_bound {code : List Op} {n : Nat}
    (hnodup : (code.flatMap Op.results).Nodup)
    (hbound : Bound (fun op => op.indices ++ op.scalars) [] code)
    (harguments : ∀ op ∈ code, ∀ i ∈ op.arguments, i < n) :
    SingleAssignment ((List.range n).map argumentName) (code.map Op.text) where
  once := by
    rw [defined_lines]
    refine List.nodup_append.mpr ⟨List.nodup_range.map argumentName_injective,
      hnodup.map Value.text_injective, fun name hname name' hname' heq => ?_⟩
    obtain ⟨i, -, rfl⟩ := List.mem_map.mp hname
    obtain ⟨v, -, rfl⟩ := List.mem_map.mp hname'
    exact argumentName_ne_text i v heq
  bound := by
    intro before line after hlines name hname
    obtain ⟨front, rest, rfl, rfl, hrest⟩ := List.map_eq_append_iff.mp hlines
    obtain ⟨op, back, rfl, rfl, -⟩ := List.map_eq_cons_iff.mp hrest
    rw [op.sides_text.2] at hname
    rw [defined_lines]
    rcases Op.mem_uses hname with ⟨v, hv, rfl⟩ | ⟨i, hi, rfl⟩
    · have hknown := (bound_append.mp hbound).2.1 hv
      exact List.mem_append_right _ (List.mem_map_of_mem (by simpa using hknown))
    · refine List.mem_append_left _ (List.mem_map_of_mem (List.mem_range.mpr ?_))
      exact harguments op (by simp) i hi

/-- Every valid kernel has code, and a text with a line for every instruction. In these lines the
loops open and close in order, and every name has one definition, before all its uses; so it is in
the whole text, if the names of the kernel and its iterators are plain. At every tuple of loop
indices the code touches the elements that the operands of the statement name at the values of the
iterators, and whenever the kernel has a plan, these are the elements at the offsets of the plan. -/
theorem function_addresses {k : Kernel} (h : k.validate = .ok ()) :
    ∃ code text, ops k = .ok code ∧ function k = .ok text ∧
      text = header k ++ lines 2 code ++ "    return\n  \x7d\n" ∧
      textLines (lines 2 code) = code.map Op.text ∧
      Balanced (textLines (lines 2 code)) ∧
      SingleAssignment ((List.range k.tensors.length).map argumentName)
        (textLines (lines 2 code)) ∧
      (PlainNames k → Balanced (textLines text) ∧ SingleAssignment [] (textLines text)) ∧
      run .empty code = some ((tuples (k.nest.loops.map (·.extent))).flatMap fun index =>
        k.touches (pointAt k.nest.loops index)) ∧
      ∀ p, Plan.compile k = .ok p → ∀ index slot a, k.statement.accesses[slot]? = some a →
        ∃ t, k.tensors[a.tensor]? = some t ∧ ∀ writes,
          Shape.position t.shape (a.touch (pointAt k.nest.loops index) writes).index =
            Plan.offsetAt p.loops slot index := by
  have hvalid := Kernel.valid_of_validate h
  obtain ⟨code, hcode, htext⟩ := exists_function (Kernel.operandsFound_of_validate h)
  have hbalanced := balanced_code hcode
  have hassignment := singleAssignment_of_bound (nodup_results hcode)
    ((bound_indices hcode).and (bound_scalars hvalid hcode)) (arguments_lt hcode)
  refine ⟨code, _, hcode, htext, rfl, textLines_lines 2 code, textLines_lines 2 code ▸ hbalanced,
    textLines_lines 2 code ▸ hassignment, fun hplain => ?_, run_ops hcode, ?_⟩
  · obtain ⟨hdefined, hused⟩ := hplain.sides_headLine
    rw [hplain.textLines_function]
    refine ⟨balanced_function hbalanced k, (hassignment.append ?_).cons hdefined hused⟩
    decide
  · intro p hp index slot a ha
    obtain ⟨-, hloops⟩ := Kernel.loops_of_compile hp
    obtain ⟨-, -, t, ht, hshape⟩ := hvalid.backed a (List.mem_of_getElem? ha)
    refine ⟨t, ht, fun writes => ?_⟩
    rw [hloops, hvalid.offsetAt_eq ha, hshape]
    rfl

/-- A product in tiles, at row 7 and column 5 of the output and at 7 of the sum. -/
theorem function_addresses_tuned :
    Draft.tuned.validate = .ok () ∧ PlainNames Draft.tuned ∧ ∃ code text plan,
      ops Draft.tuned = .ok code ∧ function Draft.tuned = .ok text ∧
      Plan.compile Draft.tuned = .ok plan ∧ textLines (lines 2 code) = code.map Op.text ∧
      Balanced (textLines text) ∧ SingleAssignment [] (textLines text) ∧
      (∃ touched, run .empty code = some touched ∧ ⟨false, 0, [7, 7]⟩ ∈ touched ∧
        ⟨false, 1, [7, 5]⟩ ∈ touched ∧ ⟨true, 2, [7, 5]⟩ ∈ touched) ∧
      Plan.offsetAt plan.loops 0 [1, 3, 5, 3, 1] = 61 ∧
      Plan.offsetAt plan.loops 1 [1, 3, 5, 3, 1] = 63 := by
  have hvalid : Draft.tuned.validate = .ok () := by
    cbv
  have hplain : PlainNames Draft.tuned := by
    decide
  have hplan : Plan.compile Draft.tuned = .ok Draft.tuned.plan := by
    cbv
  have hindex : [1, 3, 5, 3, 1] ∈ tuples (Draft.tuned.nest.loops.map (·.extent)) :=
    mem_tuples.mpr (by simp [mem_box, Draft.tuned])
  obtain ⟨code, text, hcode, htext, -, hlines, -, -, hwhole, hrun, hoffset⟩ :=
    function_addresses hvalid
  obtain ⟨hbalanced, hassignment⟩ := hwhole hplain
  refine ⟨hvalid, hplain, code, text, _, hcode, htext, hplan, hlines, hbalanced, hassignment,
    ⟨_, hrun, List.mem_flatMap.mpr ⟨_, hindex, by decide⟩,
      List.mem_flatMap.mpr ⟨_, hindex, by decide⟩,
      List.mem_flatMap.mpr ⟨_, hindex, by decide⟩⟩, ?_, ?_⟩
  · obtain ⟨t, ht, hposition⟩ := hoffset _ hplan [1, 3, 5, 3, 1] 0 _ rfl
    cases ht
    exact (hposition true).symm
  · obtain ⟨t, ht, hposition⟩ := hoffset _ hplan [1, 3, 5, 3, 1] 1 _ rfl
    cases ht
    exact (hposition false).symm

/-- A copy whose name has a line in it that opens a loop. -/
def misnamed : Kernel :=
  { name := "f\n    scf.for %l0 = %c0 to %c4 step %c1 \x7b\n  "
    tag := none
    tensors := [⟨"A", [4], .f32⟩, ⟨"B", [4], .f32⟩]
    iterators := [⟨"i", 4, .parallel⟩]
    statement := .elementwise .copy ⟨1, [0]⟩ [⟨0, [0]⟩]
    nest := ⟨[⟨0, 4, 1, false, none⟩]⟩ }

theorem textLines_misnamed (code : List Op) :
    textLines (header misnamed ++ lines 2 code ++ "    return\n  \x7d\n") =
      "func.func @f" :: (Op.enter 0 4 false).text :: headTail misnamed ::
        (code.map Op.text ++ ["return", "\x7d"]) := by
  have hname : misnamed.name =
      "f" ++ "\n" ++ ("    " ++ (Op.enter 0 4 false).text ++ "\n" ++ "  ") := rfl
  have hloop : ("    " ++ (Op.enter 0 4 false).text).toList.dropWhile (· == ' ') =
      (Op.enter 0 4 false).text.toList := by decide
  have htail : ("  " ++ headTail misnamed).toList.dropWhile (· == ' ') =
      (headTail misnamed).toList := by simp [headTail]
  rw [String.append_assoc, textLines_of_name hname (by decide) (by decide) (by decide) (by decide),
    textLines_lines_append, textLines_end]
  simp only [List.map_cons, List.map_nil, hloop, htail, String.ofList_toList]
  rfl

/-- Names are written as they are: in the text of this kernel one more line opens a loop than closes
one, and the index of its loop has two definitions. -/
theorem function_misnamed : misnamed.validate = .ok () ∧ ¬ PlainNames misnamed ∧
    ∃ text, function misnamed = .ok text ∧ ¬ Balanced (textLines text) ∧
      ¬ SingleAssignment [] (textLines text) := by
  have hvalid : misnamed.validate = .ok () := by
    cbv
  obtain ⟨code, hcode, htext⟩ := exists_function (Kernel.operandsFound_of_validate hvalid)
  have hindex : Value.index 0 ∈ code.flatMap Op.results := by
    obtain rfl := Except.ok.inj hcode
    decide
  refine ⟨hvalid, by decide, _, htext, fun h => ?_, fun h => ?_⟩
  · obtain ⟨hopens, hcloses⟩ := (Op.enter 0 4 false).braces_text
    have htail : opens (headTail misnamed) = true ∧ closes (headTail misnamed) = false := by
      rw [opens, closes, (ends_headTail misnamed).1, (ends_headTail misnamed).2]
      exact ⟨rfl, rfl⟩
    have hfirst : opens "func.func @f" = false ∧ closes "func.func @f" = false := by decide
    have hlast : ["return", "\x7d"].countP opens = 0 ∧ ["return", "\x7d"].countP closes = 1 := by
      decide
    have hcount := h.countP_eq
    rw [textLines_misnamed] at hcount
    simp [hfirst, hopens, hcloses, htail, hlast, Op.braces,
      (balanced_code hcode).countP_eq] at hcount
  · have honce := h.once
    rw [textLines_misnamed, List.nil_append, List.flatMap_cons, List.flatMap_cons,
      (Op.enter 0 4 false).sides_text.1] at honce
    refine (List.nodup_cons.mp (List.nodup_append.mp honce).2.1).1 ?_
    rw [List.flatMap_cons, List.flatMap_append, defined_lines]
    exact List.mem_append_right _
      (List.mem_append_right _ (List.mem_append_left _ (List.mem_map_of_mem hindex)))

end NestTuner.Mlir
