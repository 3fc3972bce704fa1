import NestTuner.Proofs.Addressing
import NestTuner.Proofs.Emission

/-!
The elements that emitted code touches. Instructions run in a scope, which gives numbers to index
values; an index without a number leaves the code without a run. Every value that the code computes
has a meaning of its own: the index of a loop, that index times the stride, or the sum of the first
terms of an iterator. A scope that is sound for these meanings stays so whatever the order of the
instructions, and at the statement all iterators have their values. So the code goes through the
tuples of loop indices in order, and touches the elements that the statement names at each.
-/

namespace NestTuner

namespace Mlir

/-! ### Running instructions -/

/-- The numbers that index values stand for. -/
abbrev Scope := Value → Option Nat

/-- Nothing has a number yet. -/
def Scope.empty : Scope := fun _ => none

def Scope.set (σ : Scope) (v : Value) (n : Nat) : Scope :=
  Function.update σ v (some n)

/-- An element that is read or written. -/
structure Touch where
  writes : Bool
  tensor : Nat
  index : List Nat
  deriving DecidableEq

/-- The element that subscripts select. -/
def Element.touch (e : Element) (σ : Scope) (writes : Bool) : Option Touch := do
  return ⟨writes, e.argument, ← e.subscripts.mapM σ⟩

/-- One instruction: the scope it leaves, and what it touches. Loops are no single instructions. -/
def Op.step (σ : Scope) : Op → Option (Scope × List Touch)
  | constant n => some (σ.set (.const n) n, [])
  | muli result a b => do return (σ.set result ((← σ a) * (← σ b)), [])
  | addi result a b => do return (σ.set result ((← σ a) + (← σ b)), [])
  | load _ source => do return (σ, [← source.touch σ false])
  | store _ target => do return (σ, [← target.touch σ true])
  | mulf .. => some (σ, [])
  | addf .. => some (σ, [])
  | enter .. => none
  | leave .. => none

/-- The instructions before the end of a loop that is open, with `n` more loops open inside it, and
those after it. -/
def block : Nat → List Op → List Op × List Op
  | _, [] => ([], [])
  | 0, .leave _ :: rest => ([], rest)
  | n + 1, .leave width :: rest => ((block n rest).1.cons (.leave width), (block n rest).2)
  | n, .enter loop extent parallel :: rest =>
    ((block (n + 1) rest).1.cons (.enter loop extent parallel), (block (n + 1) rest).2)
  | n, op :: rest => ((block n rest).1.cons op, (block n rest).2)

theorem length_block (n : Nat) (ops : List Op) :
    (block n ops).1.length ≤ ops.length ∧ (block n ops).2.length ≤ ops.length := by
  fun_induction block n ops with
  | case1 => simp
  | case2 => simp
  | case3 n width rest ih => simp only [List.length_cons]; omega
  | case4 n loop extent parallel rest ih => simp only [List.length_cons]; omega
  | case5 n op rest _ _ _ ih => simp only [List.length_cons]; omega

/-- What a run touches, in order. A loop goes from zero up to the number behind its bound, each
round in a scope of its own. -/
def run (σ : Scope) : List Op → Option (List Touch)
  | [] => some []
  | .enter loop extent _ :: rest => do
    let n ← σ (.const extent)
    let rounds ← (List.range n).mapM fun i => run (σ.set (.index loop) i) (block 0 rest).1
    return rounds.flatten ++ (← run σ (block 0 rest).2)
  | op :: rest => do
    let (next, touched) ← op.step σ
    return touched ++ (← run next rest)
termination_by ops => ops.length
decreasing_by
  · have := (length_block 0 rest).1
    simp
    omega
  · have := (length_block 0 rest).2
    simp
    omega
  · simp

/-- What each round of the first loop touches, if that loop is parallel. -/
def parallelRounds (σ : Scope) : List Op → Option (List (List Touch))
  | [] => none
  | .enter loop extent true :: rest => do
    let n ← σ (.const extent)
    (List.range n).mapM fun i => run (σ.set (.index loop) i) (block 0 rest).1
  | op :: rest => do
    let (next, _) ← op.step σ
    parallelRounds next rest

/-- Instructions without loops, one after the other. -/
inductive Steps : Scope → List Op → Scope → List Touch → Prop
  | nil (σ : Scope) : Steps σ [] σ []
  | cons {σ next last : Scope} {op : Op} {rest : List Op} {touched later : List Touch}
      (hop : op.step σ = some (next, touched)) (hrest : Steps next rest last later) :
      Steps σ (op :: rest) last (touched ++ later)

theorem Steps.silent {σ next last : Scope} {op : Op} {rest : List Op}
    (hop : op.step σ = some (next, [])) (hrest : Steps next rest last []) :
    Steps σ (op :: rest) last [] :=
  .cons hop hrest

theorem Steps.append {σ next last : Scope} {xs ys : List Op} {touched later : List Touch}
    (hxs : Steps σ xs next touched) (hys : Steps next ys last later) :
    Steps σ (xs ++ ys) last (touched ++ later) := by
  induction hxs with
  | nil => exact hys
  | cons hop _ ih =>
    rw [List.append_assoc]
    exact .cons hop (ih hys)

theorem Steps.load {σ : Scope} {source : Element} {touch : Touch}
    (h : source.touch σ false = some touch) (result : Value) :
    Steps σ [.load result source] σ [touch] := by
  have hstep : (Op.load result source).step σ = some (σ, [touch]) := by simp [Op.step, h]
  exact .cons hstep (.nil σ)

theorem Steps.store {σ : Scope} {target : Element} {touch : Touch}
    (h : target.touch σ true = some touch) (value : Value) :
    Steps σ [.store value target] σ [touch] := by
  have hstep : (Op.store value target).step σ = some (σ, [touch]) := by simp [Op.step, h]
  exact .cons hstep (.nil σ)

theorem run_cons {σ next : Scope} {op : Op} {touched : List Touch}
    (hop : op.step σ = some (next, touched)) (rest : List Op) :
    run σ (op :: rest) = (run next rest).map (touched ++ ·) := by
  cases op with
  | enter => simp [Op.step] at hop
  | _ =>
    rw [run, hop]
    · simp only [Option.bind_eq_bind, Option.bind_some]
      cases run next rest <;> rfl
    · simp

theorem Steps.run_append {σ last : Scope} {ops : List Op} {touched : List Touch}
    (h : Steps σ ops last touched) (rest : List Op) :
    run σ (ops ++ rest) = (run last rest).map (touched ++ ·) := by
  induction h with
  | nil => simp
  | cons hop _ ih =>
    rw [List.cons_append, run_cons hop, ih, Option.map_map]
    simp [Function.comp_def]

theorem Steps.run_eq {σ last : Scope} {ops : List Op} {touched : List Touch}
    (h : Steps σ ops last touched) : run σ ops = some touched := by
  simpa [run] using h.run_append []

theorem Steps.parallelRounds_append {σ last : Scope} {ops : List Op} {touched : List Touch}
    (h : Steps σ ops last touched) (rest : List Op) :
    parallelRounds σ (ops ++ rest) = parallelRounds last rest := by
  induction h with
  | nil => rfl
  | @cons σ next last op _ _ _ hop _ ih =>
    cases op with
    | enter => simp [Op.step] at hop
    | _ =>
      rw [List.cons_append, parallelRounds, hop]
      · exact ih
      · simp

/-- Instructions in which every loop that opens is closed. -/
def Closed (ops : List Op) : Prop :=
  ∀ n rest, block n (ops ++ rest) = (ops ++ (block n rest).1, (block n rest).2)

theorem Closed.nil : Closed [] := fun _ _ => rfl

theorem Closed.append {xs ys : List Op} (hxs : Closed xs) (hys : Closed ys) :
    Closed (xs ++ ys) := by
  intro n rest
  rw [List.append_assoc, hxs, hys, List.append_assoc]

theorem Closed.loop {ops : List Op} (h : Closed ops) (loop extent : Nat) (parallel : Bool)
    (width : Option Nat) : Closed (.enter loop extent parallel :: ops ++ [.leave width]) := by
  intro n rest
  simp [block, h (n + 1)]

theorem Steps.closed {σ last : Scope} {ops : List Op} {touched : List Touch}
    (h : Steps σ ops last touched) : Closed ops := by
  induction h with
  | nil => exact .nil
  | @cons σ next last op rest _ _ hop _ ih =>
    intro n more
    have hblock : block n (op :: (rest ++ more)) =
        (op :: (block n (rest ++ more)).1, (block n (rest ++ more)).2) := by
      cases op with
      | enter => simp [Op.step] at hop
      | leave => simp [Op.step] at hop
      | _ => rw [block] <;> simp
    rw [List.cons_append, hblock, ih]
    rfl

/-- The rounds of a loop. -/
theorem run_loop {ops : List Op} (h : Closed ops) (σ : Scope) (loop extent : Nat) (parallel : Bool)
    (width : Option Nat) {n : Nat} (hn : σ (.const extent) = some n) {rounds : Nat → List Touch}
    (hrounds : ∀ i < n, run (σ.set (.index loop) i) ops = some (rounds i)) :
    run σ (.enter loop extent parallel :: ops ++ [.leave width]) =
      some ((List.range n).flatMap rounds) := by
  have hblock : block 0 (ops ++ [.leave width]) = (ops, []) := by simp [h 0, block]
  have hmap : ((List.range n).mapM fun i => run (σ.set (.index loop) i) ops) =
      some ((List.range n).map rounds) :=
    mapM_option_of_forall fun i hi => hrounds i (List.mem_range.mp hi)
  rw [List.cons_append, run, hn, hblock]
  simp [hmap, run, List.flatMap]

theorem parallelRounds_loop {ops : List Op} (h : Closed ops) (σ : Scope) (loop extent : Nat)
    (width : Option Nat) {n : Nat} (hn : σ (.const extent) = some n) {rounds : Nat → List Touch}
    (hrounds : ∀ i < n, run (σ.set (.index loop) i) ops = some (rounds i)) :
    parallelRounds σ (.enter loop extent true :: ops ++ [.leave width]) =
      some ((List.range n).map rounds) := by
  have hblock : block 0 (ops ++ [.leave width]) = (ops, []) := by simp [h 0, block]
  rw [List.cons_append, parallelRounds, hn, hblock]
  exact mapM_option_of_forall fun i hi => hrounds i (List.mem_range.mp hi)

/-! ### What values mean -/

/-- The terms of an iterator at a tuple of loop indices. -/
def terms (loops : List Loop) (index : List Nat) (i : Nat) : List Nat :=
  ((loops.zip index).filter (·.1.iterator == i)).map fun entry => entry.2 * entry.1.stride

/-- The number that a value stands for at a tuple of loop indices. -/
def meaning (loops : List Loop) (index : List Nat) : Value → Option Nat
  | .const n => some n
  | .index j => index[j]?
  | .scaled j => (loops.zip index)[j]?.map fun entry => entry.2 * entry.1.stride
  | .partialSum i n => some ((terms loops index i).take (n + 1)).sum
  | _ => none

/-- The scope in which the loops of a nest are entered, at given indices. -/
def entry (n : Nest) (index : List Nat) : Scope
  | .const c => if c ∈ constants n then some c else none
  | .index j => index[j]?
  | _ => none

/-- What has a number in one scope has it in the other. -/
def Scope.Extends (σ τ : Scope) : Prop :=
  ∀ v n, σ v = some n → τ v = some n

/-- A scope inside the loops of a nest: all numbers are right, and those of the constants and of the
loops are there. -/
structure Scope.Sound (n : Nest) (index : List Nat) (σ : Scope) : Prop where
  means : ∀ v x, σ v = some x → meaning n.loops index v = some x
  entered : (entry n index).Extends σ

section Computes

variable {n : Nest} {index : List Nat}

theorem entry_const {c : Nat} (hc : c ∈ constants n) : entry n index (.const c) = some c :=
  if_pos hc

theorem entry_sound : Scope.Sound n index (entry n index) where
  means v x hv := by
    cases v <;> simp_all [entry, meaning]
  entered _ _ hv := hv

/-- A value may be set, also again, to what it means. -/
theorem Scope.Sound.set {σ : Scope} (h : σ.Sound n index) {v : Value} {x : Nat}
    (hx : meaning n.loops index v = some x) :
    (σ.set v x).Sound n index ∧ σ.Extends (σ.set v x) := by
  have hextends : σ.Extends (σ.set v x) := by
    intro w y hw
    by_cases heq : w = v
    · subst heq
      rw [Scope.set, Function.update_self, ← hx, h.means w y hw]
    · rwa [Scope.set, Function.update_of_ne heq]
  refine ⟨⟨fun w y hw => ?_, fun w y hw => hextends w y (h.entered w y hw)⟩, hextends⟩
  by_cases heq : w = v
  · subst heq
    rw [Scope.set, Function.update_self] at hw
    rwa [← hw]
  · rw [Scope.set, Function.update_of_ne heq] at hw
    exact h.means w y hw

/-- Instructions that find numbers for results in every scope that has those given. -/
def Computes (n : Nest) (index : List Nat) (given : List (Value × Nat)) (ops : List Op)
    (results : List (Value × Nat)) : Prop :=
  ∀ σ : Scope, σ.Sound n index → (∀ r ∈ given, σ r.1 = some r.2) →
    ∃ τ, Steps σ ops τ [] ∧ τ.Sound n index ∧ σ.Extends τ ∧ ∀ r ∈ results, τ r.1 = some r.2

theorem Computes.append {given results results' : List (Value × Nat)} {xs ys : List Op}
    (hxs : Computes n index given xs results) (hys : Computes n index results ys results') :
    Computes n index given (xs ++ ys) (results ++ results') := by
  intro σ hσ hgiven
  obtain ⟨τ, hsteps, hτ, hextends, hresults⟩ := hxs σ hσ hgiven
  obtain ⟨υ, hsteps', hυ, hextends', hresults'⟩ := hys τ hτ hresults
  refine ⟨υ, hsteps.append hsteps', hυ, fun v x hv => hextends' v x (hextends v x hv), ?_⟩
  intro r hr
  rcases List.mem_append.mp hr with hr | hr
  · exact hextends' _ _ (hresults r hr)
  · exact hresults' r hr

theorem Computes.weaken {given given' results results' : List (Value × Nat)} {ops : List Op}
    (h : Computes n index given ops results) (hgiven : given ⊆ given')
    (hresults : results' ⊆ results) : Computes n index given' ops results' := by
  intro σ hσ hgiven'
  obtain ⟨τ, hsteps, hτ, hextends, hall⟩ := h σ hσ fun r hr => hgiven' r (hgiven hr)
  exact ⟨τ, hsteps, hτ, hextends, fun r hr => hall r (hresults hr)⟩

theorem Computes.flatMap {α : Type} {xs : List α} {ops : α → List Op}
    {results : α → List (Value × Nat)} (h : ∀ x ∈ xs, Computes n index [] (ops x) (results x)) :
    Computes n index [] (xs.flatMap ops) (xs.flatMap results) := by
  induction xs with
  | nil => exact fun σ hσ _ => ⟨σ, .nil σ, hσ, fun _ _ hv => hv, by simp⟩
  | cons x rest ih =>
    obtain ⟨hx, hrest⟩ := List.forall_mem_cons.mp h
    exact hx.append ((ih hrest).weaken (List.nil_subset _) (List.Subset.refl _))

theorem mem_insertAscending {c m : Nat} {cs : List Nat} :
    c ∈ insertAscending m cs ↔ c = m ∨ c ∈ cs := by
  induction cs with
  | nil => simp [insertAscending]
  | cons d rest ih =>
    unfold insertAscending
    split
    case isTrue => simp
    case isFalse =>
      split
      case isTrue heq => simp_all
      case isFalse => simp [ih, or_left_comm]

theorem mem_constants {n : Nest} {c : Nat} :
    c ∈ constants n ↔ c = 0 ∨ c = 1 ∨ ∃ l ∈ n.loops, c = l.extent ∨ c = l.stride := by
  have hfold : ∀ cs start : List Nat,
      c ∈ cs.foldl (fun cs c => insertAscending c cs) start ↔ c ∈ start ∨ c ∈ cs := by
    intro cs
    induction cs with
    | nil => simp
    | cons d rest ih =>
      intro start
      rw [List.foldl_cons, ih, mem_insertAscending, List.mem_cons, or_comm (a := c = d), or_assoc]
  rw [constants, hfold]
  simp [or_assoc]

/-- The term of a loop is its index times its stride. -/
theorem term_computes {j x : Nat} {l : Loop} (hl : n.loops[j]? = some l) (hx : index[j]? = some x) :
    Computes n index [] (term j l).2 [((term j l).1, x * l.stride)] := by
  intro σ hσ _
  have hindex : σ (.index j) = some x := hσ.entered _ _ (by simpa [entry] using hx)
  unfold term
  by_cases hone : l.stride = 1
  · simp only [hone, BEq.rfl, if_true, Nat.mul_one]
    exact ⟨σ, .nil σ, hσ, fun _ _ hv => hv, by simpa using hindex⟩
  · have hconst : σ (.const l.stride) = some l.stride := by
      refine hσ.entered _ _ (entry_const (mem_constants.mpr ?_))
      exact .inr (.inr ⟨l, List.mem_of_getElem? hl, .inr rfl⟩)
    have hmeaning : meaning n.loops index (.scaled j) = some (x * l.stride) := by
      have hzip : (n.loops.zip index)[j]? = some (l, x) := List.getElem?_zip_eq_some.mpr ⟨hl, hx⟩
      simp [meaning, hzip]
    obtain ⟨hsound, hextends⟩ := hσ.set hmeaning
    rw [if_neg (by simpa using hone)]
    refine ⟨_, .silent ?_ (.nil _), hsound, hextends, ?_⟩
    · simp [Op.step, hindex, hconst]
    · simp [Scope.set]

/-- Partial sums add up the terms of an iterator, from those already summed. -/
theorem sumFrom_computes {i : Nat} {values : List Value} {front back : List Nat} {value : Value}
    (hterms : Mlir.terms n.loops index i = front ++ back) (hlength : values.length = back.length) :
    Computes n index ((value, front.sum) :: values.zip back)
      (sumFrom i front.length value values).2
      [((sumFrom i front.length value values).1, (front ++ back).sum)] := by
  induction values generalizing front back value with
  | nil =>
    obtain rfl := List.length_eq_zero_iff.mp hlength.symm
    intro σ hσ hgiven
    refine ⟨σ, .nil σ, hσ, fun _ _ hv => hv, ?_⟩
    simpa [sumFrom] using hgiven
  | cons v values ih =>
    cases back with
    | nil => simp at hlength
    | cons x back =>
      intro σ hσ hgiven
      simp only [List.zip_cons_cons, List.forall_mem_cons] at hgiven
      obtain ⟨hvalue, hv, hrest⟩ := hgiven
      have hmeaning : meaning n.loops index (.partialSum i front.length) =
          some (front.sum + x) := by
        simp [meaning, hterms, List.take_append, List.take_of_length_le]
      obtain ⟨hsound, hextends⟩ := hσ.set hmeaning
      have hset : σ.set (.partialSum i front.length) (front.sum + x) (.partialSum i front.length) =
          some (front ++ [x]).sum := by
        simp [Scope.set]
      obtain ⟨τ, hsteps, hτ, hextends', hresult⟩ :=
        @ih (front ++ [x]) back (.partialSum i front.length) (by simp [hterms])
          (by simpa using hlength) _ hsound
          (List.forall_mem_cons.mpr ⟨hset, fun r hr => hextends _ _ (hrest r hr)⟩)
      refine ⟨τ, ?_, hτ, fun w y hw => hextends' w y (hextends w y hw), ?_⟩
      · rw [List.length_append, List.length_singleton] at hsteps
        exact .silent (by simp [Op.step, hvalue, hv]) hsteps
      · simpa [sumFrom] using hresult

theorem terms_eq (hlength : index.length = n.loops.length) (i : Nat) :
    Mlir.terms n.loops index i = (n.loops.zipIdx.filter (·.1.iterator == i)).map fun e =>
      index.getD e.2 0 * e.1.stride := by
  have hzip : n.loops.zip index = n.loops.zipIdx.map fun e => (e.1, index.getD e.2 0) := by
    refine List.ext_getElem (by simp [hlength]) fun j hj hj' => ?_
    have hlt : j < index.length := by
      rw [List.length_zip] at hj
      omega
    simp [List.getElem?_eq_getElem hlt]
  rw [Mlir.terms, hzip, List.filter_map, List.map_map]
  rfl

/-- The code of an iterator finds its value. -/
theorem iteratorValue_computes (hlength : index.length = n.loops.length) (i : Nat) :
    Computes n index [] (iteratorValue n i).2
      [((iteratorValue n i).1, pointAt n.loops index i)] := by
  have hterms := terms_eq hlength i
  have hpoint : pointAt n.loops index i = (Mlir.terms n.loops index i).sum := rfl
  have hscaling : Computes n index [] ((n.loops.zipIdx.filter (·.1.iterator == i)).flatMap fun e =>
      (term e.2 e.1).2) ((n.loops.zipIdx.filter (·.1.iterator == i)).flatMap fun e =>
        [((term e.2 e.1).1, index.getD e.2 0 * e.1.stride)]) := by
    refine .flatMap fun e he => term_computes ?_ ?_
    · exact List.mk_mem_zipIdx_iff_getElem?.mp (List.mem_of_mem_filter he)
    · have hget := List.mk_mem_zipIdx_iff_getElem?.mp (List.mem_of_mem_filter he)
      have hlt : e.2 < index.length := by
        rw [hlength]
        exact (List.getElem?_eq_some_iff.mp hget).1
      simp [List.getElem?_eq_getElem hlt]
  rw [hpoint, hterms]
  simp only [iteratorValue]
  generalize n.loops.zipIdx.filter (·.1.iterator == i) = entries at hterms hscaling
  cases entries with
  | nil =>
    intro σ hσ _
    refine ⟨σ, .nil σ, hσ, fun _ _ hv => hv, ?_⟩
    have hzero : σ (.const 0) = some 0 :=
      hσ.entered _ _ (entry_const (mem_constants.mpr (.inl rfl)))
    simpa using hzero
  | cons e rest =>
    have hsum := @sumFrom_computes n index i (rest.map fun e => (term e.2 e.1).1)
      [index.getD e.2 0 * e.1.stride] (rest.map fun e => index.getD e.2 0 * e.1.stride)
      (term e.2 e.1).1 (by simpa using hterms) (by simp)
    rw [List.sum_singleton, List.zip_map'] at hsum
    rw [← List.map_eq_flatMap] at hscaling
    have hall := (hscaling.append hsum).weaken (List.Subset.refl _) (List.subset_append_right ..)
    simpa [List.flatMap_map, Function.comp_def] using hall

end Computes

end Mlir

/-! ### What a kernel touches -/

/-- The element of an operand at a point. -/
def Access.touch (a : Access) (v : Point) (writes : Bool) : Mlir.Touch :=
  ⟨writes, a.tensor, a.indices.map v⟩

/-- What the statement of a kernel touches at a point, its output last. -/
def Kernel.touches (k : Kernel) (v : Point) : List Mlir.Touch :=
  (match k.statement with
    | .contraction output lhs rhs => [lhs.touch v false, rhs.touch v false, output.touch v false]
    | .elementwise _ _ inputs => inputs.map (·.touch v false)) ++
  [k.statement.output.touch v true]

/-- What the points with one index of the outermost loop touch, in the order of the loops inside. -/
def Kernel.round (k : Kernel) (inner : List Loop) (t : Nat) : List Mlir.Touch :=
  (tuples (inner.map (·.extent))).flatMap fun rest => k.touches (pointAt k.nest.loops (t :: rest))

theorem Kernel.mem_round {k : Kernel} {inner : List Loop} {t : Nat} {a : Mlir.Touch} :
    a ∈ k.round inner t ↔ ∃ rest ∈ box (inner.map (·.extent)),
      a ∈ k.touches (pointAt k.nest.loops (t :: rest)) := by
  simp only [round, List.mem_flatMap, mem_tuples]

namespace Mlir

section Statement

variable {k : Kernel} {values : List Value} {σ : Scope} {v : Point}
  (hvalues : ∀ i w, values[i]? = some w → σ w = some (v i))

include hvalues

theorem mapM_subscripts {indices : List Nat} {subscripts : List Value}
    (h : indices.mapM (Checked.get values) = .ok subscripts) :
    subscripts.mapM σ = some (indices.map v) := by
  have hall := mapM_eq_ok.mp h
  clear h
  induction hall with
  | nil => rfl
  | cons hget _ ih =>
    rw [List.mapM_cons, hvalues _ _ (Checked.get_eq_ok.mp hget), ih]
    rfl

theorem touch_of_element {a : Access} {e : Element} (h : element k values a = .ok e)
    (writes : Bool) : e.touch σ writes = some (a.touch v writes) := by
  obtain ⟨hargument, -, hsubscripts⟩ := element_eq_ok.mp h
  simp [Element.touch, Access.touch, hargument, mapM_subscripts hvalues hsubscripts]

/-- The loads of an elementwise statement. -/
theorem steps_loads {inputs : List Access} {sources : List Element}
    (h : inputs.mapM (element k values) = .ok sources) (name : Nat → Value) :
    Steps σ (sources.mapIdx fun n source => .load (name n) source) σ
      (inputs.map (·.touch v false)) := by
  have hall := mapM_eq_ok.mp h
  clear h
  induction hall generalizing name with
  | nil => exact .nil σ
  | cons hsource _ ih =>
    rw [List.mapIdx_cons]
    exact (Steps.load (touch_of_element hvalues hsource false) (name 0)).append
      (ih fun n => name (n + 1))

/-- The statement touches the elements of its operands. -/
theorem Written.steps {ops : List Op} (h : Written k values ops) :
    Steps σ ops σ (k.touches v) := by
  have hmul : ∀ result a b type, Steps σ [.mulf result a b type] σ [] :=
    fun _ _ _ _ => .silent rfl (.nil σ)
  have hadd : ∀ result a b type, Steps σ [.addf result a b type] σ [] :=
    fun _ _ _ _ => .silent rfl (.nil σ)
  unfold Kernel.touches
  cases h with
  | contraction hs htarget hx hy =>
    have hload {a e} (he : element k values a = .ok e) :=
      Steps.load (touch_of_element hvalues he false)
    rw [hs]
    exact (hload hx .lhs).append ((hload hy .rhs).append ((hload htarget .acc).append
      ((hmul ..).append ((hadd ..).append
        (Steps.store (touch_of_element hvalues htarget true) .sum)))))
  | @elementwise op _ inputs target _ hs htarget hsources =>
    have hcombination : Steps σ (combination op target.tensor.element) σ [] := by
      cases op with
      | copy => exact .nil σ
      | add => exact hadd ..
      | mul => exact hmul ..
    have hloads := (steps_loads hvalues hsources .input).append hcombination
    rw [List.append_nil] at hloads
    rw [hs]
    exact hloads.append (Steps.store (touch_of_element hvalues htarget true) _)

end Statement

/-! ### The loops -/

/-- Loops around instructions, the first at a given position. -/
def nested : Nat → List Loop → List Op → List Op
  | _, [], body => body
  | n, l :: rest, body =>
    .enter n l.extent l.parallel :: nested (n + 1) rest body ++ [.leave l.vectorWidth]

theorem nested_eq (n : Nat) (loops : List Loop) (body : List Op) :
    nested n loops body = loops.mapIdx (fun i l => .enter (n + i) l.extent l.parallel) ++ body ++
      loops.reverse.map fun l => .leave l.vectorWidth := by
  induction loops generalizing n with
  | nil => simp [nested]
  | cons l rest ih => simp [nested, ih, List.mapIdx_cons, Nat.add_assoc, Nat.add_comm 1]

theorem Closed.nested {body : List Op} (h : Closed body) (n : Nat) (loops : List Loop) :
    Closed (nested n loops body) := by
  induction loops generalizing n with
  | nil => exact h
  | cons l rest ih => exact (ih (n + 1)).loop _ _ _ _

theorem set_entry (n : Nest) (index : List Nat) (x : Nat) :
    (entry n index).set (.index index.length) x = entry n (index ++ [x]) := by
  funext v
  by_cases heq : v = .index index.length
  · subst heq
    simp [Scope.set, entry]
  · rw [Scope.set, Function.update_of_ne heq]
    cases v with
    | index j =>
      have hj : j ≠ index.length := fun h => heq (h ▸ rfl)
      rcases Nat.lt_or_gt_of_ne hj with hlt | hgt
      · simp [entry, List.getElem?_append_left hlt]
      · have hend : index[j]? = none := by simp; omega
        have hend' : (index ++ [x])[j]? = none := by simp; omega
        simp only [entry, hend, hend']
    | _ => rfl

/-- Loops around instructions that do the same at every tuple of indices. -/
theorem run_nested {n : Nest} {body : List Op} (hclosed : Closed body)
    (touches : List Nat → List Touch) {loops : List Loop} (hloops : ∀ l ∈ loops, l ∈ n.loops)
    (index : List Nat) (hbody : ∀ rest ∈ box (loops.map (·.extent)),
      run (entry n (index ++ rest)) body = some (touches (index ++ rest))) :
    run (entry n index) (nested index.length loops body) =
      some ((tuples (loops.map (·.extent))).flatMap fun rest => touches (index ++ rest)) := by
  induction loops generalizing index with
  | nil => simpa [nested, tuples, mem_box] using hbody
  | cons l inner ih =>
    obtain ⟨hl, hinner⟩ := List.forall_mem_cons.mp hloops
    have hconst : entry n index (.const l.extent) = some l.extent :=
      entry_const (mem_constants.mpr (.inr (.inr ⟨l, hl, .inl rfl⟩)))
    have hround : ∀ x < l.extent, run ((entry n index).set (.index index.length) x)
        (nested (index.length + 1) inner body) =
          some ((tuples (inner.map (·.extent))).flatMap fun rest =>
            touches (index ++ x :: rest)) := by
      intro x hx
      have hinside := ih hinner (index ++ [x]) fun rest hrest => by
        simpa using hbody (x :: rest) (List.Forall₂.cons hx hrest)
      rw [set_entry]
      simpa using hinside
    rw [nested, run_loop (hclosed.nested _ _) _ _ _ _ _ hconst hround]
    simp [tuples, List.flatMap_assoc, List.flatMap_map]

theorem const_ne {c : Nat} {cs : List Nat} (hc : c ∉ cs) :
    ∀ d ∈ cs, Value.const c ≠ .const d := by
  intro d hd heq
  injection heq with heq
  exact hc (heq ▸ hd)

theorem steps_constants (cs : List Nat) (σ : Scope) :
    ∃ τ, Steps σ (cs.map .constant) τ [] ∧ (∀ c ∈ cs, τ (.const c) = some c) ∧
      ∀ v, (∀ c ∈ cs, v ≠ .const c) → τ v = σ v := by
  induction cs generalizing σ with
  | nil => exact ⟨σ, .nil σ, by simp, by simp⟩
  | cons c rest ih =>
    obtain ⟨τ, hsteps, hconst, hother⟩ := ih (σ.set (.const c) c)
    refine ⟨τ, .silent rfl hsteps, List.forall_mem_cons.mpr ⟨?_, hconst⟩, fun v hv => ?_⟩
    · by_cases hc : c ∈ rest
      · exact hconst c hc
      · rw [hother _ (const_ne hc), Scope.set, Function.update_self]
    · obtain ⟨hne, hrest⟩ := List.forall_mem_cons.mp hv
      rw [hother v hrest, Scope.set, Function.update_of_ne hne]

/-- The constants are there when the loops are entered. -/
theorem constants_steps (n : Nest) :
    Steps .empty ((constants n).map .constant) (entry n []) [] := by
  obtain ⟨τ, hsteps, hconst, hother⟩ := steps_constants (constants n) .empty
  have hentry : τ = entry n [] := by
    funext v
    cases v with
    | const c =>
      by_cases hc : c ∈ constants n
      · rw [hconst c hc, entry_const hc]
      · simp [hother _ (const_ne hc), Scope.empty, entry, hc]
    | _ => rw [hother _ (by simp)]; rfl
  exact hentry ▸ hsteps

/-- The values of the iterators of a kernel. -/
def values (k : Kernel) : List Value :=
  (List.range k.iterators.length).map fun i => (iteratorValue k.nest i).1

/-- The code that computes the values of the iterators of a kernel. -/
def valueOps (k : Kernel) : List Op :=
  (List.range k.iterators.length).flatMap fun i => (iteratorValue k.nest i).2

/-- The code of a kernel: constants, and the loops around code for one point. -/
theorem ops_eq_ok {k : Kernel} {code : List Op} :
    ops k = .ok code ↔ ∃ statement, Written k (values k) statement ∧
      code = (constants k.nest).map .constant ++
        nested 0 k.nest.loops (valueOps k ++ statement) := by
  have hvalues : ((List.range k.iterators.length).map (iteratorValue k.nest)).map (·.1) =
      values k := by
    simp [values]
  simp only [ops, hvalues, bind_eq_ok]
  refine exists_congr fun statement => and_congr statementOps_eq_ok ?_
  rw [nested_eq, valueOps, List.flatMap_map, eq_comm (a := code)]
  simp [pure, Except.pure]

/-- Instructions on indices alone, and the ends of loops. -/
def Op.isIndexing : Op → Bool
  | constant .. => true
  | enter .. => true
  | leave .. => true
  | muli .. => true
  | addi .. => true
  | _ => false

/-- The statement stands in code on indices. -/
theorem exists_frame {k : Kernel} {code : List Op} (h : ops k = .ok code) :
    ∃ front statement back, Written k (values k) statement ∧ code = front ++ statement ++ back ∧
      ∀ op ∈ front ++ back, op.isIndexing = true := by
  obtain ⟨statement, hstatement, rfl⟩ := ops_eq_ok.mp h
  refine ⟨(constants k.nest).map .constant ++ k.nest.loops.mapIdx (fun i l =>
    .enter (0 + i) l.extent l.parallel) ++ valueOps k, statement, k.nest.loops.reverse.map fun l =>
      .leave l.vectorWidth, hstatement, by simp [nested_eq], fun op hop => ?_⟩
  simp only [List.mem_append, List.mem_map, List.mem_mapIdx] at hop
  rcases hop with ((⟨c, -, rfl⟩ | ⟨i, hi, rfl⟩) | hop) | ⟨l, -, rfl⟩
  · rfl
  · rfl
  · obtain ⟨i, -, hop⟩ := List.mem_flatMap.mp hop
    rcases mem_iteratorValue hop with ⟨_, _, -, -, rfl⟩ | ⟨_, _, _, rfl⟩ <;> rfl
  · rfl

/-- The code inside the loops touches what the statement names there. -/
theorem body_steps {k : Kernel} {statement : List Op} (hstatement : Written k (values k) statement)
    {index : List Nat} (hlength : index.length = k.nest.loops.length) :
    ∃ τ, Steps (entry k.nest index) (valueOps k ++ statement) τ
      (k.touches (pointAt k.nest.loops index)) := by
  obtain ⟨τ, hsteps, -, -, hvalues⟩ := Computes.flatMap
    (fun i _ => iteratorValue_computes hlength i) (entry k.nest index) entry_sound (by simp)
  refine ⟨τ, hsteps.append (Written.steps (fun i w hw => ?_) hstatement)⟩
  rw [values, List.getElem?_map, Option.map_eq_some_iff] at hw
  obtain ⟨j, hj, rfl⟩ := hw
  obtain rfl : i = j := by simpa using (List.getElem?_eq_some_iff.mp hj).2
  refine hvalues (_, _) (List.mem_flatMap.mpr ⟨i, List.mem_of_getElem? hj, ?_⟩)
  exact List.mem_singleton.mpr rfl

/-- The code for one point runs without the loops, and touches what the statement names there. -/
theorem exists_body {k : Kernel} {code : List Op} (h : ops k = .ok code) :
    ∃ body, code = (constants k.nest).map .constant ++ nested 0 k.nest.loops body ∧ Closed body ∧
      ∀ index : List Nat, index.length = k.nest.loops.length →
        run (entry k.nest index) body = some (k.touches (pointAt k.nest.loops index)) := by
  obtain ⟨statement, hstatement, hcode⟩ := ops_eq_ok.mp h
  have hzeros : (List.replicate k.nest.loops.length 0).length = k.nest.loops.length := by simp
  obtain ⟨τ, hsteps⟩ := body_steps hstatement hzeros
  refine ⟨_, hcode, hsteps.closed, fun index hlength => ?_⟩
  obtain ⟨τ, hsteps⟩ := body_steps hstatement hlength
  exact hsteps.run_eq

/-- The code of a kernel goes through the tuples of loop indices in order, and touches what the
statement names at each. -/
theorem run_ops {k : Kernel} {code : List Op} (h : ops k = .ok code) :
    run .empty code = some ((tuples (k.nest.loops.map (·.extent))).flatMap fun index =>
      k.touches (pointAt k.nest.loops index)) := by
  obtain ⟨body, rfl, hclosed, hbody⟩ := exists_body h
  have hnest := run_nested hclosed (fun index => k.touches (pointAt k.nest.loops index))
    (fun l hl => hl) [] fun rest hrest => hbody rest (by simpa using hrest.length_eq)
  rw [(constants_steps k.nest).run_append]
  simpa using hnest

/-- With a parallel loop outermost, the rounds are those of its indices. -/
theorem parallelRounds_ops {k : Kernel} {code : List Op} (h : ops k = .ok code) {outer : Loop}
    {inner : List Loop} (hloops : k.nest.loops = outer :: inner)
    (hparallel : outer.parallel = true) :
    parallelRounds .empty code = some ((List.range outer.extent).map (k.round inner)) := by
  obtain ⟨body, rfl, hclosed, hbody⟩ := exists_body h
  have hconst : entry k.nest [] (.const outer.extent) = some outer.extent :=
    entry_const (mem_constants.mpr (.inr (.inr ⟨outer, by simp [hloops], .inl rfl⟩)))
  have hnested : nested 0 k.nest.loops body =
      .enter 0 outer.extent true :: nested 1 inner body ++ [.leave outer.vectorWidth] := by
    rw [hloops, nested, hparallel]
  rw [(constants_steps k.nest).parallelRounds_append, hnested]
  refine parallelRounds_loop (hclosed.nested _ _) _ _ _ _ hconst fun t ht => ?_
  have hinner : ∀ l ∈ inner, l ∈ k.nest.loops := fun l hl => by simp [hloops, hl]
  have hround := run_nested hclosed (fun index => k.touches (pointAt k.nest.loops index)) hinner [t]
    fun rest hrest => hbody _ (by simpa [hloops] using hrest.length_eq)
  have hentry := set_entry k.nest [] t
  rw [List.length_nil, List.nil_append] at hentry
  rw [hentry]
  exact hround

end Mlir

end NestTuner
