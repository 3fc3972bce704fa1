import NestTuner.Proofs.Lowering

/-!
The final value of each element of the output. The points that write an element are those of the
reduction loops, run from the index of the element, and the element is what they make of zero, one
after another. The layout of the output and the place where the inputs start do not matter, so the
same statement serves a whole run and one slab of it.
-/

namespace NestTuner

namespace Plan

variable {α : Type}

/-- The product that a point adds. -/
def product (A : Arithmetic α) (ops : Operands α) (o : Offsets) : Option α := do
  return A.mul (← ops.lhs[o.lhs]?) (← ops.rhs[o.rhs]?)

/-- Every lane gains the product at its own point. -/
theorem accumulate_eq {A : Arithmetic α} {ops : Operands α} {deltas o : Offsets} {lanes : List α}
    {f : Nat → α} (hrange : (o.ahead lanes.length deltas).InRange)
    (h : ∀ n < lanes.length, product A ops (o.ahead n deltas) = some (f n)) :
    accumulate A ops deltas o lanes =
      some (lanes.mapIdx (fun n lane => A.add lane (f n)), o.ahead lanes.length deltas) := by
  induction lanes generalizing o f with
  | nil =>
    rw [List.length_nil, Offsets.ahead_zero]
    rfl
  | cons lane lanes ih =>
    obtain ⟨hadvance, hbehind⟩ := hrange.step
    have hfirst : product A ops o = some (f 0) := by
      simpa [Offsets.ahead_zero] using h 0 (by simp)
    have hrest := ih (o := o.ahead 1 deltas) (f := fun n => f (n + 1)) hbehind (by
      intro n hn
      rw [Offsets.ahead_ahead, Nat.add_comm]
      exact h (n + 1) (by simpa using hn))
    rw [Offsets.ahead_ahead, Nat.add_comm 1] at hrest
    simp only [product, Option.bind_eq_bind, Option.pure_def, Option.bind_eq_some_iff,
      Option.some_inj] at hfirst
    obtain ⟨x, hx, y, hy, hxy⟩ := hfirst
    simp only [accumulate, hx, hy, hadvance, hrest, hxy, List.mapIdx_cons, List.length_cons,
      Option.bind_eq_bind, Option.bind_some, Option.pure_def]

/-- Every lane gains the products of its column, row by row. -/
theorem accumulateRows_eq {A : Arithmetic α} {ops : Operands α} {deltas o : Offsets}
    {lanes : List α} {f : Nat → α} {rows : Nat}
    (hrange : (o.ahead (rows * lanes.length) deltas).InRange)
    (h : ∀ n < rows * lanes.length, product A ops (o.ahead n deltas) = some (f n)) :
    accumulateRows A ops deltas rows o lanes = some (lanes.mapIdx fun n lane =>
      (List.range rows).foldl (fun a row => A.add a (f (row * lanes.length + n))) lane) := by
  induction rows generalizing o lanes f with
  | zero => simp [accumulateRows, List.mapIdx_eq_zipIdx_map]
  | succ rows ih =>
    rw [Nat.succ_mul] at h hrange
    have hrow : accumulate A ops deltas o lanes =
        some (lanes.mapIdx (fun n lane => A.add lane (f n)), o.ahead lanes.length deltas) :=
      accumulate_eq (hrange.mono (Nat.le_add_left ..)) fun n hn => h n (by omega)
    have hbehind : ((o.ahead lanes.length deltas).ahead
        (rows * (lanes.mapIdx fun n lane => A.add lane (f n)).length) deltas).InRange := by
      rwa [List.length_mapIdx, Offsets.ahead_ahead, Nat.add_comm]
    have hproducts : ∀ n < rows * (lanes.mapIdx fun n lane => A.add lane (f n)).length,
        product A ops ((o.ahead lanes.length deltas).ahead n deltas) =
          some (f (lanes.length + n)) := by
      intro n hn
      rw [List.length_mapIdx] at hn
      rw [Offsets.ahead_ahead]
      exact h _ (by omega)
    rw [accumulateRows, hrow]
    simp only [Option.bind_eq_bind, Option.bind_some, ih hbehind hproducts, List.mapIdx_mapIdx,
      List.length_mapIdx, List.range_succ_eq_map, List.foldl_cons, List.foldl_map, Nat.zero_mul,
      Nat.zero_add, Function.comp_def, Nat.succ_mul, Nat.add_comm _ lanes.length, Nat.add_assoc]

/-- The sums of the lanes of a vectorized reduction, given its terms. -/
def laneSums (A : Arithmetic α) (f : Nat → α) (rows width : Nat) : List α :=
  (List.range width).map fun n =>
    (List.range rows).foldl (fun a row => A.add a (f (row * width + n))) A.zero

theorem laneStep_eq {A : Arithmetic α} {ops : Operands α} {l : Loop} {width : Nat} {o : Offsets}
    {f : Nat → α} (hrows : l.extent / width * width = l.extent)
    (hrange : (o.ahead l.extent l.deltas).InRange)
    (h : ∀ n < l.extent, product A ops (o.ahead n l.deltas) = some (f n)) (a : α) :
    laneStep A ops l width o a =
      some (A.add a ((laneSums A f (l.extent / width) width).foldl A.add A.sumStart)) := by
  have hbehind : (o.ahead (l.extent / width * (List.replicate width A.zero).length)
      l.deltas).InRange := by
    simpa [hrows] using hrange
  have hproducts : ∀ n < l.extent / width * (List.replicate width A.zero).length,
      product A ops (o.ahead n l.deltas) = some (f n) := by
    simpa [hrows] using h
  have hsums : (List.replicate width A.zero).mapIdx (fun n lane =>
      (List.range (l.extent / width)).foldl
        (fun a row => A.add a (f (row * (List.replicate width A.zero).length + n))) lane) =
      laneSums A f (l.extent / width) width := by
    rw [laneSums]
    apply List.ext_getElem
    · simp
    · intro n hn hn'
      simp
  rw [laneStep, accumulateRows_eq hbehind hproducts, hsums]
  rfl

end Plan

namespace Kernel

open Point

variable {α : Type}

/-- A vectorized reduction at the end of some loops, with its width. -/
def laneLoop? (k : Kernel) (loops : List Loop) : Option (Loop × Nat) :=
  loops.getLast?.bind fun l => l.vectorWidth.bind fun width =>
    if k.statement.isElementwise = false ∧ l.iterator ∉ k.statement.output.indices then
      some (l, width)
    else none

/-- The loops that are walked point by point: all but a vectorized reduction. -/
def walked (k : Kernel) (loops : List Loop) : List Loop :=
  if (k.laneLoop? loops).isSome then loops.dropLast else loops

/-- The walked loops that do not move the output. -/
def reductions (k : Kernel) (loops : List Loop) : List Loop :=
  (k.walked loops).filter fun l => !k.statement.output.indices.contains l.iterator

/-- The product of the inputs at a point. -/
def term (A : Arithmetic α) (k : Kernel) (ops : Plan.Operands α) (v : Point) : α :=
  (Plan.product A ops (k.offsets k.extentOf v v)).getD A.zero

/-- What a point makes of its output element. -/
def pointValue (A : Arithmetic α) (k : Kernel) (ops : Plan.Operands α) (v : Point) (a : α) : α :=
  (Plan.pointStep A (.ofStatement k.statement) ops (k.offsets k.extentOf v v) a).getD A.zero

/-- What a walked point makes of its output element: the whole vectorized reduction, if there is
one. -/
def step (A : Arithmetic α) (k : Kernel) (ops : Plan.Operands α) (lanes : Option (Loop × Nat))
    (v : Point) (a : α) : α :=
  match lanes with
  | none => k.pointValue A ops v a
  | some (l, width) =>
    let terms := fun n => k.term A ops (v.move l.iterator (n * l.stride))
    A.add a ((Plan.laneSums A terms (l.extent / width) width).foldl A.add A.sumStart)

/-- The final value of an element of the output. -/
def cell (A : Arithmetic α) (k : Kernel) (ops : Plan.Operands α) (loops : List Loop) (v : Point) :
    α :=
  (visits (k.reductions loops) v).foldl (fun a u => k.step A ops (k.laneLoop? loops) u a) A.zero

/-- A point of the iteration space. -/
def Within (k : Kernel) (v : Point) : Prop :=
  ∀ i, v i < k.extentOf i

/-- Arrays of the shapes of the inputs. -/
def Loaded (k : Kernel) (ops : Plan.Operands α) : Prop :=
  (0 < k.statement.inputs.length → ops.lhs.size = Shape.size (k.shapeOf (k.input 0))) ∧
    (1 < k.statement.inputs.length → ops.rhs.size = Shape.size (k.shapeOf (k.input 1)))

theorem laneLoop?_eq_some {k : Kernel} {loops : List Loop} {l : Loop} {width : Nat}
    (h : k.laneLoop? loops = some (l, width)) :
    loops = k.walked loops ++ [l] ∧ l.vectorWidth = some width ∧
      k.statement.isElementwise = false ∧ l.iterator ∉ k.statement.output.indices := by
  have hwalked : k.walked loops = loops.dropLast := by simp [walked, h]
  obtain ⟨last, hlast, h⟩ := Option.bind_eq_some_iff.mp h
  obtain ⟨w, hw, h⟩ := Option.bind_eq_some_iff.mp h
  split at h
  case isFalse => cases h
  case isTrue hreduces =>
    obtain ⟨rfl, rfl⟩ := Prod.mk.inj (Option.some.inj h)
    refine ⟨?_, hw, hreduces⟩
    rw [hwalked]
    exact (List.dropLast_append_getLast? last hlast).symm

theorem walked_of_none {k : Kernel} {loops : List Loop} (h : k.laneLoop? loops = none) :
    k.walked loops = loops := by
  simp [walked, h]

/-- Loops before the last one do not make a vectorized reduction. -/
theorem laneLoop?_append {k : Kernel} {before : List Loop} (h : k.laneLoop? before = none)
    (after : List Loop) : k.laneLoop? (before ++ after) = k.laneLoop? after := by
  rcases List.eq_nil_or_concat after with rfl | ⟨init, last, rfl⟩
  · rw [List.append_nil, h]
    rfl
  · rw [List.concat_eq_append, ← List.append_assoc]
    simp only [laneLoop?, List.getLast?_concat]

theorem reductions_append {k : Kernel} {before : List Loop} (h : k.laneLoop? before = none)
    (after : List Loop) : k.reductions (before ++ after) =
      (before.filter fun l => !k.statement.output.indices.contains l.iterator) ++
        k.reductions after := by
  rw [reductions, reductions, ← List.filter_append]
  congr 1
  cases hlane : k.laneLoop? after with
  | none => rw [walked_of_none ((laneLoop?_append h after).trans hlane), walked_of_none hlane]
  | some lane =>
    have hne : after ≠ [] := by
      rintro rfl
      simp [laneLoop?] at hlane
    simp [walked, laneLoop?_append h, hlane, List.dropLast_append_of_ne_nil hne]

/-- The loops that do not move the output are walked, but for a vectorized reduction. -/
theorem filter_eq_reductions (k : Kernel) (loops : List Loop) :
    (loops.filter fun l => !k.statement.output.indices.contains l.iterator) =
      k.reductions loops ++ ((k.laneLoop? loops).map (·.1)).toList := by
  cases hlane : k.laneLoop? loops with
  | none => simp [reductions, walked_of_none hlane]
  | some lane =>
    obtain ⟨hsplit, -, -, hmem⟩ := laneLoop?_eq_some hlane
    conv_lhs => rw [hsplit]
    simp [reductions, hmem]

/-- Cells do not depend on the loops before the last one but for the points that are summed. -/
theorem cell_append_congr (A : Arithmetic α) {k : Kernel} (ops : Plan.Operands α)
    {xs ys : List Loop} (hxs : k.laneLoop? xs = none) (hys : k.laneLoop? ys = none)
    (hvisits : ∀ v, visits (xs.filter fun l => !k.statement.output.indices.contains l.iterator) v =
      visits (ys.filter fun l => !k.statement.output.indices.contains l.iterator) v)
    (after : List Loop) : k.cell A ops (xs ++ after) = k.cell A ops (ys ++ after) := by
  funext v
  simp only [cell, laneLoop?_append hxs, laneLoop?_append hys, reductions_append hxs,
    reductions_append hys, visits_append, hvisits]

theorem mem_of_mem_reductions {k : Kernel} {loops : List Loop} {l : Loop}
    (h : l ∈ k.reductions loops) : l ∈ loops := by
  have hwalked : l ∈ k.walked loops := List.mem_of_mem_filter h
  unfold walked at hwalked
  split at hwalked
  · exact List.mem_of_mem_dropLast hwalked
  · exact hwalked

/-- The points of a vectorized reduction, run where the walked loops have arrived, are points of
the nest. -/
theorem mem_visits_of_walked {k : Kernel} {loops : List Loop} {v : Point}
    (hv : v ∈ visits (k.walked loops) origin) :
    (k.laneLoop? loops = none → v ∈ visits loops origin) ∧
      ∀ l width, k.laneLoop? loops = some (l, width) → ∀ n < l.extent,
        v.move l.iterator (n * l.stride) ∈ visits loops origin := by
  constructor
  · intro hnone
    rwa [walked_of_none hnone] at hv
  · intro l width hsome n hn
    rw [(laneLoop?_eq_some hsome).1, visits_append]
    refine List.mem_flatMap.mpr ⟨v, hv, ?_⟩
    rw [visits_singleton]
    exact List.mem_map.mpr ⟨n, List.mem_range.mpr hn, rfl⟩

theorem read_eq_some {k : Kernel} {a : Access} {data : Array α} {v : Point} (hv : k.Within v)
    (hdata : data.size = Shape.size (k.shapeOf a)) :
    ∃ x, data[Shape.position (k.shapeOf a) (a.indices.map v)]? = some x := by
  have hlt : Shape.position (k.shapeOf a) (a.indices.map v) < data.size := by
    rw [hdata]
    exact Shape.position_lt (Shape.forall₂_map fun i _ => hv i)
  exact ⟨_, Array.getElem?_eq_getElem hlt⟩

/-- The product of a contraction is there at every point of the iteration space. -/
theorem product_eq (A : Arithmetic α) {k : Kernel} {ops : Plan.Operands α} (hops : k.Loaded ops)
    (hstatement : k.statement.isElementwise = false) (extent : Nat → Nat) (u : Point) {v : Point}
    (hv : k.Within v) : Plan.product A ops (k.offsets extent u v) = some (k.term A ops v) := by
  have hlength : k.statement.inputs.length = 2 := by
    cases hs : k.statement with
    | contraction output lhs rhs => rfl
    | elementwise op output inputs => simp [hs, Statement.isElementwise] at hstatement
  obtain ⟨x, hx⟩ := read_eq_some hv (hops.1 (by omega))
  obtain ⟨y, hy⟩ := read_eq_some hv (hops.2 (by omega))
  simp [term, Plan.product, offsets, hx, hy]

/-- There is an input, and a second one unless the statement copies. -/
theorem Valid.inputs_length {k : Kernel} (h : k.Valid) : 0 < k.statement.inputs.length ∧
    (Plan.Body.ofStatement k.statement ≠ .copy → 1 < k.statement.inputs.length) := by
  have harity := h.arity
  cases hs : k.statement with
  | contraction output lhs rhs => simp [Statement.inputs]
  | elementwise op output inputs =>
    have hlength := harity op output inputs hs
    cases op <;> simp_all [Statement.inputs, ElementwiseOp.arity, Plan.Body.ofStatement]

/-- Every point of the iteration space gives its output element a value. -/
theorem pointStep_eq (A : Arithmetic α) {k : Kernel} (hk : k.Runnable) {ops : Plan.Operands α}
    (hops : k.Loaded ops) (extent : Nat → Nat) (u : Point) {v : Point} (hv : k.Within v) (a : α) :
    Plan.pointStep A (.ofStatement k.statement) ops (k.offsets extent u v) a =
      some (k.pointValue A ops v a) := by
  obtain ⟨hone, htwo⟩ := hk.valid.inputs_length
  obtain ⟨x, hx⟩ := read_eq_some hv (hops.1 hone)
  have hrhs : Plan.Body.ofStatement k.statement ≠ .copy → ∃ y,
      ops.rhs[Shape.position (k.shapeOf (k.input 1)) ((k.input 1).indices.map v)]? = some y :=
    fun hbody => read_eq_some hv (hops.2 (htwo hbody))
  simp only [pointValue, Plan.pointStep, offsets]
  cases hbody : Plan.Body.ofStatement k.statement with
  | copy => simp [hx]
  | _ =>
    obtain ⟨y, hy⟩ := hrhs (by simp [hbody])
    simp [hx, hy]

theorem ofStatement_eq_mulAcc {s : Statement} :
    Plan.Body.ofStatement s = .mulAcc ↔ s.isElementwise = false := by
  cases s with
  | contraction output lhs rhs => simp [Plan.Body.ofStatement, Statement.isElementwise]
  | elementwise op output inputs =>
    cases op <;> simp [Plan.Body.ofStatement, Statement.isElementwise]

/-- A lowered loop leaves the output in place when its iterator does not index it. -/
theorem lowered_output_eq_zero {k : Kernel} {extent : Nat → Nat}
    (hpos : ∀ i ∈ k.statement.output.indices, 0 < extent i) {l : Loop} (hl : 0 < l.stride) :
    (k.lowered extent l).deltas.output = 0 ↔ l.iterator ∉ k.statement.output.indices := by
  constructor
  · intro hzero hmem
    exact Nat.ne_of_gt (Shape.stepSize_pos hpos hl hmem) hzero
  · intro hmem
    exact Shape.stepSize_of_notMem hmem _

theorem lanes?_lowered {k : Kernel} {extent : Nat → Nat}
    (hpos : ∀ i ∈ k.statement.output.indices, 0 < extent i) {loops : List Loop}
    (hloops : ∀ l ∈ loops, 0 < l.stride) :
    Plan.lanes? (.ofStatement k.statement) (loops.map (k.lowered extent)) =
      (k.laneLoop? loops).map fun lane => (k.lowered extent lane.1, lane.2) := by
  unfold Plan.lanes? laneLoop?
  rw [List.getLast?_map]
  cases hlast : loops.getLast? with
  | none => rfl
  | some l =>
    have hl : 0 < l.stride := hloops l (List.mem_of_getLast? hlast)
    simp only [Option.map_some, Option.bind_some, ofStatement_eq_mulAcc,
      lowered_output_eq_zero hpos hl]
    change l.vectorWidth.bind _ = _
    cases l.vectorWidth with
    | none => rfl
    | some width =>
      simp only [Option.bind_some]
      split <;> rfl

theorem walked_lowered {k : Kernel} {extent : Nat → Nat}
    (hpos : ∀ i ∈ k.statement.output.indices, 0 < extent i) {loops : List Loop}
    (hloops : ∀ l ∈ loops, 0 < l.stride) :
    Plan.walked (.ofStatement k.statement) (loops.map (k.lowered extent)) =
      (k.walked loops).map (k.lowered extent) := by
  rw [Plan.walked, walked, lanes?_lowered hpos hloops, Option.isSome_map]
  split
  · rw [List.map_dropLast]
  · rfl

namespace Runnable

/-- Neither the position of a point in a tensor nor the way along one of its axes is longer than the
tensor, so together they are a word. -/
theorem reach_lt {k : Kernel} (h : k.Runnable) {a : Access}
    (hsize : Shape.size (k.shapeOf a) < 2 ^ 63) {l : Loop} (hl : l ∈ k.nest.loops) {v : Point}
    (hv : k.Within v) : Shape.position (k.shapeOf a) (a.indices.map v) +
      l.extent * Shape.stepSize (k.shapeOf a) a.indices l < Word.count := by
  have hposition : Shape.position (k.shapeOf a) (a.indices.map v) < Shape.size (k.shapeOf a) :=
    Shape.position_lt (Shape.forall₂_map fun i _ => hv i)
  have hway : l.extent * Shape.stepSize (k.shapeOf a) a.indices l ≤ Shape.size (k.shapeOf a) :=
    Shape.mul_stepSize_le (fun i _ => h.valid.extentOf_pos i)
      (Nat.mul_comm _ _ ▸ (h.level_bounds hl).2.2)
  unfold Word.count
  omega

/-- Behind the last iteration of a loop the offsets are words, also in a layout with shorter
axes. -/
theorem inRange {k : Kernel} (h : k.Runnable) {extent : Nat → Nat}
    (hle : ∀ i ∈ k.statement.output.indices, extent i ≤ k.extentOf i) {l : Loop}
    (hl : l ∈ k.nest.loops) {u v : Point} (hu : k.Within u) (hv : k.Within v) :
    ((k.offsets extent u v).ahead l.extent (k.lowered extent l).deltas).InRange := by
  refine ⟨?_, h.reach_lt (h.input_size_lt 0) hl hv, h.reach_lt (h.input_size_lt 1) hl hv⟩
  refine Nat.lt_of_le_of_lt ?_ (h.reach_lt h.output_size_lt hl hu)
  exact Nat.add_le_add (Shape.position_map_le hle u)
    (Nat.mul_le_mul_left _ (Shape.stepSize_map_le hle l))

/-- A walk over points of the iteration space keeps its offsets in the range of words. -/
theorem fits {k : Kernel} (h : k.Runnable) {extent : Nat → Nat}
    (hle : ∀ i ∈ k.statement.output.indices, extent i ≤ k.extentOf i) {loops : List Loop}
    (hloops : ∀ l ∈ loops, l ∈ k.nest.loops) {i x : Nat} {v : Point}
    (hwithin : ∀ u ∈ visits loops v, k.Within (u.move i x)) :
    Plan.Fits (loops.map (k.lowered extent)) (k.offsets extent v (v.move i x)) := by
  induction loops generalizing v with
  | nil => trivial
  | cons l rest ih =>
    -- a point that is still to be visited bounds the one where the loop starts
    obtain ⟨u, hu⟩ := List.exists_mem_of_ne_nil _
      (visits_ne_nil (fun a ha => (h.level_bounds (hloops a ha)).2.1) v)
    have hstart : k.Within (v.move i x) := fun j =>
      (move_le_move (le_of_mem_visits hu) i x j).trans_lt (hwithin u hu j)
    have hself : k.Within v := fun j => (le_move v i x j).trans_lt (hstart j)
    refine ⟨h.inRange hle (hloops l (List.mem_cons_self ..)) hself hstart, fun n hn => ?_⟩
    rw [← h.offsets_move, move_comm v i]
    refine ih (fun a ha => hloops a (List.mem_cons_of_mem l ha)) fun u hu => hwithin u ?_
    exact List.mem_flatMap.mpr ⟨n, List.mem_range.mpr hn, hu⟩

end Runnable

/-- What the plan does at a walked point is the step of the kernel there. -/
theorem stepOf_eq (A : Arithmetic α) {k : Kernel} (hk : k.Runnable) {ops : Plan.Operands α}
    (hops : k.Loaded ops) {extent : Nat → Nat}
    (hpos : ∀ i ∈ k.statement.output.indices, 0 < extent i) {loops : List Loop}
    (hloops : ∀ l ∈ loops, 0 < l.stride)
    (hrows : ∀ l ∈ loops.getLast?, Plan.LanesFit l.extent l.vectorWidth)
    (u : Point) {v : Point} (hpoint : k.laneLoop? loops = none → k.Within v)
    (hlane : ∀ l width, k.laneLoop? loops = some (l, width) →
      ((k.offsets extent u v).ahead l.extent (k.lowered extent l).deltas).InRange ∧
        ∀ n < l.extent, k.Within (v.move l.iterator (n * l.stride))) (a : α) :
    Plan.stepOf A (.ofStatement k.statement) ops (loops.map (k.lowered extent))
      (k.offsets extent u v) a = some (k.step A ops (k.laneLoop? loops) v a) := by
  rw [Plan.stepOf, lanes?_lowered hpos hloops]
  cases hlanes : k.laneLoop? loops with
  | none => exact pointStep_eq A hk hops extent u (hpoint hlanes) a
  | some lane =>
    obtain ⟨l, width⟩ := lane
    obtain ⟨hsplit, hwidth, hstatement, -⟩ := laneLoop?_eq_some hlanes
    have hlast : l ∈ loops.getLast? := by rw [hsplit]; simp
    obtain ⟨hrange, hwithin⟩ := hlane l width hlanes
    refine Plan.laneStep_eq (hrows l hlast width hwidth).2.2 hrange (fun n hn => ?_) a
    rw [← hk.offsets_move]
    exact product_eq A hops hstatement extent _ (hwithin n hn)

/-- A walk from where the output is at its start and the inputs are at another point revises the
output once for every walked point. -/
theorem walk_eq_revisions (A : Arithmetic α) {k : Kernel} (hk : k.Runnable)
    {ops : Plan.Operands α} {extent : Nat → Nat}
    (hpos : ∀ i ∈ k.statement.output.indices, 0 < extent i) {loops : List Loop}
    (hloops : ∀ l ∈ loops, 0 < l.stride)
    (hrows : ∀ l ∈ loops.getLast?, Plan.LanesFit l.extent l.vectorWidth) {i x : Nat}
    (hfits : Plan.Fits (loops.map (k.lowered extent)) (k.offsets extent origin (origin.move i x)))
    (out : Array α) :
    Plan.walk A (.ofStatement k.statement) ops (loops.map (k.lowered extent))
      (k.offsets extent origin (origin.move i x)) out =
      ((visits (k.walked loops) origin).map fun v => k.offsets extent v (v.move i x)).foldlM
        (fun out p => Plan.revise p.output (Plan.stepOf A (.ofStatement k.statement) ops
          (loops.map (k.lowered extent)) p) out) out := by
  have hwhole : ∀ l ∈ (loops.map (k.lowered extent)).getLast?,
      Plan.LanesFit l.extent l.vectorWidth := by
    intro lowered hlowered
    rw [List.getLast?_map] at hlowered
    obtain ⟨l, hl, rfl⟩ := Option.map_eq_some_iff.mp hlowered
    exact hrows l hl
  rw [Plan.walk_eq_foldlM A _ ops hwhole hfits, walked_lowered hpos hloops]
  congr 1
  refine Plan.points_eq_map_visits (k.lowered extent)
    (fun v => k.offsets extent v (v.move i x)) (fun l => rfl) (fun l _ v n => ?_) origin
  rw [move_comm, hk.offsets_move]

/-- Loops that visit every index of a layout of the output. -/
structure Covers (k : Kernel) (extent : Nat → Nat) (loops : List Loop) : Prop where
  subset : ∀ l ∈ loops, l ∈ k.nest.loops
  extents : ∀ i ∈ k.statement.output.indices, extent i ≤ k.extentOf i
  rows : ∀ l ∈ loops.getLast?, Plan.LanesFit l.extent l.vectorWidth
  radix : ∀ i ∈ k.statement.output.indices,
    MixedRadix (loops.filter (·.iterator == i)) (extent i)

/-- Walked loops have the loops of the output: a vectorized reduction is none of them. -/
theorem walked_filter (k : Kernel) (loops : List Loop) {i : Nat}
    (hi : i ∈ k.statement.output.indices) :
    (k.walked loops).filter (·.iterator == i) = loops.filter (·.iterator == i) := by
  cases hlanes : k.laneLoop? loops with
  | none => rw [walked_of_none hlanes]
  | some lane =>
    obtain ⟨hsplit, -, -, hmem⟩ := laneLoop?_eq_some hlanes
    have hne : lane.1.iterator ≠ i := fun heq => hmem (heq ▸ hi)
    conv_rhs => rw [hsplit]
    simp [hne]

namespace Covers

theorem pos {k : Kernel} {extent : Nat → Nat} {loops : List Loop} (h : k.Covers extent loops) :
    ∀ i ∈ k.statement.output.indices, 0 < extent i :=
  fun i hi => (h.radix i hi).pos

theorem strides {k : Kernel} (hk : k.Runnable) {extent : Nat → Nat} {loops : List Loop}
    (h : k.Covers extent loops) : ∀ l ∈ loops, 0 < l.stride :=
  fun l hl => (hk.level_bounds (h.subset l hl)).1

theorem walked_radix {k : Kernel} {extent : Nat → Nat} {loops : List Loop}
    (h : k.Covers extent loops) : ∀ i ∈ k.statement.output.indices,
      MixedRadix ((k.walked loops).filter (·.iterator == i)) (extent i) := by
  intro i hi
  rw [walked_filter k loops hi]
  exact h.radix i hi

/-- Walked points write within the layout. -/
theorem index_lt {k : Kernel} {extent : Nat → Nat} {loops : List Loop} (h : k.Covers extent loops)
    {v : Point} (hv : v ∈ visits (k.walked loops) origin) : List.Forall₂ (· < ·)
      (k.statement.output.indices.map v) (k.statement.output.indices.map extent) := by
  refine Shape.forall₂_map fun i hi => ?_
  simpa [origin] using lt_of_mem_visits (h.walked_radix i hi) hv

/-- The walked points that write an element are those at its index. -/
theorem filter_output {k : Kernel} {extent : Nat → Nat} {loops : List Loop}
    (h : k.Covers extent loops) (i x : Nat) {index : List Nat}
    (hindex : List.Forall₂ (· < ·) index (k.statement.output.indices.map extent)) :
    ((visits (k.walked loops) origin).map fun v => k.offsets extent v (v.move i x)).filter
      (·.output == Shape.position (k.statement.output.indices.map extent) index) =
    ((visits (k.walked loops) origin).filter fun v =>
      k.statement.output.indices.map v == index).map fun v => k.offsets extent v (v.move i x) := by
  rw [List.filter_map]
  congr 1
  apply List.filter_congr
  intro v hv
  rw [Bool.eq_iff_iff, Function.comp_apply, beq_iff_eq, beq_iff_eq]
  exact ⟨Shape.position_injective (h.index_lt hv) hindex, fun heq => by rw [← heq]; rfl⟩

/-- What a plan does at the walked points, its inputs moved to another point. -/
theorem stepOf_walked (A : Arithmetic α) {k : Kernel} (hk : k.Runnable) {ops : Plan.Operands α}
    (hops : k.Loaded ops) {extent : Nat → Nat} {loops : List Loop} (h : k.Covers extent loops)
    {i x : Nat} (hwithin : ∀ v ∈ visits loops origin, k.Within (v.move i x)) {v : Point}
    (hv : v ∈ visits (k.walked loops) origin) (a : α) :
    Plan.stepOf A (.ofStatement k.statement) ops (loops.map (k.lowered extent))
      (k.offsets extent v (v.move i x)) a =
      some (k.step A ops (k.laneLoop? loops) (v.move i x) a) := by
  obtain ⟨hpoint, hlane⟩ := mem_visits_of_walked hv
  refine stepOf_eq A hk hops h.pos (h.strides hk) h.rows v
    (fun hnone => hwithin v (hpoint hnone)) ?_ a
  intro l width hsome
  have hpoints : ∀ n < l.extent, k.Within ((v.move i x).move l.iterator (n * l.stride)) := by
    intro n hn
    rw [move_comm]
    exact hwithin _ (hlane l width hsome n hn)
  have hl : l ∈ k.nest.loops := h.subset l (by rw [(laneLoop?_eq_some hsome).1]; simp)
  have hstart : k.Within (v.move i x) := by
    simpa [move_zero] using hpoints 0 (hk.level_bounds hl).2.1
  exact ⟨hk.inRange h.extents hl (fun j => (le_move v i x j).trans_lt (hstart j)) hstart, hpoints⟩

end Covers

/-- A walk gives every element of its layout the value of its cell. -/
theorem walk_eq (A : Arithmetic α) {k : Kernel} (hk : k.Runnable) {ops : Plan.Operands α}
    (hops : k.Loaded ops) {extent : Nat → Nat} {loops : List Loop} (h : k.Covers extent loops)
    {i x : Nat} (hwithin : ∀ v ∈ visits loops origin, k.Within (v.move i x)) :
    ∃ final, Plan.walk A (.ofStatement k.statement) ops (loops.map (k.lowered extent))
        (k.offsets extent origin (origin.move i x))
        (Array.replicate (Shape.size (k.statement.output.indices.map extent)) A.zero) =
        some final ∧
      final.size = Shape.size (k.statement.output.indices.map extent) ∧
      ∀ index, List.Forall₂ (· < ·) index (k.statement.output.indices.map extent) →
        final[Shape.position (k.statement.output.indices.map extent) index]? =
          some (k.cell A ops loops
            ((assign k.statement.output.indices index origin).move i x)) := by
  have hin : ∀ p ∈ (visits (k.walked loops) origin).map fun v => k.offsets extent v (v.move i x),
      p.output <
        (Array.replicate (Shape.size (k.statement.output.indices.map extent)) A.zero).size := by
    intro p hp
    obtain ⟨v, hv, rfl⟩ := List.mem_map.mp hp
    rw [Array.size_replicate]
    exact Shape.position_lt (h.index_lt hv)
  have htotal : ∀ p ∈ (visits (k.walked loops) origin).map fun v => k.offsets extent v (v.move i x),
      ∀ a, ∃ b, Plan.stepOf A (.ofStatement k.statement) ops (loops.map (k.lowered extent)) p a =
        some b := by
    intro p hp a
    obtain ⟨v, hv, rfl⟩ := List.mem_map.mp hp
    exact ⟨_, h.stepOf_walked A hk hops hwithin hv a⟩
  obtain ⟨final, hfold, hsize, hcells⟩ := Plan.foldlM_revise hin htotal
  refine ⟨final, ?_, by simpa using hsize, ?_⟩
  · rw [walk_eq_revisions A hk h.pos (h.strides hk) h.rows (hk.fits h.extents h.subset hwithin)]
    exact hfold
  · intro index hindex
    have hzero : (Array.replicate (Shape.size (k.statement.output.indices.map extent)) A.zero)[
        Shape.position (k.statement.output.indices.map extent) index]? = some A.zero := by
      simp [Shape.position_lt hindex]
    rw [hcells, hzero, Option.bind_some, h.filter_output i x hindex, List.foldlM_map,
      foldlM_eq_foldl fun v hv a =>
        h.stepOf_walked A hk hops hwithin (List.mem_of_mem_filter hv) a,
      filter_visits_index hk.output_nodup hindex h.walked_radix, cell, visits_move, List.foldl_map]
    rfl

end Kernel

end NestTuner
