import Mathlib.Algebra.Order.BigOperators.GroupWithZero.List
import NestTuner.Proofs.Coverage
import NestTuner.Proofs.Meaning

/-!
Addressing. The deltas of a plan are steps between row-major positions, whatever the sizes: a
product that does not fit into a word leaves the kernel without a plan. So the offset that a plan
reaches at a tuple of loop indices is the position of the element that the operand has there, and
the output is met as often as the iterators that are summed away have values.
-/

namespace NestTuner

open Point

namespace Kernel

theorem loops_of_compile {k : Kernel} {p : Plan} (h : Plan.compile k = .ok p) :
    k.Valid ∧ p.loops = k.nest.loops.map (k.lowered k.extentOf) := by
  obtain ⟨hvalid, rfl⟩ := plan_of_compile h
  exact ⟨hvalid, rfl⟩

end Kernel

/-! ### Offsets at a tuple of loop indices -/

namespace Plan

/-- The offset of an operand, the output first. -/
def Offsets.slot (o : Offsets) : Nat → Nat
  | 0 => o.output
  | 1 => o.lhs
  | 2 => o.rhs
  | _ => 0

/-- The offset of an operand at a tuple of loop indices: the sum of `index * delta`. -/
def offsetAt (loops : List Loop) (slot : Nat) (index : List Nat) : Nat :=
  ((loops.zip index).map fun entry => entry.2 * entry.1.deltas.slot slot).sum

end Plan

theorem length_visits (loops : List Loop) (v : Point) :
    (visits loops v).length = (loops.map (·.extent)).prod := by
  induction loops generalizing v with
  | nil => rfl
  | cons l rest ih => simp [visits, ih]

namespace Kernel

/-- There is a slot for every operand. -/
theorem Valid.slot_le {k : Kernel} (h : k.Valid) {slot : Nat} {a : Access}
    (ha : k.statement.accesses[slot]? = some a) : slot ≤ 2 := by
  have hslot := (List.getElem?_eq_some_iff.mp ha).1
  have hinputs := h.length_inputs_le
  rw [Statement.accesses, List.length_cons] at hslot
  omega

/-- A step of a loop moves each operand between row-major positions. -/
theorem Valid.slot_lowered {k : Kernel} (h : k.Valid) {slot : Nat} {a : Access}
    (ha : k.statement.accesses[slot]? = some a) (l : Loop) :
    (k.lowered k.extentOf l).deltas.slot slot = Shape.stepSize (k.shapeOf a) a.indices l := by
  have hslot := h.slot_le ha
  have hinput : ∀ n, slot = n + 1 → k.input n = a := by
    rintro n rfl
    have hinputs : k.statement.inputs[n]? = some a := ha
    simp [input, hinputs]
  obtain rfl | rfl | rfl : slot = 0 ∨ slot = 1 ∨ slot = 2 := by omega
  · obtain rfl : k.statement.output = a := Option.some.inj ha
    rfl
  · rw [← hinput 0 rfl]
    rfl
  · rw [← hinput 1 rfl]
    rfl

/-- The offset of an operand is the row-major position of its element. -/
theorem Valid.offsetAt_eq {k : Kernel} (h : k.Valid) {slot : Nat} {a : Access}
    (ha : k.statement.accesses[slot]? = some a) (loops : List Loop) (index : List Nat) :
    Plan.offsetAt (loops.map (k.lowered k.extentOf)) slot index =
      Shape.position (k.shapeOf a) (a.indices.map (pointAt loops index)) := by
  induction loops generalizing index with
  | nil => exact (Shape.position_origin ..).symm
  | cons l rest ih =>
    cases index with
    | nil => exact (Shape.position_origin ..).symm
    | cons n index =>
      have hnodup := (h.backed a (List.mem_of_getElem? ha)).1
      rw [pointAt_cons, Shape.position_move hnodup, ← ih index, ← h.slot_lowered ha l]
      simp [Plan.offsetAt, Nat.add_comm]

/-- The iterators that are summed away, by their numbers and by their kinds. -/
theorem map_extentOf_reduced (k : Kernel) :
    k.reduced.map k.extentOf = (k.iterators.filter (·.kind == .reduction)).map (·.extent) := by
  have hget : ∀ entry ∈ k.iterators.zipIdx, k.iterators[entry.2]? = some entry.1 :=
    fun entry hentry => List.mk_mem_zipIdx_iff_getElem?.mp hentry
  have hreduced : k.reduced =
      (k.iterators.zipIdx.filter fun entry => entry.1.kind == .reduction).map (·.2) := by
    rw [reduced, List.range_eq_range', ← List.zipIdx_map_snd, List.filter_map]
    congr 1
    refine List.filter_congr fun entry hentry => ?_
    simp [reduces, hget entry hentry]
  have hkinds : k.iterators.filter (·.kind == .reduction) =
      (k.iterators.zipIdx.filter fun entry => entry.1.kind == .reduction).map (·.1) := by
    nth_rewrite 1 [← List.zipIdx_map_fst 0 k.iterators]
    exact List.filter_map
  rw [hreduced, hkinds, List.map_map, List.map_map]
  refine List.map_congr_left fun entry hentry => ?_
  exact extentOf_eq (hget entry (List.mem_of_mem_filter hentry))

section Legal

variable {k : Kernel} (h : k.Valid) (hextents : ∀ i, k.extentOf i < Word.largest)

include h hextents

/-- Within the nest every iterator stays below its extent. -/
theorem Valid.pointAt_lt {index : List Nat}
    (hindex : index ∈ box (k.nest.loops.map (·.extent))) (i : Nat) :
    pointAt k.nest.loops index i < k.extentOf i := by
  have hvisit : pointAt k.nest.loops index ∈ visits k.nest.loops origin := by
    rw [visits_origin]
    exact List.mem_map_of_mem (mem_tuples.mpr hindex)
  simpa [origin] using lt_of_mem_visits (h.legal.mixedRadix hextents i) hvisit

theorem Valid.index_lt (a : Access) {index : List Nat}
    (hindex : index ∈ box (k.nest.loops.map (·.extent))) :
    List.Forall₂ (· < ·) (a.indices.map (pointAt k.nest.loops index)) (k.shapeOf a) :=
  Shape.forall₂_map fun i _ => h.pointAt_lt hextents hindex i

theorem Valid.length_visits_reduced (v : Point) :
    (visits (k.nest.loops.filter fun l => !k.statement.output.indices.contains l.iterator)
      v).length = ((k.iterators.filter (·.kind == .reduction)).map (·.extent)).prod := by
  rw [(h.visits_reduced (h.legal.mixedRadix hextents) v).length_eq, length_visits,
    ← k.map_extentOf_reduced, fullLoops, List.map_map]
  rfl

/-- Every element of the output is met once for each tuple of values of the iterators that are
summed away. -/
theorem Valid.countP_offsetAt {c : Nat} (hc : c < Shape.size (k.shapeOf k.statement.output)) :
    (tuples (k.nest.loops.map (·.extent))).countP
        (fun index => Plan.offsetAt (k.nest.loops.map (k.lowered k.extentOf)) 0 index == c) =
      ((k.iterators.filter (·.kind == .reduction)).map (·.extent)).prod := by
  obtain ⟨target, htarget, rfl⟩ := Shape.exists_index hc
  have hnodup := (h.backed _ List.mem_cons_self).1
  -- an offset says which element is met
  have hsame : ∀ index ∈ tuples (k.nest.loops.map (·.extent)),
      (Plan.offsetAt (k.nest.loops.map (k.lowered k.extentOf)) 0 index ==
        Shape.position (k.shapeOf k.statement.output) target) = true ↔
      (k.statement.output.indices.map (pointAt k.nest.loops index) == target) = true := by
    intro index hindex
    rw [h.offsetAt_eq rfl, beq_iff_eq, beq_iff_eq]
    refine ⟨fun heq => ?_, fun heq => by rw [heq]⟩
    exact Shape.position_injective (h.index_lt hextents _ (mem_tuples.mp hindex)) htarget heq
  rw [List.countP_congr hsame, ← h.length_visits_reduced hextents
    (assign k.statement.output.indices target origin), ← filter_visits_index hnodup htarget
    fun i _ => h.legal.mixedRadix hextents i, visits_origin, ← List.countP_eq_length_filter,
    List.countP_map]
  rfl

end Legal

/-- Whenever a kernel has a plan, the offset of every operand at every tuple of loop indices is the
row-major position, in its tensor, of the element that it has at the values of the iterators. All
elements of the output are met, each once for every tuple of values of the reduction iterators. -/
theorem offsetAt_rowMajor {k : Kernel} {p : Plan}
    (hextents : ∀ it ∈ k.iterators, it.extent < Word.largest) (hplan : Plan.compile k = .ok p) :
    (∀ index ∈ box (k.nest.loops.map (·.extent)), ∀ slot a,
      k.statement.accesses[slot]? = some a → ∃ t, k.tensors[a.tensor]? = some t ∧
        Plan.offsetAt p.loops slot index =
          Shape.position t.shape (a.indices.map (pointAt k.nest.loops index)) ∧
        Plan.offsetAt p.loops slot index < Shape.size t.shape) ∧
    ∀ t, k.tensors[k.statement.output.tensor]? = some t → ∀ c < Shape.size t.shape,
      (∃ index ∈ box (k.nest.loops.map (·.extent)), Plan.offsetAt p.loops 0 index = c) ∧
      (tuples (k.nest.loops.map (·.extent))).countP
          (fun index => Plan.offsetAt p.loops 0 index == c) =
        ((k.iterators.filter (·.kind == .reduction)).map (·.extent)).prod := by
  obtain ⟨hvalid, hloops⟩ := loops_of_compile hplan
  have hfits := extentOf_lt_of_forall hextents (by decide)
  rw [hloops]
  constructor
  · intro index hindex slot a ha
    obtain ⟨-, -, t, ht, hshape⟩ := hvalid.backed a (List.mem_of_getElem? ha)
    refine ⟨t, ht, ?_⟩
    rw [hvalid.offsetAt_eq ha, hshape]
    exact ⟨rfl, Shape.position_lt (hvalid.index_lt hfits a hindex)⟩
  · intro t ht c hc
    obtain ⟨-, -, t', ht', hshape⟩ := hvalid.backed _ List.mem_cons_self
    obtain rfl : t = t' := Option.some.inj (ht.symm.trans ht')
    rw [hshape] at hc
    have hcount := hvalid.countP_offsetAt hfits hc
    refine ⟨?_, hcount⟩
    have hpos : 0 < ((k.iterators.filter (·.kind == .reduction)).map (·.extent)).prod := by
      refine List.prod_pos fun n hn => ?_
      obtain ⟨it, hit, rfl⟩ := List.mem_map.mp hn
      exact hvalid.positive it (List.mem_of_mem_filter hit)
    rw [← hcount, List.countP_pos_iff] at hpos
    obtain ⟨index, hindex, heq⟩ := hpos
    exact ⟨index, mem_tuples.mp hindex, beq_iff_eq.mp heq⟩

/-- A product in tiles, with a parallel and a vector loop. -/
theorem offsetAt_rowMajor_tuned :
    Plan.compile Draft.tuned = .ok Draft.tuned.plan ∧
      Plan.offsetAt Draft.tuned.plan.loops 2 [1, 3, 5, 3, 1] = Shape.position [8, 8] [7, 5] ∧
      ∀ c < 64, (tuples [2, 4, 8, 4, 2]).countP
        (fun index => Plan.offsetAt Draft.tuned.plan.loops 0 index == c) = 8 := by
  have hplan : Plan.compile Draft.tuned = .ok Draft.tuned.plan := by
    cbv
  obtain ⟨hoffsets, hcounts⟩ := offsetAt_rowMajor (by decide) hplan
  refine ⟨hplan, ?_, fun c hc => (hcounts _ rfl c hc).2⟩
  obtain ⟨t, ht, hoffset, -⟩ := hoffsets [1, 3, 5, 3, 1] (by simp [mem_box, Draft.tuned]) 2 _ rfl
  cases ht
  exact hoffset

end Kernel

end NestTuner
