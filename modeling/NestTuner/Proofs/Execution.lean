import Mathlib.Data.List.Permutation
import NestTuner.Proofs.Editing
import NestTuner.Proofs.Slabs

/-!
Executing a validated kernel. It has a plan, its operands are found among inputs that fit it, and
the run stays within its buffers exactly if the output and the list of slabs can be allocated and a
parallel loop reaches the end of its axis. It does unless a parallel loop of a single value ties
with a longer one, which validation lets pass.
-/

namespace NestTuner

namespace Inputs

/-- The same number in every array that a kernel reads. -/
def uniform {α : Type} (k : Kernel) (a : α) : Inputs α where
  seed := 0
  tensors := k.tensors.mapIdx fun i t =>
    if i = k.statement.output.tensor then none else some (Grid.fill t.shape a)

theorem uniform_fits {α : Type} (k : Kernel) (a : α) : (uniform k a).fits k = true := by
  simp only [fits, uniform, List.length_mapIdx, beq_self_eq_true, Bool.true_and, List.all_eq_true]
  rintro ⟨t, i⟩ hmem
  have ht := List.mk_mem_zipIdx_iff_getElem?.mp hmem
  by_cases hi : i = k.statement.output.tensor
  · simp [hi]
  · simp [tensor, ht, hi, Grid.fill]

end Inputs

namespace Kernel

open Point

variable {α : Type}

/-- The array behind an input. -/
def operand (k : Kernel) (inputs : Inputs α) (slot : Nat) : Array α :=
  match k.statement.inputs[slot]? with
  | some a => ((inputs.tensor a.tensor).map (·.data)).getD #[]
  | none => #[]

def operands (k : Kernel) (inputs : Inputs α) : Plan.Operands α :=
  ⟨k.operand inputs 0, k.operand inputs 1⟩

namespace Runnable

/-- Inputs that fit hold an array of the right shape for every operand read. -/
theorem tensor_eq_some {k : Kernel} (h : k.Runnable) {inputs : Inputs α}
    (hfits : inputs.fits k = true) {a : Access} (ha : a ∈ k.statement.inputs) :
    ∃ grid, inputs.tensor a.tensor = some grid ∧ grid.shape = k.shapeOf a := by
  obtain ⟨-, -, t, ht, hshape⟩ := h.valid.backed a (List.mem_cons_of_mem _ ha)
  have hne := h.valid.unaliased a ha
  simp only [Inputs.fits, Bool.and_eq_true, List.all_eq_true] at hfits
  have hentry := hfits.2 (t, a.tensor) (List.mk_mem_zipIdx_iff_getElem?.mpr ht)
  simp only [Bool.or_eq_true, beq_iff_eq, hne, false_or] at hentry
  obtain ⟨grid, hgrid, heq⟩ := (Option.any_eq_true _ _).mp hentry
  exact ⟨grid, hgrid, by rw [eq_of_beq heq, hshape, shapeOf]⟩

theorem operand_size {k : Kernel} (h : k.Runnable) {inputs : Inputs α}
    (hfits : inputs.fits k = true) {slot : Nat} (hslot : slot < k.statement.inputs.length) :
    (k.operand inputs slot).size = Shape.size (k.shapeOf (k.input slot)) := by
  have ha := List.getElem?_eq_getElem hslot
  obtain ⟨grid, hgrid, hshape⟩ := h.tensor_eq_some hfits (List.mem_of_getElem? ha)
  simp only [operand, input, ha, hgrid, Option.map_some, Option.getD_some]
  rw [grid.size_data, hshape]

theorem loaded {k : Kernel} (h : k.Runnable) {inputs : Inputs α} (hfits : inputs.fits k = true) :
    k.Loaded (k.operands inputs) :=
  ⟨h.operand_size hfits, h.operand_size hfits⟩

theorem operands_eq {k : Kernel} (h : k.Runnable) {inputs : Inputs α}
    (hfits : inputs.fits k = true) : k.plan.operands inputs = .ok (k.operands inputs) := by
  unfold Plan.operands
  refine bind_eq_ok.mpr ⟨(k.statement.inputs.map (·.tensor)).map fun tensor =>
    ((inputs.tensor tensor).map (·.data)).getD #[], mapM_of_forall fun tensor htensor => ?_, ?_⟩
  · obtain ⟨a, ha, rfl⟩ := List.mem_map.mp htensor
    obtain ⟨grid, hgrid, -⟩ := h.tensor_eq_some hfits ha
    simp [hgrid]
  · simp only [operands, operand]
    cases k.statement.inputs with
    | nil => rfl
    | cons a rest => cases rest <;> rfl

/-- A run that succeeds fills the output with its cells. -/
theorem execute_eq (A : Arithmetic α) {k : Kernel} (h : k.Runnable) {inputs : Inputs α}
    (hfits : inputs.fits k = true) (hwhole : k.Whole)
    (halloc : Grid.allocatable (Shape.size (k.shapeOf k.statement.output)) = true)
    (hlisted : k.SlabsListable) :
    ∃ grid, k.execute A inputs = .ok grid ∧ grid.shape = k.shapeOf k.statement.output ∧
      ∀ index, List.Forall₂ (· < ·) index (k.shapeOf k.statement.output) →
        grid.data[Shape.position (k.shapeOf k.statement.output) index]? =
          some (k.cell A (k.operands inputs) k.nest.loops
            (assign k.statement.output.indices index origin)) := by
  obtain ⟨out, hrun, hsize, hcells⟩ := h.run_eq A (h.loaded hfits) hwhole halloc hlisted
  refine ⟨⟨k.shapeOf k.statement.output, out, hsize⟩, ?_, rfl, hcells⟩
  simp only [execute, h.compile_eq]
  refine bind_eq_ok.mpr ⟨_, h.operands_eq hfits, ?_⟩
  simp [hrun, Grid.ofData?, hsize, pure, Except.pure]

theorem outputTensor_eq {k : Kernel} (h : k.Runnable) :
    ∃ t, k.outputTensor = .ok t ∧ t.shape = k.shapeOf k.statement.output := by
  obtain ⟨-, -, t, ht, hshape⟩ := h.valid.backed k.statement.output (List.mem_cons_self ..)
  exact ⟨t, Checked.get_eq_ok.mpr ht, hshape⟩

/-- An output or a list of slabs that cannot be allocated, and a parallel loop that leaves its slab,
stop the run. -/
theorem execute_eq_error (A : Arithmetic α) {k : Kernel} (h : k.Runnable) {inputs : Inputs α}
    (hfits : inputs.fits k = true)
    (hnot : ¬(Grid.allocatable (Shape.size (k.shapeOf k.statement.output)) = true ∧
      k.SlabsListable ∧ k.Whole)) : k.execute A inputs = .error (.trapped k.name) := by
  simp only [execute, h.compile_eq, Plan.runOn, h.operands_eq hfits, bind, Except.bind,
    h.run_eq_none A _ hnot]
  rfl

end Runnable

/-- No parallel loop of a single value ties in stride with a longer loop of its iterator. -/
def ParallelUntied (k : Kernel) : Prop :=
  ∀ l ∈ k.nest.loops, l.parallel = true → l.extent = 1 →
    ∀ a ∈ k.nest.loopsFor l.iterator, a.stride = l.stride → a.extent = 1

instance (k : Kernel) : Decidable k.ParallelUntied :=
  inferInstanceAs (Decidable (∀ l ∈ k.nest.loops, _ → _ → ∀ a ∈ k.nest.loopsFor l.iterator, _ → _))

/-- A parallel loop that is outermost for its iterator reaches the end of its axis, but for ties. -/
theorem ParallelPlaced.whole {k : Kernel} (h : k.ParallelPlaced)
    (hradix : ∀ i, MixedRadix (k.nest.loopsFor i) (k.extentOf i)) (huntied : k.ParallelUntied) :
    k.Whole := by
  intro l hl hparallel
  obtain ⟨inner, hloops⟩ := h.eq_cons hl hparallel
  have hfor : k.nest.loopsFor l.iterator = l :: inner.filter (·.iterator == l.iterator) := by
    simp [Nest.loopsFor, hloops]
  have hcovered := hradix l.iterator
  have hties := huntied l hl hparallel
  rw [hfor] at hcovered hties
  refine hcovered.covers_of_largest (fun a ha => ?_) fun hone a ha =>
    hties hone a (List.mem_cons_of_mem l ha)
  simp only [List.mem_filter, beq_iff_eq] at ha
  exact h.outermost hl hparallel (by simp [hloops, ha.1]) ha.2

/-- A loop beside one that reaches the end of the axis in a single step has a single value too. -/
theorem Runnable.whole_iff {k : Kernel} (h : k.Runnable) : k.Whole ↔ k.ParallelUntied := by
  refine ⟨fun hwhole l hl hparallel hone a ha hstride => ?_,
    h.valid.legal.parallelPlaced.whole h.radix⟩
  obtain ⟨ha, hit⟩ : a ∈ k.nest.loops ∧ a.iterator = l.iterator := by
    simpa [Nest.loopsFor] using ha
  obtain ⟨hpos, hextent, hle⟩ := h.level_bounds ha
  have hend := hwhole l hl hparallel
  rw [hone, Nat.mul_one] at hend
  rw [hit, ← hend, ← hstride] at hle
  have hone' : a.extent ≤ 1 := Nat.le_of_mul_le_mul_left (by rwa [Nat.mul_one]) hpos
  omega

theorem Scheduled.whole {k : Kernel} (h : k.Scheduled) : k.Whole := by
  refine h.parallelPlaced.whole h.radix fun l hl hparallel hone a ha hstride => ?_
  obtain ⟨inner, hloops⟩ := h.parallelPlaced.eq_cons hl hparallel
  have hcut : k.nest.loops = [] ++ l :: inner := hloops
  simp only [Nest.loopsFor, hloops, List.mem_filter, List.mem_cons, beq_iff_eq] at ha
  obtain ⟨rfl | hinner, hit⟩ := ha
  · exact hone
  · exact absurd hstride (h.stride_ne hcut (by simp [hinner]) hit)

/-- A validated kernel has a plan. Its run returns an array of the shape of the output if the output
and the list of slabs can be allocated and no parallel loop of a single value ties with a longer
one, and in no other case: then it is reported. -/
theorem execute_validated (A : Arithmetic α) {k : Kernel} (hvalid : k.validate = .ok ())
    (hsingle : ∀ t ∈ k.tensors, t.element = .f32)
    (hcounts : ∀ t ∈ k.tensors, Shape.size t.shape < 2 ^ 63) {inputs : Inputs α}
    (hfits : inputs.fits k = true) :
    ∃ p, Plan.compile k = .ok p ∧
      (Grid.allocatable (Shape.size p.outputShape) = true ∧ k.SlabsListable ∧ k.ParallelUntied →
        ∃ grid, k.execute A inputs = .ok grid ∧ grid.shape = p.outputShape) ∧
      (¬(Grid.allocatable (Shape.size p.outputShape) = true ∧ k.SlabsListable ∧
          k.ParallelUntied) → k.execute A inputs = .error (.trapped k.name)) := by
  have hrun : k.Runnable := ⟨hvalid, hsingle, hcounts⟩
  refine ⟨k.plan, hrun.compile_eq, ?_, ?_⟩
  · rintro ⟨halloc, hlisted, huntied⟩
    obtain ⟨grid, hgrid, hshape, -⟩ :=
      hrun.execute_eq A hfits (hrun.whole_iff.mpr huntied) halloc hlisted
    exact ⟨grid, hgrid, hshape⟩
  · intro hnot
    refine hrun.execute_eq_error A hfits ?_
    rwa [hrun.whole_iff]

/-- The loop inside a tied parallel loop leaves its slab, which has a single element. -/
theorem execute_tied_trapped : tied.validate = .ok () ∧
    (∀ t ∈ tied.tensors, t.element = .f32 ∧ Shape.size t.shape < 2 ^ 63) ∧
      Grid.allocatable (Shape.size (tied.shapeOf tied.statement.output)) = true ∧
        tied.SlabsListable ∧ (Inputs.uniform tied (1 : Float32)).fits tied = true ∧
          (∃ p, Plan.compile tied = .ok p) ∧
            tied.execute .single (.uniform tied 1) = .error (.trapped "copy") := by
  have hvalid : tied.validate = .ok () := by cbv
  have hrun : tied.Runnable := ⟨hvalid, by decide, by decide⟩
  have hfits := Inputs.uniform_fits tied (1 : Float32)
  have hties : ¬tied.ParallelUntied := by decide
  refine ⟨hvalid, by decide, by decide, by decide, hfits, ⟨_, hrun.compile_eq⟩, ?_⟩
  exact hrun.execute_eq_error .single hfits fun hall => hties (hrun.whole_iff.mp hall.2.2)

end Kernel

namespace Draft

/-- A built kernel can be run with every schedule. -/
theorem runnable_of_scheduled {d : Draft} {k : Kernel} (hbuild : d.build = .ok k)
    (hsingle : ∀ t ∈ k.tensors, t.element = .f32)
    (hcounts : ∀ t ∈ k.tensors, Shape.size t.shape < 2 ^ 63) {nest : Nest}
    (h : ({ k with nest := nest } : Kernel).Scheduled) :
    ({ k with nest := nest } : Kernel).Runnable := by
  obtain ⟨hsurface, -⟩ := checkSurface_of_build hbuild
  have hextents : ∀ i, k.extentOf i < Word.count := by
    intro i
    refine Kernel.lt_count ?_
    rcases Kernel.extent_le_size hsurface i with hone | ⟨t, ht, hle⟩
    · omega
    · exact Nat.lt_of_le_of_lt hle (hcounts t ht)
  exact ⟨Kernel.validate_of_legal hsurface (h.legal hextents), hsingle, hcounts⟩

theorem tuned_runnable : tuned.Runnable := by
  obtain ⟨hscheduled, -⟩ := (scheduled_of_build square_build).replayFrom tuned_replay
  exact runnable_of_scheduled square_build (by decide) (by decide) hscheduled

theorem execute_validated_tuned : ∃ grid,
    tuned.execute .single (.uniform tuned 1) = .ok grid ∧ grid.shape = [8, 8] := by
  have hrun := tuned_runnable
  obtain ⟨p, hp, hok, -⟩ := Kernel.execute_validated .single hrun.validated hrun.single hrun.counts
    (Inputs.uniform_fits tuned 1)
  obtain rfl : tuned.plan = p := Except.ok.inj (hrun.compile_eq.symm.trans hp)
  exact hok ⟨by decide, by decide, by decide⟩

/-! ### Kernels that are too large to run -/

/-- `B[i, j] = A[i]`, along an axis so long that no buffer holds the output. -/
def spread : Draft :=
  ⟨"spread", none, [("i", 1), ("j", 2 ^ 62)], [⟨"A", [1], .f32⟩, ⟨"B", [1, 2 ^ 62], .f32⟩],
    some (.elementwise .copy ⟨"B", ["i", "j"]⟩ [⟨"A", ["i"]⟩])⟩

def spreadKernel : Kernel :=
  ⟨"spread", none, [⟨"A", [1], .f32⟩, ⟨"B", [1, 2 ^ 62], .f32⟩],
    [⟨"i", 1, .parallel⟩, ⟨"j", 2 ^ 62, .parallel⟩],
    .elementwise .copy ⟨1, [0, 1]⟩ [⟨0, [0]⟩],
    ⟨[Loop.full 0 1, Loop.full 1 (2 ^ 62)]⟩⟩

theorem spread_build : spread.build = .ok spreadKernel := rfl

theorem spread_scheduled : spreadKernel.Scheduled :=
  scheduled_of_build spread_build

/-- No schedule of it can be run. -/
theorem execute_spread {α : Type} (A : Arithmetic α) {nest : Nest}
    (h : ({ spreadKernel with nest := nest } : Kernel).Scheduled) {inputs : Inputs α}
    (hfits : inputs.fits spreadKernel = true) :
    ({ spreadKernel with nest := nest } : Kernel).execute A inputs =
      .error (.trapped "spread") := by
  have hrun := runnable_of_scheduled spread_build (by decide) (by decide) h
  have hbytes : Grid.allocatable (Shape.size (spreadKernel.shapeOf
      spreadKernel.statement.output)) = false := by decide
  refine hrun.execute_eq_error A hfits fun hall => ?_
  exact Bool.noConfusion (hbytes.symm.trans hall.1)

/-- `B[i] = A[]`, with room for the output but not for a list of its elements as slabs. -/
def broadcast : Draft :=
  ⟨"broadcast", none, [("i", 2 ^ 60)], [⟨"A", [], .f32⟩, ⟨"B", [2 ^ 60], .f32⟩],
    some (.elementwise .copy ⟨"B", ["i"]⟩ [⟨"A", []⟩])⟩

def broadcastKernel : Kernel :=
  ⟨"broadcast", none, [⟨"A", [], .f32⟩, ⟨"B", [2 ^ 60], .f32⟩], [⟨"i", 2 ^ 60, .parallel⟩],
    .elementwise .copy ⟨1, [0]⟩ [⟨0, []⟩], ⟨[Loop.full 0 (2 ^ 60)]⟩⟩

/-- Its loop made parallel. -/
def broadcastSlabs : Kernel :=
  { broadcastKernel with nest := ⟨[⟨0, 2 ^ 60, 1, true, none⟩]⟩ }

theorem broadcast_build : broadcast.build = .ok broadcastKernel := rfl

theorem broadcast_apply : broadcastKernel.apply (.parallelize 0) = .ok broadcastSlabs := rfl

theorem execute_broadcastSlabs {α : Type} (A : Arithmetic α) {inputs : Inputs α}
    (hfits : inputs.fits broadcastKernel = true) :
    Grid.allocatable (Shape.size (broadcastKernel.shapeOf broadcastKernel.statement.output)) =
        true ∧
      broadcastSlabs.execute A inputs = .error (.trapped "broadcast") := by
  have hscheduled := ((scheduled_of_build broadcast_build).apply broadcast_apply).1
  have hrun := runnable_of_scheduled broadcast_build (by decide) (by decide) hscheduled
  have hlong : ¬broadcastSlabs.SlabsListable := by decide
  exact ⟨by decide, hrun.execute_eq_error A hfits fun hall => hlong hall.2.1⟩

end Draft

end NestTuner
