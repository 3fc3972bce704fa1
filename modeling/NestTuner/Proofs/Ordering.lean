import NestTuner.Proofs.Execution

/-!
Edits that keep the order of every sum. Tiling, parallel slabs, an interchange that does not move
the reduction loops past each other, and lanes along an axis of the output leave each output element
the same sequence of steps. So the result is the same array, whatever addition and multiplication
are: no law of arithmetic is used.
-/

namespace NestTuner

open Point

/-- An interchange under which some loops keep their order keeps the list of these loops. -/
theorem Nest.filter_permuted {loops : List Loop} {permutation : List Nat} {keep : Loop → Bool}
    (hperm : permutation.Perm (List.range loops.length))
    (hsorted : (permutation.filter fun p => loops[p]?.any keep).Pairwise (· < ·)) :
    (permutation.filterMap (loops[·]?)).filter keep = loops.filter keep := by
  have hpositions : ∀ positions : List Nat, (positions.filterMap (loops[·]?)).filter keep =
      (positions.filter fun p => loops[p]?.any keep).filterMap (loops[·]?) := by
    intro positions
    rw [List.filter_filterMap, List.filterMap_filter]
    congr 1
    funext p
    cases loops[p]? <;> simp [Option.filter]
  have hsame : (permutation.filter fun p => loops[p]?.any keep) =
      (List.range loops.length).filter fun p => loops[p]?.any keep :=
    (hperm.filter _).eq_of_pairwise' hsorted (List.pairwise_lt_range.filter _)
  rw [hpositions, hsame, ← hpositions, filterMap_range]

/-- An array is determined by its shape and its elements. -/
theorem Grid.eq_of_position {α : Type} {grid grid' : Grid α} {shape : List Nat}
    (hshape : grid.shape = shape) (hshape' : grid'.shape = shape)
    (h : ∀ index, List.Forall₂ (· < ·) index shape →
      grid.data[Shape.position shape index]? = grid'.data[Shape.position shape index]?) :
    grid = grid' := by
  have hdata : grid.data = grid'.data := by
    refine Array.ext (by rw [grid.size_data, grid'.size_data, hshape, hshape']) fun c hc hc' => ?_
    obtain ⟨index, hindex, rfl⟩ := Shape.exists_index (hshape ▸ grid.size_data ▸ hc)
    have heq := h index hindex
    rwa [Array.getElem?_eq_getElem hc, Array.getElem?_eq_getElem hc', Option.some_inj] at heq
  cases grid
  cases grid'
  simp_all

namespace Kernel

variable {α : Type}

/-- The edits that leave every output element its sequence of steps: tiles, a parallel mark, an
interchange that keeps the reduction loops in their order, lanes along an axis of the output. -/
def KeepsOrder (k : Kernel) : Edit → Prop
  | .tile .. => True
  | .interchange permutation =>
    (permutation.filter fun p =>
      k.nest.loops[p]?.any fun l => k.reduces l.iterator).Pairwise (· < ·)
  | .parallelize .. => True
  | .vectorize .. => ∀ l ∈ k.nest.innermost?, l.iterator ∈ k.statement.output.indices

/-- A vectorized loop stays innermost when the loops around it move. -/
theorem laneLoop?_permuted {k : Kernel} (hplaced : k.VectorPlaced) {permutation : List Nat}
    (hperm : permutation.Perm (List.range k.nest.loops.length))
    (hvector : ∀ p, k.nest.vectorLoop? = some p → permutation[p]? = some p) :
    k.laneLoop? (permutation.filterMap (k.nest.loops[·]?)) = k.laneLoop? k.nest.loops := by
  have hloops := Nest.permuted_perm hperm
  cases hmark : k.nest.vectorLoop? with
  | none =>
    have hnone := Nest.vectorLoop?_eq_none.mp (by rw [hmark]; rfl)
    have hlane : ∀ loops, loops.Perm k.nest.loops → k.laneLoop? loops = none := by
      intro loops hsame
      cases hlast : loops.getLast? with
      | none => simp [laneLoop?, hlast]
      | some l =>
        have hl : l ∈ k.nest.loops := hsame.mem_iff.mp (List.mem_of_getLast? hlast)
        simp [laneLoop?, hlast, hnone l hl]
    rw [hlane _ hloops, hlane _ (List.Perm.refl _)]
  | some p =>
    obtain ⟨hp, hmarked, -⟩ := List.findIdx?_eq_some_iff_getElem.mp hmark
    obtain ⟨width, hwidth⟩ := Option.isSome_iff_exists.mp hmarked
    obtain ⟨hdepth, -⟩ := vectorPlaced_iff.mp hplaced p _ width (List.getElem?_eq_getElem hp) hwidth
    have hlast : (permutation.filterMap (k.nest.loops[·]?)).getLast? = k.nest.loops.getLast? := by
      have hend : k.nest.loops.length - 1 = p := by
        rw [Nest.depth] at hdepth
        omega
      rw [List.getLast?_eq_getElem?, List.getLast?_eq_getElem?, hloops.length_eq, hend,
        Nest.permuted_getElem? fun q hq => List.mem_range.mp (hperm.mem_iff.mp hq), hvector p hmark,
        Option.bind_some]
    simp only [laneLoop?, hlast]

/-- A loop along an axis of the output, with or without marks, does not matter to the cells. -/
theorem cell_of_mem_output (A : Arithmetic α) {k : Kernel} (ops : Plan.Operands α) {l m : Loop}
    (hl : l.iterator ∈ k.statement.output.indices) (hm : m.iterator = l.iterator)
    (before after : List Loop) :
    k.cell A ops (before ++ m :: after) = k.cell A ops (before ++ l :: after) := by
  have hlane : ∀ n : Loop, n.iterator = l.iterator → k.laneLoop? (before ++ [n]) = none := by
    intro n hn
    simp [laneLoop?, hn, hl]
  have hcell := cell_append_congr A ops (hlane m hm) (hlane l rfl) (by simp [hm, hl]) after
  simpa using hcell

/-- A loop over tiles and a loop inside each take the place of a loop. -/
theorem cell_tile (A : Arithmetic α) {k : Kernel} (ops : Plan.Operands α) {l outer point : Loop}
    (houter : outer.iterator = l.iterator) (hpoint : point.iterator = l.iterator)
    (hstride : point.stride = l.stride) (htile : outer.stride = l.stride * point.extent)
    (hextent : outer.extent * point.extent = l.extent) (hl : l.vectorWidth = none)
    (hwidth : point.vectorWidth = none) (before after : List Loop) :
    k.cell A ops (before ++ [outer, point] ++ after) = k.cell A ops (before ++ l :: after) := by
  have hnew : k.laneLoop? (before ++ [outer, point]) = none := by simp [laneLoop?, hwidth]
  have hold : k.laneLoop? (before ++ [l]) = none := by simp [laneLoop?, hl]
  rw [List.append_cons before l]
  refine cell_append_congr A ops hnew hold (fun v => ?_) after
  by_cases hmem : l.iterator ∈ k.statement.output.indices
  · simp [houter, hpoint, hmem]
  · have hvisits := visits_splice (visits_tiled houter hpoint hstride htile hextent)
      (before.filter fun l => !k.statement.output.indices.contains l.iterator) [] v
    simpa [houter, hpoint, hmem] using hvisits

theorem cell_interchange (A : Arithmetic α) {k : Kernel} (ops : Plan.Operands α) (hvalid : k.Valid)
    {permutation : List Nat} (hperm : permutation.Perm (List.range k.nest.loops.length))
    (hvector : ∀ p, k.nest.vectorLoop? = some p → permutation[p]? = some p)
    (hkeeps : k.KeepsOrder (.interchange permutation)) :
    k.cell A ops (permutation.filterMap (k.nest.loops[·]?)) = k.cell A ops k.nest.loops := by
  have hlane := laneLoop?_permuted hvalid.legal.vectorPlaced hperm hvector
  have hreduces : ∀ loops : List Loop, loops.Perm k.nest.loops →
      loops.filter (fun l => k.reduces l.iterator) =
        loops.filter fun l => !k.statement.output.indices.contains l.iterator := by
    intro loops hsame
    refine List.filter_congr fun l hl => hvalid.reduces_eq ?_
    exact hvalid.legal.bound l (hsame.mem_iff.mp hl)
  have hfilter := Nest.filter_permuted hperm hkeeps
  rw [hreduces _ (Nest.permuted_perm hperm), hreduces _ (List.Perm.refl _), filter_eq_reductions,
    filter_eq_reductions, hlane] at hfilter
  funext v
  rw [cell, cell, hlane, List.append_cancel_right hfilter]

/-- An accepted edit that keeps the order of the sums keeps the cells. -/
theorem cell_accepts (A : Arithmetic α) {k : Kernel} (ops : Plan.Operands α) (hvalid : k.Valid)
    {e : Edit} {loops : List Loop} (haccepts : k.Accepts e loops) (hkeeps : k.KeepsOrder e) :
    k.cell A ops loops = k.cell A ops k.nest.loops := by
  cases haccepts with
  | tile hloops hparallel hvector htwo hlt hdvd hfits =>
    rw [hloops]
    refine cell_tile A ops ?_ ?_ ?_ ?_ ?_ hvector ?_ _ _
    case refine_5 => exact Nat.div_mul_cancel hdvd
    case refine_6 => exact hvector
    all_goals rfl
  | interchange hperm hchanged hparallel hvector =>
    exact cell_interchange A ops hvalid hperm hvector hkeeps
  | parallelize hloops hfirst hvector hit hkind houter =>
    rw [hloops]
    refine cell_of_mem_output A ops ?_ ?_ [] _
    · exact (hvalid.mem_output_iff hit).mpr hkind
    · rfl
  | vectorize hloops hfirst hparallel hpoint hwidth htwo hle hdvd =>
    have hmem := hkeeps _ (by rw [Nest.innermost?, hloops]; exact List.getLast?_concat)
    rw [hloops]
    refine cell_of_mem_output A ops hmem ?_ _ []
    rfl

/-- No edit takes a parallel mark away, and only one sets it, where there was none. -/
theorem Accepts.slabsListable {k : Kernel} {e : Edit} {loops : List Loop}
    (haccepts : k.Accepts e loops)
    (h : ({ k with nest := ⟨loops⟩ } : Kernel).SlabsListable) : k.SlabsListable := by
  intro l hl hparallel
  cases haccepts with
  | tile hloops hunmarked =>
    rw [hloops, List.mem_append, List.mem_cons] at hl
    refine h l ?_ hparallel
    rcases hl with hl | rfl | hl
    · simp [hl]
    · simp [hunmarked] at hparallel
    · simp [hl]
  | interchange hperm =>
    exact h l ((Nest.permuted_perm hperm).mem_iff.mpr hl) hparallel
  | parallelize hloops hfirst =>
    rw [hfirst l hl] at hparallel
    cases hparallel
  | vectorize hloops hfirst hunmarked =>
    rw [hloops, List.mem_append, List.mem_singleton] at hl
    refine h l ?_ hparallel
    rcases hl with hl | rfl
    · simp [hl]
    · simp [hunmarked] at hparallel

/-- Two schedules of a kernel with the same cells run alike. -/
theorem Runnable.execute_congr (A : Arithmetic α) {k : Kernel} {nest : Nest} (h : k.Runnable)
    (h' : ({ k with nest := nest } : Kernel).Runnable) (hwhole : k.Whole)
    (hwhole' : ({ k with nest := nest } : Kernel).Whole) (hlisted : k.SlabsListable)
    (hlisted' : ({ k with nest := nest } : Kernel).SlabsListable) {inputs : Inputs α}
    (hfits : inputs.fits k = true)
    (hcells : k.cell A (k.operands inputs) nest.loops =
      k.cell A (k.operands inputs) k.nest.loops) :
    ({ k with nest := nest } : Kernel).execute A inputs = k.execute A inputs := by
  by_cases halloc : Grid.allocatable (Shape.size (k.shapeOf k.statement.output)) = true
  · obtain ⟨grid, hgrid, hshape, hdata⟩ := h.execute_eq A hfits hwhole halloc hlisted
    obtain ⟨grid', hgrid', hshape', hdata'⟩ := h'.execute_eq A hfits hwhole' halloc hlisted'
    rw [hgrid, hgrid', Grid.eq_of_position hshape' hshape fun index hindex => ?_]
    refine (hdata' index hindex).trans ((congrArg some ?_).trans (hdata index hindex).symm)
    exact congrFun hcells _
  · rw [h.execute_eq_error A hfits fun hboth => halloc hboth.1,
      h'.execute_eq_error A hfits fun hboth => halloc hboth.1]

end Kernel

namespace Draft

/-- An edit that keeps the order of the sums, applied after any history, keeps every result to the
last bit, as long as a list of the slabs of the edited kernel can be allocated. A longer list is
reported. -/
theorem execute_apply_eq {α : Type} (A : Arithmetic α) {d : Draft} {root k k' : Kernel}
    (hbuild : d.build = .ok root) {history : List Edit} (hreplay : root.replay history = .ok k)
    (hsingle : ∀ t ∈ k.tensors, t.element = .f32)
    (hcounts : ∀ t ∈ k.tensors, Shape.size t.shape < 2 ^ 63) {e : Edit}
    (hedit : k.apply e = .ok k') (hkeeps : k.KeepsOrder e) {inputs : Inputs α}
    (hfits : inputs.fits k = true) :
    (k'.SlabsListable → k'.execute A inputs = k.execute A inputs ∧ ∃ t, k.outputTensor = .ok t ∧
      (Grid.allocatable (Shape.size t.shape) = true → ∃ grid, k.execute A inputs = .ok grid)) ∧
    (¬k'.SlabsListable → k'.execute A inputs = .error (.trapped k.name)) := by
  obtain ⟨hscheduled, nest, rfl⟩ := (scheduled_of_build hbuild).replayFrom hreplay
  obtain ⟨loops, haccepts, rfl⟩ := Kernel.accepts_of_apply hedit
  have hscheduled' := hscheduled.accepts haccepts
  have hrun := runnable_of_scheduled hbuild hsingle hcounts hscheduled
  have hrun' := runnable_of_scheduled hbuild hsingle hcounts hscheduled'
  refine ⟨fun hlisted' => ?_, fun hlong => ?_⟩
  · have hlisted := haccepts.slabsListable hlisted'
    refine ⟨hrun.execute_congr A hrun' hscheduled.whole hscheduled'.whole hlisted hlisted' hfits
      (Kernel.cell_accepts A _ hrun.valid haccepts hkeeps), ?_⟩
    obtain ⟨t, ht, hshape⟩ := hrun.outputTensor_eq
    refine ⟨t, ht, fun halloc => ?_⟩
    obtain ⟨grid, hgrid, -⟩ := hrun.execute_eq A hfits hscheduled.whole (hshape ▸ halloc) hlisted
    exact ⟨grid, hgrid⟩
  · exact hrun'.execute_eq_error A hfits fun hall => hlong hall.2.1

/-- The product of square matrices of size eight in parallel rows of blocks. -/
def sliced : Kernel :=
  { Kernel.matmul "square" 8 8 8 with
    nest := ⟨[⟨0, 2, 4, true, none⟩, ⟨0, 4, 1, false, none⟩, ⟨1, 8, 1, false, none⟩,
      ⟨2, 4, 2, false, none⟩, ⟨2, 2, 1, false, none⟩]⟩ }

theorem execute_apply_eq_sliced : ∃ k' grid, sliced.apply (.interchange [0, 3, 2, 1, 4]) = .ok k' ∧
    k'.execute .single (.uniform sliced 1) = .ok grid ∧
      sliced.execute .single (.uniform sliced 1) = .ok grid := by
  have hreplay : (Kernel.matmul "square" 8 8 8).replay [.tile 0 4, .parallelize 0, .tile 3 2] =
      .ok sliced := rfl
  have hedit : sliced.apply (.interchange [0, 3, 2, 1, 4]) =
      .ok { sliced with nest := ⟨[0, 3, 2, 1, 4].filterMap (sliced.nest.loops[·]?)⟩ } := rfl
  have hkeeps : sliced.KeepsOrder (.interchange [0, 3, 2, 1, 4]) := by
    unfold Kernel.KeepsOrder
    decide
  obtain ⟨hsame, t, ht, hok⟩ := (execute_apply_eq .single square_build hreplay (by decide)
    (by decide) hedit hkeeps (Inputs.uniform_fits sliced 1)).1 (by decide)
  cases ht
  obtain ⟨grid, hgrid⟩ := hok (by decide)
  exact ⟨_, grid, hedit, hsame.trans hgrid, hgrid⟩

/-- Neither side of a parallel mark returns an output of more bytes than a buffer may have, and the
marked side returns nothing when the list of slabs has more. -/
theorem parallelized_trapped : (∃ k', spread.build = .ok spreadKernel ∧
    spreadKernel.replay [] = .ok spreadKernel ∧ spreadKernel.apply (.parallelize 0) = .ok k' ∧
      spreadKernel.KeepsOrder (.parallelize 0) ∧
        (∀ t ∈ spreadKernel.tensors, t.element = .f32 ∧ Shape.size t.shape < 2 ^ 63) ∧
          (Inputs.uniform spreadKernel (1 : Float32)).fits spreadKernel = true ∧
            k'.execute .single (.uniform spreadKernel 1) = .error (.trapped "spread") ∧
              spreadKernel.execute .single (.uniform spreadKernel 1) =
                .error (.trapped "spread")) ∧
    broadcast.build = .ok broadcastKernel ∧ broadcastKernel.replay [] = .ok broadcastKernel ∧
      broadcastKernel.apply (.parallelize 0) = .ok broadcastSlabs ∧
        broadcastKernel.KeepsOrder (.parallelize 0) ∧
          (∀ t ∈ broadcastKernel.tensors, t.element = .f32 ∧ Shape.size t.shape < 2 ^ 63) ∧
            (Inputs.uniform broadcastKernel (1 : Float32)).fits broadcastKernel = true ∧
              broadcastSlabs.execute .single (.uniform broadcastKernel 1) =
                .error (.trapped "broadcast") ∧
                  ∃ grid, broadcastKernel.execute .single (.uniform broadcastKernel 1) =
                    .ok grid := by
  have hfits := Inputs.uniform_fits spreadKernel (1 : Float32)
  have hedit : spreadKernel.apply (.parallelize 0) = .ok { spreadKernel with
      nest := ⟨[⟨0, 1, 1, true, none⟩, Loop.full 1 (2 ^ 62)]⟩ } := rfl
  have hscheduled := (spread_scheduled.apply hedit).1
  have hfits' := Inputs.uniform_fits broadcastKernel (1 : Float32)
  have hscheduled' := scheduled_of_build broadcast_build
  have hrun := runnable_of_scheduled broadcast_build (by decide) (by decide) hscheduled'
  obtain ⟨grid, hgrid, -⟩ :=
    hrun.execute_eq .single hfits' hscheduled'.whole (by decide) (by decide)
  exact ⟨⟨_, spread_build, rfl, hedit, trivial, by decide, hfits,
    execute_spread .single hscheduled hfits, execute_spread .single spread_scheduled hfits⟩,
    broadcast_build, rfl, broadcast_apply, trivial, by decide, hfits',
    (execute_broadcastSlabs .single hfits').2, grid, hgrid⟩

end Draft

end NestTuner
