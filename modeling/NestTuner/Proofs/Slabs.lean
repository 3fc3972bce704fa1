import NestTuner.Proofs.Cells

/-!
A parallel loop computes the output slab by slab and puts the slabs together. When the loop reaches
the end of its axis, every element of the output has the value that a walk of the whole nest gives
it. A loop with a single value that ties in stride with another loop of its iterator need not reach
the end; then the loops inside leave the slab. The slabs are listed before they are put together,
and the list takes more bytes than the output when the slabs are single elements.
-/

namespace NestTuner

namespace Plan

variable {α : Type}

theorem zeros_eq (A : Arithmetic α) {shape : List Nat} (hpos : ∀ dim ∈ shape, 0 < dim)
    (hfits : Shape.size shape < Word.count) : zeros A shape =
      if Grid.allocatable (Shape.size shape) then
        some (Array.replicate (Shape.size shape) A.zero) else none := by
  rw [zeros, Word.product_eq hpos hfits]

end Plan

namespace Kernel

open Point

variable {α : Type}

/-- Every parallel loop reaches the end of its axis. -/
def Whole (k : Kernel) : Prop :=
  ∀ l ∈ k.nest.loops, l.parallel = true → l.stride * l.extent = k.extentOf l.iterator

/-- The slabs of a parallel loop can be listed, at 24 bytes for each. -/
def SlabsListable (k : Kernel) : Prop :=
  ∀ l ∈ k.nest.loops, l.parallel = true → 24 * l.extent < Grid.byteLimit

instance (k : Kernel) : Decidable k.SlabsListable :=
  inferInstanceAs (Decidable (∀ l ∈ k.nest.loops, _ → _))

/-- The loops of the parallel iterator inside a parallel loop. -/
theorem ParallelPlaced.inner_radix {k : Kernel} (h : k.ParallelPlaced) {outer : Loop}
    {inner : List Loop}
    (hradix : MixedRadix (k.nest.loopsFor outer.iterator) (k.extentOf outer.iterator))
    (hloops : k.nest.loops = outer :: inner) (hparallel : outer.parallel = true) :
    (outer.stride * outer.extent = k.extentOf outer.iterator ∧
        MixedRadix (inner.filter (·.iterator == outer.iterator)) outer.stride) ∨
      (outer.stride * outer.extent ≠ k.extentOf outer.iterator ∧ outer.extent = 1 ∧
        MixedRadix (inner.filter (·.iterator == outer.iterator)) (k.extentOf outer.iterator)) := by
  simp only [Nest.loopsFor, hloops, List.filter_cons, beq_self_eq_true, if_true] at hradix
  refine hradix.tail_of_largest fun a ha => ?_
  have hhead := h.2 outer (by simp [hloops]) hparallel
  simp only [List.mem_filter, beq_iff_eq] at ha
  exact hhead.1 a (by simp [hloops, ha.1]) ha.2

/-- The axis of a parallel loop, cut out of the indices of the output. -/
theorem Valid.axis_split {k : Kernel} (h : k.Valid) {outer : Loop} {inner : List Loop}
    (hloops : k.nest.loops = outer :: inner) (hparallel : outer.parallel = true) :
    ∃ pre post, k.statement.output.indices = pre ++ outer.iterator :: post ∧
      outer.iterator ∉ pre ∧ outer.iterator ∉ post ∧
      (k.slabs outer inner).axis = (pre.map k.extentOf).length ∧
      k.statement.output.indices.map (k.slabExtent outer) =
        pre.map k.extentOf ++ outer.stride :: post.map k.extentOf := by
  obtain ⟨pre, post, hindices⟩ :=
    List.append_of_mem (h.mem_output_of_parallel hloops hparallel)
  have hnodup := (h.backed _ (List.mem_cons_self ..)).1
  rw [hindices, List.nodup_append, List.nodup_cons] at hnodup
  obtain ⟨-, ⟨hpost, -⟩, hdisjoint⟩ := hnodup
  have hpre : outer.iterator ∉ pre := fun hi => hdisjoint _ hi _ (List.mem_cons_self ..) rfl
  refine ⟨pre, post, hindices, hpre, hpost, ?_, ?_⟩
  · have hnone : pre.findIdx? (· == outer.iterator) = none := by
      rw [List.findIdx?_eq_none_iff]
      intro i hi
      rw [beq_eq_false_iff_ne]
      exact fun heq => hpre (heq ▸ hi)
    simp [slabs, Access.axisOf, hindices, List.findIdx?_append, hnone, List.findIdx?_cons]
  · simp [hindices, slabExtent, Shape.map_update_of_notMem hpre, Shape.map_update_of_notMem hpost]

namespace Runnable

theorem rows {k : Kernel} (h : k.Runnable) :
    ∀ l ∈ k.nest.loops.getLast?, Plan.LanesFit l.extent l.vectorWidth := by
  intro l hl width hwidth
  obtain ⟨-, hmem, hmod⟩ := h.valid.legal.vectorPlaced.2 l hl width hwidth
  have hlanes : ∀ width ∈ vectorWidths, 0 < width ∧ width ≤ Plan.laneLimit := by decide
  obtain ⟨hpos, hle⟩ := hlanes width hmem
  exact ⟨hpos, hle, Nat.div_mul_cancel (Nat.dvd_of_mod_eq_zero hmod)⟩

/-- The whole nest visits every index of the output. -/
theorem covers {k : Kernel} (h : k.Runnable) : k.Covers k.extentOf k.nest.loops where
  subset := fun _ hl => hl
  extents := fun _ _ => Nat.le_refl _
  rows := h.rows
  radix := fun i _ => h.radix i

theorem within {k : Kernel} (h : k.Runnable) {v : Point} (hv : v ∈ visits k.nest.loops origin) :
    k.Within v := by
  intro i
  simpa [origin] using lt_of_mem_visits (h.radix i) hv

theorem inner_radix {k : Kernel} (h : k.Runnable) {outer : Loop} {inner : List Loop}
    (hloops : k.nest.loops = outer :: inner) (hparallel : outer.parallel = true) :
    (outer.stride * outer.extent = k.extentOf outer.iterator ∧
        MixedRadix (inner.filter (·.iterator == outer.iterator)) outer.stride) ∨
      (outer.stride * outer.extent ≠ k.extentOf outer.iterator ∧ outer.extent = 1 ∧
        MixedRadix (inner.filter (·.iterator == outer.iterator)) (k.extentOf outer.iterator)) :=
  h.valid.legal.parallelPlaced.inner_radix (h.radix outer.iterator) hloops hparallel

/-- A parallel loop moves the output, and is no vectorized reduction. -/
theorem cell_cons {k : Kernel} (h : k.Runnable) {outer : Loop} {inner : List Loop}
    (hloops : k.nest.loops = outer :: inner) (hparallel : outer.parallel = true)
    (A : Arithmetic α) (ops : Plan.Operands α) :
    k.cell A ops (outer :: inner) = k.cell A ops inner := by
  have hmem := h.mem_output_of_parallel hloops hparallel
  have hlane : k.laneLoop? [outer] = none := by simp [laneLoop?, hmem]
  have hnil : k.laneLoop? [] = none := rfl
  exact cell_append_congr A ops hlane hnil (by simp [hmem]) inner

theorem inner_rows {k : Kernel} (h : k.Runnable) {outer : Loop} {inner : List Loop}
    (hloops : k.nest.loops = outer :: inner) :
    ∀ l ∈ inner.getLast?, Plan.LanesFit l.extent l.vectorWidth := by
  intro l hl
  cases inner with
  | nil => simp at hl
  | cons next rest => exact h.rows l (by rwa [hloops, List.getLast?_cons_cons])

theorem inner_radix_of_ne {k : Kernel} (h : k.Runnable) {outer : Loop} {inner : List Loop}
    (hloops : k.nest.loops = outer :: inner) {i : Nat} (hi : i ≠ outer.iterator) :
    MixedRadix (inner.filter (·.iterator == i)) (k.extentOf i) := by
  have hradix := h.radix i
  simp only [Nest.loopsFor, hloops, List.filter_cons] at hradix
  rwa [if_neg (by simpa using Ne.symm hi)] at hradix

/-- The loops inside a parallel loop that reaches the end of its axis visit every index of a
slab. -/
theorem slab_covers {k : Kernel} (h : k.Runnable) {outer : Loop} {inner : List Loop}
    (hloops : k.nest.loops = outer :: inner) (hparallel : outer.parallel = true)
    (hwhole : outer.stride * outer.extent = k.extentOf outer.iterator) :
    k.Covers (k.slabExtent outer) inner where
  subset := fun l hl => by simp [hloops, hl]
  extents := fun i _ => (h.valid.slabExtent_le (by simp [hloops]) i).2
  rows := h.inner_rows hloops
  radix := by
    intro i _
    by_cases hi : i = outer.iterator
    · subst hi
      rw [slabExtent, Function.update_self]
      rcases h.inner_radix hloops hparallel with ⟨-, hradix⟩ | ⟨hne, -⟩
      · exact hradix
      · exact absurd hwhole hne
    · rw [slabExtent, Function.update_of_ne hi]
      exact h.inner_radix_of_ne hloops hi

theorem slab_within {k : Kernel} (h : k.Runnable) {outer : Loop} {inner : List Loop}
    (hloops : k.nest.loops = outer :: inner) {t : Nat} (ht : t < outer.extent) {v : Point}
    (hv : v ∈ visits inner origin) : k.Within (v.move outer.iterator (t * outer.stride)) := by
  refine h.within ?_
  rw [hloops, visits]
  refine List.mem_flatMap.mpr ⟨t, List.mem_range.mpr ht, ?_⟩
  rw [visits_move]
  exact List.mem_map.mpr ⟨v, hv, rfl⟩

/-- An iteration of a parallel loop starts with the output of its slab at the start, and the inputs
moved ahead. -/
theorem slab_start {k : Kernel} (h : k.Runnable) {outer : Loop} (houter : outer ∈ k.nest.loops)
    (inner : List Loop) {t : Nat} (ht : t < outer.extent) : (k.slabs outer inner).start t =
      some (k.offsets (k.slabExtent outer) origin
        (origin.move outer.iterator (t * outer.stride))) := by
  have hway : t * outer.stride ≤ k.extentOf outer.iterator := by
    rw [Nat.mul_comm]
    exact (Nat.mul_le_mul_left _ (Nat.le_of_lt ht)).trans (h.level_bounds houter).2.2
  have hmul : ∀ slot, Word.mul t (Shape.stepSize (k.shapeOf (k.input slot))
      (k.input slot).indices outer) = .ok (t * Shape.stepSize (k.shapeOf (k.input slot))
        (k.input slot).indices outer) := by
    intro slot
    have hpos : ∀ i ∈ (k.input slot).indices, 0 < k.extentOf i := fun i _ =>
      h.valid.extentOf_pos i
    exact if_pos (lt_count ((Shape.mul_stepSize_le hpos hway).trans_lt (h.input_size_lt slot)))
  simp [offsets, Shape.position_move (h.input_nodup _), Shape.position_origin, Plan.Split.start,
    slabs, lowered, hmul, Except.toOption]

/-- A slab holds the cells of the indices moved ahead to where it lies. -/
theorem slab_eq (A : Arithmetic α) {k : Kernel} (h : k.Runnable) {ops : Plan.Operands α}
    (hops : k.Loaded ops) {outer : Loop} {inner : List Loop}
    (hloops : k.nest.loops = outer :: inner) (hparallel : outer.parallel = true)
    (hwhole : outer.stride * outer.extent = k.extentOf outer.iterator)
    (halloc : Grid.allocatable (Shape.size (k.shapeOf k.statement.output)) = true) {t : Nat}
    (ht : t < outer.extent) :
    ∃ final, Plan.slab A (.ofStatement k.statement) ops (k.slabs outer inner) t = some final ∧
      ∀ index, List.Forall₂ (· < ·) index
          (k.statement.output.indices.map (k.slabExtent outer)) →
        final[Shape.position (k.statement.output.indices.map (k.slabExtent outer)) index]? =
          some (k.cell A ops inner ((assign k.statement.output.indices index origin).move
            outer.iterator (t * outer.stride))) := by
  have houter : outer ∈ k.nest.loops := by simp [hloops]
  have hpos : ∀ dim ∈ k.statement.output.indices.map (k.slabExtent outer), 0 < dim := by
    simpa using fun i _ => (h.valid.slabExtent_le houter i).1
  have hsize : Shape.size (k.statement.output.indices.map (k.slabExtent outer)) ≤
      Shape.size (k.shapeOf k.statement.output) :=
    Shape.size_map_le fun i _ => (h.valid.slabExtent_le houter i).2
  have halloc' : Grid.allocatable
      (Shape.size (k.statement.output.indices.map (k.slabExtent outer))) = true := by
    simp only [Grid.allocatable, decide_eq_true_eq] at halloc ⊢
    omega
  obtain ⟨final, hwalk, -, hcells⟩ := walk_eq A h hops (h.slab_covers hloops hparallel hwhole)
    fun v hv => h.slab_within hloops ht hv
  refine ⟨final, ?_, hcells⟩
  have hzeros := Plan.zeros_eq A hpos (lt_count (h.slab_size_lt houter))
  rw [if_pos halloc'] at hzeros
  rw [Plan.slab, h.slab_start houter inner ht]
  change (Plan.zeros A (k.statement.output.indices.map (k.slabExtent outer))).bind _ = _
  rw [hzeros]
  exact hwalk

/-- Positions along the axis of a parallel loop: which slab, and where in it. -/
theorem stitched_position {pre post ipre ipost : List Nat} (hlen : ipre.length = pre.length)
    (hpost : List.Forall₂ (· < ·) ipost post) {along x : Nat} (hx : x < along) (s : Plan.Split)
    (haxis : s.axis = pre.length) (slabs : Array (Array α)) :
    Plan.stitched (pre ++ along :: post) s slabs
      (Shape.position (pre ++ along :: post) (ipre ++ x :: ipost)) =
      slabs[x / s.chunk]?.bind fun slab =>
        slab[Shape.position (pre ++ s.chunk :: post) (ipre ++ x % s.chunk :: ipost)]? := by
  have hlt := Shape.position_lt hpost
  have hdrop : (pre ++ along :: post).drop (s.axis + 1) = post := by
    rw [haxis]
    simp
  have hdim : (pre ++ along :: post)[s.axis]? = some along := by
    rw [haxis]
    simp
  simp only [Plan.stitched, hdrop, hdim, Shape.position_axis hlen, ← Nat.div_div_eq_div_mul,
    Shape.row_div hlt, Shape.row_mod hlt, Shape.row_mod hx, Shape.row_div hx, Option.bind_eq_bind,
    Option.bind_some]

/-- An index within its slab, moved ahead to where the slab lies. -/
theorem assign_move {pre post ipre ipost : List Nat} {i : Nat} (hnodup : (pre ++ i :: post).Nodup)
    (hpre : i ∉ pre) (hpost : i ∉ post) (hlen : ipre.length = pre.length)
    (hlen' : ipost.length = post.length) (y z : Nat) :
    (assign (pre ++ i :: post) (ipre ++ y :: ipost) origin).move i z =
      assign (pre ++ i :: post) (ipre ++ (y + z) :: ipost) origin := by
  have hcount : (ipre ++ y :: ipost).length = (pre ++ i :: post).length := by simp [hlen, hlen']
  have hmap := map_assign hnodup hcount origin
  rw [List.map_append, List.map_cons] at hmap
  obtain ⟨hfront, hback⟩ := List.append_inj hmap (by simp [hlen])
  obtain ⟨hvalue, hrest⟩ := List.cons.inj hback
  have hzero : ∀ j, j ∉ pre ++ i :: post →
      (assign (pre ++ i :: post) (ipre ++ y :: ipost) origin).move i z j = 0 := by
    intro j hj
    have hne : j ≠ i := fun heq => hj (by simp [heq])
    rw [move_of_ne _ _ hne, assign_of_notMem hj]
    rfl
  rw [← assign_eq hnodup hzero, List.map_append, List.map_cons, map_move_of_notMem hpre,
    map_move_of_notMem hpost, move_self, hfront, hvalue, hrest]

/-- The slabs put together hold the cells of the whole nest. -/
theorem stitched_eq (A : Arithmetic α) {k : Kernel} (h : k.Runnable) {ops : Plan.Operands α}
    (hops : k.Loaded ops) {outer : Loop} {inner : List Loop}
    (hloops : k.nest.loops = outer :: inner) (hparallel : outer.parallel = true)
    (hwhole : outer.stride * outer.extent = k.extentOf outer.iterator)
    (halloc : Grid.allocatable (Shape.size (k.shapeOf k.statement.output)) = true)
    {slabs : Array (Array α)} (hslabs : ∀ t < outer.extent,
      slabs[t]? = Plan.slab A (.ofStatement k.statement) ops (k.slabs outer inner) t)
    {index : List Nat} (hindex : List.Forall₂ (· < ·) index (k.shapeOf k.statement.output)) :
    Plan.stitched (k.shapeOf k.statement.output) (k.slabs outer inner) slabs
      (Shape.position (k.shapeOf k.statement.output) index) =
      some (k.cell A ops k.nest.loops (assign k.statement.output.indices index origin)) := by
  obtain ⟨pre, post, hindices, hpre, hpost, haxis, hslab⟩ := h.valid.axis_split hloops hparallel
  have hshape : k.shapeOf k.statement.output = pre.map k.extentOf ++
      k.extentOf outer.iterator :: post.map k.extentOf := by
    simp [shapeOf, hindices]
  rw [hshape] at hindex ⊢
  have hfront := List.forall₂_take_append _ _ _ hindex
  have hback := List.forall₂_drop_append _ _ _ hindex
  obtain ⟨x, ipost, hx, hipost, hdrop⟩ := List.forall₂_cons_right_iff.mp hback
  obtain ⟨ipre, hipre, rfl⟩ : ∃ ipre, List.Forall₂ (· < ·) ipre (pre.map k.extentOf) ∧
      index = ipre ++ x :: ipost :=
    ⟨_, hfront, by rw [← hdrop, List.take_append_drop]⟩
  have ht : x / outer.stride < outer.extent := Nat.div_lt_of_lt_mul (by rwa [hwhole])
  have hstride : 0 < outer.stride := (h.level_bounds (by simp [hloops])).1
  obtain ⟨final, hfinal, hcells⟩ := h.slab_eq A hops hloops hparallel hwhole halloc ht
  have hbox : List.Forall₂ (· < ·) (ipre ++ x % outer.stride :: ipost)
      (k.statement.output.indices.map (k.slabExtent outer)) := by
    rw [hslab]
    exact List.rel_append hipre (List.Forall₂.cons (Nat.mod_lt x hstride) hipost)
  have hcell := hcells _ hbox
  have hlen := hipre.length_eq
  have hlen' := hipost.length_eq
  rw [List.length_map] at hlen'
  have hchunk : (k.slabs outer inner).chunk = outer.stride := rfl
  rw [stitched_position hlen hipost hx _ haxis, hchunk, hslabs _ ht, hfinal]
  rw [hslab] at hcell
  change final[_]? = _
  rw [hcell, hloops, h.cell_cons hloops hparallel, hindices,
    assign_move (hindices ▸ h.output_nodup) hpre hpost (by simpa using hlen) hlen',
    Nat.mod_add_div']

/-- The last index of the output lies outside a slab that is shorter along its axis. -/
theorem slab_size_le_position {k : Kernel} (h : k.Runnable) {outer : Loop}
    (houter : outer ∈ k.nest.loops) (hmem : outer.iterator ∈ k.statement.output.indices)
    (hshort : outer.stride < k.extentOf outer.iterator) {v : Point}
    (hv : ∀ i ∈ k.statement.output.indices, v i = k.extentOf i - 1) :
    Shape.size (k.statement.output.indices.map (k.slabExtent outer)) ≤
      Shape.position (k.statement.output.indices.map (k.slabExtent outer))
        (k.statement.output.indices.map v) := by
  have hpos : ∀ i ∈ k.statement.output.indices, 0 < k.slabExtent outer i :=
    fun i _ => (h.valid.slabExtent_le houter i).1
  have hdims : ∀ dim ∈ k.statement.output.indices.map (k.slabExtent outer), 0 < dim := by
    simpa using hpos
  have hlast := Shape.position_last hdims
  rw [List.map_map] at hlast
  -- the last index of the slab, moved on along the axis
  have hmove : k.statement.output.indices.map v = k.statement.output.indices.map
      (move ((· - 1) ∘ k.slabExtent outer) outer.iterator
        (k.extentOf outer.iterator - outer.stride)) := by
    apply List.map_congr_left
    intro i hi
    rw [hv i hi]
    have hstride : 0 < outer.stride := (h.level_bounds houter).1
    by_cases heq : i = outer.iterator
    · subst heq
      rw [move_self]
      simp only [Function.comp_apply, slabExtent, Function.update_self]
      omega
    · rw [move_of_ne _ _ heq]
      simp [slabExtent, Function.update_of_ne heq]
  have hposition : Shape.position (k.statement.output.indices.map (k.slabExtent outer))
      (k.statement.output.indices.map (move ((· - 1) ∘ k.slabExtent outer) outer.iterator
        ((k.extentOf outer.iterator - outer.stride) * 1))) = _ :=
    Shape.position_move h.output_nodup (Loop.full outer.iterator 1) _ _
  have hstep := Shape.stepSize_pos (l := Loop.full outer.iterator 1) hpos Nat.one_pos hmem
  have hgrow := Nat.mul_le_mul_left (k.extentOf outer.iterator - outer.stride) hstep
  rw [Nat.mul_one] at hposition
  rw [hmove, hposition]
  omega

/-- The loops inside a parallel loop that does not reach the end of its axis still reach the last
index of the whole output. -/
theorem exists_last_point {k : Kernel} (h : k.Runnable) {outer : Loop} {inner : List Loop}
    (hloops : k.nest.loops = outer :: inner)
    (hinner : MixedRadix (inner.filter (·.iterator == outer.iterator))
      (k.extentOf outer.iterator)) :
    ∃ v ∈ visits (k.walked inner) origin,
      ∀ i ∈ k.statement.output.indices, v i = k.extentOf i - 1 := by
  have hradix : ∀ i ∈ k.statement.output.indices,
      MixedRadix ((k.walked inner).filter (·.iterator == i)) (k.extentOf i) := by
    intro i hi
    rw [walked_filter k inner hi]
    by_cases heq : i = outer.iterator
    · exact heq ▸ hinner
    · exact h.inner_radix_of_ne hloops heq
  have hindex : List.Forall₂ (· < ·) (k.statement.output.indices.map (k.extentOf · - 1))
      (k.statement.output.indices.map k.extentOf) :=
    Shape.forall₂_map fun i _ => Nat.sub_one_lt_of_lt (h.valid.extentOf_pos i)
  have hextents : ∀ l ∈ k.reductions inner, 0 < l.extent := by
    intro l hl
    exact (h.level_bounds (by simp [hloops, mem_of_mem_reductions hl])).2.1
  obtain ⟨v, hv⟩ := List.exists_mem_of_ne_nil _ (visits_ne_nil hextents
    (assign k.statement.output.indices (k.statement.output.indices.map (k.extentOf · - 1)) origin))
  rw [reductions, ← filter_visits_index h.output_nodup hindex hradix] at hv
  obtain ⟨hv, hvalue⟩ := List.mem_filter.mp hv
  rw [beq_iff_eq, List.map_inj_left] at hvalue
  exact ⟨v, hv, hvalue⟩

/-- A parallel loop that does not reach the end of its axis has no slab. -/
theorem slab_eq_none (A : Arithmetic α) {k : Kernel} (h : k.Runnable) (ops : Plan.Operands α)
    {outer : Loop} {inner : List Loop} (hloops : k.nest.loops = outer :: inner)
    (hparallel : outer.parallel = true)
    (hshort : outer.stride * outer.extent ≠ k.extentOf outer.iterator) :
    outer.extent = 1 ∧
      Plan.slab A (.ofStatement k.statement) ops (k.slabs outer inner) 0 = none := by
  have houter : outer ∈ k.nest.loops := by simp [hloops]
  rcases h.inner_radix hloops hparallel with ⟨hwhole, -⟩ | ⟨-, hone, hinner⟩
  · exact absurd hwhole hshort
  · refine ⟨hone, ?_⟩
    obtain ⟨v, hv, hlast⟩ := h.exists_last_point hloops hinner
    have hstride : outer.stride < k.extentOf outer.iterator := by
      have hle := h.stride_le houter
      rw [hone, Nat.mul_one] at hshort
      omega
    have hout := h.slab_size_le_position houter (h.mem_output_of_parallel hloops hparallel) hstride
      hlast
    have hpos : ∀ i ∈ k.statement.output.indices, 0 < k.slabExtent outer i :=
      fun i _ => (h.valid.slabExtent_le houter i).1
    have hfirst : 0 < outer.extent := by omega
    rw [Plan.slab, h.slab_start houter inner hfirst]
    change (Plan.zeros A (k.statement.output.indices.map (k.slabExtent outer))).bind _ = _
    rw [Plan.zeros_eq A (by simpa using hpos) (lt_count (h.slab_size_lt houter))]
    split
    case isFalse => rfl
    case isTrue =>
      rw [Option.bind_some]
      have hmem : ∀ l ∈ inner, l ∈ k.nest.loops := fun l hl => by simp [hloops, hl]
      have hfits := h.fits (fun i _ => (h.valid.slabExtent_le houter i).2) hmem
        fun v hv => h.slab_within hloops hfirst hv
      refine (walk_eq_revisions A h hpos (fun l hl => (h.level_bounds (hmem l hl)).1)
        (h.inner_rows hloops) hfits _).trans
        (Plan.foldlM_revise_eq_none (List.mem_map.mpr ⟨v, hv, rfl⟩) ?_)
      rwa [Array.size_replicate]

theorem zeros_output (A : Arithmetic α) {k : Kernel} (h : k.Runnable) :
    Plan.zeros A (k.shapeOf k.statement.output) =
      if Grid.allocatable (Shape.size (k.shapeOf k.statement.output)) then
        some (Array.replicate (Shape.size (k.shapeOf k.statement.output)) A.zero) else none :=
  Plan.zeros_eq A (h.valid.shapeOf_pos _) (lt_count h.output_size_lt)

/-- The slabs of a parallel loop that reaches the end of its axis. -/
theorem runSplit_eq (A : Arithmetic α) {k : Kernel} (h : k.Runnable) {ops : Plan.Operands α}
    (hops : k.Loaded ops) {outer : Loop} {inner : List Loop}
    (hloops : k.nest.loops = outer :: inner) (hparallel : outer.parallel = true)
    (hwhole : outer.stride * outer.extent = k.extentOf outer.iterator)
    (halloc : Grid.allocatable (Shape.size (k.shapeOf k.statement.output)) = true)
    (hlisted : 24 * outer.extent < Grid.byteLimit) :
    ∃ out, Plan.runSplit A k.plan ops (k.slabs outer inner) = some out ∧
      out.size = Shape.size (k.shapeOf k.statement.output) ∧
      ∀ index, List.Forall₂ (· < ·) index (k.shapeOf k.statement.output) →
        out[Shape.position (k.shapeOf k.statement.output) index]? =
          some (k.cell A ops k.nest.loops (assign k.statement.output.indices index origin)) := by
  obtain ⟨slabs, hslabs, -, hget⟩ := mapM_range_eq_some fun t ht => by
    obtain ⟨final, hfinal, -⟩ := h.slab_eq A hops hloops hparallel hwhole halloc ht
    exact ⟨final, hfinal⟩
  have hcell := fun index
      (hindex : List.Forall₂ (· < ·) index (k.shapeOf k.statement.output)) =>
    h.stitched_eq A hops hloops hparallel hwhole halloc hget hindex
  obtain ⟨out, hout, hsize, hvalues⟩ := mapM_range_eq_some
    (n := Shape.size (k.shapeOf k.statement.output)) fun c hc => by
      obtain ⟨index, hindex, rfl⟩ := Shape.exists_index hc
      exact ⟨_, hcell index hindex⟩
  refine ⟨out, ?_, hsize, ?_⟩
  · have hlist : (k.slabs outer inner).listable = true := decide_eq_true hlisted
    rw [Plan.runSplit, if_pos hlist]
    refine Option.bind_eq_some_iff.mpr ⟨slabs, hslabs, ?_⟩
    refine Option.bind_eq_some_iff.mpr ⟨_, (h.zeros_output A).trans (if_pos halloc), ?_⟩
    rw [Array.size_replicate]
    exact hout
  · intro index hindex
    rw [hvalues _ (Shape.position_lt hindex)]
    exact hcell index hindex

theorem split_eq_some {k : Kernel} {s : Plan.Split} (hsplit : k.plan.split = some s) :
    ∃ outer inner, k.nest.loops = outer :: inner ∧ outer.parallel = true ∧
      s = k.slabs outer inner := by
  simp only [plan] at hsplit
  split at hsplit
  case h_1 => cases hsplit
  case h_2 outer inner hloops =>
    split at hsplit
    case isTrue hparallel => exact ⟨outer, inner, hloops, hparallel, (Option.some.inj hsplit).symm⟩
    case isFalse => cases hsplit

theorem start_eq (k : Kernel) : k.offsets k.extentOf origin (origin.move 0 0) = .zero := by
  simp [offsets, move_zero, Shape.position_origin, Plan.Offsets.zero]

/-- A run gives every element of the output the value of its cell. -/
theorem run_eq (A : Arithmetic α) {k : Kernel} (h : k.Runnable) {ops : Plan.Operands α}
    (hops : k.Loaded ops) (hwhole : k.Whole)
    (halloc : Grid.allocatable (Shape.size (k.shapeOf k.statement.output)) = true)
    (hlisted : k.SlabsListable) :
    ∃ out, Plan.run A k.plan ops = some out ∧
      out.size = Shape.size (k.shapeOf k.statement.output) ∧
      ∀ index, List.Forall₂ (· < ·) index (k.shapeOf k.statement.output) →
        out[Shape.position (k.shapeOf k.statement.output) index]? =
          some (k.cell A ops k.nest.loops (assign k.statement.output.indices index origin)) := by
  cases hsplit : k.plan.split with
  | some s =>
    obtain ⟨outer, inner, hloops, hparallel, rfl⟩ := split_eq_some hsplit
    have houter : outer ∈ k.nest.loops := by simp [hloops]
    simp only [Plan.run, hsplit]
    exact h.runSplit_eq A hops hloops hparallel (hwhole outer houter hparallel) halloc
      (hlisted outer houter hparallel)
  | none =>
    obtain ⟨out, hwalk, hsize, hcells⟩ := walk_eq A h hops h.covers (i := 0) (x := 0)
      fun v hv => by rw [move_zero]; exact h.within hv
    refine ⟨out, ?_, hsize, ?_⟩
    · simp only [Plan.run, hsplit]
      refine Option.bind_eq_some_iff.mpr ⟨_, (h.zeros_output A).trans (if_pos halloc), ?_⟩
      rw [start_eq] at hwalk
      exact hwalk
    · intro index hindex
      rw [← move_zero (assign k.statement.output.indices index origin) 0]
      exact hcells index hindex

theorem split_of_parallel {k : Kernel} (h : k.Runnable) {l : Loop} (hl : l ∈ k.nest.loops)
    (hparallel : l.parallel = true) :
    ∃ inner, k.nest.loops = l :: inner ∧ k.plan.split = some (k.slabs l inner) := by
  obtain ⟨inner, hloops⟩ := h.valid.legal.parallelPlaced.eq_cons hl hparallel
  exact ⟨inner, hloops, by simp [plan, hloops, hparallel]⟩

/-- Otherwise there is no result: the output or the list of slabs is too large, or a slab is
left. -/
theorem run_eq_none (A : Arithmetic α) {k : Kernel} (h : k.Runnable) (ops : Plan.Operands α)
    (hnot : ¬(Grid.allocatable (Shape.size (k.shapeOf k.statement.output)) = true ∧
      k.SlabsListable ∧ k.Whole)) : Plan.run A k.plan ops = none := by
  by_cases halloc : Grid.allocatable (Shape.size (k.shapeOf k.statement.output)) = true
  · by_cases hlisted : k.SlabsListable
    · obtain ⟨l, hl, hparallel, hshort⟩ : ∃ l ∈ k.nest.loops, l.parallel = true ∧
          l.stride * l.extent ≠ k.extentOf l.iterator := by
        simpa [halloc, hlisted, Whole] using hnot
      obtain ⟨inner, hloops, hsplit⟩ := h.split_of_parallel hl hparallel
      obtain ⟨hone, hslab⟩ := h.slab_eq_none A ops hloops hparallel hshort
      have hslabs := mapM_range_eq_none (n := (k.slabs l inner).extent)
        (by simp [slabs, hone]) hslab
      simp [Plan.run, hsplit, Plan.runSplit, hslabs]
    · obtain ⟨l, hl, hparallel, hlong⟩ : ∃ l ∈ k.nest.loops, l.parallel = true ∧
          Grid.byteLimit ≤ 24 * l.extent := by
        simpa [SlabsListable] using hlisted
      obtain ⟨inner, -, hsplit⟩ := h.split_of_parallel hl hparallel
      have hlist : (k.slabs l inner).listable = false := decide_eq_false (Nat.not_lt.mpr hlong)
      simp [Plan.run, hsplit, Plan.runSplit, hlist]
  · have hzeros := (h.zeros_output A).trans (if_neg halloc)
    unfold Plan.run
    split
    case h_1 => simp [Plan.runSplit, hzeros]
    case h_2 => simp [hzeros]

end Runnable

end Kernel

end NestTuner
