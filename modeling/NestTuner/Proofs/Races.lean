import NestTuner.Proofs.Slabs
import NestTuner.Proofs.Touches

/-!
Parallel loops are free of races. A parallel loop is at the outermost level of an iterator of the
output, and the loops of that iterator inside it add up to less than its stride. So its index can be
read off the value of the iterator, and with it off the element of the output that a point has.
Iterations of the emitted loop touch an element in common only to read it, and the slabs of a plan
fill parts of the output that do not overlap.
-/

namespace NestTuner

open Point

/-- Two touches of one element, not both to read it. -/
def Mlir.Touch.Conflicts (a b : Mlir.Touch) : Prop :=
  a.tensor = b.tensor ∧ a.index = b.index ∧ (a.writes = true ∨ b.writes = true)

namespace Plan.Split

/-- One slab for each iteration, of the size that the split gives it. -/
def Fits (s : Split) (slabs : Array (Array Nat)) : Prop :=
  slabs.size = s.extent ∧ ∀ slab ∈ slabs, slab.size = Shape.size s.slabShape

/-- A slab writes an element of the output if the element can change when the slab alone changes. -/
def Writes (s : Split) (shape : List Nat) (t c : Nat) : Prop :=
  ∃ slabs slabs', s.Fits slabs ∧ s.Fits slabs' ∧ (∀ u, u ≠ t → slabs[u]? = slabs'[u]?) ∧
    stitched shape s slabs c ≠ stitched shape s slabs' c

/-- The slab that an element is taken from. -/
def slabAt (s : Split) (shape : List Nat) (c : Nat) : Nat :=
  c / Shape.size (shape.drop (s.axis + 1)) % shape[s.axis]?.getD 0 / s.chunk

theorem stitched_congr {s : Split} {shape : List Nat} {c : Nat} {slabs slabs' : Array (Array Nat)}
    (h : slabs[s.slabAt shape c]? = slabs'[s.slabAt shape c]?) :
    stitched shape s slabs c = stitched shape s slabs' c := by
  unfold stitched
  cases hdim : shape[s.axis]? with
  | none => rfl
  | some along =>
    rw [slabAt, hdim, Option.getD_some] at h
    simp only [Option.bind_eq_bind, Option.bind_some, h]

theorem Writes.eq_slabAt {s : Split} {shape : List Nat} {t c : Nat} (h : s.Writes shape t c) :
    t = s.slabAt shape c := by
  obtain ⟨slabs, slabs', -, -, hsame, hdiffer⟩ := h
  by_contra hne
  exact hdiffer (stitched_congr (hsame _ (Ne.symm hne)))

/-- No element is written by two slabs. -/
theorem Writes.unique {s : Split} {shape : List Nat} {t t' c : Nat} (h : s.Writes shape t c)
    (h' : s.Writes shape t' c) : t = t' :=
  h.eq_slabAt.trans h'.eq_slabAt.symm

/-- An element that is taken from a place of a slab is written by it. -/
theorem writes_of_stitched {s : Split} {shape : List Nat} {t c place : Nat} (ht : t < s.extent)
    (hplace : place < Shape.size s.slabShape)
    (h : ∀ slabs : Array (Array Nat), stitched shape s slabs c =
      slabs[t]?.bind fun slab => slab[place]?) : s.Writes shape t c := by
  let table (x : Nat) : Array (Array Nat) := Array.ofFn fun u : Fin s.extent =>
    Array.replicate (Shape.size s.slabShape) (if u.val = t then x else 0)
  have hfits : ∀ x, s.Fits (table x) := by
    intro x
    simp [table, Fits]
  have hvalue : ∀ x, stitched shape s (table x) c = some x := by
    intro x
    simp [h, table, ht, hplace]
  refine ⟨table 0, table 1, hfits 0, hfits 1, fun u hu => ?_, ?_⟩
  · simp [table, Array.getElem?_ofFn, hu]
  · simp [hvalue]

end Plan.Split

namespace Kernel

section Rounds

variable {k : Kernel} {outer : Loop} {inner : List Loop} (hloops : k.nest.loops = outer :: inner)

include hloops

/-- A tuple of loop indices begins with that of the outermost loop. -/
theorem mem_box_loops {index : List Nat} : index ∈ box (k.nest.loops.map (·.extent)) ↔
    ∃ t rest, t < outer.extent ∧ rest ∈ box (inner.map (·.extent)) ∧ index = t :: rest := by
  rw [hloops, List.map_cons, mem_box, List.forall₂_cons_right_iff]
  rfl

/-- The rounds one after the other go through all tuples of loop indices. -/
theorem flatten_rounds : ((List.range outer.extent).map (k.round inner)).flatten =
    (tuples (k.nest.loops.map (·.extent))).flatMap fun index =>
      k.touches (pointAt k.nest.loops index) := by
  have hextents : k.nest.loops.map (·.extent) = outer.extent :: inner.map (·.extent) := by
    rw [hloops, List.map_cons]
  rw [hextents, tuples, List.flatMap_assoc, ← List.flatMap_def]
  simp only [List.flatMap_map]
  rfl

/-- A round has the points with its index of the outermost loop. -/
theorem mem_rounds {t : Nat} {touch : Mlir.Touch} :
    (∃ round, ((List.range outer.extent).map (k.round inner))[t]? = some round ∧ touch ∈ round) ↔
      ∃ index ∈ box (k.nest.loops.map (·.extent)), index[0]? = some t ∧
        touch ∈ k.touches (pointAt k.nest.loops index) := by
  constructor
  · intro ⟨round, hround, htouch⟩
    rw [List.getElem?_map, Option.map_eq_some_iff] at hround
    obtain ⟨u, hu, rfl⟩ := hround
    obtain ⟨ht, rfl⟩ : t < outer.extent ∧ t = u := by
      simpa [List.getElem?_eq_some_iff] using hu
    obtain ⟨rest, hrest, htouch⟩ := mem_round.mp htouch
    exact ⟨t :: rest, (mem_box_loops hloops).mpr ⟨t, rest, ht, hrest, rfl⟩, rfl, htouch⟩
  · intro ⟨index, hindex, hfirst, htouch⟩
    obtain ⟨u, rest, hu, hrest, rfl⟩ := (mem_box_loops hloops).mp hindex
    obtain rfl := Option.some.inj hfirst
    exact ⟨k.round inner u, by simp [hu], mem_round.mpr ⟨rest, hrest, htouch⟩⟩

end Rounds

/-- Where the element of the output is at a tuple of loop indices. -/
def elementAt (k : Kernel) (index : List Nat) : List Nat :=
  k.statement.output.indices.map (pointAt k.nest.loops index)

theorem eq_touch_of_mem {k : Kernel} {v : Point} {a : Mlir.Touch} (ha : a ∈ k.touches v) :
    ∃ x ∈ k.statement.accesses, ∃ writes, a = x.touch v writes ∧
      (writes = true → x = k.statement.output) := by
  rcases List.mem_append.mp ha with ha | ha
  · cases hs : k.statement with
    | contraction output lhs rhs =>
      rw [hs] at ha
      simp only [List.mem_cons, List.not_mem_nil, or_false] at ha
      rcases ha with rfl | rfl | rfl
      · exact ⟨lhs, by simp [Statement.accesses, Statement.inputs], false, rfl, nofun⟩
      · exact ⟨rhs, by simp [Statement.accesses, Statement.inputs], false, rfl, nofun⟩
      · exact ⟨output, by simp [Statement.accesses, Statement.output], false, rfl, nofun⟩
    | elementwise op output inputs =>
      rw [hs] at ha
      obtain ⟨x, hx, rfl⟩ := List.mem_map.mp ha
      exact ⟨x, List.mem_cons_of_mem _ hx, false, rfl, nofun⟩
  · exact ⟨_, List.mem_cons_self, true, List.mem_singleton.mp ha, fun _ => rfl⟩

/-- A tensor that is written is met at one element for each point. -/
theorem Valid.touch_output {k : Kernel} (h : k.Valid) {v : Point} {a : Mlir.Touch}
    (ha : a ∈ k.touches v) :
    (a.writes = true → a.tensor = k.statement.output.tensor) ∧
      (a.tensor = k.statement.output.tensor → a.index = k.statement.output.indices.map v) := by
  obtain ⟨x, hx, writes, rfl, hwrites⟩ := eq_touch_of_mem ha
  refine ⟨fun hw => by rw [← hwrites hw]; rfl, fun htensor => ?_⟩
  rcases List.mem_cons.mp hx with rfl | hx
  · rfl
  · exact absurd htensor (h.unaliased x hx)

section Parallel

variable {k : Kernel} (h : k.Valid) (hextents : ∀ i, k.extentOf i < Word.largest) {outer : Loop}
  {inner : List Loop} (hloops : k.nest.loops = outer :: inner) (hparallel : outer.parallel = true)

include h hextents hloops hparallel

/-- The index of a parallel loop that runs more than once, from the value of its iterator. -/
theorem Valid.parallel_index (hmany : 1 < outer.extent) {t : Nat} {rest : List Nat}
    (hindex : t :: rest ∈ box (k.nest.loops.map (·.extent))) :
    pointAt k.nest.loops (t :: rest) outer.iterator / outer.stride = t := by
  have hradix := h.legal.mixedRadix hextents outer.iterator
  rw [hloops, List.map_cons, mem_box] at hindex
  obtain ⟨-, hrest⟩ := List.forall₂_cons.mp hindex
  rcases h.legal.parallelPlaced.inner_radix hradix hloops hparallel with ⟨-, hinner⟩ | ⟨-, hone, -⟩
  · have hvisit : pointAt inner rest ∈ visits inner origin := by
      rw [visits_origin]
      exact List.mem_map_of_mem (mem_tuples.mpr hrest)
    have hlt : pointAt inner rest outer.iterator < outer.stride := by
      simpa [origin] using lt_of_mem_visits hinner hvisit
    rw [hloops, pointAt_cons, move_self, Nat.add_mul_div_right _ _ (by omega),
      Nat.div_eq_of_lt hlt, Nat.zero_add]
  · omega

/-- Points with different indices of the parallel loop have different elements of the output. -/
theorem Valid.output_ne {t t' : Nat} {rest rest' : List Nat} (hne : t ≠ t')
    (hindex : t :: rest ∈ box (k.nest.loops.map (·.extent)))
    (hindex' : t' :: rest' ∈ box (k.nest.loops.map (·.extent))) :
    k.elementAt (t :: rest) ≠ k.elementAt (t' :: rest') := by
  have hmany : 1 < outer.extent := by
    rw [hloops, List.map_cons, mem_box, List.forall₂_cons] at hindex hindex'
    omega
  intro heq
  have hvalue := List.map_inj_left.mp heq _ (h.mem_output_of_parallel hloops hparallel)
  refine hne ?_
  rw [← h.parallel_index hextents hloops hparallel hmany hindex, hvalue,
    h.parallel_index hextents hloops hparallel hmany hindex']

/-- The slab of an iteration writes the elements of its points, and no others do. -/
theorem Valid.writes_iff (hmany : 1 < outer.extent) {t : Nat} {rest : List Nat}
    (hindex : t :: rest ∈ box (k.nest.loops.map (·.extent))) (u : Nat) :
    (k.slabs outer inner).Writes (k.shapeOf k.statement.output) u
      (Shape.position (k.shapeOf k.statement.output) (k.elementAt (t :: rest))) ↔ u = t := by
  have hquotient := h.parallel_index hextents hloops hparallel hmany hindex
  have hbelow := h.pointAt_lt hextents hindex
  unfold elementAt
  generalize pointAt k.nest.loops (t :: rest) = v at hquotient hbelow ⊢
  obtain ⟨pre, post, hindices, -, -, haxis, hslab⟩ := h.axis_split hloops hparallel
  have hpre : List.Forall₂ (· < ·) (pre.map v) (pre.map k.extentOf) :=
    Shape.forall₂_map fun i _ => hbelow i
  have hpost : List.Forall₂ (· < ·) (post.map v) (post.map k.extentOf) :=
    Shape.forall₂_map fun i _ => hbelow i
  have hstride : 0 < outer.stride := by
    have hradix := h.legal.mixedRadix hextents outer.iterator
    exact (hradix.level_bounds (by simp [Nest.loopsFor, hloops])).1
  have ht : t < outer.extent := by
    rw [hloops, List.map_cons, mem_box, List.forall₂_cons] at hindex
    exact hindex.1
  have hplace : Shape.position (pre.map k.extentOf ++ outer.stride :: post.map k.extentOf)
      (pre.map v ++ v outer.iterator % outer.stride :: post.map v) <
        Shape.size (k.slabs outer inner).slabShape := by
    rw [slabs, hslab]
    exact Shape.position_lt (List.rel_append hpre (.cons (Nat.mod_lt _ hstride) hpost))
  have hself : (k.slabs outer inner).Writes (k.shapeOf k.statement.output) t
      (Shape.position (k.shapeOf k.statement.output) (k.statement.output.indices.map v)) := by
    refine Plan.Split.writes_of_stitched ht hplace fun slabs => ?_
    have hstitched := Runnable.stitched_position hpre.length_eq hpost (hbelow outer.iterator)
      (k.slabs outer inner) haxis slabs
    have hchunk : (k.slabs outer inner).chunk = outer.stride := rfl
    rw [hchunk, hquotient] at hstitched
    simpa [shapeOf, hindices] using hstitched
  exact ⟨fun hwrites => hwrites.unique hself, fun heq => heq ▸ hself⟩

/-- Points with different indices of the parallel loop touch an element in common only to read
it. -/
theorem Valid.not_conflicts {t t' : Nat} {rest rest' : List Nat} (hne : t ≠ t')
    (hindex : t :: rest ∈ box (k.nest.loops.map (·.extent)))
    (hindex' : t' :: rest' ∈ box (k.nest.loops.map (·.extent))) {a b : Mlir.Touch}
    (ha : a ∈ k.touches (pointAt k.nest.loops (t :: rest)))
    (hb : b ∈ k.touches (pointAt k.nest.loops (t' :: rest'))) : ¬ a.Conflicts b := by
  rintro ⟨htensor, hsame, hwrites⟩
  obtain ⟨hwritten, houtput⟩ := h.touch_output ha
  obtain ⟨hwritten', houtput'⟩ := h.touch_output hb
  have hboth : a.tensor = k.statement.output.tensor := by
    rcases hwrites with hw | hw
    · exact hwritten hw
    · exact htensor.trans (hwritten' hw)
  refine h.output_ne hextents hloops hparallel hne hindex hindex' ?_
  rw [elementAt, elementAt, ← houtput hboth, ← houtput' (htensor ▸ hboth), hsame]

/-- No round of a parallel loop touches an element that another writes. -/
theorem Valid.rounds_disjoint : ((List.range outer.extent).map (k.round inner)).Pairwise
    fun round round' => ∀ a ∈ round, ∀ b ∈ round', ¬ a.Conflicts b := by
  have hindex : ∀ t ∈ List.range outer.extent, ∀ rest ∈ box (inner.map (·.extent)),
      t :: rest ∈ box (k.nest.loops.map (·.extent)) := by
    intro t ht rest hrest
    exact (mem_box_loops hloops).mpr ⟨t, rest, List.mem_range.mp ht, hrest, rfl⟩
  refine List.pairwise_map.mpr (List.nodup_range.imp_of_mem fun ht ht' hne a ha b hb => ?_)
  obtain ⟨rest, hrest, ha⟩ := mem_round.mp ha
  obtain ⟨rest', hrest', hb⟩ := mem_round.mp hb
  exact h.not_conflicts hextents hloops hparallel hne (hindex _ ht _ hrest) (hindex _ ht' _ hrest')
    ha hb

end Parallel

/-- Parallel loops are free of races. Points with different indices of a parallel loop have
different elements of the output. The rounds of the emitted loop touch what the statement names at
their points, and no element that a round writes is touched by another. The slabs of a plan write
different elements, and each writes the elements of its points. -/
theorem parallel_race_free {k : Kernel} (hvalid : k.validate = .ok ())
    (hextents : ∀ it ∈ k.iterators, it.extent < Word.largest) {p : Nat} {l : Loop}
    (hl : k.nest.loops[p]? = some l) (hparallel : l.parallel = true) :
    ∃ tensor, k.tensors[k.statement.output.tensor]? = some tensor ∧
    (∀ index ∈ box (k.nest.loops.map (·.extent)), ∀ index' ∈ box (k.nest.loops.map (·.extent)),
      index[p]? ≠ index'[p]? → k.elementAt index ≠ k.elementAt index' ∧
        Shape.position tensor.shape (k.elementAt index) ≠
          Shape.position tensor.shape (k.elementAt index')) ∧
    (∃ code rounds, Mlir.ops k = .ok code ∧ Mlir.run .empty code = some rounds.flatten ∧
      Mlir.parallelRounds .empty code = some rounds ∧ rounds.length = l.extent ∧
      (∀ t touch, (∃ round, rounds[t]? = some round ∧ touch ∈ round) ↔
        ∃ index ∈ box (k.nest.loops.map (·.extent)), index[p]? = some t ∧
          touch ∈ k.touches (pointAt k.nest.loops index)) ∧
      rounds.Pairwise fun round round' => ∀ a ∈ round, ∀ b ∈ round', ¬ a.Conflicts b) ∧
    ∀ plan, Plan.compile k = .ok plan → ∃ split, plan.split = some split ∧
      split.extent = l.extent ∧
      (∀ t t' c, split.Writes plan.outputShape t c → split.Writes plan.outputShape t' c → t = t') ∧
      (1 < l.extent → ∀ index ∈ box (k.nest.loops.map (·.extent)), ∀ t, index[p]? = some t →
        ∀ u, split.Writes plan.outputShape u (Shape.position tensor.shape (k.elementAt index)) ↔
          u = t) := by
  have h := valid_of_validate hvalid
  have hfits := extentOf_lt_of_forall hextents (by decide)
  obtain ⟨inner, hloops⟩ := h.legal.parallelPlaced.eq_cons (List.mem_of_getElem? hl) hparallel
  obtain rfl : p = 0 := (parallelPlaced_iff.mp h.legal.parallelPlaced p l hl hparallel).1
  obtain ⟨-, -, tensor, htensor, hshape⟩ := h.backed _ List.mem_cons_self
  refine ⟨tensor, htensor, ?_, ?_, ?_⟩
  · intro index hindex index' hindex' hne
    obtain ⟨t, rest, -, -, rfl⟩ := (mem_box_loops hloops).mp hindex
    obtain ⟨t', rest', -, -, rfl⟩ := (mem_box_loops hloops).mp hindex'
    have hdiffer := h.output_ne hfits hloops hparallel (by simpa using hne) hindex hindex'
    refine ⟨hdiffer, fun heq => hdiffer ?_⟩
    rw [hshape] at heq
    exact Shape.position_injective (h.index_lt hfits _ hindex) (h.index_lt hfits _ hindex') heq
  · obtain ⟨code, hcode⟩ := Mlir.exists_ops.mpr (operandsFound_of_validate hvalid)
    refine ⟨code, _, hcode, ?_, Mlir.parallelRounds_ops hcode hloops hparallel, by simp, ?_, ?_⟩
    · rw [Mlir.run_ops hcode, flatten_rounds hloops]
    · exact fun t touch => mem_rounds hloops
    · exact h.rounds_disjoint hfits hloops hparallel
  · intro plan hplan
    obtain ⟨-, rfl⟩ := plan_of_compile hplan
    refine ⟨k.slabs l inner, by simp [Kernel.plan, hloops, hparallel], rfl,
      fun t t' c ht ht' => ht.unique ht', fun hmany index hindex t ht u => ?_⟩
    obtain ⟨t, rest, -, -, rfl⟩ := (mem_box_loops hloops).mp hindex
    obtain rfl := Option.some.inj ht
    rw [hshape]
    exact h.writes_iff hfits hloops hparallel hmany hindex u

/-- Two rounds for a product in tiles, four rows of the output each. -/
theorem parallel_race_free_tuned :
    Draft.tuned.validate = .ok () ∧
    (∃ code first second, Mlir.ops Draft.tuned = .ok code ∧
      Mlir.parallelRounds .empty code = some [first, second] ∧
      (∀ a ∈ first, ∀ b ∈ second, ¬ a.Conflicts b) ∧ ⟨true, 2, [7, 5]⟩ ∈ second) ∧
    ∃ plan split, Plan.compile Draft.tuned = .ok plan ∧ plan.split = some split ∧
      ∀ u, split.Writes plan.outputShape u (Shape.position [8, 8] [7, 5]) ↔ u = 1 := by
  have hvalid : Draft.tuned.validate = .ok () := by
    cbv
  have hplan : Plan.compile Draft.tuned = .ok Draft.tuned.plan := by
    cbv
  have hindex : [1, 3, 5, 3, 1] ∈ box (Draft.tuned.nest.loops.map (·.extent)) := by
    simp [mem_box, Draft.tuned]
  obtain ⟨_, htensor, -, ⟨code, rounds, hcode, -, hrounds, hlength, hmem, hdisjoint⟩, hslabs⟩ :=
    parallel_race_free hvalid (by decide) (p := 0) rfl rfl
  cases htensor
  obtain ⟨first, second, rfl⟩ := List.length_eq_two.mp hlength
  refine ⟨hvalid, ⟨code, first, second, hcode, hrounds, ?_, ?_⟩, ?_⟩
  · simpa using hdisjoint
  · obtain ⟨round, hround, htouch⟩ := (hmem 1 ⟨true, 2, [7, 5]⟩).mpr
      ⟨_, hindex, rfl, List.mem_append_right _ List.mem_cons_self⟩
    cases hround
    exact htouch
  · obtain ⟨split, hsplit, -, -, hwrites⟩ := hslabs _ hplan
    exact ⟨_, split, hplan, hsplit, hwrites (by decide) _ hindex 1 rfl⟩

end Kernel

end NestTuner
