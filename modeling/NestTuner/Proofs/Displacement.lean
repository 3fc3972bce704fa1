import NestTuner.Proofs.Editing

/-!
Which accepted edits keep a nest legal. All of them do, but for the tiling of a loop that steps by
as much as the parallel loop of its iterator. The parallel loop then has a single value, and the
loop over tiles comes to lie above it. A nest in which no loop of a single value shares the
outermost level of an iterator with a longer loop never gets there, and edits keep it that way.
-/

namespace NestTuner

namespace Kernel

theorem Legal.decomposed {k : Kernel} (h : k.Legal) (hfits : ∀ i, k.extentOf i < Word.largest) :
    k.Decomposed where
  bound := h.bound
  present := by
    intro i hi
    have hne := (h.covered i _ (List.getElem?_eq_getElem hi)).1
    obtain ⟨l, hl⟩ := List.exists_mem_of_ne_nil _ hne
    obtain ⟨hmem, hiterator⟩ := List.mem_filter.mp hl
    exact ⟨l, hmem, by simpa using hiterator⟩
  radix := h.mixedRadix hfits

/-- A tiling of a loop that steps by as much as the parallel loop of its iterator. -/
def Displaces (k : Kernel) : Edit → Prop
  | .tile i _ => ∃ l, k.nest.loops[i]? = some l ∧ ∃ first ∈ k.nest.loops,
      first.parallel = true ∧ first.iterator = l.iterator ∧ first.stride = l.stride
  | _ => False

/-- An accepted edit leaves the loops of every iterator in mixed radix. -/
theorem Decomposed.accepts {k : Kernel} (h : k.Decomposed) {e : Edit} {loops : List Loop}
    (haccepts : k.Accepts e loops) : { k with nest := ⟨loops⟩ }.Decomposed := by
  cases haccepts with
  | tile hloops hparallel hvector htwo hlt hdvd hfits =>
    exact h.splice _ hloops (by simp) (by simp) (tower_tiled htwo hlt hdvd) rfl
  | interchange hperm hchanged hparallel hvector => exact h.perm (Nest.permuted_perm hperm)
  | @parallelize after l it hloops hfirst hvector hit hkind houter =>
    have hcut : k.nest.loops = [] ++ l :: after := hloops
    have hpos := (h.level_bounds (l := l) (by simp [hloops])).2.1
    exact h.splice [{ l with parallel := true }] hcut (by simp) (by simp) ⟨rfl, hpos, rfl⟩ rfl
  | @vectorize before l width hloops hfirst hparallel hpoint hwidth htwo hle hdvd =>
    have hpos := (h.level_bounds (l := l) (by simp [hloops])).2.1
    exact h.splice [{ l with vectorWidth := some width }] hloops (by simp) (by simp)
      ⟨rfl, hpos, rfl⟩ (by simp)

/-- An accepted edit leaves the vector mark in place. -/
theorem VectorPlaced.accepts {k : Kernel} (h : k.VectorPlaced) {e : Edit} {loops : List Loop}
    (haccepts : k.Accepts e loops) : { k with nest := ⟨loops⟩ }.VectorPlaced := by
  cases haccepts with
  | tile hloops hparallel hvector htwo hlt hdvd hfits => exact h.splice _ hloops (by simp [hvector])
  | interchange hperm hchanged hparallel hvector => exact h.permuted hperm hvector
  | @parallelize after l it hloops hfirst hvector hit hkind houter =>
    have hcut : k.nest.loops = [] ++ l :: after := hloops
    exact h.splice [{ l with parallel := true }] hcut (by simp [hvector])
  | vectorize hloops hfirst hparallel hpoint hwidth htwo hle hdvd =>
    exact vectorPlaced_marked hloops hfirst hparallel hwidth hdvd

/-- A loop over tiles stays below a parallel loop of larger stride. -/
theorem ParallelPlaced.tile {k : Kernel} (h : k.ParallelPlaced) (hradix : k.Decomposed)
    {before after : List Loop} {l : Loop} {size : Nat}
    (hloops : k.nest.loops = before ++ l :: after) (hparallel : l.parallel = false)
    (hlt : size < l.extent) (hkeeps : ¬k.Displaces (.tile before.length size)) :
    { k with nest := ⟨before ++ [{ l with extent := l.extent / size, stride := l.stride * size },
      { l with extent := size }] ++ after⟩ }.ParallelPlaced := by
  have hl : l ∈ k.nest.loops := by simp [hloops]
  refine h.splice _ hloops (by simp [hparallel]) ?_
  intro first hfirst hmarked m hm hiterator
  have hmem : first ∈ k.nest.loops := by simp [hloops, hfirst]
  have hm' : m.iterator = l.iterator ∧ (m.stride = l.stride * size ∨ m.stride = l.stride) := by
    rcases List.mem_pair.mp hm with rfl | rfl <;> simp
  have hsame : first.iterator = l.iterator := hiterator.symm.trans hm'.1
  have hle := h.outermost hmem hmarked hl hsame.symm
  have hne : l.stride ≠ first.stride := by
    intro htie
    exact hkeeps ⟨l, by simp [hloops], first, hmem, hmarked, hsame, htie.symm⟩
  have habove := hradix.mul_le_of_lt hl hmem hsame.symm (by omega)
  have hsize : l.stride * size ≤ l.stride * l.extent := Nat.mul_le_mul_left _ hlt.le
  omega

/-- Edits that displace nothing leave the parallel mark in place. -/
theorem ParallelPlaced.accepts {k : Kernel} (h : k.ParallelPlaced) (hradix : k.Decomposed)
    {e : Edit} {loops : List Loop} (haccepts : k.Accepts e loops) (hkeeps : ¬k.Displaces e) :
    { k with nest := ⟨loops⟩ }.ParallelPlaced := by
  cases haccepts with
  | tile hloops hparallel hvector htwo hlt hdvd hfits =>
    exact h.tile hradix hloops hparallel hlt hkeeps
  | interchange hperm hchanged hparallel hvector => exact h.permuted hperm hparallel
  | parallelize hloops hfirst hvector hit hkind houter =>
    exact parallelPlaced_marked hloops hfirst hit hkind houter
  | vectorize hloops hfirst hparallel hpoint hwidth htwo hle hdvd =>
    exact h.vectorized hloops hparallel _

/-- A tiling that ties with the parallel loop puts the loop over tiles above it. -/
theorem Displaces.not_parallelPlaced {k : Kernel} (hradix : k.Decomposed) {e : Edit}
    {loops : List Loop} (haccepts : k.Accepts e loops) (h : k.Displaces e) :
    ¬{ k with nest := ⟨loops⟩ }.ParallelPlaced := by
  cases haccepts with
  | @tile before after l size hloops hparallel hvector htwo hlt hdvd hfits =>
    obtain ⟨m, hm, first, hfirst, hmarked, hiterator, hstride⟩ := h
    obtain rfl : l = m := by simpa [hloops] using hm
    intro hplaced
    have hpos := (hradix.level_bounds (l := l) (by simp [hloops])).1
    have hother : first ∈ before ∨ first ∈ after := by
      simp only [hloops, List.mem_append, List.mem_cons] at hfirst
      rcases hfirst with hfirst | rfl | hfirst
      · exact Or.inl hfirst
      · simp [hparallel] at hmarked
      · exact Or.inr hfirst
    have houter : { l with extent := l.extent / size, stride := l.stride * size } ∈ before ++
        [{ l with extent := l.extent / size, stride := l.stride * size },
          { l with extent := size }] ++ after := by simp
    have hle : l.stride * size ≤ first.stride :=
      hplaced.outermost (by simp only [List.mem_append]; tauto) hmarked houter hiterator.symm
    have hgrow : l.stride * 1 < l.stride * size := Nat.mul_lt_mul_of_pos_left htwo hpos
    omega
  | interchange => exact h.elim
  | parallelize => exact h.elim
  | vectorize => exact h.elim

/-- An edit that a legal nest accepts gives a legal nest exactly if it displaces nothing. -/
theorem Legal.accepts_iff {k : Kernel} (h : k.Legal) (hfits : ∀ i, k.extentOf i < Word.largest)
    {e : Edit} {loops : List Loop} (haccepts : k.Accepts e loops) :
    { k with nest := ⟨loops⟩ }.Legal ↔ ¬k.Displaces e := by
  have hradix := h.decomposed hfits
  constructor
  · intro hlegal hdisplaces
    exact hdisplaces.not_parallelPlaced hradix haccepts hlegal.parallelPlaced
  · intro hkeeps
    refine (hradix.accepts haccepts).legal (fun i => ?_)
      (h.parallelPlaced.accepts hradix haccepts hkeeps) (h.vectorPlaced.accepts haccepts)
    have hlt := hfits i
    have hword : Word.largest < Word.count := by decide
    exact hlt.trans hword

/-- No loop of a single value shares the outermost level of an iterator that indexes the output with
a longer loop. -/
def TopUntied (k : Kernel) : Prop :=
  ∀ a ∈ k.nest.loops, ∀ b ∈ k.nest.loops, b.iterator = a.iterator → b.stride = a.stride →
    a.extent = 1 → (∀ other ∈ k.nest.loops, other.iterator = a.iterator → other.stride ≤ a.stride) →
      (∀ it, k.iterators[a.iterator]? = some it → it.kind = .parallel) → b.extent = 1

theorem topUntied_of_forall {k : Kernel} (h : ∀ l ∈ k.nest.loops, l.extent ≠ 1) : k.TopUntied :=
  fun a ha _ _ _ _ hone => absurd hone (h a ha)

/-- On such a nest an accepted edit displaces nothing: of two loops that tie, the longer one is
tiled, so the parallel one has a single value. -/
theorem TopUntied.not_displaces {k : Kernel} (h : k.TopUntied) (hradix : k.Decomposed)
    (hplaced : k.ParallelPlaced) {e : Edit} {loops : List Loop} (haccepts : k.Accepts e loops) :
    ¬k.Displaces e := by
  cases haccepts with
  | @tile before after l size hloops hparallel hvector htwo hlt hdvd hfits =>
    intro hdisplaces
    obtain ⟨m, hm, first, hfirst, hmarked, hiterator, hstride⟩ := hdisplaces
    obtain rfl : l = m := by simpa [hloops] using hm
    have hl : l ∈ k.nest.loops := by simp [hloops]
    have hradix' := hradix.radix l.iterator
    simp only [Nest.loopsFor, hloops, List.filter_append, List.filter_cons, BEq.rfl, if_true]
      at hradix'
    have hother : first ∈ before.filter (·.iterator == l.iterator) ++
        after.filter (·.iterator == l.iterator) := by
      simp only [hloops, List.mem_append, List.mem_cons] at hfirst
      simp only [List.mem_append, List.mem_filter, hiterator, BEq.rfl, and_true]
      rcases hfirst with hfirst | rfl | hfirst
      · exact Or.inl hfirst
      · simp [hparallel] at hmarked
      · exact Or.inr hfirst
    have hone : first.extent = 1 := by
      rcases hradix'.tie hother hstride with hone | hone
      · omega
      · exact hone
    obtain ⟨inner, hcons⟩ := hplaced.eq_cons hfirst hmarked
    obtain ⟨houter, hkind⟩ := hplaced.2 first (by simp [hcons]) hmarked
    have := h first hfirst l hl hiterator.symm hstride.symm hone houter hkind
    omega
  | interchange => exact id
  | parallelize => exact id
  | vectorize => exact id

/-- Only the iterators, extents and strides of the loops matter. -/
theorem TopUntied.of_levels {k : Kernel} (h : k.TopUntied) {nest : Nest}
    (hold : ∀ m ∈ nest.loops, ∃ l ∈ k.nest.loops,
      l.iterator = m.iterator ∧ l.extent = m.extent ∧ l.stride = m.stride)
    (hnew : ∀ l ∈ k.nest.loops, ∃ m ∈ nest.loops,
      l.iterator = m.iterator ∧ l.extent = m.extent ∧ l.stride = m.stride) :
    { k with nest := nest }.TopUntied := by
  intro a ha b hb hiterator hstride hone houter hkind
  obtain ⟨a', ha', hai, hae, has⟩ := hold a ha
  obtain ⟨b', hb', hbi, hbe, hbs⟩ := hold b hb
  rw [← hbe]
  refine h a' ha' b' hb' (by rw [hbi, hai, hiterator]) (by rw [hbs, has, hstride])
    (by rw [hae, hone]) ?_ (by rw [hai]; exact hkind)
  intro other hother hsame
  obtain ⟨m, hm, hmi, -, hms⟩ := hnew other hother
  rw [hms, has]
  exact houter m hm (by rw [← hmi, hsame, hai])

/-- A loop may change its marks. -/
theorem TopUntied.remark {k : Kernel} (h : k.TopUntied) {before after : List Loop} {l m : Loop}
    (hloops : k.nest.loops = before ++ l :: after) (hiterator : l.iterator = m.iterator)
    (hextent : l.extent = m.extent) (hstride : l.stride = m.stride) :
    { k with nest := ⟨before ++ m :: after⟩ }.TopUntied := by
  refine h.of_levels (fun a ha => ?_) (fun a ha => ?_)
  · rcases List.mem_append.mp ha with hbefore | hrest
    · exact ⟨a, by simp [hloops, hbefore], rfl, rfl, rfl⟩
    · rcases List.mem_cons.mp hrest with rfl | hafter
      · exact ⟨l, by simp [hloops], hiterator, hextent, hstride⟩
      · exact ⟨a, by simp [hloops, hafter], rfl, rfl, rfl⟩
  · rcases List.mem_append.mp (hloops ▸ ha) with hbefore | hrest
    · exact ⟨a, by simp [hbefore], rfl, rfl, rfl⟩
    · rcases List.mem_cons.mp hrest with rfl | hafter
      · exact ⟨m, by simp, hiterator, hextent, hstride⟩
      · exact ⟨a, by simp [hafter], rfl, rfl, rfl⟩

/-- A tiling makes no loop of a single value, and its loop over tiles ties with no other loop. -/
theorem TopUntied.tile {k : Kernel} (h : k.TopUntied) (hradix : k.Decomposed)
    {before after : List Loop} {l : Loop} {size : Nat}
    (hloops : k.nest.loops = before ++ l :: after) (htwo : 2 ≤ size) (hlt : size < l.extent)
    (hdvd : size ∣ l.extent) :
    { k with nest := ⟨before ++ [{ l with extent := l.extent / size, stride := l.stride * size },
      { l with extent := size }] ++ after⟩ }.TopUntied := by
  have hl : l ∈ k.nest.loops := by simp [hloops]
  have hpos := (hradix.level_bounds hl).1
  have hsize : l.stride * size < l.stride * l.extent := Nat.mul_lt_mul_of_pos_left hlt hpos
  have hgrow : l.stride * 1 < l.stride * size := Nat.mul_lt_mul_of_pos_left htwo hpos
  have hdiv : l.extent / size ≠ 1 := by
    intro hone
    have := Nat.div_mul_cancel hdvd
    rw [hone, Nat.one_mul] at this
    omega
  have hmem : ∀ m, m ∈ before ∨ m ∈ after → m ∈ k.nest.loops := by
    intro m hm
    simp only [hloops, List.mem_append, List.mem_cons]
    tauto
  intro a ha b hb hiterator hstride hone houter hkind
  simp only [List.mem_append, List.mem_cons, List.not_mem_nil, or_false] at ha hb houter
  have hold : a ∈ before ∨ a ∈ after := by
    rcases ha with (ha | rfl | rfl) | ha
    · exact Or.inl ha
    · exact absurd hone hdiv
    · exact absurd hone (by simp; omega)
    · exact Or.inr ha
  -- a loop of the same iterator is below the loop over tiles or above all that was tiled
  have habove : l.iterator = a.iterator → l.stride * l.extent ≤ a.stride := by
    intro hsame
    have hle : l.stride * size ≤ a.stride :=
      houter { l with extent := l.extent / size, stride := l.stride * size }
        (Or.inl (Or.inr (Or.inl rfl))) hsame
    exact hradix.mul_le_of_lt hl (hmem a hold) hsame (by omega)
  have hb' : b ∈ before ∨ b ∈ after := by
    rcases hb with (hb | rfl | rfl) | hb
    · exact Or.inl hb
    · have := habove hiterator
      simp only at hstride
      omega
    · have := habove hiterator
      simp only at hstride
      omega
    · exact Or.inr hb
  refine h a (hmem a hold) b (hmem b hb') hiterator hstride hone ?_ hkind
  intro other hother hsame
  simp only [hloops, List.mem_append, List.mem_cons] at hother
  rcases hother with hother | rfl | hother
  · exact houter other (Or.inl (Or.inl hother)) hsame
  · have := habove hsame
    omega
  · exact houter other (Or.inr hother) hsame

theorem TopUntied.accepts {k : Kernel} (h : k.TopUntied) (hradix : k.Decomposed) {e : Edit}
    {loops : List Loop} (haccepts : k.Accepts e loops) : { k with nest := ⟨loops⟩ }.TopUntied := by
  cases haccepts with
  | tile hloops hparallel hvector htwo hlt hdvd hfits => exact h.tile hradix hloops htwo hlt hdvd
  | interchange hperm hchanged hparallel hvector =>
    have hmem := fun l => (Nest.permuted_perm hperm).mem_iff (a := l)
    exact h.of_levels (fun m hm => ⟨m, (hmem m).mp hm, rfl, rfl, rfl⟩)
      (fun l hl => ⟨l, (hmem l).mpr hl, rfl, rfl, rfl⟩)
  | @parallelize after l it hloops hfirst hvector hit hkind houter =>
    have hcut : k.nest.loops = [] ++ l :: after := hloops
    exact h.remark hcut rfl rfl rfl
  | vectorize hloops hfirst hparallel hpoint hwidth htwo hle hdvd =>
    exact h.remark hloops rfl rfl rfl

/-- What an edit keeps of a legal nest whose outermost levels are free of ties. -/
theorem Legal.apply {k k' : Kernel} (h : k.Legal) (hfits : ∀ i, k.extentOf i < Word.largest)
    (huntied : k.TopUntied) {e : Edit} (he : k.apply e = .ok k') :
    k'.Legal ∧ k'.TopUntied ∧ ∃ nest, k' = { k with nest := nest } := by
  obtain ⟨loops, haccepts, rfl⟩ := accepts_of_apply he
  have hradix := h.decomposed hfits
  have hkeeps := huntied.not_displaces hradix h.parallelPlaced haccepts
  exact ⟨(h.accepts_iff hfits haccepts).mpr hkeeps, huntied.accepts hradix haccepts, _, rfl⟩

end Kernel

end NestTuner
