import NestTuner.Proofs.Displacement

/-!
What makes a nest illegal for good. An accepted edit keeps what the loops of an iterator cover, also
where the check cuts its products off at the largest word. So an edit of a legal nest can only lose
legality by lifting a loop above the parallel loop of its iterator, and no later edit brings that
loop down again.
-/

namespace NestTuner

namespace Nest

/-- From the largest word on, the order of the levels does not matter. -/
theorem coveredFrom_largest {levels : List (Nat × Nat)}
    (h : ∀ level ∈ levels, level.1 = Word.largest ∧ level.2 ≠ 0) :
    coveredFrom Word.largest levels = some Word.largest := by
  induction levels with
  | nil => rfl
  | cons first rest ih =>
    obtain ⟨hstride, he⟩ := h first (List.mem_cons_self ..)
    have hfull : Word.saturatingMul Word.largest first.2 = Word.largest :=
      Nat.le_antisymm (Word.saturatingMul_le ..)
        (Word.le_saturatingMul (Nat.le_refl _) (Nat.pos_of_ne_zero he))
    refine coveredFrom_cons.mpr ⟨hstride, he, ?_⟩
    rw [hfull]
    exact ih fun level hlevel => h level (List.mem_cons_of_mem _ hlevel)

/-- Levels that cover an extent in some order cover it in the order of the check. -/
theorem coveredFrom_of_perm {xs ys : List (Nat × Nat)} {s extent : Nat} (hpos : 0 < s)
    (hs : s ≤ Word.largest) (hperm : xs.Perm ys)
    (hsorted : xs.Pairwise fun a b => a.1 < b.1 ∨ a.1 = b.1 ∧ a.2 ≤ b.2)
    (h : coveredFrom s ys = some extent) : coveredFrom s xs = some extent := by
  induction ys generalizing xs s with
  | nil => rwa [hperm.eq_nil]
  | cons level ys ih =>
    obtain ⟨stride, e⟩ := level
    have hbounds : ∀ level ∈ (stride, e) :: ys,
        s ≤ level.1 ∧ level.1 ≤ Word.largest ∧ level.2 ≠ 0 :=
      fun _ hlevel => bounds_of_coveredFrom hs h hlevel
    obtain ⟨rfl, he, hrest⟩ := coveredFrom_cons.mp h
    by_cases hfull : stride = Word.largest
    · subst hfull
      have hall : ∀ level ∈ (Word.largest, e) :: ys, level.1 = Word.largest ∧ level.2 ≠ 0 :=
        fun level hlevel => ⟨Nat.le_antisymm (hbounds level hlevel).2.1 (hbounds level hlevel).1,
          (hbounds level hlevel).2.2⟩
      rw [coveredFrom_largest fun level hlevel => hall level (hperm.mem_iff.mp hlevel), ← h,
        coveredFrom_largest hall]
    · obtain ⟨x, xs, rfl⟩ := List.exists_cons_of_ne_nil (List.ne_nil_of_mem
        (hperm.mem_iff.mpr (List.mem_cons_self ..)))
      obtain ⟨hfirst, hsorted'⟩ := List.pairwise_cons.mp hsorted
      have hgrow := Word.le_saturatingMul hs (Nat.pos_of_ne_zero he)
      -- A level that comes first in both orders, or ties with the one that does and is then equal.
      have hx : x = (stride, e) := by
        rcases List.mem_cons.mp (hperm.mem_iff.mp (List.mem_cons_self ..)) with hx | hx
        · exact hx
        · rcases List.mem_cons.mp (hperm.mem_iff.mpr (List.mem_cons_self ..)) with hx' | hx'
          · exact hx'.symm
          · have hle := hfirst _ hx'
            obtain ⟨habove, -, hne⟩ := bounds_of_coveredFrom (Word.saturatingMul_le ..) hrest hx
            have hmul : Word.saturatingMul stride e = stride * 1 := by omega
            have hone : e = 1 := by
              unfold Word.saturatingMul at hmul
              split at hmul
              · exact Nat.eq_of_mul_eq_mul_left hpos hmul
              · omega
            exact Prod.ext (by simp only at *; omega) (by simp only at *; omega)
      subst hx
      refine coveredFrom_cons.mpr ⟨rfl, he, ?_⟩
      exact ih (hpos.trans_le hgrow) (Word.saturatingMul_le ..) hperm.cons_inv hsorted' hrest

/-- A tile and the loop over tiles cover what the loop they came from covers. -/
theorem coveredFrom_tiled {below above : List (Nat × Nat)} {s stride e size extent : Nat}
    (hpos : 0 < size) (hle : size ≤ e) (hdvd : size ∣ e) (hfits : stride * size < Word.count)
    (h : coveredFrom s (below ++ (stride, e) :: above) = some extent) :
    coveredFrom s (below ++ (stride, size) :: (stride * size, e / size) :: above) =
      some extent := by
  induction below generalizing s with
  | nil =>
    obtain ⟨rfl, -, hrest⟩ := coveredFrom_cons.mp h
    have hdiv : 0 < e / size := Nat.div_pos hle hpos
    refine coveredFrom_cons.mpr ⟨rfl, by omega, coveredFrom_cons.mpr ⟨?_, by omega, ?_⟩⟩
    · rw [Word.saturatingMul_of_lt hfits]
    · rw [Word.saturatingMul_of_lt hfits, Word.saturatingMul, Nat.mul_assoc,
        Nat.mul_div_cancel' hdvd]
      exact hrest
  | cons level below ih =>
    obtain ⟨stride', he, hrest⟩ := coveredFrom_cons.mp h
    exact coveredFrom_cons.mpr ⟨stride', he, ih hrest⟩

theorem levels_perm (n : Nest) (i : Nat) :
    (n.levels i).Perm ((n.loopsFor i).map Loop.level) :=
  List.mergeSort_perm ..

/-- Only the levels of the loops matter, in any order that covers. -/
theorem covered_of_perm {n : Nest} {i extent : Nat} {levels : List (Nat × Nat)}
    (hperm : ((n.loopsFor i).map Loop.level).Perm levels)
    (h : coveredFrom 1 levels = some extent) : n.covered i = some extent :=
  coveredFrom_of_perm Nat.one_pos (by decide) ((n.levels_perm i).trans hperm) (n.levels_sorted i) h

theorem covered_of_levels {n n' : Nest} {i extent : Nat}
    (hperm : ((n'.loopsFor i).map Loop.level).Perm ((n.loopsFor i).map Loop.level))
    (h : n.covered i = some extent) : n'.covered i = some extent :=
  covered_of_perm (hperm.trans (n.levels_perm i).symm) h

theorem covered_tiled {n : Nest} {before after : List Loop} {l : Loop} {size i extent : Nat}
    (hloops : n.loops = before ++ l :: after) (htwo : 2 ≤ size) (hlt : size < l.extent)
    (hdvd : size ∣ l.extent) (hfits : l.stride * size < Word.count)
    (h : n.covered i = some extent) :
    Nest.covered ⟨before ++ [{ l with extent := l.extent / size, stride := l.stride * size },
      { l with extent := size }] ++ after⟩ i = some extent := by
  by_cases hi : l.iterator = i
  · have hlevels := n.levels_perm i
    simp only [loopsFor, hloops, List.filter_append, List.filter_cons, hi, BEq.rfl, if_true,
      List.map_append, List.map_cons] at hlevels
    obtain ⟨below, above, hcut⟩ := List.append_of_mem
      (hlevels.mem_iff.mpr (List.mem_append_right _ (List.mem_cons_self ..)))
    rw [covered, hcut] at h
    refine covered_of_perm ?_ (coveredFrom_tiled (by omega) hlt.le hdvd hfits h)
    rw [hcut] at hlevels
    simp only [loopsFor, List.filter_append, List.filter_cons, hi, BEq.rfl, if_true,
      List.filter_nil, List.map_append, List.map_cons, List.map_nil]
    refine List.perm_iff_count.mpr fun level => ?_
    have hcount := List.perm_iff_count.mp hlevels level
    simp only [List.count_append, List.count_cons, List.count_nil, Loop.level] at hcount ⊢
    omega
  · refine covered_of_levels (List.Perm.of_eq ?_) h
    simp [loopsFor, hloops, List.filter_append, hi]

end Nest

namespace Kernel

/-- A loop may change its marks. -/
theorem covered_remarked {n : Nest} {before after : List Loop} {l m : Loop} {i extent : Nat}
    (hloops : n.loops = before ++ l :: after) (hiterator : m.iterator = l.iterator)
    (hlevel : m.level = l.level) (h : n.covered i = some extent) :
    Nest.covered ⟨before ++ m :: after⟩ i = some extent := by
  refine Nest.covered_of_levels (List.Perm.of_eq ?_) h
  by_cases hi : l.iterator = i <;>
    simp [Nest.loopsFor, hloops, List.filter_append, hiterator, hlevel, hi]

/-- Accepted edits keep what the loops of an iterator cover. -/
theorem Accepts.covered {k : Kernel} {e : Edit} {loops : List Loop} (h : k.Accepts e loops)
    {i extent : Nat} (hcovered : k.nest.covered i = some extent) :
    Nest.covered ⟨loops⟩ i = some extent := by
  cases h with
  | tile hloops hparallel hvector htwo hlt hdvd hfits =>
    exact Nest.covered_tiled hloops htwo hlt hdvd hfits hcovered
  | interchange hperm hchanged hparallel hvector =>
    exact Nest.covered_of_levels (((Nest.permuted_perm hperm).filter _).map _) hcovered
  | @parallelize after l it hloops hfirst hvector hit hkind houter =>
    have hcut : k.nest.loops = [] ++ l :: after := hloops
    exact covered_remarked hcut rfl rfl hcovered
  | vectorize hloops hfirst hparallel hpoint hwidth htwo hle hdvd =>
    exact covered_remarked hloops rfl rfl hcovered

/-- Accepted edits keep the iterators that have loops. -/
theorem Accepts.exists_iterator_iff {k : Kernel} {e : Edit} {loops : List Loop}
    (h : k.Accepts e loops) (i : Nat) :
    (∃ m ∈ loops, m.iterator = i) ↔ ∃ l ∈ k.nest.loops, l.iterator = i := by
  cases h with
  | tile hloops hparallel hvector htwo hlt hdvd hfits =>
    simp only [hloops, List.mem_append, List.mem_cons, List.not_mem_nil, or_false]
    grind
  | interchange hperm hchanged hparallel hvector =>
    simp only [(Nest.permuted_perm hperm).mem_iff]
  | parallelize hloops hfirst hvector hit hkind houter => simp [hloops]
  | vectorize hloops hfirst hparallel hpoint hwidth htwo hle hdvd =>
    simp [hloops, or_and_right, exists_or]

/-- A loop lies above the parallel loop of its iterator. -/
def Displaced (k : Kernel) : Prop :=
  ∃ first ∈ k.nest.loops, first.parallel = true ∧
    ∃ other ∈ k.nest.loops, other.iterator = first.iterator ∧ first.stride < other.stride

theorem Displaced.not_legal {k : Kernel} (h : k.Displaced) : ¬k.Legal := by
  obtain ⟨first, hfirst, hmarked, other, hother, hiterator, hlt⟩ := h
  intro hlegal
  have hle := hlegal.parallelPlaced.outermost hfirst hmarked hother hiterator
  omega

/-- No accepted edit brings the loop down again. -/
theorem Displaced.accepts {k : Kernel} (h : k.Displaced) {e : Edit} {loops : List Loop}
    (haccepts : k.Accepts e loops) : { k with nest := ⟨loops⟩ }.Displaced := by
  obtain ⟨first, hfirst, hmarked, other, hother, hiterator, hlt⟩ := h
  cases haccepts with
  | @tile before after l size hloops hparallel hvector htwo hle hdvd hfits =>
    simp only [hloops, List.mem_append, List.mem_cons] at hfirst hother
    have hstays : ∀ m, m ∈ before ∨ m = l ∨ m ∈ after → m ≠ l → m ∈ before ++
        [{ l with extent := l.extent / size, stride := l.stride * size },
          { l with extent := size }] ++ after := by
      intro m hm hne
      rcases hm with hm | hm | hm
      · simp [hm]
      · exact absurd hm hne
      · simp [hm]
    have hne : first ≠ l := by
      rintro rfl
      simp [hparallel] at hmarked
    refine ⟨first, hstays first hfirst hne, hmarked, ?_⟩
    by_cases hl : other = l
    · subst hl
      have hgrow : other.stride * 1 ≤ other.stride * size := Nat.mul_le_mul_left _ (by omega)
      exact ⟨_, List.mem_append_left _ (List.mem_append_right _ (List.mem_cons_self ..)), hiterator,
        by simp only; omega⟩
    · exact ⟨other, hstays other hother hl, hiterator, hlt⟩
  | interchange hperm hchanged hparallel hvector =>
    have hmem := fun l => (Nest.permuted_perm hperm).mem_iff (a := l)
    exact ⟨first, (hmem first).mpr hfirst, hmarked, other, (hmem other).mpr hother, hiterator, hlt⟩
  | parallelize hloops hunmarked hvector hit hkind houter =>
    simp [hunmarked first hfirst] at hmarked
  | @vectorize before l width hloops hunmarked hparallel hpoint hwidth htwo hle hdvd =>
    simp only [hloops, List.mem_append, List.mem_singleton] at hfirst hother
    have hbefore : first ∈ before := by
      rcases hfirst with hfirst | rfl
      · exact hfirst
      · simp [hparallel] at hmarked
    refine ⟨first, List.mem_append_left _ hbefore, hmarked, ?_⟩
    rcases hother with hother | rfl
    · exact ⟨other, List.mem_append_left _ hother, hiterator, hlt⟩
    · exact ⟨_, List.mem_append_right _ (List.mem_cons_self ..), hiterator, hlt⟩

/-- The parallel mark stays in place unless a loop is lifted above it. -/
theorem ParallelPlaced.accepts_of_not_displaced {k : Kernel} (h : k.ParallelPlaced) {e : Edit}
    {loops : List Loop} (haccepts : k.Accepts e loops)
    (hkeeps : ¬{ k with nest := ⟨loops⟩ }.Displaced) :
    { k with nest := ⟨loops⟩ }.ParallelPlaced := by
  cases haccepts with
  | tile hloops hparallel hvector htwo hlt hdvd hfits =>
    refine h.splice _ hloops (by simp [hparallel]) ?_
    intro first hfirst hmarked m hm hiterator
    by_contra hlt
    refine hkeeps ⟨first, ?_, hmarked, m, ?_, hiterator, Nat.lt_of_not_le hlt⟩
    · exact List.mem_append_left _ (List.mem_append_left _ hfirst)
    · exact List.mem_append_left _ (List.mem_append_right _ hm)
  | interchange hperm hchanged hparallel hvector => exact h.permuted hperm hparallel
  | parallelize hloops hfirst hvector hit hkind houter =>
    exact parallelPlaced_marked hloops hfirst hit hkind houter
  | vectorize hloops hfirst hparallel hpoint hwidth htwo hle hdvd =>
    exact h.vectorized hloops hparallel _

/-- An edit that a legal nest accepts leaves it legal, or illegal for good. -/
theorem Legal.accepts {k : Kernel} (h : k.Legal) {e : Edit} {loops : List Loop}
    (haccepts : k.Accepts e loops) :
    { k with nest := ⟨loops⟩ }.Legal ∨ { k with nest := ⟨loops⟩ }.Displaced := by
  by_cases hdisplaced : { k with nest := ⟨loops⟩ }.Displaced
  · exact Or.inr hdisplaced
  · refine Or.inl ⟨?_, ?_, h.parallelPlaced.accepts_of_not_displaced haccepts hdisplaced,
      h.vectorPlaced.accepts haccepts⟩
    · intro m hm
      obtain ⟨l, hl, hiterator⟩ := (haccepts.exists_iterator_iff m.iterator).mp ⟨m, hm, rfl⟩
      rw [← hiterator]
      exact h.bound l hl
    · intro i it hit
      obtain ⟨hne, hcovered⟩ := h.covered i it hit
      refine ⟨?_, haccepts.covered hcovered⟩
      obtain ⟨l, hl⟩ := List.exists_mem_of_ne_nil _ hne
      obtain ⟨hmem, hiterator⟩ := List.mem_filter.mp hl
      obtain ⟨m, hm, hsame⟩ :=
        (haccepts.exists_iterator_iff i).mpr ⟨l, hmem, by simpa using hiterator⟩
      exact List.ne_nil_of_mem (List.mem_filter.mpr ⟨hm, by simpa using hsame⟩)

/-- What is legal after an accepted edit was legal before it, if it was so once. -/
theorem Legal.or_displaced_apply {k k' : Kernel} (h : k.Legal ∨ k.Displaced) {e : Edit}
    (he : k.apply e = .ok k') : (k'.Legal ∨ k'.Displaced) ∧ (k'.Legal → k.Legal) := by
  obtain ⟨loops, haccepts, rfl⟩ := accepts_of_apply he
  rcases h with h | h
  · exact ⟨h.accepts haccepts, fun _ => h⟩
  · have hafter := h.accepts haccepts
    exact ⟨Or.inr hafter, fun hlegal => absurd hlegal hafter.not_legal⟩

end Kernel

end NestTuner
