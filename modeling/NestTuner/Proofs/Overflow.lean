import Mathlib.Algebra.Order.BigOperators.GroupWithZero.List
import NestTuner.Proofs.Preconditions

/-!
Edits of a legal nest that trap. A tiling multiplies a stride by the size of the tiles, and that
product stays below the extent of the iterator where its loops cover the extent exactly. The
coverage check cuts its own products off at the largest word, so an iterator of that extent may have
loops that run further, and there the new stride can leave the range. Nothing else can go wrong: all
positions and iterators that an edit looks up are there.
-/

namespace NestTuner

namespace Nest

/-- Where the products of the check stay within a word, they are exact. -/
theorem tower_of_prod_lt {loops : List Loop} {s extent : Nat}
    (h : coveredFrom s (loops.map Loop.level) = some extent)
    (hfits : s * (loops.map (·.extent)).prod < Word.count) : Tower s loops extent := by
  induction loops generalizing s with
  | nil => exact Option.some.inj h
  | cons l rest ih =>
    obtain ⟨hstride, hextent, hrest⟩ := coveredFrom_cons.mp h
    rw [List.map_cons, List.prod_cons, ← Nat.mul_assoc] at hfits
    have hothers : 0 < (rest.map (·.extent)).prod := by
      refine List.prod_pos fun n hn => ?_
      obtain ⟨m, hm, rfl⟩ := List.mem_map.mp hn
      have hlevel := bounds_of_coveredFrom (Word.saturatingMul_le ..) hrest
        (List.mem_map_of_mem (f := Loop.level) hm)
      exact Nat.pos_of_ne_zero hlevel.2.2
    have hword : s * l.extent < Word.count :=
      (Nat.le_mul_of_pos_right _ hothers).trans_lt hfits
    rw [Word.saturatingMul_of_lt hword] at hrest
    exact ⟨hstride, Nat.pos_of_ne_zero hextent, ih hrest hfits⟩

theorem mixedRadix_of_prod_lt {n : Nest} {i extent : Nat} (h : n.covered i = some extent)
    (hfits : ((n.loopsFor i).map (·.extent)).prod < Word.count) :
    MixedRadix (n.loopsFor i) extent := by
  have hperm : ((n.loopsFor i).mergeSort levelLe).Perm (n.loopsFor i) := List.mergeSort_perm ..
  rw [covered, levels_eq_map] at h
  refine ⟨_, hperm, tower_of_prod_lt h ?_⟩
  rwa [Nat.one_mul, (hperm.map (·.extent)).prod_eq]

theorem covered_le_largest {n : Nest} {i extent : Nat} (h : n.covered i = some extent) :
    extent ≤ Word.largest := by
  have hall : ∀ (levels : List (Nat × Nat)) (s : Nat), s ≤ Word.largest →
      coveredFrom s levels = some extent → extent ≤ Word.largest := by
    intro levels
    induction levels with
    | nil =>
      intro s hs hcovered
      rwa [← Option.some.inj hcovered]
    | cons level rest ih =>
      intro s hs hcovered
      exact ih _ (Word.saturatingMul_le ..) (coveredFrom_cons.mp hcovered).2.2
  exact hall _ 1 (by decide) h

end Nest

namespace Kernel

/-- In a legal nest a loop overflows only where its iterator has the largest extent there is and the
loops run further than that. -/
theorem Legal.largest_of_overflows {k : Kernel} (h : k.Legal) {l : Loop} (hl : l ∈ k.nest.loops)
    {size : Nat} (hover : l.Overflows size) :
    ∃ it, k.iterators[l.iterator]? = some it ∧ it.extent = Word.largest ∧
      it.extent < ((k.nest.loopsFor l.iterator).map (·.extent)).prod := by
  obtain ⟨it, hit⟩ : ∃ it, k.iterators[l.iterator]? = some it :=
    ⟨_, List.getElem?_eq_getElem (h.bound l hl)⟩
  have hcovered := (h.covered l.iterator it hit).2
  have hle := Nest.covered_le_largest hcovered
  have hmem : l ∈ k.nest.loopsFor l.iterator := List.mem_filter.mpr ⟨hl, by simp⟩
  have hlast : Word.largest + 1 = Word.count := rfl
  -- loops in mixed radix leave no room for a stride beyond the extent
  have hexact : ¬ MixedRadix (k.nest.loopsFor l.iterator) it.extent :=
    fun hradix => hradix.not_overflows (by omega) hmem hover
  have hlargest : it.extent = Word.largest := by
    by_contra hne
    exact hexact (Nest.mixedRadix_of_covered hcovered (by omega))
  refine ⟨it, hit, hlargest, ?_⟩
  by_contra hfits
  exact hexact (Nest.mixedRadix_of_prod_lt hcovered (by omega))

/-- On a legal nest an edit gives a kernel or a refusal, except where it tiles a loop whose new
stride is no word. That takes an iterator of extent `2 ^ 64 - 1` whose loops run past it, which the
legality check does not see; the edit then traps. -/
theorem apply_returns_iff {k : Kernel} (hlegal : k.checkLegality = .ok ()) (e : Edit) :
    (((∃ k', k.apply e = .ok k') ∨ ∃ reason, k.apply e = .error (.refused reason)) ↔
      ¬ k.Overflows e) ∧
    (k.Overflows e → k.apply e = .error (.trapped .overflow) ∧
      ∃ i it, k.iterators[i]? = some it ∧ it.extent = Word.largest ∧
        it.extent < ((k.nest.loopsFor i).map (·.extent)).prod) := by
  have h := checkLegality_eq_ok.mp hlegal
  have htrapped : k.Overflows e ↔ k.apply e = .error (.trapped .overflow) := by
    simp [apply_eq_trapped h.bound]
  refine ⟨?_, fun hover => ⟨htrapped.mp hover, ?_⟩⟩
  · rw [htrapped]
    cases happly : k.apply e with
    | ok k' => simp
    | error failure =>
      cases failure with
      | refused reason => simp
      | trapped trap =>
        obtain rfl := ((apply_eq_trapped h.bound).mp happly).1
        simp
  · cases e with
    | tile i size =>
      obtain ⟨l, hl, hover⟩ := hover
      exact ⟨_, h.largest_of_overflows (List.mem_of_getElem? hl) hover⟩
    | interchange => cases hover
    | parallelize => cases hover
    | vectorize => cases hover

/-- A copy of `2 ^ 64 - 1` elements, in a nest that runs through four times `2 ^ 63` points. -/
def overrun : Kernel :=
  ⟨"copy", none, [⟨"A", [Word.largest], .f32⟩, ⟨"B", [Word.largest], .f32⟩],
    [⟨"i", Word.largest, .parallel⟩], .elementwise .copy ⟨1, [0]⟩ [⟨0, [0]⟩],
    ⟨[⟨0, 4, 2 ^ 63, false, none⟩, ⟨0, 2 ^ 63, 1, false, none⟩]⟩⟩

theorem apply_returns_iff_overrun :
    overrun.checkLegality = .ok () ∧ overrun.Overflows (.tile 0 2) ∧
      ¬ overrun.Overflows (.tile 1 8) ∧
      ((∃ k', overrun.apply (.tile 1 8) = .ok k') ∨
        ∃ reason, overrun.apply (.tile 1 8) = .error (.refused reason)) := by
  have hlegal : overrun.checkLegality = .ok () := by cbv
  have hover : overrun.Overflows (.tile 0 2) :=
    ⟨_, rfl, rfl, rfl, by decide, by decide, by decide, by decide⟩
  have hfits : ¬ overrun.Overflows (.tile 1 8) := by
    rintro ⟨l, hl, hoverflows⟩
    cases hl
    exact absurd hoverflows.exceeds (by decide)
  exact ⟨hlegal, hover, hfits, (apply_returns_iff hlegal (.tile 1 8)).1.mpr hfits⟩

/-- The legality check accepts the nest, and tiling its outer loop traps. -/
theorem apply_overrun_trapped :
    overrun.validate = .ok () ∧ overrun.checkLegality = .ok () ∧
      overrun.apply (.tile 0 2) = .error (.trapped .overflow) := by
  have hvalid : overrun.validate = .ok () := by cbv
  have hlegal : overrun.checkLegality = .ok () := by cbv
  exact ⟨hvalid, hlegal, by decide⟩

end Kernel

end NestTuner
