import NestTuner.Legality
import Mathlib.Algebra.BigOperators.Group.List.Basic
import Mathlib.Data.List.Perm.Basic
import Mathlib.Data.List.Sort
import Mathlib.Tactic.Ring

/-!
Mixed-radix decompositions. The loops of one iterator, from the smallest stride up, form a tower
when each stride is the extent that the loops below it cover. The coverage check sorts the loops
and looks for a tower, so it accepts exactly the loops that can be ordered into one, as long as no
product leaves the range of a word.
-/

namespace NestTuner

/-- Loops that start at a stride, each stepping over all that is covered below it, and together
cover an extent. -/
def Tower : Nat → List Loop → Nat → Prop
  | s, [], extent => s = extent
  | s, l :: rest, extent => l.stride = s ∧ 0 < l.extent ∧ Tower (s * l.extent) rest extent

/-- Loops that cover an extent exactly once, in whichever order they stand. -/
def MixedRadix (loops : List Loop) (extent : Nat) : Prop :=
  ∃ sorted, sorted.Perm loops ∧ Tower 1 sorted extent

/-- The pair by which the coverage check sorts. -/
def Loop.level (l : Loop) : Nat × Nat := (l.stride, l.extent)

namespace Tower

theorem append {xs ys : List Loop} {s extent : Nat} :
    Tower s (xs ++ ys) extent ↔ ∃ m, Tower s xs m ∧ Tower m ys extent := by
  induction xs generalizing s with
  | nil => simp [Tower]
  | cons l rest ih =>
    simp only [List.cons_append, Tower, ih]
    constructor
    · rintro ⟨hs, he, m, hrest, hys⟩
      exact ⟨m, ⟨hs, he, hrest⟩, hys⟩
    · rintro ⟨m, ⟨hs, he, hrest⟩, hys⟩
      exact ⟨hs, he, m, hrest, hys⟩

theorem eq_mul_prod {loops : List Loop} {s extent : Nat} (h : Tower s loops extent) :
    extent = s * (loops.map (·.extent)).prod := by
  induction loops generalizing s with
  | nil => simpa [Tower] using h.symm
  | cons l rest ih =>
    have hrest := ih h.2.2
    rw [hrest, List.map_cons, List.prod_cons, Nat.mul_assoc]

theorem le {loops : List Loop} {s extent : Nat} (h : Tower s loops extent) : s ≤ extent := by
  induction loops generalizing s with
  | nil => exact Nat.le_of_eq h
  | cons l rest ih =>
    have hstep : s * 1 ≤ s * l.extent := Nat.mul_le_mul_left s h.2.1
    have hrest := ih h.2.2
    omega

/-- Every level lies between the start and the extent covered. -/
theorem level_bounds {loops : List Loop} {s extent : Nat} (h : Tower s loops extent) {l : Loop}
    (hl : l ∈ loops) : s ≤ l.stride ∧ 0 < l.extent ∧ l.stride * l.extent ≤ extent := by
  induction loops generalizing s with
  | nil => simp at hl
  | cons head rest ih =>
    obtain ⟨hs, he, hrest⟩ := h
    rcases List.mem_cons.mp hl with rfl | hl
    · exact ⟨Nat.le_of_eq hs.symm, he, hs ▸ hrest.le⟩
    · obtain ⟨hle, hpos, hmul⟩ := ih hrest hl
      have hstep : s * 1 ≤ s * head.extent := Nat.mul_le_mul_left s he
      exact ⟨by omega, hpos, hmul⟩

/-- A loop of a tower may be replaced by loops that cover what it covers. -/
theorem splice {below above loops : List Loop} {l : Loop} {s extent : Nat}
    (h : Tower s (below ++ l :: above) extent) (hl : Tower l.stride loops (l.stride * l.extent)) :
    Tower s (below ++ loops ++ above) extent := by
  obtain ⟨m, hbelow, hs, -, habove⟩ := append.mp h
  subst hs
  exact append.mpr ⟨_, append.mpr ⟨_, hbelow, hl⟩, habove⟩

/-- A larger stride lies above all that a level covers. -/
theorem mul_le_of_lt {loops : List Loop} {s extent : Nat} (h : Tower s loops extent) {a b : Loop}
    (ha : a ∈ loops) (hb : b ∈ loops) (hlt : a.stride < b.stride) :
    a.stride * a.extent ≤ b.stride := by
  induction loops generalizing s with
  | nil => simp at ha
  | cons l rest ih =>
    obtain ⟨hs, he, hrest⟩ := h
    rcases List.mem_cons.mp ha with rfl | har
    · rcases List.mem_cons.mp hb with rfl | hbr
      · omega
      · exact hs ▸ (hrest.level_bounds hbr).1
    · rcases List.mem_cons.mp hb with rfl | hbr
      · have hle := (hrest.level_bounds har).1
        have hstep : s * 1 ≤ s * b.extent := Nat.mul_le_mul_left s he
        omega
      · exact ih hrest har hbr

/-- Along a tower strides grow, and among equal strides only the last extent exceeds one. -/
theorem pairwise_level {loops : List Loop} {s extent : Nat} (hs : 0 < s)
    (h : Tower s loops extent) :
    loops.Pairwise fun a b => a.stride < b.stride ∨ a.stride = b.stride ∧ a.extent ≤ b.extent := by
  induction loops generalizing s with
  | nil => exact List.Pairwise.nil
  | cons l rest ih =>
    obtain ⟨hl, he, hrest⟩ := h
    refine List.pairwise_cons.mpr ⟨?_, ih (Nat.mul_pos hs he) hrest⟩
    intro b hb
    obtain ⟨hle, hpos, -⟩ := hrest.level_bounds hb
    rw [hl]
    by_cases hone : l.extent = 1
    · rw [hone, Nat.mul_one] at hle
      omega
    · have hgrow : s * 2 ≤ s * l.extent := Nat.mul_le_mul_left s (by omega)
      left
      omega

/-- A loop of a tower steps over all that the loops before it cover. -/
theorem pairwise_above {loops : List Loop} {s extent : Nat} (h : Tower s loops extent) :
    loops.Pairwise fun a b => a.stride * a.extent ≤ b.stride := by
  induction loops generalizing s with
  | nil => exact List.Pairwise.nil
  | cons l rest ih =>
    obtain ⟨hl, -, hrest⟩ := h
    refine List.pairwise_cons.mpr ⟨fun b hb => ?_, ih hrest⟩
    rw [hl]
    exact (hrest.level_bounds hb).1

/-- Taking a loop with a single value out of a tower leaves the extent covered. -/
theorem remove_unit {below above : List Loop} {l : Loop} {s extent : Nat}
    (h : Tower s (below ++ l :: above) extent) (hone : l.extent = 1) :
    Tower s (below ++ above) extent := by
  rw [append] at h ⊢
  obtain ⟨m, hbelow, -, -, habove⟩ := h
  exact ⟨m, hbelow, by simpa [hone] using habove⟩

/-- A loop of largest stride ends the tower, unless it has a single value. -/
theorem above_nil {below above : List Loop} {l : Loop} {s extent : Nat} (hs : 0 < s)
    (h : Tower s (below ++ l :: above) extent) (hmax : ∀ a ∈ above, a.stride ≤ l.stride)
    (hone : l.extent ≠ 1) : above = [] := by
  obtain ⟨m, hbelow, hl, he, habove⟩ := append.mp h
  cases above with
  | nil => rfl
  | cons a rest =>
    have ha : a.stride ≤ l.stride := hmax a (List.mem_cons_self ..)
    have hm : s ≤ m := hbelow.le
    have hgrow : m * 2 ≤ m * l.extent := Nat.mul_le_mul_left m (by omega)
    have hstride := habove.1
    omega

end Tower

namespace MixedRadix

theorem perm {loops loops' : List Loop} {extent : Nat} (h : MixedRadix loops extent)
    (hperm : loops.Perm loops') : MixedRadix loops' extent := by
  obtain ⟨sorted, hsorted, htower⟩ := h
  exact ⟨sorted, hsorted.trans hperm, htower⟩

theorem level_bounds {loops : List Loop} {extent : Nat} (h : MixedRadix loops extent) {l : Loop}
    (hl : l ∈ loops) : 0 < l.stride ∧ 0 < l.extent ∧ l.stride * l.extent ≤ extent := by
  obtain ⟨sorted, hsorted, htower⟩ := h
  exact htower.level_bounds (hsorted.mem_iff.mpr hl)

theorem pos {loops : List Loop} {extent : Nat} (h : MixedRadix loops extent) : 0 < extent := by
  obtain ⟨sorted, -, htower⟩ := h
  exact htower.le

theorem eq_prod {loops : List Loop} {extent : Nat} (h : MixedRadix loops extent) :
    extent = (loops.map (·.extent)).prod := by
  obtain ⟨sorted, hsorted, htower⟩ := h
  rw [htower.eq_mul_prod, Nat.one_mul, (hsorted.map _).prod_eq]

theorem mul_le_of_lt {loops : List Loop} {extent : Nat} (h : MixedRadix loops extent) {a b : Loop}
    (ha : a ∈ loops) (hb : b ∈ loops) (hlt : a.stride < b.stride) :
    a.stride * a.extent ≤ b.stride := by
  obtain ⟨sorted, hsorted, htower⟩ := h
  exact htower.mul_le_of_lt (hsorted.mem_iff.mpr ha) (hsorted.mem_iff.mpr hb) hlt

/-- Of two loops with the same stride one has a single value. -/
theorem tie {before after : List Loop} {l other : Loop} {extent : Nat}
    (h : MixedRadix (before ++ l :: after) extent) (hother : other ∈ before ++ after)
    (hstride : other.stride = l.stride) : l.extent = 1 ∨ other.extent = 1 := by
  obtain ⟨hpos, hextent, -⟩ := h.level_bounds (l := l) (by simp)
  have hextent' := (h.level_bounds (l := other) (by
    simp only [List.mem_append, List.mem_cons] at hother ⊢
    tauto)).2.1
  obtain ⟨sorted, hsorted, htower⟩ := h
  have hpairs : sorted.Pairwise fun a b =>
      a.stride * a.extent ≤ b.stride ∨ b.stride * b.extent ≤ a.stride :=
    htower.pairwise_above.imp Or.inl
  have hmiddle := ((hsorted.trans List.perm_middle).pairwise_iff (fun {_ _} => Or.symm)).mp hpairs
  have hone : ∀ extent, 0 < extent → l.stride * extent ≤ l.stride → extent = 1 := by
    intro extent hextent hle
    have hle' : extent ≤ 1 := Nat.le_of_mul_le_mul_left (by omega) hpos
    omega
  rcases (List.pairwise_cons.mp hmiddle).1 other hother with hle | hle
  · exact Or.inl (hone l.extent hextent (hstride ▸ hle))
  · exact Or.inr (hone other.extent hextent' (hstride ▸ hle))

/-- Replacing a loop by loops that cover what it covers keeps what all cover. -/
theorem splice {before after loops : List Loop} {l : Loop} {extent : Nat}
    (h : MixedRadix (before ++ l :: after) extent)
    (hl : Tower l.stride loops (l.stride * l.extent)) :
    MixedRadix (before ++ loops.reverse ++ after) extent := by
  obtain ⟨sorted, hsorted, htower⟩ := h
  obtain ⟨below, above, rfl⟩ := List.append_of_mem (a := l) (hsorted.mem_iff.mpr (by simp))
  have hrest : (below ++ above).Perm (before ++ after) :=
    (List.perm_cons l).mp ((List.perm_middle.symm.trans hsorted).trans List.perm_middle)
  refine ⟨below ++ loops ++ above, ?_, htower.splice hl⟩
  have hfront : (below ++ loops ++ above).Perm (loops ++ (below ++ above)) := by
    rw [← List.append_assoc]
    exact List.perm_append_comm.append_right above
  have hback : (loops ++ (before ++ after)).Perm (before ++ loops.reverse ++ after) := by
    rw [← List.append_assoc]
    refine List.Perm.append_right after (List.perm_append_comm.trans ?_)
    exact (List.reverse_perm loops).symm.append_left before
  exact (hfront.trans (hrest.append_left loops)).trans hback

/-- A loop of largest stride reaches the end, unless it has a single value and a longer loop steps
by as much. -/
theorem covers_of_largest {loops : List Loop} {l : Loop} {extent : Nat}
    (h : MixedRadix (l :: loops) extent) (hmax : ∀ a ∈ loops, a.stride ≤ l.stride)
    (htie : l.extent = 1 → ∀ a ∈ loops, a.stride = l.stride → a.extent = 1) :
    l.stride * l.extent = extent := by
  obtain ⟨sorted, hsorted, htower⟩ := h
  obtain ⟨below, above, rfl⟩ := List.append_of_mem (a := l) (hsorted.mem_iff.mpr (by simp))
  have hrest : (below ++ above).Perm loops :=
    (List.perm_cons l).mp (List.perm_middle.symm.trans hsorted)
  have hmem : ∀ a ∈ above, a ∈ loops := fun a ha => hrest.mem_iff.mp (by simp [ha])
  obtain ⟨m, -, hstride, -, habove⟩ := Tower.append.mp htower
  subst hstride
  by_cases hone : l.extent = 1
  · -- all that stands above steps by as much and has a single value
    have hunit : (above.map (·.extent)).prod = 1 := by
      refine List.prod_eq_one fun x hx => ?_
      obtain ⟨a, ha, rfl⟩ := List.mem_map.mp hx
      have hle := (habove.level_bounds ha).1
      rw [hone, Nat.mul_one] at hle
      exact htie hone a (hmem a ha) (Nat.le_antisymm (hmax a (hmem a ha)) hle)
    rw [habove.eq_mul_prod, hunit, Nat.mul_one]
  · have hnil := htower.above_nil Nat.one_pos (fun a ha => hmax a (hmem a ha)) hone
    rw [hnil] at habove
    exact habove

/-- Without a loop of largest stride, the others cover what it steps by, or, if it does not reach
the end, it has a single value and they cover everything. -/
theorem tail_of_largest {loops : List Loop} {l : Loop} {extent : Nat}
    (h : MixedRadix (l :: loops) extent) (hmax : ∀ a ∈ loops, a.stride ≤ l.stride) :
    (l.stride * l.extent = extent ∧ MixedRadix loops l.stride) ∨
      (l.stride * l.extent ≠ extent ∧ l.extent = 1 ∧ MixedRadix loops extent) := by
  obtain ⟨sorted, hsorted, htower⟩ := h
  obtain ⟨below, above, rfl⟩ := List.append_of_mem (a := l) (hsorted.mem_iff.mpr (by simp))
  have hrest : (below ++ above).Perm loops :=
    (List.perm_cons l).mp (List.perm_middle.symm.trans hsorted)
  by_cases hone : l.extent = 1
  · have hloops : MixedRadix loops extent := ⟨_, hrest, htower.remove_unit hone⟩
    by_cases hcovers : l.stride * l.extent = extent
    · rw [hone, Nat.mul_one] at hcovers
      exact Or.inl ⟨by rw [hone, Nat.mul_one, hcovers], hcovers ▸ hloops⟩
    · exact Or.inr ⟨hcovers, hone, hloops⟩
  · have habove : above = [] := htower.above_nil Nat.one_pos
      (fun a ha => hmax a (hrest.mem_iff.mp (by simp [ha]))) hone
    subst habove
    obtain ⟨m, hbelow, hstride, -, hend⟩ := Tower.append.mp htower
    rw [List.append_nil] at hrest
    exact Or.inl ⟨hstride ▸ hend, below, hrest, hstride ▸ hbelow⟩

end MixedRadix

namespace Word

theorem saturatingMul_of_lt {a b : Nat} (h : a * b < count) : saturatingMul a b = a * b := by
  simp [saturatingMul, h]

theorem le_saturatingMul {a b : Nat} (ha : a ≤ largest) (hb : 0 < b) : a ≤ saturatingMul a b := by
  have hmul : a * 1 ≤ a * b := Nat.mul_le_mul_left a hb
  unfold saturatingMul
  split <;> omega

theorem saturatingMul_le (a b : Nat) : saturatingMul a b ≤ largest := by
  unfold saturatingMul
  split
  · simp only [count, largest] at *
    omega
  · exact Nat.le_refl _

end Word

namespace Nest

theorem coveredFrom_of_tower {loops : List Loop} {s extent : Nat} (h : Tower s loops extent)
    (hfits : extent < Word.count) : coveredFrom s (loops.map Loop.level) = some extent := by
  induction loops generalizing s with
  | nil => simpa [coveredFrom, Tower] using h
  | cons l rest ih =>
    obtain ⟨hs, he, hrest⟩ := h
    have hmul : Word.saturatingMul s l.extent = s * l.extent :=
      Word.saturatingMul_of_lt (Nat.lt_of_le_of_lt hrest.le hfits)
    simp [coveredFrom, Loop.level, hs, Nat.pos_iff_ne_zero.mp he, hmul, ih hrest]

theorem coveredFrom_cons {s stride e extent : Nat} {rest : List (Nat × Nat)} :
    coveredFrom s ((stride, e) :: rest) = some extent ↔
      stride = s ∧ e ≠ 0 ∧ coveredFrom (Word.saturatingMul s e) rest = some extent := by
  rw [coveredFrom]
  by_cases hlevel : stride = s ∧ e ≠ 0
  · simp [hlevel]
  · rw [if_neg (by simpa using hlevel)]
    constructor
    · intro h
      cases h
    · rintro ⟨hstride, he, -⟩
      exact absurd ⟨hstride, he⟩ hlevel

theorem le_of_coveredFrom {levels : List (Nat × Nat)} {s extent : Nat} (hs : s ≤ Word.largest)
    (h : coveredFrom s levels = some extent) : s ≤ extent := by
  induction levels generalizing s with
  | nil => exact Nat.le_of_eq (Option.some.inj h)
  | cons level rest ih =>
    obtain ⟨-, he, hrest⟩ := coveredFrom_cons.mp h
    exact (Word.le_saturatingMul hs (Nat.pos_of_ne_zero he)).trans
      (ih (Word.saturatingMul_le ..) hrest)

theorem bounds_of_coveredFrom {levels : List (Nat × Nat)} {s extent : Nat} (hs : s ≤ Word.largest)
    (h : coveredFrom s levels = some extent) {level : Nat × Nat} (hlevel : level ∈ levels) :
    s ≤ level.1 ∧ level.1 ≤ Word.largest ∧ level.2 ≠ 0 := by
  induction levels generalizing s with
  | nil => cases hlevel
  | cons first rest ih =>
    obtain ⟨rfl, he, hrest⟩ := coveredFrom_cons.mp h
    have hgrow := Word.le_saturatingMul hs (Nat.pos_of_ne_zero he)
    rcases List.mem_cons.mp hlevel with rfl | hlevel
    · exact ⟨Nat.le_refl _, hs, he⟩
    · obtain ⟨hle, hrest⟩ := ih (Word.saturatingMul_le ..) hrest hlevel
      exact ⟨hgrow.trans hle, hrest⟩

/-- No stride exceeds what the levels cover, also where the products are cut off. -/
theorem stride_le_of_coveredFrom {levels : List (Nat × Nat)} {s extent : Nat}
    (hs : s ≤ Word.largest) (h : coveredFrom s levels = some extent) {level : Nat × Nat}
    (hlevel : level ∈ levels) : level.1 ≤ extent := by
  induction levels generalizing s with
  | nil => cases hlevel
  | cons first rest ih =>
    have hrest := (coveredFrom_cons.mp h).2.2
    rcases List.mem_cons.mp hlevel with heq | hlevel
    · rw [heq, (coveredFrom_cons.mp h).1]
      exact le_of_coveredFrom hs h
    · exact ih (Word.saturatingMul_le ..) hrest hlevel

theorem stride_bounds_of_covered {n : Nest} {i extent : Nat} (h : n.covered i = some extent)
    {l : Loop} (hl : l ∈ n.loopsFor i) : 0 < l.stride ∧ l.stride ≤ extent := by
  have hlevel : (l.stride, l.extent) ∈ n.levels i := by
    rw [levels, (List.mergeSort_perm ..).mem_iff]
    exact List.mem_map_of_mem (f := fun l : Loop => (l.stride, l.extent)) hl
  exact ⟨(bounds_of_coveredFrom (by decide) h hlevel).1,
    stride_le_of_coveredFrom (by decide) h hlevel⟩

/-- Below the largest word the products of the check were exact. -/
theorem tower_of_coveredFrom {loops : List Loop} {s extent : Nat} (hs : s ≤ Word.largest)
    (h : coveredFrom s (loops.map Loop.level) = some extent) (hfits : extent < Word.largest) :
    Tower s loops extent := by
  induction loops generalizing s with
  | nil => exact Option.some.inj h
  | cons l rest ih =>
    simp only [List.map_cons, Loop.level, coveredFrom, Bool.and_eq_true, beq_iff_eq, bne_iff_ne,
      ne_eq] at h
    split at h
    case isTrue hlevel =>
      have hmul : Word.saturatingMul l.stride l.extent = l.stride * l.extent := by
        have hle := le_of_coveredFrom (Word.saturatingMul_le ..) h
        unfold Word.saturatingMul at hle ⊢
        split at hle <;> simp_all
        omega
      have hrest := ih (Word.saturatingMul_le ..) h
      rw [hmul, hlevel.1] at hrest
      exact ⟨hlevel.1, Nat.pos_of_ne_zero hlevel.2, hrest⟩
    case isFalse => cases h

/-- The order in which the check takes the levels, on loops. -/
def levelLe (a b : Loop) : Bool :=
  a.stride < b.stride || (a.stride == b.stride && a.extent ≤ b.extent)

theorem levels_eq_map (n : Nest) (iterator : Nat) :
    n.levels iterator = ((n.loopsFor iterator).mergeSort levelLe).map Loop.level := by
  refine (List.map_mergeSort (r := levelLe) (f := Loop.level) ?_).symm
  intro a _ b _
  rfl

theorem levels_sorted (n : Nest) (iterator : Nat) :
    (n.levels iterator).Pairwise fun a b => a.1 < b.1 ∨ a.1 = b.1 ∧ a.2 ≤ b.2 := by
  refine (List.pairwise_mergeSort ?_ ?_ _).imp ?_
  · intro a b c hab hbc
    simp only [Bool.or_eq_true, Bool.and_eq_true, decide_eq_true_eq, beq_iff_eq] at hab hbc ⊢
    omega
  · intro a b
    simp only [Bool.or_eq_true, Bool.and_eq_true, decide_eq_true_eq, beq_iff_eq]
    omega
  · intro a b hab
    simpa using hab

/-- A tower is already in the order of the check. -/
theorem levels_of_tower {n : Nest} {iterator extent : Nat} {sorted : List Loop}
    (hperm : sorted.Perm (n.loopsFor iterator)) (h : Tower 1 sorted extent) :
    n.levels iterator = sorted.map Loop.level := by
  have hmerge : (sorted.map Loop.level).Perm (n.levels iterator) :=
    (hperm.map Loop.level).trans (List.mergeSort_perm ..).symm
  have hsorted : (sorted.map Loop.level).Pairwise fun a b => a.1 < b.1 ∨ a.1 = b.1 ∧ a.2 ≤ b.2 :=
    List.pairwise_map.mpr (h.pairwise_level Nat.one_pos)
  refine (hmerge.eq_of_pairwise ?_ hsorted (n.levels_sorted iterator)).symm
  intro a b _ _ hab hba
  exact Prod.ext (by omega) (by omega)

theorem covered_of_mixedRadix {n : Nest} {iterator extent : Nat}
    (h : MixedRadix (n.loopsFor iterator) extent) (hfits : extent < Word.count) :
    n.covered iterator = some extent := by
  obtain ⟨sorted, hperm, htower⟩ := h
  rw [covered, levels_of_tower hperm htower]
  exact coveredFrom_of_tower htower hfits

theorem mixedRadix_of_covered {n : Nest} {iterator extent : Nat}
    (h : n.covered iterator = some extent) (hfits : extent < Word.largest) :
    MixedRadix (n.loopsFor iterator) extent := by
  rw [covered, levels_eq_map] at h
  exact ⟨_, List.mergeSort_perm .., tower_of_coveredFrom (by decide) h hfits⟩

end Nest

end NestTuner
