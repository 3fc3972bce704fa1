import Mathlib.Algebra.Order.BigOperators.Group.List
import Mathlib.Algebra.Order.Ring.Nat
import Mathlib.Data.Finset.Max
import Mathlib.Data.List.Permutation
import NestTuner.Measure.Reduction

/-!
Reductions of samples as statistics. A rank is described by counting: the number at rank `r` of a
list has at most `r` numbers below it and more than `r` up to it. This does not mention an order of
the list, so what is said in terms of ranks holds of every rearrangement at once, and the sorted
list that the median looks into is only a way to find it.
-/

namespace NestTuner

namespace Reduction

/-- The number at a rank of a list, counted from zero for the least. -/
def AtRank (xs : List Nat) (rank x : Nat) : Prop :=
  xs.countP (· < x) ≤ rank ∧ rank < xs.countP (· ≤ x)

/-- What a reduction of numbers is: the least of them, the middle one or half the sum of the two
middle ones, or the sum divided by their number. Halves and quotients are rounded down. -/
def Summarises : Reduction → List Nat → Nat → Prop
  | min, xs, d => d ∈ xs ∧ ∀ x ∈ xs, d ≤ x
  | median, xs, d =>
    if xs.length % 2 = 1 then AtRank xs (xs.length / 2) d
    else ∃ a b, AtRank xs (xs.length / 2 - 1) a ∧ AtRank xs (xs.length / 2) b ∧ d = (a + b) / 2
  | mean, xs, d => d = xs.sum / xs.length

namespace AtRank

theorem perm {xs ys : List Nat} (hperm : xs.Perm ys) {rank x : Nat} (h : AtRank xs rank x) :
    AtRank ys rank x := by
  unfold AtRank at h ⊢
  rwa [← hperm.countP_eq, ← hperm.countP_eq]

theorem mem {xs : List Nat} {rank x : Nat} (h : AtRank xs rank x) : x ∈ xs := by
  by_contra hx
  have hsame : xs.countP (· < x) = xs.countP (· ≤ x) := by
    refine List.countP_congr fun y hy => ?_
    have hne : y ≠ x := fun heq => hx (heq ▸ hy)
    simp only [decide_eq_true_eq]
    omega
  have hbelow := h.1
  have hupto := h.2
  omega

theorem not_lt {xs : List Nat} {rank x y : Nat} (hx : AtRank xs rank x) (hy : AtRank xs rank y) :
    ¬ x < y := by
  intro hlt
  have hcount : xs.countP (· ≤ x) ≤ xs.countP (· < y) := by
    refine List.countP_mono_left fun z _ hz => ?_
    simp only [decide_eq_true_eq] at hz ⊢
    omega
  have hupto := hx.2
  have hbelow := hy.1
  omega

theorem unique {xs : List Nat} {rank x y : Nat} (hx : AtRank xs rank x) (hy : AtRank xs rank y) :
    x = y := by
  have hle := hx.not_lt hy
  have hge := hy.not_lt hx
  omega

/-- In a sorted list every number stands at its rank. -/
theorem of_sorted {xs : List Nat} (hsorted : xs.Pairwise (· ≤ ·)) {i x : Nat}
    (hx : xs[i]? = some x) : AtRank xs i x := by
  have hi : i < xs.length := (List.getElem?_eq_some_iff.mp hx).1
  have hsplit : xs = xs.take i ++ x :: xs.drop (i + 1) := by
    rw [← (List.getElem?_eq_some_iff.mp hx).2, List.getElem_cons_drop, List.take_append_drop]
  have hlength : (xs.take i).length = i := List.length_take_of_le hi.le
  rw [hsplit, List.pairwise_append, List.pairwise_cons] at hsorted
  have hbefore : ∀ y ∈ xs.take i, y ≤ x := fun y hy => hsorted.2.2 y hy x List.mem_cons_self
  have hafter : ∀ y ∈ xs.drop (i + 1), x ≤ y := hsorted.2.1.1
  constructor
  · -- whatever is below `x` stands before it
    have hnone : (x :: xs.drop (i + 1)).countP (· < x) = 0 := by
      rw [List.countP_eq_zero]
      intro y hy
      rcases List.mem_cons.mp hy with heq | hy
      · simp [heq]
      · simpa using hafter y hy
    rw [hsplit, List.countP_append, hnone, Nat.add_zero]
    exact List.countP_le_length.trans_eq hlength
  · -- and all that stands before `x`, and `x` itself, is no greater
    have hall : (xs.take i).countP (· ≤ x) = i := by
      rw [List.countP_eq_length.mpr (by simpa using hbefore), hlength]
    rw [hsplit, List.countP_append, hall, List.countP_cons_of_pos (by simp)]
    omega

end AtRank

namespace Summarises

theorem perm {r : Reduction} {xs ys : List Nat} (hperm : xs.Perm ys) {d : Nat}
    (h : r.Summarises xs d) : r.Summarises ys d := by
  cases r with
  | min => exact ⟨hperm.mem_iff.mp h.1, fun y hy => h.2 y (hperm.mem_iff.mpr hy)⟩
  | median =>
    simp only [Summarises, ← hperm.length_eq] at h ⊢
    split at h
    case isTrue hodd =>
      rw [if_pos hodd]
      exact h.perm hperm
    case isFalse heven =>
      obtain ⟨a, b, ha, hb, hd⟩ := h
      rw [if_neg heven]
      exact ⟨a, b, ha.perm hperm, hb.perm hperm, hd⟩
  | mean =>
    show d = ys.sum / ys.length
    rw [← hperm.sum_eq, ← hperm.length_eq]
    exact h

theorem unique {r : Reduction} {xs : List Nat} {d e : Nat} (hd : r.Summarises xs d)
    (he : r.Summarises xs e) : d = e := by
  cases r with
  | min => exact Nat.le_antisymm (hd.2 e he.1) (he.2 d hd.1)
  | median =>
    simp only [Summarises] at hd he
    split at hd
    case isTrue hodd =>
      rw [if_pos hodd] at he
      exact hd.unique he
    case isFalse heven =>
      rw [if_neg heven] at he
      obtain ⟨a, b, ha, hb, hd⟩ := hd
      obtain ⟨a', b', ha', hb', he⟩ := he
      rw [hd, he, ha.unique ha', hb.unique hb']
  | mean => exact Eq.trans hd (Eq.symm he)

/-- A summary lies between any bounds of the numbers. -/
theorem between {r : Reduction} {xs : List Nat} {d low high : Nat} (h : r.Summarises xs d)
    (hne : xs ≠ []) (hlow : ∀ x ∈ xs, low ≤ x) (hhigh : ∀ x ∈ xs, x ≤ high) :
    low ≤ d ∧ d ≤ high := by
  cases r with
  | min => exact ⟨hlow d h.1, hhigh d h.1⟩
  | median =>
    simp only [Summarises] at h
    split at h
    case isTrue => exact ⟨hlow d h.mem, hhigh d h.mem⟩
    case isFalse =>
      obtain ⟨a, b, ha, hb, hd⟩ := h
      have hlow' := hlow a ha.mem
      have hlow'' := hlow b hb.mem
      have hhigh' := hhigh a ha.mem
      have hhigh'' := hhigh b hb.mem
      omega
  | mean =>
    have hpos : 0 < xs.length := List.length_pos_iff.mpr hne
    have hbelow : low * xs.length ≤ xs.sum := by
      simpa [Nat.mul_comm] using List.card_nsmul_le_sum xs low hlow
    have habove : xs.sum ≤ high * xs.length := by
      simpa [Nat.mul_comm] using List.sum_le_card_nsmul xs high hhigh
    rw [show d = xs.sum / xs.length from h]
    exact ⟨(Nat.le_div_iff_mul_le hpos).mpr hbelow, Nat.div_le_of_le_mul (by rwa [Nat.mul_comm])⟩

end Summarises

/-! ### What the reductions compute -/

theorem least_summarises (d : Duration) (rest : List Duration) :
    Summarises min ((d :: rest).map (·.nanos)) (least d rest).nanos := by
  induction rest generalizing d with
  | nil => simp [Summarises, least]
  | cons e rest ih =>
    rw [least]
    have hstep := ih (if e.le d then e else d)
    by_cases hle : e.nanos ≤ d.nanos
    · rw [if_pos (by simpa [Duration.le] using hle)] at hstep ⊢
      simp only [Summarises, List.map_cons, List.mem_cons, forall_eq_or_imp] at hstep ⊢
      exact ⟨.inr hstep.1, hstep.2.1.trans hle, hstep.2⟩
    · rw [if_neg (by simpa [Duration.le] using hle)] at hstep ⊢
      simp only [Summarises, List.map_cons, List.mem_cons, forall_eq_or_imp] at hstep ⊢
      refine ⟨hstep.1.imp_right .inr, hstep.2.1, ?_, hstep.2.2⟩
      have hfirst := hstep.2.1
      omega

theorem le_sum_of_pair {xs : List Nat} {i j a b : Nat} (hij : i < j) (ha : xs[i]? = some a)
    (hb : xs[j]? = some b) : a + b ≤ xs.sum := by
  have hj : j < xs.length := (List.getElem?_eq_some_iff.mp hb).1
  have hmem : a ∈ xs.take j := by
    refine List.mem_of_getElem? (i := i) ?_
    rw [List.getElem?_take_of_lt hij, ha]
  have hbefore : a ≤ (xs.take j).sum := List.single_le_sum (by simp) a hmem
  have hfrom : b ≤ (xs.drop j).sum := by
    rw [← List.getElem_cons_drop hj, (List.getElem?_eq_some_iff.mp hb).2, List.sum_cons]
    exact Nat.le_add_right ..
  have hsum : (xs.take j).sum + (xs.drop j).sum = xs.sum := by
    rw [← List.sum_append, List.take_append_drop]
  omega

/-- The middle of sorted samples. -/
theorem exists_middle (sorted : List Duration) (hne : sorted ≠ [])
    (hsorted : (sorted.map (·.nanos)).Pairwise (· ≤ ·))
    (htotal : (sorted.map (·.nanos)).sum < Word.count * Duration.perSecond) :
    ∃ d, middle sorted = .ok (some d) ∧ Summarises median (sorted.map (·.nanos)) d.nanos := by
  have hpos : 0 < sorted.length := List.length_pos_iff.mpr hne
  have hget : ∀ i, i < sorted.length → ∃ d, sorted[i]? = some d ∧
      (sorted.map (·.nanos))[i]? = some d.nanos := by
    intro i hi
    exact ⟨_, List.getElem?_eq_getElem hi, by simp [List.getElem?_eq_getElem hi]⟩
  obtain ⟨b, hb, hb'⟩ := hget (sorted.length / 2) (by omega)
  by_cases hodd : sorted.length % 2 = 1
  · refine ⟨b, ?_, ?_⟩
    · simp [middle, hodd, hb]
    · simp only [Summarises, List.length_map, if_pos hodd]
      exact .of_sorted hsorted hb'
  · obtain ⟨a, ha, ha'⟩ := hget (sorted.length / 2 - 1) (by omega)
    have hfits : a.nanos + b.nanos < Word.count * Duration.perSecond :=
      (le_sum_of_pair (by omega) ha' hb').trans_lt htotal
    refine ⟨⟨(a.nanos + b.nanos) / 2⟩, ?_, ?_⟩
    · have heven : sorted.length % 2 = 0 := by omega
      simp [middle, heven, ha, hb, Duration.add, Duration.ofNanos, hfits, Duration.div, bind,
        Except.bind, pure, Except.pure]
    · simp only [Summarises, List.length_map, if_neg hodd]
      exact ⟨_, _, .of_sorted hsorted ha', .of_sorted hsorted hb', rfl⟩

/-- Samples in range, fewer than 32 bits count, have a reduction. -/
theorem exists_reduce (r : Reduction) {samples : List Duration} (hne : samples ≠ [])
    (hcount : samples.length < 2 ^ 32)
    (htotal : (samples.map (·.nanos)).sum < Word.count * Duration.perSecond) :
    ∃ d, r.reduce samples = .ok (some d) ∧ r.Summarises (samples.map (·.nanos)) d.nanos := by
  obtain ⟨first, rest, rfl⟩ := List.exists_cons_of_ne_nil hne
  cases r with
  | min => exact ⟨_, rfl, least_summarises first rest⟩
  | median =>
    have hperm : ((first :: rest).mergeSort Duration.le).Perm (first :: rest) :=
      List.mergeSort_perm ..
    have hnanos := hperm.map (·.nanos)
    have hsorted : ((first :: rest).mergeSort Duration.le).Pairwise (fun a b => a.le b) :=
      List.pairwise_mergeSort (fun a b c => by simp only [Duration.le, decide_eq_true_eq]; omega)
        (fun a b => by simp only [Duration.le, Bool.or_eq_true, decide_eq_true_eq]; omega) _
    obtain ⟨d, hd, hmiddle⟩ := exists_middle ((first :: rest).mergeSort Duration.le)
      (by simp [← List.length_pos_iff])
      (List.pairwise_map.mpr (hsorted.imp (by simp [Duration.le])))
      (by rwa [hnanos.sum_eq])
    exact ⟨d, hd, hmiddle.perm hnanos⟩
  | mean =>
    refine ⟨⟨((first :: rest).map (·.nanos)).sum / (rest.length + 1)⟩, ?_, by simp [Summarises]⟩
    have hlow : Word.low (rest.length + 1) = rest.length + 1 :=
      Nat.mod_eq_of_lt (by simpa using hcount)
    rw [List.sum_eq_foldl] at htotal ⊢
    simp only [reduce, Duration.ofNanos, if_pos htotal, hlow, Duration.div]
    rfl

/-- A reduction of samples whose total is a duration returns one that lies between the least and the
greatest of them, is the same for every rearrangement, and is the statistic it is named for. -/
theorem reduce_statistic (r : Reduction) {samples : List Duration} (hne : samples ≠ [])
    (hcount : samples.length < 2 ^ 32)
    (htotal : (samples.map (·.nanos)).sum < Word.count * Duration.perSecond) :
    ∃ d, r.reduce samples = .ok (some d) ∧
      (∃ low ∈ samples, ∃ high ∈ samples,
        (∀ s ∈ samples, low.nanos ≤ s.nanos ∧ s.nanos ≤ high.nanos) ∧
          low.nanos ≤ d.nanos ∧ d.nanos ≤ high.nanos) ∧
      (∀ other, other.Perm samples → r.reduce other = .ok (some d)) ∧
      r.Summarises (samples.map (·.nanos)) d.nanos := by
  obtain ⟨d, hd, hstatistic⟩ := exists_reduce r hne hcount htotal
  refine ⟨d, hd, ?_, ?_, hstatistic⟩
  · have hsome : samples.toFinset.Nonempty := by simpa using hne
    obtain ⟨low, hlow, hleast⟩ := samples.toFinset.exists_min_image (·.nanos) hsome
    obtain ⟨high, hhigh, hgreatest⟩ := samples.toFinset.exists_max_image (·.nanos) hsome
    simp only [List.mem_toFinset] at hlow hleast hhigh hgreatest
    refine ⟨low, hlow, high, hhigh, fun s hs => ⟨hleast s hs, hgreatest s hs⟩, ?_⟩
    exact hstatistic.between (by simpa using hne) (by simpa using hleast) (by simpa using hgreatest)
  · intro other hperm
    have hnanos := hperm.map (·.nanos)
    have hother : other ≠ [] := fun hnil => hne (hnil ▸ hperm).symm.eq_nil
    obtain ⟨e, he, hsame⟩ := exists_reduce r hother (by rwa [hperm.length_eq])
      (by rwa [hnanos.sum_eq])
    have hnanos' : e.nanos = d.nanos := (hsame.perm hnanos).unique hstatistic
    rw [he, show e = d from congrArg Duration.mk hnanos']

/-- The median of four samples is half the sum of the second and the third, rounded down. -/
theorem reduce_statistic_timed :
    let samples : List Duration := [⟨2000000000⟩, ⟨3⟩, ⟨1999999998⟩, ⟨7⟩]
    (samples ≠ [] ∧ samples.length < 2 ^ 32 ∧
      (samples.map (·.nanos)).sum < Word.count * Duration.perSecond) ∧
    (∀ other, other.Perm samples → median.reduce other = .ok (some ⟨1000000002⟩)) ∧
    Summarises median (samples.map (·.nanos)) 1000000002 := by
  intro samples
  have hne : samples ≠ [] := by decide
  have hcount : samples.length < 2 ^ 32 := by decide
  have htotal : (samples.map (·.nanos)).sum < Word.count * Duration.perSecond := by decide
  obtain ⟨d, hd, -, hperm, hstatistic⟩ := reduce_statistic median hne hcount htotal
  have hmedian : median.reduce samples = .ok (some ⟨1000000002⟩) := by cbv
  obtain rfl : d = ⟨1000000002⟩ := by
    rw [hmedian] at hd
    injection hd with hd
    injection hd with hd
    exact hd.symm
  exact ⟨⟨hne, hcount, htotal⟩, hperm, hstatistic⟩

end Reduction

end NestTuner
