import Mathlib.Tactic.Ring
import NestTuner.Measure.Duration

/-!
Durations as seconds and nanoseconds. A clock keeps whole seconds in one word and the nanoseconds
beyond them apart, and calculates with the two: sums carry a second over, and a division hands its
remainder of seconds down. On these pairs sums and divisions give what they give on nanoseconds,
traps included.
-/

namespace NestTuner.Duration

/-- Whole seconds, and nanoseconds short of one more. -/
structure Parts where
  seconds : Nat
  nanos : Nat
  nanos_lt : nanos < perSecond

theorem perSecond_pos : 0 < perSecond := by
  decide

def parts (d : Duration) : Parts :=
  ⟨d.seconds, d.subsecond, Nat.mod_lt _ perSecond_pos⟩

theorem parts_nanos (d : Duration) : d.parts.seconds * perSecond + d.parts.nanos = d.nanos := by
  rw [Nat.mul_comm]
  exact Nat.div_add_mod ..

/-- The pair of so many seconds and nanoseconds, the latter carried over. -/
def Parts.carried (seconds nanos : Nat) : Checked Parts := do
  return ⟨← Word.add seconds (nanos / perSecond), nanos % perSecond, Nat.mod_lt _ perSecond_pos⟩

theorem ofParts_eq_error {seconds : Nat} (h : Word.count ≤ seconds) (nanos : Nat) :
    ofParts seconds nanos = .error .overflow :=
  if_neg (Nat.not_lt.mpr ((Nat.mul_le_mul_right _ h).trans (Nat.le_add_right ..)))

/-- A pair is in range exactly if its nanoseconds are. -/
theorem carried_eq (seconds nanos : Nat) :
    Parts.carried seconds nanos = (ofParts seconds nanos).map parts := by
  have hdiv : (seconds * perSecond + nanos) / perSecond = seconds + nanos / perSecond := by
    rw [Nat.add_comm, Nat.add_mul_div_right _ _ perSecond_pos, Nat.add_comm]
  have hmod : (seconds * perSecond + nanos) % perSecond = nanos % perSecond := by
    rw [Nat.add_comm, Nat.add_mul_mod_self_right]
  have hrange : seconds * perSecond + nanos < Word.count * perSecond ↔
      seconds + nanos / perSecond < Word.count := by
    rw [← Nat.div_lt_iff_lt_mul perSecond_pos, hdiv]
  rw [Parts.carried, ofParts, ofNanos, Word.add]
  by_cases hfits : seconds + nanos / perSecond < Word.count
  · have hparts : parts ⟨seconds * perSecond + nanos⟩ =
        ⟨seconds + nanos / perSecond, nanos % perSecond, Nat.mod_lt _ perSecond_pos⟩ := by
      simp only [parts, Duration.seconds, subsecond, hdiv, hmod]
    rw [if_pos hfits, if_pos (hrange.mpr hfits)]
    exact congrArg Except.ok hparts.symm
  · rw [if_neg hfits, if_neg (mt hrange.mp hfits)]
    rfl

namespace Parts

/-- The sum of two pairs. -/
def add (a b : Parts) : Checked Parts := do
  let seconds ← Word.add a.seconds b.seconds
  carried seconds (a.nanos + b.nanos)

/-- Adds a pair to seconds and nanoseconds, where nanoseconds are carried over only when they would
leave a word. -/
def accumulate (total : Nat × Nat) (p : Parts) : Checked (Nat × Nat) := do
  let seconds ← Word.add total.1 p.seconds
  if total.2 + p.nanos < Word.count then return (seconds, total.2 + p.nanos)
  else return (← Word.add seconds (total.2 / perSecond), total.2 % perSecond + p.nanos)

/-- The sum of many pairs. -/
def sum (ps : List Parts) : Checked Parts := do
  let total ← ps.foldlM accumulate (0, 0)
  carried total.1 total.2

/-- The nanoseconds of a fraction: those of the rest of the seconds, and those there were. -/
theorem div_nanos (p : Parts) {n : Nat} (hn : 0 < n) :
    p.nanos / n + (p.seconds % n * perSecond + p.nanos % n) / n =
      (p.seconds % n * perSecond + p.nanos) / n := by
  have hsplit : p.seconds % n * perSecond + p.nanos =
      p.seconds % n * perSecond + p.nanos % n + n * (p.nanos / n) := by
    rw [Nat.add_assoc, Nat.mod_add_div]
  rw [hsplit, Nat.add_mul_div_left _ _ hn, Nat.add_comm]

theorem div_nanos_lt (p : Parts) {n : Nat} (hn : 0 < n) :
    (p.seconds % n * perSecond + p.nanos) / n < perSecond := by
  rw [Nat.div_lt_iff_lt_mul hn]
  calc p.seconds % n * perSecond + p.nanos < p.seconds % n * perSecond + perSecond :=
        Nat.add_lt_add_left p.nanos_lt _
    _ = (p.seconds % n + 1) * perSecond := by ring
    _ ≤ n * perSecond := Nat.mul_le_mul_right _ (Nat.mod_lt _ hn)
    _ = perSecond * n := Nat.mul_comm ..

/-- A fraction of a pair: what is left of the seconds goes to the nanoseconds. -/
def div (p : Parts) (n : Nat) : Checked Parts :=
  if h : n = 0 then .error .zeroDivisor
  else .ok ⟨p.seconds / n, p.nanos / n + (p.seconds % n * perSecond + p.nanos % n) / n,
    p.div_nanos (Nat.pos_of_ne_zero h) ▸ p.div_nanos_lt (Nat.pos_of_ne_zero h)⟩

/-- The total keeps count of the nanoseconds, until they leave the range. -/
theorem accumulate_eq (total : Nat × Nat) (p : Parts) :
    (∃ next, accumulate total p = .ok next ∧ next.1 * perSecond + next.2 =
      total.1 * perSecond + total.2 + (p.seconds * perSecond + p.nanos)) ∨
    accumulate total p = .error .overflow ∧ Word.count * perSecond ≤
      total.1 * perSecond + total.2 + (p.seconds * perSecond + p.nanos) := by
  have hcarry := Nat.div_add_mod total.2 perSecond
  unfold accumulate Word.add
  by_cases hseconds : total.1 + p.seconds < Word.count
  · rw [if_pos hseconds]
    by_cases hnanos : total.2 + p.nanos < Word.count
    · refine .inl ⟨_, if_pos hnanos, ?_⟩
      ring
    · by_cases hcarried : total.1 + p.seconds + total.2 / perSecond < Word.count
      · refine .inl ⟨(_, _), (if_neg hnanos).trans (by rw [if_pos hcarried]; rfl), ?_⟩
        rw [Nat.add_mul, Nat.add_mul, Nat.mul_comm (total.2 / perSecond)]
        omega
      · refine .inr ⟨(if_neg hnanos).trans (by rw [if_neg hcarried]; rfl), ?_⟩
        have hle := Nat.mul_le_mul_right perSecond (Nat.le_of_not_lt hcarried)
        rw [Nat.add_mul, Nat.add_mul, Nat.mul_comm (total.2 / perSecond)] at hle
        omega
  · refine .inr ⟨by rw [if_neg hseconds]; rfl, ?_⟩
    have hle := Nat.mul_le_mul_right perSecond (Nat.le_of_not_lt hseconds)
    rw [Nat.add_mul] at hle
    omega

end Parts

theorem parts_add (a b : Duration) : (a.add b).map parts = a.parts.add b.parts := by
  have hnanos : a.add b =
      ofParts (a.parts.seconds + b.parts.seconds) (a.parts.nanos + b.parts.nanos) := by
    rw [add, ofParts, ← a.parts_nanos, ← b.parts_nanos, Nat.add_mul]
    congr 1
    omega
  rw [Parts.add, Word.add, hnanos]
  split
  case isTrue =>
    rw [← carried_eq]
    rfl
  case isFalse hout =>
    rw [ofParts_eq_error (Nat.le_of_not_lt hout)]
    rfl

theorem parts_sum (ds : List Duration) :
    (ofNanos (ds.map (·.nanos)).sum).map parts = Parts.sum (ds.map parts) := by
  -- the induction is on the durations still to come, with the total of those before them
  have hfrom : ∀ total : Nat × Nat,
      ((ds.map parts).foldlM Parts.accumulate total >>= fun t => Parts.carried t.1 t.2) =
        (ofNanos (total.1 * perSecond + total.2 + (ds.map (·.nanos)).sum)).map parts := by
    induction ds with
    | nil =>
      intro total
      rw [List.map_nil, List.map_nil, List.foldlM_nil, pure_bind, List.sum_nil, Nat.add_zero]
      exact carried_eq total.1 total.2
    | cons d rest ih =>
      intro total
      have hnanos : total.1 * perSecond + total.2 + ((d :: rest).map (·.nanos)).sum =
          total.1 * perSecond + total.2 + (d.parts.seconds * perSecond + d.parts.nanos) +
            (rest.map (·.nanos)).sum := by
        rw [d.parts_nanos, List.map_cons, List.sum_cons, Nat.add_assoc _ d.nanos]
      rw [hnanos, List.map_cons, List.foldlM_cons]
      rcases Parts.accumulate_eq total d.parts with ⟨next, hnext, htotal⟩ | ⟨herror, hout⟩
      · rw [hnext, ← htotal]
        exact ih next
      · rw [herror, ofNanos, if_neg (Nat.not_lt.mpr (hout.trans (Nat.le_add_right ..)))]
        rfl
  simpa [Parts.sum] using (hfrom (0, 0)).symm

theorem parts_div (d : Duration) (n : Nat) : (d.div n).map parts = d.parts.div n := by
  rw [div, Parts.div]
  by_cases hn : n = 0
  · rw [if_pos (by simpa using hn), dif_pos hn]
    rfl
  · have hpos := Nat.pos_of_ne_zero hn
    have hlt := d.parts.div_nanos_lt hpos
    have hsplit : d.nanos / n = (d.parts.seconds % n * perSecond + d.parts.nanos) / n +
        d.parts.seconds / n * perSecond := by
      have hwhole : d.nanos = d.parts.seconds % n * perSecond + d.parts.nanos +
          n * (d.parts.seconds / n * perSecond) := by
        rw [← d.parts_nanos]
        conv_lhs => rw [← Nat.div_add_mod d.parts.seconds n]
        ring
      rw [hwhole, Nat.add_mul_div_left _ _ hpos]
    have hseconds : d.nanos / n / perSecond = d.parts.seconds / n := by
      rw [hsplit, Nat.add_mul_div_right _ _ perSecond_pos, Nat.div_eq_of_lt hlt, Nat.zero_add]
    have hnanos : d.nanos / n % perSecond =
        (d.parts.seconds % n * perSecond + d.parts.nanos) / n := by
      rw [hsplit, Nat.add_mul_mod_self_right, Nat.mod_eq_of_lt hlt]
    have hparts : parts ⟨d.nanos / n⟩ = ⟨d.parts.seconds / n, _, hlt⟩ := by
      simp only [parts, Duration.seconds, subsecond] at hseconds hnanos ⊢
      simp only [hseconds, hnanos]
    rw [if_neg (by simpa using hn), dif_neg hn]
    simp only [d.parts.div_nanos hpos]
    exact congrArg Except.ok hparts

end NestTuner.Duration
