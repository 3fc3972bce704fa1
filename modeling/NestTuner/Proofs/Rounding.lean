import NestTuner.Decimal.Text
import Mathlib.Tactic.Ring

/-!
Decimal digits of single-precision numbers. The reals that round to a number form an interval, and
the intervals of two numbers of one format do not meet: where they touch, the end belongs to the
number with the even mantissa. The search for the fewest digits ends with digits in the interval,
so no two numbers have the same ones.
-/

namespace NestTuner.Decimal

namespace Binary

/-- A number of a format: below the lowest exponent there is none, above it mantissas have their
leading bit, and the gap below is half a unit at the first mantissa of such an exponent. -/
structure Representable (fractionBits : Nat) (lowest : Int) (b : Binary) : Prop where
  mantissa_lt : b.mantissa < 2 ^ (fractionBits + 1)
  lowest_le : lowest ≤ b.exponent
  normal : b.exponent ≠ lowest → 2 ^ fractionBits ≤ b.mantissa
  narrow : b.narrowBelow = true ↔ b.mantissa = 2 ^ fractionBits ∧ b.exponent ≠ lowest

/-! ### Rounding intervals -/

/-- A quarter of a unit, as a multiple of a quarter of the smallest unit. -/
def unit (lowest : Int) (b : Binary) : Nat :=
  2 ^ (b.exponent - lowest).toNat

/-- How many quarters of a unit the interval reaches down. -/
def reach (b : Binary) : Nat :=
  if b.narrowBelow then 1 else 2

def low (lowest : Int) (b : Binary) : Nat :=
  (4 * b.mantissa - b.reach) * b.unit lowest

def high (lowest : Int) (b : Binary) : Nat :=
  (4 * b.mantissa + 2) * b.unit lowest

/-- A fraction `x / y` lies in the interval of a number. -/
def Holds (lowest : Int) (b : Binary) (x y : Nat) : Prop :=
  if b.mantissa % 2 = 0 then b.low lowest * y ≤ x ∧ x ≤ b.high lowest * y
  else b.low lowest * y < x ∧ x < b.high lowest * y

theorem pow_scale {lowest : Int} {b : Binary} (hlowest : lowest ≤ 0) (h : lowest ≤ b.exponent) :
    2 ^ b.exponent.toNat * 2 ^ (-lowest).toNat = b.unit lowest * 2 ^ (-b.exponent).toNat := by
  rw [unit, ← Nat.pow_add, ← Nat.pow_add]
  congr 1
  omega

/-- Digits round to a number when their value lies in its interval. -/
theorem rounds_iff {lowest : Int} {b : Binary} (hlowest : lowest ≤ 0) (h : lowest ≤ b.exponent)
    (digits : Nat) (place : Int) : b.rounds digits place = true ↔
      b.Holds lowest (4 * digits * 10 ^ place.toNat * 2 ^ (-lowest).toNat)
        (10 ^ (-place).toNat) := by
  have hscale := pow_scale hlowest h
  -- both sides of every comparison are multiplied by one power of two and divided by another
  have hside : ∀ n : Nat, n * (2 ^ b.exponent.toNat * 10 ^ (-place).toNat) * 2 ^ (-lowest).toNat =
      n * b.unit lowest * 10 ^ (-place).toNat * 2 ^ (-b.exponent).toNat := by
    intro n
    calc
      _ = n * 10 ^ (-place).toNat * (2 ^ b.exponent.toNat * 2 ^ (-lowest).toNat) := by ring
      _ = _ := by rw [hscale]; ring
  have hvalue : 4 * digits * (2 ^ (-b.exponent).toNat * 10 ^ place.toNat) * 2 ^ (-lowest).toNat =
      4 * digits * 10 ^ place.toNat * 2 ^ (-lowest).toNat * 2 ^ (-b.exponent).toNat := by ring
  have hpos : 0 < 2 ^ (-lowest).toNat := Nat.two_pow_pos _
  have hpos' : 0 < 2 ^ (-b.exponent).toNat := Nat.two_pow_pos _
  have hlow : ∀ n : Nat, n * (2 ^ b.exponent.toNat * 10 ^ (-place).toNat) ≤
      4 * digits * (2 ^ (-b.exponent).toNat * 10 ^ place.toNat) ↔
        n * b.unit lowest * 10 ^ (-place).toNat ≤
          4 * digits * 10 ^ place.toNat * 2 ^ (-lowest).toNat := by
    intro n
    rw [← Nat.mul_le_mul_right_iff hpos, hside, hvalue, Nat.mul_le_mul_right_iff hpos']
  have hhigh : ∀ n : Nat, 4 * digits * (2 ^ (-b.exponent).toNat * 10 ^ place.toNat) ≤
      n * (2 ^ b.exponent.toNat * 10 ^ (-place).toNat) ↔
        4 * digits * 10 ^ place.toNat * 2 ^ (-lowest).toNat ≤
          n * b.unit lowest * 10 ^ (-place).toNat := by
    intro n
    rw [← Nat.mul_le_mul_right_iff hpos, hside, hvalue, Nat.mul_le_mul_right_iff hpos']
  simp only [rounds, quotient, Nat.pow_eq, Holds, low, high, reach]
  by_cases heven : b.mantissa % 2 = 0
  · simp only [heven, beq_self_eq_true, if_true, Bool.and_eq_true]
    exact and_congr (decide_eq_true_iff.trans (hlow _)) (decide_eq_true_iff.trans (hhigh _))
  · simp only [beq_iff_eq, heven, if_false, Bool.and_eq_true, decide_eq_true_eq, ← Nat.not_le]
    exact and_congr (not_congr (hhigh _)) (not_congr (hlow _))

/-- One number stands before another. -/
def Before (lowest : Int) (b b' : Binary) : Prop :=
  (b.exponent - lowest).toNat < (b'.exponent - lowest).toNat ∨
    b.exponent = b'.exponent ∧ b.mantissa < b'.mantissa

section Intervals

variable {fractionBits : Nat} {lowest : Int} {b b' : Binary}

theorem reach_le (b : Binary) : b.reach ≤ 2 := by
  unfold reach
  split <;> omega

/-- A higher exponent begins with a narrow gap, above the odd last mantissa of the one before. -/
theorem Representable.high_le_low_of_exponent (h : b.Representable fractionBits lowest)
    (h' : b'.Representable fractionBits lowest)
    (hexponent : (b.exponent - lowest).toNat < (b'.exponent - lowest).toNat) :
    b.high lowest < b'.low lowest ∨ b.high lowest = b'.low lowest ∧ b.mantissa % 2 = 1 := by
  obtain ⟨half, hhalf, hle⟩ : ∃ half, b'.unit lowest = 2 * half ∧ b.unit lowest ≤ half := by
    refine ⟨2 ^ ((b'.exponent - lowest).toNat - 1), ?_, ?_⟩
    · rw [unit, ← Nat.pow_succ']
      congr 1
      omega
    · exact Nat.pow_le_pow_right Nat.two_pos (by omega)
  have hunit : 0 < b.unit lowest := Nat.two_pow_pos _
  have hreach := reach_le b'
  have hmantissa := h.mantissa_lt
  rw [Nat.pow_succ] at hmantissa
  have hnormal := h'.normal (by omega)
  have hnarrow : b'.mantissa = 2 ^ fractionBits → b'.reach = 1 := fun heq => by
    rw [reach, if_pos (h'.narrow.mpr ⟨heq, by omega⟩)]
  have hlow : b'.low lowest = (8 * b'.mantissa - 2 * b'.reach) * half := by
    rw [low, hhalf, ← Nat.mul_assoc, Nat.sub_mul]
    congr 1
    omega
  have hhigh : b.high lowest ≤ (4 * b.mantissa + 2) * half := Nat.mul_le_mul_left _ hle
  have hends : 4 * b.mantissa + 2 ≤ 8 * b'.mantissa - 2 * b'.reach := by
    by_cases hfirst : b'.mantissa = 2 ^ fractionBits
    · have hone := hnarrow hfirst
      omega
    · omega
  rw [hlow]
  rcases Nat.lt_or_eq_of_le (hhigh.trans (Nat.mul_le_mul_right half hends)) with hlt | heq
  · exact .inl hlt
  · right
    refine ⟨heq, ?_⟩
    rw [heq] at hhigh
    have hmeet := Nat.le_of_mul_le_mul_right hhigh (by omega)
    omega

/-- Neighbours of one exponent have mantissas of different parity. -/
theorem high_le_low_of_mantissa (hexponent : b.exponent = b'.exponent)
    (hmantissa : b.mantissa < b'.mantissa) :
    b.high lowest < b'.low lowest ∨ b.high lowest = b'.low lowest ∧
      (b.mantissa % 2 = 1 ∨ b'.mantissa % 2 = 1) := by
  have hunit : 0 < b.unit lowest := Nat.two_pow_pos _
  have hsame : b'.unit lowest = b.unit lowest := by rw [unit, unit, hexponent]
  have hreach := reach_le b'
  rw [high, low, hsame]
  by_cases hnext : 4 * b.mantissa + 2 = 4 * b'.mantissa - b'.reach
  · right
    rw [hnext]
    exact ⟨rfl, by omega⟩
  · left
    exact Nat.mul_lt_mul_of_pos_right (by omega) hunit

/-- The interval of a number ends before that of a later one begins, or where it begins, and then
one of the two mantissas is odd. -/
theorem Representable.high_le_low (h : b.Representable fractionBits lowest)
    (h' : b'.Representable fractionBits lowest) (hbefore : Before lowest b b') :
    b.high lowest < b'.low lowest ∨ b.high lowest = b'.low lowest ∧
      (b.mantissa % 2 = 1 ∨ b'.mantissa % 2 = 1) := by
  rcases hbefore with hexponent | ⟨hexponent, hmantissa⟩
  · rcases h.high_le_low_of_exponent h' hexponent with hlt | ⟨heq, hodd⟩
    · exact .inl hlt
    · exact .inr ⟨heq, .inl hodd⟩
  · exact high_le_low_of_mantissa hexponent hmantissa

/-- No fraction lies in the intervals of two numbers. -/
theorem Representable.not_holds_of_before (h : b.Representable fractionBits lowest)
    (h' : b'.Representable fractionBits lowest) (hbefore : Before lowest b b') {x y : Nat}
    (hy : 0 < y) (hx : b.Holds lowest x y) : ¬b'.Holds lowest x y := by
  intro hx'
  have hhigh : x ≤ b.high lowest * y ∧ (b.mantissa % 2 = 1 → x < b.high lowest * y) := by
    unfold Holds at hx
    split at hx <;> omega
  have hlow : b'.low lowest * y ≤ x ∧ (b'.mantissa % 2 = 1 → b'.low lowest * y < x) := by
    unfold Holds at hx'
    split at hx' <;> omega
  rcases h.high_le_low h' hbefore with hlt | ⟨heq, hodd⟩
  · have hlt := Nat.mul_lt_mul_of_pos_right hlt hy
    omega
  · rw [heq] at hhigh
    omega

theorem Representable.before_or_eq (h : b.Representable fractionBits lowest)
    (h' : b'.Representable fractionBits lowest) :
    Before lowest b b' ∨ Before lowest b' b ∨ b = b' := by
  have hle := h.lowest_le
  have hle' := h'.lowest_le
  rcases Int.lt_trichotomy b.exponent b'.exponent with hlt | hexponent | hgt
  · exact .inl (.inl (by omega))
  · rcases Nat.lt_trichotomy b.mantissa b'.mantissa with hlt | hmantissa | hgt
    · exact .inl (.inr ⟨hexponent, hlt⟩)
    · have hnarrow : b.narrowBelow = b'.narrowBelow := by
        rw [Bool.eq_iff_iff, h.narrow, h'.narrow, hexponent, hmantissa]
      obtain ⟨mantissa, exponent, narrowBelow⟩ := b
      obtain ⟨mantissa', exponent', narrowBelow'⟩ := b'
      exact .inr (.inr (congr (congr (congrArg Binary.mk hmantissa) hexponent) hnarrow))
    · exact .inr (.inl (.inr ⟨hexponent.symm, hgt⟩))
  · exact .inr (.inl (.inl (by omega)))

/-- Digits round to one number only. -/
theorem Representable.eq_of_rounds (h : b.Representable fractionBits lowest)
    (h' : b'.Representable fractionBits lowest) (hlowest : lowest ≤ 0) {digits : Nat} {place : Int}
    (hrounds : b.rounds digits place = true) (hrounds' : b'.rounds digits place = true) :
    b = b' := by
  rw [rounds_iff hlowest h.lowest_le] at hrounds
  rw [rounds_iff hlowest h'.lowest_le] at hrounds'
  have hpos : 0 < 10 ^ (-place).toNat := Nat.pow_pos (by decide)
  rcases h.before_or_eq h' with hbefore | hbefore | heq
  · exact absurd hrounds' (h.not_holds_of_before h' hbefore hpos hrounds)
  · exact absurd hrounds (h'.not_holds_of_before h hbefore hpos hrounds')
  · exact heq

end Intervals

/-! ### The fewest digits -/

theorem roundDiv_eq (tie : Tie) (numerator denominator : Nat) :
    roundDiv tie numerator denominator = numerator / denominator ∨
      roundDiv tie numerator denominator = numerator / denominator + 1 := by
  unfold roundDiv
  cases tie <;> grind

/-- A neighbour that is chosen rounds back. -/
theorem rounds_of_neighbour? {tie : Tie} {b : Binary} {place : Int} {digits : Nat}
    (h : b.neighbour? tie place = some digits) : b.rounds digits place = true := by
  simp only [neighbour?] at h
  split at h
  case h_1 hfloor hceil =>
    cases h
    rcases roundDiv_eq tie (b.quotient place).1 (b.quotient place).2 with heq | heq
    · rw [roundAt, heq, hfloor]
    · rw [roundAt, heq, hceil]
  case h_2 hfloor hceil =>
    cases h
    exact hfloor
  case h_3 hfloor hceil =>
    cases h
    exact hceil
  case h_4 => cases h

/-- The integral part on a grid. -/
def floorAt (b : Binary) (place : Int) : Nat :=
  (b.quotient place).1 / (b.quotient place).2

theorem neighbour?_ne_none {tie : Tie} {b : Binary} {place : Int}
    (h : b.rounds (b.floorAt place) place = true) : b.neighbour? tie place ≠ none := by
  unfold floorAt at h
  unfold neighbour?
  simp only [h]
  split <;> simp_all

/-- On a grid finer than a quarter of a unit the integral part rounds back. -/
theorem rounds_floorAt {b : Binary} (hmantissa : b.mantissa ≠ 0) {place : Int}
    (hfine : 4 * (2 ^ (-b.exponent).toNat * 10 ^ place.toNat) <
      2 ^ b.exponent.toNat * 10 ^ (-place).toNat) : b.rounds (b.floorAt place) place = true := by
  have hnumerator : b.mantissa * 2 ^ b.exponent.toNat * 10 ^ (-place).toNat =
      b.mantissa * (2 ^ b.exponent.toNat * 10 ^ (-place).toNat) := Nat.mul_assoc ..
  have hgrid : 0 < 2 ^ (-b.exponent).toNat * 10 ^ place.toNat :=
    Nat.mul_pos (Nat.two_pow_pos _) (Nat.pow_pos (by decide))
  simp only [rounds, quotient, floorAt, Nat.pow_eq, hnumerator]
  generalize 2 ^ b.exponent.toNat * 10 ^ (-place).toNat = size at hfine ⊢
  generalize 2 ^ (-b.exponent).toNat * 10 ^ place.toNat = grid at hfine hgrid ⊢
  have hbelow : b.mantissa * size / grid * grid ≤ b.mantissa * size := Nat.div_mul_le_self ..
  have habove : b.mantissa * size < b.mantissa * size / grid * grid + grid :=
    Nat.lt_div_mul_add hgrid
  have hlow : (4 * b.mantissa - if b.narrowBelow then 1 else 2) * size + size ≤
      4 * (b.mantissa * size) := by
    rw [← Nat.succ_mul, ← Nat.mul_assoc]
    refine Nat.mul_le_mul_right _ ?_
    split <;> omega
  have hhigh : (4 * b.mantissa + 2) * size = 4 * (b.mantissa * size) + 2 * size := by ring
  rw [hhigh, Nat.mul_assoc 4]
  split
  case isTrue => simp only [Bool.and_eq_true, decide_eq_true_eq]; omega
  case isFalse => simp only [Bool.and_eq_true, decide_eq_true_eq]; omega

/-- The search ends with digits that round back if some grid on its way is fine enough. -/
theorem rounds_shortestFrom {tie : Tie} {b : Binary} {fuel steps : Nat} {place : Int}
    (hsteps : steps < fuel)
    (h : b.rounds (b.floorAt (place - steps)) (place - steps) = true) :
    b.rounds (b.shortestFrom tie fuel place).digits (b.shortestFrom tie fuel place).place =
      true := by
  induction fuel generalizing steps place with
  | zero => omega
  | succ fuel ih =>
    rw [shortestFrom]
    cases hfound : b.neighbour? tie place with
    | some digits => exact rounds_of_neighbour? hfound
    | none =>
      cases steps with
      | zero => exact absurd hfound (neighbour?_ne_none (by simpa using h))
      | succ steps =>
        refine ih (Nat.lt_of_succ_lt_succ hsteps) ?_
        have hplace : place - 1 - (steps : Int) = place - ((steps + 1 : Nat) : Int) := by omega
        rw [hplace]
        exact h

/-- A single-precision number. -/
structure Single (b : Binary) : Prop extends b.Representable 23 (-149) where
  exponent_le : b.exponent ≤ 104

/-- A place at which the grid is finer than a quarter of a unit. -/
def finePlace (exponent : Int) : Int :=
  (exponent + 25) * 30103 / 100000 - 27

theorem finePlace_fine {exponent : Int} (hlowest : -149 ≤ exponent) (hhighest : exponent ≤ 104) :
    4 * (2 ^ (-exponent).toNat * 10 ^ (finePlace exponent).toNat) <
      2 ^ exponent.toNat * 10 ^ (-finePlace exponent).toNat := by
  have hall : ∀ n : Nat, n < 254 →
      4 * (2 ^ (-((n : Int) - 149)).toNat * 10 ^ (finePlace (n - 149)).toNat) <
        2 ^ ((n : Int) - 149).toNat * 10 ^ (-finePlace (n - 149)).toNat := by decide +kernel
  obtain ⟨n, rfl⟩ : ∃ n : Nat, exponent = n - 149 := ⟨(exponent + 149).toNat, by omega⟩
  exact hall n (by omega)

/-- The fewest digits of a single-precision number round back to it. -/
theorem Single.rounds_shortest {b : Binary} (h : b.Single) (tie : Tie) :
    b.rounds (b.shortest tie).digits (b.shortest tie).place = true := by
  unfold shortest
  split
  case isTrue hzero =>
    have hmantissa : b.mantissa = 0 := by simpa using hzero
    simp [rounds, hmantissa]
  case isFalse hzero =>
    have hmantissa : b.mantissa ≠ 0 := by simpa using hzero
    have hbits : b.mantissa.log2 < 24 := (Nat.log2_lt hmantissa).mpr h.mantissa_lt
    obtain ⟨steps, hsteps, hplace⟩ :
        ∃ steps : Nat, steps < 30 ∧ b.placeAbove - steps = finePlace b.exponent := by
      refine ⟨(b.placeAbove - finePlace b.exponent).toNat, ?_, ?_⟩ <;>
        simp only [placeAbove, finePlace] <;> omega
    refine rounds_shortestFrom hsteps ?_
    rw [hplace]
    exact rounds_floorAt hmantissa (finePlace_fine h.lowest_le h.exponent_le)

/-- Single-precision numbers are told apart by their fewest digits. -/
theorem Single.eq_of_shortest_eq {b b' : Binary} (h : b.Single) (h' : b'.Single) {tie : Tie}
    (heq : b.shortest tie = b'.shortest tie) : b = b' := by
  have hrounds := h.rounds_shortest tie
  have hrounds' := h'.rounds_shortest tie
  rw [← heq] at hrounds'
  exact h.toRepresentable.eq_of_rounds h'.toRepresentable (by decide) hrounds hrounds'

end Binary

/-! ### Bits -/

namespace Reading

/-- What the bits of a single-precision number can stand for. -/
theorem ofBits_cases (bits : Nat) :
    (bits / 2 ^ 23 % 2 ^ 8 = 255 ∧ bits % 2 ^ 23 ≠ 0 ∧ ofBits 8 23 bits = .nan) ∨
    (bits / 2 ^ 23 % 2 ^ 8 = 255 ∧ bits % 2 ^ 23 = 0 ∧
      ofBits 8 23 bits = .infinite (bits / 2 ^ 31 % 2 == 1)) ∨
    (bits / 2 ^ 23 % 2 ^ 8 = 0 ∧
      ofBits 8 23 bits = .finite (bits / 2 ^ 31 % 2 == 1) ⟨bits % 2 ^ 23, -149, false⟩) ∨
    (0 < bits / 2 ^ 23 % 2 ^ 8 ∧ bits / 2 ^ 23 % 2 ^ 8 < 255 ∧
      ofBits 8 23 bits = .finite (bits / 2 ^ 31 % 2 == 1)
        ⟨bits % 2 ^ 23 + 2 ^ 23, (bits / 2 ^ 23 % 2 ^ 8 : Nat) - 150,
          bits % 2 ^ 23 == 0 && bits / 2 ^ 23 % 2 ^ 8 != 1⟩) := by
  by_cases htop : bits / 2 ^ 23 % 2 ^ 8 = 255
  · by_cases hfraction : bits % 2 ^ 23 = 0
    · exact .inr (.inl ⟨htop, hfraction, by simp_all [ofBits]⟩)
    · exact .inl ⟨htop, hfraction, by simp_all [ofBits]⟩
  · by_cases hzero : bits / 2 ^ 23 % 2 ^ 8 = 0
    · exact .inr (.inr (.inl ⟨hzero, by simp_all [ofBits]⟩))
    · exact .inr (.inr (.inr ⟨by omega, by omega, by simp_all [ofBits]⟩))

theorem single_of_ofBits {bits : Nat} {negative : Bool} {b : Binary}
    (h : ofBits 8 23 bits = .finite negative b) : b.Single := by
  rcases ofBits_cases bits with ⟨-, -, hbits⟩ | ⟨-, -, hbits⟩ | ⟨-, hbits⟩ | ⟨hpos, hlt, hbits⟩
  · cases hbits.symm.trans h
  · cases hbits.symm.trans h
  · cases hbits.symm.trans h
    refine ⟨⟨?_, ?_, ?_, ?_⟩, ?_⟩ <;> simp
    omega
  · cases hbits.symm.trans h
    refine ⟨⟨?_, ?_, ?_, ?_⟩, ?_⟩ <;> simp <;> omega

/-- The bits of a single-precision number, put together again. -/
def bits : Reading → Nat
  | nan => 0x7fc00000
  | infinite negative => (if negative then 2 ^ 31 else 0) + 255 * 2 ^ 23
  | finite negative b => (if negative then 2 ^ 31 else 0) +
      if b.mantissa < 2 ^ 23 then b.mantissa
      else (b.exponent + 150).toNat * 2 ^ 23 + (b.mantissa - 2 ^ 23)

theorem bits_ofBits {n : Nat} (hlt : n < 2 ^ 32) (hnan : ofBits 8 23 n ≠ .nan) :
    (ofBits 8 23 n).bits = n := by
  have hsign : (if (n / 2 ^ 31 % 2 == 1) = true then 2 ^ 31 else 0) = n / 2 ^ 31 * 2 ^ 31 := by
    split
    case isTrue h =>
      rw [beq_iff_eq] at h
      omega
    case isFalse h =>
      rw [beq_iff_eq] at h
      omega
  rcases ofBits_cases n with ⟨-, -, hn⟩ | ⟨htop, hzero, hn⟩ | ⟨hzero, hn⟩ | ⟨hpos, hlow, hn⟩
  · exact absurd hn hnan
  · rw [hn, bits, hsign]
    omega
  · rw [hn, bits, hsign, if_pos (Nat.mod_lt _ (by decide))]
    simp only
    omega
  · rw [hn, bits, hsign, if_neg (by simp)]
    simp only
    omega

open Float.Model.UnpackedFloat in
/-- There is one pattern of bits that is not a number. -/
theorem toBits_of_nan {x : Float32} (h : ofFloat32 x = .nan) : x.toBits.toNat = 0x7fc00000 := by
  have hbits : x.toBits = x.toModel.toBits := rfl
  rcases ofBits_cases x.toBits.toNat with ⟨htop, hfraction, -⟩ | ⟨-, -, hx⟩ | ⟨-, hx⟩ | ⟨-, -, hx⟩
  · have hpacked := x.toModel.valid.eq_packedNaN ?_ ?_
    · exact congrArg BitVec.toNat hpacked
    · apply BitVec.eq_of_toNat_eq
      simpa [unpackExponent, Nat.shiftRight_eq_div_pow, hbits] using htop
    · intro hzero
      refine hfraction ?_
      simpa [unpackMantissa, hbits] using congrArg BitVec.toNat hzero
  all_goals cases hx.symm.trans h

theorem ofFloat32_injective : Function.Injective ofFloat32 := by
  intro x y h
  have hbits : x.toBits.toNat = y.toBits.toNat := by
    by_cases hnan : ofFloat32 x = .nan
    · rw [toBits_of_nan hnan, toBits_of_nan (h ▸ hnan)]
    · have hnan' : ofFloat32 y ≠ .nan := h ▸ hnan
      rw [← bits_ofBits x.toBits.toNat_lt hnan, ← bits_ofBits y.toBits.toNat_lt hnan']
      exact congrArg bits h
  obtain ⟨⟨xbits, hx⟩⟩ := x
  obtain ⟨⟨ybits, hy⟩⟩ := y
  obtain rfl : xbits = ybits := UInt32.toNat_inj.mp hbits
  rfl

end Reading

end NestTuner.Decimal
