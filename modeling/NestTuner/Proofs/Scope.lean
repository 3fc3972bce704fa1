import NestTuner.Proofs.Files
import NestTuner.Proofs.Rounding
import NestTuner.Proofs.Texts
import NestTuner.Session.Basic
import Std.Data.String.ToInt

/-!
The scope of a measurement. It is a list of fields with colons between them, and no field has a
colon in it, so the fields can be read off. Numbers are written without loss, so two measurements
have one scope exactly if they agree on all that is written. The number of threads is not.
-/

namespace NestTuner

namespace Decimal

/-- The characters of a number in scientific form. -/
def isNumeral (c : Char) : Bool :=
  c.isDigit || c == '.' || c == 'e' || c == '-'

theorem isDigit_or_sign_of_mem_toString {i : Int} {c : Char} (h : c ∈ (toString i).toList) :
    c.isDigit = true ∨ c = '-' := by
  rw [Int.toString_eq_repr, Int.repr_eq_if] at h
  split at h
  · exact .inl (isDigit_of_mem_repr h)
  · rcases List.mem_append.mp (String.toList_append .. ▸ h) with hsign | hdigit
    · exact .inr (by simpa using hsign)
    · exact .inl (isDigit_of_mem_repr hdigit)

/-- A number with a point after its first digit, if it has more. -/
theorem exists_toList_withPoint (n : Nat) : ∃ before after, n.repr.toList = before ++ after ∧
    before ≠ [] ∧ ((withPoint n (n.repr.length - 1)).toList = before ++ after ∨
      (withPoint n (n.repr.length - 1)).toList = before ++ '.' :: after) := by
  have hnonempty : n.repr.toList ≠ [] := by simp
  by_cases hone : n.repr.length - 1 = 0
  · exact ⟨n.repr.toList, [], by simp, hnonempty, .inl (by simp [withPoint, hone])⟩
  · refine ⟨n.repr.toList.take 1, n.repr.toList.drop 1, (List.take_append_drop ..).symm, by simp,
      .inr ?_⟩
    have hpadding : n.repr.length - 1 + 1 - n.repr.length = 0 := by omega
    have hwhole : n.repr.length - (n.repr.length - 1) = 1 := by omega
    simp [withPoint, hone, hpadding, hwhole]

namespace Digits

/-- The digits of a number, with their point. -/
def leading (d : Digits) : String :=
  withPoint d.digits (d.digits.repr.length - 1)

theorem mem_leading {d : Digits} {c : Char} (h : c ∈ d.leading.toList) :
    c.isDigit = true ∨ c = '.' := by
  obtain ⟨before, after, hdigits, -, htext⟩ := exists_toList_withPoint d.digits
  have hdigit : c ∈ before ++ after → c.isDigit = true := fun hc =>
    isDigit_of_mem_repr (hdigits ▸ hc)
  rcases htext with htext | htext <;> rw [leading, htext] at h <;> grind

theorem filter_leading (d : Digits) :
    d.leading.toList.filter (· != '.') = d.digits.repr.toList := by
  obtain ⟨before, after, hdigits, -, htext⟩ := exists_toList_withPoint d.digits
  have hkept : (before ++ after).filter (· != '.') = before ++ after := by
    refine List.filter_eq_self.mpr fun c hc => ?_
    have hdigit := isDigit_of_mem_repr (hdigits ▸ hc)
    rw [bne_iff_ne]
    rintro rfl
    cases hdigit
  rw [hdigits, ← hkept]
  rcases htext with htext | htext
  · rw [leading, htext]
  · rw [leading, htext]
    simp

theorem scientific_eq (d : Digits) :
    d.scientific = (String.singleton 'e').intercalate [d.leading, toString d.exponent] := by
  rw [← String.toList_inj]
  simp [scientific, leading]

theorem scientific_injective : Function.Injective scientific := by
  intro d d' h
  rw [scientific_eq, scientific_eq] at h
  have hfree : ∀ d : Digits, ∀ f ∈ [d.leading, toString d.exponent], 'e' ∉ f.toList := by
    intro d f hf hmem
    rw [List.mem_cons, List.mem_singleton] at hf
    rcases hf with rfl | rfl
    · exact absurd (mem_leading hmem) (by decide)
    · exact absurd (isDigit_or_sign_of_mem_toString hmem) (by decide)
  have hfields := eq_of_intercalate_eq (hfree d) (hfree d') (by simp) (by simp) h
  obtain ⟨hleading, hexponent⟩ :
      d.leading = d'.leading ∧ toString d.exponent = toString d'.exponent := by
    simpa using hfields
  have hdigits : d.digits = d'.digits := by
    rw [← Nat.repr_inj, ← String.toList_inj, ← filter_leading, ← filter_leading, hleading]
  have hplace : d.place = d'.place := by
    rw [Int.toString_eq_repr, Int.toString_eq_repr, Int.repr_inj, exponent, exponent,
      hdigits] at hexponent
    omega
  obtain ⟨digits, place⟩ := d
  exact congrArg₂ Digits.mk hdigits hplace

theorem isNumeral_of_mem_scientific {d : Digits} {c : Char} (h : c ∈ d.scientific.toList) :
    isNumeral c = true := by
  have hmem : c ∈ d.leading.toList ∨ c = 'e' ∨ c ∈ (toString d.exponent).toList := by
    simpa [scientific, leading, or_assoc] using h
  unfold isNumeral
  rcases hmem with hmem | rfl | hmem
  · rcases mem_leading hmem with hdigit | rfl
    · simp [hdigit]
    · rfl
  · rfl
  · rcases isDigit_or_sign_of_mem_toString hmem with hdigit | rfl
    · simp [hdigit]
    · rfl

theorem head?_scientific (d : Digits) : d.scientific.toList.head? ≠ some '-' := by
  obtain ⟨before, after, hdigits, hne, htext⟩ := exists_toList_withPoint d.digits
  obtain ⟨c, rest, rfl⟩ := List.exists_cons_of_ne_nil hne
  have hdigit : c.isDigit = true := isDigit_of_mem_repr (n := d.digits) (by simp [hdigits])
  have hhead : d.scientific.toList.head? = some c := by
    rcases htext with htext | htext <;> simp [scientific, htext]
  rw [hhead]
  rintro ⟨⟩
  cases hdigit

end Digits

namespace Reading

theorem isNumeral_of_finite {negative : Bool} {b : Binary} {c : Char}
    (h : c ∈ (scientific (.finite negative b)).toList) : isNumeral c = true := by
  have hmem : c ∈ (text.sign false negative).toList ∨ c ∈ (b.shortest .up).scientific.toList := by
    simpa [scientific, text] using h
  rcases hmem with hsign | hdigits
  · cases negative with
    | false => simp [text.sign] at hsign
    | true =>
      obtain rfl : c = '-' := by simpa [text.sign] using hsign
      rfl
  · exact Digits.isNumeral_of_mem_scientific hdigits

theorem forall_isNumeral_iff {r : Reading} :
    (∀ c ∈ (scientific r).toList, isNumeral c = true) ↔ ∃ negative b, r = .finite negative b := by
  constructor
  · intro h
    cases r with
    | nan => exact absurd (h 'N' (by decide)) (by decide)
    | infinite negative => exact absurd (h 'i' (by cases negative <;> decide)) (by decide)
    | finite negative b => exact ⟨negative, b, rfl⟩
  · rintro ⟨negative, b, rfl⟩ c hc
    exact isNumeral_of_finite hc

theorem head?_scientific_finite {negative : Bool} {b : Binary} :
    (scientific (.finite negative b)).toList.head? = some '-' ↔ negative = true := by
  cases negative with
  | false => simpa [scientific, text, text.sign] using Digits.head?_scientific (b.shortest .up)
  | true => simp [scientific, text, text.sign]

/-- The text of a finite number has its sign and its digits. -/
theorem eq_of_scientific_finite {negative negative' : Bool} {b b' : Binary}
    (h : scientific (.finite negative b) = scientific (.finite negative' b')) :
    negative = negative' ∧ b.shortest .up = b'.shortest .up := by
  obtain rfl : negative = negative' := by
    rw [Bool.eq_iff_iff, ← head?_scientific_finite (b := b), h, head?_scientific_finite]
  exact ⟨rfl, Digits.scientific_injective ((String.append_right_inj _).mp h)⟩

/-- Numbers are told apart by their text in scientific form. -/
theorem eq_of_scientific_eq {r r' : Reading} (hr : ∀ negative b, r = .finite negative b → b.Single)
    (hr' : ∀ negative b, r' = .finite negative b → b.Single) (h : scientific r = scientific r') :
    r = r' := by
  have hfinite : (∃ negative b, r = .finite negative b) ↔
      ∃ negative b, r' = .finite negative b := by
    rw [← forall_isNumeral_iff, h, forall_isNumeral_iff]
  by_cases hcase : ∃ negative b, r = .finite negative b
  · obtain ⟨negative', b', rfl⟩ := hfinite.mp hcase
    obtain ⟨negative, b, rfl⟩ := hcase
    obtain ⟨rfl, hdigits⟩ := eq_of_scientific_finite h
    rw [(hr _ _ rfl).eq_of_shortest_eq (hr' _ _ rfl) hdigits]
  · have hcase' := fun hfin => hcase (hfinite.mpr hfin)
    cases r with
    | finite negative b => exact absurd ⟨negative, b, rfl⟩ hcase
    | nan =>
      cases r' with
      | finite negative' b' => exact absurd ⟨negative', b', rfl⟩ hcase'
      | nan => rfl
      | infinite negative' => exact absurd h (by cases negative' <;> decide)
    | infinite negative =>
      cases r' with
      | finite negative' b' => exact absurd ⟨negative', b', rfl⟩ hcase'
      | nan => exact absurd h (by cases negative <;> decide)
      | infinite negative' =>
        obtain rfl : negative = negative' := by
          revert h
          cases negative <;> cases negative' <;> decide
        rfl

end Reading

theorem scientific_ofFloat32_injective :
    Function.Injective fun x : Float32 => scientific (.ofFloat32 x) := by
  intro x y h
  exact Reading.ofFloat32_injective (Reading.eq_of_scientific_eq
    (fun _ _ => Reading.single_of_ofBits) (fun _ _ => Reading.single_of_ofBits) h)

end Decimal

/-! ### What a scope says -/

namespace Measurement

/-- Agreement on all that a scope says. Tolerances count only for outputs that are verified. -/
structure Agrees (s s' : Measurement) : Prop where
  warmups : s.warmups = s'.warmups
  repetitions : s.repetitions = s'.repetitions
  reduction : s.reduction = s'.reduction
  seed : s.seed = s'.seed
  verify : s.verify = s'.verify
  tolerance : s.verify = true → s.tolerance = s'.tolerance
  timeoutMillis : s.timeoutMillis = s'.timeoutMillis

def toleranceFields (s : Measurement) : List String :=
  if s.verify then
    ["abs" ++ Decimal.scientific (.ofFloat32 s.tolerance.absolute),
      "rel" ++ Decimal.scientific (.ofFloat32 s.tolerance.relative)]
  else ["noverify"]

def timeoutField : Option Nat → String
  | some millis => "t" ++ millis.repr
  | none => "tnone"

/-- What stands between the colons after the backend. -/
def fields (s : Measurement) : List String :=
  ["w" ++ s.warmups.repr, "r" ++ s.repetitions.repr, s.reduction.scopeText, "seed" ++ s.seed.repr]
    ++ s.toleranceFields ++ [timeoutField s.timeoutMillis]

theorem scope_eq (s : Measurement) (backend : String) :
    s.scope backend = (String.singleton ':').intercalate (backend :: s.fields) := by
  obtain ⟨warmups, repetitions, reduction, timeout, verify, tolerance, seed⟩ := s
  rw [← String.toList_inj]
  cases verify <;> cases timeout <;>
    simp [scope, fields, toleranceFields, timeoutField, ToString.toString]

theorem colon_notMem_toDigits (n : Nat) : ':' ∉ Nat.toDigits 10 n :=
  fun h => absurd (Nat.isDigit_of_mem_toDigits (by decide) (by decide) h) (by decide)

theorem colon_notMem_scientific (r : Decimal.Reading) : ':' ∉ (Decimal.scientific r).toList := by
  cases r with
  | nan => decide
  | infinite negative => cases negative <;> decide
  | finite negative b => exact fun h => absurd (Decimal.Reading.isNumeral_of_finite h) (by decide)

theorem colon_notMem_fields (s : Measurement) : ∀ f ∈ s.fields, ':' ∉ f.toList := by
  have htolerance : ∀ f ∈ s.toleranceFields, ':' ∉ f.toList := by
    unfold toleranceFields
    split <;> simp [colon_notMem_scientific]
  have htimeout : ':' ∉ (timeoutField s.timeoutMillis).toList := by
    cases s.timeoutMillis <;> simp [timeoutField, colon_notMem_toDigits]
  have hreduction : ':' ∉ s.reduction.scopeText.toList := by
    cases s.reduction <;> decide
  simpa [fields, colon_notMem_toDigits, hreduction, or_imp, forall_and, htimeout] using htolerance

theorem scopeText_injective : Function.Injective Reduction.scopeText := by
  intro r r' h
  revert h
  cases r <;> cases r' <;> decide

theorem timeoutField_injective : Function.Injective timeoutField := by
  -- a number starts with a digit, so it is not what stands for no limit
  have hnone : ∀ n : Nat, n.repr ≠ "none" := fun n h =>
    absurd (isDigit_of_mem_repr (c := 'n') (by rw [h]; decide)) (by decide)
  rintro (_ | n) (_ | n') h
  · rfl
  · exact absurd ((String.append_right_inj "t").mp h).symm (hnone n')
  · exact absurd ((String.append_right_inj "t").mp h) (hnone n)
  · rw [Nat.repr_inj.mp ((String.append_right_inj "t").mp h)]

theorem toleranceFields_eq_iff {s s' : Measurement} : s.toleranceFields = s'.toleranceFields ↔
    s.verify = s'.verify ∧ (s.verify = true → s.tolerance = s'.tolerance) := by
  obtain ⟨-, -, -, -, verify, ⟨absolute, relative⟩, -⟩ := s
  obtain ⟨-, -, -, -, verify', ⟨absolute', relative'⟩, -⟩ := s'
  cases verify <;> cases verify' <;>
    simp [toleranceFields, Decimal.scientific_ofFloat32_injective.eq_iff]

theorem fields_eq_iff {s s' : Measurement} : s.fields = s'.fields ↔ s.Agrees s' := by
  constructor
  · intro h
    simp only [fields, List.cons_append, List.nil_append, List.cons.injEq] at h
    obtain ⟨hwarmups, hrepetitions, hreduction, hseed, hrest⟩ := h
    obtain ⟨htolerance, htimeout⟩ := List.append_inj' hrest rfl
    obtain ⟨hverify, htolerance⟩ := toleranceFields_eq_iff.mp htolerance
    exact {
      warmups := Nat.repr_inj.mp ((String.append_right_inj "w").mp hwarmups)
      repetitions := Nat.repr_inj.mp ((String.append_right_inj "r").mp hrepetitions)
      reduction := scopeText_injective hreduction
      seed := Nat.repr_inj.mp ((String.append_right_inj "seed").mp hseed)
      verify := hverify
      tolerance := htolerance
      timeoutMillis := timeoutField_injective (List.singleton_inj.mp htimeout) }
  · intro h
    rw [fields, fields, h.warmups, h.repetitions, h.reduction, h.seed, h.timeoutMillis,
      toleranceFields_eq_iff.mpr ⟨h.verify, h.tolerance⟩]

/-- Measurements on one backend have one scope exactly if they agree. -/
theorem scope_eq_scope_iff {s s' : Measurement} {backend : String} (h : ':' ∉ backend.toList) :
    s.scope backend = s'.scope backend ↔ s.Agrees s' := by
  have hfree : ∀ s : Measurement, ∀ f ∈ backend :: s.fields, ':' ∉ f.toList := fun s =>
    List.forall_mem_cons.mpr ⟨h, colon_notMem_fields s⟩
  rw [← fields_eq_iff, scope_eq, scope_eq]
  constructor
  · intro heq
    have hall := eq_of_intercalate_eq (hfree s) (hfree s') (by simp) (by simp) heq
    exact List.tail_eq_of_cons_eq hall
  · intro heq
    rw [heq]

end Measurement

/-! ### Oracles and their caches -/

namespace World

/-- The machine on a pool of so many threads, or without a pool. -/
def machineOn (threads : Option Nat) : Machine World.Action :=
  { machine with perform := runner threads }

theorem after_withThreads_inv {u v : World} {threads : Option Nat} {x : Machine World.Action}
    (h : u.after (machine.withThreads threads) = (.ok (.ok x), v)) :
    x = machineOn threads ∧ v = u := by
  cases threads with
  | none =>
    cases h
    exact ⟨rfl, rfl⟩
  | some n =>
    obtain ⟨made, w, hpool, h⟩ := after_bind_inv h
    have hget : u.after (get : World.Action World) = (.ok u, u) := rfl
    change u.after (get >>= _) = _ at hpool
    rw [after_bind hget] at hpool
    cases herror : u.poolError n with
    | some reason =>
      simp only [herror] at hpool
      cases hpool
      cases h
    | none =>
      simp only [herror] at hpool
      cases hpool
      cases h
      exact ⟨rfl, rfl⟩

/-- What the clock shows of one run on so many threads. -/
def pace (w : World) (threads : Option Nat) : Duration :=
  ⟨w.tick + w.runTime threads⟩

variable {w v : World} {threads : Option Nat} {p : Plan} {inputs : Inputs Float32}
  {start : Duration} {timeout : Option Duration}

theorem after_runOnce_inv {sample : Duration} {output : Grid Float32}
    (h : w.after ((machineOn threads).runOnce p inputs start timeout) =
      (.ok (.ok (sample, output)), v)) :
    sample = w.pace threads ∧ v.pace threads = w.pace threads := by
  obtain ⟨begun, w₁, hbegun, h⟩ := after_bind_inv h
  cases hbegun
  obtain ⟨result, w₂, hrun, h⟩ := after_bind_inv h
  cases hrun
  cases hresult : p.runOn .single inputs with
  | error e =>
    simp only [hresult] at h
    cases h
  | ok output' =>
    simp only [hresult] at h
    obtain ⟨ended, w₃, hended, h⟩ := after_bind_inv h
    cases hended
    obtain ⟨elapsed, w₄, helapsed, h⟩ := after_bind_inv h
    cases helapsed
    have hsample : ∀ t, (Duration.mk (t + w.tick + w.runTime threads)).since ⟨t⟩ =
        w.pace threads := fun t => by
      rw [Duration.since, Nat.add_assoc, Nat.add_sub_cancel_left, pace]
    cases timeout with
    | none =>
      cases h
      exact ⟨hsample _, rfl⟩
    | some limit =>
      simp only at h
      split at h
      · cases h
        exact ⟨hsample _, rfl⟩
      · cases h

theorem after_runRepeatedly_inv {n : Nat} {samples all : List Duration}
    {output last : Option (Grid Float32)}
    (h : w.after ((machineOn threads).runRepeatedly p inputs start timeout n samples output) =
      (.ok (.ok (all, last)), v)) :
    all = samples.reverse ++ List.replicate n (w.pace threads) ∧
      v.pace threads = w.pace threads := by
  induction n generalizing w samples output with
  | zero =>
    cases h
    exact ⟨by simp, rfl⟩
  | succ n ih =>
    obtain ⟨result, w', honce, h⟩ := after_bind_inv h
    cases result with
    | error e => cases h
    | ok r =>
      obtain ⟨sample, output'⟩ := r
      obtain ⟨rfl, hpace⟩ := after_runOnce_inv honce
      obtain ⟨rfl, hpace'⟩ := ih h
      refine ⟨?_, hpace'.trans hpace⟩
      rw [hpace, List.reverse_cons, List.append_assoc, List.replicate_succ, List.singleton_append]

theorem samples_of_measure {options : RunOptions} {x : Execution}
    (h : w.after ((machineOn threads).measure p inputs options start) = (.ok (.ok x), v)) :
    x.samples = List.replicate (max 1 options.repetitions) (w.pace threads) := by
  obtain ⟨warm, w₁, hwarm, h⟩ := after_bind_inv h
  cases warm with
  | error e => cases h
  | ok warm =>
    have hpace := (after_runRepeatedly_inv hwarm).2
    obtain ⟨result, w₂, hruns, h⟩ := after_bind_inv h
    cases result with
    | error e => cases h
    | ok result =>
      obtain ⟨samples, _ | output⟩ := result
      · cases h
      · cases h
        have hcount : (if options.repetitions == 0 then 1 else options.repetitions) =
            max 1 options.repetitions := by
          rcases options.repetitions with _ | n <;> simp
        rw [(after_runRepeatedly_inv hruns).1, hpace, hcount, List.reverse_nil, List.nil_append]

/-- All samples of a kernel show the time that a run takes on the threads there are. -/
theorem samples_of_run {concurrent : Bool} {k : Kernel} {options : RunOptions} {x : Execution}
    (h : w.after (((machineOn threads).cpu concurrent).run k inputs options) = (.ok (.ok x), v)) :
    x.samples = List.replicate (max 1 options.repetitions) (w.pace threads) := by
  obtain ⟨start, w₁, hstart, h⟩ := after_bind_inv h
  cases hstart
  cases hplan : Plan.compile k with
  | error e =>
    simp only [hplan] at h
    obtain ⟨failure, w₂, -, h⟩ := after_bind_inv h
    cases h
  | ok p =>
    simp only [hplan] at h
    obtain ⟨result, w₂, hmeasure, h⟩ := after_bind_inv h
    obtain ⟨execution, rfl⟩ : ∃ execution, result = .ok execution := by
      cases result with
      | ok execution => exact ⟨execution, rfl⟩
      | error e =>
        cases e with
        | inl e =>
          obtain ⟨failure, w₃, -, h⟩ := after_bind_inv h
          cases h
        | inr limit => cases h
    cases h
    exact (samples_of_measure hmeasure).trans rfl

end World

namespace Oracle

/-- How an oracle comes about: inputs are drawn, and if outputs are verified the root is run. -/
structure Calibrated (u v : World) (cpu : Backend World.Action) (root : Kernel) (s : Measurement)
    (o : Oracle World.Action) : Prop where
  backend : o.backend = cpu
  settings : o.settings = s
  runs : ∃ w, u.after (liftExcept (Inputs.random root s.seed)) = (.ok o.inputs, w) ∧
    if s.verify then
      ∃ execution : Execution, o.reference = some execution.output ∧
        w.after (cpu.run root o.inputs s.referenceOptions) = (.ok (.ok execution), v)
    else o.reference = none

theorem calibrated {u v : World} {cpu : Backend World.Action} {root : Kernel} {s : Measurement}
    {o : Oracle World.Action} (h : u.after (calibrate cpu root s) = (.ok (.ok o), v)) :
    Calibrated u v cpu root s o := by
  obtain ⟨inputs, w, hinputs, h⟩ := World.after_bind_inv h
  by_cases hverify : s.verify = true
  · rw [if_pos hverify] at h
    obtain ⟨result, v', hrun, h⟩ := World.after_bind_inv h
    cases result with
    | error e => cases h
    | ok execution =>
      cases h
      exact ⟨rfl, rfl, w, hinputs, by rw [if_pos hverify]; exact ⟨execution, rfl, hrun⟩⟩
  · rw [if_neg hverify] at h
    cases h
    exact ⟨rfl, rfl, v, hinputs, by rw [if_neg hverify]⟩

variable {u v v' : World} {root : Kernel} {s s' : Measurement} {o o' : Oracle World.Action}

namespace Calibrated

variable {machine : Machine World.Action} {concurrent concurrent' : Bool}
  (h : Calibrated u v (machine.cpu concurrent) root s o)
  (h' : Calibrated u v' (machine.cpu concurrent') root s' o') (hagrees : s.Agrees s')

include h h' hagrees

theorem inputs_reference_eq : o.inputs = o'.inputs ∧ o.reference = o'.reference := by
  obtain ⟨w, hinputs, hreference⟩ := h.runs
  obtain ⟨w', hinputs', hreference'⟩ := h'.runs
  rw [← hagrees.seed, hinputs] at hinputs'
  obtain ⟨hok, rfl⟩ := Prod.mk.inj hinputs'
  have hsame : o.inputs = o'.inputs := Except.ok.inj hok
  refine ⟨hsame, ?_⟩
  rw [← hagrees.verify] at hreference'
  split at hreference
  case isTrue hverify =>
    rw [if_pos hverify] at hreference'
    obtain ⟨execution, houtput, hrun⟩ := hreference
    obtain ⟨execution', houtput', hrun'⟩ := hreference'
    -- concurrency is for the search, a single run is the same
    have hoptions : s.referenceOptions = s'.referenceOptions := by
      rw [Measurement.referenceOptions, hagrees.timeoutMillis, Measurement.referenceOptions]
    rw [hsame, hoptions] at hrun
    cases hrun.symm.trans hrun'
    rw [houtput, houtput']
  case isFalse hverify =>
    rw [if_neg hverify] at hreference'
    rw [hreference, hreference']

theorem verifyOutput_eq : o.verifyOutput = o'.verifyOutput := by
  funext output
  rw [verifyOutput, verifyOutput, ← (h.inputs_reference_eq h' hagrees).2]
  by_cases hverify : s.verify = true
  · rw [h.settings, h'.settings, hagrees.tolerance hverify]
  · obtain ⟨w, -, hreference⟩ := h.runs
    rw [if_neg hverify] at hreference
    rw [hreference]

/-- Oracles for a root that agree in their measurements judge every kernel alike, if they run it on
the same machine. -/
theorem evaluate_eq (k : Kernel) : o.evaluate k = o'.evaluate k := by
  have hrun : o.backend.run = o'.backend.run := by
    rw [h.backend, h'.backend]
    rfl
  have hoptions : o.settings.runOptions = o'.settings.runOptions := by
    rw [h.settings, h'.settings, Measurement.runOptions, Measurement.runOptions, hagrees.warmups,
      hagrees.repetitions, hagrees.timeoutMillis]
  have hjudge : o.judge = o'.judge := by
    funext execution
    rw [judge, judge, h.verifyOutput_eq h' hagrees, h.settings, h'.settings, hagrees.reduction]
  rw [evaluate, evaluate, (h.inputs_reference_eq h' hagrees).1, hrun, hoptions, hjudge]

end Calibrated

end Oracle

theorem Disk.file?_of_read {d : Disk} {path text : String} (h : d.read path = .ok text) :
    d.file? (Path.names path) = some text := by
  simp only [Disk.read] at h
  split at h
  case h_1 found hfile =>
    cases h
    exact hfile
  case h_2 => cases h

theorem Cache.after_load {w : World} {path text scope : String} {c : Cache}
    (hfile : w.disk.read path = .ok text) (hc : (Json.parse? text).bind ofJson? = some c) :
    w.after (load World.host path scope) =
      (.ok (.ok (if c.scope = scope then c else empty scope)), w) := by
  have hpresent : w.after (World.host.isPresent path) =
      (.ok (w.disk.isDirectory (Path.names path) ||
        (w.disk.file? (Path.names path)).isSome), w) := rfl
  rw [Disk.file?_of_read hfile, Option.isSome_some, Bool.or_true] at hpresent
  have hread : w.after (World.host.read path) = (.ok (.ok text), w) := World.after_read hfile
  rw [load, World.after_bind hpresent]
  rw [if_neg (by decide), World.after_bind hread]
  have htext : ofText? scope text = some (if c.scope = scope then c else empty scope) := by
    rw [ofText?, hc]
    split <;> simp_all
  simp only [htext]
  rfl

namespace Session

theorem after_takeCache {s : Settings} {w : World} {path text scope : String} {c : Cache}
    (hpath : s.cachePath = some path) (hfile : w.disk.read path = .ok text)
    (hc : (Json.parse? text).bind Cache.ofJson? = some c) :
    w.after (takeCache World.host ⟨s, none⟩ scope) =
      (.ok (.ok (if c.scope = scope then c else .empty scope)), w) := by
  rw [← Cache.after_load hfile hc]
  simp only [takeCache, hpath]

/-- The oracle of a session runs kernels on the threads that the settings ask for. -/
theorem calibrated {s : Settings} {root : Kernel} {u v : World} {o : Oracle World.Action}
    (h : u.after (calibrate World.host s root) = (.ok (.ok o), v)) :
    Oracle.Calibrated u v ((World.machineOn s.threads).cpu s.concurrent) root s.measurement o := by
  obtain ⟨made, u', hmade, hrest⟩ := World.after_bind_inv h
  cases made with
  | error reason => cases hrest
  | ok machine =>
    obtain ⟨rfl, rfl⟩ := World.after_withThreads_inv hmade
    obtain ⟨result, v', hresult, hlast⟩ := World.after_bind_inv hrest
    cases result with
    | error failure => cases hlast
    | ok oracle =>
      cases hlast
      exact Oracle.calibrated hresult

/-- The oracles of two sessions have one scope exactly if their measurements agree. Then, and only
then, one session takes over from a file what belongs to the other. For the same root and on the
same number of threads they would have learned the same. That number is not in the scope, although
the samples of every run depend on it. -/
theorem cache_shared_iff {s s' : Settings} {root root' : Kernel} {u u' v v' : World}
    {o o' : Oracle World.Action}
    (h : u.after (calibrate World.host s root) = (.ok (.ok o), v))
    (h' : u'.after (calibrate World.host s' root') = (.ok (.ok o'), v')) :
    (o.scope = o'.scope ↔ s.measurement.Agrees s'.measurement) ∧
    (∀ path text cache, s'.cachePath = some path → v'.disk.read path = .ok text →
      (Json.parse? text).bind Cache.ofJson? = some cache → cache.scope = o.scope →
      (s.measurement.Agrees s'.measurement →
        v'.after (takeCache World.host ⟨s', none⟩ o'.scope) = (.ok (.ok cache), v')) ∧
      (¬ s.measurement.Agrees s'.measurement →
        v'.after (takeCache World.host ⟨s', none⟩ o'.scope) =
          (.ok (.ok (.empty o'.scope)), v'))) ∧
    (s.measurement.Agrees s'.measurement → s.threads = s'.threads → root = root' → u = u' →
      ∀ k, o.evaluate k = o'.evaluate k) ∧
    (∀ (k : Kernel) (options : RunOptions) (w w' : World) (execution : Execution),
      w.after (o.backend.run k o.inputs options) = (.ok (.ok execution), w') →
      execution.samples =
        List.replicate (max 1 options.repetitions) ⟨w.tick + w.runTime s.threads⟩) := by
  have hcal := calibrated h
  have hcal' := calibrated h'
  have hscope : o.scope = o'.scope ↔ s.measurement.Agrees s'.measurement := by
    have hname : ':' ∉ "cpu".toList := by decide
    rw [Oracle.scope, Oracle.scope, hcal.settings, hcal'.settings, hcal.backend, hcal'.backend]
    exact Measurement.scope_eq_scope_iff hname
  refine ⟨hscope, ?_, ?_, ?_⟩
  · intro path text cache hpath hfile hcache hbelongs
    rw [after_takeCache hpath hfile hcache, hbelongs]
    exact ⟨fun hagrees => by rw [if_pos (hscope.mpr hagrees)],
      fun hdiffers => by rw [if_neg (mt hscope.mp hdiffers)]⟩
  · rintro hagrees hthreads rfl rfl
    rw [hthreads] at hcal
    exact hcal.evaluate_eq hcal' hagrees
  · intro k options w w' execution hrun
    rw [hcal.backend] at hrun
    exact World.samples_of_run hrun

/-- Settings that leave outputs unverified, with a cache file. -/
def unverified (threads repetitions : Nat) : Settings :=
  { Settings.default with
    measurement := { Measurement.default with verify := false, repetitions := repetitions }
    threads := some threads
    cachePath := some "m" }

def smallSquare : Kernel :=
  Kernel.matmul "square" 2 2 2

/-- What was learned about a kernel that took too long. -/
def overtime (scope : String) : Cache :=
  ⟨scope, [(Cache.key smallSquare, .failed (.timeout 10000))]⟩

theorem parse?_overtime (scope : String) :
    (Json.parse? (overtime scope).text).bind Cache.ofJson? = some (overtime scope) := by
  have hplain : (overtime scope).toJson.Plain := by
    simp [overtime, Cache.toJson, Outcome.toJson, Failure.toJson]
  rw [Cache.text, Json.pretty, (hplain.reads_pretty 0).parse?]
  rfl

theorem exists_calibrate {w : World} (threads repetitions : Nat)
    (h : w.poolError threads = none) : ∃ o, w.after
      (calibrate World.host (unverified threads repetitions) smallSquare) = (.ok (.ok o), w) := by
  have hget : w.after (get : World.Action World) = (.ok w, w) := rfl
  have hpool : w.after (World.host.machine.pool threads) =
      (.ok (.ok (World.runner (some threads))), w) := by
    change w.after (get >>= _) = _
    rw [World.after_bind hget, h]
    rfl
  have hthreads : w.after (World.host.machine.withThreads (some threads)) =
      (.ok (.ok (World.machineOn (some threads))), w) := by
    rw [Machine.withThreads, World.after_bind hpool]
    rfl
  rw [calibrate, unverified, World.after_bind hthreads]
  exact ⟨_, rfl⟩

theorem cache_shared_iff_repetitions : ∃ (w : World) (o o' : Oracle World.Action),
    (World.start 0).after (calibrate World.host (unverified 1 5) smallSquare) =
      (.ok (.ok o), World.start 0) ∧
    w.after (calibrate World.host (unverified 1 6) smallSquare) = (.ok (.ok o'), w) ∧
    w.disk.read "m" = .ok (overtime o.scope).text ∧ o.scope ≠ o'.scope ∧
    w.after (takeCache World.host ⟨unverified 1 6, none⟩ o'.scope) =
      (.ok (.ok (.empty o'.scope)), w) := by
  obtain ⟨o, ho⟩ := exists_calibrate (w := World.start 0) 1 5 rfl
  obtain ⟨w, hsaved⟩ := Module.exists_after_save (overtime o.scope).text
  obtain ⟨disk, rfl⟩ := World.eq_of_save hsaved
  obtain ⟨o', ho'⟩ := exists_calibrate (w := { World.start 0 with disk }) 1 6 rfl
  have hread := World.read_of_save hsaved
  have hdiffers : ¬ (unverified 1 5).measurement.Agrees (unverified 1 6).measurement := fun h =>
    absurd h.repetitions (by decide)
  obtain ⟨hscope, htaken, -⟩ := cache_shared_iff ho ho'
  exact ⟨_, o, o', ho, ho', hread, mt hscope.mp hdiffers,
    (htaken "m" _ _ rfl hread (parse?_overtime o.scope) rfl).2 hdiffers⟩

/-- The number of threads is not in the scope: a session with four threads takes over what a session
with one thread has learned and saved. -/
theorem cache_shared_across_threads : ∃ (w : World) (o o' : Oracle World.Action),
    (unverified 1 5).validate = .ok () ∧ (unverified 4 5).validate = .ok () ∧
    (unverified 1 5).threads = some 1 ∧ (unverified 4 5).threads = some 4 ∧
    (World.start 0).after (calibrate World.host (unverified 1 5) smallSquare) =
      (.ok (.ok o), World.start 0) ∧
    (World.start 0).after (shutdown World.host ⟨unverified 1 5, some (overtime o.scope)⟩) =
      (.ok (.ok ()), w) ∧
    w.after (calibrate World.host (unverified 4 5) smallSquare) = (.ok (.ok o'), w) ∧
    o.scope = o'.scope ∧
    w.after (takeCache World.host ⟨unverified 4 5, none⟩ o'.scope) =
      (.ok (.ok (overtime o.scope)), w) := by
  obtain ⟨o, ho⟩ := exists_calibrate (w := World.start 0) 1 5 rfl
  obtain ⟨w, hsaved⟩ := Module.exists_after_save (overtime o.scope).text
  obtain ⟨disk, rfl⟩ := World.eq_of_save hsaved
  obtain ⟨o', ho'⟩ := exists_calibrate (w := { World.start 0 with disk }) 4 5 rfl
  have hcal := calibrated ho
  have hcal' := calibrated ho'
  have hscope : o.scope = o'.scope := by
    rw [Oracle.scope, Oracle.scope, hcal.settings, hcal'.settings, hcal.backend, hcal'.backend]
    rfl
  have hclosed : (World.start 0).after
      (shutdown World.host ⟨unverified 1 5, some (overtime o.scope)⟩) =
      (.ok (.ok ()), { World.start 0 with disk }) :=
    World.after_bind hsaved _
  have hbelongs : (overtime o.scope).scope = o'.scope := hscope
  refine ⟨_, o, o', rfl, rfl, rfl, rfl, ho, hclosed, ho', hscope, ?_⟩
  rw [after_takeCache rfl (World.read_of_save hsaved) (parse?_overtime o.scope), if_pos hbelongs]

end Session

end NestTuner
