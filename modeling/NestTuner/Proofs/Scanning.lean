import NestTuner.Proofs.Texts

/-!
Reading a text from its beginning. Each reader takes what it looks for off the text and leaves the
rest, and has one lemma: it takes back what was written in front of a rest. A number ends where the
digits do, so the character after one must not be a digit; a fixed word needs no such care.
-/

namespace NestTuner

namespace Text

/-- What comes after a word. -/
def word (w : String) (text : List Char) : Option (List Char) :=
  w.toList.isPrefixOf? text

/-- Whether a word comes next, and what comes after it if it does. -/
def accept (w : String) (text : List Char) : Bool × List Char :=
  ((word w text).isSome, (word w text).getD text)

/-- The longest beginning of characters of a kind, and what comes after it. -/
def run (p : Char → Bool) (text : List Char) : List Char × List Char :=
  (text.takeWhile p, text.dropWhile p)

/-- A number in decimal digits, and what comes after it. -/
def number (text : List Char) : Option (Nat × List Char) :=
  if (run Char.isDigit text).1 = [] then none
  else some (Nat.ofDigitChars 10 (run Char.isDigit text).1 0, (run Char.isDigit text).2)

theorem run_append {p : Char → Bool} {xs rest : List Char} (hxs : ∀ c ∈ xs, p c = true)
    (hrest : ∀ c ∈ rest.head?, p c = false) : run p (xs ++ rest) = (xs, rest) := by
  have hstop : rest.takeWhile p = [] ∧ rest.dropWhile p = rest := by
    cases rest with
    | nil => exact ⟨rfl, rfl⟩
    | cons c rest =>
      have hc : p c = false := by simpa using hrest
      simp [hc]
  rw [run, List.takeWhile_append_of_pos hxs, List.dropWhile_append_of_pos hxs, hstop.1, hstop.2,
    List.append_nil]

theorem number_append (n : Nat) {rest : List Char} (hrest : ∀ c ∈ rest.head?, c.isDigit = false) :
    number (Nat.toDigits 10 n ++ rest) = some (n, rest) := by
  have hdigits : ∀ c ∈ Nat.toDigits 10 n, c.isDigit = true := fun c hc =>
    Nat.isDigit_of_mem_toDigits (by decide) (by decide) hc
  rw [number, run_append hdigits hrest, if_neg Nat.toDigits_ne_nil,
    Nat.ofDigitChars_ten_toDigits]

@[simp] theorem number_append_cons (n : Nat) {c : Char} (hc : c.isDigit = false)
    (rest : List Char) : number (Nat.toDigits 10 n ++ c :: rest) = some (n, c :: rest) :=
  number_append n (by simpa using hc)

@[simp] theorem number_toDigits (n : Nat) : number (Nat.toDigits 10 n) = some (n, []) := by
  have hend : ∀ c ∈ ([] : List Char).head?, c.isDigit = false := by simp
  simpa using number_append n hend

/-! ### Lists -/

/-- The parts of a text between commas with a blank. -/
def fields : List Char → List (List Char)
  | [] => [[]]
  | ',' :: ' ' :: rest => [] :: fields rest
  | c :: rest => (fields rest).modifyHead (c :: ·)

/-- A text that is a number and nothing else. -/
def whole (text : List Char) : Option Nat :=
  (number text).bind fun n => if n.2 = [] then some n.1 else none

/-- Numbers with commas and blanks between them; an empty text has none. -/
def numbers (text : List Char) : Option (List Nat) :=
  if text = [] then some [] else (fields text).mapM whole

theorem fields_of_free {f : List Char} (h : ',' ∉ f) : fields f = [f] := by
  induction f with
  | nil => rfl
  | cons c f ih =>
    obtain ⟨hc, hf⟩ : ',' ≠ c ∧ ',' ∉ f := by simpa using h
    rw [fields, ih hf]
    · rfl
    · exact fun rest heq _ => hc heq.symm

theorem fields_append {f : List Char} (h : ',' ∉ f) (rest : List Char) :
    fields (f ++ ',' :: ' ' :: rest) = f :: fields rest := by
  induction f with
  | nil => rw [List.nil_append, fields]
  | cons c f ih =>
    obtain ⟨hc, hf⟩ : ',' ≠ c ∧ ',' ∉ f := by simpa using h
    rw [List.cons_append, fields, ih hf]
    · rfl
    · exact fun rest heq _ => hc heq.symm

theorem fields_intercalate {texts : List (List Char)} (hne : texts ≠ [])
    (hfree : ∀ f ∈ texts, ',' ∉ f) : fields ([',', ' '].intercalate texts) = texts := by
  induction texts with
  | nil => exact absurd rfl hne
  | cons f rest ih =>
    obtain ⟨hf, hrest⟩ := List.forall_mem_cons.mp hfree
    cases rest with
    | nil => simpa using fields_of_free hf
    | cons g rest =>
      rw [List.intercalate_cons_cons, List.append_assoc, List.cons_append, List.cons_append,
        List.nil_append, fields_append hf, ih (by simp) hrest]

theorem mapM_whole (ns : List Nat) : (ns.map (Nat.toDigits 10)).mapM whole = some ns := by
  induction ns with
  | nil => rfl
  | cons n rest ih => simp [whole, ih]

theorem numbers_intercalate (ns : List Nat) :
    numbers ([',', ' '].intercalate (ns.map (Nat.toDigits 10))) = some ns := by
  by_cases hne : ns = []
  · simp [hne, numbers]
  · have hfree : ∀ f ∈ ns.map (Nat.toDigits 10), ',' ∉ f := by
      intro f hf hmem
      obtain ⟨n, -, rfl⟩ := List.mem_map.mp hf
      exact absurd (Nat.isDigit_of_mem_toDigits (by decide) (by decide) hmem) (by decide)
    have hfields := fields_intercalate (by simpa using hne) hfree
    have htext : [',', ' '].intercalate (ns.map (Nat.toDigits 10)) ≠ [] := by
      intro hnil
      rw [hnil] at hfields
      have hmem : [] ∈ ns.map (Nat.toDigits 10) := by simp [← hfields, fields]
      obtain ⟨n, -, hn⟩ := List.mem_map.mp hmem
      exact Nat.toDigits_ne_nil hn
    rw [numbers, if_neg htext, hfields, mapM_whole]

end Text

end NestTuner
