import NestTuner.Json.Printer
import NestTuner.Json.Reader

/-!
Text is read back as the value it was written from, on one line or spread over lines, so two values
with one text are equal. A number runs on as long as digits do, so what is read is said of every
text that may follow, and blanks around a value are passed over. Only natural numbers are written
here; the values that hold no other are plain.
-/

namespace NestTuner.Json

/-- A value without a sign, a fraction or a power of ten. -/
inductive Plain : Json → Prop
  | null : Plain .null
  | bool (b : Bool) : Plain (.bool b)
  | nat (n : Nat) : Plain (.nat n)
  | string (s : String) : Plain (.string s)
  | array {items : List Json} (h : ∀ v ∈ items, Plain v) : Plain (.array items)
  | object {members : List (String × Json)} (h : ∀ p ∈ members, Plain p.2) :
    Plain (.object members)

theorem skipBlanks_cons {c : Char} (h : isBlank c = false) (cs : List Char) :
    skipBlanks (c :: cs) = c :: cs := by
  simp [skipBlanks, h]

theorem skipBlanks_append {cs tail : List Char} {c : Char} (h : skipBlanks cs = c :: tail)
    (rest : List Char) : skipBlanks (cs ++ rest) = c :: (tail ++ rest) := by
  unfold skipBlanks at h ⊢
  rw [List.dropWhile_append, h]
  rfl

theorem skipBlanks_skipBlanks (cs : List Char) : skipBlanks (skipBlanks cs) = skipBlanks cs := by
  induction cs with
  | nil => rfl
  | cons c cs ih =>
    cases hc : isBlank c <;> simp_all [skipBlanks]

theorem skipBlanks_blanks {pre : List Char} (h : ∀ c ∈ pre, isBlank c = true) (cs : List Char) :
    skipBlanks (pre ++ cs) = skipBlanks cs := by
  unfold skipBlanks
  exact List.dropWhile_append_of_pos h

theorem readValue_skipBlanks (fuel : Nat) (cs : List Char) :
    readValue fuel (skipBlanks cs) = readValue fuel cs := by
  cases fuel with
  | zero => rfl
  | succ fuel => simp only [readValue, skipBlanks_skipBlanks]

theorem readItems_skipBlanks (fuel : Nat) (cs : List Char) :
    readItems fuel (skipBlanks cs) = readItems fuel cs := by
  cases fuel with
  | zero => rfl
  | succ fuel => simp only [readItems, readValue_skipBlanks]

theorem readMembers_skipBlanks (fuel : Nat) (cs : List Char) :
    readMembers fuel (skipBlanks cs) = readMembers fuel cs := by
  cases fuel with
  | zero => rfl
  | succ fuel => simp only [readMembers, skipBlanks_skipBlanks]

/-! ### Strings -/

theorem codeUnit?_control :
    ∀ n < 32, codeUnit? '0' '0' (hexDigit (n / 16)) (hexDigit (n % 16)) = some n := by
  decide

/-- The characters that are written by a letter after a backslash. -/
def lettered : List Char :=
  ['"', '\\', '\x08', '\x0c', '\n', '\r', '\t']

theorem exists_letter {c : Char} (hc : c ∈ lettered) :
    ∃ e, e ≠ 'u' ∧ unescape? e = some c ∧ escape c = ['\\', e] := by
  simp only [lettered, List.mem_cons, List.not_mem_nil, or_false] at hc
  rcases hc with rfl | rfl | rfl | rfl | rfl | rfl | rfl
  · exact ⟨'"', by decide, rfl, rfl⟩
  · exact ⟨'\\', by decide, rfl, rfl⟩
  · exact ⟨'b', by decide, rfl, rfl⟩
  · exact ⟨'f', by decide, rfl, rfl⟩
  · exact ⟨'n', by decide, rfl, rfl⟩
  · exact ⟨'r', by decide, rfl, rfl⟩
  · exact ⟨'t', by decide, rfl, rfl⟩

/-- A character is written by a letter, by its code or as itself. -/
theorem escape_cases (c : Char) :
    (∃ e, e ≠ 'u' ∧ unescape? e = some c ∧ escape c = ['\\', e]) ∨
    (c.toNat < 32 ∧
      escape c = ['\\', 'u', '0', '0', hexDigit (c.toNat / 16), hexDigit (c.toNat % 16)]) ∨
    (c ≠ '"' ∧ c ≠ '\\' ∧ ¬ c.toNat < 32 ∧ escape c = [c]) := by
  by_cases hletter : c ∈ lettered
  · exact .inl (exists_letter hletter)
  · simp only [lettered, List.mem_cons, List.not_mem_nil, or_false, not_or] at hletter
    by_cases hcontrol : c.toNat < 32
    · exact .inr (.inl ⟨hcontrol, by simp [escape, hletter, hcontrol]⟩)
    · exact .inr (.inr ⟨hletter.1, hletter.2.1, hcontrol, by simp [escape, hletter, hcontrol]⟩)

theorem readStringFrom_letter {e c : Char} (hu : e ≠ 'u') (hc : unescape? e = some c)
    (read rest : List Char) :
    readStringFrom read ('\\' :: e :: rest) = readStringFrom (c :: read) rest := by
  rw [readStringFrom.eq_def]
  split <;> grind

theorem readStringFrom_code {c : Char} (hcontrol : c.toNat < 32) (read rest : List Char) :
    readStringFrom read ('\\' :: 'u' :: '0' :: '0' :: hexDigit (c.toNat / 16) ::
      hexDigit (c.toNat % 16) :: rest) = readStringFrom (c :: read) rest := by
  have hlow : ¬ 0xd800 ≤ c.toNat := by omega
  have hhigh : ¬ 0xdc00 ≤ c.toNat := by omega
  simp [readStringFrom, codeUnit?_control _ hcontrol, hlow, hhigh]

theorem readStringFrom_itself {c : Char} (hquote : c ≠ '"') (hslash : c ≠ '\\')
    (hcontrol : ¬ c.toNat < 32) (read rest : List Char) :
    readStringFrom read (c :: rest) = readStringFrom (c :: read) rest := by
  rw [readStringFrom.eq_def]
  split <;> grind

theorem readStringFrom_escape (c : Char) (read rest : List Char) :
    readStringFrom read (escape c ++ rest) = readStringFrom (c :: read) rest := by
  obtain ⟨e, hu, hc, he⟩ | ⟨hcontrol, he⟩ | ⟨hquote, hslash, hcontrol, he⟩ := escape_cases c
  · rw [he]
    exact readStringFrom_letter hu hc read rest
  · rw [he]
    exact readStringFrom_code hcontrol read rest
  · rw [he]
    exact readStringFrom_itself hquote hslash hcontrol read rest

theorem readStringFrom_flatMap (s read rest : List Char) :
    readStringFrom read (s.flatMap escape ++ '"' :: rest) =
      some (String.ofList (read.reverse ++ s), rest) := by
  induction s generalizing read with
  | nil => simp [readStringFrom]
  | cons c s ih =>
    rw [List.flatMap_cons, List.append_assoc, readStringFrom_escape, ih, List.reverse_cons,
      List.append_assoc, List.singleton_append]

/-! ### Numbers -/

/-- What follows a number: nothing that would make it longer. -/
def Unextended (rest : List Char) : Prop :=
  ∀ c ∈ rest.head?, c.isDigit = false ∧ c ≠ '.' ∧ c ≠ 'e' ∧ c ≠ 'E'

theorem Unextended.blanks {post rest : List Char} (hpost : ∀ c ∈ post, isBlank c = true)
    (h : Unextended rest) : Unextended (post ++ rest) := by
  cases post with
  | nil => exact h
  | cons c post =>
    intro d hd
    obtain rfl : c = d := by simpa using hd
    have hblank : c = ' ' ∨ c = '\n' ∨ c = '\t' ∨ c = '\r' := by
      simpa [isBlank, or_assoc] using hpost c List.mem_cons_self
    rcases hblank with rfl | rfl | rfl | rfl <;> decide

theorem head?_toDigits_ne_zero {n : Nat} (hn : n ≠ 0) : (Nat.toDigits 10 n).head? ≠ some '0' := by
  induction n using Nat.strongRecOn with
  | _ n ih =>
    rw [Nat.toDigits_eq_if (by decide)]
    split
    · have : ∀ d < 10, d ≠ 0 → d.digitChar ≠ '0' := by decide
      simpa using this n ‹_› hn
    · obtain ⟨d, digits, hd⟩ := List.exists_cons_of_ne_nil (Nat.toDigits_ne_nil (n := n / 10))
      have hfirst := ih (n / 10) (by omega) (by omega)
      rw [hd] at hfirst ⊢
      exact hfirst

theorem takeWhile_isDigit {rest : List Char} (h : Unextended rest) :
    rest.takeWhile Char.isDigit = [] := by
  cases rest with
  | nil => rfl
  | cons c rest => simp [(h c rfl).1]

theorem dropWhile_isDigit {rest : List Char} (h : Unextended rest) :
    rest.dropWhile Char.isDigit = rest := by
  cases rest with
  | nil => rfl
  | cons c rest => simp [(h c rfl).1]

theorem readFraction_unextended {rest : List Char} (h : Unextended rest) :
    readFraction rest = some ([], rest) := by
  unfold readFraction
  split
  · exact absurd rfl (h '.' rfl).2.1
  · rfl

theorem readExponent_unextended {rest : List Char} (h : Unextended rest) :
    readExponent rest = some (none, rest) := by
  cases rest with
  | nil => rfl
  | cons c rest => simp [readExponent, (h c rfl).2.2.1, (h c rfl).2.2.2]

theorem readUnsigned_toDigits (n : Nat) {rest : List Char} (h : Unextended rest) :
    readUnsigned false (Nat.toDigits 10 n ++ rest) = some (.ofNat n, rest) := by
  have hdigits : ∀ c ∈ Nat.toDigits 10 n, c.isDigit = true :=
    fun c hc => Nat.isDigit_of_mem_toDigits (by decide) (by decide) hc
  have hleading : ((Nat.toDigits 10 n).head? == some '0' && (Nat.toDigits 10 n).length != 1)
      = false := by
    by_cases hn : n = 0
    · subst hn; rfl
    · simp [head?_toDigits_ne_zero hn]
  have hvalue : ofDigits (Nat.toDigits 10 n) = n := Nat.ofDigitChars_ten_toDigits
  unfold readUnsigned
  rw [List.takeWhile_append_of_pos hdigits, List.dropWhile_append_of_pos hdigits,
    takeWhile_isDigit h, dropWhile_isDigit h, List.append_nil]
  simp [hleading, hvalue, readFraction_unextended h, readExponent_unextended h, Number.ofNat]

theorem exists_digit (n : Nat) :
    ∃ d digits, Nat.toDigits 10 n = d :: digits ∧ d.isDigit = true := by
  obtain ⟨d, digits, hd⟩ := List.exists_cons_of_ne_nil (Nat.toDigits_ne_nil (n := n))
  exact ⟨d, digits, hd, Nat.isDigit_of_mem_toDigits (by decide) (by decide)
    (hd ▸ List.mem_cons_self)⟩

theorem readNumber_toDigits (n : Nat) {rest : List Char} (h : Unextended rest) :
    readNumber (Nat.toDigits 10 n ++ rest) = some (.ofNat n, rest) := by
  obtain ⟨d, digits, hd, hdigit⟩ := exists_digit n
  have hsign : d ≠ '-' := by
    rintro rfl
    simp at hdigit
  rw [← readUnsigned_toDigits n h, hd]
  simp [readNumber, hsign]

/-! ### Values -/

/-- A text that begins like an entry, not with the bracket that closes the entries. -/
def Starts (cs : List Char) (closing : Char) : Prop :=
  ∃ c tail, skipBlanks cs = c :: tail ∧ c ≠ closing

theorem Starts.append {cs : List Char} {closing : Char} (h : Starts cs closing)
    (rest : List Char) : Starts (cs ++ rest) closing := by
  obtain ⟨c, tail, hcs, hc⟩ := h
  exact ⟨c, tail ++ rest, skipBlanks_append hcs rest, hc⟩

theorem Starts.pad {pre cs : List Char} {closing : Char} (hpre : ∀ c ∈ pre, isBlank c = true)
    (h : Starts cs closing) : Starts (pre ++ cs) closing := by
  obtain ⟨c, tail, hcs, hc⟩ := h
  exact ⟨c, tail, by rw [skipBlanks_blanks hpre, hcs], hc⟩

/-- The text of a value, with blanks around it. -/
structure Reads (cs : List Char) (v : Json) : Prop where
  starts : Starts cs ']'
  reads : ∀ fuel rest, cs.length ≤ fuel → Unextended rest →
    ∃ after, readValue fuel (cs ++ rest) = some (v, after) ∧ skipBlanks after = skipBlanks rest

/-- The text of the items of an array and the bracket after them. -/
structure ReadsItems (cs : List Char) (items : List Json) : Prop where
  starts : Starts cs ']'
  reads : ∀ fuel rest, cs.length ≤ fuel → readItems fuel (cs ++ rest) = some (items, rest)

/-- The text of the members of an object and the brace after them. -/
structure ReadsMembers (cs : List Char) (members : List (String × Json)) : Prop where
  starts : Starts cs '\x7d'
  reads : ∀ fuel rest, cs.length ≤ fuel → readMembers fuel (cs ++ rest) = some (members, rest)

theorem Reads.intro {c : Char} {tail : List Char} {v : Json} (hblank : isBlank c = false)
    (hclosing : c ≠ ']') (h : ∀ fuel rest, tail.length ≤ fuel → Unextended rest →
      readValue (fuel + 1) (c :: (tail ++ rest)) = some (v, rest)) : Reads (c :: tail) v := by
  refine ⟨⟨c, tail, skipBlanks_cons hblank tail, hclosing⟩, fun fuel rest hfuel hrest => ?_⟩
  obtain ⟨fuel, rfl⟩ : ∃ n, fuel = n + 1 := Nat.exists_eq_add_one.2 (Nat.zero_lt_of_lt hfuel)
  exact ⟨rest, h fuel rest (Nat.le_of_succ_le_succ hfuel) hrest, rfl⟩

/-- A value is read up to the comma or bracket after it. -/
theorem Reads.before {cs : List Char} {v : Json} (h : Reads cs v) (c : Char)
    (hc : c ∈ [',', ']', '\x7d']) (rest : List Char) {fuel : Nat} (hfuel : cs.length ≤ fuel) :
    ∃ after, readValue fuel (cs ++ c :: rest) = some (v, after) ∧ skipBlanks after = c :: rest := by
  have hstop : isBlank c = false ∧ Unextended (c :: rest) := by
    simp only [List.mem_cons, List.not_mem_nil, or_false] at hc
    rcases hc with rfl | rfl | rfl <;> simp [isBlank, Unextended]
  obtain ⟨after, hread, hafter⟩ := h.reads fuel (c :: rest) hfuel hstop.2
  exact ⟨after, hread, hafter.trans (skipBlanks_cons hstop.1 rest)⟩

/-- Blanks before a value and after it do not matter. -/
theorem Reads.pad {pre cs post : List Char} {v : Json} (hpre : ∀ c ∈ pre, isBlank c = true)
    (hpost : ∀ c ∈ post, isBlank c = true) (h : Reads cs v) : Reads (pre ++ cs ++ post) v := by
  refine ⟨(h.starts.pad hpre).append post, fun fuel rest hfuel hrest => ?_⟩
  simp only [List.length_append] at hfuel
  obtain ⟨after, hread, hafter⟩ :=
    h.reads fuel (post ++ rest) (by omega) (hrest.blanks hpost)
  refine ⟨after, ?_, by rw [hafter, skipBlanks_blanks hpost]⟩
  rw [List.append_assoc, List.append_assoc, ← readValue_skipBlanks, skipBlanks_blanks hpre,
    readValue_skipBlanks, hread]

theorem ReadsMembers.pad {pre cs : List Char} {members : List (String × Json)}
    (hpre : ∀ c ∈ pre, isBlank c = true) (h : ReadsMembers cs members) :
    ReadsMembers (pre ++ cs) members := by
  refine ⟨h.starts.pad hpre, fun fuel rest hfuel => ?_⟩
  simp only [List.length_append] at hfuel
  rw [List.append_assoc, ← readMembers_skipBlanks, skipBlanks_blanks hpre, readMembers_skipBlanks]
  exact h.reads fuel rest (by omega)

theorem Reads.nat (n : Nat) : Reads (Nat.toDigits 10 n) (.nat n) := by
  obtain ⟨d, digits, hd, hdigit⟩ := exists_digit n
  have hdistinct : ∀ c, c.isDigit = false → d ≠ c := by
    rintro c hc rfl
    simp_all
  have hblank : isBlank d = false := by simp [isBlank, hdistinct]
  rw [hd]
  refine .intro hblank (hdistinct _ rfl) fun fuel rest _ hrest => ?_
  have hnumber := readNumber_toDigits n hrest
  rw [readValue, skipBlanks_cons hblank]
  rw [hd, List.cons_append] at hnumber
  -- A digit is the first character of no other kind of value.
  split <;> simp_all [Json.nat]

theorem toList_quote (s : String) :
    (quote s).toList = '"' :: (s.toList.flatMap escape ++ ['"']) := by
  simp [quote]

theorem readStringFrom_quoted (s : String) (rest : List Char) :
    readStringFrom [] (s.toList.flatMap escape ++ '"' :: rest) = some (s, rest) := by
  simp [readStringFrom_flatMap]

theorem Reads.string (s : String) : Reads (quote s).toList (.string s) := by
  rw [toList_quote]
  refine .intro rfl (by decide) fun fuel rest _ _ => ?_
  simp [readValue, skipBlanks_cons, isBlank, readStringFrom_quoted]

theorem ReadsItems.last {cs : List Char} {v : Json} (h : Reads cs v) :
    ReadsItems (cs ++ [']']) [v] := by
  refine ⟨h.starts.append _, fun fuel rest hfuel => ?_⟩
  simp only [List.length_append, List.length_singleton] at hfuel
  obtain ⟨fuel, rfl⟩ : ∃ n, fuel = n + 1 := Nat.exists_eq_add_one.2 (by omega)
  have hbound : cs.length ≤ fuel := by omega
  obtain ⟨after, hread, hclose⟩ := h.before ']' (by decide) rest hbound
  simp [readItems, hread, hclose]

theorem ReadsItems.cons {cs ds : List Char} {v : Json} {items : List Json} (h : Reads cs v)
    (hs : ReadsItems ds items) : ReadsItems (cs ++ ',' :: ds) (v :: items) := by
  refine ⟨h.starts.append _, fun fuel rest hfuel => ?_⟩
  simp only [List.length_append, List.length_cons] at hfuel
  obtain ⟨fuel, rfl⟩ : ∃ n, fuel = n + 1 := Nat.exists_eq_add_one.2 (by omega)
  have hbound : cs.length ≤ fuel := by omega
  obtain ⟨after, hread, hcomma⟩ := h.before ',' (by decide) (ds ++ rest) hbound
  simp [readItems, hread, hcomma, hs.reads fuel rest (by omega)]

theorem Reads.array {cs : List Char} {items : List Json} (h : ReadsItems cs items) :
    Reads ('[' :: cs) (.array items) := by
  refine .intro rfl (by decide) fun fuel rest hfuel _ => ?_
  obtain ⟨c, tail, hstart, hc⟩ := h.starts.append rest
  have hitems := h.reads fuel rest hfuel
  rw [← readItems_skipBlanks, hstart] at hitems
  rw [readValue, skipBlanks_cons rfl]
  simp only [hstart]
  split <;> simp_all

theorem starts_quote (name : String) (cs : List Char) (closing : Char) (h : '"' ≠ closing) :
    Starts ((quote name).toList ++ cs) closing := by
  rw [toList_quote]
  exact ⟨'"', _, rfl, h⟩

theorem ReadsMembers.last {cs : List Char} {v : Json} (name : String) (h : Reads cs v) :
    ReadsMembers ((quote name).toList ++ ':' :: (cs ++ ['\x7d'])) [(name, v)] := by
  refine ⟨starts_quote _ _ _ (by decide), fun fuel rest hfuel => ?_⟩
  simp only [List.length_append, List.length_cons] at hfuel
  obtain ⟨fuel, rfl⟩ : ∃ n, fuel = n + 1 := Nat.exists_eq_add_one.2 (by omega)
  have hbound : cs.length ≤ fuel := by omega
  obtain ⟨after, hread, hclose⟩ := h.before '\x7d' (by decide) rest hbound
  simp [toList_quote, readMembers, skipBlanks_cons, isBlank, readStringFrom_quoted, hread, hclose]

theorem ReadsMembers.cons {cs ds : List Char} {v : Json} {members : List (String × Json)}
    (name : String) (h : Reads cs v) (hs : ReadsMembers ds members) :
    ReadsMembers ((quote name).toList ++ ':' :: (cs ++ ',' :: ds)) ((name, v) :: members) := by
  refine ⟨starts_quote _ _ _ (by decide), fun fuel rest hfuel => ?_⟩
  simp only [List.length_append, List.length_cons] at hfuel
  obtain ⟨fuel, rfl⟩ : ∃ n, fuel = n + 1 := Nat.exists_eq_add_one.2 (by omega)
  have hbound : cs.length ≤ fuel := by omega
  obtain ⟨after, hread, hcomma⟩ := h.before ',' (by decide) (ds ++ rest) hbound
  simp [toList_quote, readMembers, skipBlanks_cons, isBlank, readStringFrom_quoted, hread, hcomma,
    hs.reads fuel rest (by omega)]

theorem Reads.object {cs : List Char} {members : List (String × Json)}
    (h : ReadsMembers cs members) : Reads ('\x7b' :: cs) (.object members) := by
  refine .intro rfl (by decide) fun fuel rest hfuel _ => ?_
  obtain ⟨c, tail, hstart, hc⟩ := h.starts.append rest
  have hmembers := h.reads fuel rest hfuel
  rw [← readMembers_skipBlanks, hstart] at hmembers
  rw [readValue, skipBlanks_cons rfl]
  simp only [hstart]
  split <;> simp_all

/-! ### Compact text -/

theorem readsItems_compact (v : Json) (items : List Json)
    (h : ∀ w ∈ v :: items, Reads w.compact.toList w) :
    ReadsItems ((",".intercalate (compactItems (v :: items))).toList ++ [']']) (v :: items) := by
  induction items generalizing v with
  | nil =>
    have hv := h v List.mem_cons_self
    simpa [compactItems] using ReadsItems.last hv
  | cons w items ih =>
    have hv := h v List.mem_cons_self
    have hrest := ih w fun u hu => h u (List.mem_cons_of_mem v hu)
    simpa [compactItems, String.toList_intercalate] using ReadsItems.cons hv hrest

theorem readsMembers_compact (p : String × Json) (members : List (String × Json))
    (h : ∀ q ∈ p :: members, Reads q.2.compact.toList q.2) :
    ReadsMembers ((",".intercalate (compactMembers (p :: members))).toList ++ ['\x7d'])
      (p :: members) := by
  induction members generalizing p with
  | nil =>
    have hp := h p List.mem_cons_self
    simpa [compactMembers] using ReadsMembers.last p.1 hp
  | cons q members ih =>
    have hp := h p List.mem_cons_self
    have hrest := ih q fun r hr => h r (List.mem_cons_of_mem p hr)
    simpa [compactMembers, String.toList_intercalate] using ReadsMembers.cons p.1 hp hrest

theorem Plain.reads_compact {v : Json} (h : v.Plain) : Reads v.compact.toList v := by
  induction h with
  | null => exact .intro rfl (by decide) fun _ _ _ _ => rfl
  | bool b =>
    cases b with
    | false => exact .intro rfl (by decide) fun _ _ _ _ => rfl
    | true => exact .intro rfl (by decide) fun _ _ _ _ => rfl
  | nat n =>
    have htext : (compact (.nat n)).toList = Nat.toDigits 10 n := by
      simp [compact, Json.nat, Number.text, Number.ofNat]
    rw [htext]
    exact .nat n
  | string s => exact .string s
  | @array items _ ih =>
    cases items with
    | nil => exact .intro rfl (by decide) fun _ _ _ _ => rfl
    | cons v items => simpa [compact] using Reads.array (readsItems_compact v items ih)
  | @object members _ ih =>
    cases members with
    | nil => exact .intro rfl (by decide) fun _ _ _ _ => rfl
    | cons p members => simpa [compact] using Reads.object (readsMembers_compact p members ih)

/-! ### Text over lines -/

theorem isBlank_margin (level : Nat) : ∀ c ∈ (margin level).toList, isBlank c = true := by
  intro c hc
  obtain ⟨-, rfl⟩ := List.mem_replicate.1 (by simpa [margin] using hc)
  rfl

theorem isBlank_newline_margin (level : Nat) :
    ∀ c ∈ '\n' :: (margin level).toList, isBlank c = true :=
  List.forall_mem_cons.2 ⟨rfl, isBlank_margin level⟩

/-- The lines of some entries, up to the bracket that closes them. -/
def lines (level : Nat) (closing : Char) (entries : List String) : List Char :=
  '\n' :: (",\n".intercalate (entries.map (margin (level + 1) ++ ·))).toList ++
    '\n' :: (margin level).toList ++ [closing]

theorem lines_last (level : Nat) (closing : Char) (entry : String) :
    lines level closing [entry] = ('\n' :: (margin (level + 1)).toList) ++ entry.toList ++
      ('\n' :: (margin level).toList) ++ [closing] := by
  simp [lines]

theorem lines_cons (level : Nat) (closing : Char) (entry next : String) (entries : List String) :
    lines level closing (entry :: next :: entries) =
      ('\n' :: (margin (level + 1)).toList) ++ entry.toList ++
        ',' :: lines level closing (next :: entries) := by
  simp [lines, String.toList_intercalate]

theorem toList_spread (level : Nat) (opening closing : Char) (entry : String)
    (entries : List String) :
    (spread level opening.toString closing.toString (entry :: entries)).toList =
      opening :: lines level closing (entry :: entries) := by
  simp [spread, lines, Char.toString]

theorem readsItems_lines (level : Nat) (v : Json) (items : List Json)
    (h : ∀ w ∈ v :: items, Reads (prettyAt (level + 1) w).toList w) :
    ReadsItems (lines level ']' (prettyItems (level + 1) (v :: items))) (v :: items) := by
  induction items generalizing v with
  | nil =>
    have hv := h v List.mem_cons_self
    rw [prettyItems, prettyItems, lines_last]
    exact .last (hv.pad (isBlank_newline_margin _) (isBlank_newline_margin _))
  | cons w items ih =>
    have hv := h v List.mem_cons_self
    have hrest := ih w fun u hu => h u (List.mem_cons_of_mem v hu)
    rw [prettyItems] at hrest
    rw [prettyItems, prettyItems, lines_cons]
    have hpadded := hv.pad (isBlank_newline_margin (level + 1)) (List.forall_mem_nil _)
    rw [List.append_nil] at hpadded
    exact .cons hpadded hrest

/-- A member on a line of its own, before what closes the object or divides it from the next. -/
theorem reads_member (name : String) {level : Nat} {v : Json} {post : List Char}
    (hpost : ∀ c ∈ post, isBlank c = true) (h : Reads (prettyAt level v).toList v) :
    ∃ cs, Reads cs v ∧
      (quote name ++ ": " ++ prettyAt level v).toList ++ post =
        (quote name).toList ++ ':' :: cs := by
  have hspace : ∀ c ∈ [' '], isBlank c = true := by simp [isBlank]
  exact ⟨_, h.pad hspace hpost, by simp⟩

theorem readsMembers_lines (level : Nat) (p : String × Json) (members : List (String × Json))
    (h : ∀ q ∈ p :: members, Reads (prettyAt (level + 1) q.2).toList q.2) :
    ReadsMembers (lines level '\x7d' (prettyMembers (level + 1) (p :: members)))
      (p :: members) := by
  induction members generalizing p with
  | nil =>
    obtain ⟨cs, hcs, htext⟩ :=
      reads_member p.1 (isBlank_newline_margin level) (h p List.mem_cons_self)
    rw [prettyMembers, prettyMembers, lines_last, List.append_assoc _ _ ('\n' :: _), htext]
    simpa using (ReadsMembers.last p.1 hcs).pad (isBlank_newline_margin (level + 1))
  | cons q members ih =>
    obtain ⟨cs, hcs, htext⟩ :=
      reads_member p.1 (List.forall_mem_nil _) (h p List.mem_cons_self)
    have hrest := ih q fun r hr => h r (List.mem_cons_of_mem p hr)
    rw [prettyMembers] at hrest
    rw [List.append_nil] at htext
    rw [prettyMembers, prettyMembers, lines_cons, htext]
    simpa using (ReadsMembers.cons p.1 hcs hrest).pad (isBlank_newline_margin (level + 1))

theorem Plain.reads_pretty {v : Json} (h : v.Plain) (level : Nat) :
    Reads (prettyAt level v).toList v := by
  induction h generalizing level with
  | null => exact Plain.null.reads_compact
  | bool b => exact (Plain.bool b).reads_compact
  | nat n => exact (Plain.nat n).reads_compact
  | string s => exact .string s
  | @array items _ ih =>
    cases items with
    | nil => exact (Plain.array (List.forall_mem_nil _)).reads_compact
    | cons v items =>
      have hitems := readsItems_lines level v items fun w hw => ih w hw (level + 1)
      exact toList_spread level '[' ']' _ _ ▸ Reads.array hitems
  | @object members _ ih =>
    cases members with
    | nil => exact (Plain.object (List.forall_mem_nil _)).reads_compact
    | cons p members =>
      have hmembers := readsMembers_lines level p members fun q hq => ih q hq (level + 1)
      exact toList_spread level '\x7b' '\x7d' _ _ ▸ Reads.object hmembers

/-! ### Whole texts -/

/-- The text of a value and nothing else is parsed as that value. -/
theorem Reads.parse? {text : String} {v : Json} (h : Reads text.toList v) :
    Json.parse? text = some v := by
  obtain ⟨after, hread, hafter⟩ :=
    h.reads (2 * text.toList.length + 2) [] (by omega) (by simp [Unextended])
  rw [List.append_nil] at hread
  have hend : skipBlanks after = [] := hafter
  simp [Json.parse?, hread, hend]

/-- A text belongs to one value only. -/
theorem Reads.unique {text : String} {v w : Json} (hv : Reads text.toList v)
    (hw : Reads text.toList w) : v = w :=
  Option.some.inj (hv.parse?.symm.trans hw.parse?)

/-- Plain values are told apart by their compact text. -/
theorem Plain.eq_of_compact_eq {v w : Json} (hv : v.Plain) (hw : w.Plain)
    (h : v.compact = w.compact) : v = w :=
  hv.reads_compact.unique (h ▸ hw.reads_compact)

/-- Plain values are told apart by their text over lines. -/
theorem Plain.eq_of_pretty_eq {v w : Json} (hv : v.Plain) (hw : w.Plain)
    (h : v.pretty = w.pretty) : v = w := by
  refine (hv.reads_pretty 0).unique ?_
  rw [show prettyAt 0 v = prettyAt 0 w from h]
  exact hw.reads_pretty 0

end NestTuner.Json
