import Mathlib.Data.List.Forall2
import NestTuner.Mlir.Emit
import NestTuner.Proofs.Texts

/-!
The lines of emitted code as texts. A name is a percent sign with letters, digits and underscores
after it. The names left of the equals sign of a line are defined there and all others are used. A
line that ends with a brace opens a loop or a function, and a line that starts with one closes it.
The lines of an emitted text are the head of the function and the texts of its instructions; what
such a text defines and uses is what the instruction defines and uses, and different values have
different names. The head defines the arguments, if the names written into it are plain.
-/

namespace NestTuner.Mlir

/-! ### Names in a text -/

/-- The characters of names. -/
def isWord (c : Char) : Bool :=
  c.isAlphanum || c == '_'

/-- The names in a text, in order. -/
def names : List Char → List String
  | [] => []
  | c :: rest =>
    if c = '%' then String.ofList (c :: rest.takeWhile isWord) :: names rest else names rest

/-- The names left of the equals sign of a line. -/
def defined (line : String) : List String :=
  if '=' ∈ line.toList then names (line.toList.takeWhile (· != '=')) else []

/-- The names right of the equals sign of a line, or all of them if there is no sign. -/
def used (line : String) : List String :=
  if '=' ∈ line.toList then names (line.toList.dropWhile (· != '=')) else names line.toList

def IsName (s : String) : Prop :=
  ∃ cs, s.toList = '%' :: cs ∧ ∀ c ∈ cs, isWord c = true

/-- A text that ends a name before it and has no name itself. -/
def Gap (s : String) : Prop :=
  '%' ∉ s.toList ∧ (s.toList.head?.any fun c => !isWord c) = true

instance (s : String) : Decidable (Gap s) :=
  inferInstanceAs (Decidable (_ ∧ _))

/-- A text whose names are the same whatever comes after it. -/
def Reads (s : String) (found : List String) : Prop :=
  ∀ rest, names (s.toList ++ rest) = found ++ names rest

theorem names_append_of_free {s : List Char} (h : '%' ∉ s) (rest : List Char) :
    names (s ++ rest) = names rest := by
  induction s with
  | nil => rfl
  | cons c s ih =>
    obtain ⟨hc, hs⟩ := by simpa using h
    rw [List.cons_append, names, if_neg (Ne.symm hc), ih hs]

theorem names_name_append {name : String} (h : IsName name) {rest : List Char}
    (hrest : ∀ c ∈ rest.head?, isWord c = false) :
    names (name.toList ++ rest) = name :: names rest := by
  obtain ⟨cs, hname, hcs⟩ := h
  have hfree : '%' ∉ cs := fun hmem => absurd (hcs _ hmem) (by decide)
  have hstop : rest.takeWhile isWord = [] := by
    cases rest with
    | nil => rfl
    | cons c rest => simp [hrest c (by simp)]
  rw [hname, List.cons_append, names, if_pos rfl, List.takeWhile_append_of_pos hcs, hstop,
    List.append_nil, ← hname, String.ofList_toList, names_append_of_free hfree]

/-- Names have no equals sign and no line end. -/
theorem notMem_of_isName {name : String} (h : IsName name) {c : Char} (hc : c = '=' ∨ c = '\n') :
    c ∉ name.toList := by
  obtain ⟨cs, hname, hcs⟩ := h
  rw [hname]
  intro hmem
  rcases List.mem_cons.mp hmem with hmem | hmem
  · rcases hc with rfl | rfl <;> cases hmem
  · have hword := hcs c hmem
    rcases hc with rfl | rfl <;> revert hword <;> decide

namespace Reads

theorem of_free {s : String} (h : '%' ∉ s.toList) : Reads s [] :=
  names_append_of_free h

theorem append {s t : String} {found found' : List String} (hs : Reads s found)
    (ht : Reads t found') : Reads (s ++ t) (found ++ found') := by
  intro rest
  rw [String.toList_append, List.append_assoc, hs, ht, List.append_assoc]

theorem names_eq {s : String} {found : List String} (h : Reads s found) :
    names s.toList = found := by
  simpa [names] using h []

end Reads

namespace Gap

theorem head? {s : String} (h : Gap s) (rest : List Char) :
    ∀ c ∈ (s.toList ++ rest).head?, isWord c = false := by
  obtain ⟨-, hhead⟩ := h
  cases hs : s.toList with
  | nil => simp [hs] at hhead
  | cons d s => simpa [hs] using hhead

theorem append {s t : String} (hs : Gap s) (ht : '%' ∉ t.toList) : Gap (s ++ t) := by
  obtain ⟨hfree, hhead⟩ := hs
  refine ⟨by simp [hfree, ht], ?_⟩
  cases hs : s.toList with
  | nil => simp [hs] at hhead
  | cons d s => simpa [hs] using hhead

theorem reads {s name : String} (h : Gap s) (hname : IsName name) : Reads (name ++ s) [name] := by
  intro rest
  rw [String.toList_append, List.append_assoc, names_name_append hname (h.head? rest),
    names_append_of_free h.1]
  rfl

theorem reads_list {s : String} (h : Gap s) {found : List String}
    (hfound : ∀ name ∈ found, IsName name) : Reads (", ".intercalate found ++ s) found := by
  induction found with
  | nil => simpa using Reads.of_free h.1
  | cons name rest ih =>
    obtain ⟨hname, hrest⟩ := List.forall_mem_cons.mp hfound
    cases rest with
    | nil => simpa using h.reads hname
    | cons name' rest =>
      have hcomma : Gap ", " := by decide
      rw [String.intercalate_cons_cons, String.append_assoc]
      exact (hcomma.reads hname).append (ih hrest)

end Gap

/-- A line without an equals sign. -/
theorem sides_of_free {line : String} {found : List String} (hline : '=' ∉ line.toList)
    (h : Reads line found) : defined line = [] ∧ used line = found := by
  rw [defined, used, if_neg hline, if_neg hline]
  exact ⟨rfl, h.names_eq⟩

/-- A line without names. -/
theorem sides_of_nameless {line : String} (h : '%' ∉ line.toList) :
    defined line = [] ∧ used line = [] := by
  have hnone : ∀ part, part ⊆ line.toList → names part = [] := by
    intro part hpart
    simpa [names] using names_append_of_free (fun hmem => h (hpart hmem)) []
  unfold defined used
  split
  · exact ⟨hnone _ (List.takeWhile_sublist _).subset, hnone _ (List.dropWhile_sublist _).subset⟩
  · exact ⟨rfl, hnone _ (List.Subset.refl _)⟩

/-- The names on both sides of the first equals sign. -/
theorem sides_eq {line : String} {left right : List Char}
    (hline : line.toList = left ++ '=' :: right) (hleft : '=' ∉ left) :
    defined line = names left ∧ used line = names right := by
  have hmem : '=' ∈ line.toList := by simp [hline]
  have hnone : ∀ c ∈ left, (c != '=') = true := fun c hc =>
    bne_iff_ne.mpr fun heq => hleft (heq ▸ hc)
  rw [defined, used, if_pos hmem, if_pos hmem, hline, List.takeWhile_append_of_pos hnone,
    List.dropWhile_append_of_pos hnone, List.takeWhile_cons_of_neg (by decide),
    List.dropWhile_cons_of_neg (by decide), List.append_nil, names, if_neg (by decide)]
  exact ⟨rfl, rfl⟩

/-- A line that sets one name. -/
theorem sides_of_assignment {before name gap after : String} {found : List String}
    (hbefore : '%' ∉ before.toList ∧ '=' ∉ before.toList) (hname : IsName name) (hgap : Gap gap)
    (hsign : '=' ∈ gap.toList) (hafter : Reads after found) :
    defined (before ++ name ++ gap ++ after) = [name] ∧
      used (before ++ name ++ gap ++ after) = found := by
  obtain ⟨left, right, hsplit, hleft⟩ := List.eq_append_cons_of_mem hsign
  obtain ⟨hfree, hright⟩ : '%' ∉ left ∧ '%' ∉ right := by simpa [hsplit] using hgap.1
  have hline : (before ++ name ++ gap ++ after).toList =
      (before.toList ++ (name.toList ++ left)) ++ '=' :: (right ++ after.toList) := by
    simp [hsplit]
  have hnone : '=' ∉ before.toList ++ (name.toList ++ left) := by
    have hname' := notMem_of_isName hname (.inl rfl)
    grind
  have hstop : ∀ c ∈ left.head?, isWord c = false := by
    intro c hc
    have hhead := hgap.head? [] c
    rw [List.append_nil, hsplit, List.head?_append] at hhead
    exact hhead (by rw [Option.mem_def.mp hc]; rfl)
  obtain ⟨hdefined, hused⟩ := sides_eq hline hnone
  rw [hdefined, hused, names_append_of_free hbefore.1, names_name_append hname hstop,
    ← List.append_nil left, names_append_of_free hfree, names_append_of_free hright,
    hafter.names_eq]
  exact ⟨rfl, rfl⟩

/-! ### Lines that open and close loops -/

def opens (line : String) : Bool :=
  line.toList.getLast? == some '\x7b'

def closes (line : String) : Bool :=
  line.toList.head? == some '\x7d'

/-- Lines in which every brace that is opened is closed, the one opened last first. -/
inductive Balanced : List String → Prop
  | nil : Balanced []
  | line {line : String} {rest : List String} (hopens : opens line = false)
      (hcloses : closes line = false) (hrest : Balanced rest) : Balanced (line :: rest)
  | loop {first last : String} {body rest : List String} (hopens : opens first = true)
      (hfirst : closes first = false) (hbody : Balanced body) (hlast : opens last = false)
      (hcloses : closes last = true) (hrest : Balanced rest) :
      Balanced (first :: body ++ last :: rest)

/-- A text that is joined from parts begins and ends as the first and the last of them. -/
theorem ends_of_parts {first last : String} (hfirst : first ≠ "") (hlast : last ≠ "")
    (parts : List String) :
    (parts.foldl (· ++ ·) first ++ last).toList.head? = first.toList.head? ∧
      (parts.foldl (· ++ ·) first ++ last).toList.getLast? = last.toList.getLast? := by
  have hjoined : (parts.foldl (· ++ ·) first).toList =
      first.toList ++ parts.flatMap String.toList := by
    induction parts generalizing first with
    | nil => simp
    | cons part rest ih =>
      rw [List.foldl_cons, ih (by simp [hfirst]), String.toList_append, List.flatMap_cons,
        List.append_assoc]
  obtain ⟨c, cs, hcs⟩ := List.exists_cons_of_ne_nil (mt String.toList_eq_nil_iff.mp hfirst)
  have hend := List.getLast?_eq_some_getLast (mt String.toList_eq_nil_iff.mp hlast)
  constructor
  · rw [String.toList_append, hjoined, hcs]
    rfl
  · rw [String.toList_append, List.getLast?_append, hend, Option.some_or]

/-! ### The names of values -/

/-- The name with a word and numbers. -/
def label (word : String) (numbers : List Nat) : String :=
  "%" ++ (word ++ numerals numbers)

section Label

variable {word word' : String} {numbers numbers' : List Nat}
  (hword : ∀ c ∈ word.toList, c.isAlpha = true)

include hword

theorem isName_label : IsName (label word numbers) := by
  refine ⟨(word ++ numerals numbers).toList, by simp [label], fun c hc => ?_⟩
  rw [String.toList_append] at hc
  rcases List.mem_append.mp hc with hc | hc
  · simp [isWord, Char.isAlphanum, hword c hc]
  · rcases mem_numerals hc with hdigit | rfl
    · simp [isWord, Char.isAlphanum, hdigit]
    · rfl

theorem eq_of_label_eq (hword' : ∀ c ∈ word'.toList, c.isAlpha = true)
    (h : label word numbers = label word' numbers') : word = word' ∧ numbers = numbers' :=
  eq_of_append_numerals hword hword' ((String.append_right_inj _).mp h)

end Label

namespace Value

/-- The word of the name of a value. -/
def word : Value → String
  | const _ => "c"
  | index _ => "l"
  | scaled _ => "t"
  | partialSum _ _ => "iv"
  | lhs => "lhs"
  | rhs => "rhs"
  | acc => "acc"
  | prod => "prod"
  | sum => "sum"
  | input _ => "in"
  | res => "res"

/-- The numbers in the name of a value. -/
def numbers : Value → List Nat
  | const n => [n]
  | index loop => [loop]
  | scaled loop => [loop]
  | partialSum iterator n => [iterator, n]
  | input n => [n]
  | _ => []

theorem text_eq (v : Value) : v.text = label v.word v.numbers := by
  rw [← String.toList_inj]
  cases v <;> simp [text, label, word, numbers, numerals, ToString.toString]

theorem isAlpha_word (v : Value) : ∀ c ∈ v.word.toList, c.isAlpha = true := by
  cases v <;> simp [word]

theorem isName_text (v : Value) : IsName v.text :=
  v.text_eq ▸ isName_label v.isAlpha_word

theorem text_injective : Function.Injective text := by
  intro v w h
  rw [text_eq, text_eq] at h
  obtain ⟨hword, hnumbers⟩ := eq_of_label_eq v.isAlpha_word w.isAlpha_word h
  cases v <;> cases w <;> simp_all [word, numbers]

end Value

/-- The name of an argument of a function. -/
def argumentName (i : Nat) : String :=
  s!"%arg{i}"

theorem argumentName_eq (i : Nat) : argumentName i = label "arg" [i] := by
  rw [← String.toList_inj]
  simp [argumentName, label, numerals, ToString.toString]

theorem isName_argumentName (i : Nat) : IsName (argumentName i) :=
  argumentName_eq i ▸ isName_label (by simp)

theorem argumentName_injective : Function.Injective argumentName := by
  intro i j h
  rw [argumentName_eq, argumentName_eq] at h
  simpa using (eq_of_label_eq (by simp) (by simp) h).2

theorem argumentName_ne_text (i : Nat) (v : Value) : argumentName i ≠ v.text := by
  intro h
  rw [argumentName_eq, v.text_eq] at h
  have hword := (eq_of_label_eq (by simp) v.isAlpha_word h).1
  cases v <;> simp [Value.word] at hword

theorem mem_memref {t : Tensor} {c : Char} (h : c ∈ t.memref.toList) :
    isWord c = true ∨ c = '<' ∨ c = '>' := by
  have hhead : ∀ c ∈ "memref<".toList, isWord c = true ∨ c = '<' ∨ c = '>' := by
    simp [isWord]
  have htype : ∀ type : ElementType, ∀ c ∈ type.text.toList, isWord c = true := by
    intro type
    cases type <;> simp [isWord, ElementType.text]
  rw [Tensor.memref, String.toList_append, String.toList_append] at h
  rcases List.mem_append.mp h with h | h
  · rcases List.mem_append.mp h with h | h
    · exact hhead c h
    · refine .inl ?_
      rcases mem_intercalate h with h | ⟨f, hf, h⟩
      · obtain rfl : c = 'x' := by simpa using h
        rfl
      · rcases List.mem_append.mp hf with hf | hf
        · obtain ⟨n, -, rfl⟩ := List.mem_map.mp hf
          simp [isWord, Char.isAlphanum, isDigit_of_mem_repr h]
        · obtain rfl := List.mem_singleton.mp hf
          exact htype t.element c h
  · exact .inr (.inr (by simpa using h))

namespace Element

/-- The names in the text of an element. -/
def uses (e : Element) : List String :=
  argumentName e.argument :: e.subscripts.map Value.text

theorem isName_of_mem_uses {e : Element} : ∀ name ∈ e.uses, IsName name := by
  intro name hname
  rcases List.mem_cons.mp hname with rfl | hname
  · exact isName_argumentName _
  · obtain ⟨v, -, rfl⟩ := List.mem_map.mp hname
    exact v.isName_text

theorem text_eq (e : Element) : e.text = argumentName e.argument ++ "[" ++
    (", ".intercalate (e.subscripts.map Value.text) ++ ("] : " ++ e.tensor.memref)) := by
  simp [text, argumentName, String.append_assoc, ToString.toString]

theorem reads_text (e : Element) : Reads e.text e.uses := by
  have hopen : Gap "[" := by decide
  have hend : Gap ("] : " ++ e.tensor.memref) := by
    refine Gap.append (by decide) fun hmem => ?_
    exact absurd (mem_memref hmem) (by decide)
  obtain ⟨hargument, hsubscripts⟩ := List.forall_mem_cons.mp e.isName_of_mem_uses
  rw [text_eq]
  exact (hopen.reads hargument).append (hend.reads_list hsubscripts)

theorem notMem_text (e : Element) {c : Char} (hc : c = '=' ∨ c = '\n') : c ∉ e.text.toList := by
  obtain ⟨hargument, hsubscripts⟩ := List.forall_mem_cons.mp e.isName_of_mem_uses
  intro h
  have hmem : c ∈ (argumentName e.argument).toList ∨
      c ∈ (", ".intercalate (e.subscripts.map Value.text)).toList ∨
      c ∈ e.tensor.memref.toList := by
    rcases hc with rfl | rfl <;> simpa [text_eq] using h
  rcases hmem with h | h | h
  · exact notMem_of_isName hargument hc h
  · rcases mem_intercalate h with h | ⟨name, hname, h⟩
    · rcases hc with rfl | rfl <;> revert h <;> decide
    · exact notMem_of_isName (hsubscripts name hname) hc h
  · have hmemref := mem_memref h
    rcases hc with rfl | rfl <;> revert hmemref <;> decide

end Element

namespace Op

/-- The values that an instruction defines. -/
def results : Op → List Value
  | constant n => [.const n]
  | enter loop _ _ => [.index loop]
  | leave _ => []
  | muli result _ _ => [result]
  | addi result _ _ => [result]
  | load result _ => [result]
  | mulf result _ _ _ => [result]
  | addf result _ _ _ => [result]
  | store _ _ => []

/-- The names that an instruction uses, in the order of its text. -/
def uses : Op → List String
  | constant _ => []
  | enter _ extent _ => [Value.const 0, .const extent, .const 1].map Value.text
  | leave _ => []
  | muli _ a b => [a.text, b.text]
  | addi _ a b => [a.text, b.text]
  | load _ source => source.uses
  | mulf _ a b _ => [a.text, b.text]
  | addf _ a b _ => [a.text, b.text]
  | store value target => value.text :: target.uses

/-- What an instruction on two values defines and uses. -/
theorem sides_of_binary (result a b : Value) {mnemonic type : String} (hmnemonic : Gap mnemonic)
    (hsign : '=' ∈ mnemonic.toList) (htype : Gap type) :
    defined (result.text ++ mnemonic ++ a.text ++ ", " ++ b.text ++ type) = [result.text] ∧
      used (result.text ++ mnemonic ++ a.text ++ ", " ++ b.text ++ type) = [a.text, b.text] := by
  have hcomma : Gap ", " := by decide
  have hoperands : Reads ((a.text ++ ", ") ++ (b.text ++ type)) [a.text, b.text] :=
    (hcomma.reads a.isName_text).append (htype.reads b.isName_text)
  have h := @sides_of_assignment "" _ _ _ _ (by simp) result.isName_text hmnemonic hsign hoperands
  simpa [String.append_assoc] using h

/-- What the head of a loop defines and uses. -/
theorem sides_of_loop (loop extent : Nat) {head start stop step last : String}
    (hhead : '%' ∉ head.toList ∧ '=' ∉ head.toList) (hstart : Gap start)
    (hsign : '=' ∈ start.toList) (hstop : Gap stop) (hstep : Gap step) (hlast : Gap last) :
    let line := head ++ (Value.index loop).text ++ start ++ ((Value.const 0).text ++ stop ++
      ((Value.const extent).text ++ step ++ ((Value.const 1).text ++ last)))
    defined line = [(Value.index loop).text] ∧
      used line = [Value.const 0, .const extent, .const 1].map Value.text :=
  sides_of_assignment hhead (Value.isName_text _) hstart hsign
    ((hstop.reads (Value.isName_text _)).append ((hstep.reads (Value.isName_text _)).append
      (hlast.reads (Value.isName_text _))))

theorem sides_enter (loop extent : Nat) (parallel : Bool) :
    defined (enter loop extent parallel).text = [(Value.index loop).text] ∧
      used (enter loop extent parallel).text = (enter loop extent parallel).uses := by
  cases parallel with
  | false =>
    have hhead : "scf.for %l" = "scf.for " ++ "%l" := rfl
    have hstart : " = %c0 to %c" = " = " ++ ("%c0" ++ (" to " ++ "%c")) := rfl
    have hlast : " step %c1 \x7b" = " step " ++ ("%c1" ++ " \x7b") := rfl
    have htext : (enter loop extent false).text = "scf.for " ++ ("%l" ++ loop.repr) ++ " = " ++
        ("%c0" ++ " to " ++ ("%c" ++ extent.repr ++ " step " ++ ("%c1" ++ " \x7b"))) := by
      show "scf.for %l" ++ loop.repr ++ " = %c0 to %c" ++ extent.repr ++ " step %c1 \x7b" = _
      simp only [hhead, hstart, hlast, String.append_assoc]
    rw [htext]
    exact sides_of_loop loop extent (by decide) (by decide) (by decide) (by decide) (by decide)
      (by decide)
  | true =>
    have hhead : "scf.parallel (%l" = "scf.parallel (" ++ "%l" := rfl
    have hstart : ") = (%c0) to (%c" = ") = (" ++ ("%c0" ++ (") to (" ++ "%c")) := rfl
    have hlast : ") step (%c1) \x7b" = ") step (" ++ ("%c1" ++ ") \x7b") := rfl
    have htext : (enter loop extent true).text = "scf.parallel (" ++ ("%l" ++ loop.repr) ++
        ") = (" ++ ("%c0" ++ ") to (" ++ ("%c" ++ extent.repr ++ ") step (" ++
          ("%c1" ++ ") \x7b"))) := by
      show "scf.parallel (%l" ++ loop.repr ++ ") = (%c0) to (%c" ++ extent.repr ++
        ") step (%c1) \x7b" = _
      simp only [hhead, hstart, hlast, String.append_assoc]
    rw [htext]
    exact sides_of_loop loop extent (by decide) (by decide) (by decide) (by decide) (by decide)
      (by decide)

theorem sides_text (op : Op) :
    defined op.text = op.results.map Value.text ∧ used op.text = op.uses := by
  have hdigits : ∀ n : Nat, '%' ∉ Nat.toDigits 10 n := fun n hmem =>
    absurd (Nat.isDigit_of_mem_toDigits (by decide) (by decide) hmem) (by decide)
  have htype : ∀ type : ElementType, Gap (" : " ++ type.text) := by
    intro type
    cases type <;> decide
  cases op with
  | constant n =>
    have hvalue : '%' ∉ (n.repr ++ " : index").toList := by simp [hdigits]
    have h := @sides_of_assignment "" _ " = arith.constant " _ _ (by simp)
      (Value.const n).isName_text (by decide) (by decide) (.of_free hvalue)
    rwa [String.empty_append, ← String.append_assoc] at h
  | enter loop extent parallel => exact sides_enter loop extent parallel
  | leave width =>
    refine sides_of_nameless ?_
    cases width with
    | none => decide
    | some width =>
      show '%' ∉ ("\x7d \x7blooptune.vector_width = " ++ width.repr ++ " : i64\x7d").toList
      simp [hdigits]
  | muli result a b => exact sides_of_binary result a b (by decide) (by decide) (by decide)
  | addi result a b => exact sides_of_binary result a b (by decide) (by decide) (by decide)
  | load result source =>
    have h := @sides_of_assignment "" _ " = memref.load " _ _ (by simp) result.isName_text
      (by decide) (by decide) source.reads_text
    rwa [String.empty_append] at h
  | mulf result a b type =>
    have h := @sides_of_binary result a b " = arith.mulf " _ (by decide) (by decide) (htype type)
    rwa [← String.append_assoc] at h
  | addf result a b type =>
    have h := @sides_of_binary result a b " = arith.addf " _ (by decide) (by decide) (htype type)
    rwa [← String.append_assoc] at h
  | store value target =>
    have hcomma : Gap ", " := by decide
    have hfree : Reads "memref.store " [] := .of_free (by decide)
    have h : Reads ("memref.store " ++ (value.text ++ ", ") ++ target.text)
        (value.text :: target.uses) :=
      (hfree.append (hcomma.reads value.isName_text)).append target.reads_text
    rw [← String.append_assoc] at h
    refine sides_of_free ?_ h
    show '=' ∉ ("memref.store " ++ value.text ++ ", " ++ target.text).toList
    simp [notMem_of_isName value.isName_text (.inl rfl), target.notMem_text (.inl rfl)]

/-- The first and the last character of the text of an instruction. -/
def ends : Op → Option Char × Option Char
  | constant _ => (some '%', some 'x')
  | enter _ _ _ => (some 's', some '\x7b')
  | leave _ => (some '\x7d', some '\x7d')
  | muli _ _ _ => (some '%', some 'x')
  | addi _ _ _ => (some '%', some 'x')
  | load _ _ => (some '%', some '>')
  | mulf _ _ _ type => (some '%', type.text.toList.getLast?)
  | addf _ _ _ type => (some '%', type.text.toList.getLast?)
  | store _ _ => (some 'm', some '>')

theorem ends_text (op : Op) :
    op.text.toList.head? = op.ends.1 ∧ op.text.toList.getLast? = op.ends.2 := by
  have hvalue : ∀ v : Value, v.text ≠ "" ∧ v.text.toList.head? = some '%' := by
    intro v
    obtain ⟨cs, hname, -⟩ := v.isName_text
    refine ⟨?_, by rw [hname]; rfl⟩
    rintro hempty
    simp [hempty] at hname
  have htype : ∀ type : ElementType, type.text ≠ "" := by
    intro type
    cases type <;> decide
  have hmemref : ∀ t : Tensor, t.memref ≠ "" ∧ t.memref.toList.getLast? = some '>' := by
    intro t
    have hends : t.memref.toList.head? = some 'm' ∧ t.memref.toList.getLast? = some '>' :=
      ends_of_parts (by decide) (by decide) [_]
    exact ⟨by simp [Tensor.memref], hends.2⟩
  have helement : ∀ e : Element, e.text ≠ "" ∧ e.text.toList.getLast? = some '>' := by
    intro e
    have hends : e.text.toList.head? = some '%' ∧
        e.text.toList.getLast? = e.tensor.memref.toList.getLast? :=
      ends_of_parts (by decide) (hmemref _).1 [_, _, _, _]
    exact ⟨by simp [Element.text], hends.2.trans (hmemref _).2⟩
  cases op with
  | constant n => exact ends_of_parts (by decide) (by decide) [_, _, _]
  | enter loop extent parallel =>
    cases parallel with
    | false => exact ends_of_parts (by decide) (by decide) [_, _, _]
    | true => exact ends_of_parts (by decide) (by decide) [_, _, _]
  | leave width =>
    cases width with
    | none => decide
    | some width => exact ends_of_parts (by decide) (by decide) [_]
  | muli result a b =>
    exact (ends_of_parts (hvalue result).1 (by decide) [_, _, _, _]).imp_left
      (·.trans (hvalue result).2)
  | addi result a b =>
    exact (ends_of_parts (hvalue result).1 (by decide) [_, _, _, _]).imp_left
      (·.trans (hvalue result).2)
  | load result source =>
    exact (ends_of_parts (hvalue result).1 (helement source).1 [_]).imp
      (·.trans (hvalue result).2) (·.trans (helement source).2)
  | mulf result a b type =>
    exact (ends_of_parts (hvalue result).1 (htype type) [_, _, _, _, _]).imp_left
      (·.trans (hvalue result).2)
  | addf result a b type =>
    exact (ends_of_parts (hvalue result).1 (htype type) [_, _, _, _, _]).imp_left
      (·.trans (hvalue result).2)
  | store value target =>
    exact (ends_of_parts (by decide) (helement target).1 [_, _]).imp_right
      (·.trans (helement target).2)

/-- Whether an instruction opens a loop, and whether it closes one. -/
def braces : Op → Bool × Bool
  | enter .. => (true, false)
  | leave .. => (false, true)
  | _ => (false, false)

theorem braces_text (op : Op) : opens op.text = op.braces.1 ∧ closes op.text = op.braces.2 := by
  obtain ⟨hfirst, hlast⟩ := op.ends_text
  rw [opens, closes, hfirst, hlast]
  cases op with
  | mulf _ _ _ type | addf _ _ _ type => cases type <;> exact ⟨rfl, rfl⟩
  | _ => exact ⟨rfl, rfl⟩

theorem newline_notMem_text (op : Op) : '\n' ∉ op.text.toList := by
  have hdigits : ∀ n : Nat, '\n' ∉ Nat.toDigits 10 n := fun n hmem =>
    absurd (Nat.isDigit_of_mem_toDigits (by decide) (by decide) hmem) (by decide)
  have hvalue : ∀ v : Value, '\n' ∉ v.text.toList := fun v =>
    notMem_of_isName v.isName_text (.inr rfl)
  have helement : ∀ e : Element, '\n' ∉ e.text.toList := fun e => e.notMem_text (.inr rfl)
  have htype : ∀ type : ElementType, '\n' ∉ type.text.toList := by
    intro type
    cases type <;> decide
  cases op with
  | constant n =>
    show '\n' ∉ ("%c" ++ n.repr ++ " = arith.constant " ++ n.repr ++ " : index").toList
    simp [hdigits]
  | enter loop extent parallel =>
    cases parallel with
    | false =>
      show '\n' ∉ ("scf.for %l" ++ loop.repr ++ " = %c0 to %c" ++ extent.repr ++
        " step %c1 \x7b").toList
      simp [hdigits]
    | true =>
      show '\n' ∉ ("scf.parallel (%l" ++ loop.repr ++ ") = (%c0) to (%c" ++ extent.repr ++
        ") step (%c1) \x7b").toList
      simp [hdigits]
  | leave width =>
    cases width with
    | none => decide
    | some width =>
      show '\n' ∉ ("\x7d \x7blooptune.vector_width = " ++ width.repr ++ " : i64\x7d").toList
      simp [hdigits]
  | muli result a b =>
    show '\n' ∉ (result.text ++ " = arith.muli " ++ a.text ++ ", " ++ b.text ++ " : index").toList
    simp [hvalue]
  | addi result a b =>
    show '\n' ∉ (result.text ++ " = arith.addi " ++ a.text ++ ", " ++ b.text ++ " : index").toList
    simp [hvalue]
  | load result source =>
    show '\n' ∉ (result.text ++ " = memref.load " ++ source.text).toList
    simp [hvalue, helement]
  | mulf result a b type =>
    show '\n' ∉ (result.text ++ " = arith.mulf " ++ a.text ++ ", " ++ b.text ++ " : " ++
      type.text).toList
    simp [hvalue, htype]
  | addf result a b type =>
    show '\n' ∉ (result.text ++ " = arith.addf " ++ a.text ++ ", " ++ b.text ++ " : " ++
      type.text).toList
    simp [hvalue, htype]
  | store value target =>
    show '\n' ∉ ("memref.store " ++ value.text ++ ", " ++ target.text).toList
    simp [hvalue, helement]

end Op

/-! ### Texts of many lines -/

/-- The lines of a text that ends its lines, without the blanks before them. -/
def textLines (text : String) : List String :=
  (text.toList.splitOn '\n').dropLast.map fun line => String.ofList (line.dropWhile (· == ' '))

theorem textLines_append {line : String} (h : '\n' ∉ line.toList) (rest : String) :
    textLines (line ++ "\n" ++ rest) =
      String.ofList (line.toList.dropWhile (· == ' ')) :: textLines rest := by
  have htext : (line ++ "\n" ++ rest).toList = line.toList ++ '\n' :: rest.toList := by simp
  have hfree : ∀ c ∈ line.toList, (c == '\n') = false := by
    intro c hc
    exact beq_eq_false_iff_ne.mpr fun heq => h (heq ▸ hc)
  rw [textLines, htext, List.splitOn, List.splitOnP_append_cons_of_forall_mem hfree _ rfl,
    List.dropLast_cons_of_ne_nil (List.splitOnP_ne_nil _ _), List.map_cons]
  rfl

theorem dropWhile_indent (n : Nat) (op : Op) :
    (List.replicate n ' ' ++ op.text.toList).dropWhile (· == ' ') = op.text.toList := by
  have hblank : op.text.toList.head? ≠ some ' ' := by
    rw [op.ends_text.1]
    cases op <;> simp [Op.ends]
  rw [List.dropWhile_append_of_pos (by simp)]
  cases htext : op.text.toList with
  | nil => rfl
  | cons c rest => exact List.dropWhile_cons_of_neg (by simpa [htext] using hblank)

theorem textLines_lines_append (level : Nat) (ops : List Op) (rest : String) :
    textLines (lines level ops ++ rest) = ops.map Op.text ++ textLines rest := by
  induction ops generalizing level with
  | nil => simp [lines]
  | cons op more ih =>
    have hfree : '\n' ∉ (String.ofList (List.replicate (2 * op.ownLevel level) ' ') ++
        op.text).toList := by
      simpa using op.newline_notMem_text
    have htext : lines level (op :: more) ++ rest =
        String.ofList (List.replicate (2 * op.ownLevel level) ' ') ++ op.text ++ "\n" ++
          (lines (op.levelAfter level) more ++ rest) := by
      simp [lines, String.append_assoc]
    rw [htext, textLines_append hfree, ih, String.toList_append, String.toList_ofList,
      dropWhile_indent, String.ofList_toList]
    rfl

theorem textLines_lines (level : Nat) (ops : List Op) :
    textLines (lines level ops) = ops.map Op.text := by
  simpa [textLines] using textLines_lines_append level ops ""

theorem textLines_end : textLines "    return\n  \x7d\n" = ["return", "\x7d"] := by
  decide

/-! ### The head of a function -/

/-- Names that leave the head of a function on one line, with no names of values in them and no
equals sign before that of the schedule. -/
structure PlainNames (k : Kernel) : Prop where
  kernel : '%' ∉ k.name.toList ∧ '=' ∉ k.name.toList ∧ '\n' ∉ k.name.toList
  iterators : ∀ it ∈ k.iterators, '%' ∉ it.name.toList ∧ '\n' ∉ it.name.toList

instance (k : Kernel) : Decidable (PlainNames k) :=
  decidable_of_iff (('%' ∉ k.name.toList ∧ '=' ∉ k.name.toList ∧ '\n' ∉ k.name.toList) ∧
    ∀ it ∈ k.iterators, '%' ∉ it.name.toList ∧ '\n' ∉ it.name.toList)
    ⟨fun h => ⟨h.1, h.2⟩, fun h => ⟨h.1, h.2⟩⟩

/-- The arguments of a function with their types. -/
def argumentList (k : Kernel) : String :=
  ", ".intercalate (k.tensors.mapIdx fun i t => argumentName i ++ (": " ++ t.memref))

/-- The schedule of a function and what stands after it. -/
def scheduleText (k : Kernel) : String :=
  " \"" ++ k.summary ++ "\"\x7d \x7b"

/-- What stands after the name in the head of a function. -/
def headTail (k : Kernel) : String :=
  "(" ++ argumentList k ++ ") attributes \x7blooptune.schedule " ++ "=" ++ scheduleText k

def headLine (k : Kernel) : String :=
  "func.func @" ++ k.name ++ headTail k

theorem header_eq (k : Kernel) : header k = "  " ++ headLine k ++ "\n" := by
  have hstart : "  func.func @" = "  " ++ "func.func @" := rfl
  have hmiddle : ") attributes \x7blooptune.schedule " = ") attributes " ++
      "\x7blooptune.schedule " := rfl
  have hschedule : "\x7blooptune.schedule = \"" = "\x7blooptune.schedule " ++ ("=" ++ " \"") := rfl
  have hend : "\"\x7d \x7b\n" = "\"\x7d \x7b" ++ "\n" := rfl
  have harguments : ", ".intercalate (k.tensors.mapIdx fun i t =>
      "%arg" ++ i.repr ++ ": " ++ t.memref) = argumentList k := by
    simp [argumentList, argumentName, String.append_assoc, ToString.toString]
  show "  func.func @" ++ k.name ++ "(" ++ ", ".intercalate (k.tensors.mapIdx fun i t =>
    "%arg" ++ i.repr ++ ": " ++ t.memref) ++ ") attributes " ++
      ("\x7blooptune.schedule = \"" ++ k.summary ++ "\"\x7d \x7b\n") = _
  rw [harguments, hstart, hschedule, hend]
  simp only [headLine, headTail, scheduleText, hmiddle, String.append_assoc]

theorem notMem_summary {k : Kernel} {c : Char} (hc : c = '%' ∨ c = '\n')
    (h : ∀ it ∈ k.iterators, c ∉ it.name.toList) : c ∉ k.summary.toList := by
  have hdigits : ∀ n : Nat, c ∉ Nat.toDigits 10 n := by
    intro n hmem
    have hdigit := Nat.isDigit_of_mem_toDigits (by decide) (by decide) hmem
    rcases hc with rfl | rfl <;> revert hdigit <;> decide
  have hname : ∀ i, c ∉ (k.iteratorName i).toList := by
    intro i
    unfold Kernel.iteratorName
    split
    case h_1 it hit => exact h it (List.mem_of_getElem? hit)
    case h_2 => rcases hc with rfl | rfl <;> decide
  have hloop : ∀ i l, c ∉ (k.loopSummary i l).toList := by
    intro i l
    unfold Kernel.loopSummary
    rcases hc with rfl | rfl <;> cases l.parallel <;> cases l.vectorWidth <;> split <;>
      simp [hname, hdigits]
  intro hmem
  rcases mem_intercalate hmem with hmem | ⟨text, htext, hmem⟩
  · rcases hc with rfl | rfl <;> revert hmem <;> decide
  · obtain ⟨i, hi, rfl⟩ := List.mem_mapIdx.mp htext
    exact hloop i _ hmem

theorem Reads.intercalate {texts found : List String}
    (h : List.Forall₂ (fun text name => Reads text [name]) texts found) :
    Reads (", ".intercalate texts) found := by
  induction h with
  | nil => exact .of_free (by simp)
  | @cons text name texts found htext hrest ih =>
    cases texts with
    | nil =>
      cases hrest
      simpa using htext
    | cons next texts =>
      have hcomma : Reads ", " [] := .of_free (by decide)
      rw [String.intercalate_cons_cons]
      simpa using (htext.append hcomma).append ih

theorem reads_argumentList (k : Kernel) :
    Reads (argumentList k) ((List.range k.tensors.length).map argumentName) := by
  have hrange : (List.range k.tensors.length).map argumentName =
      k.tensors.zipIdx.map fun x => argumentName x.2 := by
    rw [List.range_eq_range', ← List.zipIdx_map_snd, List.map_map]
    rfl
  rw [argumentList, List.mapIdx_eq_zipIdx_map, hrange]
  refine Reads.intercalate ?_
  rw [List.forall₂_map_left_iff, List.forall₂_map_right_iff]
  refine List.forall₂_same.mpr fun x _ => Gap.reads ?_ (isName_argumentName x.2)
  exact Gap.append (by decide) fun hmem => absurd (mem_memref hmem) (by decide)

theorem notMem_argumentList (k : Kernel) {c : Char} (hc : c = '=' ∨ c = '\n') :
    c ∉ (argumentList k).toList := by
  intro hmem
  rcases mem_intercalate hmem with hmem | ⟨text, htext, hmem⟩
  · rcases hc with rfl | rfl <;> revert hmem <;> decide
  · obtain ⟨i, hi, rfl⟩ := List.mem_mapIdx.mp htext
    rw [String.toList_append, String.toList_append] at hmem
    rcases List.mem_append.mp hmem with hmem | hmem
    · exact notMem_of_isName (isName_argumentName i) hc hmem
    · rcases List.mem_append.mp hmem with hmem | hmem
      · rcases hc with rfl | rfl <;> revert hmem <;> decide
      · have hmemref := mem_memref hmem
        rcases hc with rfl | rfl <;> revert hmemref <;> decide

theorem ends_headTail (k : Kernel) :
    (headTail k).toList.head? = some '(' ∧ (headTail k).toList.getLast? = some '\x7b' := by
  have htail : headTail k = [argumentList k, ") attributes \x7blooptune.schedule ", "=", " \"",
      k.summary].foldl (· ++ ·) "(" ++ "\"\x7d \x7b" := by
    simp only [headTail, scheduleText, List.foldl_cons, List.foldl_nil, String.append_assoc]
  rw [htail, (ends_of_parts (by decide) (by decide) _).1,
    (ends_of_parts (by decide) (by decide) _).2]
  exact ⟨rfl, rfl⟩

theorem braces_headLine (k : Kernel) :
    opens (headLine k) = true ∧ closes (headLine k) = false := by
  have htail : headTail k ≠ "" := by simp [headTail]
  have hline : headLine k = [k.name].foldl (· ++ ·) "func.func @" ++ headTail k := rfl
  rw [opens, closes, hline, (ends_of_parts (by decide) htail _).1,
    (ends_of_parts (by decide) htail _).2, (ends_headTail k).2]
  exact ⟨rfl, rfl⟩

theorem newline_notMem_headTail {k : Kernel} (h : ∀ it ∈ k.iterators, '\n' ∉ it.name.toList) :
    '\n' ∉ (headTail k).toList := by
  simp [headTail, scheduleText, notMem_summary (.inr rfl) h, notMem_argumentList k (.inr rfl)]

/-- A line in the name of a kernel becomes a line of its function. -/
theorem textLines_of_name {k : Kernel} {first line last : String}
    (hname : k.name = first ++ "\n" ++ (line ++ "\n" ++ last)) (hfirst : '\n' ∉ first.toList)
    (hline : '\n' ∉ line.toList) (hlast : '\n' ∉ last.toList)
    (hiterators : ∀ it ∈ k.iterators, '\n' ∉ it.name.toList) (rest : String) :
    textLines (header k ++ rest) = ["  func.func @" ++ first, line, last ++ headTail k].map
      (fun line => String.ofList (line.toList.dropWhile (· == ' '))) ++ textLines rest := by
  have hheader : header k ++ rest = "  func.func @" ++ first ++ "\n" ++ (line ++ "\n" ++
      (last ++ headTail k ++ "\n" ++ rest)) := by
    have hstart : "  func.func @" = "  " ++ "func.func @" := rfl
    simp only [header_eq, headLine, hname, hstart, String.append_assoc]
  rw [hheader, textLines_append (by simpa using hfirst), textLines_append hline,
    textLines_append (by simpa [hlast] using newline_notMem_headTail hiterators)]
  rfl

namespace PlainNames

variable {k : Kernel} (h : PlainNames k)

include h

theorem newline_notMem_headLine : '\n' ∉ (headLine k).toList := by
  simp [headLine, h.kernel, newline_notMem_headTail fun it hit => (h.iterators it hit).2]

/-- The head of a function defines its arguments. -/
theorem sides_headLine : defined (headLine k) = (List.range k.tensors.length).map argumentName ∧
    used (headLine k) = [] := by
  have hleft : '=' ∉ ("func.func @" ++ k.name ++ "(" ++ argumentList k ++
      ") attributes \x7blooptune.schedule ").toList := by
    simp [h.kernel, notMem_argumentList k (.inl rfl)]
  have hline : (headLine k).toList = ("func.func @" ++ k.name ++ "(" ++ argumentList k ++
      ") attributes \x7blooptune.schedule ").toList ++ '=' :: (scheduleText k).toList := by
    simp [headLine, headTail]
  obtain ⟨hdefined, hused⟩ := sides_eq hline hleft
  have hfront : Reads ("func.func @" ++ k.name ++ "(") [] := .of_free (by simp [h.kernel])
  have hback : Reads ") attributes \x7blooptune.schedule " [] := .of_free (by decide)
  have hschedule : '%' ∉ (scheduleText k).toList := by
    simp [scheduleText, notMem_summary (.inl rfl) fun it hit => (h.iterators it hit).1]
  have hreads := (hfront.append (reads_argumentList k)).append hback
  rw [List.nil_append, List.append_nil] at hreads
  rw [hdefined, hused]
  exact ⟨hreads.names_eq, (Reads.of_free hschedule).names_eq⟩

/-- A function is its head, its instructions line by line, the return and a brace. -/
theorem textLines_function (code : List Op) :
    textLines (header k ++ lines 2 code ++ "    return\n  \x7d\n") =
      headLine k :: (code.map Op.text ++ ["return", "\x7d"]) := by
  have hfree : '\n' ∉ ("  " ++ headLine k).toList := by
    simpa using h.newline_notMem_headLine
  have hblank : ("  " ++ headLine k).toList.dropWhile (· == ' ') = (headLine k).toList := by
    simp [headLine]
  rw [header_eq, String.append_assoc, textLines_append hfree, textLines_lines_append,
    textLines_end, hblank, String.ofList_toList]

end PlainNames

end NestTuner.Mlir
