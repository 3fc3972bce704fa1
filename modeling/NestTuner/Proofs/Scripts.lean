import NestTuner.Proofs.Editing
import NestTuner.Proofs.Emission
import NestTuner.Proofs.Lines
import NestTuner.Proofs.Scanning

/-!
Reading scripts. A line with an operation defines a handle from the handle of the line before and
carries the parameters of one edit, so the operations of a script, read from the first to the last,
are the history it was written for. The name of the function is the only part of a script that is
not under its control: whoever knows the name can skip the lines up to it, and if the name has no
line end, no part of it looks like an operation.
-/

namespace NestTuner

namespace Script

/-! ### Reading a line -/

/-- What one operation does. -/
structure Step where
  /-- The number of the handle it defines. -/
  result : Nat
  /-- The number of the handle it consumes. -/
  operand : Nat
  edit : Edit
  deriving DecidableEq

/-- The edit of an operation, from its name and its parameters. -/
def readEdit (name : String) (text : List Char) : Option (Edit × List Char) :=
  if name = "tile" then do
    let loop ← Text.number (← Text.word "loop = " text)
    let size ← Text.number (← Text.word " : i64, size = " loop.2)
    return (.tile loop.1 size.1, ← Text.word " : i64" size.2)
  else if name = "interchange" then do
    let entries := Text.run (· != '>') (← Text.word "permutation = array<i64: " text)
    return (.interchange (← Text.numbers entries.1), ← Text.word ">" entries.2)
  else if name = "parallelize" then do
    let loop ← Text.number (← Text.word "loop = " text)
    return (.parallelize loop.1, ← Text.word " : i64" loop.2)
  else if name = "vectorize" then do
    let width ← Text.number (← Text.word "width = " text)
    return (.vectorize width.1, ← Text.word " : i64" width.2)
  else none

/-- The step of a line, if the line is an operation. -/
def readStep (line : String) : Option Step := do
  let result ← Text.number (← Text.word "%f" line.toList)
  let name := Text.run Char.isAlpha (← Text.word " = transform.looptune." result.2)
  let operand ← Text.number (← Text.word " %f" name.2)
  let edit ← readEdit (String.ofList name.1) (← Text.word " \x7b" operand.2)
  if edit.2 = ("\x7d" ++ signature).toList then some ⟨result.1, operand.1, edit.1⟩ else none

/-- The name of the operation of an edit. -/
def mnemonic : Edit → String
  | .tile .. => "tile"
  | .interchange .. => "interchange"
  | .parallelize .. => "parallelize"
  | .vectorize .. => "vectorize"

/-- The parameters of the operation of an edit. -/
def parameters : Edit → String
  | .tile loop size => "loop = " ++ loop.repr ++ " : i64, size = " ++ size.repr ++ " : i64"
  | .interchange permutation =>
    "permutation = array<i64: " ++ ", ".intercalate (permutation.map Nat.repr) ++ ">"
  | .parallelize loop => "loop = " ++ loop.repr ++ " : i64"
  | .vectorize width => "width = " ++ width.repr ++ " : i64"

theorem operation_eq (step : Nat) (e : Edit) : operation step e =
    "transform.looptune." ++ mnemonic e ++ " %f" ++ step.repr ++ " \x7b" ++ parameters e ++
      "\x7d" := by
  rw [← String.toList_inj]
  cases e with
  | tile loop size =>
    show ("transform.looptune.tile %f" ++ step.repr ++ " \x7bloop = " ++ loop.repr ++
        " : i64, size = " ++ size.repr ++ " : i64\x7d").toList =
      ("transform.looptune." ++ "tile" ++ " %f" ++ step.repr ++ " \x7b" ++
        ("loop = " ++ loop.repr ++ " : i64, size = " ++ size.repr ++ " : i64") ++ "\x7d").toList
    simp
  | interchange permutation =>
    show ("transform.looptune.interchange %f" ++ step.repr ++ " \x7bpermutation = array<i64: " ++
        ", ".intercalate (permutation.map Nat.repr) ++ ">\x7d").toList =
      ("transform.looptune." ++ "interchange" ++ " %f" ++ step.repr ++ " \x7b" ++
        ("permutation = array<i64: " ++ ", ".intercalate (permutation.map Nat.repr) ++ ">") ++
          "\x7d").toList
    simp
  | parallelize loop =>
    show ("transform.looptune.parallelize %f" ++ step.repr ++ " \x7bloop = " ++ loop.repr ++
        " : i64\x7d").toList =
      ("transform.looptune." ++ "parallelize" ++ " %f" ++ step.repr ++ " \x7b" ++
        ("loop = " ++ loop.repr ++ " : i64") ++ "\x7d").toList
    simp
  | vectorize width =>
    show ("transform.looptune.vectorize %f" ++ step.repr ++ " \x7bwidth = " ++ width.repr ++
        " : i64\x7d").toList =
      ("transform.looptune." ++ "vectorize" ++ " %f" ++ step.repr ++ " \x7b" ++
        ("width = " ++ width.repr ++ " : i64") ++ "\x7d").toList
    simp

theorem notMem_toDigits {c : Char} (hc : c.isDigit = false) (n : Nat) : c ∉ Nat.toDigits 10 n := by
  intro hmem
  have hdigit := Nat.isDigit_of_mem_toDigits (by decide) (by decide) hmem
  simp [hc] at hdigit

theorem notMem_entries {sep : String} {c : Char} (hsep : c ∉ sep.toList) (hc : c.isDigit = false)
    (permutation : List Nat) : c ∉ (sep.intercalate (permutation.map Nat.repr)).toList := by
  intro hmem
  rcases mem_intercalate hmem with h | ⟨f, hf, h⟩
  · exact hsep h
  · obtain ⟨n, -, rfl⟩ := List.mem_map.mp hf
    have hdigit := isDigit_of_mem_repr h
    simp [hc] at hdigit

/-- An edit is read back from its parameters. -/
theorem readEdit_append (e : Edit) (rest : List Char) :
    readEdit (mnemonic e) ((parameters e).toList ++ '\x7d' :: rest) = some (e, '\x7d' :: rest) := by
  cases e with
  | tile loop size =>
    show readEdit "tile" (("loop = " ++ loop.repr ++ " : i64, size = " ++ size.repr ++
      " : i64").toList ++ '\x7d' :: rest) = _
    simp [readEdit, Text.word, List.isPrefixOf?]
  | interchange permutation =>
    show readEdit "interchange" (("permutation = array<i64: " ++
      ", ".intercalate (permutation.map Nat.repr) ++ ">").toList ++ '\x7d' :: rest) = _
    have hentries : (", ".intercalate (permutation.map Nat.repr)).toList =
        [',', ' '].intercalate (permutation.map (Nat.toDigits 10)) := by
      simp [Function.comp_def]
    have hfree : '>' ∉ (", ".intercalate (permutation.map Nat.repr)).toList :=
      notMem_entries (by decide) (by decide) permutation
    have hrun : Text.run (· != '>') ((", ".intercalate (permutation.map Nat.repr)).toList ++
        '>' :: '\x7d' :: rest) = ((", ".intercalate (permutation.map Nat.repr)).toList,
          '>' :: '\x7d' :: rest) :=
      Text.run_append (fun c hc => bne_iff_ne.mpr fun heq => hfree (heq ▸ hc)) (by simp)
    rw [hentries] at hrun
    simp [readEdit, Text.word, List.isPrefixOf?, Function.comp_def, hrun, Text.numbers_intercalate]
  | parallelize loop =>
    show readEdit "parallelize" (("loop = " ++ loop.repr ++ " : i64").toList ++ '\x7d' :: rest) = _
    simp [readEdit, Text.word, List.isPrefixOf?]
  | vectorize width =>
    show readEdit "vectorize" (("width = " ++ width.repr ++ " : i64").toList ++ '\x7d' :: rest) = _
    simp [readEdit, Text.word, List.isPrefixOf?]

theorem notMem_parameters (e : Edit) {c : Char} (hc : c = '%' ∨ c = '\n') :
    c ∉ (parameters e).toList := by
  have hdigit : c.isDigit = false := by rcases hc with rfl | rfl <;> rfl
  have hdigits := notMem_toDigits hdigit
  cases e with
  | tile loop size =>
    show c ∉ ("loop = " ++ loop.repr ++ " : i64, size = " ++ size.repr ++ " : i64").toList
    rcases hc with rfl | rfl <;> simp [hdigits]
  | interchange permutation =>
    show c ∉ ("permutation = array<i64: " ++ ", ".intercalate (permutation.map Nat.repr) ++
      ">").toList
    have hentries : c ∉ (", ".intercalate (permutation.map Nat.repr)).toList :=
      notMem_entries (by rcases hc with rfl | rfl <;> decide) hdigit permutation
    rw [String.toList_append, String.toList_append, List.mem_append, List.mem_append, not_or,
      not_or]
    refine ⟨⟨?_, hentries⟩, ?_⟩ <;> rcases hc with rfl | rfl <;> decide
  | parallelize loop =>
    show c ∉ ("loop = " ++ loop.repr ++ " : i64").toList
    rcases hc with rfl | rfl <;> simp [hdigits]
  | vectorize width =>
    show c ∉ ("width = " ++ width.repr ++ " : i64").toList
    rcases hc with rfl | rfl <;> simp [hdigits]

theorem isAlpha_mnemonic (e : Edit) : ∀ c ∈ (mnemonic e).toList, c.isAlpha = true := by
  cases e <;> simp [mnemonic]

/-! ### The lines of a step -/

/-- The name of a handle. -/
def handle (s : Nat) : String :=
  "%f" ++ s.repr

/-- The operation of a step, without the blanks before it. -/
def opLine (s : Nat) (e : Edit) : String :=
  handle (s + 1) ++ " = " ++ operation s e ++ signature

theorem handle_eq_label (s : Nat) : handle s = Mlir.label "f" [s] := by
  rw [← String.toList_inj]
  simp [handle, Mlir.label, numerals]

theorem isName_handle (s : Nat) : Mlir.IsName (handle s) :=
  handle_eq_label s ▸ Mlir.isName_label (by simp)

theorem handle_injective : Function.Injective handle := by
  intro s t h
  rw [handle_eq_label, handle_eq_label] at h
  simpa using (Mlir.eq_of_label_eq (by simp) (by simp) h).2

theorem opLine_eq (s : Nat) (e : Edit) : opLine s e =
    "" ++ handle (s + 1) ++ (" = transform.looptune." ++ (mnemonic e ++ " ")) ++
      (handle s ++ (" \x7b" ++ (parameters e ++ ("\x7d" ++ signature)))) := by
  rw [opLine, operation_eq, ← String.toList_inj]
  simp [handle]

/-- The step of an operation is read back from its line. -/
theorem readStep_opLine (s : Nat) (e : Edit) : readStep (opLine s e) = some ⟨s + 1, s, e⟩ := by
  have hrun : ∀ rest, Text.run Char.isAlpha ((mnemonic e).toList ++ ' ' :: rest) =
      ((mnemonic e).toList, ' ' :: rest) := fun rest =>
    Text.run_append (isAlpha_mnemonic e) (by simp)
  rw [opLine_eq]
  simp [readStep, handle, Text.word, List.isPrefixOf?, hrun, readEdit_append]

/-- The operation of a step defines one handle and uses the one before. -/
theorem sides_opLine (s : Nat) (e : Edit) :
    Mlir.defined (opLine s e) = [handle (s + 1)] ∧ Mlir.used (opLine s e) = [handle s] := by
  have hmnemonic : '%' ∉ (mnemonic e ++ " ").toList := by
    intro hmem
    have halpha := isAlpha_mnemonic e '%'
    simp at hmem halpha
    exact absurd hmem halpha
  have hgap : Mlir.Gap (" = transform.looptune." ++ (mnemonic e ++ " ")) :=
    .append (by decide) hmnemonic
  have htail : Mlir.Gap (" \x7b" ++ (parameters e ++ ("\x7d" ++ signature))) := by
    refine .append (by decide) ?_
    have hparameters := notMem_parameters e (.inl rfl)
    simp [hparameters, signature]
  rw [opLine_eq]
  exact Mlir.sides_of_assignment (by simp) (isName_handle _) hgap (by simp)
    (htail.reads (isName_handle _))

/-- The operations among lines. -/
def operations (lines : List String) : List String :=
  lines.filter fun line => (readStep line).isSome

/-- The operations of a history from a step on. -/
def opLines (first : Nat) : List Edit → List String
  | [] => []
  | e :: rest => opLine first e :: opLines (first + 1) rest

/-- The comment of a step, without the blanks before it. -/
def comment (s : Nat) (e : Edit) : String :=
  "// step " ++ s.repr ++ ": " ++ e.text

theorem steps_cons (first : Nat) (e : Edit) (rest : List Edit) : steps first (e :: rest) =
    ("    " ++ comment first e) :: ("    " ++ opLine first e) :: steps (first + 1) rest := by
  have hcomment : ("    // step " ++ first.repr ++ ": " ++ e.text) = "    " ++ comment first e := by
    rw [← String.toList_inj]
    simp [comment]
  have hop : ("    %f" ++ (first + 1).repr ++ " = ") ++ operation first e ++ signature =
      "    " ++ opLine first e := by
    rw [← String.toList_inj]
    simp [opLine, handle]
  rw [← hcomment, ← hop]
  rfl

theorem newline_notMem_comment (s : Nat) (e : Edit) : '\n' ∉ (comment s e).toList := by
  have hdigits := notMem_toDigits (c := '\n') rfl
  have hedit : '\n' ∉ e.text.toList := by
    cases e with
    | tile loop size =>
      show '\n' ∉ ("tile(loop=" ++ loop.repr ++ ", size=" ++ size.repr ++ ")").toList
      simp [hdigits]
    | interchange permutation =>
      show '\n' ∉ ("interchange([" ++ ",".intercalate (permutation.map Nat.repr) ++ "])").toList
      have hentries : '\n' ∉ (",".intercalate (permutation.map Nat.repr)).toList :=
        notMem_entries (by decide) rfl permutation
      rw [String.toList_append, String.toList_append, List.mem_append, List.mem_append, not_or,
        not_or]
      exact ⟨⟨by decide, hentries⟩, by decide⟩
    | parallelize loop =>
      show '\n' ∉ ("parallelize(loop=" ++ loop.repr ++ ")").toList
      simp [hdigits]
    | vectorize width =>
      show '\n' ∉ ("vectorize(width=" ++ width.repr ++ ")").toList
      simp [hdigits]
  simp [comment, hdigits, hedit]

theorem newline_notMem_opLine (s : Nat) (e : Edit) : '\n' ∉ (opLine s e).toList := by
  have hdigits := notMem_toDigits (c := '\n') rfl
  have hparameters := notMem_parameters e (.inr rfl)
  have hmnemonic : '\n' ∉ (mnemonic e).toList := fun hmem =>
    absurd (isAlpha_mnemonic e _ hmem) (by decide)
  rw [opLine_eq]
  simp [handle, hdigits, hparameters, hmnemonic, signature]

theorem newline_notMem_steps {first : Nat} {history : List Edit} {line : String}
    (h : line ∈ steps first history) : '\n' ∉ line.toList := by
  induction history generalizing first with
  | nil => cases h
  | cons e rest ih =>
    rw [steps_cons, List.mem_cons, List.mem_cons] at h
    rcases h with rfl | rfl | h
    · simpa using newline_notMem_comment first e
    · simpa using newline_notMem_opLine first e
    · exact ih h

/-- The lines of a text are the lines it was joined from, without the blanks before them. -/
theorem textLines_joined {lines : List String} (h : ∀ line ∈ lines, '\n' ∉ line.toList) :
    Mlir.textLines (joined lines) =
      lines.map fun line => String.ofList (line.toList.dropWhile (· == ' ')) := by
  induction lines with
  | nil => rfl
  | cons line rest ih =>
    obtain ⟨hline, hrest⟩ := List.forall_mem_cons.mp h
    have htext : joined (line :: rest) = line ++ "\n" ++ joined rest := by
      simp [joined, String.join_cons]
    rw [htext, Mlir.textLines_append hline, ih hrest, List.map_cons]

theorem operations_steps (first : Nat) (history : List Edit) :
    operations ((steps first history).map fun line =>
      String.ofList (line.toList.dropWhile (· == ' '))) = opLines first history := by
  induction history generalizing first with
  | nil => rfl
  | cons e rest ih =>
    have hcomment : String.ofList (("    " ++ comment first e).toList.dropWhile (· == ' ')) =
        comment first e := by
      rw [← String.toList_inj]
      simp [comment]
    have hop : String.ofList (("    " ++ opLine first e).toList.dropWhile (· == ' ')) =
        opLine first e := by
      rw [opLine_eq, ← String.toList_inj]
      simp [handle]
    have hskipped : readStep (comment first e) = none := by
      simp [readStep, comment, Text.word, List.isPrefixOf?]
    rw [steps_cons, List.map_cons, List.map_cons, hcomment, hop, operations,
      List.filter_cons_of_neg (by simp [hskipped]),
      List.filter_cons_of_pos (by simp [readStep_opLine]), opLines]
    exact congrArg _ (ih (first + 1))

/-! ### Reading a script -/

/-- Lines that apply a history: each defines the next handle, the first of them handle one, from the
handle before, and carries the edit of its step. -/
structure Chained (lines : List String) (history : List Edit) : Prop where
  steps : lines.mapM readStep = some (history.zipIdx.map fun x => ⟨x.2 + 1, x.2, x.1⟩)
  defined : lines.map Mlir.defined = (List.range' 1 history.length).map fun s => [handle s]
  used : lines.map Mlir.used = (List.range history.length).map fun s => [handle s]
  /-- No handle is defined twice. -/
  once : (lines.flatMap Mlir.defined).Nodup

theorem mapM_opLines (first : Nat) (history : List Edit) :
    (opLines first history).mapM readStep =
      some ((history.zipIdx first).map fun x => ⟨x.2 + 1, x.2, x.1⟩) := by
  induction history generalizing first with
  | nil => rfl
  | cons e rest ih => simp [opLines, readStep_opLine, ih]

theorem sides_opLines (first : Nat) (history : List Edit) :
    (opLines first history).map Mlir.defined =
      (List.range' (first + 1) history.length).map (fun s => [handle s]) ∧
    (opLines first history).map Mlir.used =
      (List.range' first history.length).map fun s => [handle s] := by
  induction history generalizing first with
  | nil => exact ⟨rfl, rfl⟩
  | cons e rest ih =>
    obtain ⟨hdefined, hused⟩ := sides_opLine first e
    simp [opLines, List.range'_succ, hdefined, hused, ih (first + 1)]

theorem chained_opLines (history : List Edit) : Chained (opLines 0 history) history := by
  obtain ⟨hdefined, hused⟩ := sides_opLines 0 history
  refine ⟨mapM_opLines 0 history, hdefined, by rw [hused, List.range_eq_range'], ?_⟩
  rw [List.flatMap_def, hdefined, ← List.flatMap_def, ← List.map_eq_flatMap]
  exact List.Nodup.map handle_injective List.nodup_range'

/-- What comes after the lines that find a function. -/
def body (function text : String) : Option String :=
  (Text.word (joined (header function)) text.toList).map String.ofList

/-- The history that a script for a function applies. -/
def read (function text : String) : Option (List Edit) := do
  let steps ← (operations (Mlir.textLines (← body function text))).mapM readStep
  return steps.map (·.edit)

theorem joined_append (xs ys : List String) : joined (xs ++ ys) = joined xs ++ joined ys := by
  simp [joined]

theorem body_text (function : String) (history : List Edit) :
    body function (text function history) = some (joined (steps 0 history ++ footer)) := by
  rw [body, text, List.append_assoc, joined_append, String.toList_append]
  simp [Text.word]

theorem operations_append (xs ys : List String) :
    operations (xs ++ ys) = operations xs ++ operations ys :=
  List.filter_append ..

/-- Where no line of a text looks like an operation but those of the steps, its operations are those
of the history. -/
theorem operations_text (before : List String) (hbefore : ∀ line ∈ before, '\n' ∉ line.toList ∧
      readStep (String.ofList (line.toList.dropWhile (· == ' '))) = none) (history : List Edit) :
    operations (Mlir.textLines (joined (before ++ steps 0 history ++ footer))) =
      opLines 0 history := by
  have hfooter : ∀ line ∈ footer, '\n' ∉ line.toList := by simp [footer]
  have hfree : ∀ line ∈ before ++ steps 0 history ++ footer, '\n' ∉ line.toList := by
    intro line hline
    rcases List.mem_append.mp hline with hline | hline
    · rcases List.mem_append.mp hline with hline | hline
      · exact (hbefore line hline).1
      · exact newline_notMem_steps hline
    · exact hfooter line hline
  have hskipped : ∀ lines : List String, (∀ line ∈ lines,
      readStep (String.ofList (line.toList.dropWhile (· == ' '))) = none) →
      operations (lines.map fun line => String.ofList (line.toList.dropWhile (· == ' '))) = [] := by
    intro lines hlines
    simpa [operations, List.filter_eq_nil_iff] using hlines
  rw [textLines_joined hfree, List.map_append, List.map_append, operations_append,
    operations_append, operations_steps, hskipped before fun line hline => (hbefore line hline).2,
    hskipped footer (by simp [footer, readStep, Text.word]), List.nil_append, List.append_nil]

/-- The lines that find a function are no operations. -/
theorem header_skipped {function : String} (h : '\n' ∉ function.toList) :
    ∀ line ∈ header function, '\n' ∉ line.toList ∧
      readStep (String.ofList (line.toList.dropWhile (· == ' '))) = none := by
  have hzero : ∀ rest, Text.number ('0' :: ' ' :: rest) = some (0, ' ' :: rest) := fun rest => by
    simpa using Text.number_append_cons 0 (c := ' ') rfl rest
  simp [header, signature, h, readStep, Text.word, hzero]

/-- The artifacts of a history have the script of the history and the kernel it leads to. -/
theorem of_ofHistory {root : Kernel} {history : List Edit} {a : Artifacts}
    (h : Artifacts.ofHistory root history = .ok (.ok a)) :
    a.script = text root.name history ∧ root.replay history = .ok a.kernel := by
  rw [Artifacts.ofHistory] at h
  split at h
  · cases h
  · cases h
  · next k hk =>
    obtain ⟨code, -, hcode⟩ := bind_eq_ok.mp h
    injection hcode with hcode
    injection hcode with hcode
    subst hcode
    refine ⟨?_, hk⟩
    simp only

theorem read_text (function : String) (history : List Edit) :
    read function (text function history) = some history := by
  have hops := operations_text [] (by simp) history
  rw [List.nil_append] at hops
  simp [read, body_text, hops, mapM_opLines, Function.comp_def]

/-- A script determines the history it was written for. For every function its operations define the
handles from one on, once each and from the handle before, and carry the edits, so reading them back
gives the history, and replaying it gives the kernel that the script was written for. They can be
found without knowing the function, unless its name has more than one line. -/
theorem script_determines_history (function : String) :
    Function.Injective (text function) ∧
    ∀ history, ∃ rest, body function (text function history) = some rest ∧
      Chained (operations (Mlir.textLines rest)) history ∧
      ('\n' ∉ function.toList →
        operations (Mlir.textLines (text function history)) = operations (Mlir.textLines rest)) ∧
      read function (text function history) = some history ∧
      ∀ (root : Kernel) (a : Artifacts), root.name = function →
        Artifacts.ofHistory root history = .ok (.ok a) →
          (read function a.script).map root.replay = some (.ok a.kernel) := by
  constructor
  · intro history other h
    have hread := congrArg (read function) h
    rwa [read_text, read_text, Option.some.injEq] at hread
  · intro history
    have hops := operations_text [] (by simp) history
    rw [List.nil_append] at hops
    refine ⟨_, body_text function history, hops ▸ chained_opLines history, fun hfree => ?_,
      read_text function history, ?_⟩
    · rw [hops]
      exact operations_text _ (header_skipped hfree) history
    · intro root a hname ha
      obtain ⟨hscript, hreplay⟩ := of_ofHistory ha
      rw [hscript, hname, read_text, Option.map_some, hreplay]

/-- A history of five edits, and the artifacts it leads to. -/
theorem script_determines_history_tuned :
    (∃ rest, body "square" (text "square" Draft.tuning) = some rest ∧
      Chained (operations (Mlir.textLines rest)) Draft.tuning ∧
      operations (Mlir.textLines (text "square" Draft.tuning)) =
        operations (Mlir.textLines rest)) ∧
    ∃ a, Artifacts.ofHistory (Kernel.matmul "square" 8 8 8) Draft.tuning = .ok (.ok a) ∧
      (read "square" a.script).map (Kernel.matmul "square" 8 8 8).replay =
        some (.ok Draft.tuned) := by
  obtain ⟨rest, hbody, hchained, hall, -, hreplay⟩ :=
    (script_determines_history "square").2 Draft.tuning
  obtain ⟨a, ha, hkernel⟩ := (Artifacts.exists_ofHistory Draft.tuned_replay).mpr (by decide)
  refine ⟨⟨rest, hbody, hchained, hall (by decide)⟩, a, ha, ?_⟩
  rw [hreplay _ a rfl ha, hkernel]

end Script

end NestTuner
