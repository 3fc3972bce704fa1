import NestTuner.Proofs.Editing
import NestTuner.Proofs.Naming
import NestTuner.Proofs.Scanning

/-!
The summary of a nest says which nest it is. A loop is written as the name of its iterator, its
stride where there is more to say than one, its extent and its marks, and the bracket at the end
closes it, so loops are read off a summary one by one. A stride that is left out is one, because the
loops of a legal nest have positive strides.
-/

namespace NestTuner

namespace Kernel

/-! ### Reading a loop -/

/-- The characters of an iterator's name in a summary. -/
def isNamed (c : Char) : Bool :=
  c != '/' && c != '['

/-- A stride after a slash, or one without it. -/
def readStride (text : List Char) : Option (Nat × List Char) :=
  if (Text.accept "/" text).1 then Text.number (Text.accept "/" text).2 else some (1, text)

/-- The width of a vector, if there is one. -/
def readWidth (text : List Char) : Option (Option Nat × List Char) :=
  if (Text.accept " vec" text).1 then
    (Text.number (Text.accept " vec" text).2).map fun n => (some n.1, n.2)
  else some (none, text)

/-- The loop at the beginning of a summary, given the iterators. -/
def readLoop (iterators : List Iterator) (text : List Char) : Option (Loop × List Char) := do
  let iterator ← iterators.findIdx? (·.name.toList == (Text.run isNamed text).1)
  let stride ← readStride (Text.run isNamed text).2
  let extent ← Text.number (← Text.word "[" stride.2)
  let parallel := Text.accept " par" extent.2
  let width ← readWidth parallel.2
  let rest ← Text.word "]" width.2
  return (⟨iterator, extent.1, stride.1, parallel.1, width.1⟩, rest)

/-- The characters of a stride, if it is written. -/
def strideText (shown : Bool) (stride : Nat) : List Char :=
  if shown then '/' :: Nat.toDigits 10 stride else []

def parallelText (parallel : Bool) : List Char :=
  if parallel then " par".toList else []

def widthText : Option Nat → List Char
  | some width => " vec".toList ++ Nat.toDigits 10 width
  | none => []

theorem readStride_append {shown : Bool} {stride : Nat} (h : shown = false → stride = 1)
    (rest : List Char) : readStride (strideText shown stride ++ '[' :: rest) =
      some (stride, '[' :: rest) := by
  cases shown with
  | true => simp [strideText, readStride, Text.accept, Text.word, List.isPrefixOf?]
  | false => simp [strideText, readStride, Text.accept, Text.word, List.isPrefixOf?, h rfl]

theorem accept_parallelText (parallel : Bool) (width : Option Nat) (rest : List Char) :
    Text.accept " par" (parallelText parallel ++ (widthText width ++ ']' :: rest)) =
      (parallel, widthText width ++ ']' :: rest) := by
  cases parallel with
  | true => simp [parallelText, Text.accept, Text.word, List.isPrefixOf?]
  | false =>
    cases width <;> simp [parallelText, widthText, Text.accept, Text.word, List.isPrefixOf?]

theorem readWidth_append (width : Option Nat) (rest : List Char) :
    readWidth (widthText width ++ ']' :: rest) = some (width, ']' :: rest) := by
  cases width <;> simp [widthText, readWidth, Text.accept, Text.word, List.isPrefixOf?]

/-- What comes after the extent of a loop begins with a blank or the closing bracket. -/
theorem number_extent (extent : Nat) (parallel : Bool) (width : Option Nat) (rest : List Char) :
    Text.number (Nat.toDigits 10 extent ++
      (parallelText parallel ++ (widthText width ++ ']' :: rest))) =
      some (extent, parallelText parallel ++ (widthText width ++ ']' :: rest)) := by
  refine Text.number_append extent ?_
  cases parallel <;> cases width <;> simp [parallelText, widthText]

/-- The text of a loop, given whether its stride is written. -/
def loopText (k : Kernel) (shown : Bool) (l : Loop) : List Char :=
  (k.iteratorName l.iterator).toList ++ (strideText shown l.stride ++
    '[' :: (Nat.toDigits 10 l.extent ++
      (parallelText l.parallel ++ (widthText l.vectorWidth ++ [']']))))

theorem loopSummary_eq (k : Kernel) (i : Nat) (l : Loop) :
    (k.loopSummary i l).toList = k.loopText (l.stride > 1 || k.nest.isTilePoint i) l := by
  unfold loopSummary loopText
  cases l.vectorWidth <;> cases l.parallel <;>
    by_cases hshown : (l.stride > 1 || k.nest.isTilePoint i) = true <;>
    simp [hshown, strideText, parallelText, widthText]

theorem findIdx?_name {iterators : List Iterator} (hnames : (iterators.map (·.name)).Nodup)
    {i : Nat} {it : Iterator} (hit : iterators[i]? = some it) :
    iterators.findIdx? (·.name.toList == it.name.toList) = some i := by
  obtain ⟨hi, rfl⟩ := List.getElem?_eq_some_iff.mp hit
  refine List.findIdx?_eq_some_iff_getElem.mpr ⟨hi, by simp, fun j hj => ?_⟩
  have hne := List.pairwise_iff_getElem.mp hnames j i (by simp; omega) (by simpa using hi) hj
  simpa [String.toList_inj] using hne

/-- A loop is read back from its text, whatever comes after it. -/
theorem readLoop_loopText {k : Kernel} (hnames : (k.iterators.map (·.name)).Nodup)
    (hfree : ∀ it ∈ k.iterators, '/' ∉ it.name.toList ∧ '[' ∉ it.name.toList) {shown : Bool}
    {l : Loop} (hbound : l.iterator < k.iterators.length)
    (hstride : shown = false → l.stride = 1) (rest : List Char) :
    readLoop k.iterators (k.loopText shown l ++ rest) = some (l, rest) := by
  have hit := List.getElem?_eq_getElem hbound
  have hnamed : ∀ c ∈ k.iterators[l.iterator].name.toList, isNamed c = true := by
    intro c hc
    have h := hfree _ (List.getElem_mem hbound)
    have hslash : c ≠ '/' := fun heq => h.1 (heq ▸ hc)
    have hbracket : c ≠ '[' := fun heq => h.2 (heq ▸ hc)
    simp [isNamed, hslash, hbracket]
  have hstop : ∀ tail, ∀ c ∈ (strideText shown l.stride ++ '[' :: tail).head?,
      isNamed c = false := by
    cases shown <;> simp [strideText, isNamed]
  have htext : k.loopText shown l ++ rest = k.iterators[l.iterator].name.toList ++
      (strideText shown l.stride ++ '[' :: (Nat.toDigits 10 l.extent ++
        (parallelText l.parallel ++ (widthText l.vectorWidth ++ ']' :: rest)))) := by
    simp [loopText, iteratorName_eq hit]
  rw [htext, readLoop, Text.run_append hnamed (hstop _)]
  simp [findIdx?_name hnames hit, readStride_append hstride, Text.word, List.isPrefixOf?,
    number_extent, accept_parallelText, readWidth_append]

/-! ### Reading a nest -/

/-- The loops of a nest, each with whether its stride is written. -/
def markedLoops (k : Kernel) : List (Bool × Loop) :=
  k.nest.loops.mapIdx fun i l => (l.stride > 1 || k.nest.isTilePoint i, l)

/-- The text of loops with an arrow in front of each. -/
def chainText (k : Kernel) (loops : List (Bool × Loop)) : List Char :=
  loops.flatMap fun x => " > ".toList ++ k.loopText x.1 x.2

theorem map_snd_markedLoops (k : Kernel) : k.markedLoops.map (·.2) = k.nest.loops :=
  List.ext_getElem (by simp [markedLoops]) (by simp [markedLoops])

theorem summary_eq_chainText (k : Kernel) (h : k.nest.loops ≠ []) :
    " > ".toList ++ k.summary.toList = k.chainText k.markedLoops := by
  have htexts : (k.nest.loops.mapIdx k.loopSummary).map String.toList =
      k.markedLoops.map fun x => k.loopText x.1 x.2 :=
    List.ext_getElem (by simp [markedLoops]) (by simp [markedLoops, loopSummary_eq])
  have hchain : ∀ (sep : List Char) (texts : List (List Char)), texts ≠ [] →
      sep ++ sep.intercalate texts = texts.flatMap (sep ++ ·) := by
    intro sep texts
    induction texts with
    | nil => simp
    | cons text rest ih =>
      intro _
      cases rest with
      | nil => simp [List.intercalate]
      | cons next rest =>
        rw [List.intercalate_cons_cons, List.flatMap_cons, ← ih (by simp)]
        simp
  rw [summary, String.toList_intercalate, htexts, hchain]
  · simp [chainText, List.flatMap_map]
  · simpa [markedLoops] using h

theorem eq_of_chainText_eq {k : Kernel} (hnames : (k.iterators.map (·.name)).Nodup)
    (hfree : ∀ it ∈ k.iterators, '/' ∉ it.name.toList ∧ '[' ∉ it.name.toList)
    {xs ys : List (Bool × Loop)}
    (hxs : ∀ x ∈ xs, x.2.iterator < k.iterators.length ∧ (x.1 = false → x.2.stride = 1))
    (hys : ∀ y ∈ ys, y.2.iterator < k.iterators.length ∧ (y.1 = false → y.2.stride = 1))
    (h : k.chainText xs = k.chainText ys) : xs.map (·.2) = ys.map (·.2) := by
  induction xs generalizing ys with
  | nil =>
    cases ys with
    | nil => rfl
    | cons y ys => simp [chainText] at h
  | cons x xs ih =>
    cases ys with
    | nil => simp [chainText] at h
    | cons y ys =>
      have hx := List.forall_mem_cons.mp hxs
      have hy := List.forall_mem_cons.mp hys
      have htext : k.loopText x.1 x.2 ++ k.chainText xs = k.loopText y.1 y.2 ++ k.chainText ys := by
        simpa [chainText] using h
      have hread := congrArg (readLoop k.iterators) htext
      rw [readLoop_loopText hnames hfree hx.1.1 hx.1.2,
        readLoop_loopText hnames hfree hy.1.1 hy.1.2, Option.some.injEq, Prod.mk.injEq] at hread
      rw [List.map_cons, List.map_cons, hread.1, ih hx.2 hy.2 hread.2]

theorem mem_markedLoops {k : Kernel} (h : k.Legal) {x : Bool × Loop} (hx : x ∈ k.markedLoops) :
    x.2.iterator < k.iterators.length ∧ (x.1 = false → x.2.stride = 1) := by
  obtain ⟨i, hi, rfl⟩ := List.mem_iff_getElem.mp hx
  have hl : (k.markedLoops[i]).2 ∈ k.nest.loops :=
    k.map_snd_markedLoops ▸ List.mem_map_of_mem (f := Prod.snd) (List.getElem_mem hi)
  refine ⟨h.bound _ hl, fun hplain => ?_⟩
  have hpos := (h.stride_bounds hl).1
  simp only [markedLoops, List.getElem_mapIdx, Bool.or_eq_false_iff, decide_eq_false_iff_not]
    at hplain hpos ⊢
  omega

theorem summary_eq_empty_iff {k : Kernel} : k.summary = "" ↔ k.nest.loops = [] := by
  constructor
  · intro h
    by_contra hne
    have htext := k.summary_eq_chainText hne
    obtain ⟨x, xs, hmarked⟩ : ∃ x xs, k.markedLoops = x :: xs :=
      List.exists_cons_of_ne_nil (by simpa [markedLoops] using hne)
    rw [h, hmarked] at htext
    simp [chainText, loopText] at htext
  · intro h
    simp [summary, h]

/-- Two valid kernels that differ in nothing but the nest, with no slash and no opening bracket in
the names of their iterators, have one nest if their summaries are equal. -/
theorem nest_eq_of_summary_eq {k k' : Kernel} (hrest : { k with nest := k'.nest } = k')
    (hvalid : k.validate = .ok ()) (hvalid' : k'.validate = .ok ())
    (hfree : ∀ it ∈ k.iterators, '/' ∉ it.name.toList ∧ '[' ∉ it.name.toList)
    (h : k.summary = k'.summary) : k.nest = k'.nest := by
  have hlegal := (valid_of_validate hvalid).legal
  have hlegal' := (valid_of_validate hvalid').legal
  have hiterators : k'.iterators = k.iterators := by rw [← hrest]
  have hnames : (k.iterators.map (·.name)).Nodup :=
    (distinctNames_of_checkNames (checkSurface_eq_ok.mp (validate_eq_ok.mp hvalid).1).1).iterators
  have hloops : k.nest.loops = k'.nest.loops := by
    by_cases hnil : k.nest.loops = []
    · rw [hnil, summary_eq_empty_iff.mp (h ▸ summary_eq_empty_iff.mpr hnil)]
    · have hnil' : k'.nest.loops ≠ [] := fun heq =>
        hnil (summary_eq_empty_iff.mp (h.trans (summary_eq_empty_iff.mpr heq)))
      have hchain : k.chainText k.markedLoops = k.chainText k'.markedLoops := by
        rw [← k.summary_eq_chainText hnil, h, k'.summary_eq_chainText hnil', ← hrest]
        rfl
      have hsame := eq_of_chainText_eq hnames hfree (fun x hx => mem_markedLoops hlegal hx)
        (fun x hx => hiterators ▸ mem_markedLoops hlegal' hx) hchain
      rwa [map_snd_markedLoops, map_snd_markedLoops] at hsame
  exact congrArg Nest.mk hloops

/-- The nest that a history leads to is the one with the summary of the tuned product. -/
theorem nest_eq_of_summary_eq_tuned : ∃ k, (matmul "square" 8 8 8).replay Draft.tuning = .ok k ∧
    k.summary = "i/4[2 par] > k/2[4] > j[8] > i/1[4] > k/1[2 vec2]" ∧
      Draft.tuned.validate = .ok () ∧ k.nest = Draft.tuned.nest := by
  have hvalid : Draft.tuned.validate = .ok () := by cbv
  have hfree : ∀ it ∈ Draft.tuned.iterators, '/' ∉ it.name.toList ∧ '[' ∉ it.name.toList := by
    simp [Draft.tuned, matmul, canonical]
  exact ⟨_, rfl, by decide, hvalid, nest_eq_of_summary_eq rfl hvalid hvalid hfree rfl⟩

end Kernel

end NestTuner
