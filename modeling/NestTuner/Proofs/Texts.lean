import Std.Data.String.ToNat

/-!
Texts that can be taken apart: fields with a separator between them, and words with numbers after
them.
-/

namespace NestTuner

/-- Fields without the separator are told apart by the text that joins them. -/
theorem eq_of_intercalate_eq {c : Char} {fields fields' : List String}
    (h : ∀ f ∈ fields, c ∉ f.toList) (h' : ∀ f ∈ fields', c ∉ f.toList) (hne : fields ≠ [])
    (hne' : fields' ≠ [])
    (heq : (String.singleton c).intercalate fields = (String.singleton c).intercalate fields') :
    fields = fields' := by
  have hlists := congrArg (fun text => text.toList.splitOn c) heq
  simp only [String.toList_intercalate, String.toList_singleton] at hlists
  rw [List.splitOn_intercalate c (by simpa using h) (by simpa using hne),
    List.splitOn_intercalate c (by simpa using h') (by simpa using hne')] at hlists
  exact (List.map_inj_right fun _ _ => String.toList_inj.mp).mp hlists

theorem mem_intercalate {sep : String} {fields : List String} {c : Char}
    (h : c ∈ (sep.intercalate fields).toList) :
    c ∈ sep.toList ∨ ∃ f ∈ fields, c ∈ f.toList := by
  induction fields with
  | nil => simp at h
  | cons f rest ih =>
    cases rest with
    | nil => exact .inr ⟨f, by simp, by simpa using h⟩
    | cons g rest =>
      rw [String.intercalate_cons_cons, String.toList_append, String.toList_append] at h
      rcases List.mem_append.mp h with h | h
      · rcases List.mem_append.mp h with h | h
        · exact .inr ⟨f, by simp, h⟩
        · exact .inl h
      · exact (ih h).imp_right fun ⟨f', hf', hc⟩ => ⟨f', List.mem_cons_of_mem _ hf', hc⟩

theorem isDigit_of_mem_repr {n : Nat} {c : Char} (h : c ∈ n.repr.toList) : c.isDigit = true := by
  rw [Nat.repr_eq_ofList_toDigits, String.toList_ofList] at h
  exact Nat.isDigit_of_mem_toDigits (by decide) (by decide) h

/-- Numbers with underscores between them. -/
def numerals (numbers : List Nat) : String :=
  (String.singleton '_').intercalate (numbers.map Nat.repr)

theorem mem_numerals {numbers : List Nat} {c : Char} (h : c ∈ (numerals numbers).toList) :
    c.isDigit = true ∨ c = '_' := by
  rcases mem_intercalate h with h | ⟨f, hf, h⟩
  · exact .inr (by simpa using h)
  · obtain ⟨n, -, rfl⟩ := List.mem_map.mp hf
    exact .inl (isDigit_of_mem_repr h)

theorem numerals_injective : Function.Injective numerals := by
  have hempty : ∀ numbers : List Nat, numerals numbers = "" → numbers = [] := by
    intro numbers h
    cases numbers with
    | nil => rfl
    | cons n rest => cases rest <;> simp [numerals, ← String.toList_inj] at h
  intro numbers numbers' h
  by_cases hnil : numbers = []
  · subst hnil
    exact (hempty numbers' h.symm).symm
  · have hnil' : numbers' ≠ [] := by
      rintro rfl
      exact hnil (hempty numbers h)
    have hfree : ∀ numbers : List Nat, ∀ f ∈ numbers.map Nat.repr, '_' ∉ f.toList := by
      intro numbers f hf hmem
      obtain ⟨n, -, rfl⟩ := List.mem_map.mp hf
      exact absurd (isDigit_of_mem_repr hmem) (by decide)
    have hfields := eq_of_intercalate_eq (hfree numbers) (hfree numbers') (by simpa using hnil)
      (by simpa using hnil') h
    exact (List.map_inj_right fun _ _ => Nat.repr_inj.mp).mp hfields

theorem not_isAlpha_of_isDigit {c : Char} (h : c.isDigit = true) : ¬ c.isAlpha = true := by
  intro halpha
  have hdigit : (c.val ≥ '0'.val && c.val ≤ '9'.val) = true := h
  have hletter : (decide (c.val ≥ 'A'.val ∧ c.val ≤ 'Z'.val) ||
    (c.val ≥ 'a'.val && c.val ≤ 'z'.val)) = true := halpha
  grind

/-- A word and the numbers after it are told apart by the letters. -/
theorem eq_of_append_numerals {word word' : String} {numbers numbers' : List Nat}
    (hword : ∀ c ∈ word.toList, c.isAlpha = true) (hword' : ∀ c ∈ word'.toList, c.isAlpha = true)
    (h : word ++ numerals numbers = word' ++ numerals numbers') :
    word = word' ∧ numbers = numbers' := by
  have hletters : ∀ (word : String) (numbers : List Nat), (∀ c ∈ word.toList, c.isAlpha = true) →
      (word ++ numerals numbers).toList.filter Char.isAlpha = word.toList := by
    intro word numbers hword
    have hnone : (numerals numbers).toList.filter Char.isAlpha = [] := by
      refine List.filter_eq_nil_iff.mpr fun c hc halpha => ?_
      rcases mem_numerals hc with hdigit | rfl
      · exact not_isAlpha_of_isDigit hdigit halpha
      · revert halpha
        decide
    rw [String.toList_append, List.filter_append, List.filter_eq_self.mpr hword, hnone,
      List.append_nil]
  have hsame : word = word' := by
    rw [← String.toList_inj, ← hletters word numbers hword, h, hletters word' numbers' hword']
  subst hsame
  exact ⟨rfl, numerals_injective ((String.append_right_inj _).mp h)⟩

end NestTuner
