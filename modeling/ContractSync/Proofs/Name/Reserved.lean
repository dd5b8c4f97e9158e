import ContractSync.Proofs.Name.Module

/-!
# Names of fields and reserved words

The language keeps words for itself: those it uses, and those it may use later. A field must not be called
by one of them; most of them can be written raw, and `union`, which is a word of the language in a few
places only, can be written raw as well. The table that names are checked against (`keywords`) holds the words in
use and `union`, but none of the words for later use. **The name of a field is legal exactly if its property is
not spelled as one of those** (`isFieldName_iff`): a property `try` gives a field `try` (`try_reserved`).
-/

namespace ContractSync.Name

/-! ### The words of the language -/

/-- The words that the language uses, in its edition of 2021. -/
def strictWords : List String :=
  ["as", "async", "await", "break", "const", "continue", "crate", "dyn", "else", "enum", "extern", "false", "fn",
   "for", "if", "impl", "in", "let", "loop", "match", "mod", "move", "mut", "pub", "ref", "return", "self", "Self",
   "static", "struct", "super", "trait", "true", "type", "unsafe", "use", "where", "while"]

/-- The words that it keeps for later use. -/
def futureWords : List String :=
  ["abstract", "become", "box", "do", "final", "macro", "override", "priv", "try", "typeof", "unsized", "virtual",
   "yield"]

/-- The words that are reserved everywhere. -/
def reservedWords : List String := strictWords ++ futureWords

/-- What may stand for the name of a field: a small name that is not reserved, or a word of the language in its
raw form, if it has one. -/
def IsFieldName (name : String) : Prop :=
  (IsSmallName name ∧ name ∉ reservedWords) ∨
    ∃ word, (word ∈ reservedWords ∨ word = "union") ∧ word ∉ rawlessKeywords ∧ name = "r#" ++ word

variable {name property : String}

/-- Names are checked against the words in use and `union`. -/
theorem isKeyword_iff : isKeyword name = true ↔ name ∈ strictWords ∨ name = "union" := by
  have hthere : ∀ word ∈ keywords, word ∈ strictWords ++ ["union"] := by decide
  have hback : ∀ word ∈ strictWords ++ ["union"], word ∈ keywords := by decide
  rw [isKeyword, List.contains_iff_mem, ← List.mem_singleton, ← List.mem_append]
  exact ⟨hthere name, hback name⟩

theorem not_mem_reserved_of_underscore (h : '_' ∈ name.toList) : name ∉ reservedWords := by
  have hwords : ∀ word ∈ reservedWords, '_' ∉ word.toList := by decide
  exact fun hmem => hwords name hmem h

/-- A word for later use is not checked for. -/
theorem not_isKeyword_of_future (h : name ∈ futureWords) : isKeyword name = false := by
  have hwords : ∀ word ∈ futureWords, isKeyword word = false := by decide
  exact hwords name h

/-! ### Spellings -/

theorem isSmallName_spelling (property : String) : IsSmallName (spelling property) := by
  have hlead : IsSmall "field".toList := ⟨by decide, by decide⟩
  obtain ⟨words, hwords, hne, hspelling⟩ := exists_guarded "field_" "field" hlead (by decide) hlead property
  exact isSmallName_of_words hwords hne hspelling
    (startsWithDigit_guardDigit "field_" (by decide) (by decide) (slug property "field"))

/-- A property is spelled as a word for later use if that is what it is in `snake_case`: no repair makes such a
word. -/
theorem spelling_mem_future_iff : spelling property ∈ futureWords ↔ snake property ∈ futureWords := by
  have hdigit : ∀ word ∈ futureWords, startsWithDigit word = false := by decide
  unfold spelling slug
  dsimp only
  split
  · rename_i hempty
    rw [String.isEmpty_iff.mp hempty]
    exact ⟨fun h => absurd h (by decide), fun h => absurd h (by decide)⟩
  · unfold guardDigit
    split
    · rename_i hfirst
      refine ⟨fun h => absurd (List.mem_append_right strictWords h) (not_mem_reserved_of_underscore ?_), fun h => ?_⟩
      · rw [String.toList_append]
        exact List.mem_append_left _ (by decide)
      · rw [hdigit _ h] at hfirst
        cases hfirst
    · exact Iff.rfl

/-! ### Fields -/

/-- A word for later use is left as it is. -/
theorem fieldName_of_future (h : snake property ∈ futureWords) : fieldName property = spelling property := by
  have hspelling := spelling_mem_future_iff.mpr h
  have hrawless : ∀ word ∈ futureWords, rawlessKeywords.contains word = false := by decide
  rw [fieldName_eq, hrawless _ hspelling, not_isKeyword_of_future hspelling, if_neg Bool.false_ne_true,
    if_neg Bool.false_ne_true]

/-- It must not name a field. -/
theorem not_isFieldName_of_future (h : snake property ∈ futureWords) : ¬ IsFieldName (fieldName property) := by
  rw [fieldName_of_future h]
  rintro (⟨-, hfree⟩ | ⟨word, -, -, hraw⟩)
  · exact hfree (List.mem_append_right strictWords (spelling_mem_future_iff.mpr h))
  · have hhash : '#' ∈ (spelling property).toList := by
      rw [hraw, String.toList_append]
      exact List.mem_append_left _ (by decide)
    exact absurd ((isSmallName_spelling property).chars '#' hhash) (by decide)

/-- **The name of a field is legal exactly if its property is not spelled as a word that the language keeps for
later use.** -/
theorem isFieldName_iff (property : String) : IsFieldName (fieldName property) ↔ snake property ∉ futureWords := by
  refine ⟨fun h hfuture => not_isFieldName_of_future hfuture h, fun h => ?_⟩
  have hsmall := isSmallName_spelling property
  rw [fieldName_eq]
  split
  · refine .inl ⟨hsmall.underscore, not_mem_reserved_of_underscore ?_⟩
    rw [String.toList_append]
    exact List.mem_append_right _ (List.mem_singleton_self _)
  rename_i hraw
  rw [List.contains_iff_mem] at hraw
  split
  · rename_i hkeyword
    exact .inr ⟨_, (isKeyword_iff.mp hkeyword).imp_left (List.mem_append_left futureWords), hraw, rfl⟩
  · rename_i hfree
    rw [isKeyword_iff, not_or] at hfree
    refine .inl ⟨hsmall, fun hmem => (List.mem_append.mp hmem).elim hfree.1 fun hfuture => ?_⟩
    exact h (spelling_mem_future_iff.mp hfuture)

/-- **A field of a property `try` is called by a reserved word.** -/
theorem try_reserved : fieldName "try" = "try" ∧ "try" ∈ reservedWords ∧ ¬ IsFieldName (fieldName "try") := by
  refine ⟨by decide, by decide, not_isFieldName_of_future ?_⟩
  decide

end ContractSync.Name
