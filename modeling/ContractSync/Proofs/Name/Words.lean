import ContractSync.Name.Identifier
import ContractSync.Proofs.Rust.Identifier
import ContractSync.Proofs.Text.Parts
import ContractSync.Proofs.Text.Ranges

/-!
# Letters of generated names

The words of a name consist of ASCII letters and digits, and so does a name in `PascalCase`
(`alphanum_of_mem_pascal`). In particular no underscore is left in it.

A conversion of a name moves no letters and digits: it divides the name at other characters and changes
capitals into small letters and back. **The letters and digits of a name in `PascalCase` are those of the
name, capitals aside** (`lowered_pascal`), and a converted name is empty only if there are none
(`snake_isEmpty_iff`, `pascal_isEmpty_iff`).

A name in `snake_case` consists of word characters. What the conversions repair makes it an identifier:
**the module of a tag has a plain name** (`isPlainName_moduleName`), **and a field has an identifier, which
is raw at most for reserved words** (`isIdentifier_fieldName`).
-/

namespace ContractSync.Name

open Rust (IsIdentifier IsPlainName isIdentifier_iff isPlainName_append isPlainName_cons)
open Rust.Lexer (isIdentChar_of_isWordChar)
open Text (isWordChar)

theorem toNat_lt_of_isAlphanum {c : Char} (h : c.isAlphanum = true) : c.toNat < 123 := by
  have hranges : ∀ r ∈ Text.asciiRanges, r.2 < 123 := by decide
  obtain ⟨r, hr, -, hhigh⟩ := Text.inRanges_iff.mp (Text.inRanges_of_isAlphanum h)
  exact Nat.lt_of_le_of_lt hhigh (hranges r hr)

/-- What holds of the letters and digits in the table of ASCII characters holds of them all. -/
@[elab_as_elim]
theorem of_isAlphanum {P : Char → Prop} (htable : ∀ n < 123, (Char.ofNat n).isAlphanum = true → P (Char.ofNat n))
    {c : Char} (h : c.isAlphanum = true) : P c := by
  have hc := htable c.toNat (toNat_lt_of_isAlphanum h)
  rw [Char.ofNat_toNat] at hc
  exact hc h

theorem isAlphanum_toCase {c : Char} (h : c.isAlphanum = true) :
    c.toUpper.isAlphanum = true ∧ c.toLower.isAlphanum = true := by
  have htable : ∀ n < 123, (Char.ofNat n).isAlphanum = true →
      (Char.ofNat n).toUpper.isAlphanum = true ∧ (Char.ofNat n).toLower.isAlphanum = true := by
    decide
  exact of_isAlphanum htable h

theorem forall_mem_pushFront {P : Char → Prop} {c : Char} {words : List (List Char)} (hc : P c)
    (h : ∀ word ∈ words, ∀ d ∈ word, P d) :
    ∀ word ∈ Text.pushFront c words, ∀ d ∈ word, P d := by
  cases words with
  | nil => simpa [Text.pushFront] using hc
  | cons word rest =>
    rw [List.forall_mem_cons] at h
    rw [Text.pushFront, List.forall_mem_cons, List.forall_mem_cons]
    exact ⟨⟨hc, h.1⟩, h.2⟩

theorem alphanum_of_mem_runs (cs : List Char) :
    ∀ word ∈ runs cs, ∀ c ∈ word, c.isAlphanum = true := by
  fun_induction runs cs with
  | case1 => simp
  | case2 c hc => simpa using hc
  | case3 => simp
  | case4 c d rest hc hd ih => exact forall_mem_pushFront hc ih
  | case5 c d rest hc hd ih =>
    rw [List.forall_mem_cons]
    exact ⟨by simpa using hc, ih⟩
  | case6 c d rest hc ih => exact ih

theorem alphanum_of_mem_capitalize {word : List Char} (h : ∀ c ∈ word, c.isAlphanum = true) :
    ∀ c ∈ capitalize word, c.isAlphanum = true := by
  cases word with
  | nil => exact h
  | cons d rest =>
    rw [List.forall_mem_cons] at h
    rw [capitalize, List.forall_mem_cons]
    refine ⟨(isAlphanum_toCase h.1).1, ?_⟩
    split
    · rw [List.forall_mem_map]
      exact fun c hc => (isAlphanum_toCase (h.2 c hc)).2
    · exact h.2

/-- A name in `PascalCase` consists of letters and digits. -/
theorem alphanum_of_mem_pascal {name : String} :
    ∀ c ∈ (pascal name).toList, c.isAlphanum = true := by
  intro c hc
  rw [pascal, String.toList_ofList, pascalChars, List.mem_flatMap] at hc
  obtain ⟨word, hword, hc⟩ := hc
  exact alphanum_of_mem_capitalize (alphanum_of_mem_runs _ word hword) c hc

theorem underscore_notMem_variantName (literal : String) : '_' ∉ (variantName literal).toList := by
  intro h
  have hpascal : '_' ∉ (pascal literal).toList := by
    intro h
    cases alphanum_of_mem_pascal _ h
  unfold variantName at h
  simp only at h
  split at h
  · exact absurd h (by decide)
  · split at h
    · rw [String.toList_append, List.mem_append] at h
      rcases h with h | h
      · exact absurd h (by decide)
      · exact hpascal h
    · exact hpascal h

/-- The name has an ASCII letter or digit. -/
def hasAlphanum (name : String) : Bool := name.toList.any Char.isAlphanum

/-- The ASCII letters and digits of a text. -/
def alphanums (cs : List Char) : List Char := cs.filter Char.isAlphanum

theorem alphanums_eq_nil_iff {cs : List Char} : alphanums cs = [] ↔ cs.any Char.isAlphanum = false := by
  rw [alphanums, List.filter_eq_nil_iff, List.any_eq_false]

theorem alphanums_cons (c : Char) (cs : List Char) :
    alphanums (c :: cs) = if c.isAlphanum then c :: alphanums cs else alphanums cs := List.filter_cons

theorem alphanums_underscore (cs : List Char) : alphanums ('_' :: cs) = alphanums cs := rfl

/-! ### Runs -/

theorem alphanums_breakCamel (cs : List Char) : alphanums (breakCamel cs) = alphanums cs := by
  fun_induction breakCamel cs with
  | case1 c d rest h ih => rw [alphanums_cons, alphanums_underscore, ih, ← alphanums_cons]
  | case2 c d rest h ih => rw [alphanums_cons, ih, ← alphanums_cons]
  | case3 => rfl

theorem alphanums_breakAcronym (cs : List Char) : alphanums (breakAcronym cs) = alphanums cs := by
  fun_induction breakAcronym cs with
  | case1 c d e rest h ih => rw [alphanums_cons, alphanums_underscore, ih, ← alphanums_cons]
  | case2 c d e rest h ih => rw [alphanums_cons, ih, ← alphanums_cons]
  | case3 => rfl

theorem flatten_pushFront (c : Char) (words : List (List Char)) :
    (Text.pushFront c words).flatten = c :: words.flatten := by
  cases words with
  | nil => rfl
  | cons word rest => rfl

/-- The runs of a text hold its letters and digits. -/
theorem flatten_runs (cs : List Char) : (runs cs).flatten = alphanums cs := by
  fun_induction runs cs with
  | case1 => rfl
  | case2 c hc => rw [alphanums_cons, if_pos hc]; rfl
  | case3 c hc => rw [alphanums_cons, if_neg hc]; rfl
  | case4 c d rest hc hd ih => rw [flatten_pushFront, ih, alphanums_cons c, if_pos hc]
  | case5 c d rest hc hd ih => rw [List.flatten_cons, ih, alphanums_cons c, if_pos hc, List.singleton_append]
  | case6 c d rest hc ih => rw [ih, alphanums_cons c, if_neg hc]

theorem ne_nil_of_mem_runs (cs : List Char) : ∀ word ∈ runs cs, word ≠ [] := by
  fun_induction runs cs with
  | case1 => exact List.forall_mem_nil _
  | case2 c hc => exact List.forall_mem_singleton.mpr (List.cons_ne_nil c [])
  | case3 => exact List.forall_mem_nil _
  | case4 c d rest hc hd ih =>
    cases hruns : runs (d :: rest) with
    | nil => exact List.forall_mem_singleton.mpr (List.cons_ne_nil c [])
    | cons word words =>
      rw [hruns, List.forall_mem_cons] at ih
      exact List.forall_mem_cons.mpr ⟨List.cons_ne_nil c word, ih.2⟩
  | case5 c d rest hc hd ih => exact List.forall_mem_cons.mpr ⟨List.cons_ne_nil c [], ih⟩
  | case6 c d rest hc ih => exact ih

theorem runs_eq_nil_iff {cs : List Char} : runs cs = [] ↔ alphanums cs = [] := by
  rw [← flatten_runs, List.flatten_eq_nil_iff]
  constructor
  · intro h
    rw [h]
    exact List.forall_mem_nil _
  · intro h
    exact List.eq_nil_iff_forall_not_mem.mpr fun word hword => ne_nil_of_mem_runs cs word hword (h word hword)

/-! ### Converted names -/

/-- **A name in `snake_case` is empty only if the name has no letter or digit.** -/
theorem snake_isEmpty_iff {name : String} : (snake name).isEmpty = true ↔ hasAlphanum name = false := by
  rw [String.isEmpty_iff, ← String.toList_eq_nil_iff, snake, String.toList_ofList, snakeChars, hasAlphanum,
    ← alphanums_eq_nil_iff, ← alphanums_breakCamel, ← alphanums_breakAcronym, ← runs_eq_nil_iff]
  generalize hwords : runs (breakAcronym (breakCamel name.toList)) = words
  constructor
  · intro h
    cases words with
    | nil => rfl
    | cons word rest =>
      have hne : word ≠ [] := ne_nil_of_mem_runs _ word (hwords ▸ List.mem_cons_self)
      cases rest with
      | nil =>
        rw [List.map_cons, List.map_nil, List.intercalate_singleton, List.map_eq_nil_iff] at h
        exact absurd h hne
      | cons next rest =>
        rw [List.map_cons, List.map_cons, List.intercalate_cons_cons] at h
        exact absurd (List.append_eq_nil_iff.mp (List.append_eq_nil_iff.mp h).1).1
          (fun h => hne (List.map_eq_nil_iff.mp h))
  · rintro rfl
    rfl

theorem lowered_toCase {c : Char} (h : c.isAlphanum = true) :
    c.toUpper.toLower = c.toLower ∧ c.toLower.toLower = c.toLower := by
  have htable : ∀ n < 123, (Char.ofNat n).isAlphanum = true →
      (Char.ofNat n).toUpper.toLower = (Char.ofNat n).toLower ∧
        (Char.ofNat n).toLower.toLower = (Char.ofNat n).toLower := by decide
  exact of_isAlphanum htable h

theorem lowered_capitalize {word : List Char} (h : ∀ c ∈ word, c.isAlphanum = true) :
    (capitalize word).map Char.toLower = word.map Char.toLower := by
  cases word with
  | nil => rfl
  | cons c rest =>
    obtain ⟨hc, hrest⟩ := List.forall_mem_cons.mp h
    rw [capitalize, List.map_cons, List.map_cons, (lowered_toCase hc).1]
    split
    · rw [List.map_map]
      exact congrArg _ (List.map_congr_left fun d hd => (lowered_toCase (hrest d hd)).2)
    · rfl

/-- **The letters and digits of a name in `PascalCase` are those of the name**, capitals aside. -/
theorem lowered_pascal (name : String) :
    (pascal name).toList.map Char.toLower = (alphanums name.toList).map Char.toLower := by
  rw [pascal, String.toList_ofList, pascalChars, ← alphanums_breakCamel, ← flatten_runs, List.map_flatMap,
    List.map_flatten, List.flatMap_def]
  exact congrArg _ (List.map_congr_left fun word hword =>
    lowered_capitalize (alphanum_of_mem_runs _ word hword))

theorem head?_flatMap_capitalize {words : List (List Char)} (h : ∀ word ∈ words, word ≠ []) :
    (words.flatMap capitalize).head? = words.flatten.head?.map Char.toUpper := by
  cases words with
  | nil => rfl
  | cons word rest =>
    obtain ⟨c, cs, rfl⟩ := List.exists_cons_of_ne_nil (List.forall_mem_cons.mp h).1
    rfl

/-- A name in `PascalCase` begins with the first letter or digit of the name, as a capital. -/
theorem head?_pascal (name : String) :
    (pascal name).toList.head? = (alphanums name.toList).head?.map Char.toUpper := by
  rw [pascal, String.toList_ofList, pascalChars, head?_flatMap_capitalize (ne_nil_of_mem_runs _), flatten_runs,
    alphanums_breakCamel]

/-- A name in `PascalCase` is empty only if the name has no letter or digit. -/
theorem pascal_isEmpty_iff {name : String} : (pascal name).isEmpty = true ↔ hasAlphanum name = false := by
  rw [String.isEmpty_iff, ← String.toList_eq_nil_iff, ← List.map_eq_nil_iff, lowered_pascal,
    List.map_eq_nil_iff, alphanums_eq_nil_iff, hasAlphanum]

/-! ### Names that are identifiers -/

/-- A name in `snake_case` consists of word characters. -/
theorem isWordChar_of_mem_snake {name : String} : ∀ c ∈ (snake name).toList, isWordChar c = true := by
  intro c hc
  rw [snake, String.toList_ofList, snakeChars] at hc
  have hsep : ∀ c ∈ ['_'], isWordChar c = true := by decide
  refine Text.forall_mem_intercalate hsep (fun word hword d hd => ?_) c hc
  obtain ⟨run, hrun, rfl⟩ := List.mem_map.mp hword
  obtain ⟨e, he, rfl⟩ := List.mem_map.mp hd
  rw [isWordChar, (isAlphanum_toCase (alphanum_of_mem_runs _ run hrun e he)).2]
  rfl

/-- Word characters without a digit in front are a plain name. -/
theorem isPlainName_of_word {name : String} (hne : name ≠ "")
    (h : ∀ c ∈ name.toList, isWordChar c = true) (hdigit : startsWithDigit name = false) :
    IsPlainName name := by
  have hchars : name.toList ≠ [] := fun h => hne (String.toList_eq_nil_iff.mp h)
  rw [IsPlainName]
  rw [startsWithDigit] at hdigit
  cases hname : name.toList with
  | nil => exact absurd hname hchars
  | cons c cs =>
    rw [hname] at h hdigit
    obtain ⟨hc, hcs⟩ := List.forall_mem_cons.mp h
    refine isPlainName_cons.mpr ⟨?_, fun d hd => isIdentChar_of_isWordChar (hcs d hd)⟩
    rw [isWordChar, Char.isAlphanum, Bool.or_eq_true, Bool.or_eq_true] at hc
    rw [Rust.Lexer.isIdentStart, Bool.or_eq_true]
    rcases hc with (hc | hc) | hc
    · exact .inr (Text.isLetter_of_isAlpha hc)
    · have hfalse : Text.isDigit c = false := hdigit
      rw [Text.isDigit, hc] at hfalse
      cases hfalse
    · exact .inl hc

theorem slug_word {name fallback : String} (hfallback : ∀ c ∈ fallback.toList, isWordChar c = true) :
    ∀ c ∈ (slug name fallback).toList, isWordChar c = true := by
  unfold slug
  dsimp only
  split
  · exact hfallback
  · exact isWordChar_of_mem_snake

theorem slug_ne_empty {name fallback : String} (h : fallback ≠ "") : slug name fallback ≠ "" := by
  unfold slug
  dsimp only
  split
  · exact h
  · rename_i hne
    exact fun h => hne (by rw [h]; rfl)

/-- What is put in front of a digit makes a plain name. -/
theorem isPlainName_guardDigit {lead name : String} (hlead : IsPlainName lead) (hne : name ≠ "")
    (h : ∀ c ∈ name.toList, isWordChar c = true) : IsPlainName (guardDigit lead name) := by
  unfold guardDigit
  split
  · rw [IsPlainName, String.toList_append]
    exact isPlainName_append hlead fun c hc => isIdentChar_of_isWordChar (h c hc)
  · rename_i hdigit
    exact isPlainName_of_word hne h (Bool.not_eq_true _ ▸ hdigit)

/-- A reserved word with an underscore is a plain name. -/
theorem isPlainName_underscore {name : String} (h : IsPlainName name) : IsPlainName (name ++ "_") := by
  rw [IsPlainName, String.toList_append]
  exact isPlainName_append h (by decide)

/-- **The module of a tag has a plain name.** -/
theorem isPlainName_moduleName (tag : String) : IsPlainName (moduleName tag) := by
  have hname : IsPlainName (guardDigit "m_" (slug tag "default")) :=
    isPlainName_guardDigit (by decide) (slug_ne_empty (by decide)) (slug_word (by decide))
  unfold moduleName guardKeyword
  split
  · exact isPlainName_underscore hname
  · exact hname

/-- **A field has an identifier.** -/
theorem isIdentifier_fieldName (property : String) : IsIdentifier (fieldName property) := by
  have hname : IsPlainName (guardDigit "field_" (slug property "field")) :=
    isPlainName_guardDigit (by decide) (slug_ne_empty (by decide)) (slug_word (by decide))
  unfold fieldName
  dsimp only
  split
  · exact isIdentifier_iff.mpr (.inl (isPlainName_underscore hname))
  split
  · refine isIdentifier_iff.mpr (.inr ⟨_, ?_, hname⟩)
    rw [String.toList_append]
    rfl
  · exact isIdentifier_iff.mpr (.inl hname)

/-- The name of a module has no characters but word characters. -/
theorem isWordChar_of_mem_moduleName {tag : String} :
    ∀ c ∈ (moduleName tag).toList, isWordChar c = true := by
  have hguarded : ∀ c ∈ (guardDigit "m_" (slug tag "default")).toList, isWordChar c = true := by
    unfold guardDigit
    split
    · rw [String.toList_append]
      exact List.forall_mem_append.mpr ⟨by decide, slug_word (by decide)⟩
    · exact slug_word (by decide)
  unfold moduleName guardKeyword
  split
  · rw [String.toList_append]
    exact List.forall_mem_append.mpr ⟨hguarded, by decide⟩
  · exact hguarded

end ContractSync.Name
