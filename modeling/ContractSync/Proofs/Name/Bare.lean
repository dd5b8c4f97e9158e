import ContractSync.Proofs.Name.Distinct
import ContractSync.Proofs.Name.Words
import ContractSync.Proofs.Schema.TypeNames

/-!
# Bare identifiers and names of fields

A name that is an identifier as it stands, without a raw marker, can be part of other names and of paths
(`IsBare`). **These are the words that no digit begins and that are not reserved** (`isBare_iff`). What the
repair of a function name makes of a word is bare (`isBare_functionName`), and it stays so with a number
behind it (`IsBare.numbered`).

The name of a field spells the words of its property; a reserved word is marked, in front or behind. The words
have a letter or digit at both ends, so the mark can be told from them, and **two properties get the same field
name exactly if they are spelled the same** (`fieldName_eq_iff`). No field name begins with an underscore
(`head?_fieldName`). Field names that a table makes distinct are identifiers (`isIdentifier_claimAll`).
-/

namespace ContractSync.Name

open Rust (IsIdentifier Token tokenize)
open Rust.Lexer (lexFrom_iff_run wordKind tokenize_word)
open Text (isWordChar)

/-- The name is read as one identifier, consists of ASCII letters, digits and underscores, and is not
reserved. -/
structure IsBare (name : String) : Prop where
  token : tokenize name.toList = .ok [⟨.ident, name, 0, name.length⟩]
  chars : ∀ c ∈ name.toList, isWordChar c = true
  unreserved : isKeyword name = false

theorem startsWithDigit_eq (name : String) :
    startsWithDigit name = Rust.Lexer.startsWith Text.isDigit name.toList := by
  unfold startsWithDigit Rust.Lexer.startsWith
  rfl

/-- **A name is bare exactly if it is a word that no digit begins and that is not reserved.** -/
theorem isBare_iff {name : String} :
    IsBare name ↔ IsWord name ∧ startsWithDigit name = false ∧ isKeyword name = false := by
  rw [startsWithDigit_eq]
  constructor
  · intro h
    have hne : name.toList ≠ [] := by
      intro hnil
      have hempty : tokenize [] = .ok [] := lexFrom_iff_run.mpr (.refl 0 [])
      have htoken := h.token
      rw [hnil, hempty] at htoken
      cases htoken
    refine ⟨⟨hne, h.chars⟩, ?_, h.unreserved⟩
    have htoken := (tokenize_word hne h.chars).symm.trans h.token
    have hkind : wordKind name.toList = .ident := congrArg Token.kind (List.cons.inj (Except.ok.inj htoken)).1
    rw [← Bool.not_eq_true]
    intro hdigit
    rw [wordKind, if_pos hdigit] at hkind
    cases hkind
  · rintro ⟨hword, hdigit, hkeyword⟩
    refine ⟨?_, hword.chars, hkeyword⟩
    rw [tokenize_word hword.nonempty hword.chars, wordKind, hdigit, String.ofList_toList, String.length_toList]
    rfl

/-- A word has no raw marker. -/
theorem bare_eq_self {name : String} (h : ∀ c ∈ name.toList, isWordChar c = true) : bare name = name := by
  unfold bare
  split
  · rename_i rest hname
    have hhash := h '#' (by rw [hname]; simp)
    exact absurd hhash (by decide)
  · rfl

/-! ### Repaired names -/

theorem startsWithDigit_append {name : String} (h : name.toList ≠ []) (more : String) :
    startsWithDigit (name ++ more) = startsWithDigit name := by
  rw [startsWithDigit_eq, startsWithDigit_eq, String.toList_append]
  obtain ⟨c, cs, hcs⟩ := List.exists_cons_of_ne_nil h
  rw [hcs]
  rfl

/-- No reserved word has an underscore. -/
theorem not_isKeyword_of_underscore {name : String} (h : '_' ∈ name.toList) : isKeyword name = false := by
  have hwords : ∀ word ∈ keywords, '_' ∉ word.toList := by decide
  rw [isKeyword, ← Bool.not_eq_true, List.contains_iff_mem]
  exact fun hmem => hwords name hmem h

/-- A word that no digit begins is bare once it is no reserved word. -/
theorem isBare_guardKeyword {name : String} (hword : IsWord name) (hdigit : startsWithDigit name = false) :
    IsBare (guardKeyword name) := by
  refine isBare_iff.mpr ?_
  unfold guardKeyword
  split
  · have hunderscore : IsWord "_" := ⟨by decide, by decide⟩
    refine ⟨isWord_append hword.chars hunderscore, (startsWithDigit_append hword.nonempty _).trans hdigit, ?_⟩
    refine not_isKeyword_of_underscore ?_
    rw [String.toList_append]
    exact List.mem_append_right _ (List.mem_singleton_self _)
  · rename_i hkeyword
    exact ⟨hword, hdigit, Bool.not_eq_true _ ▸ hkeyword⟩

/-- **The name of a function that is made from word characters is bare.** -/
theorem isBare_functionName {name : String} (h : ∀ c ∈ name.toList, isWordChar c = true) :
    IsBare (functionName name) := by
  unfold functionName
  split
  · exact isBare_iff.mpr ⟨⟨by decide, by decide⟩, by decide, by decide⟩
  · rename_i hne
    have hname : name.toList ≠ [] := fun hnil => hne (String.isEmpty_iff.mpr (String.toList_eq_nil_iff.mp hnil))
    unfold guardDigit
    split
    · exact isBare_guardKeyword (isWord_append (by decide) ⟨hname, h⟩) (startsWithDigit_append (by decide) name)
    · rename_i hdigit
      exact isBare_guardKeyword ⟨hname, h⟩ (Bool.not_eq_true _ ▸ hdigit)

/-- No character gets lost in the name of a function. -/
theorem mem_functionName {name : String} {c : Char} (h : c ∈ name.toList) :
    c ∈ (functionName name).toList := by
  have hkeyword : ∀ {s : String}, c ∈ s.toList → c ∈ (guardKeyword s).toList := by
    intro s hs
    unfold guardKeyword
    split
    · rw [String.toList_append]
      exact List.mem_append_left _ hs
    · exact hs
  unfold functionName
  split
  · rename_i hempty
    rw [String.isEmpty_iff.mp hempty] at h
    cases h
  · refine hkeyword ?_
    unfold guardDigit
    split
    · rw [String.toList_append]
      exact List.mem_append_right _ h
    · exact h

/-! ### Numbered names -/

theorem isWordChar_of_mem_toString (n : Nat) : ∀ c ∈ (toString n).toList, isWordChar c = true := by
  intro c hc
  rw [Nat.toString_eq_repr, Nat.toList_repr] at hc
  have hdigit := Nat.isDigit_of_mem_toDigits (by decide) (by decide) hc
  exact isWordChar_of_isAlphanum (by rw [Char.isAlphanum, hdigit, Bool.or_true])

/-- A bare name with a number behind it is bare. -/
theorem IsBare.numbered {base : String} (h : IsBare base) (n : Nat) : IsBare (numbered base n) := by
  obtain ⟨hword, hdigit, -⟩ := isBare_iff.mp h
  unfold Name.numbered
  split
  · exact h
  · have hchars : ∀ c ∈ (suffixed base n).toList, isWordChar c = true := by
      rw [suffixed_toList]
      exact List.forall_mem_append.mpr ⟨hword.chars,
        List.forall_mem_cons.mpr ⟨by decide, isWordChar_of_mem_toString n⟩⟩
    have hunderscore : '_' ∈ (suffixed base n).toList := by
      rw [suffixed_toList]
      exact List.mem_append_right _ List.mem_cons_self
    refine isBare_iff.mpr ⟨⟨List.ne_nil_of_mem hunderscore, hchars⟩, ?_, not_isKeyword_of_underscore hunderscore⟩
    rw [suffixed, String.append_assoc]
    exact (startsWithDigit_append hword.nonempty _).trans hdigit

theorem mem_numbered {base : String} {c : Char} (h : c ∈ base.toList) (n : Nat) :
    c ∈ (Name.numbered base n).toList := by
  unfold Name.numbered
  split
  · exact h
  · rw [suffixed_toList]
    exact List.mem_append_left _ h

/-! ### Spellings of fields -/

/-- The words of a property as the name of its field has them, before reserved words are marked. -/
def spelling (property : String) : String := guardDigit "field_" (slug property "field")

theorem fieldName_eq (property : String) : fieldName property =
    if rawlessKeywords.contains (spelling property) then spelling property ++ "_"
    else if isKeyword (spelling property) then "r#" ++ spelling property else spelling property := rfl

theorem isWord_spelling (property : String) : IsWord (spelling property) := by
  have hslug : IsWord (slug property "field") :=
    ⟨fun h => slug_ne_empty (by decide) (String.toList_eq_nil_iff.mp h), slug_word (by decide)⟩
  unfold spelling guardDigit
  split
  · exact isWord_append (by decide) hslug
  · exact hslug

/-! ### The ends of a spelling -/

/-- A letter or digit is at the front of the text and at its end, if it is not empty. -/
structure HasEnds (cs : List Char) : Prop where
  first : ∀ c, cs.head? = some c → c.isAlphanum = true
  last : ∀ c, cs.getLast? = some c → c.isAlphanum = true

namespace HasEnds

theorem of_forall {cs : List Char} (h : ∀ c ∈ cs, c.isAlphanum = true) : HasEnds cs :=
  ⟨fun c hc => h c (List.mem_of_head? hc), fun c hc => h c (List.mem_of_getLast? hc)⟩

theorem append {front behind : List Char} (hfront : HasEnds front) (hbehind : HasEnds behind)
    (hne : front ≠ []) (hne' : behind ≠ []) (between : List Char) : HasEnds (front ++ (between ++ behind)) := by
  refine ⟨fun c hc => hfront.first c ?_, fun c hc => hbehind.last c ?_⟩
  · rwa [List.head?_append_of_ne_nil _ hne] at hc
  · rwa [List.getLast?_append_of_ne_nil _ (List.append_ne_nil_of_right_ne_nil _ hne'),
      List.getLast?_append_of_ne_nil _ hne'] at hc

/-- Words with a separator between them. -/
theorem intercalate {words : List (List Char)} (h : ∀ word ∈ words, word ≠ [] ∧ ∀ c ∈ word, c.isAlphanum = true)
    (sep : List Char) : HasEnds (sep.intercalate words) := by
  induction words with
  | nil => exact ⟨nofun, nofun⟩
  | cons word rest ih =>
    obtain ⟨⟨hne, hword⟩, hrest⟩ := List.forall_mem_cons.mp h
    cases rest with
    | nil =>
      rw [List.intercalate_singleton]
      exact of_forall hword
    | cons next rest =>
      rw [List.intercalate_cons_cons, List.append_assoc]
      refine (of_forall hword).append (ih hrest) hne ?_ sep
      have hnext := (hrest next List.mem_cons_self).1
      cases rest with
      | nil => rwa [List.intercalate_singleton]
      | cons third rest =>
        rw [List.intercalate_cons_cons, List.append_assoc]
        exact List.append_ne_nil_of_left_ne_nil hnext _

end HasEnds

theorem hasEnds_snake (name : String) : HasEnds (snake name).toList := by
  rw [snake, String.toList_ofList, snakeChars]
  refine HasEnds.intercalate (fun word hword => ?_) _
  obtain ⟨run, hrun, rfl⟩ := List.mem_map.mp hword
  refine ⟨fun h => ne_nil_of_mem_runs _ run hrun (List.map_eq_nil_iff.mp h), ?_⟩
  exact List.forall_mem_map.mpr fun c hc => (isAlphanum_toCase (alphanum_of_mem_runs _ run hrun c hc)).2

theorem hasEnds_spelling (property : String) : HasEnds (spelling property).toList := by
  have hslug : HasEnds (slug property "field").toList := by
    unfold slug
    dsimp only
    split
    · exact .of_forall (by decide)
    · exact hasEnds_snake property
  have hne : (slug property "field").toList ≠ [] := fun h =>
    slug_ne_empty (by decide) (String.toList_eq_nil_iff.mp h)
  unfold spelling guardDigit
  split
  · have hlead : "field_".toList = "field".toList ++ "_".toList := by decide
    rw [String.toList_append, hlead, List.append_assoc]
    exact (HasEnds.of_forall (by decide)).append hslug (by decide) hne _
  · exact hslug

/-! ### Telling the mark from the words -/

/-- The name without the marks of a reserved word. -/
def unmarked (name : String) : List Char := Text.dropEndWhile (· == '_') (bare name).toList

theorem ne_underscore_of_isAlphanum {c : Char} (h : c.isAlphanum = true) : (c == '_') = false := by
  rw [beq_eq_false_iff_ne]
  rintro rfl
  cases h

/-- **The words of a property can be read off the name of its field.** -/
theorem unmarked_fieldName (property : String) : unmarked (fieldName property) = (spelling property).toList := by
  have hword := isWord_spelling property
  have hend : Text.dropEndWhile (· == '_') (spelling property).toList = (spelling property).toList :=
    Text.dropEndWhile_eq_self fun c hc => ne_underscore_of_isAlphanum ((hasEnds_spelling property).last c hc)
  rw [fieldName_eq, unmarked]
  split
  · have hmarked : ∀ c ∈ (spelling property ++ "_").toList, isWordChar c = true :=
      (isWord_append hword.chars ⟨by decide, by decide⟩).chars
    have hmark : "_".toList = ['_'] := rfl
    -- The underscore behind a reserved word goes, and none of the word does.
    rw [bare_eq_self hmarked, String.toList_append, hmark, Text.dropEndWhile, List.reverse_concat,
      List.dropWhile_cons_of_pos (by rfl)]
    exact hend
  split
  · have hraw : bare ("r#" ++ spelling property) = spelling property := by
      rw [bare, String.toList_append]
      exact String.ofList_toList
    rw [hraw, hend]
  · rw [bare_eq_self hword.chars, hend]

/-- **Two properties get the same field name** exactly if they are spelled the same. -/
theorem fieldName_eq_iff {a b : String} : fieldName a = fieldName b ↔ spelling a = spelling b := by
  constructor
  · intro h
    rw [← String.toList_inj, ← unmarked_fieldName, ← unmarked_fieldName, h]
  · intro h
    rw [fieldName_eq, fieldName_eq, h]

/-- No field name begins with an underscore. -/
theorem head?_fieldName (property : String) : (fieldName property).toList.head? ≠ some '_' := by
  have hne := (isWord_spelling property).nonempty
  have hspelling : (spelling property).toList.head? ≠ some '_' := fun h =>
    absurd ((hasEnds_spelling property).first _ h) (by decide)
  rw [fieldName_eq]
  split
  · rwa [String.toList_append, List.head?_append_of_ne_nil _ hne]
  split
  · rw [String.toList_append, List.head?_append_of_ne_nil _ (by decide)]
    decide
  · exact hspelling

/-! ### Field names made distinct -/

theorem isIdentifier_numbered {base : String} (h : IsIdentifier base) (n : Nat) : IsIdentifier (numbered base n) := by
  unfold numbered
  split
  · exact h
  · exact Rust.isIdentifier_append (Rust.isIdentifier_append h (by decide)) fun c hc =>
      Rust.Lexer.isIdentChar_of_isWordChar (isWordChar_of_mem_toString n c hc)

/-- **What a table makes of identifiers are identifiers.** -/
theorem isIdentifier_claimAll {bases : List String} (h : ∀ base ∈ bases, IsIdentifier base) :
    ∀ name ∈ Table.claimAll {} bases, IsIdentifier name := by
  intro name hname
  obtain ⟨base, hbase, n, rfl⟩ := Resolving.exists_left_of_forall₂ (claimAll_forall₂ bases).flip name hname
  exact isIdentifier_numbered (h base hbase) n

end ContractSync.Name
