import ContractSync.Proofs.Rust.LexEnd
import ContractSync.Text.Basic

/-!
# Identifiers

An identifier is a letter or an underscore with letters, digits and underscores behind it, or the same
behind a raw marker. **In front of a text that does not go on with it, an identifier is read as one token**
(`run_identifier`).
-/

namespace ContractSync.Rust

open Lexer

/-- A letter or an underscore, then letters, digits and underscores. -/
def isPlainName : List Char → Bool
  | [] => false
  | c :: cs => isIdentStart c && cs.all isIdentChar

/-- A plain name, or one with a raw marker in front. -/
def isIdentifier : List Char → Bool
  | 'r' :: '#' :: rest => isPlainName rest
  | cs => isPlainName cs

/-- The name is that of a function, a type or a field. -/
def IsIdentifier (name : String) : Prop := isIdentifier name.toList = true

instance : DecidablePred IsIdentifier := fun name =>
  inferInstanceAs (Decidable (isIdentifier name.toList = true))

/-- The name is an identifier without a raw marker. -/
def IsPlainName (name : String) : Prop := isPlainName name.toList = true

instance : DecidablePred IsPlainName := fun name =>
  inferInstanceAs (Decidable (isPlainName name.toList = true))

namespace Lexer

theorem isIdentChar_of_isWordChar {c : Char} (h : Text.isWordChar c = true) : isIdentChar c = true := by
  rw [Text.isWordChar, Bool.or_eq_true] at h
  rw [isIdentChar, Text.isAlphanumeric, Bool.or_eq_true]
  rcases h with h | h
  · exact .inr (by rw [h]; rfl)
  · exact .inl h

end Lexer

namespace Lexer

/-! ### Marks -/

variable {c : Char}

/-- A mark stands in no name. -/
theorem not_isIdentChar_of_mark (h : Text.inRanges Text.markRanges c = true) : isIdentChar c = false := by
  have hunderscore : (c == '_') = false := by
    rw [beq_eq_false_iff_ne]
    rintro rfl
    cases h
  rw [isIdentChar, hunderscore, Text.not_isAlphanumeric_of_mark h]
  rfl

theorem not_isIdentChar_of_isBlank (h : Text.isBlank c = true) : isIdentChar c = false := by
  rw [← Bool.not_eq_true]
  intro hchar
  rw [not_isBlank_of_isIdentChar hchar] at h
  cases h

theorem not_isIdentStart_of_mark (h : Text.inRanges Text.markRanges c = true) :
    isIdentStart c = false := by
  rw [← Bool.not_eq_true]
  intro hstart
  have hchar := isIdentChar_of_isIdentStart hstart
  rw [not_isIdentChar_of_mark h] at hchar
  cases hchar

theorem not_isDigit_of_mark (h : Text.inRanges Text.markRanges c = true) : Text.isDigit c = false := by
  rw [← Bool.not_eq_true]
  intro hdigit
  have hchar := Text.isAlphanumeric_of_isDigit hdigit
  rw [Text.not_isAlphanumeric_of_mark h] at hchar
  cases hchar

end Lexer

theorem isPlainName_cons {c : Char} {rest : List Char} :
    isPlainName (c :: rest) = true ↔ isIdentStart c = true ∧ ∀ d ∈ rest, isIdentChar d = true := by
  rw [isPlainName, Bool.and_eq_true, List.all_eq_true]

/-- All characters of a plain name may stand in one. -/
theorem isIdentChar_of_mem_plainName {cs : List Char} (h : isPlainName cs = true) :
    ∀ c ∈ cs, isIdentChar c = true := by
  cases cs with
  | nil => cases h
  | cons c rest =>
    obtain ⟨hc, hrest⟩ := isPlainName_cons.mp h
    exact List.forall_mem_cons.mpr ⟨isIdentChar_of_isIdentStart hc, hrest⟩

theorem isPlainName_append {cs more : List Char} (h : isPlainName cs = true)
    (hmore : ∀ c ∈ more, isIdentChar c = true) : isPlainName (cs ++ more) = true := by
  cases cs with
  | nil => cases h
  | cons c rest =>
    obtain ⟨hc, hrest⟩ := isPlainName_cons.mp h
    exact isPlainName_cons.mpr ⟨hc, List.forall_mem_append.mpr ⟨hrest, hmore⟩⟩

/-- An identifier is a plain name or a raw one. -/
theorem isIdentifier_iff {cs : List Char} :
    isIdentifier cs = true ↔
      isPlainName cs = true ∨ ∃ rest, cs = 'r' :: '#' :: rest ∧ isPlainName rest = true := by
  have hhash : isIdentChar '#' = false := not_isIdentChar_of_mark (by decide)
  constructor
  · intro h
    unfold isIdentifier at h
    split at h
    · exact .inr ⟨_, rfl, h⟩
    · exact .inl h
  · rintro (h | ⟨rest, rfl, h⟩)
    · unfold isIdentifier
      split
      · have := isIdentChar_of_mem_plainName h '#' (by simp)
        rw [hhash] at this
        cases this
      · exact h
    · exact h

/-- A character of an identifier goes on a name or is a hash mark. -/
theorem isIdentChar_of_mem_identifier {cs : List Char} (h : isIdentifier cs = true) {c : Char} (hc : c ∈ cs)
    (hhash : c ≠ '#') : isIdentChar c = true := by
  rcases isIdentifier_iff.mp h with h | ⟨rest, rfl, h⟩
  · exact isIdentChar_of_mem_plainName h c hc
  · rcases List.mem_cons.mp hc with rfl | hc
    · decide
    · exact isIdentChar_of_mem_plainName h c ((List.mem_cons.mp hc).resolve_left hhash)

/-- No identifier has a line feed. -/
theorem newline_notMem_of_isIdentifier {name : String} (h : IsIdentifier name) : '\n' ∉ name.toList := by
  intro hmem
  have hident := isIdentChar_of_mem_identifier h hmem (by decide)
  rw [Lexer.not_isIdentChar_of_isBlank (by decide)] at hident
  cases hident

/-- What may go on an identifier. -/
theorem isIdentifier_append {name more : String} (h : IsIdentifier name)
    (hmore : ∀ c ∈ more.toList, Lexer.isIdentChar c = true) : IsIdentifier (name ++ more) := by
  rw [IsIdentifier, String.toList_append]
  rcases isIdentifier_iff.mp h with h | ⟨rest, hrest, h⟩
  · exact isIdentifier_iff.mpr (.inl (isPlainName_append h hmore))
  · exact isIdentifier_iff.mpr (.inr ⟨rest ++ more.toList, by rw [hrest]; rfl, isPlainName_append h hmore⟩)

/-! ### Identifiers as tokens -/

/-- The text does not go on with an identifier in front of it. -/
def IsGap (rest : List Char) : Prop :=
  startsWith (fun c => isIdentChar c || ['"', '\'', '#'].contains c) rest = false

instance : DecidablePred IsGap := fun _ => inferInstanceAs (Decidable (_ = false))

theorem IsGap.startsWith_eq_false {p : Char → Bool} {rest : List Char} (h : IsGap rest)
    (hp : ∀ c, p c = true → isIdentChar c = true ∨ c ∈ ['"', '\'', '#']) :
    startsWith p rest = false := by
  cases rest with
  | nil => rfl
  | cons c =>
    rw [startsWith, ← Bool.not_eq_true]
    intro hc
    have hstop : (isIdentChar c || ['"', '\'', '#'].contains c) = false := h
    rw [Bool.or_eq_false_iff, ← Bool.not_eq_true, ← Bool.not_eq_true, List.contains_iff_mem] at hstop
    exact (hp c hc).elim hstop.1 hstop.2

theorem IsGap.append {a : List Char} (h : IsGap a) (hne : a ≠ []) (rest : List Char) :
    IsGap (a ++ rest) := by
  cases a with
  | nil => exact absurd rfl hne
  | cons => exact h

namespace Lexer

theorem identLength_append {w rest : List Char} (hw : ∀ c ∈ w, isIdentChar c = true)
    (hrest : IsGap rest) : identLength (w ++ rest) = w.length :=
  takeWhile_append_length.mpr ⟨hw, hrest.startsWith_eq_false fun _ h => .inl h⟩

theorem not_isIdentChar_of_mem {c : Char} (h : c ∈ ['"', '\'', '#', '/']) : isIdentChar c = false := by
  have hmarks : ∀ c ∈ ['"', '\'', '#', '/'], Text.inRanges Text.markRanges c = true := by decide
  exact not_isIdentChar_of_mark (hmarks c h)

/-- No quote and no hash mark comes behind a name. -/
theorem startsWith_name {q : Char} (hq : q ∈ ['"', '\'', '#']) {w rest : List Char}
    (hw : ∀ c ∈ w, isIdentChar c = true) (hrest : IsGap rest) :
    startsWith (· == q) (w ++ rest) = false := by
  cases w with
  | nil => exact hrest.startsWith_eq_false fun c hc => .inr (beq_iff_eq.mp hc ▸ hq)
  | cons c w =>
    rw [List.cons_append, startsWith, beq_eq_false_iff_ne]
    rintro rfl
    have := hw c List.mem_cons_self
    rw [not_isIdentChar_of_mem (List.mem_append_left ['/'] hq)] at this
    cases this

theorem rawHashes_name {w rest : List Char} (hw : ∀ c ∈ w, isIdentChar c = true)
    (hrest : IsGap rest) : rawHashes (w ++ rest) = none := by
  have hhash : startsWith (· == '#') (w ++ rest) = false := startsWith_name (by simp) hw hrest
  have hquote : startsWith (· == '"') (w ++ rest) = false := startsWith_name (by simp) hw hrest
  generalize w ++ rest = cs at hhash hquote
  cases cs with
  | nil => rfl
  | cons c cs =>
    rw [startsWith, beq_eq_false_iff_ne] at hhash hquote
    rw [rawHashes_cons, if_neg hhash, if_neg hquote]

/-- A name does not start a raw string. -/
theorem rawMarker_name {c : Char} {w rest : List Char} (hw : ∀ c ∈ w, isIdentChar c = true)
    (hrest : IsGap rest) : rawMarker c (w ++ rest) = none := by
  unfold rawMarker
  split
  · rw [rawHashes_name hw hrest]
    rfl
  split
  · rename_i hmatch _
    cases w with
    | nil =>
      have hr : isIdentChar 'r' = true := by decide
      rw [List.nil_append] at hmatch
      rw [hmatch, IsGap, startsWith, hr] at hrest
      cases hrest
    | cons d w =>
      rw [List.cons_append, List.cons.injEq] at hmatch
      rw [← hmatch.2, rawHashes_name (fun c hc => hw c (List.mem_cons_of_mem _ hc)) hrest]
      rfl
  · rfl

/-- What begins an identifier is no slash. -/
theorem step_eq_tokenStep {c : Char} (h : isIdentStart c = true) (rest : List Char) :
    step c rest = tokenStep c rest := by
  have hslash : c ≠ '/' := by
    rintro rfl
    have := isIdentChar_of_isIdentStart h
    rw [not_isIdentChar_of_mem (by simp)] at this
    cases this
  rw [step, not_isBlank_of_isIdentChar (isIdentChar_of_isIdentStart h), if_neg (by decide), if_neg (fun h => hslash h.1),
    if_neg (fun h => hslash h.1)]

theorem step_plainName {c : Char} {w rest : List Char} (hc : isIdentStart c = true)
    (hw : ∀ c ∈ w, isIdentChar c = true) (hrest : IsGap rest) :
    step c (w ++ rest) = .ok ⟨some .ident, w.length⟩ := by
  have hquote := fun q hq => startsWith_name (q := q) hq hw hrest
  rw [step_eq_tokenStep hc, tokenStep, rawMarker_name hw hrest]
  simp only [hquote _ (List.mem_cons_self ..), hquote '\'' (by simp), hquote '#' (by simp), hc,
    Bool.false_eq_true, and_false, false_and, if_false, if_true, identLength_append hw hrest]

theorem step_rawName {c : Char} {w rest : List Char} (hc : isIdentStart c = true)
    (hw : ∀ c ∈ w, isIdentChar c = true) (hrest : IsGap rest) :
    step 'r' ('#' :: c :: (w ++ rest)) = .ok ⟨some .ident, w.length + 2⟩ := by
  have hr : isIdentStart 'r' = true := by decide
  have hw' : ∀ d ∈ c :: w, isIdentChar d = true :=
    List.forall_mem_cons.mpr ⟨isIdentChar_of_isIdentStart hc, hw⟩
  have hmarker : rawMarker 'r' ('#' :: c :: (w ++ rest)) = none := by
    unfold rawMarker
    rw [if_pos rfl, rawHashes_cons, if_pos rfl, ← List.cons_append, rawHashes_name hw' hrest]
    rfl
  have hlength : identLength (c :: (w ++ rest)) = w.length + 1 := identLength_append hw' hrest
  rw [step_eq_tokenStep hr, tokenStep, hmarker]
  simp [startsWith, hc, hlength, Nat.add_comm 1]

/-- **An identifier is one token**, in front of what does not go on with it. -/
theorem run_identifier {name rest : List Char} (h : isIdentifier name = true) (hrest : IsGap rest) :
    Run 0 (name ++ rest) [⟨.ident, String.ofList name, 0, name.length⟩] name.length rest := by
  rcases isIdentifier_iff.mp h with h | ⟨name, rfl, h⟩ <;> cases name with
  | nil => cases h
  | cons c w =>
    obtain ⟨hc, hw⟩ := isPlainName_cons.mp h
    first
    | have hemit := Run.emit (p := 0) (step_plainName hc hw hrest) (.refl _ _)
      rwa [Nat.zero_add] at hemit
    | have hemit := Run.emit (p := 0) (w := '#' :: c :: w) (step_rawName hc hw hrest) (.refl _ _)
      rwa [Nat.zero_add] at hemit

/-- The text goes on neither with a name nor with a number in front of it. -/
def IsBreak (rest : List Char) : Prop := IsGap rest ∧ startsWith (· == '.') rest = false

instance : DecidablePred IsBreak := fun _ => inferInstanceAs (Decidable (_ ∧ _))

theorem IsBreak.append {a : List Char} (h : IsBreak a) (hne : a ≠ []) (rest : List Char) :
    IsBreak (a ++ rest) := by
  cases a with
  | nil => exact absurd rfl hne
  | cons => exact h

theorem numberLength_name {w rest : List Char} (hw : ∀ c ∈ w, isIdentChar c = true)
    (hrest : IsBreak rest) : numberLength (w ++ rest) = w.length := by
  induction w with
  | nil =>
    cases rest with
    | nil => rfl
    | cons c rest =>
      have hident : startsWith isIdentChar (c :: rest) = false :=
        hrest.1.startsWith_eq_false fun _ h => .inl h
      have hpoint := hrest.2
      rw [startsWith] at hident hpoint
      rw [List.nil_append, numberLength, hident, hpoint]
      rfl
  | cons c w ih =>
    obtain ⟨hc, hw⟩ := List.forall_mem_cons.mp hw
    rw [List.cons_append, numberLength, hc, Bool.true_or, if_pos rfl, ih hw]
    rfl

/-- A digit and what goes on the number. -/
theorem step_number {c : Char} {w rest : List Char} (hdigit : Text.isDigit c = true)
    (hstart : isIdentStart c = false) (hw : ∀ d ∈ w, isIdentChar d = true) (hrest : IsBreak rest) :
    step c (w ++ rest) = .ok ⟨some .literal, w.length⟩ := by
  have hident : isIdentChar c = true := isIdentChar_of_isDigit hdigit
  have hne : ∀ d ∈ ['"', '\'', '#', '/'], c ≠ d := by
    rintro d hd rfl
    rw [not_isIdentChar_of_mem hd] at hident
    cases hident
  have hletter : ∀ d, isIdentStart d = true → c ≠ d := by
    rintro d hd rfl
    rw [hstart] at hd
    cases hd
  have hquote := hne '"' (by simp)
  have hapostrophe := hne '\'' (by simp)
  have hslash := hne '/' (by simp)
  have hr : c ≠ 'r' := hletter 'r' (by decide)
  have hb : c ≠ 'b' := hletter 'b' (by decide)
  have hmarker : rawMarker c (w ++ rest) = none := by
    unfold rawMarker
    rw [if_neg hr]
    split
    · exact absurd rfl hb
    · rfl
  rw [step, not_isBlank_of_isIdentChar hident, if_neg Bool.false_ne_true, if_neg fun h => hslash h.1,
    if_neg fun h => hslash h.1, tokenStep, hmarker]
  simp [hb, hr, hstart, hquote, hapostrophe, hdigit, numberLength_name hw hrest]

/-- No digit starts an identifier. -/
theorem not_isIdentStart_of_isDigit {c : Char} (h : Text.isDigit c = true) : isIdentStart c = false := by
  have hunderscore : (c == '_') = false := by
    rw [beq_eq_false_iff_ne]
    rintro rfl
    revert h
    decide
  rw [isIdentStart, hunderscore, Text.not_isLetter_of_isDigit h, Bool.or_false]

/-- A word character that is no digit starts a name. -/
theorem isIdentStart_of_isWordChar {c : Char} (h : Text.isWordChar c = true)
    (hdigit : ¬ Text.isDigit c = true) : isIdentStart c = true := by
  rw [Text.isWordChar, Char.isAlphanum, Bool.or_eq_true, Bool.or_eq_true] at h
  rw [isIdentStart, Bool.or_eq_true]
  rcases h with (h | h) | h
  · exact .inr (Text.isLetter_of_isAlpha h)
  · exact absurd (Text.isDigit_of_ascii h) hdigit
  · exact .inl h

/-- What a word is read as: a number if a digit comes first, else a name. -/
def wordKind (w : List Char) : TokenKind := if startsWith Text.isDigit w then .literal else .ident

theorem wordKind_ne_punct (w : List Char) : wordKind w ≠ .punct := by
  unfold wordKind
  split <;> nofun

/-- **A word is one token**, a name or a number. -/
theorem run_word {w : List Char} (hne : w ≠ []) (hw : ∀ c ∈ w, Text.isWordChar c = true)
    {rest : List Char} (hrest : IsBreak rest) :
    Run 0 (w ++ rest) [⟨wordKind w, String.ofList w, 0, w.length⟩] w.length rest := by
  obtain ⟨c, w, rfl⟩ := List.exists_cons_of_ne_nil hne
  obtain ⟨hc, hw⟩ := List.forall_mem_cons.mp hw
  have hchars : ∀ d ∈ w, isIdentChar d = true := fun d hd => isIdentChar_of_isWordChar (hw d hd)
  by_cases hdigit : Text.isDigit c = true
  · have hemit := Run.emit (p := 0) (step_number hdigit (not_isIdentStart_of_isDigit hdigit) hchars hrest)
      (.refl _ _)
    rw [Nat.zero_add] at hemit
    rw [wordKind, startsWith, if_pos hdigit]
    exact hemit
  · have hstart := isIdentStart_of_isWordChar hc hdigit
    rw [wordKind, startsWith, if_neg hdigit]
    exact run_identifier (isIdentifier_iff.mpr (.inl (isPlainName_cons.mpr ⟨hstart, hchars⟩))) hrest.1

/-- A text that is a word is read as one token. -/
theorem tokenize_word {w : List Char} (hne : w ≠ []) (hw : ∀ c ∈ w, Text.isWordChar c = true) :
    tokenize w = .ok [⟨wordKind w, String.ofList w, 0, w.length⟩] := by
  have hrun := @run_word w hne hw [] (by decide)
  rw [List.append_nil] at hrun
  refine lexFrom_iff_run.mpr ?_
  rwa [Nat.zero_add]

end Lexer

end ContractSync.Rust
