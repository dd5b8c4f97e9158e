import ContractSync.Text.Basic
import ContractSync.Text.CaseMap
import ContractSync.Text.Digit
import ContractSync.Text.Letter

/-!
# How character tables relate

One class of characters lies inside another, or apart from it, if each range of its table does. The
two checks run over the tables, not over the characters.
-/

namespace ContractSync.Text

/-- What is said of the characters of a list is decided by a walk over the list. There are finitely many
characters, so another way would be a walk over all of them. -/
instance decidableForallMem (cs : List Char) (p : Char → Prop) [DecidablePred p] :
    Decidable (∀ c ∈ cs, p c) :=
  List.decidableBAll p cs

/-- Each range of the first table lies in a range of the second. -/
def isWithin (a b : List (Nat × Nat)) : Bool :=
  a.all fun r => b.any fun s => decide (s.1 ≤ r.1) && decide (r.2 ≤ s.2)

/-- No range of the first table meets one of the second. -/
def isApart (a b : List (Nat × Nat)) : Bool :=
  a.all fun r => b.all fun s => decide (r.2 < s.1) || decide (s.2 < r.1)

theorem inRanges_iff {table : List (Nat × Nat)} {c : Char} :
    inRanges table c = true ↔ ∃ r ∈ table, r.1 ≤ c.toNat ∧ c.toNat ≤ r.2 := by
  simp [inRanges]

theorem inRanges_of_isWithin {a b : List (Nat × Nat)} (h : isWithin a b = true) {c : Char}
    (hc : inRanges a c = true) : inRanges b c = true := by
  rw [inRanges_iff] at hc ⊢
  obtain ⟨r, hr, hlow, hhigh⟩ := hc
  have hin := List.all_eq_true.mp h r hr
  obtain ⟨s, hs, hin⟩ := List.any_eq_true.mp hin
  rw [Bool.and_eq_true, decide_eq_true_eq, decide_eq_true_eq] at hin
  exact ⟨s, hs, by omega, by omega⟩

theorem not_inRanges_of_isApart {a b : List (Nat × Nat)} (h : isApart a b = true) {c : Char}
    (hc : inRanges a c = true) : inRanges b c = false := by
  rw [← Bool.not_eq_true]
  intro hb
  rw [inRanges_iff] at hc hb
  obtain ⟨r, hr, hlow, hhigh⟩ := hc
  obtain ⟨s, hs, hlow', hhigh'⟩ := hb
  have hout := List.all_eq_true.mp (List.all_eq_true.mp h r hr) s hs
  rw [Bool.or_eq_true, decide_eq_true_eq, decide_eq_true_eq] at hout
  omega

/-- A digit is alphanumeric. -/
theorem isAlphanumeric_of_isDigit {c : Char} (h : isDigit c = true) : isAlphanumeric c = true := by
  rw [isDigit, Bool.or_eq_true] at h
  rcases h with h | h
  · simp [isAlphanumeric, Char.isAlphanum, h]
  · have hin := inRanges_of_isWithin (b := numericRanges) (by decide) h
    simp [isAlphanumeric, hin]

/-- The ASCII letters. -/
def asciiLetterRanges : List (Nat × Nat) := [(65, 90), (97, 122)]

theorem inRanges_of_isAlpha {c : Char} (h : c.isAlpha = true) : inRanges asciiLetterRanges c = true := by
  rw [inRanges_iff]
  rcases (Bool.or_eq_true _ _).mp h with hupper | hlower
  · have hbounds : 'A'.val ≤ c.val ∧ c.val ≤ 'Z'.val := of_decide_eq_true hupper
    exact ⟨(65, 90), by decide, hbounds⟩
  · obtain ⟨hlow, hhigh⟩ := (Bool.and_eq_true _ _).mp hlower
    exact ⟨(97, 122), by decide, of_decide_eq_true hlow, of_decide_eq_true hhigh⟩

/-- The ASCII digits. -/
def asciiDigitRanges : List (Nat × Nat) := [(48, 57)]

theorem inRanges_of_isAsciiDigit {c : Char} (h : c.isDigit = true) :
    inRanges asciiDigitRanges c = true := by
  obtain ⟨hlow, hhigh⟩ := (Bool.and_eq_true _ _).mp h
  exact inRanges_iff.mpr ⟨(48, 57), by decide, of_decide_eq_true hlow, of_decide_eq_true hhigh⟩

/-- The ASCII letters and digits. -/
def asciiRanges : List (Nat × Nat) := [(48, 57), (65, 90), (97, 122)]

theorem inRanges_of_isAlphanum {c : Char} (h : c.isAlphanum = true) :
    inRanges asciiRanges c = true := by
  rcases (Bool.or_eq_true _ _).mp h with halpha | hdigit
  · exact inRanges_of_isWithin (by decide) (inRanges_of_isAlpha halpha)
  · exact inRanges_of_isWithin (by decide) (inRanges_of_isAsciiDigit hdigit)

/-- No digit is a letter. -/
theorem not_isLetter_of_isDigit {c : Char} (h : isDigit c = true) : isLetter c = false := by
  have hdigit : inRanges digitRanges c = true := by
    rw [isDigit, Bool.or_eq_true] at h
    exact h.elim (fun hascii => inRanges_of_isWithin (by decide) (inRanges_of_isAsciiDigit hascii)) id
  rw [isLetter, not_inRanges_of_isApart (b := letterRanges) (by decide +kernel) hdigit, Bool.or_false,
    ← Bool.not_eq_true]
  intro halpha
  have hout := not_inRanges_of_isApart (b := asciiLetterRanges) (by decide) hdigit
  rw [inRanges_of_isAlpha halpha] at hout
  cases hout

/-- The ASCII marks without the underscore. -/
def markRanges : List (Nat × Nat) := [(33, 47), (58, 64), (91, 94), (96, 96), (123, 126)]

/-- Blanks and marks lie apart from what is alphanumeric, and from each other. -/
theorem isApart_tables : (∀ table ∈ [blankRanges, markRanges], isApart table letterRanges = true ∧
    isApart table numericRanges = true ∧ isApart table asciiRanges = true) ∧
    isApart markRanges blankRanges = true := by
  decide +kernel

theorem not_isAlphanumeric_of_mem {table : List (Nat × Nat)} (htable : table ∈ [blankRanges, markRanges])
    {c : Char} (h : inRanges table c = true) : isAlphanumeric c = false := by
  obtain ⟨hletter, hnumeric, hascii⟩ := isApart_tables.1 table htable
  have hnot : c.isAlphanum = false := by
    rw [← Bool.not_eq_true]
    intro halnum
    have hc := not_inRanges_of_isApart hascii h
    rw [inRanges_of_isAlphanum halnum] at hc
    cases hc
  rw [isAlphanumeric, not_inRanges_of_isApart hletter h, not_inRanges_of_isApart hnumeric h, hnot]
  rfl

/-- A blank character is not alphanumeric. -/
theorem not_isAlphanumeric_of_isBlank {c : Char} (h : isBlank c = true) : isAlphanumeric c = false :=
  not_isAlphanumeric_of_mem List.mem_cons_self h

theorem not_isAlphanumeric_of_mark {c : Char} (h : inRanges markRanges c = true) :
    isAlphanumeric c = false :=
  not_isAlphanumeric_of_mem (List.mem_cons_of_mem _ (List.mem_singleton_self _)) h

theorem not_isBlank_of_mark {c : Char} (h : inRanges markRanges c = true) : isBlank c = false :=
  not_inRanges_of_isApart isApart_tables.2 h

end ContractSync.Text

/-!
## What capitals keep out

Writing a text in capitals brings no character of a class into it, if the tables say so: no ASCII
character of another class has a capital of this class, no special form holds one, and no run of small
letters is shifted onto one (`keepsOut`). **The check over the tables carries over to all texts**
(`not_inRanges_upper`).
-/

namespace ContractSync.Text

/-- No capital of a character outside the ranges lies in them. -/
def keepsOut (table : List (Nat × Nat)) : Bool :=
  ((List.range 128).all fun n =>
      inRanges table (Char.ofNat n) || !inRanges table (Char.ofNat n).toUpper) &&
    (upperSpecial.all fun e => e.2.all fun n => !inRanges table (Char.ofNat n)) &&
    (upperRuns.all fun (first, last, _, shift) => decide (last < 128) ||
      table.all fun r => decide ((last + shift).toNat < r.1) || decide (r.2 < (first + shift).toNat)) &&
    table.all fun r => decide (0 < r.1)

variable {table : List (Nat × Nat)}

theorem not_inRanges_ofNat {n : Nat} (h : ∀ r ∈ table, 0 < r.1 ∧ (n < r.1 ∨ r.2 < n)) :
    inRanges table (Char.ofNat n) = false := by
  rw [← Bool.not_eq_true, inRanges_iff]
  rintro ⟨r, hr, hlow, hhigh⟩
  obtain ⟨hpos, hout⟩ := h r hr
  have hcode : (Char.ofNat n).toNat = n ∨ (Char.ofNat n).toNat = 0 := by
    by_cases hvalid : n.isValidChar
    · exact .inl ((congrArg Char.toNat (dif_pos hvalid)).trans (UInt32.toNat_ofNatLT ..))
    · exact .inr (congrArg Char.toNat (dif_neg hvalid))
  omega

theorem not_inRanges_upperChar (hkeeps : keepsOut table = true) {c : Char}
    (hc : inRanges table c = false) : ∀ d ∈ upperChar c, inRanges table d = false := by
  simp only [keepsOut, Bool.and_eq_true, List.all_eq_true, Bool.or_eq_true, decide_eq_true_eq,
    Bool.not_eq_true'] at hkeeps
  obtain ⟨⟨⟨hascii, hspecial⟩, hruns⟩, hpos⟩ := hkeeps
  rw [upperChar]
  split
  · rename_i hlt
    have hkept := hascii c.toNat (List.mem_range.mpr hlt)
    rw [Char.ofNat_toNat, hc] at hkept
    exact List.forall_mem_singleton.mpr (hkept.resolve_left Bool.false_ne_true)
  · rename_i hlt
    split
    · rename_i code written hfind
      rw [List.forall_mem_map]
      exact fun n hn => hspecial _ (List.mem_of_find?_eq_some hfind) n hn
    · rw [List.forall_mem_singleton, shiftOf?]
      cases hfind : upperRuns.find? _ with
      | none => exact hc
      | some run =>
        obtain ⟨first, last, step, shift⟩ := run
        have hin := List.find?_some hfind
        simp only [Bool.and_eq_true, decide_eq_true_eq] at hin
        rw [Option.map_some, Option.getD_some]
        refine not_inRanges_ofNat fun r hr => ⟨hpos r hr, ?_⟩
        rcases hruns _ (List.mem_of_find?_eq_some hfind) with hlast | happart
        · have hlast : last < 128 := hlast
          omega
        · have hr : (last + shift).toNat < r.1 ∨ r.2 < (first + shift).toNat := happart r hr
          omega

/-- **A text that has none of the characters has none in capitals.** -/
theorem not_inRanges_upper (hkeeps : keepsOut table = true) {cs : List Char}
    (h : ∀ c ∈ cs, inRanges table c = false) : ∀ d ∈ upper cs, inRanges table d = false := by
  intro d hd
  obtain ⟨c, hc, hd⟩ := List.mem_flatMap.mp hd
  exact not_inRanges_upperChar hkeeps (h c hc) d hd

theorem keepsOut_tables :
    ∀ table ∈ [lineBoundaryRanges, [(34, 34), (92, 92)], [(104, 104)]], keepsOut table = true := by
  decide

/-- A line stays a line. -/
theorem not_isLineBoundary_upper {cs : List Char} (h : ∀ c ∈ cs, isLineBoundary c = false) :
    ∀ c ∈ upper cs, isLineBoundary c = false :=
  not_inRanges_upper (keepsOut_tables _ (by simp)) h

/-- No quote and no backslash comes in. -/
theorem ne_quote_upper {cs : List Char} (h : ∀ c ∈ cs, c ≠ '"' ∧ c ≠ '\\') :
    ∀ c ∈ upper cs, c ≠ '"' ∧ c ≠ '\\' := by
  have hiff : ∀ c : Char, inRanges [(34, 34), (92, 92)] c = false ↔ c ≠ '"' ∧ c ≠ '\\' := by
    intro c
    have hquote : c = '"' ↔ c.toNat = 34 := ⟨fun h => h ▸ rfl, fun h => Char.toNat_inj.mp h⟩
    have hslash : c = '\\' ↔ c.toNat = 92 := ⟨fun h => h ▸ rfl, fun h => Char.toNat_inj.mp h⟩
    rw [← Bool.not_eq_true, inRanges_iff, ne_eq, ne_eq, hquote, hslash]
    simp
    omega
  exact fun c hc => (hiff c).mp
    (not_inRanges_upper (keepsOut_tables _ (by simp)) (fun d hd => (hiff d).mpr (h d hd)) c hc)

/-- A small letter that has a capital is not left. -/
theorem h_notMem_upper (cs : List Char) : 'h' ∉ upper cs := by
  have hiff : ∀ c : Char, inRanges [(104, 104)] c = false ↔ c ≠ 'h' := by
    intro c
    have hh : c = 'h' ↔ c.toNat = 104 := ⟨fun h => h ▸ rfl, fun h => Char.toNat_inj.mp h⟩
    rw [← Bool.not_eq_true, inRanges_iff, ne_eq, hh]
    simp
    omega
  intro h
  obtain ⟨c, -, hc⟩ := List.mem_flatMap.mp h
  by_cases hsmall : c = 'h'
  · rw [hsmall] at hc
    revert hc
    decide
  · exact (hiff 'h').mp (not_inRanges_upperChar (keepsOut_tables _ (by simp)) ((hiff c).mpr hsmall) 'h' hc) rfl

end ContractSync.Text
