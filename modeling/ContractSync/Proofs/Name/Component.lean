import ContractSync.Proofs.Name.Bare
import ContractSync.Proofs.Name.Words

/-!
# The type names of components

A component keeps its name as that of its type if it is an ASCII identifier that starts with a capital;
other names are converted. Conversion forgets separators and capitals, so that different names may become
one. **Two names become one exactly if one of them is converted into what the other one is called**
(`typeName_eq_iff`), and then they have the same letters and digits (`Merges.letters`). **The type name is a
bare identifier unless its first letter or digit is a digit or it is the word `Self`**
(`isBare_typeName_iff`).
-/

namespace ContractSync.Name

/-! ### Names that become one -/

/-- The name of the component is kept for its type. -/
def IsKept (component : String) : Prop := isTypeIdentifier component.toList = true

instance : DecidablePred IsKept := fun _ => inferInstanceAs (Decidable (_ = true))

/-- What a name becomes that is not kept: its words as one, or what stands for no words. -/
def converted (component : String) : String :=
  if (pascal component).isEmpty then "Unknown" else pascal component

theorem typeName_of_kept {component : String} (h : IsKept component) : typeName component = component :=
  if_pos h

theorem typeName_of_not_kept {component : String} (h : ¬ IsKept component) :
    typeName component = converted component := if_neg h

/-- Different names that become one: one of them is converted into what the other one is called. -/
inductive Merges (a b : String) : Prop where
  | both (ha : ¬ IsKept a) (hb : ¬ IsKept b) (h : converted a = converted b)
  | intoFirst (ha : IsKept a) (hb : ¬ IsKept b) (h : a = converted b)
  | intoSecond (ha : ¬ IsKept a) (hb : IsKept b) (h : converted a = b)

/-- **Two names become one exactly if one of them is converted into what the other one is called.** -/
theorem typeName_eq_iff {a b : String} (hne : a ≠ b) : typeName a = typeName b ↔ Merges a b := by
  constructor
  · intro h
    by_cases ha : IsKept a <;> by_cases hb : IsKept b
    · rw [typeName_of_kept ha, typeName_of_kept hb] at h
      exact absurd h hne
    · rw [typeName_of_kept ha, typeName_of_not_kept hb] at h
      exact .intoFirst ha hb h
    · rw [typeName_of_not_kept ha, typeName_of_kept hb] at h
      exact .intoSecond ha hb h
    · rw [typeName_of_not_kept ha, typeName_of_not_kept hb] at h
      exact .both ha hb h
  · intro h
    cases h with
    | both ha hb h => rw [typeName_of_not_kept ha, typeName_of_not_kept hb, h]
    | intoFirst ha hb h => rw [typeName_of_kept ha, typeName_of_not_kept hb, ← h]
    | intoSecond ha hb h => rw [typeName_of_not_kept ha, typeName_of_kept hb, h]

/-- The letters and digits of a name, capitals aside; those of the stand-in if it has none. -/
def letters (component : String) : List Char :=
  if hasAlphanum component then (alphanums component.toList).map Char.toLower else "unknown".toList

theorem letters_unknown : letters "Unknown" = "unknown".toList := by decide

theorem alphanums_eq_self {cs : List Char} (h : ∀ c ∈ cs, c.isAlphanum = true) : alphanums cs = cs :=
  List.filter_eq_self.mpr h

/-- Conversion keeps letters and digits. -/
theorem letters_converted (component : String) : letters (converted component) = letters component := by
  unfold converted
  split
  · rename_i hempty
    rw [letters_unknown, letters, pascal_isEmpty_iff.mp hempty]
    rfl
  · rename_i hne
    have hsome : hasAlphanum component = true := by
      rw [← Bool.not_eq_false, ← pascal_isEmpty_iff]
      exact hne
    have hchars : alphanums (pascal component).toList = (pascal component).toList :=
      alphanums_eq_self fun c => alphanum_of_mem_pascal c
    have hpascal : hasAlphanum (pascal component) = true := by
      rw [hasAlphanum, ← Bool.not_eq_false, ← alphanums_eq_nil_iff, hchars, String.toList_eq_nil_iff,
        ← String.isEmpty_iff]
      exact hne
    rw [letters, letters, if_pos hsome, if_pos hpascal, hchars, lowered_pascal]

/-- Names that become one have the same letters and digits. -/
theorem Merges.letters {a b : String} (h : Merges a b) : letters a = letters b := by
  cases h with
  | both _ _ h => rw [← letters_converted a, h, letters_converted]
  | intoFirst _ _ h => rw [h, letters_converted]
  | intoSecond _ _ h => rw [← h, letters_converted]

theorem alphanum_of_mem_converted {component : String} : ∀ c ∈ (converted component).toList, c.isAlphanum = true := by
  unfold converted
  split
  · decide
  · exact fun c hc => alphanum_of_mem_pascal c hc

theorem converted_ne_nil (component : String) : (converted component).toList ≠ [] := by
  unfold converted
  split
  · decide
  · rename_i hne
    rwa [ne_eq, String.toList_eq_nil_iff, ← String.isEmpty_iff]

/-- A number behind a type name makes no name of a component that has this type name. -/
theorem suffixed_typeName_ne (component : String) (n : Nat) : suffixed (typeName component) n ≠ component := by
  intro h
  by_cases hkept : IsKept component
  · rw [typeName_of_kept hkept] at h
    have hlength := congrArg (fun s => s.toList.length) h
    simp only [suffixed_toList, List.length_append, List.length_cons] at hlength
    omega
  · rw [typeName_of_not_kept hkept] at h
    -- The digits would be letters and digits that conversion adds.
    have hchars : alphanums component.toList = (converted component).toList ++ (toString n).toList := by
      have hdigits : ∀ c ∈ (toString n).toList, c.isAlphanum = true := by
        intro c hc
        rw [Nat.toString_eq_repr, Nat.toList_repr] at hc
        rw [Char.isAlphanum, Nat.isDigit_of_mem_toDigits (by decide) (by decide) hc, Bool.or_true]
      have hwritten : component.toList = (converted component).toList ++ '_' :: (toString n).toList := by
        rw [← suffixed_toList, h]
      rw [hwritten, alphanums, List.filter_append, ← alphanums, ← alphanums, alphanums_underscore,
        alphanums_eq_self alphanum_of_mem_converted, alphanums_eq_self hdigits]
    have hletters := congrArg List.length (letters_converted component)
    have hsome : hasAlphanum component = true := by
      rw [hasAlphanum, ← Bool.not_eq_false, ← alphanums_eq_nil_iff, hchars]
      simp [converted_ne_nil component]
    have hconverted : hasAlphanum (converted component) = true := by
      rw [hasAlphanum, ← Bool.not_eq_false, ← alphanums_eq_nil_iff, alphanums_eq_self alphanum_of_mem_converted]
      exact converted_ne_nil component
    rw [letters, letters, if_pos hsome, if_pos hconverted, List.length_map, List.length_map, hchars,
      alphanums_eq_self alphanum_of_mem_converted, List.length_append] at hletters
    have hdigit : (toString n).toList ≠ [] := by
      rw [Nat.toString_eq_repr, Nat.toList_repr]
      exact Nat.toDigits_ne_nil
    exact hdigit (List.length_eq_zero_iff.mp (by omega))

/-- **A numbered type name is the component's name** only if the number is the first one and the name stays as it
is. -/
theorem numbered_typeName_eq_iff {component : String} {n : Nat} :
    numbered (typeName component) n = component ↔ n = 1 ∧ typeName component = component := by
  unfold numbered
  split
  · rename_i hone
    exact (and_iff_right hone).symm
  · rename_i hne
    exact iff_of_false (suffixed_typeName_ne component n) fun h => hne h.1

/-! ### Names that are legal -/

/-- The first letter or digit of the name is a digit. -/
def digitFirst (component : String) : Bool := (alphanums component.toList).head?.any Char.isDigit

theorem capital_of_isUpper {c : Char} (h : c.isUpper = true) :
    c.isAlphanum = true ∧ c.isLower = false ∧ c.isDigit = false ∧ Text.isDigit c = false := by
  have halphanum : c.isAlphanum = true :=
    Bool.or_eq_true_iff.mpr (.inl (Bool.or_eq_true_iff.mpr (.inl h)))
  have htable : ∀ n < 123, (Char.ofNat n).isAlphanum = true → (Char.ofNat n).isUpper = true →
      (Char.ofNat n).isLower = false ∧ (Char.ofNat n).isDigit = false ∧
        Text.isDigit (Char.ofNat n) = false := by decide
  exact ⟨halphanum, of_isAlphanum htable halphanum h⟩

theorem capital_of_isAlphanum {c : Char} (h : c.isAlphanum = true) :
    c.toUpper.isLower = false ∧ Text.isDigit c.toUpper = c.isDigit := by
  have htable : ∀ n < 123, (Char.ofNat n).isAlphanum = true → (Char.ofNat n).toUpper.isLower = false ∧
      Text.isDigit (Char.ofNat n).toUpper = (Char.ofNat n).isDigit := by decide
  exact of_isAlphanum htable h

/-- A type name begins with a capital, or with a digit if the name of the component does so. -/
theorem head_typeName (component : String) : ∃ c rest, (typeName component).toList = c :: rest ∧
    c.isLower = false ∧ Text.isDigit c = digitFirst component := by
  by_cases hkept : IsKept component
  · rw [typeName_of_kept hkept, digitFirst]
    rw [IsKept] at hkept
    cases hcs : component.toList with
    | nil => rw [hcs] at hkept; cases hkept
    | cons c rest =>
      rw [hcs, isTypeIdentifier, Bool.and_eq_true] at hkept
      obtain ⟨halphanum, hlower, hascii, hdigit⟩ := capital_of_isUpper hkept.1
      refine ⟨c, rest, rfl, hlower, ?_⟩
      rw [alphanums_cons, if_pos halphanum, List.head?_cons, Option.any_some, hascii, hdigit]
  · rw [typeName_of_not_kept hkept, converted, digitFirst]
    split
    · rename_i hempty
      rw [pascal_isEmpty_iff, hasAlphanum, ← alphanums_eq_nil_iff] at hempty
      rw [hempty]
      exact ⟨'U', "nknown".toList, by decide, by decide, by decide⟩
    · rename_i hne
      rw [pascal_isEmpty_iff, hasAlphanum, ← alphanums_eq_nil_iff] at hne
      obtain ⟨c, cs, hcs⟩ := List.exists_cons_of_ne_nil hne
      have hc : c.isAlphanum = true := (List.mem_filter.mp (hcs ▸ List.mem_cons_self)).2
      have hhead := head?_pascal component
      rw [hcs, List.head?_cons, Option.map_some] at hhead
      obtain ⟨rest, hrest⟩ := List.head?_eq_some_iff.mp hhead
      obtain ⟨hlower, hdigit⟩ := capital_of_isAlphanum hc
      exact ⟨c.toUpper, rest, hrest, hlower, by rw [hcs, hdigit]; rfl⟩

/-- Of the reserved words only `Self` begins with no small letter. -/
theorem eq_self_of_isKeyword {name : String} (h : isKeyword name = true) {c : Char} {rest : List Char}
    (hname : name.toList = c :: rest) (hc : c.isLower = false) : name = "Self" := by
  have hwords : ∀ word ∈ keywords, word.toList.head?.any Char.isLower = true ∨ word = "Self" := by
    decide
  refine (hwords name (List.contains_iff_mem.mp h)).resolve_left ?_
  rw [hname, List.head?_cons, Option.any_some, hc]
  exact Bool.false_ne_true

/-- **The type name of a component is a bare identifier** unless its first letter or digit is a digit or the
type name is the word `Self`. -/
theorem isBare_typeName_iff {component : String} :
    IsBare (typeName component) ↔ digitFirst component = false ∧ typeName component ≠ "Self" := by
  obtain ⟨c, rest, hname, hlower, hdigit⟩ := head_typeName component
  have hstarts : startsWithDigit (typeName component) = digitFirst component := by
    rw [startsWithDigit, hname]
    exact hdigit
  rw [isBare_iff, hstarts]
  constructor
  · rintro ⟨-, hfirst, hkeyword⟩
    refine ⟨hfirst, fun hself => ?_⟩
    rw [hself] at hkeyword
    exact absurd hkeyword (by decide)
  · rintro ⟨hfirst, hself⟩
    exact ⟨isWord_typeName component, hfirst,
      Bool.not_eq_true _ ▸ fun hkeyword => hself (eq_self_of_isKeyword hkeyword hname hlower)⟩

end ContractSync.Name
