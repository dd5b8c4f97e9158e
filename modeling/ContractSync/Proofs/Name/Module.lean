import ContractSync.Proofs.Name.Bare
import ContractSync.Proofs.Name.Words

/-!
# Names of modules

The words of a name in `snake_case` are found again in what it is written as (`runs_joined`), also with an
underscore behind it. So the conversion changes nothing a second time: **what it gives are the texts of small
words with single underscores between them, and it leaves those as they are** (`snake_eq_self_iff`,
`exists_snake_eq_iff`). A word in front of a digit makes such a text a small name (`isSmallName_of_words`),
and **the name of a module stays when it is taken for a tag** (`moduleName_moduleName`).
-/

namespace ContractSync.Name

/-! ### Words in small letters -/

/-- A word of small letters and digits. -/
structure IsSmall (word : List Char) : Prop where
  nonempty : word ≠ []
  chars : ∀ c ∈ word, (c.isLower || c.isDigit) = true

/-- Words joined by underscores. -/
def joined (words : List (List Char)) : List Char := ['_'].intercalate words

variable {words : List (List Char)} {word : List Char}

theorem small_toLower {c : Char} (h : c.isAlphanum = true) : (c.toLower.isLower || c.toLower.isDigit) = true := by
  have htable : ∀ n < 123, (Char.ofNat n).isAlphanum = true →
      ((Char.ofNat n).toLower.isLower || (Char.ofNat n).toLower.isDigit) = true := by decide
  exact of_isAlphanum htable h

theorem alphanum_of_small {c : Char} (h : (c.isLower || c.isDigit) = true) :
    c.isAlphanum = true ∧ c.isUpper = false ∧ c.toLower = c := by
  have halphanum : c.isAlphanum = true :=
    Bool.or_eq_true_iff.mpr ((Bool.or_eq_true_iff.mp h).imp_left fun hlower =>
      Bool.or_eq_true_iff.mpr (.inr hlower))
  have htable : ∀ n < 123, (Char.ofNat n).isAlphanum = true →
      ((Char.ofNat n).isLower || (Char.ofNat n).isDigit) = true →
        (Char.ofNat n).isUpper = false ∧ (Char.ofNat n).toLower = Char.ofNat n := by decide
  exact ⟨halphanum, of_isAlphanum htable halphanum h⟩

theorem breakCamel_of_not_isUpper {cs : List Char} (h : ∀ c ∈ cs, c.isUpper = false) : breakCamel cs = cs := by
  fun_induction breakCamel cs with
  | case1 c d rest hbreak =>
    rw [h d (List.mem_cons_of_mem c List.mem_cons_self), Bool.and_false] at hbreak
    cases hbreak
  | case2 c d rest hbreak ih => rw [ih fun e he => h e (List.mem_cons_of_mem c he)]
  | case3 => rfl

theorem breakAcronym_of_not_isUpper {cs : List Char} (h : ∀ c ∈ cs, c.isUpper = false) :
    breakAcronym cs = cs := by
  fun_induction breakAcronym cs with
  | case1 c d e rest hbreak =>
    rw [h c List.mem_cons_self] at hbreak
    cases hbreak
  | case2 c d e rest hbreak ih => rw [ih fun e he => h e (List.mem_cons_of_mem c he)]
  | case3 => rfl

/-! ### Words that are found again -/

theorem runs_underscore (rest : List Char) : runs ('_' :: rest) = runs rest := by
  cases rest with
  | nil => rfl
  | cons c rest => rfl

theorem runs_append (hne : word ≠ []) (h : ∀ c ∈ word, c.isAlphanum = true) (rest : List Char) :
    runs (word ++ '_' :: rest) = word :: runs rest := by
  induction word with
  | nil => exact absurd rfl hne
  | cons c word ih =>
    obtain ⟨hc, hword⟩ := List.forall_mem_cons.mp h
    cases word with
    | nil =>
      rw [List.singleton_append, runs, if_pos hc, if_neg (by decide), runs_underscore]
    | cons d word =>
      have hd := hword d List.mem_cons_self
      have hrest := ih (List.cons_ne_nil d word) hword
      rw [List.cons_append] at hrest
      rw [List.cons_append, List.cons_append, runs, if_pos hc, if_pos hd, hrest]
      rfl

theorem runs_word (hne : word ≠ []) (h : ∀ c ∈ word, c.isAlphanum = true) : runs word = [word] := by
  induction word with
  | nil => exact absurd rfl hne
  | cons c word ih =>
    obtain ⟨hc, hword⟩ := List.forall_mem_cons.mp h
    cases word with
    | nil => exact if_pos hc
    | cons d word =>
      rw [runs, if_pos hc, if_pos (hword d List.mem_cons_self), ih (List.cons_ne_nil d word) hword]
      rfl

/-- **The words of a name are found again.** -/
theorem runs_joined (h : ∀ word ∈ words, IsSmall word) {tail : List Char} (htail : tail = [] ∨ tail = ['_']) :
    runs (joined words ++ tail) = words := by
  induction words with
  | nil => obtain rfl | rfl := htail <;> rfl
  | cons word words ih =>
    obtain ⟨hword, hwords⟩ := List.forall_mem_cons.mp h
    have hchars : ∀ c ∈ word, c.isAlphanum = true := fun c hc => (alphanum_of_small (hword.chars c hc)).1
    cases words with
    | nil =>
      rw [joined, List.intercalate_singleton]
      obtain rfl | rfl := htail
      · rw [List.append_nil, runs_word hword.nonempty hchars]
      · rw [runs_append hword.nonempty hchars]
        rfl
    | cons next words =>
      rw [joined, List.intercalate_cons_cons, List.append_assoc, List.append_assoc, List.singleton_append,
        runs_append hword.nonempty hchars]
      exact congrArg (word :: ·) (ih hwords)

theorem not_isUpper_of_joined (h : ∀ word ∈ words, IsSmall word) {tail : List Char}
    (htail : tail = [] ∨ tail = ['_']) : ∀ c ∈ joined words ++ tail, c.isUpper = false := by
  refine List.forall_mem_append.mpr ⟨?_, by obtain rfl | rfl := htail <;> decide⟩
  induction words with
  | nil => exact List.forall_mem_nil _
  | cons word words ih =>
    obtain ⟨hword, hwords⟩ := List.forall_mem_cons.mp h
    have hchars : ∀ c ∈ word, c.isUpper = false := fun c hc => (alphanum_of_small (hword.chars c hc)).2.1
    cases words with
    | nil =>
      rw [joined, List.intercalate_singleton]
      exact hchars
    | cons next words =>
      rw [joined, List.intercalate_cons_cons]
      exact List.forall_mem_append.mpr ⟨List.forall_mem_append.mpr ⟨hchars, by decide⟩, ih hwords⟩

/-- A name in `snake_case` stays as it is, and loses an underscore behind it. -/
theorem snakeChars_joined (h : ∀ word ∈ words, IsSmall word) {tail : List Char}
    (htail : tail = [] ∨ tail = ['_']) : snakeChars (joined words ++ tail) = joined words := by
  have hupper := not_isUpper_of_joined h htail
  have hword : ∀ word ∈ words, word.map Char.toLower = word := fun word hword =>
    (List.map_congr_left fun c hc => (alphanum_of_small ((h word hword).chars c hc)).2.2).trans (List.map_id _)
  have hlower : words.map (·.map Char.toLower) = words := (List.map_congr_left hword).trans (List.map_id _)
  rw [snakeChars, breakCamel_of_not_isUpper hupper, breakAcronym_of_not_isUpper hupper, runs_joined h htail,
    hlower]
  rfl

/-! ### Names in small letters -/

/-- `snake_case`: small words with single underscores between them, or nothing at all. -/
def IsSnake (name : String) : Prop := ∃ words, (∀ word ∈ words, IsSmall word) ∧ name.toList = joined words

theorem isSnake_snake (name : String) : IsSnake (snake name) := by
  refine ⟨_, List.forall_mem_map.mpr fun word hword => ⟨?_, ?_⟩, String.toList_ofList⟩
  · exact fun hnil => ne_nil_of_mem_runs _ word hword (List.map_eq_nil_iff.mp hnil)
  · exact List.forall_mem_map.mpr fun c hc => small_toLower (alphanum_of_mem_runs _ word hword c hc)

/-- **What is in `snake_case` stays as it is**, and nothing else does. -/
theorem snake_eq_self_iff {name : String} : snake name = name ↔ IsSnake name := by
  constructor
  · intro h
    exact h ▸ isSnake_snake name
  · rintro ⟨words, hwords, hname⟩
    have hstays : snakeChars (joined words ++ []) = joined words := snakeChars_joined hwords (.inl rfl)
    rw [List.append_nil] at hstays
    rw [snake, hname, hstays, ← hname, String.ofList_toList]

/-- The conversion gives what is in `snake_case`. -/
theorem exists_snake_eq_iff {name : String} : (∃ other, snake other = name) ↔ IsSnake name := by
  constructor
  · rintro ⟨other, rfl⟩
    exact isSnake_snake other
  · exact fun h => ⟨name, snake_eq_self_iff.mpr h⟩

/-- A small letter, then small letters, digits and underscores. -/
structure IsSmallName (name : String) : Prop where
  first : ∃ c, name.toList.head? = some c ∧ c.isLower = true
  chars : ∀ c ∈ name.toList, (c.isLower || c.isDigit || c == '_') = true

theorem head?_joined (hword : word ≠ []) (words : List (List Char)) :
    (joined (word :: words)).head? = word.head? := by
  cases words with
  | nil => rw [joined, List.intercalate_singleton]
  | cons next words =>
    rw [joined, List.intercalate_cons_cons, List.append_assoc, List.head?_append_of_ne_nil _ hword]

theorem chars_joined (h : ∀ word ∈ words, IsSmall word) :
    ∀ c ∈ joined words, (c.isLower || c.isDigit || c == '_') = true := by
  refine Text.forall_mem_intercalate (by decide) fun word hword c hc => ?_
  rw [(h word hword).chars c hc, Bool.true_or]

/-- Small words that no digit begins are a small name. -/
theorem isSmallName_of_words {name : String} (hwords : ∀ word ∈ words, IsSmall word) (hne : words ≠ [])
    (hname : name.toList = joined words) (hdigit : startsWithDigit name = false) : IsSmallName name := by
  refine ⟨?_, hname ▸ chars_joined hwords⟩
  obtain ⟨word, rest, rfl⟩ := List.exists_cons_of_ne_nil hne
  have hword := hwords word List.mem_cons_self
  obtain ⟨c, cs, rfl⟩ := List.exists_cons_of_ne_nil hword.nonempty
  have hhead : name.toList.head? = some c := by rw [hname, head?_joined hword.nonempty, List.head?_cons]
  refine ⟨c, hhead, (Bool.or_eq_true_iff.mp (hword.chars c List.mem_cons_self)).resolve_right fun hc => ?_⟩
  obtain ⟨more, hmore⟩ := List.head?_eq_some_iff.mp hhead
  have hfirst : Text.isDigit c = false := by
    rwa [startsWithDigit, hmore] at hdigit
  rw [Text.isDigit_of_ascii hc] at hfirst
  cases hfirst

theorem IsSmallName.isWord {name : String} (h : IsSmallName name) : IsWord name := by
  obtain ⟨c, hhead, -⟩ := h.first
  refine ⟨List.ne_nil_of_mem (List.mem_of_head? hhead), fun d hd => ?_⟩
  have hd := h.chars d hd
  rw [Bool.or_eq_true_iff] at hd
  exact Bool.or_eq_true_iff.mpr (hd.imp_left fun hsmall => (alphanum_of_small hsmall).1)

/-- A small name with an underscore behind it is a small name. -/
theorem IsSmallName.underscore {name : String} (h : IsSmallName name) : IsSmallName (name ++ "_") := by
  obtain ⟨c, hhead, hc⟩ := h.first
  obtain ⟨more, hmore⟩ := List.head?_eq_some_iff.mp hhead
  refine ⟨⟨c, by rw [String.toList_append, hmore]; rfl, hc⟩, ?_⟩
  rw [String.toList_append]
  exact List.forall_mem_append.mpr ⟨h.chars, by decide⟩

/-! ### Modules -/

/-- What a name is before reserved words are repaired: small words, where the repairs of an empty name and of a
digit in front are small words too. -/
theorem exists_guarded (lead fallback : String) (hword : IsSmall word) (hlead : lead.toList = word ++ ['_'])
    (hfallback : IsSmall fallback.toList) (name : String) : ∃ words, (∀ word ∈ words, IsSmall word) ∧ words ≠ [] ∧
      (guardDigit lead (slug name fallback)).toList = joined words := by
  have hslug : ∃ words, (∀ word ∈ words, IsSmall word) ∧ words ≠ [] ∧
      (slug name fallback).toList = joined words := by
    unfold slug
    dsimp only
    split
    · exact ⟨[fallback.toList], List.forall_mem_singleton.mpr hfallback, List.cons_ne_nil _ _,
        (List.intercalate_singleton).symm⟩
    · rename_i hne
      obtain ⟨words, hwords, hsnake⟩ := isSnake_snake name
      refine ⟨words, hwords, fun hnil => hne ?_, hsnake⟩
      rw [String.isEmpty_iff, ← String.toList_eq_nil_iff, hsnake, hnil]
      rfl
  obtain ⟨words, hwords, hne, hname⟩ := hslug
  unfold guardDigit
  split
  · refine ⟨word :: words, List.forall_mem_cons.mpr ⟨hword, hwords⟩, List.cons_ne_nil _ _, ?_⟩
    obtain ⟨next, rest, rfl⟩ := List.exists_cons_of_ne_nil hne
    rw [String.toList_append, hname, hlead, joined, joined, List.intercalate_cons_cons]
  · exact ⟨words, hwords, hne, hname⟩

/-- What the name of a module is before reserved words are repaired. -/
theorem exists_base (tag : String) : ∃ words, (∀ word ∈ words, IsSmall word) ∧ words ≠ [] ∧
    (guardDigit "m_" (slug tag "default")).toList = joined words := by
  have hlead : IsSmall ['m'] := ⟨by decide, by decide⟩
  exact exists_guarded "m_" "default" hlead (by decide) ⟨by decide, by decide⟩ tag

theorem startsWithDigit_guardDigit (lead : String) (hlead : lead.toList ≠ [])
    (hdigit : startsWithDigit lead = false) (name : String) : startsWithDigit (guardDigit lead name) = false := by
  unfold guardDigit
  split
  · exact (startsWithDigit_append hlead name).trans hdigit
  · exact Bool.not_eq_true _ ▸ ‹_›

theorem moduleName_of_base {base : String} (hwords : ∀ word ∈ words, IsSmall word) (hne : words ≠ [])
    (hbase : base.toList = joined words) (hdigit : startsWithDigit base = false) (tail : String)
    (htail : tail.toList = [] ∨ tail.toList = ['_']) : moduleName (base ++ tail) = guardKeyword base := by
  have hsnake : snake (base ++ tail) = base := by
    rw [snake, String.toList_append, hbase, snakeChars_joined hwords htail, ← hbase, String.ofList_toList]
  have hsome : base.isEmpty = false := by
    rw [← Bool.not_eq_true, String.isEmpty_iff, ← String.toList_eq_nil_iff, hbase]
    obtain ⟨word, rest, rfl⟩ := List.exists_cons_of_ne_nil hne
    have hword := (hwords word List.mem_cons_self).nonempty
    cases rest with
    | nil => rwa [joined, List.intercalate_singleton]
    | cons next rest =>
      rw [joined, List.intercalate_cons_cons, List.append_assoc]
      exact List.append_ne_nil_of_left_ne_nil hword _
  have hslug : slug (base ++ tail) "default" = base := by
    unfold slug
    dsimp only
    rw [hsnake, hsome, if_neg Bool.false_ne_true]
  rw [moduleName, hslug, guardDigit, hdigit, if_neg Bool.false_ne_true]

/-- **The name of a module stays when it is taken for a tag.** -/
theorem moduleName_moduleName (tag : String) : moduleName (moduleName tag) = moduleName tag := by
  obtain ⟨words, hwords, hne, hbase⟩ := exists_base tag
  have hdigit := startsWithDigit_guardDigit "m_" (by decide) (by decide) (slug tag "default")
  change moduleName (guardKeyword _) = guardKeyword _
  generalize guardDigit "m_" (slug tag "default") = base at hbase hdigit ⊢
  have hplain := moduleName_of_base hwords hne hbase hdigit "" (.inl (by decide))
  have hmarked := moduleName_of_base hwords hne hbase hdigit "_" (.inr (by decide))
  rw [String.append_empty] at hplain
  by_cases hkeyword : isKeyword base = true
  · rw [guardKeyword, if_pos hkeyword, hmarked, guardKeyword, if_pos hkeyword]
  · rw [guardKeyword, if_neg hkeyword, hplain, guardKeyword, if_neg hkeyword]

/-- A module is named by a small name. -/
theorem isSmallName_moduleName (tag : String) : IsSmallName (moduleName tag) := by
  obtain ⟨words, hwords, hne, hbase⟩ := exists_base tag
  have hsmall := isSmallName_of_words hwords hne hbase
    (startsWithDigit_guardDigit "m_" (by decide) (by decide) (slug tag "default"))
  unfold moduleName guardKeyword
  split
  · exact hsmall.underscore
  · exact hsmall

/-- The name of a module is bare. -/
theorem isBare_moduleName (tag : String) : IsBare (moduleName tag) := by
  obtain ⟨words, hwords, hne, hbase⟩ := exists_base tag
  have hdigit := startsWithDigit_guardDigit "m_" (by decide) (by decide) (slug tag "default")
  exact isBare_guardKeyword (isSmallName_of_words hwords hne hbase hdigit).isWord hdigit

/-- No module is named by a reserved word. -/
theorem moduleName_ne_keyword (tag : String) : isKeyword (moduleName tag) = false :=
  (isBare_moduleName tag).unreserved

end ContractSync.Name
