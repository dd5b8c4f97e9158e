import ContractSync.Text.Basic

/-!
# Keys in longer texts

A character that is no word character and does not stand in a key cuts a text in two: **the key occurs
bounded in the whole if it does in one of the parts** (`occursBounded_cut`). Of two paths that differ in
their last names only, **one occurs bounded in the other if its last name is the beginning of the other's,
and no word character goes on there** (`occursBounded_path`).
-/

namespace ContractSync.Text

variable {key p a b : List Char} {c : Char}

/-- A part of a text that misses a character lies on one side of it. -/
theorem infix_cut (hc : c ∉ p) (h : p <:+: a ++ c :: b) : p <:+: a ∨ p <:+: b := by
  obtain ⟨x, y, hxy⟩ := h
  rcases List.append_eq_append_iff.mp hxy with ⟨z, rfl, -⟩ | ⟨z, hz, hcb⟩
  · exact .inl ⟨x, z, rfl⟩
  · cases z with
    | nil => exact .inl ⟨x, [], by rwa [List.append_nil] at hz ⊢⟩
    | cons d z =>
      obtain ⟨rfl, rfl⟩ := List.cons.inj hcb
      rcases List.append_eq_append_iff.mp hz with ⟨u, -, rfl⟩ | ⟨u, -, hu⟩
      · exact absurd (List.mem_append_right _ List.mem_cons_self) hc
      · cases u with
        | nil => exact absurd (by rw [List.nil_append] at hu; exact hu ▸ List.mem_cons_self) hc
        | cons d u =>
          obtain ⟨rfl, rfl⟩ := List.cons.inj hu
          exact .inr ⟨u, y, rfl⟩

/-- A word occurs where it stands. -/
theorem occursIn_append (front word more : List Char) : occursIn word (front ++ (word ++ more)) = true := by
  induction front with
  | nil =>
    cases word with
    | nil => cases more <;> rfl
    | cons c word =>
      have hprefix : (c :: word).isPrefixOf (c :: (word ++ more)) = true :=
        List.isPrefixOf_iff_prefix.mpr (List.prefix_append (c :: word) more)
      rw [List.nil_append, List.cons_append, occursIn, hprefix, Bool.true_or]
  | cons c front ih => rw [List.cons_append, occursIn, ih, Bool.or_true]

theorem boundedHere_iff {cs : List Char} :
    boundedHere key cs = true ↔ ∃ more, cs = key ++ more ∧ startsInWord more = false := by
  rw [boundedHere, Bool.and_eq_true, List.isPrefixOf_iff_prefix, Bool.not_eq_true']
  constructor
  · rintro ⟨⟨more, rfl⟩, hmore⟩
    rw [List.drop_left] at hmore
    exact ⟨more, rfl, hmore⟩
  · rintro ⟨more, rfl, hmore⟩
    rw [List.drop_left]
    exact ⟨List.prefix_append _ _, hmore⟩

/-- Where a bounded occurrence is. -/
theorem exists_of_boundedAfter {inWord : Bool} {cs : List Char}
    (h : boundedAfter inWord key cs = true) :
    ∃ front more, cs = front ++ (key ++ more) ∧ startsInWord more = false := by
  induction cs generalizing inWord with
  | nil =>
    rw [boundedAfter, Bool.and_eq_true] at h
    obtain ⟨more, hmore⟩ := boundedHere_iff.mp h.2
    exact ⟨[], more, hmore⟩
  | cons d cs ih =>
    rw [boundedAfter, Bool.or_eq_true, Bool.and_eq_true] at h
    rcases h with h | h
    · obtain ⟨more, hmore⟩ := boundedHere_iff.mp h.2
      exact ⟨[], more, hmore⟩
    · obtain ⟨front, more, rfl, hbound⟩ := ih h
      exact ⟨d :: front, more, rfl, hbound⟩

theorem infix_of_occursBounded {cs : List Char} (h : occursBounded key cs = true) : key <:+: cs := by
  obtain ⟨front, more, rfl, -⟩ := exists_of_boundedAfter h
  exact ⟨front, more, List.append_assoc _ _ _⟩

/-- A key is not found in blanks. -/
theorem not_occursBounded_blanks {w : List Char} (hw : ∀ d ∈ w, isBlank d = true) (hne : key ≠ [])
    (hkey : ∀ d ∈ key, isBlank d = false) : occursBounded key w = false := by
  rw [← Bool.not_eq_true]
  intro h
  obtain ⟨d, rest, rfl⟩ := List.exists_cons_of_ne_nil hne
  have hblank := hw d ((infix_of_occursBounded h).subset List.mem_cons_self)
  rw [hkey d List.mem_cons_self] at hblank
  cases hblank

/-! ### Cutting a text -/

theorem startsInWord_append (hc : isWordChar c = false) :
    startsInWord (a ++ c :: b) = startsInWord a := by
  cases a with
  | nil => exact hc
  | cons => rfl

theorem boundedHere_cut (hc : isWordChar c = false) (hkey : c ∉ key) :
    boundedHere key (a ++ c :: b) = boundedHere key a := by
  rw [Bool.eq_iff_iff, boundedHere_iff, boundedHere_iff]
  constructor
  · rintro ⟨more, hmore, hbound⟩
    rcases List.append_eq_append_iff.mp hmore with ⟨z, rfl, hz⟩ | ⟨z, rfl, rfl⟩
    · cases z with
      | nil => exact ⟨[], by rw [List.append_nil, List.append_nil], rfl⟩
      | cons d z =>
        obtain ⟨rfl, -⟩ := List.cons.inj hz
        exact absurd (List.mem_append_right _ List.mem_cons_self) hkey
    · exact ⟨z, rfl, startsInWord_append hc ▸ hbound⟩
  · rintro ⟨more, rfl, hbound⟩
    exact ⟨more ++ c :: b, List.append_assoc _ _ _, (startsInWord_append hc).trans hbound⟩

theorem boundedAfter_cut (inWord : Bool) (hc : isWordChar c = false) (hkey : c ∉ key) :
    boundedAfter inWord key (a ++ c :: b) = (boundedAfter inWord key a || occursBounded key b) := by
  induction a generalizing inWord with
  | nil =>
    have hhere : boundedHere key (c :: b) = boundedHere key [] := boundedHere_cut (a := []) hc hkey
    rw [List.nil_append, boundedAfter, boundedAfter, hhere, hc]
    rfl
  | cons d a ih =>
    have hhere : boundedHere key (d :: (a ++ c :: b)) = boundedHere key (d :: a) :=
      boundedHere_cut (a := d :: a) hc hkey
    rw [List.cons_append, boundedAfter, boundedAfter, hhere, ih, Bool.or_assoc]

/-- **A character that no occurrence holds cuts a text in two.** -/
theorem occursBounded_cut (hc : isWordChar c = false) (hkey : c ∉ key) :
    occursBounded key (a ++ c :: b) = (occursBounded key a || occursBounded key b) :=
  boundedAfter_cut false hc hkey

/-! ### Paths -/

/-- **Paths that differ in their last names.** -/
theorem occursBounded_path {lead more name name' : List Char} (hlead : ':' ∉ lead) (hname : ':' ∉ name)
    (hname' : ':' ∉ name') :
    occursBounded (lead ++ ':' :: more ++ name') (lead ++ ':' :: more ++ name) =
      boundedHere name' name := by
  rw [Bool.eq_iff_iff, boundedHere_iff]
  constructor
  · intro h
    obtain ⟨front, behind, heq, hbound⟩ := exists_of_boundedAfter h
    -- No colon is left for what stands in front.
    have hcount := congrArg (List.count ':') heq
    simp only [List.count_append, List.count_cons, List.count_eq_zero.mpr hname,
      List.count_eq_zero.mpr hname', List.count_eq_zero.mpr hlead] at hcount
    have hfront : ':' ∉ front := List.count_eq_zero.mp (by omega)
    have htake := congrArg (List.takeWhile (· != ':')) heq
    have hcut : ∀ {x y : List Char}, ':' ∉ x → (x ++ ':' :: y).takeWhile (· != ':') = x := by
      intro x y hx
      have hall : ∀ d ∈ x, (d != ':') = true := fun d hd => bne_iff_ne.mpr fun h => hx (h ▸ hd)
      rw [List.takeWhile_append_of_pos hall, List.takeWhile_cons_of_neg (by decide), List.append_nil]
    have hlead' : ':' ∉ front ++ lead := List.not_mem_append hfront hlead
    simp only [List.append_assoc, List.cons_append] at htake
    rw [hcut hlead, ← List.append_assoc, hcut hlead'] at htake
    obtain rfl : front = [] := List.length_eq_zero_iff.mp (by
      have := congrArg List.length htake
      rw [List.length_append] at this
      omega)
    rw [List.nil_append, List.append_assoc (lead ++ ':' :: more)] at heq
    exact ⟨behind, List.append_cancel_left heq, hbound⟩
  · rintro ⟨behind, rfl, hbound⟩
    have hhere : boundedHere (lead ++ ':' :: more ++ name')
        (lead ++ ':' :: more ++ (name' ++ behind)) = true :=
      boundedHere_iff.mpr ⟨behind, (List.append_assoc _ _ _).symm, hbound⟩
    generalize lead ++ ':' :: more ++ (name' ++ behind) = cs at hhere
    rw [occursBounded]
    cases cs with
    | nil => rw [boundedAfter, hhere]; rfl
    | cons d cs => rw [boundedAfter, hhere]; rfl

end ContractSync.Text
