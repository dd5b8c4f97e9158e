import ContractSync.Proofs.Rust.Identifier
import ContractSync.Proofs.Text.Bounded
import ContractSync.Proofs.Text.Ranges

/-!
# Names in a text

The lexer takes as much of a name as there is: behind a name, and behind whatever ends with a word character,
no name goes on (`step_word_ends`). So **a name that is met in a text occurs there bounded**
(`Run.occursBounded`).
-/

namespace ContractSync.Text

variable {key front more : List Char}

theorem boundedAfter_of_parts {inWord : Bool} (hnone : front = [] → inWord = false)
    (hfront : ∀ x ∈ front.getLast?, isWordChar x = false) (hmore : startsInWord more = false) :
    boundedAfter inWord key (front ++ (key ++ more)) = true := by
  induction front generalizing inWord with
  | nil =>
    have hhere : boundedHere key (key ++ more) = true := boundedHere_iff.mpr ⟨more, rfl, hmore⟩
    rw [hnone rfl, List.nil_append]
    cases hcs : key ++ more with
    | nil => rw [boundedAfter, ← hcs, hhere]; rfl
    | cons c rest => rw [boundedAfter, ← hcs, hhere]; rfl
  | cons c front ih =>
    rw [List.cons_append, boundedAfter, Bool.or_eq_true]
    refine .inr (ih ?_ fun x hx => hfront x ?_)
    · rintro rfl
      exact hfront c rfl
    · rw [List.getLast?_cons, hx]
      rfl

/-- A key between characters that go on no word occurs bounded. -/
theorem occursBounded_of_parts (hfront : ∀ x ∈ front.getLast?, isWordChar x = false)
    (hmore : startsInWord more = false) : occursBounded key (front ++ (key ++ more)) = true :=
  boundedAfter_of_parts (fun _ => rfl) hfront hmore

end ContractSync.Text

namespace ContractSync.Rust.Lexer

open ContractSync.Text (isBlank isDigit isWordChar)

/-! ### What a step leaves behind -/

/-- The step takes a name, or something that ends with a word character. -/
def TakesWord (kind : Option TokenKind) (cs : List Char) : Prop :=
  kind = some .ident ∨ ∃ x, cs.getLast? = some x ∧ isWordChar x = true

theorem not_takesWord {kind : Option TokenKind} {cs : List Char} {x : Char} (hkind : kind ≠ some .ident)
    (hlast : cs.getLast? = some x) (hx : isWordChar x = false) : ¬ TakesWord kind cs := by
  rintro (h | ⟨y, hy, hword⟩)
  · exact hkind h
  · rw [hlast, Option.some.injEq] at hy
    rw [← hy, hx] at hword
    cases hword

theorem numberLength_eq_zero_of_append {w r : List Char} (h : numberLength (w ++ r) = w.length) :
    numberLength r = 0 := by
  induction w with
  | nil => exact h
  | cons c w ih =>
    rw [List.cons_append, numberLength] at h
    split at h
    · exact ih (Nat.add_right_cancel h)
    · cases h

theorem literal_takesWord (skip : Nat) {problem : Problem} {quote : Char} {c : Char} {w r : List Char}
    {kind : Option TokenKind}
    (h : literal skip problem (quotedLength quote ((w ++ r).drop skip)) = .ok ⟨kind, w.length⟩)
    (hquote : isWordChar quote = false) : ¬ TakesWord kind (c :: w) :=
  not_takesWord (by rw [(literal_eq_ok.mp h).1]; nofun) (getLast?_cons_of (literal_ends skip h) c) hquote

theorem identLength_takes {w r : List Char} (h : identLength (w ++ r) = w.length) :
    startsWith isIdentChar r = false := (takeWhile_append_length.mp h).2

theorem tokenStep_word_ends {c : Char} {w r : List Char} {kind : Option TokenKind}
    (h : tokenStep c (w ++ r) = .ok ⟨kind, w.length⟩) (hword : TakesWord kind (c :: w)) :
    startsWith isIdentChar r = false := by
  unfold tokenStep at h
  split at h
  · rename_i hashes marker _
    split at h
    · rename_i n hn
      simp only [Except.ok.injEq, Step.mk.injEq] at h
      rw [List.drop_append_of_le_length (by omega)] at hn
      obtain rfl : n = (w.drop marker).length := by rw [List.length_drop]; omega
      rw [← h.1] at hword
      rcases getLast?_of_rawLength hn with hlast | hlast
      · exact absurd hword (not_takesWord nofun (getLast?_cons_of (getLast?_of_drop marker hlast) c) (by decide))
      · exact absurd hword (not_takesWord nofun (getLast?_cons_of (getLast?_of_drop marker hlast) c) (by decide))
    · cases h
  split at h
  · exact absurd hword (literal_takesWord 1 h (by decide))
  split at h
  · exact absurd hword (literal_takesWord 1 h (by decide))
  split at h
  · rename_i hraw
    simp only [Except.ok.injEq, Step.mk.injEq] at h
    cases w with
    | nil => simp at h
    | cons x w =>
      refine identLength_takes (w := w) ?_
      have := h.2
      rw [List.length_cons, Nat.add_comm] at this
      exact Nat.add_right_cancel this
  split at h
  · simp only [Except.ok.injEq, Step.mk.injEq] at h
    exact identLength_takes h.2
  split at h
  · exact absurd hword (literal_takesWord 0 h (by decide))
  split at h
  · unfold quoteOrLifetime at h
    split at h
    · exact absurd hword (literal_takesWord 0 h (by decide))
    split at h
    · simp only [Except.ok.injEq, Step.mk.injEq] at h
      exact identLength_takes h.2
    · cases h
  split at h
  · simp only [Except.ok.injEq, Step.mk.injEq] at h
    exact (numberLength_eq_zero_iff.mp (numberLength_eq_zero_of_append h.2)).1
  · rename_i hstart _ _ hdigit
    simp only [Except.ok.injEq, Step.mk.injEq] at h
    rw [← h.1] at hword
    cases w with
    | nil =>
      have hc : isWordChar c = false := by
        rw [← Bool.not_eq_true]
        exact fun hc => hstart (isIdentStart_of_isWordChar hc hdigit)
      exact absurd hword (not_takesWord nofun rfl hc)
    | cons x w =>
      have hlen := h.2
      split at hlen
      · rename_i hpair
        obtain rfl : w = [] := by simpa using hlen
        refine absurd hword (not_takesWord (x := x) nofun rfl ?_)
        rcases isPair_second hpair with rfl | rfl <;> decide
      · simp at hlen

/-- **Behind a name, and behind a word character, no name goes on.** -/
theorem step_word_ends {c : Char} {w r : List Char} {kind : Option TokenKind}
    (h : step c (w ++ r) = .ok ⟨kind, w.length⟩) (hword : TakesWord kind (c :: w)) :
    startsWith isIdentChar r = false := by
  cases kind with
  | some kind =>
    unfold step at h
    split at h
    · cases h
    split at h
    · cases h
    split at h
    · split at h <;> cases h
    · exact tokenStep_word_ends h hword
  | none =>
    rcases skip_cases h with ⟨rfl, hblank⟩ | ⟨_, -, -, -, hend⟩ | ⟨-, hlast, -⟩
    · have hc : isWordChar c = false := by
        rw [← Bool.not_eq_true]
        intro hc
        have hchar := isIdentChar_of_isWordChar hc
        rw [not_isIdentChar_of_isBlank hblank] at hchar
        cases hchar
      exact absurd hword (not_takesWord nofun rfl hc)
    · cases r with
      | nil => rfl
      | cons d r =>
        obtain rfl : d = '\n' := by simpa [startsWith] using hend
        have hfeed : isIdentChar '\n' = false := not_isIdentChar_of_isBlank (by decide)
        rw [startsWith, hfeed]
    · exact absurd hword (not_takesWord nofun (getLast?_cons_of hlast c) (by decide))

/-- Behind a word character no name goes on. -/
theorem Run.word_ends {p q : Nat} {a rest : List Char} {ts : List Token} (h : Run p (a ++ rest) ts q rest)
    {x : Char} (hx : a.getLast? = some x) (hword : isWordChar x = true) :
    startsWith isIdentChar rest = false := by
  have hstep : ∀ {c : Char} {w b : List Char} {kind : Option TokenKind},
      step c (w ++ (b ++ rest)) = .ok ⟨kind, w.length⟩ → (c :: (w ++ b)).getLast? = some x →
      (b.getLast? = some x → startsWith isIdentChar rest = false) →
      startsWith isIdentChar rest = false := by
    intro c w b kind hstep hlast ih
    cases hb : b.getLast? with
    | some y =>
      rw [← List.cons_append, List.getLast?_append, hb] at hlast
      exact ih (hb.trans hlast)
    | none =>
      obtain rfl := List.getLast?_eq_none_iff.mp hb
      rw [List.append_nil] at hlast
      exact step_word_ends hstep (.inr ⟨x, hlast, hword⟩)
  generalize hcs : a ++ rest = cs at h
  induction h generalizing a with
  | refl p cs =>
    obtain rfl : a = [] := by simpa using hcs
    cases hx
  | @skip p q c w s rest ts h t ih =>
    obtain ⟨b, rfl, rfl⟩ := t.cut hcs.symm
    exact hstep h hx fun hb => ih hb hstep rfl
  | @emit p q c w s rest kind ts h t ih =>
    obtain ⟨b, rfl, rfl⟩ := t.cut hcs.symm
    exact hstep h hx fun hb => ih hb hstep rfl

/-- What a name begins with can go on a name. -/
theorem isIdentChar_of_step {c : Char} {rest : List Char} {n : Nat}
    (h : step c rest = .ok ⟨some .ident, n⟩) : isIdentChar c = true := by
  have hliteral : ∀ {skip problem length}, literal skip problem length ≠ .ok ⟨some .ident, n⟩ := by
    intro skip problem length h
    cases (literal_eq_ok.mp h).1
  unfold step at h
  split at h
  · cases h
  split at h
  · cases h
  split at h
  · split at h <;> cases h
  unfold tokenStep quoteOrLifetime at h
  split at h
  · split at h <;> cases h
  split at h
  · exact absurd h hliteral
  split at h
  · exact absurd h hliteral
  split at h
  · rename_i hraw
    rw [hraw.1]
    decide
  split at h
  · rename_i hstart
    exact isIdentChar_of_isIdentStart hstart
  split at h
  · exact absurd h hliteral
  split at h
  · split at h
    · exact absurd h hliteral
    · split at h <;> cases h
  · split at h <;> cases h

/-- **A name that is met in a text occurs there bounded.** -/
theorem Run.occursBounded {p q : Nat} {a rest : List Char} {ts : List Token}
    (h : Run p (a ++ rest) ts q rest) {t : Token} (ht : t ∈ ts) (hkind : t.kind = .ident) :
    Text.occursBounded t.text.toList a = true := by
  obtain ⟨us, vs, rfl⟩ := List.append_of_mem ht
  obtain ⟨c, w, r, hbefore, hstep, htext, -, hbehind⟩ := h.split
  obtain ⟨front, hfront, -⟩ := hbefore.suffix
  obtain ⟨more, rfl, -⟩ := hbehind.suffix
  obtain rfl : a = front ++ ((c :: w) ++ more) := by
    have hall : a ++ rest = front ++ ((c :: w) ++ more) ++ rest := by
      rw [hfront]
      simp
    exact List.append_cancel_right hall
  rw [hkind] at hstep
  rw [htext, String.toList_ofList]
  refine Text.occursBounded_of_parts (fun x hx => ?_) ?_
  · rw [← Bool.not_eq_true]
    intro hword
    rw [hfront] at hbefore
    have hnone := hbefore.word_ends hx hword
    rw [startsWith, isIdentChar_of_step hstep] at hnone
    cases hnone
  · have hnone := step_word_ends hstep (.inl rfl)
    cases more with
    | nil => rfl
    | cons d more =>
      rw [List.cons_append, startsWith] at hnone
      rw [Text.startsInWord, ← Bool.not_eq_true]
      intro hword
      rw [isIdentChar_of_isWordChar hword] at hnone
      cases hnone

end ContractSync.Rust.Lexer
