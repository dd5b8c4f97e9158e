import ContractSync.Proofs.Rust.Run
import ContractSync.Proofs.Rust.Splice

/-!
# Where a step of the lexer ends

A token ends with a character that is not blank, and so does a comment between marks; a comment up to the
end of its line stops before the line feed (`step_ends`). So a run that has passed blanks has stopped in
front of them before (`Run.before_blanks`), and a run to the start of a line comes there whatever the line
holds (`Run.congr_behind_newline`).
-/

namespace ContractSync.Rust.Lexer

open ContractSync.Text (isBlank)

/-! ### The last character of what a step takes -/

theorem getLast?_of_drop {w : List Char} {x : Char} (n : Nat) (h : (w.drop n).getLast? = some x) :
    w.getLast? = some x := by
  rw [List.getLast?_drop] at h
  split at h
  · cases h
  · exact h

theorem getLast?_cons_of {w : List Char} {x : Char} (h : w.getLast? = some x) (c : Char) :
    (c :: w).getLast? = some x := by
  rw [List.getLast?_cons, h, Option.getD_some]

theorem getLast?_of_commentLength {depth : Nat} {w r : List Char}
    (h : commentLength depth (w ++ r) = some w.length) : w.getLast? = some '/' := by
  match w with
  | [] => exact absurd (two_le_commentLength h) (by simp)
  | [c] => exact absurd (two_le_commentLength h) (by simp)
  | c :: d :: w =>
    simp only [List.cons_append, List.length_cons, commentLength_cons_cons] at h
    split at h
    · exact getLast?_cons_of (getLast?_cons_of (getLast?_of_commentLength (map_add_eq_some.mp h)) d) c
    split at h
    · rename_i hclose
      split at h
      · obtain rfl : w = [] := by simpa using h
        rw [hclose.2]
        rfl
      · exact getLast?_cons_of
          (getLast?_cons_of (getLast?_of_commentLength (map_add_eq_some.mp h)) d) c
    · have hrest : commentLength depth ((d :: w) ++ r) = some (d :: w).length :=
        map_add_eq_some.mp h
      exact getLast?_cons_of (getLast?_of_commentLength hrest) c
termination_by w.length

theorem getLast?_of_quotedLength {quote : Char} {w r : List Char}
    (h : quotedLength quote (w ++ r) = some w.length) : w.getLast? = some quote := by
  match w with
  | [] => exact absurd (one_le_quotedLength h) (by simp)
  | [c] =>
    simp only [List.cons_append, List.nil_append, List.length_cons, quotedLength_cons] at h
    split at h
    · cases r with
      | nil => cases h
      | cons x r =>
        obtain ⟨m, -, hm⟩ := Option.map_eq_some_iff.mp h
        simp at hm
    split at h
    · rename_i hquote
      rw [hquote]
      rfl
    · exact absurd (one_le_quotedLength (map_add_eq_some.mp h)) (by simp)
  | c :: x :: w =>
    rw [List.cons_append, quotedLength_cons] at h
    split at h
    · have hrest : quotedLength quote (w ++ r) = some w.length := map_add_eq_some.mp h
      exact getLast?_cons_of (getLast?_cons_of (getLast?_of_quotedLength hrest) x) c
    split at h
    · cases h
    · have hrest : quotedLength quote ((x :: w) ++ r) = some (x :: w).length :=
        map_add_eq_some.mp h
      exact getLast?_cons_of (getLast?_of_quotedLength hrest) c
termination_by w.length

theorem getLast?_of_rawLength {hashes : Nat} {w r : List Char}
    (h : rawLength hashes (w ++ r) = some w.length) :
    w.getLast? = some '"' ∨ w.getLast? = some '#' := by
  induction w with
  | nil => exact absurd (lt_rawLength h) (by simp)
  | cons c w ih =>
    simp only [List.cons_append, List.length_cons, rawLength] at h
    split at h
    · rename_i hend
      -- What follows the quote are the hash marks.
      obtain ⟨u, hu⟩ := List.isPrefixOf_iff_prefix.mp hend.2
      have hlen : w.length = (List.replicate hashes '#').length := by
        rw [List.length_replicate]
        simp only [Option.some.injEq] at h
        omega
      obtain ⟨rfl, -⟩ := List.append_inj hu hlen.symm
      cases hashes with
      | zero => exact .inl (by rw [hend.1]; rfl)
      | succ n => exact .inr (getLast?_cons_of (by rw [List.getLast?_replicate]; rfl) c)
    · exact (ih (map_add_eq_some.mp h)).imp (getLast?_cons_of · c) (getLast?_cons_of · c)

theorem of_mem_numberLength {w r : List Char} (h : numberLength (w ++ r) = w.length) :
    ∀ x ∈ w, isIdentChar x = true ∨ x = '.' := by
  induction w with
  | nil => exact nofun
  | cons c w ih =>
    simp only [List.cons_append, numberLength, List.length_cons] at h
    split at h
    · rename_i hc
      refine List.forall_mem_cons.mpr ⟨?_, ih (by omega)⟩
      rw [Bool.or_eq_true, Bool.and_eq_true, beq_iff_eq] at hc
      exact hc.imp_right And.left
    · omega

theorem not_isBlank_of_not_isCalm {x : Char} (h : isCalm x = false) : isBlank x = false := by
  rw [← Bool.not_eq_true]
  intro hblank
  rw [isCalm_of_isBlank hblank] at h
  cases h

theorem not_isBlank_of_isIdentChar {x : Char} (h : isIdentChar x = true) : isBlank x = false :=
  not_isBlank_of_not_isCalm (not_isCalm_of_isIdentChar h)

/-- A quoted literal ends with its quote. -/
theorem literal_ends (skip : Nat) {problem : Problem} {quote : Char} {w r : List Char}
    {kind : Option TokenKind}
    (h : literal skip problem (quotedLength quote ((w ++ r).drop skip)) = .ok ⟨kind, w.length⟩) :
    w.getLast? = some quote := by
  obtain ⟨-, m, hm, hlen⟩ := literal_eq_ok.mp h
  rw [List.drop_append_of_le_length (by omega)] at hm
  obtain rfl : m = (w.drop skip).length := by rw [List.length_drop]; omega
  exact getLast?_of_drop skip (getLast?_of_quotedLength hm)

/-- A text ends with a character that is not blank. -/
def EndsFirm (cs : List Char) : Prop := ∃ x, cs.getLast? = some x ∧ isBlank x = false

theorem EndsFirm.of_getLast? {c x : Char} {w : List Char} (h : w.getLast? = some x)
    (hx : isBlank x = false) : EndsFirm (c :: w) :=
  ⟨x, getLast?_cons_of h c, hx⟩

theorem EndsFirm.of_forall {c : Char} {w : List Char} (hc : isBlank c = false)
    (h : ∀ x ∈ w, isBlank x = false) : EndsFirm (c :: w) :=
  ⟨(c :: w).getLast (List.cons_ne_nil c w), List.getLast?_eq_some_getLast _,
    (List.forall_mem_cons (p := fun x => isBlank x = false)).mpr ⟨hc, h⟩ _ (List.getLast_mem _)⟩

theorem EndsFirm.of_identLength {c : Char} {w r : List Char} (hc : isBlank c = false)
    (h : identLength (w ++ r) = w.length) : EndsFirm (c :: w) :=
  .of_forall hc fun x hx => not_isBlank_of_isIdentChar ((takeWhile_append_length.mp h).1 x hx)

theorem quoteOrLifetime_ends {c : Char} {w r : List Char} {kind : Option TokenKind}
    (hc : isBlank c = false) (h : quoteOrLifetime (w ++ r) = .ok ⟨kind, w.length⟩) :
    EndsFirm (c :: w) := by
  unfold quoteOrLifetime at h
  split at h
  · exact .of_getLast? (literal_ends 0 h) (by decide)
  split at h
  · simp only [Except.ok.injEq, Step.mk.injEq] at h
    exact .of_identLength hc h.2
  · cases h

theorem tokenStep_ends {c : Char} {w r : List Char} {kind : Option TokenKind}
    (hc : isBlank c = false) (h : tokenStep c (w ++ r) = .ok ⟨kind, w.length⟩) :
    EndsFirm (c :: w) := by
  unfold tokenStep at h
  split at h
  · rename_i hashes marker _
    split at h
    · rename_i n hn
      simp only [Except.ok.injEq, Step.mk.injEq] at h
      rw [List.drop_append_of_le_length (by omega)] at hn
      obtain rfl : n = (w.drop marker).length := by rw [List.length_drop]; omega
      rcases getLast?_of_rawLength hn with hlast | hlast
      · exact .of_getLast? (getLast?_of_drop marker hlast) (by decide)
      · exact .of_getLast? (getLast?_of_drop marker hlast) (by decide)
    · cases h
  split at h
  · exact .of_getLast? (literal_ends 1 h) (by decide)
  split at h
  · exact .of_getLast? (literal_ends 1 h) (by decide)
  split at h
  · rename_i hraw
    simp only [Except.ok.injEq, Step.mk.injEq] at h
    cases w with
    | nil => simp at h
    | cons x w =>
      obtain rfl : x = '#' := beq_iff_eq.mp hraw.2.1
      have hlen : identLength (w ++ r) = w.length := by
        have := h.2
        rw [List.length_cons, Nat.add_comm] at this
        exact Nat.add_right_cancel this
      obtain ⟨y, hy, hfirm⟩ := EndsFirm.of_identLength (c := '#') (by decide) hlen
      exact .of_getLast? hy hfirm
  split at h
  · simp only [Except.ok.injEq, Step.mk.injEq] at h
    exact .of_identLength hc h.2
  split at h
  · exact .of_getLast? (literal_ends 0 h) (by decide)
  split at h
  · exact quoteOrLifetime_ends hc h
  split at h
  · simp only [Except.ok.injEq, Step.mk.injEq] at h
    refine .of_forall hc fun x hx => ?_
    rcases of_mem_numberLength h.2 x hx with hident | rfl
    · exact not_isBlank_of_isIdentChar hident
    · decide
  · simp only [Except.ok.injEq, Step.mk.injEq] at h
    cases w with
    | nil => exact .of_forall hc nofun
    | cons x w =>
      have hlen := h.2
      split at hlen
      · rename_i hpair
        obtain rfl : w = [] := by simpa using hlen
        refine .of_getLast? (x := x) rfl (not_isBlank_of_not_isCalm ?_)
        rcases isPair_second hpair with rfl | rfl
        · exact not_isCalm_of_mem (by decide)
        · exact not_isCalm_of_mem (by decide)
      · simp at hlen

/-- A token ends with a character that is not blank. -/
theorem token_ends {c : Char} {w r : List Char} {kind : TokenKind}
    (h : step c (w ++ r) = .ok ⟨some kind, w.length⟩) : EndsFirm (c :: w) := by
  unfold step at h
  split at h
  · cases h
  rename_i hblank
  split at h
  · cases h
  split at h
  · split at h
    · cases h
    · cases h
  · exact tokenStep_ends (Bool.not_eq_true _ ▸ hblank) h

/-- **What is passed over**: one blank, a comment up to the end of its line, or a comment between marks,
which is one whatever follows. -/
theorem skip_cases {c : Char} {w r : List Char} (h : step c (w ++ r) = .ok ⟨none, w.length⟩) :
    (w = [] ∧ isBlank c = true) ∨
      (∃ line, c = '/' ∧ w = '/' :: line ∧ '\n' ∉ line ∧ startsWith (· != '\n') r = false) ∨
      (c = '/' ∧ w.getLast? = some '/' ∧ ∀ r', step c (w ++ r') = .ok ⟨none, w.length⟩) := by
  unfold step at h
  split at h
  · rename_i hblank
    simp only [Except.ok.injEq, Step.mk.injEq] at h
    exact .inl ⟨List.length_eq_zero_iff.mp h.2.symm, hblank⟩
  rename_i hblank
  split at h
  · rename_i hslash
    simp only [Except.ok.injEq, Step.mk.injEq] at h
    obtain ⟨hall, hline⟩ := takeWhile_append_length.mp h.2
    cases w with
    | nil =>
      obtain ⟨x, rest, rfl⟩ := List.exists_cons_of_ne_nil
        (List.ne_nil_of_length_pos (length_pos_of_startsWith hslash.2))
      rw [startsWith, beq_iff_eq.mp hslash.2] at hline
      cases hline
    | cons x line =>
      refine .inr (.inl ⟨line, hslash.1, by rw [beq_iff_eq.mp hslash.2], fun hfeed => ?_, hline⟩)
      simpa using hall _ (List.mem_cons_of_mem x hfeed)
  split at h
  · rename_i hnot hstar
    split at h
    · rename_i n hn
      simp only [Except.ok.injEq, Step.mk.injEq] at h
      cases w with
      | nil => simp at h
      | cons x w =>
        obtain rfl : n = w.length := by simpa using h.2
        refine .inr (.inr ⟨hstar.1, getLast?_cons_of (getLast?_of_commentLength hn) x, fun r' => ?_⟩)
        obtain ⟨hstart, hcomment⟩ := blockComment_congr hn rfl r'
        have hnot' : ¬ (c = '/' ∧ startsWith (· == '/') (x :: w ++ r') = true) := hnot
        rw [step, if_neg hblank, if_neg hnot', if_pos ⟨hstar.1, hstart.trans hstar.2⟩, hcomment]
        rfl
    · cases h
  · exact absurd rfl (tokenStep_kind h)

/-- **How a step ends**: it takes one blank, a comment up to the end of its line, or something whose last
character is not blank. -/
theorem step_ends {c : Char} {w r : List Char} {kind : Option TokenKind}
    (h : step c (w ++ r) = .ok ⟨kind, w.length⟩) :
    w = [] ∧ isBlank c = true ∨
      '\n' ∉ c :: w ∧ startsWith (· != '\n') r = false ∨ EndsFirm (c :: w) := by
  cases kind with
  | some kind => exact .inr (.inr (token_ends h))
  | none =>
    rcases skip_cases h with hblank | ⟨line, rfl, rfl, hline, hrest⟩ | ⟨-, hlast, -⟩
    · exact .inl hblank
    · exact .inr (.inl ⟨by simp [hline], hrest⟩)
    · exact .inr (.inr (.of_getLast? hlast (by decide)))

/-- Two slashes take along what stands behind them on the line. -/
theorem step_lineComment {line rest : List Char} (hline : '\n' ∉ line)
    (hrest : startsWith (· != '\n') rest = false) :
    step '/' ('/' :: line ++ rest) = .ok ⟨none, ('/' :: line).length⟩ := by
  have hblank : isBlank '/' = false := by decide
  have hlength : (('/' :: line ++ rest).takeWhile (· != '\n')).length = ('/' :: line).length := by
    refine takeWhile_append_length.mpr ⟨List.forall_mem_cons.mpr ⟨rfl, fun c hc => ?_⟩, hrest⟩
    exact bne_iff_ne.mpr fun h => hline (h ▸ hc)
  rw [step, hblank, if_neg Bool.false_ne_true, if_pos ⟨rfl, rfl⟩, hlength]

/-! ### Runs over blanks -/

theorem step_blank {c : Char} (h : isBlank c = true) (rest : List Char) :
    step c rest = .ok ⟨none, 0⟩ := by
  rw [step, if_pos h]

/-- Blanks are passed over. -/
theorem run_blanks {w : List Char} (hw : ∀ x ∈ w, isBlank x = true) (p : Nat) (rest : List Char) :
    Run p (w ++ rest) [] (p + w.length) rest := by
  induction w generalizing p with
  | nil => exact .refl p rest
  | cons c w ih =>
    obtain ⟨hc, hw⟩ := List.forall_mem_cons.mp hw
    have hrun := ih hw (p + 1)
    rw [Nat.add_assoc, Nat.add_comm 1] at hrun
    exact .skip (w := []) (step_blank hc _) hrun

/-- Blanks hold no tokens. -/
theorem Run.eq_nil_of_blanks {p q : Nat} {w rest : List Char} {ts : List Token}
    (h : Run p (w ++ rest) ts q rest) (hw : ∀ x ∈ w, isBlank x = true) : ts = [] := by
  generalize hcs : w ++ rest = cs at h
  induction h generalizing w with
  | refl => rfl
  | @skip p q c v r rest ts h t ih =>
    obtain ⟨b, rfl, rfl⟩ := t.cut hcs.symm
    exact ih (fun x hx => hw x (by simp [hx])) rfl
  | @emit p q c v r rest kind ts h t ih =>
    obtain ⟨b, rfl, rfl⟩ := t.cut hcs.symm
    rw [step_blank (hw c List.mem_cons_self)] at h
    cases h

/-- A step does not end between blanks of one line. -/
theorem step_before_blanks {c : Char} {v b a w rest : List Char} {kind : Option TokenKind}
    (h : step c (v ++ (b ++ rest)) = .ok ⟨kind, v.length⟩) (hcs : v ++ b = a ++ w)
    (hw : ∀ x ∈ w, isBlank x = true) (hline : '\n' ∉ w.tail)
    (hrest : w.head? = some '\n' ∨ startsWith (· != '\n') rest = true) :
    ∃ a', a = v ++ a' ∧ b = a' ++ w := by
  rcases List.append_eq_append_iff.mp hcs with ⟨a', ha, hb⟩ | ⟨w', rfl, rfl⟩
  · exact ⟨a', ha, hb⟩
  rcases w'.eq_nil_or_concat with rfl | ⟨w', x, rfl⟩
  · exact ⟨[], (List.append_nil _).symm ▸ (List.append_nil _).symm, rfl⟩
  exfalso
  rcases step_ends h with ⟨hv, -⟩ | ⟨hnone, hend⟩ | ⟨y, hy, hfirm⟩
  · simp at hv
  · rcases hrest with hfirst | hrest
    · apply hnone
      have hmem : '\n' ∈ w'.concat x := by
        cases w' with
        | nil => exact Option.some.inj hfirst ▸ List.mem_cons_self
        | cons y w' => exact Option.some.inj hfirst ▸ List.mem_cons_self
      exact List.mem_cons_of_mem c (List.mem_append_right a hmem)
    cases b with
    | nil =>
      rw [List.nil_append, hrest] at hend
      cases hend
    | cons y b =>
      obtain rfl : y = '\n' := by simpa [startsWith] using hend
      apply hline
      cases w' <;> simp
  · rw [List.concat_eq_append, ← List.append_assoc, ← List.cons_append,
      List.getLast?_concat] at hy
    obtain rfl := Option.some.inj hy
    rw [hw x (by simp)] at hfirm
    cases hfirm

/-- A run that has passed blanks has stopped in front of them. A line feed may be the first of these
blanks only: behind a later one, those in front of it may belong to a comment. -/
theorem Run.before_blanks {p q : Nat} {a w rest : List Char} {ts : List Token}
    (h : Run p (a ++ (w ++ rest)) ts q rest) (hw : ∀ x ∈ w, isBlank x = true)
    (hline : '\n' ∉ w.tail)
    (hrest : w.head? = some '\n' ∨ startsWith (· != '\n') rest = true) :
    Run p (a ++ (w ++ rest)) ts (p + a.length) (w ++ rest) := by
  generalize hcs : a ++ (w ++ rest) = cs at h
  induction h generalizing a with
  | refl p cs =>
    obtain ⟨rfl, rfl⟩ : a = [] ∧ w = [] := by simpa [← List.append_assoc] using hcs
    exact .refl _ _
  | @skip p q c v r rest ts h t ih =>
    obtain ⟨b, rfl, -⟩ := t.suffix
    cases a with
    | nil =>
      rw [List.nil_append] at hcs
      have hrun := Run.skip h t
      rw [← hcs] at hrun ⊢
      rw [hrun.eq_nil_of_blanks hw]
      exact .refl _ _
    | cons d a =>
      rw [List.cons_append, List.cons.injEq, ← List.append_assoc, ← List.append_assoc,
        List.append_cancel_right_eq] at hcs
      obtain ⟨a, rfl, rfl⟩ := step_before_blanks h hcs.2.symm hw hline hrest
      have hrun := ih hrest (List.append_assoc ..).symm
      rw [List.append_assoc] at h hrun ⊢
      rw [show p + (d :: (v ++ a)).length = p + v.length + 1 + a.length by simp; omega]
      exact .skip h hrun
  | @emit p q c v r rest kind ts h t ih =>
    obtain ⟨b, rfl, -⟩ := t.suffix
    cases a with
    | nil =>
      rw [List.nil_append] at hcs
      have hrun := Run.emit h t
      rw [← hcs] at hrun
      cases hrun.eq_nil_of_blanks hw
    | cons d a =>
      rw [List.cons_append, List.cons.injEq, ← List.append_assoc, ← List.append_assoc,
        List.append_cancel_right_eq] at hcs
      obtain ⟨a, rfl, rfl⟩ := step_before_blanks h hcs.2.symm hw hline hrest
      have hrun := ih hrest (List.append_assoc ..).symm
      rw [List.append_assoc] at h hrun ⊢
      rw [show p + (d :: (v ++ a)).length = p + v.length + 1 + a.length by simp; omega]
      exact .emit h hrun

/-! ### Runs up to a place -/

/-- A run to the start of a line is the same whatever the line holds. -/
theorem Run.congr_behind_newline {p q : Nat} {a u : List Char} {ts : List Token}
    (h : Run p (a ++ '\n' :: u) ts q u) (u' : List Char) : Run p (a ++ '\n' :: u') ts q u' := by
  have hblank : ∀ x ∈ ['\n'], isBlank x = true := List.forall_mem_singleton.mpr (by decide)
  have hq : q = p + a.length + 1 := by
    obtain ⟨b, hb, rfl⟩ := h.suffix
    have := congrArg List.length hb
    simp at this
    omega
  have hback : Run p (a ++ '\n' :: u) ts (p + a.length) ('\n' :: u) :=
    h.before_blanks (w := ['\n']) hblank nofun (.inl rfl)
  have hrun := (hback.congr_before_mark (by decide) u').trans (run_blanks hblank _ u')
  rwa [List.append_nil, List.length_singleton, ← hq] at hrun

/-- A shorter rest goes on no more than the whole one. -/
theorem Quieter.of_start {c : Char} {r : List Char} (h : startsWith (· == '\'') r = false)
    (a : List Char) : Quieter c (a ++ r) a := by
  have hfirst : ∀ {p : Char → Bool} {cs : List Char}, startsWith p cs = true →
      startsWith p (cs ++ r) = true := fun {p cs} h => by
    cases cs with
    | nil => cases h
    | cons x cs => exact h
  have hsecond : ∀ {p : Char → Bool}, startsWith p (a.drop 1) = true →
      startsWith p ((a ++ r).drop 1) = true := fun {p} h => by
    cases a with
    | nil => cases h
    | cons x a => exact hfirst h
  refine ⟨hfirst, hfirst, ?_, hfirst, hfirst, ?_, ?_, ?_⟩
  · cases a with
    | nil => exact h.symm
    | cons x a => rfl
  · intro hraw
    rw [Option.eq_none_iff_forall_ne_some]
    intro n hn
    have hlt : n < a.length := by
      rw [rawHashes] at hn
      split at hn
      · rename_i hquote
        have hpos := length_pos_of_startsWith hquote
        have hlen := congrArg List.length (List.takeWhile_append_dropWhile (p := (· == '#')) (l := a))
        rw [List.length_append] at hlen
        cases hn
        omega
      · cases hn
    rw [← List.append_nil a] at hn
    have hsome : rawHashes (a ++ r) = some n := rawHashes_congr hn hlt
    rw [hraw] at hsome
    cases hsome
  · exact fun h => ⟨hfirst h.1, hsecond h.2⟩
  · exact fun h => ⟨hfirst h.1, hsecond h.2⟩

/-- A run up to a place is a run to the end of the text that is cut there. -/
theorem Run.cut_off {p q : Nat} {a r : List Char} {ts : List Token} (h : Run p (a ++ r) ts q r)
    (hr : startsWith (· == '\'') r = false) : Run p a ts q [] := by
  have hstep : ∀ {c : Char} {w b : List Char} {kind : Option TokenKind},
      step c (w ++ (b ++ r)) = .ok ⟨kind, w.length⟩ → step c (w ++ b) = .ok ⟨kind, w.length⟩ := by
    intro c w b kind h
    refine step_congr h (Quieter.of_start hr b) (fun _ _ h' => ?_) fun _ h' => ?_
    · exact startsWith_append (List.ne_nil_of_length_pos (length_pos_of_startsWith h')) ▸ h'
    · exact startsWith_append (List.ne_nil_of_length_pos (length_pos_of_startsWith h')) ▸ h'
  generalize hcs : a ++ r = cs at h
  induction h generalizing a with
  | refl p cs =>
    obtain rfl : a = [] := by simpa using hcs
    exact .refl _ _
  | @skip p q c w s r ts h t ih =>
    obtain ⟨b, rfl, rfl⟩ := t.cut hcs.symm
    exact .skip (hstep h) (ih hr hstep rfl)
  | @emit p q c w s r kind ts h t ih =>
    obtain ⟨b, rfl, rfl⟩ := t.cut hcs.symm
    exact .emit (hstep h) (ih hr hstep rfl)

end ContractSync.Rust.Lexer
