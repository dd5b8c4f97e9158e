import ContractSync.Proofs.Rust.Writing

/-!
# Places where a text can be put

Behind a delimiter or a semicolon the lexer goes on with whatever stands there (`Run.congr_border`,
`Run.congr_behind`). Behind other tokens, blanks and comments it goes on with a calm text, **unless the place
is in a comment up to the end of its line**: then the comment takes along what is put there
(`Run.place_cases`).
-/

namespace ContractSync.Rust

open ContractSync.Text (isBlank)

/-- A token behind which anything can begin. -/
def Token.isBorder (t : Token) : Bool := t.isPunct ";" || t.isOpener || t.isCloser

theorem Token.exists_of_isBorder {t : Token} (h : t.isBorder = true) :
    t.kind = .punct ∧ ∃ m ∈ Lexer.singleMarks, t.text = String.ofList [m] ∧ m ≠ '#' ∧ m ≠ '.' := by
  simp only [isBorder, isOpener, isCloser, isPunct, Bool.or_eq_true, Bool.and_eq_true, beq_iff_eq] at h
  rcases h with (h | (h | h) | h) | (h | h) | h
  · exact ⟨h.1, ';', by decide, h.2, by decide⟩
  · exact ⟨h.1, '(', by decide, h.2, by decide⟩
  · exact ⟨h.1, '[', by decide, h.2, by decide⟩
  · exact ⟨h.1, '\x7b', by decide, h.2, by decide⟩
  · exact ⟨h.1, ')', by decide, h.2, by decide⟩
  · exact ⟨h.1, ']', by decide, h.2, by decide⟩
  · exact ⟨h.1, '\x7d', by decide, h.2, by decide⟩

namespace Lexer

variable {p q : Nat} {a u w r : List Char} {ts : List Token} {t : Token}

/-! ### Behind a border -/

/-- Directly behind a border the text can be any other. -/
theorem Run.congr_border (h : Run p (a ++ u) (ts ++ [t]) t.stop u) (hborder : t.isBorder = true)
    (u' : List Char) : Run p (a ++ u') (ts ++ [t]) t.stop u' := by
  obtain ⟨hkind, m, hm, htext, hmark⟩ := Token.exists_of_isBorder hborder
  obtain ⟨c, v, r, hbefore, -, htext', hstop, hnil⟩ := h.split
  obtain ⟨rfl, rfl⟩ : m = c ∧ v = [] := by
    have := String.ofList_injective (htext.symm.trans htext')
    simpa [eq_comm] using this
  obtain ⟨b, rfl, hb⟩ := hnil.suffix
  obtain rfl : b = [] := List.length_eq_zero_iff.mp (by omega)
  obtain ⟨front, hfront, -⟩ := hbefore.suffix
  rw [List.nil_append, List.nil_append] at hbefore hfront
  obtain rfl : a = front ++ [m] :=
    List.append_cancel_right (hfront.trans (List.append_cons ..))
  rw [List.append_assoc, List.singleton_append] at hbefore
  have hbefore' := hbefore.congr_before_mark hmark u'
  have hemit : Run t.start (m :: u') [⟨.punct, String.ofList [m], t.start, t.start + 1⟩] (t.start + 1) u' :=
    .emit (w := []) (step_single hm u') (.refl _ _)
  have htoken : (⟨.punct, String.ofList [m], t.start, t.start + 1⟩ : Token) = t := by
    rw [← hkind, ← htext, show t.start + 1 = t.stop from hstop.symm]
  rw [htoken, show t.start + 1 = t.stop from hstop.symm] at hemit
  rw [List.append_assoc, List.singleton_append]
  exact hbefore'.trans hemit

/-- So it can behind blanks and comments that follow a border or begin the text. -/
theorem Run.congr_behind (h : Run p (a ++ u) ts q u) (hborder : ∀ t ∈ ts.getLast?, t.isBorder = true)
    (hline : startsWith (· != '\n') u = true) (u' : List Char) : Run p (a ++ u') ts q u' := by
  rcases ts.eq_nil_or_concat with rfl | ⟨ts, t, rfl⟩
  · exact h.congr_skip hline u'
  rw [List.concat_eq_append] at h hborder ⊢
  obtain ⟨c, v, r, hbefore, hstep, htext, hstop, hskip⟩ := h.split
  obtain ⟨b, rfl, rfl⟩ := hskip.suffix
  have htoken : Run p (a ++ u) (ts ++ [t]) t.stop (b ++ u) := by
    have hemit : Run t.start (c :: (v ++ (b ++ u))) [t] t.stop (b ++ u) := by
      have hemit := Run.emit (p := t.start) hstep (.refl _ _)
      rw [← htext, ← hstop] at hemit
      exact hemit
    exact hbefore.trans hemit
  obtain ⟨front, hfront, -⟩ := htoken.suffix
  rw [← List.append_assoc] at hfront
  obtain rfl := List.append_cancel_right hfront
  rw [List.append_assoc] at htoken ⊢
  have hnew := (htoken.congr_border (hborder t List.getLast?_concat) (b ++ u')).trans
    (hskip.congr_skip hline u')
  rwa [List.append_nil] at hnew

/-! ### Behind blanks and comments -/

theorem exists_of_startsWith_newline (hr : startsWith (· != '\n') r = true)
    (h : startsWith (· != '\n') (w ++ r) = false) : ∃ w', w = '\n' :: w' := by
  cases w with
  | nil =>
    rw [List.nil_append, hr] at h
    cases h
  | cons x w =>
    obtain rfl : x = '\n' := by simpa [startsWith] using h
    exact ⟨w, rfl⟩

/-- The text `a` in front of the blanks `w` ends in a comment that goes on into them, up to the end of its
line; a run from `p` comes to the start of the comment. -/
def EndsInComment (p : Nat) (a w : List Char) : Prop :=
  ∃ x y w₁ w₂, a = x ++ '/' :: '/' :: y ∧ '\n' ∉ y ∧ w = w₁ ++ '\n' :: w₂ ∧ '\n' ∉ w₁ ∧
    ∀ u, Run p (x ++ '/' :: u) [] (p + x.length) ('/' :: u)

/-- A comment that goes on behind the place is one up to the end of its line. -/
theorem endsInComment_of_step {c : Char} {w' : List Char}
    (h : step c (a ++ w ++ (w' ++ r)) = .ok ⟨none, (a ++ w).length⟩)
    (hw : ∀ x ∈ w, isBlank x = true) (hne : w ≠ []) (hr : startsWith (· != '\n') r = true) :
    EndsInComment p (c :: a) (w ++ w') := by
  rcases Lexer.skip_cases h with ⟨hnil, -⟩ | ⟨line, rfl, hline, hfeed, hend⟩ | ⟨-, hlast, -⟩
  · exact absurd (List.append_eq_nil_iff.mp hnil).2 hne
  · obtain ⟨w', rfl⟩ := exists_of_startsWith_newline hr hend
    cases a with
    | nil =>
      have hslash := hw '/' (by rw [show w = '/' :: line from hline]; exact List.mem_cons_self)
      cases hslash
    | cons d y =>
      obtain ⟨rfl, rfl⟩ := List.cons.inj hline
      have hfeed : '\n' ∉ y ++ w := hfeed
      rw [List.mem_append, not_or] at hfeed
      exact ⟨[], y, w, w', rfl, hfeed.1, rfl, hfeed.2, fun u => .refl _ _⟩
  · rw [List.getLast?_append_of_ne_nil _ hne] at hlast
    cases hw '/' (List.mem_of_getLast? hlast)

/-- A step over blanks or a comment leads to the start of the other comment. -/
theorem EndsInComment.behind_step {c : Char} {v : List Char} (hends : EndsInComment (p + v.length + 1) a w)
    (h : step c (v ++ (a ++ u)) = .ok ⟨none, v.length⟩) : EndsInComment p (c :: (v ++ a)) w := by
  obtain ⟨x, y, w₁, w₂, rfl, hy, rfl, hw₁, hrun⟩ := hends
  refine ⟨c :: (v ++ x), y, w₁, w₂, by simp, hy, rfl, hw₁, fun u => ?_⟩
  have hlength : p + (c :: (v ++ x)).length = p + v.length + 1 + x.length := by
    simp only [List.length_cons, List.length_append]
    omega
  rw [hlength, List.cons_append, List.append_assoc]
  refine .skip (skip_congr h fun hline => ?_) (hrun u)
  cases x with
  | nil => rfl
  | cons z x => exact hline

/-- A step that stops at the place: it stops there whatever follows, or at the end of its line. -/
theorem step_at_place {c : Char} {v : List Char} (h : step c (v ++ (w ++ r)) = .ok ⟨none, v.length⟩)
    (hr : startsWith (· != '\n') r = true) (hfirm : ∀ x ∈ (c :: v).getLast?, isBlank x = false) :
    (∀ u, Run p (c :: v ++ u) [] (p + (c :: v).length) u) ∨ EndsInComment p (c :: v) w := by
  rcases Lexer.skip_cases h with ⟨rfl, hblank⟩ | ⟨line, rfl, rfl, hfeed, hend⟩ | ⟨-, -, hall⟩
  · rw [hfirm c rfl] at hblank
    cases hblank
  · obtain ⟨w', rfl⟩ := exists_of_startsWith_newline hr hend
    exact .inr ⟨[], line, [], w', rfl, hfeed, rfl, List.not_mem_nil, fun u => .refl _ _⟩
  · exact .inl fun u => .skip (hall u) (.refl _ _)

/-- One of two divisions of a text goes further than the other. -/
theorem division_cases {v b : List Char} (h : v ++ b = a ++ w) :
    (∃ w', w' ≠ [] ∧ v = a ++ w' ∧ w = w' ++ b) ∨ ∃ a', a = v ++ a' ∧ b = a' ++ w := by
  rcases List.append_eq_append_iff.mp h with hbehind | ⟨w', hv, hw'⟩
  · exact .inr hbehind
  · by_cases hne : w' = []
    · subst hne
      exact .inr ⟨[], by simpa using hv.symm, by simpa using hw'.symm⟩
    · exact .inl ⟨w', hne, hv, hw'⟩

/-- A run over blanks and comments to the blanks `w`: it stops in front of them, whatever follows, or a
comment up to the end of its line goes on into them. -/
theorem Run.skip_cases (h : Run p (a ++ (w ++ r)) [] q r) (hw : ∀ x ∈ w, isBlank x = true)
    (hr : startsWith (· != '\n') r = true) (hfirm : ∀ x ∈ a.getLast?, isBlank x = false) :
    (∀ u, Run p (a ++ u) [] (p + a.length) u) ∨ EndsInComment p a w := by
  generalize hcs : a ++ (w ++ r) = cs at h
  generalize hts : ([] : List Token) = ts at h
  induction h generalizing a with
  | refl p cs =>
    obtain ⟨rfl, rfl⟩ : a = [] ∧ w = [] := by simpa [← List.append_assoc] using hcs
    exact .inl fun u => .refl _ _
  | emit => cases hts
  | @skip p q c v s rest ts h t ih =>
    subst hts
    cases a with
    | nil => exact .inl fun u => .refl _ _
    | cons d a =>
      obtain ⟨b, rfl, -⟩ := t.suffix
      rw [List.cons_append, List.cons.injEq, ← List.append_assoc, ← List.append_assoc,
        List.append_cancel_right_eq] at hcs
      obtain ⟨rfl, hcs⟩ := hcs
      rcases division_cases hcs.symm with ⟨w', hne, rfl, rfl⟩ | ⟨a, rfl, rfl⟩
      · exact .inr (endsInComment_of_step h (fun x hx => hw x (List.mem_append_left _ hx)) hne hr)
      by_cases hnil : a = []
      · subst hnil
        rw [List.append_nil] at hfirm ⊢
        exact step_at_place h hr hfirm
      · have hfirm' : ∀ x ∈ a.getLast?, isBlank x = false := by
          rwa [← List.cons_append, List.getLast?_append_of_ne_nil _ hnil] at hfirm
        rw [List.append_assoc] at h
        rcases ih hr hfirm' (List.append_assoc ..).symm rfl with hfree | hends
        · left
          intro u
          have hlength : p + (d :: (v ++ a)).length = p + v.length + 1 + a.length := by
            simp only [List.length_cons, List.length_append]
            omega
          rw [hlength, List.cons_append, List.append_assoc]
          exact .skip (skip_congr h fun hline => by
            obtain ⟨y, a, rfl⟩ := List.exists_cons_of_ne_nil hnil
            exact hline) (hfree u)
        · exact .inr (hends.behind_step h)

end Lexer

/-! ### Comments up to the end of a line -/

open Lexer

/-- The place is in a comment up to the end of its line. -/
def InLineComment (source : List Char) (place : Nat) : Prop :=
  ∃ p ts, Run 0 source ts p (source.drop p) ∧ p + 2 ≤ place ∧ ['/', '/'] <+: source.drop p ∧
    '\n' ∉ Text.slice source p place

namespace Lexer

variable {a w r : List Char} {ts : List Token} {t : Token}

/-- Where a comma is met, no comment takes it along. -/
theorem Run.not_inLineComment (h : Run 0 (a ++ [',']) ts a.length [',']) (v : List Char) :
    ¬ InLineComment (a ++ v) a.length := by
  rintro ⟨p, us, hrun, hp, ⟨rest, hrest⟩, hfeed⟩
  obtain ⟨x, y, rfl, rfl⟩ : ∃ x y, a = x ++ '/' :: '/' :: y ∧ p = x.length := by
    have hdrop : a.drop p ++ v = '/' :: '/' :: rest := by
      rw [← List.drop_append_of_le_length (by omega), ← hrest]
      rfl
    have hlength : (a.drop p).length = a.length - p := List.length_drop
    match hsplit : a.drop p with
    | [] | [_] =>
      rw [hsplit] at hlength
      simp at hlength
      omega
    | c :: d :: y =>
      rw [hsplit] at hdrop
      obtain ⟨rfl, rfl, -⟩ : c = '/' ∧ d = '/' ∧ y ++ v = rest := by simpa using hdrop
      exact ⟨a.take p, y, by rw [← hsplit, List.take_append_drop], by rw [List.length_take]; omega⟩
  have hy : '\n' ∉ y ++ [','] := by
    rw [Text.slice_append_left (Nat.le_refl _), Text.slice, List.take_length, List.drop_left] at hfeed
    simpa using hfeed
  -- The comma is the last token of the text, and it is none.
  rw [List.append_assoc, List.drop_left, List.cons_append, List.cons_append] at hrun
  have hcomment := hrun.congr_before_mark (by decide) ('/' :: (y ++ [',']) ++ [])
  have hend := hcomment.trans (.skip (step_lineComment hy rfl) (.refl _ _))
  have hcomma := h.trans (.emit (w := []) (r := []) (step_comma []) (.refl _ _))
  rw [List.append_nil, List.append_nil] at hend
  have htext : x ++ '/' :: '/' :: y ++ [','] = x ++ '/' :: '/' :: (y ++ [',']) := by simp
  rw [htext] at hcomma
  have hsame := (lexFrom_of_run hcomma).symm.trans (lexFrom_of_run hend)
  rw [Except.ok.injEq] at hsame
  have hbounds := hrun.ordered.2.1 _ (hsame ▸ List.mem_append_right ts (List.mem_singleton_self _))
  have hlong : (x ++ '/' :: '/' :: y).length + 1 ≤ x.length := hbounds.2.2
  rw [List.length_append] at hlong
  omega

/-- The last token ends in front of the blanks `w`, and what stands between them is passed over. -/
theorem Run.exists_last_stop {q : Nat} (h : Run 0 (a ++ (w ++ r)) (ts ++ [t]) q r)
    (hw : ∀ x ∈ w, isBlank x = true) :
    ∃ b s, a = b ++ s ∧ t.stop = b.length ∧
      Run 0 (b ++ (s ++ (w ++ r))) (ts ++ [t]) t.stop (s ++ (w ++ r)) ∧ Run t.stop (s ++ (w ++ r)) [] q r := by
  obtain ⟨c, v, rest, hbefore, hstep, htext, hstop, hskip⟩ := h.split
  obtain ⟨behind, rfl, -⟩ := hskip.suffix
  obtain ⟨front, hfront, hfrontLength⟩ := hbefore.suffix
  have hboth : front ++ c :: v ++ behind = a ++ w := by
    have hall : front ++ c :: v ++ behind ++ r = a ++ w ++ r := by
      rw [List.append_assoc a, hfront]
      simp
    exact List.append_cancel_right hall
  rcases division_cases hboth with ⟨w', hne, hv, rfl⟩ | ⟨s, rfl, rfl⟩
  · -- The token does not end with a blank.
    obtain ⟨x, hx, hfirm⟩ := token_ends hstep
    have hlast : w'.getLast? = some x := by
      rw [← List.getLast?_append_of_ne_nil a hne, ← hv, List.getLast?_append, hx]
      rfl
    rw [hw x (List.mem_append_left _ (List.mem_of_getLast? hlast))] at hfirm
    cases hfirm
  rw [List.append_assoc s w r] at hskip hstep hbefore
  refine ⟨front ++ c :: v, s, rfl, ?_, ?_, hskip⟩
  · rw [hstop, hfrontLength, List.length_append, List.length_cons, Nat.zero_add, Nat.add_assoc]
  · have hemit := Run.emit (p := t.start) hstep (.refl _ _)
    rw [← htext, ← hstop] at hemit
    rw [← List.append_assoc]
    exact hbefore.trans hemit

/-- Blanks and comments begin with a mark or a blank, and behind that the text can be any other. -/
theorem Run.congr_passed {b s : List Char} {c : Char} (h : Run 0 (b ++ (c :: s ++ r)) ts p (c :: s ++ r))
    (hpassed : Run p (c :: s ++ r) [] q r) (u : List Char) : Run 0 (b ++ c :: u) ts p (c :: u) := by
  have hc : isBlank c = true ∨ c = '/' := by
    generalize hcs : c :: s ++ r = cs at hpassed
    cases hpassed with
    | refl =>
      have hlength := congrArg List.length hcs
      rw [List.cons_append, List.length_cons, List.length_append] at hlength
      omega
    | skip hstep _ =>
      obtain ⟨rfl, -⟩ := List.cons.inj hcs
      exact eq_of_step_none hstep
  refine h.congr_before_mark ?_ u
  rcases hc with hc | rfl
  · constructor <;> (rintro rfl; cases hc)
  · decide

variable {x y w₁ w₂ : List Char}

/-- Behind the two slashes of a comment, up to the end of the line, every place is in it. -/
theorem inLineComment_of_start (hstart : ∀ u, Run 0 (x ++ '/' :: u) ts x.length ('/' :: u)) (hy : '\n' ∉ y)
    (v : List Char) : InLineComment (x ++ '/' :: '/' :: y ++ v) (x ++ '/' :: '/' :: y).length := by
  have hdrop : (x ++ '/' :: '/' :: y ++ v).drop x.length = '/' :: '/' :: (y ++ v) := by
    rw [List.append_assoc, List.drop_left]
    rfl
  refine ⟨x.length, ts, ?_, ?_, ?_, ?_⟩
  · rw [hdrop, List.append_assoc]
    exact hstart _
  · rw [List.length_append]
    exact Nat.add_le_add_left (Nat.le_add_left 2 y.length) _
  · exact ⟨y ++ v, hdrop.symm⟩
  · rw [Text.slice_append_left (Nat.le_refl _), Text.slice, List.take_length, List.drop_left]
    simpa using hy

/-- Such a comment takes along what is put in front of the end of its line. -/
theorem Run.through_comment (hstart : ∀ u, Run 0 (x ++ '/' :: u) ts x.length ('/' :: u)) (hy : '\n' ∉ y)
    (hw₁ : '\n' ∉ w₁) (hw₂ : ∀ c ∈ w₂, isBlank c = true) {z : List Char} (hz : '\n' ∉ z) :
    Run 0 (x ++ '/' :: '/' :: y ++ (z ++ (w₁ ++ '\n' :: w₂ ++ r))) ts
      ((x ++ '/' :: '/' :: y).length + z.length + (w₁ ++ '\n' :: w₂).length) r := by
  have hline : '\n' ∉ y ++ (z ++ w₁) := by
    simp only [List.mem_append, not_or]
    exact ⟨hy, hz, hw₁⟩
  have hcomment : Run x.length ('/' :: ('/' :: (y ++ (z ++ w₁)) ++ ('\n' :: w₂ ++ r))) [] _ ('\n' :: w₂ ++ r) :=
    .skip (step_lineComment hline rfl) (.refl _ _)
  have hblank : ∀ c ∈ '\n' :: w₂, isBlank c = true := List.forall_mem_cons.mpr ⟨by decide, hw₂⟩
  have hblanks := run_blanks hblank (x.length + ('/' :: (y ++ (z ++ w₁))).length + 1) r
  have hall := (hstart _).trans (hcomment.trans hblanks)
  have hplace : (x ++ '/' :: '/' :: y).length + z.length + (w₁ ++ '\n' :: w₂).length =
      x.length + ('/' :: (y ++ (z ++ w₁))).length + 1 + ('\n' :: w₂).length := by
    simp only [List.length_append, List.length_cons]
    omega
  rw [List.append_nil, List.append_nil] at hall
  rw [hplace]
  simpa only [List.append_assoc, List.cons_append] using hall

/-- **What is put in front of the blanks `w`**, behind the last token: the lexer meets the tokens and goes on
with a calm text, or the place is in a comment that takes it along. -/
theorem Run.place_cases {q : Nat} (h : Run 0 (a ++ (w ++ r)) (ts ++ [t]) q r)
    (hw : ∀ x ∈ w, isBlank x = true) (hr : startsWith (· != '\n') r = true)
    (hquote : startsWith (· == '\'') r = false) (hfirm : ∀ x ∈ a.getLast?, isBlank x = false) :
    (¬ InLineComment (a ++ (w ++ r)) a.length ∧
        ∀ u, Calm u → startsWith (· == '/') u = false → Run 0 (a ++ u) (ts ++ [t]) a.length u) ∨
      InLineComment (a ++ (w ++ r)) a.length ∧
        ∀ x, '\n' ∉ x → Run 0 (a ++ (x ++ (w ++ r))) (ts ++ [t]) (a.length + x.length + w.length) r := by
  obtain ⟨b, s, rfl, hstop, htoken, hskip⟩ := h.exists_last_stop hw
  have hbehind : ∀ (c : Char) (rest : List Char), s = c :: rest → ∀ u,
      Run 0 (b ++ c :: u) (ts ++ [t]) t.stop (c :: u) := by
    rintro c rest rfl u
    rw [← List.append_assoc (c :: rest)] at htoken hskip
    exact htoken.congr_passed hskip u
  have hfirm' : ∀ x ∈ s.getLast?, isBlank x = false := by
    intro x hx
    refine hfirm x ?_
    rw [List.getLast?_append, hx]
    rfl
  rcases hskip.skip_cases hw hr hfirm' with hfree | ⟨x, y, w₁, w₂, rfl, hy, rfl, hw₁, hrun⟩
  · have hall : ∀ u, Calm u → startsWith (· == '/') u = false →
        Run 0 (b ++ s ++ u) (ts ++ [t]) (b ++ s).length u := by
      intro u hcalm hslash
      rw [List.append_assoc, List.length_append, ← hstop]
      have hpass := hfree u
      cases s with
      | nil =>
        have hquote' : startsWith (· == '\'') (w ++ r) = false := by
          cases w with
          | nil => exact hquote
          | cons d w =>
            refine beq_false_of_ne ?_
            rintro rfl
            cases hw '\'' List.mem_cons_self
        exact (htoken.cut_off hquote').congr_before_calm hcalm (fun _ => hslash) fun _ =>
          ⟨t, List.getLast?_concat, rfl⟩
      | cons c rest =>
        have hrun := (hbehind c rest rfl (rest ++ u)).trans hpass
        rwa [List.append_nil] at hrun
    exact .inl ⟨(hall [','] (.of_isCalm (by decide +kernel)) rfl).not_inLineComment _, hall⟩
  · have hstart : ∀ u, Run 0 (b ++ x ++ '/' :: u) (ts ++ [t]) (b ++ x).length ('/' :: u) := by
      intro u
      rw [List.length_append, ← hstop, List.append_assoc]
      have hrun' := hrun u
      cases x with
      | nil => exact hbehind '/' _ rfl u
      | cons c x =>
        have hall := (hbehind c _ rfl (x ++ '/' :: u)).trans hrun'
        rwa [List.append_nil] at hall
    rw [← List.append_assoc b]
    exact .inr ⟨inLineComment_of_start hstart hy _, fun z hz =>
      .through_comment hstart hy hw₁ (fun c hc => hw c (by simp [hc])) hz⟩

end Lexer

end ContractSync.Rust
