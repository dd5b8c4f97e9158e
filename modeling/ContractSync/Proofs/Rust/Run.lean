import ContractSync.Proofs.Outcome
import ContractSync.Proofs.Rust.LexStep

/-!
# Runs of the lexer

`Run p cs ts q rest` says that the lexer, at position `p` before the text `cs`, comes to position `q`
before `rest` and has met the tokens `ts` on the way. Lexing a text is a run to its end
(`lexFrom_iff_run`). A run can be cut at every token (`Run.split`) and moved to another position
(`Run.shift`, `Run.unshift`).

**What a run meets does not depend on what comes after it**, with some care for the place where it
ends: up to a colon or the end of a line (`Run.congr_before_mark`), over blanks and comments
(`Run.congr_skip`), and before a calm text (`Run.congr_before_calm`).
-/

namespace ContractSync.Rust.Lexer

/-- The steps of the lexer from one place of the text to another. -/
inductive Run : Nat → List Char → List Token → Nat → List Char → Prop where
  | refl (p : Nat) (cs : List Char) : Run p cs [] p cs
  | skip {p q : Nat} {c : Char} {w r rest : List Char} {ts : List Token}
      (h : step c (w ++ r) = .ok ⟨none, w.length⟩) (t : Run (p + w.length + 1) r ts q rest) :
      Run p (c :: (w ++ r)) ts q rest
  | emit {p q : Nat} {c : Char} {w r rest : List Char} {kind : TokenKind} {ts : List Token}
      (h : step c (w ++ r) = .ok ⟨some kind, w.length⟩)
      (t : Run (p + w.length + 1) r ts q rest) :
      Run p (c :: (w ++ r))
        (⟨kind, String.ofList (c :: w), p, p + w.length + 1⟩ :: ts) q rest

theorem run_of_lexFrom {p : Nat} {cs : List Char} {ts : List Token}
    (h : lexFrom p cs = .ok ts) : Run p cs ts (p + cs.length) [] := by
  induction hn : cs.length using Nat.strongRecOn generalizing p cs ts with
  | ind n ih =>
    cases cs with
    | nil =>
      rw [lexFrom] at h
      cases h
      subst hn
      exact .refl p []
    | cons c rest =>
      rw [lexFrom] at h
      cases hs : step c rest with
      | error failure =>
        rw [hs] at h
        cases h
      | ok found =>
        obtain ⟨kind, further⟩ := found
        obtain ⟨w, r, rfl, rfl⟩ : ∃ w r, rest = w ++ r ∧ w.length = further :=
          ⟨rest.take further, rest.drop further, (List.take_append_drop ..).symm,
            by rw [List.length_take]; exact Nat.min_eq_left (step_further_le hs)⟩
        simp only [hs, List.drop_left, List.take_left] at h
        rw [List.length_cons, List.length_append] at hn
        rw [show p + n = p + w.length + 1 + r.length by omega]
        cases kind with
        | none => exact .skip hs (ih r.length (by omega) h rfl)
        | some kind =>
          obtain ⟨us, hus, rfl⟩ := map_eq_ok.mp h
          exact .emit hs (ih r.length (by omega) hus rfl)

/-- A text has the tokens that a run meets, and behind them those of the text that it comes to. -/
theorem Run.lexFrom_eq {p q : Nat} {cs rest : List Char} {ts : List Token} (h : Run p cs ts q rest) :
    lexFrom p cs = (lexFrom q rest).map (ts ++ ·) := by
  have hmap : ∀ {us : List Token} (found : Except Failure (List Token)) (t : Token),
      (found.map (us ++ ·)).map (t :: ·) = found.map (t :: us ++ ·) := fun found _ => by
    cases found <;> rfl
  induction h with
  | refl p cs => cases lexFrom p cs <;> rfl
  | skip h t ih =>
    rw [lexFrom, h]
    simp only [List.drop_left]
    exact ih
  | emit h t ih =>
    rw [lexFrom, h]
    simp only [List.drop_left, List.take_left]
    rw [ih, hmap]

theorem lexFrom_of_run {p q : Nat} {cs : List Char} {ts : List Token} (h : Run p cs ts q []) :
    lexFrom p cs = .ok ts := by
  rw [h.lexFrom_eq, lexFrom]
  exact congrArg Except.ok (List.append_nil ts)

/-- Lexing a text is a run to its end. -/
theorem lexFrom_iff_run {p : Nat} {cs : List Char} {ts : List Token} :
    lexFrom p cs = .ok ts ↔ Run p cs ts (p + cs.length) [] :=
  ⟨run_of_lexFrom, lexFrom_of_run⟩

/-! ### Where a run leads -/

theorem Run.suffix {p q : Nat} {cs rest : List Char} {ts : List Token} (h : Run p cs ts q rest) :
    ∃ a, cs = a ++ rest ∧ q = p + a.length := by
  induction h with
  | refl p cs => exact ⟨[], rfl, rfl⟩
  | @skip p q c w r rest ts h t ih =>
    obtain ⟨a, rfl, rfl⟩ := ih
    exact ⟨c :: (w ++ a), by simp, by simp; omega⟩
  | @emit p q c w r rest kind ts h t ih =>
    obtain ⟨a, rfl, rfl⟩ := ih
    exact ⟨c :: (w ++ a), by simp, by simp; omega⟩

theorem Run.trans {p q s : Nat} {cs rest rest' : List Char} {ts us : List Token}
    (h : Run p cs ts q rest) (h' : Run q rest us s rest') : Run p cs (ts ++ us) s rest' := by
  induction h with
  | refl => exact h'
  | skip h _ ih => exact .skip h (ih h')
  | emit h _ ih => exact .emit h (ih h')

/-- The first step of a run to the end is what `step` says. -/
theorem Run.first_step {p s : Nat} {c : Char} {w r : List Char} {us : List Token}
    {kind : Option TokenKind} (h : step c (w ++ r) = .ok ⟨kind, w.length⟩)
    (h' : Run p (c :: (w ++ r)) us s []) :
    ∃ vs, us = (kind.map fun k => ⟨k, String.ofList (c :: w), p, p + w.length + 1⟩).toList ++ vs ∧
      Run (p + w.length + 1) r vs s [] := by
  generalize hcs : c :: (w ++ r) = cs at h'
  cases h' with
  | refl => cases hcs
  | @skip _ _ c' w' r' _ _ h₂ t₂ =>
    obtain ⟨rfl, hrest⟩ := List.cons.inj hcs
    rw [← hrest, h] at h₂
    simp only [Except.ok.injEq, Step.mk.injEq] at h₂
    obtain ⟨rfl, rfl⟩ := List.append_inj hrest h₂.2
    rw [h₂.1]
    exact ⟨us, rfl, t₂⟩
  | @emit _ _ c' w' r' _ k vs h₂ t₂ =>
    obtain ⟨rfl, hrest⟩ := List.cons.inj hcs
    rw [← hrest, h] at h₂
    simp only [Except.ok.injEq, Step.mk.injEq] at h₂
    obtain ⟨rfl, rfl⟩ := List.append_inj hrest h₂.2
    rw [h₂.1]
    exact ⟨vs, rfl, t₂⟩

/-- A run to the end goes on from every place that a run leads to. -/
theorem Run.cancel {p q s : Nat} {cs rest : List Char} {ts us : List Token}
    (h : Run p cs ts q rest) (h' : Run p cs us s []) :
    ∃ vs, us = ts ++ vs ∧ Run q rest vs s [] := by
  induction h generalizing us with
  | refl => exact ⟨us, rfl, h'⟩
  | skip h t ih =>
    obtain ⟨vs, rfl, hvs⟩ := h'.first_step h
    exact ih hvs
  | emit h t ih =>
    obtain ⟨vs, rfl, hvs⟩ := h'.first_step h
    obtain ⟨more, rfl, hmore⟩ := ih hvs
    exact ⟨more, rfl, hmore⟩

/-- A run can be cut before and behind every token. -/
theorem Run.split {p q : Nat} {cs rest : List Char} {ts us : List Token} {t : Token}
    (h : Run p cs (ts ++ t :: us) q rest) :
    ∃ c w r, Run p cs ts t.start (c :: (w ++ r)) ∧
      step c (w ++ r) = .ok ⟨some t.kind, w.length⟩ ∧ t.text = String.ofList (c :: w) ∧
      t.stop = t.start + w.length + 1 ∧ Run t.stop r us q rest := by
  generalize hall : ts ++ t :: us = all at h
  induction h generalizing ts with
  | refl => simp at hall
  | @skip p q c w r rest vs h t' ih =>
    obtain ⟨d, v, r', hrun, hstep⟩ := ih hall
    exact ⟨d, v, r', .skip h hrun, hstep⟩
  | @emit p q c w r rest kind vs h t' ih =>
    cases ts with
    | nil =>
      cases hall
      exact ⟨c, w, r, .refl _ _, h, rfl, rfl, t'⟩
    | cons u ts =>
      rw [List.cons_append, List.cons.injEq] at hall
      obtain ⟨rfl, hall⟩ := hall
      obtain ⟨d, v, r', hrun, hstep⟩ := ih hall
      exact ⟨d, v, r', .emit h hrun, hstep⟩

theorem Run.eq_drop {q : Nat} {cs rest : List Char} {ts : List Token} (h : Run 0 cs ts q rest) :
    rest = cs.drop q := by
  obtain ⟨a, rfl, rfl⟩ := h.suffix
  rw [Nat.zero_add, List.drop_left]

/-- The run up to a token and the run from there. -/
theorem Run.cut_before {q : Nat} {cs rest : List Char} {ts us : List Token} {t : Token}
    (h : Run 0 cs (ts ++ t :: us) q rest) :
    Run 0 cs ts t.start (cs.drop t.start) ∧ Run t.start (cs.drop t.start) (t :: us) q rest := by
  obtain ⟨c, w, r, hbefore, hstep, htext, hstop, hbehind⟩ := h.split
  have hdrop := hbefore.eq_drop
  rw [hstop] at hbehind
  have hfrom := Run.emit hstep hbehind
  rw [← htext, ← hstop, hdrop] at hfrom
  exact ⟨hdrop ▸ hbefore, hfrom⟩

/-- The run behind a token and the run from there. -/
theorem Run.cut_behind {q : Nat} {cs rest : List Char} {ts us : List Token} {t : Token}
    (h : Run 0 cs (ts ++ t :: us) q rest) :
    Run 0 cs (ts ++ [t]) t.stop (cs.drop t.stop) ∧ Run t.stop (cs.drop t.stop) us q rest := by
  obtain ⟨c, w, r, hbefore, hstep, htext, hstop, hbehind⟩ := h.split
  have htoken : Run t.start (c :: (w ++ r)) [t] t.stop r := by
    have hemit := Run.emit (p := t.start) hstep (.refl _ r)
    rwa [← htext, ← hstop] at hemit
  have hup := hbefore.trans htoken
  have hdrop := hup.eq_drop
  rw [hdrop] at hup hbehind
  exact ⟨hup, hbehind⟩

/-- A token stands in the text where it starts. -/
theorem Run.getElem?_start {p q : Nat} {cs rest : List Char} {ts : List Token} {t : Token}
    (h : Run p cs ts q rest) (ht : t ∈ ts) : cs[t.start - p]? = t.text.toList.head? := by
  obtain ⟨front, back, rfl⟩ := List.append_of_mem ht
  obtain ⟨c, w, r, hrun, -, htext, -, -⟩ := h.split
  obtain ⟨a, rfl, hstart⟩ := hrun.suffix
  rw [hstart, htext, String.toList_ofList, Nat.add_sub_cancel_left, List.getElem?_append_right
    (Nat.le_refl _), Nat.sub_self]
  rfl

theorem Run.stop_eq {p q : Nat} {cs rest : List Char} {ts : List Token} {t : Token}
    (h : Run p cs ts q rest) (ht : t ∈ ts) : t.stop = t.start + t.text.toList.length := by
  obtain ⟨front, back, rfl⟩ := List.append_of_mem ht
  obtain ⟨c, w, r, -, -, htext, hstop, -⟩ := h.split
  rw [hstop, htext, String.toList_ofList, List.length_cons, Nat.add_assoc]

/-! ### Positions -/

theorem Run.shift {p q : Nat} {cs rest : List Char} {ts : List Token} (h : Run p cs ts q rest)
    (d : Nat) : Run (p + d) cs (ts.map (Token.shift d)) (q + d) rest := by
  induction h with
  | refl p cs => exact .refl _ _
  | @skip p q c w r rest ts h t ih =>
    rw [show p + w.length + 1 + d = p + d + w.length + 1 by omega] at ih
    exact .skip h ih
  | @emit p q c w r rest kind ts h t ih =>
    rw [show p + w.length + 1 + d = p + d + w.length + 1 by omega] at ih
    have hemit := Run.emit h ih
    rw [show p + d + w.length + 1 = p + w.length + 1 + d by omega] at hemit
    exact hemit

theorem Run.unshift {p q d : Nat} {cs rest : List Char} {ts : List Token}
    (h : Run (p + d) cs ts q rest) :
    ∃ us s, Run p cs us s rest ∧ ts = us.map (Token.shift d) ∧ q = s + d := by
  generalize hpd : p + d = pd at h
  induction h generalizing p with
  | refl => exact ⟨[], p, .refl _ _, rfl, hpd.symm⟩
  | @skip pd q c w r rest ts h t ih =>
    obtain ⟨us, s, hrun, hus, hs⟩ := @ih (p + w.length + 1) (by omega)
    exact ⟨us, s, .skip h hrun, hus, hs⟩
  | @emit pd q c w r rest kind ts h t ih =>
    obtain ⟨us, s, hrun, rfl, hs⟩ := @ih (p + w.length + 1) (by omega)
    refine ⟨_, s, .emit h hrun, ?_, hs⟩
    rw [List.map_cons, List.cons.injEq]
    refine ⟨?_, rfl⟩
    rw [Token.shift, Token.mk.injEq]
    refine ⟨rfl, rfl, hpd.symm, ?_⟩
    show pd + w.length + 1 = p + w.length + 1 + d
    omega

/-- The tokens of a run stand one behind the other, between its ends. -/
theorem Run.ordered {p q : Nat} {cs rest : List Char} {ts : List Token} (h : Run p cs ts q rest) :
    p ≤ q ∧ (∀ t ∈ ts, p ≤ t.start ∧ t.start < t.stop ∧ t.stop ≤ q) ∧
      ts.Pairwise fun t u => t.stop ≤ u.start := by
  induction h with
  | refl p cs => exact ⟨Nat.le_refl p, by simp, .nil⟩
  | @skip p q c w r rest ts h t ih =>
    obtain ⟨hle, hall, hpair⟩ := ih
    refine ⟨by omega, fun u hu => ?_, hpair⟩
    have := hall u hu
    omega
  | @emit p q c w r rest kind ts h t ih =>
    obtain ⟨hle, hall, hpair⟩ := ih
    refine ⟨by omega, ?_, List.pairwise_cons.mpr ⟨fun u hu => (hall u hu).1, hpair⟩⟩
    rw [List.forall_mem_cons]
    refine ⟨⟨Nat.le_refl p, ?_, hle⟩, fun u hu => ?_⟩
    · show p < p + w.length + 1
      omega
    · have := hall u hu
      omega

/-- No two tokens of a run start in the same place. -/
theorem Run.start_nodup {p q : Nat} {cs rest : List Char} {ts : List Token}
    (h : Run p cs ts q rest) : (ts.map Token.start).Nodup := by
  obtain ⟨-, hall, hpair⟩ := h.ordered
  refine List.pairwise_map.mpr (hpair.imp_of_mem fun ht _ hbefore => ?_)
  have := hall _ ht
  omega

/-! ### Before another text -/

/-- What two texts share, cut behind a step of a run to the end of what they share. -/
theorem Run.cut {p q : Nat} {c : Char} {a w r rest : List Char} {ts : List Token}
    (h : Run p r ts q rest) (hcs : c :: (w ++ r) = a ++ rest) :
    ∃ b, a = c :: (w ++ b) ∧ r = b ++ rest := by
  obtain ⟨b, rfl, -⟩ := h.suffix
  refine ⟨b, ?_, rfl⟩
  rw [← List.append_assoc, ← List.cons_append] at hcs
  exact (List.append_cancel_right hcs).symm

/-- A step is the same whatever comes behind a mark, if the mark is no hash mark and no point. -/
theorem step_before_mark {c m : Char} {w b u u' : List Char} {kind : Option TokenKind}
    (h : step c (w ++ (b ++ m :: u)) = .ok ⟨kind, w.length⟩) (hm : m ≠ '#' ∧ m ≠ '.') :
    step c (w ++ (b ++ m :: u')) = .ok ⟨kind, w.length⟩ := by
  have hmark : ∀ u, b ++ m :: u = (b ++ [m]) ++ u := by simp
  have hne : b ++ [m] ≠ [] := by simp
  have hquiet : Quieter c (b ++ m :: u) (b ++ m :: u') := by
    rw [hmark u, hmark u']
    refine Quieter.of_append hne ?_ u u'
    rwa [List.getLast_concat]
  have hhead : ∀ p, startsWith p (b ++ m :: u') = startsWith p (b ++ m :: u) := by
    intro p
    rw [hmark u, hmark u', startsWith_append hne, startsWith_append hne]
  exact step_congr h hquiet (fun _ _ h' => hhead _ ▸ h') (fun _ h' => hhead _ ▸ h')

/-- A run up to a mark is the same whatever comes behind the mark. -/
theorem Run.congr_before_mark {p q : Nat} {m : Char} {a u : List Char} {ts : List Token}
    (h : Run p (a ++ m :: u) ts q (m :: u)) (hm : m ≠ '#' ∧ m ≠ '.') (u' : List Char) :
    Run p (a ++ m :: u') ts q (m :: u') := by
  generalize hcs : a ++ m :: u = cs at h
  generalize hrest : m :: u = rest at h
  induction h generalizing a with
  | refl p cs =>
    subst hrest
    obtain rfl : a = [] := by simpa using hcs
    exact .refl _ _
  | @skip p q c w r rest ts h t ih =>
    subst hrest
    obtain ⟨b, rfl, rfl⟩ := t.cut hcs.symm
    rw [List.cons_append, List.append_assoc]
    exact .skip (step_before_mark h hm) (ih rfl rfl)
  | @emit p q c w r rest kind ts h t ih =>
    subst hrest
    obtain ⟨b, rfl, rfl⟩ := t.cut hcs.symm
    rw [List.cons_append, List.append_assoc]
    exact .emit (step_before_mark h hm) (ih rfl rfl)

/-- What a run passes over without a token it passes over before any text, if the first text does not
begin with the end of a line. -/
theorem Run.congr_skip {p q : Nat} {a u : List Char} (h : Run p (a ++ u) [] q u)
    (hline : startsWith (· != '\n') u = true) (u' : List Char) :
    Run p (a ++ u') [] q u' := by
  generalize hcs : a ++ u = cs at h
  generalize hts : ([] : List Token) = ts at h
  induction h generalizing a with
  | refl p cs =>
    obtain rfl : a = [] := by simpa using hcs
    exact .refl _ _
  | @skip p q c w r u ts h t ih =>
    obtain ⟨b, rfl, rfl⟩ := t.cut hcs.symm
    rw [List.cons_append, List.append_assoc]
    refine .skip (skip_congr h fun h' => ?_) (ih hline rfl hts)
    cases b with
    | nil => exact hline
    | cons x b => exact h'
  | emit => cases hts

theorem Run.of_nil {p q : Nat} {rest : List Char} {ts : List Token} (h : Run p [] ts q rest) :
    ts = [] ∧ q = p ∧ rest = [] := by
  cases h
  exact ⟨rfl, rfl, rfl⟩

/-- A step is the same before a calm text, with a slash and the end of a line in their places. -/
theorem step_before_calm {c : Char} {w r u : List Char} {kind : Option TokenKind}
    (h : step c (w ++ r) = .ok ⟨kind, w.length⟩) (hcalm : Calm u)
    (hslash : (c :: (w ++ r)).getLast? = some '/' → startsWith (· == '/') u = false)
    (hline : kind = none → r = [] → startsWith (· != '\n') u = false) :
    step c (w ++ (r ++ u)) = .ok ⟨kind, w.length⟩ := by
  refine step_congr h (Quieter.of_calm hcalm r) ?_ ?_
  · rintro rfl rfl h'
    cases r with
    | nil =>
      rw [List.nil_append, hslash rfl] at h'
      cases h'
    | cons x r => exact h'
  · intro hkind h'
    cases r with
    | nil =>
      rw [List.nil_append, hline hkind rfl] at h'
      cases h'
    | cons x r => exact h'

/-- A run to the end of a text is the same before a calm text. A slash must not meet another one, and a
comment at the end needs the end of its line. -/
theorem Run.congr_before_calm {p q : Nat} {a u : List Char} {ts : List Token}
    (h : Run p a ts q []) (hcalm : Calm u)
    (hslash : a.getLast? = some '/' → startsWith (· == '/') u = false)
    (hline : startsWith (· != '\n') u = true → ∃ t, ts.getLast? = some t ∧ t.stop = q) :
    Run p (a ++ u) ts q u := by
  generalize hrest : ([] : List Char) = rest at h
  induction h with
  | refl p cs =>
    subst hrest
    exact .refl _ _
  | @skip p q c w r rest ts h t ih =>
    subst hrest
    have hslash' : r.getLast? = some '/' → startsWith (· == '/') u = false := by
      intro hlast
      apply hslash
      rw [← List.cons_append, List.getLast?_append, hlast]
      rfl
    rw [List.cons_append, List.append_assoc]
    refine .skip (step_before_calm h hcalm hslash fun _ hr => ?_) (ih hslash' hline rfl)
    rw [← Bool.not_eq_true]
    intro h'
    obtain ⟨u, hlast, -⟩ := hline h'
    subst hr
    rw [t.of_nil.1] at hlast
    cases hlast
  | @emit p q c w r rest kind ts h t ih =>
    subst hrest
    have hslash' : r.getLast? = some '/' → startsWith (· == '/') u = false := by
      intro hlast
      apply hslash
      rw [← List.cons_append, List.getLast?_append, hlast]
      rfl
    rw [List.cons_append, List.append_assoc]
    have hstep := step_before_calm h hcalm hslash nofun
    by_cases hr : r = []
    · subst hr
      obtain ⟨rfl, rfl, -⟩ := t.of_nil
      exact .emit hstep (.refl _ _)
    · refine .emit hstep (ih hslash' (fun h' => ?_) rfl)
      obtain ⟨v, hlast, hstop⟩ := hline h'
      cases ts with
      | cons v' ts => exact ⟨v, hlast, hstop⟩
      | nil =>
        -- The last token cannot end where the run does: there is text behind it.
        obtain ⟨b, rfl, rfl⟩ := t.suffix
        cases hlast
        rw [List.append_nil] at hr
        have : b.length ≠ 0 := fun h' => hr (List.length_eq_zero_iff.mp h')
        change p + w.length + 1 = _ at hstop
        omega

end ContractSync.Rust.Lexer
