import ContractSync.Proofs.Rust.Move
import ContractSync.Proofs.Rust.Run

/-!
# Tokens of a text with another type in it

A part of a text that stands between a colon and a comma or a closing brace is replaced by another text.
**The tokens before and behind the part are those that were there, moved, and in between stand those of
the new text** (`tokenize_splice`): up to the colon nothing changes, what is passed over behind it is
passed over again, and the new text ends before a character that goes on no token.
-/

namespace ContractSync.Rust

/-- Where a position stands when a part of the text is replaced by another text of the given length. -/
def Span.replaced (s : Span) (length x : Nat) : Nat :=
  if x < s.stop then x else s.start + length + (x - s.stop)

theorem Span.replaced_before {s : Span} {x : Nat} (h : x < s.stop) (length : Nat) :
    s.replaced length x = x :=
  if_pos h

theorem Span.replaced_behind (s : Span) (length x : Nat) :
    s.replaced length (x + s.stop) = x + (s.start + length) := by
  rw [replaced, if_neg (by omega)]
  omega

/-- The part itself has the new length. -/
theorem Span.move_replaced {s : Span} (h : s.start < s.stop) (length : Nat) :
    s.move (s.replaced length) = ⟨s.start, s.start + length⟩ := by
  rw [move, replaced_before h, replaced, if_neg (Nat.lt_irrefl _), Nat.sub_self, Nat.add_zero]

theorem Token.move_shift_replaced (s : Span) (length : Nat) (t : Token) :
    (t.shift s.stop).move (s.replaced length) = t.shift (s.start + length) := by
  show Token.mk _ _ (s.replaced length (t.start + s.stop)) (s.replaced length (t.stop + s.stop)) = _
  rw [s.replaced_behind, s.replaced_behind]
  rfl

namespace Lexer

/-! ### Steps at the seams -/

theorem step_colon (rest : List Char) :
    step ':' rest = .ok ⟨some .punct, if startsWith (· == ':') rest then 1 else 0⟩ := by
  have hpair : startsWith (isPair ':') rest = startsWith (· == ':') rest := by
    cases rest with
    | nil => rfl
    | cons c rest => simp [startsWith, isPair]
  have hblank : Text.isBlank ':' = false := by decide
  have hident : isIdentStart ':' = false := by decide +kernel
  have hdigit : Text.isDigit ':' = false := by decide
  simp [step, tokenStep, rawMarker, hblank, hident, hdigit, hpair]

/-- Only blanks and comments are passed over. -/
theorem eq_of_step_none {c : Char} {rest : List Char} {n : Nat}
    (h : step c rest = .ok ⟨none, n⟩) : Text.isBlank c = true ∨ c = '/' := by
  unfold step at h
  split at h
  · rename_i hblank
    exact .inl hblank
  split at h
  · rename_i hslash
    exact .inr hslash.1
  split at h
  · rename_i hslash
    exact .inr hslash.1
  · exact absurd rfl (tokenStep_kind h)

theorem ne_newline_of_step_some {c : Char} {rest : List Char} {kind : TokenKind} {n : Nat}
    (h : step c rest = .ok ⟨some kind, n⟩) : c ≠ '\n' := by
  rintro rfl
  have hblank : Text.isBlank '\n' = true := by decide
  simp [step, hblank] at h

/-- The text before a comma or a closing brace begins with a calm character. -/
theorem Run.calm {p q : Nat} {cs rest : List Char} {t : Token} {ts : List Token}
    (h : Run p cs (t :: ts) q rest) (ht : t.isPunct "," = true ∨ t.isPunct "\x7d" = true) :
    Calm cs := by
  cases h with
  | skip hstep _ =>
    rcases eq_of_step_none hstep with hblank | rfl
    · exact .of_isBlank hblank
    · exact .of_isCalm (by decide +kernel)
  | @emit _ _ c w r _ kind _ hstep _ =>
    have hchar : c = ',' ∨ c = '\x7d' := by
      simp only [Token.isPunct, Bool.and_eq_true, beq_iff_eq] at ht
      rcases ht with ⟨-, ht⟩ | ⟨-, ht⟩
      · have := congrArg String.toList ht
        rw [String.toList_ofList] at this
        exact .inl (List.cons.inj this).1
      · have := congrArg String.toList ht
        rw [String.toList_ofList] at this
        exact .inr (List.cons.inj this).1
    rcases hchar with rfl | rfl
    · exact .of_isCalm (by decide +kernel)
    · exact .of_isCalm (by decide +kernel)

/-! ### The text around a part -/

/-- A text is cut at a colon (behind `a`), at the first token behind it (behind `k`) and where a part of
it ends (behind `u`); `front` and `back` are the tokens before the colon and behind the part. -/
structure Around (front back : List Token) (colon : Token) (a k u v : List Char) : Prop where
  before : Run 0 (a ++ ':' :: (k ++ (u ++ v))) front a.length (':' :: (k ++ (u ++ v)))
  colon : colon = ⟨.punct, ":", a.length, a.length + 1⟩
  single : startsWith (· == ':') (k ++ (u ++ v)) = false
  skipped : Run (a.length + 1) (k ++ (u ++ v)) [] (a.length + 1 + k.length) (u ++ v)
  line : startsWith (· != '\n') (u ++ v) = true
  nonempty : u ≠ []
  behind : Run (a.length + 1 + k.length + u.length) v back
    (a.length + 1 + k.length + u.length + v.length) []

/-- Where the tokens of a part stand between a colon and others, the text can be cut around them. -/
theorem exists_around {source : List Char} {span : Span} {front types back : List Token}
    {colon : Token} (h : tokenize source = .ok (front ++ colon :: (types ++ back)))
    (hcolon : colon.isPunct ":" = true)
    (hfirst : types.head?.map Token.start = some span.start)
    (hlast : types.getLast?.map Token.stop = some span.stop) :
    ∃ a k u v, source = a ++ ':' :: (k ++ (u ++ v)) ∧ span.start = a.length + 1 + k.length ∧
      span.stop = span.start + u.length ∧ Around front back colon a k u v := by
  obtain ⟨c, w, r, hbefore, hstep, htext, hstop, hafter⟩ := (run_of_lexFrom h).split
  simp only [Token.isPunct, Bool.and_eq_true, beq_iff_eq] at hcolon
  obtain ⟨rfl, rfl⟩ : c = ':' ∧ w = [] := by
    have hchars := congrArg String.toList (hcolon.2.symm.trans htext)
    rw [String.toList_ofList, String.toList_ofList] at hchars
    exact ⟨(List.cons.inj hchars).1.symm, (List.cons.inj hchars).2.symm⟩
  obtain ⟨a, rfl, ha⟩ := hbefore.suffix
  rw [Nat.zero_add] at ha
  obtain ⟨first, types', rfl⟩ : ∃ first types', types = first :: types' := by
    cases types with
    | nil => cases hfirst
    | cons first types' => exact ⟨first, types', rfl⟩
  -- The first token behind the colon starts the part.
  have hfirst' : first.start = span.start := Option.some.inj hfirst
  have hafter' : Run colon.stop r ([] ++ first :: (types' ++ back)) _ [] := hafter
  obtain ⟨c, w, r', hskip, hstep', -, -, -⟩ := hafter'.split
  obtain ⟨k, rfl, hstart⟩ := hskip.suffix
  obtain ⟨_, hvs, hpart⟩ := hskip.cancel hafter
  rw [List.nil_append] at hvs
  subst hvs
  -- The last token of the part ends it.
  obtain ⟨last, hlast, hlast'⟩ := Option.map_eq_some_iff.mp hlast
  obtain ⟨inner, htypes⟩ := List.getLast?_eq_some_iff.mp hlast
  rw [htypes, List.append_assoc] at hpart
  obtain ⟨c', w', v, hinner, -, -, hend, hbehind⟩ := hpart.split
  obtain ⟨b, hb, hlaststart⟩ := hinner.suffix
  have hu : c :: (w ++ r') = (b ++ c' :: w') ++ v := by
    rw [hb]
    simp
  rw [hu] at hskip hbefore hstep h hinner hafter hbehind ⊢
  rw [List.nil_append] at hbefore hstep
  have hstop' : colon.stop = a.length + 1 := by rw [hstop, ha]; rfl
  have hstart' : span.start = a.length + 1 + k.length := by rw [← hfirst', hstart, hstop']
  have hspan : span.stop = span.start + (b ++ c' :: w').length := by
    rw [← hlast', hend, hlaststart, hfirst', List.length_append, List.length_cons]
    omega
  refine ⟨a, k, b ++ c' :: w', v, rfl, hstart', hspan, ?_, ?_, ?_, ?_, ?_, by simp, ?_⟩
  · rwa [ha] at hbefore
  · have hparts : colon = ⟨colon.kind, colon.text, colon.start, colon.stop⟩ := rfl
    rwa [hcolon.1, hcolon.2, ha, hstop'] at hparts
  · rw [step_colon, Except.ok.injEq, Step.mk.injEq] at hstep
    rw [← Bool.not_eq_true]
    intro hcolons
    rw [if_pos hcolons] at hstep
    exact absurd hstep.2 (by decide)
  · rwa [hstop', hfirst', hstart'] at hskip
  · rw [← hu, startsWith]
    simpa using ne_newline_of_step_some hstep'
  · rw [hlast', hspan, hstart'] at hbehind
    obtain ⟨x, hx, hq⟩ := hbehind.suffix
    rw [List.append_nil] at hx
    subst hx
    rw [hq] at hbehind
    exact hbehind

end Lexer

/-- The text begins and ends with a token, and neither joins with a colon in front or a comment
behind. -/
structure StandsAlone (text : List Char) (inserted : List Token) : Prop where
  tokens : tokenize text = .ok inserted
  first : inserted.head?.map Token.start = some 0
  last : inserted.getLast?.map Token.stop = some text.length
  colon : text.head? ≠ some ':'
  slash : text.getLast? ≠ some '/'

open Lexer

/-- **The tokens around a part that is replaced are those that were there, moved.** -/
theorem tokenize_splice {source new : List Char} {span : Span} {front types back inserted : List Token}
    {colon : Token} (h : tokenize source = .ok (front ++ colon :: (types ++ back)))
    (hcolon : colon.isPunct ":" = true)
    (hfirst : types.head?.map Token.start = some span.start)
    (hlast : types.getLast?.map Token.stop = some span.stop)
    (hback : ∃ t rest, back = t :: rest ∧ (t.isPunct "," = true ∨ t.isPunct "\x7d" = true))
    (hnew : StandsAlone new inserted) :
    tokenize (Text.splice source span.start span.stop new) =
      .ok (front.map (·.move (span.replaced new.length)) ++ colon.move (span.replaced new.length) ::
        (inserted.map (Token.shift span.start) ++
          back.map (·.move (span.replaced new.length)))) := by
  obtain ⟨a, k, u, v, rfl, hstart, hstop, hcut⟩ := exists_around h hcolon hfirst hlast
  obtain ⟨t, more, rfl, ht⟩ := hback
  have hcalm : Calm v := hcut.behind.calm ht
  have hne : new ≠ [] := by
    rintro rfl
    have htokens := hnew.tokens
    rw [tokenize, lexFrom] at htokens
    cases htokens
    cases hnew.first
  have hsplice : Text.splice (a ++ ':' :: (k ++ (u ++ v))) span.start span.stop new =
      a ++ ':' :: (k ++ (new ++ v)) := by
    have hhead : a ++ ':' :: (k ++ (u ++ v)) = (a ++ ':' :: k) ++ (u ++ v) := by simp
    have htail : a ++ ':' :: (k ++ (u ++ v)) = (a ++ ':' :: (k ++ u)) ++ v := by simp
    rw [Text.splice, hstop, hstart]
    conv =>
      enter [1, 2]
      rw [htail]
    rw [hhead, List.take_left' (by simp; omega), List.drop_left' (by simp; omega)]
    simp
  -- Up to the colon.
  have hbefore := hcut.before.congr_before_mark (by decide) (k ++ (new ++ v))
  -- The colon.
  have hsingle : startsWith (· == ':') (k ++ (new ++ v)) = false := by
    cases k with
    | nil =>
      obtain ⟨x, new', rfl⟩ := List.exists_cons_of_ne_nil hne
      have hx : x ≠ ':' := fun h => hnew.colon (by rw [h]; rfl)
      simpa [startsWith] using hx
    | cons x k => exact hcut.single
  have hcolon' : Run a.length (':' :: (k ++ (new ++ v))) [colon] (a.length + 1)
      (k ++ (new ++ v)) := by
    have hstep := step_colon (k ++ (new ++ v))
    rw [hsingle] at hstep
    have hemit := Run.emit (p := a.length) (w := []) hstep (.refl _ _)
    rwa [hcut.colon]
  -- Over to the new text.
  have hskipped := hcut.skipped.congr_skip hcut.line (new ++ v)
  rw [← hstart] at hskipped
  -- The new text.
  have hnew' : Run span.start (new ++ v) (inserted.map (Token.shift span.start))
      (span.start + new.length) v := by
    have hrun := (run_of_lexFrom hnew.tokens).congr_before_calm hcalm
      (fun h => absurd h hnew.slash) fun _ => by
        obtain ⟨last, hlast, hstop⟩ := Option.map_eq_some_iff.mp hnew.last
        exact ⟨last, hlast, by rw [hstop, Nat.zero_add]⟩
    have hshift := hrun.shift span.start
    rwa [Nat.zero_add, Nat.zero_add, Nat.add_comm] at hshift
  -- What is behind it.
  have hbehind : ∃ q, Run (span.start + new.length) v
      ((t :: more).map (·.move (span.replaced new.length))) q [] := by
    have hrun := hcut.behind
    rw [← hstart, ← hstop, ← Nat.zero_add span.stop] at hrun
    obtain ⟨us, s, hrun, hus, -⟩ := hrun.unshift
    have hshift := hrun.shift (span.start + new.length)
    rw [Nat.zero_add] at hshift
    have hmoved : us.map (Token.shift (span.start + new.length)) =
        (t :: more).map (·.move (span.replaced new.length)) := by
      rw [hus, List.map_map]
      exact List.map_congr_left fun x _ => (x.move_shift_replaced span new.length).symm
    rw [← hmoved]
    exact ⟨_, hshift⟩
  obtain ⟨q, hbehind⟩ := hbehind
  -- In front of the part nothing moves.
  have hpos : 0 < u.length := List.length_pos_iff.mpr hcut.nonempty
  have hfront : front.map (·.move (span.replaced new.length)) = front := by
    refine (List.map_congr_left fun x hx => ?_).trans (List.map_id front)
    have := hcut.before.ordered.2.1 x hx
    exact Token.move_eq_self (Span.replaced_before (by omega) _)
      (Span.replaced_before (by omega) _)
  have hcolonstays : colon.move (span.replaced new.length) = colon := by
    rw [hcut.colon]
    exact Token.move_eq_self (Span.replaced_before (by simp only; omega) _)
      (Span.replaced_before (by simp only; omega) _)
  rw [hsplice, hfront, hcolonstays]
  have hrun := hbefore.trans (hcolon'.trans (hskipped.trans (hnew'.trans hbehind)))
  exact lexFrom_of_run hrun

end ContractSync.Rust
