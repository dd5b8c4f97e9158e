import ContractSync.Proofs.Rust.Run
import ContractSync.Proofs.Text.Parts
import ContractSync.Rust.Node

/-!
# Lexing loses nothing

Blanks and comments are trivia (`IsTrivia`); a block comment holds complete comments only
(`IsCommentRest`). The tokens of a text stand one behind the other, each one is the part of the text that
it covers, and **what they leave uncovered is trivia** (`IsCovering`). A text without tokens has an opening
that nothing closes, and the failure shows there (`IsOpening`). One of the two is the case for every text
(`tokenize_lossless`).
-/

namespace ContractSync.Rust

namespace Lexer

open ContractSync.Text (isBlank slice)

/-! ### Comments -/

/-- A mark that opens or closes a block comment begins the text. -/
def StartsMark (cs : List Char) : Prop := ['/', '*'] <+: cs ∨ ['*', '/'] <+: cs

/-- A block comment from behind its opening mark on, up to and with its closing mark. Comments in it are
complete. -/
inductive IsCommentRest : List Char → Prop
  | close : IsCommentRest ['*', '/']
  | char {c : Char} {rest : List Char} (hmark : ¬ StartsMark (c :: rest)) (h : IsCommentRest rest) :
      IsCommentRest (c :: rest)
  | nested {inner rest : List Char} (hinner : IsCommentRest inner) (h : IsCommentRest rest) :
      IsCommentRest ('/' :: '*' :: (inner ++ rest))

/-- The rests of so many comments, each of them inside the next one. -/
inductive IsCommentRests : Nat → List Char → Prop
  | nil : IsCommentRests 0 []
  | cons {depth : Nat} {a b : List Char} (ha : IsCommentRest a) (hb : IsCommentRests depth b) :
      IsCommentRests (depth + 1) (a ++ b)

/-- A comment may be opened in front of the rests of others, where its own rest comes first. -/
theorem IsCommentRests.opened {depth : Nat} {cs : List Char} (h : IsCommentRests (depth + 1) cs)
    (hdepth : 0 < depth) : IsCommentRests depth ('/' :: '*' :: cs) := by
  cases h with
  | cons ha hb =>
    cases hb with
    | nil => exact absurd hdepth (Nat.lt_irrefl 0)
    | cons hb hrest =>
      rw [← List.append_assoc, ← List.cons_append, ← List.cons_append]
      exact .cons (.nested ha hb) hrest

theorem IsCommentRests.char {depth : Nat} {c : Char} {cs : List Char} (h : IsCommentRests depth cs)
    (hdepth : 0 < depth) (hmark : ¬ StartsMark (c :: cs)) : IsCommentRests depth (c :: cs) := by
  cases h with
  | nil => exact absurd hdepth (Nat.lt_irrefl 0)
  | @cons depth a b ha hb =>
    rw [← List.cons_append]
    refine .cons (.char (fun h => hmark ?_) ha) hb
    have hprefix : c :: a <+: c :: (a ++ b) := by simp
    exact h.imp (·.trans hprefix) (·.trans hprefix)

/-- Up to where a comment ends, the text closes as many comments as were open. -/
theorem isCommentRests_of_commentLength {depth n : Nat} {cs : List Char}
    (h : commentLength depth cs = some n) (hdepth : 0 < depth) :
    IsCommentRests depth (cs.take n) := by
  fun_induction commentLength depth cs generalizing n with
  | case1 depth rest ih =>
    obtain ⟨m, hm, rfl⟩ := Option.map_eq_some_iff.mp h
    exact (ih hm (Nat.succ_pos depth)).opened hdepth
  | case2 depth rest hone =>
    cases h
    obtain rfl : depth = 1 := by omega
    exact .cons .close .nil
  | case3 depth rest hmore ih =>
    obtain ⟨m, hm, rfl⟩ := Option.map_eq_some_iff.mp h
    have hrest := IsCommentRests.cons .close (ih hm (by omega))
    rwa [Nat.sub_add_cancel (by omega)] at hrest
  | case4 depth c rest hopen hclose ih =>
    obtain ⟨m, hm, rfl⟩ := Option.map_eq_some_iff.mp h
    refine (ih hm hdepth).char hdepth fun hmark => ?_
    have hprefix : c :: rest.take m <+: c :: rest := by simpa using List.take_prefix m rest
    rcases hmark.imp (·.trans hprefix) (·.trans hprefix) with ⟨more, h⟩ | ⟨more, h⟩
    · obtain ⟨hc, hrest⟩ := List.cons.inj h
      exact hopen more hc.symm hrest.symm
    · obtain ⟨hc, hrest⟩ := List.cons.inj h
      exact hclose more hc.symm hrest.symm
  | case5 => cases h

theorem isCommentRest_of_commentLength {w r : List Char}
    (h : commentLength 1 (w ++ r) = some w.length) : IsCommentRest w := by
  have hrests := isCommentRests_of_commentLength h Nat.one_pos
  rw [List.take_left] at hrests
  cases hrests with
  | cons ha hb =>
    cases hb
    rwa [List.append_nil]

/-! ### Trivia -/

/-- The text, up to where `behind` begins, is a row of blanks, of comments that go up to the end of a line
or of the text, and of block comments. -/
inductive IsTrivia : List Char → List Char → Prop
  | nil (behind : List Char) : IsTrivia [] behind
  | blank {c : Char} {cs behind : List Char} (hc : isBlank c = true) (h : IsTrivia cs behind) :
      IsTrivia (c :: cs) behind
  | line {comment cs behind : List Char} (hcomment : '\n' ∉ comment)
      (hend : cs ++ behind = [] ∨ ['\n'] <+: cs ++ behind) (h : IsTrivia cs behind) :
      IsTrivia ('/' :: '/' :: (comment ++ cs)) behind
  | block {comment cs behind : List Char} (hcomment : IsCommentRest comment)
      (h : IsTrivia cs behind) : IsTrivia ('/' :: '*' :: (comment ++ cs)) behind

/-- A blank or a comment begins the text. -/
def StartsTrivia (cs : List Char) : Prop :=
  startsWith isBlank cs = true ∨ ['/', '/'] <+: cs ∨ ['/', '*'] <+: cs

theorem exists_cons_of_startsWith {x : Char} {cs : List Char} (h : startsWith (· == x) cs = true) :
    ∃ rest, cs = x :: rest := by
  cases cs with
  | nil => cases h
  | cons c cs => exact ⟨cs, by rw [beq_iff_eq.mp h]⟩

theorem of_startsWith_eq_false {x : Char} {cs : List Char}
    (h : startsWith (· != x) cs = false) : cs = [] ∨ [x] <+: cs := by
  cases cs with
  | nil => exact .inl rfl
  | cons c cs =>
    have hc : c = x := by simpa [startsWith] using h
    exact .inr ⟨cs, by rw [hc]; rfl⟩

/-- What a step passes over is trivia, in front of trivia. -/
theorem IsTrivia.step {c : Char} {w cs behind : List Char}
    (hstep : step c (w ++ (cs ++ behind)) = .ok ⟨none, w.length⟩) (h : IsTrivia cs behind) :
    IsTrivia (c :: (w ++ cs)) behind := by
  unfold Lexer.step at hstep
  split at hstep
  · rename_i hblank
    simp only [Except.ok.injEq, Step.mk.injEq, true_and] at hstep
    obtain rfl := List.length_eq_zero_iff.mp hstep.symm
    exact .blank hblank h
  split at hstep
  · rename_i hline
    obtain ⟨rfl, hslash⟩ := hline
    simp only [Except.ok.injEq, Step.mk.injEq, true_and] at hstep
    obtain ⟨hnone, hend⟩ := takeWhile_append_length.mp hstep
    cases w with
    | nil =>
      -- the second slash would have been passed over as well
      obtain ⟨more, hmore⟩ := exists_cons_of_startsWith hslash
      rw [List.nil_append] at hmore
      rw [hmore] at hend
      cases hend
    | cons x w =>
      obtain rfl : x = '/' := beq_iff_eq.mp hslash
      refine .line (fun hmem => ?_) (of_startsWith_eq_false hend) h
      exact absurd (hnone '\n' (List.mem_cons_of_mem _ hmem)) (by decide)
  split at hstep
  · rename_i hblock
    obtain ⟨rfl, hstar⟩ := hblock
    split at hstep
    · rename_i n hn
      simp only [Except.ok.injEq, Step.mk.injEq, true_and] at hstep
      cases w with
      | nil => simp at hstep
      | cons x w =>
        obtain rfl : x = '*' := beq_iff_eq.mp hstar
        obtain rfl : n = w.length := by simpa using hstep
        exact .block (isCommentRest_of_commentLength hn) h
    · cases hstep
  · exact absurd rfl (tokenStep_kind hstep)

/-- No token begins where trivia does. -/
theorem not_startsTrivia_of_step {c : Char} {rest : List Char} {kind : TokenKind} {n : Nat}
    (h : step c rest = .ok ⟨some kind, n⟩) : ¬ StartsTrivia (c :: rest) := by
  have hpair : ∀ {x y : Char}, [x, y] <+: c :: rest → c = x ∧ startsWith (· == y) rest = true := by
    rintro x y ⟨more, hmore⟩
    obtain ⟨rfl, rfl⟩ := List.cons.inj hmore
    exact ⟨rfl, beq_self_eq_true y⟩
  unfold Lexer.step at h
  rintro (hblank | hline | hblock)
  · have hc : isBlank c = true := hblank
    rw [if_pos hc] at h
    cases h
  · split at h
    · cases h
    · rw [if_pos (hpair hline)] at h
      cases h
  · split at h
    · cases h
    split at h
    · cases h
    rw [if_pos (hpair hblock)] at h
    split at h <;> cases h

/-! ### What tokens leave uncovered -/

/-- The parts of a text before, between and behind tokens, from `start` up to `stop`. -/
def gaps (start stop : Nat) : List Token → List Span
  | [] => [⟨start, stop⟩]
  | t :: rest => ⟨start, t.start⟩ :: gaps t.stop stop rest

/-- The tokens stand in the text one behind the other, each where its text does, and cover all but
trivia. -/
structure IsCovering (source : List Char) (tokens : List Token) : Prop where
  bounds : ∀ t ∈ tokens, t.start < t.stop ∧ t.stop ≤ source.length
  text : ∀ t ∈ tokens, t.text.toList = slice source t.start t.stop
  solid : ∀ t ∈ tokens, ¬ StartsTrivia (source.drop t.start)
  ordered : tokens.Pairwise fun t u => t.stop ≤ u.start
  trivia : ∀ gap ∈ gaps 0 source.length tokens,
    IsTrivia (slice source gap.start gap.stop) (source.drop gap.stop)

/-- Only the first gap depends on where the tokens are counted from. -/
theorem exists_gaps_eq (stop : Nat) (tokens : List Token) :
    ∃ first rest, (∀ start, gaps start stop tokens = ⟨start, first⟩ :: rest) ∧
      first = (tokens.head?.map Token.start).getD stop := by
  cases tokens with
  | nil => exact ⟨stop, [], fun _ => rfl, rfl⟩
  | cons t rest => exact ⟨t.start, gaps t.stop stop rest, fun _ => rfl, rfl⟩

theorem Run.text_eq {q : Nat} {source rest : List Char} {ts : List Token} {t : Token}
    (h : Run 0 source ts q rest) (ht : t ∈ ts) :
    t.text.toList = slice source t.start t.stop ∧ ¬ StartsTrivia (source.drop t.start) := by
  obtain ⟨front, back, rfl⟩ := List.append_of_mem ht
  obtain ⟨c, w, r, hrun, hstep, htext, hstop, -⟩ := h.split
  obtain ⟨a, rfl, hstart⟩ := hrun.suffix
  rw [Nat.zero_add] at hstart
  refine ⟨?_, ?_⟩
  · have hslice := Text.slice_append_right a (c :: (w ++ r)) 0 (w.length + 1)
    rw [Nat.zero_add, ← hstart, show w.length + 1 + t.start = t.stop by omega] at hslice
    rw [hslice, htext, String.toList_ofList, slice, ← List.cons_append,
      List.take_left' (List.length_cons ..)]
    rfl
  · rw [hstart, List.drop_left]
    exact not_startsTrivia_of_step hstep

/-- The gaps of a run to the end of a text hold trivia. -/
theorem Run.trivia {p q : Nat} {front cs : List Char} {ts : List Token} (h : Run p cs ts q [])
    (hp : p = front.length) : ∀ gap ∈ gaps p q ts,
      IsTrivia (slice (front ++ cs) gap.start gap.stop) ((front ++ cs).drop gap.stop) := by
  generalize hrest : ([] : List Char) = rest at h
  induction h generalizing front with
  | refl p cs =>
    subst hrest hp
    rw [gaps, List.forall_mem_singleton, slice, List.append_nil, List.take_length, List.drop_length]
    exact .nil []
  | @skip p q c w r rest ts hstep t ih =>
    have hfront : p + w.length + 1 = (front ++ c :: w).length := by simp [hp, Nat.add_assoc]
    have hall := ih hfront hrest
    have hsource : front ++ c :: w ++ r = front ++ c :: (w ++ r) := by simp
    rw [hsource] at hall
    obtain ⟨first, more, hgaps, hfirst⟩ := exists_gaps_eq q ts
    rw [hgaps, List.forall_mem_cons] at hall ⊢
    refine ⟨?_, hall.2⟩
    -- the first gap grows by what the step passes over
    obtain ⟨hle, hbounds, -⟩ := t.ordered
    have hbehind : p + w.length + 1 ≤ first := by
      cases ts with
      | nil => exact hfirst ▸ hle
      | cons u ts => exact hfirst ▸ (hbounds u List.mem_cons_self).1
    obtain ⟨k, rfl⟩ := Nat.exists_eq_add_of_le hbehind
    have htrivia := hall.1
    have hslice : slice (front ++ c :: (w ++ r)) (p + w.length + 1) (p + w.length + 1 + k) =
        r.take k := by
      rw [slice, ← hsource, show p + w.length + 1 = (front ++ c :: w).length by simp [hp]; omega,
        List.take_length_add_append, List.drop_left]
    have hwhole : slice (front ++ c :: (w ++ r)) p (p + w.length + 1 + k) = c :: (w ++ r.take k) := by
      rw [slice, hp, show front.length + w.length + 1 + k = front.length + (w.length + k + 1) by omega,
        List.take_length_add_append, List.drop_left, List.take_succ_cons, List.take_length_add_append]
    have hdrop : (front ++ c :: (w ++ r)).drop (p + w.length + 1 + k) = r.drop k := by
      rw [← hsource, show p + w.length + 1 = (front ++ c :: w).length by simp [hp]; omega,
        ← List.drop_drop, List.drop_left]
    rw [hslice, hdrop] at htrivia
    rw [hwhole, hdrop]
    exact htrivia.step (by rwa [List.take_append_drop])
  | @emit p q c w r rest kind ts hstep t ih =>
    have hfront : p + w.length + 1 = (front ++ c :: w).length := by simp [hp, Nat.add_assoc]
    have hall := ih hfront hrest
    rw [gaps, List.forall_mem_cons]
    refine ⟨?_, ?_⟩
    · have hempty : slice (front ++ c :: (w ++ r)) p p = [] := by
        rw [slice, List.drop_eq_nil_iff, List.length_take]
        exact Nat.min_le_left ..
      rw [hempty]
      exact .nil _
    · rw [show front ++ c :: w ++ r = front ++ c :: (w ++ r) by simp] at hall
      exact hall

theorem isCovering_of_run {source : List Char} {tokens : List Token}
    (h : Run 0 source tokens source.length []) : IsCovering source tokens where
  bounds t ht := (h.ordered.2.1 t ht).2
  text _ ht := (h.text_eq ht).1
  solid _ ht := (h.text_eq ht).2
  ordered := h.ordered.2.2
  trivia := by
    have hstart : 0 = ([] : List Char).length := rfl
    exact h.trivia hstart

/-! ### Openings that nothing closes -/

/-- What a failure of the lexer is about begins the text: a comment, the marker of a raw string, a
quote. -/
def IsOpening : Problem → List Char → Prop
  | .unterminatedComment, cs => ['/', '*'] <+: cs
  | .unterminatedRawString, cs =>
    ∃ hashes, 'r' :: List.replicate hashes '#' ++ ['"'] <+: cs ∨
      'b' :: 'r' :: List.replicate hashes '#' ++ ['"'] <+: cs
  | .unterminatedString, cs => ['"'] <+: cs ∨ ['\''] <+: cs
  | .malformedCharacter, cs => ['\''] <+: cs
  | _, _ => False

theorem IsOpening.ne_nil {problem : Problem} {cs : List Char} (h : IsOpening problem cs) :
    cs ≠ [] := by
  rintro rfl
  cases problem <;> simp [IsOpening] at h

theorem rawHashes_prefix {cs : List Char} {n : Nat} (h : rawHashes cs = some n) :
    List.replicate n '#' ++ ['"'] <+: cs := by
  induction cs generalizing n with
  | nil => cases h
  | cons c cs ih =>
    rw [rawHashes_cons] at h
    split at h
    · rename_i hc
      obtain ⟨m, hm, rfl⟩ := Option.map_eq_some_iff.mp h
      rw [hc, List.replicate_succ, List.cons_append]
      simpa using ih hm
    · split at h
      · rename_i hc
        cases h
        rw [hc]
        exact ⟨cs, rfl⟩
      · cases h

theorem rawMarker_prefix {c : Char} {rest : List Char} {hashes marker : Nat}
    (h : rawMarker c rest = some (hashes, marker)) : IsOpening .unterminatedRawString (c :: rest) := by
  unfold rawMarker at h
  split at h
  · rename_i hc
    obtain ⟨n, hn, -⟩ := Option.map_eq_some_iff.mp h
    refine ⟨n, .inl ?_⟩
    rw [hc, List.cons_append]
    simpa using rawHashes_prefix hn
  · split at h
    · obtain ⟨n, hn, -⟩ := Option.map_eq_some_iff.mp h
      refine ⟨n, .inr ?_⟩
      rw [List.cons_append, List.cons_append]
      simpa using rawHashes_prefix hn
    · cases h

theorem isOpening_of_literal {skip : Nat} {problem : Problem} {length : Option Nat}
    {failure : Failure} {cs : List Char} (h : literal skip problem length = .error failure)
    (hopen : IsOpening problem (cs.drop skip)) :
    IsOpening failure.problem (cs.drop failure.offset) := by
  cases length with
  | some n => cases h
  | none =>
    cases h
    exact hopen

theorem isOpening_of_tokenStep {c : Char} {rest : List Char} {failure : Failure}
    (h : tokenStep c rest = .error failure) :
    IsOpening failure.problem ((c :: rest).drop failure.offset) := by
  have hquote : ∀ {x : Char} {cs : List Char}, startsWith (· == x) cs = true → [x] <+: cs := by
    intro x cs hx
    obtain ⟨more, rfl⟩ := exists_cons_of_startsWith hx
    exact ⟨more, rfl⟩
  unfold tokenStep at h
  split at h
  · rename_i hashes marker hmarker
    split at h
    · cases h
    · cases h
      exact rawMarker_prefix hmarker
  split at h
  · rename_i hb
    exact isOpening_of_literal h (.inl (hquote hb.2))
  split at h
  · rename_i hb
    exact isOpening_of_literal h (.inr (hquote hb.2))
  split at h
  · cases h
  split at h
  · cases h
  split at h
  · rename_i hc
    exact isOpening_of_literal h (.inl ⟨rest, by rw [hc]; rfl⟩)
  split at h
  · rename_i hc
    have hapostrophe : ['\''] <+: c :: rest := ⟨rest, by rw [hc]; rfl⟩
    unfold quoteOrLifetime at h
    split at h
    · exact isOpening_of_literal h (.inr hapostrophe)
    split at h
    · cases h
    · cases h
      exact hapostrophe
  split at h
  · cases h
  · cases h

/-- A step fails at something that it opens. -/
theorem isOpening_of_step {c : Char} {rest : List Char} {failure : Failure}
    (h : step c rest = .error failure) :
    IsOpening failure.problem ((c :: rest).drop failure.offset) := by
  unfold Lexer.step at h
  split at h
  · cases h
  split at h
  · cases h
  split at h
  · rename_i hblock
    obtain ⟨rfl, hstar⟩ := hblock
    obtain ⟨more, rfl⟩ := exists_cons_of_startsWith hstar
    split at h
    · cases h
    · cases h
      exact ⟨more, rfl⟩
  · exact isOpening_of_tokenStep h

theorem isOpening_of_lexFrom {p : Nat} {cs : List Char} {failure : Failure}
    (h : lexFrom p cs = .error failure) :
    ∃ n, failure.offset = p + n ∧ IsOpening failure.problem (cs.drop n) := by
  induction hlen : cs.length using Nat.strongRecOn generalizing p cs failure with
  | ind len ih =>
    cases cs with
    | nil =>
      rw [lexFrom] at h
      cases h
    | cons c rest =>
      rw [lexFrom] at h
      cases hs : step c rest with
      | error found =>
        rw [hs] at h
        cases h
        exact ⟨found.offset, Nat.add_comm .., isOpening_of_step hs⟩
      | ok found =>
        obtain ⟨kind, further⟩ := found
        have hrest : lexFrom (p + further + 1) (rest.drop further) = .error failure := by
          simp only [hs] at h
          cases kind with
          | none => exact h
          | some kind =>
            cases hmore : lexFrom (p + further + 1) (rest.drop further) with
            | error found =>
              rw [hmore] at h
              cases h
              rfl
            | ok tokens =>
              rw [hmore] at h
              cases h
        have hlt : (rest.drop further).length < len := by
          rw [← hlen, List.length_drop, List.length_cons]
          omega
        obtain ⟨n, hn, hopen⟩ := ih _ hlt hrest rfl
        refine ⟨further + 1 + n, by omega, ?_⟩
        rwa [Nat.add_right_comm, List.drop_succ_cons, ← List.drop_drop]

end Lexer

open Lexer

/-- **Every text is covered by its tokens and by trivia, or has an opening that nothing closes.** -/
theorem tokenize_lossless (source : List Char) :
    (∃ tokens, tokenize source = .ok tokens ∧ IsCovering source tokens) ∨
      ∃ failure, tokenize source = .error failure ∧ failure.offset < source.length ∧
        IsOpening failure.problem (source.drop failure.offset) := by
  cases h : tokenize source with
  | ok tokens =>
    have hrun := run_of_lexFrom h
    rw [Nat.zero_add] at hrun
    exact .inl ⟨tokens, rfl, isCovering_of_run hrun⟩
  | error failure =>
    obtain ⟨n, hn, hopen⟩ := isOpening_of_lexFrom h
    rw [Nat.zero_add] at hn
    subst hn
    refine .inr ⟨failure, rfl, ?_, hopen⟩
    have hne := hopen.ne_nil
    rw [ne_eq, List.drop_eq_nil_iff] at hne
    omega

end ContractSync.Rust
