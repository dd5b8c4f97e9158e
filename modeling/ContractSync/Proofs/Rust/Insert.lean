import ContractSync.Proofs.Rust.Append
import ContractSync.Proofs.Rust.Grow
import ContractSync.Proofs.Rust.LexEnd
import ContractSync.Proofs.Rust.Refill

/-!
# More at the end of a body

A text in which other characters stand in front of the closing delimiter of a body, up to which the lexer
meets tokens that are read as what was there and some more, is read as it was, carried, with the body grown
(`BodyIn.insert`). The text may be another from the blanks on that stand in front of the delimiter
(`BodyIn.tokenize_cut`).
-/

namespace ContractSync.Rust

open Lexer
open TokenTree (flattenAll isNestedAll)

/-! ### What stands behind a place -/

/-- What starts at `c` and behind it goes along with `c` to `d`. A token that stops at `c` stays. -/
def Edges.behind (c d : Nat) : Edges :=
  ⟨fun x => if x < c then x else x - c + d, fun x => if x ≤ c then x else x - c + d⟩

theorem Token.carry_before {c d : Nat} {t : Token} (h : t.start < t.stop) (hstop : t.stop ≤ c) :
    t.carry (.behind c d) = t :=
  carry_eq_self (if_pos (by omega)) (if_pos hstop)

theorem Token.carry_behind (c d : Nat) {t : Token} (h : t.start < t.stop) :
    (t.shift c).carry (.behind c d) = t.shift d := by
  rw [carry, shift, Edges.behind, Token.mk.injEq]
  refine ⟨rfl, rfl, ?_, ?_⟩
  · show (if t.start + c < c then t.start + c else t.start + c - c + d) = t.start + d
    rw [if_neg (by omega), Nat.add_sub_cancel]
  · show (if t.stop + c ≤ c then t.stop + c else t.stop + c - c + d) = t.stop + d
    rw [if_neg (by omega), Nat.add_sub_cancel]

/-- What is met in front of a place stays where it is. -/
theorem Lexer.Run.carry_eq_self {p place : Nat} {cs rest : List Char} {ts : List Token}
    (h : Run p cs ts place rest) (d : Nat) : ∀ t ∈ ts, t.carry (.behind place d) = t := by
  intro t ht
  have hbounds := (h.ordered.2.1 t ht).2
  exact Token.carry_before hbounds.1 hbounds.2

theorem Lexer.Run.map_carry_eq_self {p place : Nat} {cs rest : List Char} {ts us : List Token}
    (h : Run p cs ts place rest) (hus : us ⊆ ts) (d : Nat) : us.map (·.carry (.behind place d)) = us :=
  (List.map_congr_left fun t ht => h.carry_eq_self d t (hus ht)).trans (List.map_id _)

/-- **What stands behind a place is carried along with it** to the end of another text. -/
theorem tokenize_behind {source text : List Char} {front new back : List Token} {place : Nat}
    (h : Run 0 source front place (source.drop place)) (hall : tokenize source = .ok (front ++ back))
    (hrun : Run 0 (text ++ source.drop place) new text.length (source.drop place)) :
    tokenize (text ++ source.drop place) =
      .ok (new ++ back.map (·.carry (.behind place text.length))) := by
  obtain ⟨behind, hsame, hbehind⟩ := h.cancel (run_of_lexFrom hall)
  obtain rfl := List.append_cancel_left hsame
  have hbehind' : Run (0 + place) (source.drop place) back (0 + source.length) [] := by
    rwa [Nat.zero_add]
  obtain ⟨us, s, hus, rfl, -⟩ := hbehind'.unshift
  have hcarry : (us.map (Token.shift place)).map (·.carry (.behind place text.length)) =
      us.map (Token.shift text.length) := by
    rw [List.map_map]
    exact List.map_congr_left fun t ht => Token.carry_behind _ _ (hus.ordered.2.1 t ht).2.1
  rw [hcarry]
  have hus' := hus.shift text.length
  rw [Nat.zero_add] at hus'
  exact lexFrom_of_run (hrun.trans hus')

namespace BodyIn

variable {source : List Char} {nodes found : List Node} {n : Node} {kind : ItemKind} {b : Group}
  {front back : List Token}

/-- The run up to the closing delimiter, and the run from there. -/
theorem run_closer (h : BodyIn source nodes n kind b found front back) :
    Run 0 source (front ++ b.opener :: flattenAll b.inner) b.closer.start
        (source.drop b.closer.start) ∧
      Run b.closer.start (source.drop b.closer.start) (b.closer :: back) source.length [] ∧
      0 < b.closer.start ∧ b.closer.start < source.length := by
  have hall := run_of_lexFrom h.tokens
  rw [Nat.zero_add] at hall
  have hsplit : front ++ b.opener :: (flattenAll b.inner ++ b.closer :: back) =
      (front ++ b.opener :: flattenAll b.inner) ++ b.closer :: back := by simp
  rw [hsplit] at hall
  obtain ⟨hbefore, hbehind⟩ := hall.cut_before
  have hopener := hbefore.ordered.2.1 b.opener (by simp)
  have hcloser := hbehind.ordered.2.1 b.closer List.mem_cons_self
  exact ⟨hbefore, hbehind, by omega, by omega⟩

/-- The opening delimiter stands in front of the closing one. -/
theorem opener_bounds (h : BodyIn source nodes n kind b found front back) :
    b.opener.start < b.opener.stop ∧ b.opener.stop ≤ b.closer.start :=
  (h.run_closer.1.ordered.2.1 b.opener (by simp)).2

/-- The tokens up to the closing delimiter are where they were. -/
theorem carry_before (h : BodyIn source nodes n kind b found front back) (d : Nat) :
    ∀ t ∈ front ++ b.opener :: flattenAll b.inner, t.carry (.behind b.closer.start d) = t :=
  h.run_closer.1.carry_eq_self d

/-- The body where the closing delimiter is carried to. -/
theorem body?_carry (h : BodyIn source nodes n kind b found front back) (d : Nat) :
    (n.carry (.behind b.closer.start d)).body? = some ⟨b.opener.start, d⟩ := by
  obtain ⟨hopener, hcloser⟩ := h.opener_bounds
  rw [Node.body?_carry, h.span, Option.map_some, Option.some.injEq, Span.move, Span.mk.injEq]
  constructor
  · exact if_pos (Nat.lt_of_lt_of_le hopener hcloser)
  · show (if b.closer.start < b.closer.start then _ else b.closer.start - b.closer.start + d) = d
    rw [if_neg (Nat.lt_irrefl _), Nat.sub_self, Nat.zero_add]

/-- **The body gets other trees**: all in front of it is where it was, and what stands behind is carried
along with the closing delimiter. If they are read as what was there and some more, the body is grown. -/
theorem insert (h : BodyIn source nodes n kind b found front back) {text : List Char}
    {new : List TokenTree} {added : List Node} (hnested : isNestedAll new = true)
    (hrun : Run 0 (text ++ source.drop b.closer.start) (front ++ b.opener :: flattenAll new)
      text.length (source.drop b.closer.start))
    (hmembers : (b.holding (.behind b.closer.start text.length) new).members kind =
      .ok (found.map (Node.carry (.behind b.closer.start text.length)) ++ added)) :
    tokenize (text ++ source.drop b.closer.start) =
        .ok (front ++ b.opener :: flattenAll new ++
          (b.closer :: back).map (·.carry (.behind b.closer.start text.length))) ∧
      ∀ revision, parse (text ++ source.drop b.closer.start) revision =
        .ok ⟨text ++ source.drop b.closer.start, (Node.mk .file 0 0 source.length nodes).grow
          (.behind b.closer.start text.length) b.opener.start added, revision⟩ := by
  obtain ⟨hbefore, -, hpos, hlt⟩ := h.run_closer
  have hall : tokenize source =
      .ok ((front ++ b.opener :: flattenAll b.inner) ++ b.closer :: back) := by
    rw [h.tokens]
    simp
  have htokens := tokenize_behind hbefore hall hrun
  have hfixed := h.carry_before text.length
  have hfront := hbefore.map_carry_eq_self (List.subset_append_left front _) text.length
  generalize he : Edges.behind b.closer.start text.length = e at *
  obtain ⟨trees, hflat, htrees, hitems⟩ := h.refill e new added hnested hmembers
  refine ⟨htokens, fun revision => parse_eq_ok_iff.mpr ⟨trees, _, ⟨?_, htrees, hitems⟩, ?_⟩⟩
  · rw [htokens, hflat, hfront, hfixed b.opener (by simp)]
    simp
  · have hzero : e.start 0 = 0 := by
      rw [← he]
      exact if_pos hpos
    have hend : e.stop source.length = (text ++ source.drop b.closer.start).length := by
      rw [← he]
      show (if source.length ≤ b.closer.start then _ else _) = _
      rw [if_neg (by omega), List.length_append, List.length_drop]
      omega
    have hfile : Shape.file.opensAt b.opener.start = false := rfl
    rw [Node.grow_mk, hzero, hend, hfile, if_neg Bool.false_ne_true, List.append_nil]
    rfl

/-- A delimiter does not begin with a quote or a line feed. -/
theorem drop_closer (h : BodyIn source nodes n kind b found front back) :
    startsWith (· == '\'') (source.drop b.closer.start) = false ∧
      startsWith (· != '\n') (source.drop b.closer.start) = true := by
  have hchar := (run_of_lexFrom h.tokens).getElem?_start (t := b.closer) (by simp)
  rw [Nat.sub_zero, ← List.head?_drop] at hchar
  have hcloser := Token.isCloser_of_closes h.closes
  simp only [Token.isCloser, Token.isPunct, Bool.or_eq_true, Bool.and_eq_true, beq_iff_eq] at hcloser
  obtain ⟨c, hc, hhead⟩ : ∃ c : Char, ((c == '\'') = false ∧ (c != '\n') = true) ∧
      (source.drop b.closer.start).head? = some c := by
    rcases hcloser with (⟨-, heq⟩ | ⟨-, heq⟩) | ⟨-, heq⟩ <;> rw [heq] at hchar
    · exact ⟨')', by decide, hchar⟩
    · exact ⟨']', by decide, hchar⟩
    · exact ⟨'\x7d', by decide, hchar⟩
  obtain ⟨rest, hrest⟩ := List.head?_eq_some_iff.mp hhead
  rw [hrest]
  exact hc

/-- The text up to the blanks in front of the closing delimiter holds the tokens up to there. -/
theorem tokenize_cut (h : BodyIn source nodes n kind b found front back) {a w : List Char}
    (hsource : source.take b.closer.start = a ++ w) (hw : ∀ x ∈ w, Text.isBlank x = true)
    (hline : '\n' ∉ w.tail) : tokenize a = .ok (front ++ b.opener :: flattenAll b.inner) := by
  obtain ⟨hbefore, -⟩ := h.run_closer
  obtain ⟨hquote, hfeed⟩ := h.drop_closer
  have hparts : source = a ++ (w ++ source.drop b.closer.start) := by
    rw [← List.append_assoc, ← hsource, List.take_append_drop]
  generalize hrest : source.drop b.closer.start = rest at *
  rw [hparts] at hbefore
  have hback := hbefore.before_blanks hw hline (.inr hfeed)
  have hquote' : startsWith (· == '\'') (w ++ rest) = false := by
    cases w with
    | nil => exact hquote
    | cons x w =>
      have hx := hw x List.mem_cons_self
      refine beq_false_of_ne ?_
      rintro rfl
      cases hx
  exact lexFrom_of_run (hback.cut_off hquote')

end BodyIn

end ContractSync.Rust
