import ContractSync.Proofs.Edit.Keep
import ContractSync.Proofs.Rust.Insert

/-!
# Inserting a registration

A statement is a line of balanced tokens with no blanks around it. In both layouts it comes to stand on a
line of its own, behind the last character of the body that is not blank and before the closing brace
(`insertInBody_eq`), so no comment and no literal can swallow it. **The tokens of the text get those of the
statement in front of the closing brace, the tree is carried, and the request is met from then on**
(`insertRegistration_inserts`).
-/

namespace ContractSync.Text

/-! ### Bounded occurrences in a longer text -/

theorem boundedHere_append {key cs behind : List Char} (h : boundedHere key cs = true)
    (hbehind : startsInWord behind = false) : boundedHere key (cs ++ behind) = true := by
  rw [boundedHere, Bool.and_eq_true, List.isPrefixOf_iff_prefix] at h
  obtain ⟨⟨more, rfl⟩, hmore⟩ := h
  rw [List.drop_left] at hmore
  rw [boundedHere, List.append_assoc, List.drop_left, Bool.and_eq_true, List.isPrefixOf_iff_prefix]
  refine ⟨List.prefix_append .., ?_⟩
  cases more with
  | nil => rw [List.nil_append, hbehind]; rfl
  | cons c more => exact hmore

/-- A text that goes on with no word character holds the key still. -/
theorem boundedAfter_append {inWord : Bool} {key cs behind : List Char}
    (h : boundedAfter inWord key cs = true) (hbehind : startsInWord behind = false) :
    boundedAfter inWord key (cs ++ behind) = true := by
  induction cs generalizing inWord with
  | nil =>
    rw [boundedAfter, Bool.and_eq_true] at h
    have hhere := boundedHere_append h.2 hbehind
    rw [List.nil_append] at hhere ⊢
    cases behind with
    | nil => rw [boundedAfter, h.1, hhere]; rfl
    | cons c behind => rw [boundedAfter, h.1, hhere]; rfl
  | cons c cs ih =>
    rw [boundedAfter, Bool.or_eq_true, Bool.and_eq_true] at h
    rw [List.cons_append, boundedAfter, Bool.or_eq_true, Bool.and_eq_true]
    exact h.imp (fun h => ⟨h.1, boundedHere_append h.2 hbehind⟩) ih

/-- So does a text with others in front of it, if the last character there is no word character. -/
theorem boundedAfter_behind {inWord : Bool} {key cs : List Char} (h : occursBounded key cs = true)
    (front : List Char) {c : Char} (hc : isWordChar c = false) :
    boundedAfter inWord key (front ++ c :: cs) = true := by
  induction front generalizing inWord with
  | nil =>
    rw [List.nil_append, boundedAfter, hc, Bool.or_eq_true]
    exact .inr h
  | cons d front ih =>
    rw [List.cons_append, boundedAfter, Bool.or_eq_true]
    exact .inr ih

theorem ne_nil_of_occursBounded {key cs : List Char} (h : occursBounded key cs = true)
    (hne : key ≠ []) : cs ≠ [] := by
  rintro rfl
  rw [occursBounded, boundedAfter, boundedHere, Bool.and_eq_true, Bool.and_eq_true,
    List.isPrefixOf_iff_prefix, List.prefix_nil] at h
  exact hne h.2.1

theorem not_isWordChar_of_isBlank {c : Char} (h : isBlank c = true) : isWordChar c = false := by
  have halnum := not_isAlphanumeric_of_isBlank h
  simp only [isAlphanumeric, Bool.or_eq_false_iff] at halnum
  have hunderscore : c ≠ '_' := by
    rintro rfl
    cases h
  rw [isWordChar, halnum.1.1, beq_false_of_ne hunderscore]
  rfl

/-- A line of a text holds the key if it does on its own. -/
theorem occursBounded_line {key line : List Char} (h : occursBounded key line = true)
    {front indent : List Char} (hindent : ∀ c ∈ indent, isBlank c = true) (behind : List Char) :
    occursBounded key (front ++ '\n' :: (indent ++ (line ++ '\n' :: behind))) = true := by
  have hline : occursBounded key (line ++ '\n' :: behind) = true := boundedAfter_append h rfl
  rcases indent.eq_nil_or_concat with rfl | ⟨more, c, rfl⟩
  · exact boundedAfter_behind hline front rfl
  · rw [List.concat_eq_append] at hindent ⊢
    have hc := not_isWordChar_of_isBlank (hindent c (by simp))
    have hbehind : boundedAfter false key (front ++ '\n' :: more ++ c :: (line ++ '\n' :: behind)) = true :=
      boundedAfter_behind hline (front ++ '\n' :: more) hc
    rwa [List.append_assoc, List.cons_append, List.append_cons more] at hbehind

end ContractSync.Text

namespace ContractSync.Edit

open Rust (BodyIn Edges Group Node Span Token TokenTree Tree tokenize)
open Rust.Lexer (Run run_blanks run_line run_of_lexFrom)
open Rust.TokenTree (flattenAll flattenAll_map_move isNestedAll_map_move)

variable {source : List Char}

/-! ### Where the statement goes -/

/-- The text is one line of tokens with balanced delimiters, without blanks around it. -/
structure IsStatement (text : List Char) : Prop where
  line : ∀ c ∈ text, Text.isLineBoundary c = false
  trimmed : Text.trim text = text
  balanced : ∃ tokens trees, tokenize text = .ok tokens ∧ TokenTree.ofTokens tokens = .ok trees

theorem IsStatement.lines {text : List Char} (h : IsStatement text) (hne : text ≠ []) :
    (statementLines text).map Text.trim = [text] := by
  have hfeed : ∀ c ∈ text, (c == '\n') = false := fun c hc => by
    refine beq_false_of_ne ?_
    rintro rfl
    have := h.line _ hc
    cases this
  have hstart : text.dropWhile (· == '\n') = text := by
    cases text with
    | nil => rfl
    | cons c text => rw [List.dropWhile_cons_of_neg (by simp [hfeed c])]
  have hend : Text.dropEndWhile (· == '\n') text = text :=
    Text.dropEndWhile_eq_self fun c hc => hfeed c (List.mem_of_getLast? hc)
  rw [statementLines, hstart, hend, Text.lines_eq_singleton hne h.line, List.map_singleton, h.trimmed]

theorem isBlank_of_mem_lastIndent? {body indent : List Char} (h : lastIndent? body = some indent)
    {c : Char} (hc : c ∈ indent) : Text.isBlank c = true := by
  obtain ⟨line, -, rfl⟩ := Option.map_eq_some_iff.mp h
  exact List.all_eq_true.mp List.all_takeWhile c hc

/-- **The statement goes on a line of its own**, in place of blanks in front of the closing brace that
reach back to one line feed at most. -/
theorem insertInBody_eq {function : Node} {body : Span} {statement : List Char}
    (hlines : (statementLines statement).map Text.trim = [statement]) (hlt : body.start < body.stop)
    (hle : body.stop ≤ source.length) :
    ∃ a w x y, source.take body.stop = a ++ w ∧
      insertInBody source function body statement =
        a ++ '\n' :: (x ++ (statement ++ '\n' :: y)) ++ source.drop body.stop ∧
      (∀ c ∈ w, Text.isBlank c = true) ∧ '\n' ∉ w.tail ∧
      (∀ c ∈ x, Text.isBlank c = true) ∧ ∀ c ∈ y, Text.isBlank c = true := by
  rw [insertInBody]
  dsimp only
  rw [hlines]
  split
  · -- The closing brace stands on a line of its own.
    rename_i hmulti
    obtain ⟨front, line, htake, hfront, hdrop, hslice, hline, hfeed⟩ :=
      exists_cut_of_lines hmulti.1 hmulti.2
    rw [hslice]
    have hindent : ∀ c ∈ (lastIndent? (Text.slice source (body.start + 1)
        (Text.lineStart source body.stop))).getD (line ++ indentUnit), Text.isBlank c = true := by
      intro c hc
      cases hlast : lastIndent? (Text.slice source (body.start + 1)
          (Text.lineStart source body.stop)) with
      | some indent =>
        rw [hlast] at hc
        exact isBlank_of_mem_lastIndent? hlast hc
      | none =>
        rw [hlast, Option.getD_none, List.mem_append] at hc
        exact hc.elim (hline c) isBlank_of_mem_indentUnit
    refine ⟨front, '\n' :: line, _, line, htake, ?_, List.forall_mem_cons.mpr ⟨by decide, hline⟩,
      hfeed, hindent, hline⟩
    rw [Text.splice, hfront, hdrop]
    simp only [List.flatMap_cons, List.flatMap_nil, List.append_nil, List.append_assoc,
      List.cons_append, List.nil_append]
  · rename_i hmulti
    obtain ⟨w, htake, hw, hfeed⟩ := exists_cut_of_line (Nat.lt_succ_self body.start) hlt hle hmulti
    refine ⟨_, w, Text.indentAt source function.itemStart ++ indentUnit,
      Text.indentAt source function.itemStart, htake, ?_, hw, fun h => hfeed (List.mem_of_mem_tail h),
      fun c hc => isBlank_of_mem_indentAt_append hc, fun c hc => isBlank_of_mem_indentAt hc⟩
    rw [take_trimEnd]
    simp only [List.flatMap_cons, List.flatMap_nil, List.append_nil, List.append_assoc,
      List.cons_append, List.nil_append]

/-! ### The tokens of the new text -/

/-- The lexer meets the tokens of the statement behind those of the body. -/
theorem run_statement {a x y statement rest : List Char} {ts us : List Token}
    (ha : tokenize a = .ok ts) (hstatement : tokenize statement = .ok us)
    (hx : ∀ c ∈ x, Text.isBlank c = true) (hy : ∀ c ∈ y, Text.isBlank c = true) :
    Run 0 (a ++ '\n' :: (x ++ (statement ++ '\n' :: y)) ++ rest)
      (ts ++ us.map (Token.shift (a.length + 1 + x.length)))
      (a ++ '\n' :: (x ++ (statement ++ '\n' :: y))).length rest := by
  have hline := (run_line hstatement (y ++ rest)).shift (a.length + 1 + x.length)
  have hrun := (run_line ha (x ++ (statement ++ '\n' :: (y ++ rest)))).trans
    ((run_blanks hx _ _).trans ((Nat.zero_add (a.length + 1 + x.length) ▸ hline).trans
      (run_blanks hy _ rest)))
  have hlength : statement.length + 1 + (a.length + 1 + x.length) + y.length =
      (a ++ '\n' :: (x ++ (statement ++ '\n' :: y))).length := by
    simp
    omega
  rw [hlength, List.nil_append, List.append_nil] at hrun
  simpa only [List.append_assoc, List.cons_append] using hrun

/-- **A function with a statement in place of the blanks at the end of its body**: the tokens, and the
tree, which is carried. -/
theorem parse_statement {nodes : List Node} {found : Node} {b : Group} {front back : List Token}
    {a w x y statement : List Char} {inserted : List TokenTree}
    (hb : BodyIn source nodes found .function b [] front back)
    (htake : source.take b.closer.start = a ++ w) (hw : ∀ c ∈ w, Text.isBlank c = true)
    (hfeed : '\n' ∉ w.tail) (hx : ∀ c ∈ x, Text.isBlank c = true)
    (hy : ∀ c ∈ y, Text.isBlank c = true) (hus : tokenize statement = .ok (flattenAll inserted))
    (hnested : TokenTree.isNestedAll inserted = true) :
    let text := a ++ '\n' :: (x ++ (statement ++ '\n' :: y))
    let result := text ++ source.drop b.closer.start
    tokenize result = .ok (front ++ b.opener :: flattenAll b.inner ++
        (flattenAll inserted).map (Token.shift (a.length + 1 + x.length)) ++
        (b.closer :: back).map (·.carry (.behind b.closer.start text.length))) ∧
      Rust.parse result = .ok ⟨result, (Node.mk .file 0 0 source.length nodes).carry
        (.behind b.closer.start text.length), 0⟩ ∧ b.opener.start < a.length := by
  intro text result
  have ha := hb.tokenize_cut htake hw hfeed
  have hrun : Run 0 result _ text.length (source.drop b.closer.start) := run_statement ha hus hx hy
  have hshift : (flattenAll inserted).map (Token.shift (a.length + 1 + x.length)) =
      flattenAll (inserted.map (TokenTree.move (· + (a.length + 1 + x.length)))) := by
    rw [flattenAll_map_move]
    rfl
  rw [hshift, List.append_assoc, List.cons_append, ← TokenTree.flattenAll_append] at hrun
  have hnew : TokenTree.isNestedAll (b.inner ++
      inserted.map (TokenTree.move (· + (a.length + 1 + x.length)))) = true := by
    rw [TokenTree.isNestedAll_append, hb.nested, isNestedAll_map_move, hnested]
    rfl
  obtain ⟨htokens, hparse⟩ := hb.insert hnew hrun (show _ = Except.ok (_ ++ ([] : List Node)) from rfl)
  refine ⟨?_, ?_, ?_⟩
  · rw [htokens, hshift, TokenTree.flattenAll_append]
    simp
  · rw [hparse 0, Node.grow_nil]
  · have := (run_of_lexFrom ha).ordered.2.1 b.opener (by simp)
    omega

/-! ### Inserting -/

/-- What a request with a function that is there gives. -/
theorem insertRegistration_eq {tree : Tree} {found : Node} {body : Span}
    {function statement key : String} (h : Rust.parse source = .ok tree)
    (hfound : tree.find? function [.function] = some found) (hbody : found.body? = some body)
    (path : Option String) :
    apply source (.insertRegistration function statement key) path =
      .ok (if Text.occursBounded key.toList (between source body) then source
        else insertInBody source found body statement.toList) := by
  show insertRegistration source function statement key path = _
  simp only [insertRegistration, readSource_eq_ok.mpr h, target_eq_ok.mpr hfound, bind, Except.bind,
    hbody]
  rfl

/-- **A statement is inserted at the end of a function's body unless its key occurs there.** The tokens of
the new text are the old ones with those of the statement in front of the closing brace; the tree is the
old one, carried; nothing but blanks is lost, and the request changes nothing when it comes again. -/
theorem insertRegistration_inserts {tree : Tree} {found : Node} {body : Span}
    {function statement key : String} (h : Rust.parse source = .ok tree)
    (hfound : tree.find? function [.function] = some found) (hbody : found.body? = some body)
    (hstatement : IsStatement statement.toList)
    (hkey : Text.occursBounded key.toList statement.toList = true) (hne : key ≠ "")
    (path : Option String) :
    let request := Request.insertRegistration function statement key
    (Text.occursBounded key.toList (between source body) = true →
      apply source request path = .ok source) ∧
    (Text.occursBounded key.toList (between source body) = false →
      ∃ result after front back inserted position stop,
        apply source request path = .ok result ∧ Rust.parse result = .ok after ∧
        tokenize source = .ok (front ++ back) ∧ back.head?.map Token.start = some body.stop ∧
        tokenize statement.toList = .ok inserted ∧
        tokenize result = .ok (front ++ inserted.map (Token.shift position) ++
          back.map (·.carry (.behind body.stop stop))) ∧
        after.root = tree.root.carry (.behind body.stop stop) ∧ Keeps source result ∧
        apply result request path = .ok result) := by
  intro request
  refine ⟨fun hpresent => ?_, fun habsent => ?_⟩
  · rw [insertRegistration_eq h hfound hbody, if_pos hpresent]
  obtain ⟨nodes, b, members, front, back, rfl, rfl, hb⟩ := exists_bodyIn h hfound (by decide) hbody
  obtain ⟨-, -, -, hlt⟩ := hb.run_closer
  have hopen : b.opener.start < b.closer.start := Nat.lt_of_lt_of_le hb.opener_bounds.1 hb.opener_bounds.2
  obtain ⟨us, inserted, hus, hof⟩ := hstatement.balanced
  obtain ⟨rfl, hnested⟩ := TokenTree.ofTokens_eq_ok_iff.mp hof
  have hfilled : statement.toList ≠ [] :=
    Text.ne_nil_of_occursBounded hkey fun hnil => hne (String.toList_eq_nil_iff.mp hnil)
  have hmembers : b.members .function = .ok [] := rfl
  obtain rfl : members = [] := Except.ok.inj (hb.members.symm.trans hmembers)
  obtain ⟨a, w, x, y, htake, hresult, hw, hfeed, hx, hy⟩ :=
    @insertInBody_eq source found b.span statement.toList (hstatement.lines hfilled) hopen
      (Nat.le_of_lt hlt)
  obtain ⟨htokens, hparse, hstart⟩ := parse_statement hb htake hw hfeed hx hy hus hnested
  generalize htext : a ++ '\n' :: (x ++ (statement.toList ++ '\n' :: y)) = text at *
  have hbody' := hb.body?_carry text.length
  generalize he : Edges.behind b.closer.start text.length = e at *
  have hfound' : Tree.find? ⟨text ++ source.drop b.closer.start,
      (Node.mk .file 0 0 source.length nodes).carry e, 0⟩ function [.function] =
        some (found.carry e) :=
    (Tree.find?_carry rfl function [.function]).trans (congrArg (Option.map _) hfound)
  have hpresent : Text.occursBounded key.toList
      (between (text ++ source.drop b.closer.start) ⟨b.opener.start, text.length⟩) = true := by
    rw [between, Text.slice, List.take_left, ← htext, List.drop_append_of_le_length hstart]
    exact Text.occursBounded_line hkey hx y
  refine ⟨text ++ source.drop b.closer.start, _, front ++ b.opener :: flattenAll b.inner,
    b.closer :: back, flattenAll inserted, a.length + 1 + x.length, text.length, ?_, hparse, ?_, rfl,
    hus, ?_, ?_, ?_, ?_⟩
  · rw [insertRegistration_eq h hfound hbody, if_neg (by rw [habsent]; exact Bool.false_ne_true), hresult]
    rfl
  · rw [hb.tokens]
    simp
  · rw [htokens, ← he]
    rfl
  · rw [← he]
    rfl
  · have hkeeps := insertInBody_keeps source found b.span statement.toList
    rwa [hresult] at hkeeps
  · rw [insertRegistration_eq hparse hfound' hbody', if_pos hpresent]

/-! ### A body that ends with a comment -/

def callerText : List Char := "fn a() \x7b\n    b(); // c\n\x7d\n".toList

def callerFunction : Node := .mk (.item .function (some "a") (some ⟨7, 23⟩)) 0 0 24 []

def callerTree : Tree := ⟨callerText, .mk .file 0 0 25 [callerFunction], 0⟩

/-- The trees of `d();`. -/
def callTrees : List TokenTree :=
  [.leaf ⟨.ident, "d", 0, 1⟩, .group ⟨.punct, "(", 1, 2⟩ [] ⟨.punct, ")", 2, 3⟩,
    .leaf ⟨.punct, ";", 3, 4⟩]

/-- The statement goes behind the comment. -/
theorem insertRegistration_inserts_callerSample :
    ∃ result, apply callerText (.insertRegistration "a" "d();" "d") none = .ok result ∧
      result = "fn a() \x7b\n    b(); // c\n    d();\n\x7d\n".toList ∧
      apply result (.insertRegistration "a" "d();" "d") none = .ok result := by
  have h : Rust.parse callerText = .ok callerTree := eq_ok_of_toOption (by decide +kernel)
  have hfound : callerTree.find? "a" [.function] = some callerFunction := by decide
  have hline : ("d();".toList.any Text.isLineBoundary) = false := by decide
  have hstatement : IsStatement "d();".toList :=
    ⟨fun c hc => Bool.not_eq_true _ ▸ List.any_eq_false.mp hline c hc, by decide,
      flattenAll callTrees, callTrees, eq_ok_of_toOption (by decide +kernel),
      eq_ok_of_toOption (by decide)⟩
  have hkey : Text.occursBounded "d".toList "d();".toList = true := by decide
  obtain ⟨result, _, _, _, _, _, _, hresult, _, _, _, _, _, _, _, hagain⟩ :=
    (insertRegistration_inserts h hfound rfl hstatement hkey (by decide) none).2 (by decide)
  have heval : apply callerText (.insertRegistration "a" "d();" "d") none =
      .ok "fn a() \x7b\n    b(); // c\n    d();\n\x7d\n".toList := eq_ok_of_toOption (by decide +kernel)
  obtain rfl := Except.ok.inj (hresult.symm.trans heval)
  exact ⟨_, hresult, rfl, hagain⟩

end ContractSync.Edit
