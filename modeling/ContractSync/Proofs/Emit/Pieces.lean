import ContractSync.Emit.Testing
import ContractSync.Emit.Text
import ContractSync.Proofs.Name.Words
import ContractSync.Proofs.Rust.Line
import ContractSync.Proofs.Rust.Writing
import ContractSync.Proofs.Text.Parts
import ContractSync.Proofs.Text.Ranges

/-!
# Pieces of written code

Templates write fixed pieces around what they take over from a document. What is plain to see of them is
decided for all of them together: with which delimiters they begin and end (`passes_piece`), what they are
lexed to (`writes_piece`), and which of them end a name or a number (`isBreak_piece`).

The lines of a documentation comment hold no line feed, whatever the texts of a document hold
(`newline_notMem_docLines`), so **a documentation comment is lexed to nothing** (`writes_docComment`). What
is written into another comment as it stands must hold no line feed itself (`writes_remark`).

**A text in quotes is read as one literal, whatever it holds and whatever follows** (`lexes_quoted`):
behind each backslash that is written stands the character it escapes, so no quote ends the literal but
the last one. Without these backslashes the literal holds the text again, and what follows on other lines is
not touched (`tokenize_quoted`). A text without quotes and backslashes is written as it is, also behind the
letter of a byte string (`writes_bytes`).
-/

/-! ### Fixed pieces -/

namespace ContractSync.Emit

open Rust (Anything Passes Token Writes marksOf? nest)
open Rust.Lexer (IsBreak)

variable {text : String}

/-- A fixed piece, with the delimiters that are due in front of it and behind it. -/
structure Piece where
  text : String
  before : List String
  behind : List String

/-- The pieces of arguments, links, stubs and calls. -/
def pieces : List Piece :=
  [⟨">", [], []⟩, ⟨", ", [], []⟩, ⟨": ", [], []⟩, ⟨" = ", [], []⟩, ⟨";", [], []⟩, ⟨"    ", [], []⟩, ⟨"\n", [], []⟩,
   ⟨"(", [], [")"]⟩, ⟨")", [")"], []⟩, ⟨", ", [")"], [")"]⟩, ⟨"format!(", [], [")"]⟩, ⟨"let ", [], []⟩,
   ⟨"query.", [], []⟩, ⟨"body.", [], []⟩, ⟨"web::", [], []⟩, ⟨"web::Path<", [], []⟩, ⟨"web::Query<", [], []⟩,
   ⟨"web::Json<", [], []⟩, ⟨"web::Form<", [], []⟩, ⟨"web::ReqData<", [], []⟩, ⟨"web::Header<String>", [], []⟩,
   ⟨"Option<", [], []⟩, ⟨"security::", [], []⟩, ⟨"security::Authenticated<", [], []⟩,
   ⟨"security::scopes::", [], []⟩, ⟨"    // -- Generated Links --\n", [], []⟩,
   ⟨"    // ---------------------\n\n", [], []⟩, ⟨"    // Required Response Headers:\n", [], []⟩,
   ⟨"    // Example:\n    // HttpResponse::[Status]()\n", [], []⟩, ⟨"    //     .json(body)\n", [], []⟩,
   ⟨"    //     .append_header((\"Link\", ...))\n", [], []⟩, ⟨"    //     .finish()\n", [], []⟩,
   ⟨"    todo!()\n", [], []⟩]

/-- The delimiters of all pieces are as they look. -/
theorem nest_pieces : ∀ p ∈ pieces, (marksOf? p.text.toList).bind (nest p.before) = some p.behind := by
  decide

theorem passes_piece {before behind : List String} (h : ⟨text, before, behind⟩ ∈ pieces) :
    Passes Anything before behind text.toList :=
  .of_marks (nest_pieces _ h)

/-- What pieces of heads and bodies are lexed to. -/
def written : List (String × List Token) :=
  [("(", [⟨.punct, "(", 0, 0⟩]), (") -> ", [⟨.punct, ")", 0, 0⟩, ⟨.punct, "->", 0, 0⟩]),
   (" \x7b\n", [⟨.punct, "\x7b", 0, 0⟩]), ("\x7d\n", [⟨.punct, "\x7d", 0, 0⟩]),
   ("pub async fn ", [⟨.ident, "pub", 0, 0⟩, ⟨.ident, "async", 0, 0⟩, ⟨.ident, "fn", 0, 0⟩]),
   ("#[deprecated]\n", [⟨.punct, "#", 0, 0⟩, ⟨.punct, "[", 0, 0⟩, ⟨.ident, "deprecated", 0, 0⟩,
     ⟨.punct, "]", 0, 0⟩])]

theorem marks_written : ∀ p ∈ written, marksOf? p.1.toList = some p.2 := by decide

theorem writes_piece {marks : List Token} (h : (text, marks) ∈ written) : Writes Anything text.toList marks :=
  .of_marks (marks_written _ h)

/-- The pieces that stand behind names and numbers. -/
def breakPieces : List String := [">", ">>", ", ", ")", ") -> ", " = ", ";", ": ", "(", " \x7b\n"]

theorem isBreak_piece (h : text ∈ breakPieces) (rest : List Char) : IsBreak (text.toList ++ rest) := by
  have hall : ∀ text ∈ breakPieces, IsBreak text.toList ∧ text.toList ≠ [] := by decide +kernel
  exact (hall text h).1.append (hall text h).2 rest

/-- The names of arguments that are not named for a parameter. -/
def givenNames : List String := ["path", "query", "body", "_auth"]

theorem isIdentifier_given (h : text ∈ givenNames) : Rust.IsIdentifier text := by
  have hall : ∀ text ∈ givenNames, Rust.IsIdentifier text := by decide
  exact hall text h

end ContractSync.Emit

/-! ### Comments -/

namespace ContractSync.Text

/-- A line feed stands in no line. -/
theorem newline_notMem_lines (cs : List Char) : ∀ line ∈ lines cs, ∀ c ∈ line, c ≠ '\n' := by
  fun_induction lines cs with
  | case1 => exact List.forall_mem_nil _
  | case2 rest ih => exact List.forall_mem_cons.mpr ⟨List.forall_mem_nil _, ih⟩
  | case3 c rest _ _ ih => exact List.forall_mem_cons.mpr ⟨List.forall_mem_nil _, ih⟩
  | case4 c rest _ hline ih =>
    refine Name.forall_mem_pushFront ?_ ih
    rintro rfl
    exact hline (by decide)

end ContractSync.Text

namespace ContractSync.Emit

open Rust (Anything Writes)

/-- The lines of comments have no line feed. -/
theorem newline_notMem_docLines (texts : List (Option String)) :
    ∀ line ∈ docLines texts, '\n' ∉ line.toList := by
  have hone : ∀ text, ∀ line ∈ docLinesOf text, '\n' ∉ line.toList := by
    intro text line hline
    obtain ⟨cs, hcs, rfl⟩ := List.mem_map.mp hline
    rw [String.toList_ofList]
    exact fun hmem => Text.newline_notMem_lines _ cs hcs _ (Text.mem_of_mem_dropEndWhile hmem) rfl
  refine Text.forall_mem_intercalate (by decide) fun part hpart => ?_
  obtain ⟨text, -, rfl⟩ := List.mem_map.mp hpart
  exact hone text

/-- A line of a comment behind blanks, up to its end. -/
theorem writes_remark (lead line : List Char) (hlead : Text.isAllBlank lead = true) (hline : '\n' ∉ line) :
    Writes Anything (lead ++ '/' :: '/' :: (line ++ ['\n'])) [] := by
  have hall := (Writes.blanks hlead).and (Writes.comment hline)
  rwa [List.append_nil] at hall

theorem writes_docLine {indent line : String} (hindent : Text.isAllBlank indent.toList = true)
    (hline : '\n' ∉ line.toList) : Writes Anything (docLine indent line).toList [] := by
  have hspace : '\n' ∉ (if line.isEmpty then "" else " " ++ line).toList := by
    split
    · decide
    · rw [String.toList_append, List.mem_append, not_or]
      exact ⟨by decide, hline⟩
  have hslash : "///".toList = ['/', '/', '/'] := by decide
  have hend : "\n".toList = ['\n'] := by decide
  have hwrites := writes_remark _ ('/' :: (if line.isEmpty then "" else " " ++ line).toList) hindent
    (fun h => (List.mem_cons.mp h).elim (by decide) hspace)
  unfold docLine
  rw [String.toList_append, String.toList_append, String.toList_append, hslash, hend, List.append_assoc,
    List.append_assoc]
  exact hwrites

/-- **A documentation comment is lexed to nothing.** -/
theorem writes_docComment {indent : String} {lines : List String}
    (hindent : Text.isAllBlank indent.toList = true) (hlines : ∀ line ∈ lines, '\n' ∉ line.toList) :
    Writes Anything (docComment indent lines).toList [] := by
  unfold docComment
  rw [String.toList_join, List.flatMap_map]
  induction lines with
  | nil => exact .nil
  | cons line lines ih =>
    obtain ⟨hline, hlines⟩ := List.forall_mem_cons.mp hlines
    exact (writes_docLine hindent hline).and (ih hlines)

end ContractSync.Emit

/-! ### Quoted texts -/

namespace ContractSync.Emit

open Rust (Anything Token Writes tokenize)
open Rust.Lexer (Run literal quotedLength quotedLength_cons rawMarker startsWith step tokenStep)

theorem escapeChars_cons (c : Char) (cs : List Char) :
    escapeChars (c :: cs) = (if c = '\\' ∨ c = '"' then ['\\', c] else [c]) ++ escapeChars cs :=
  List.flatMap_cons

/-- A literal ends at the first quote that no backslash escapes. -/
theorem quotedLength_escapeChars (cs rest : List Char) :
    quotedLength '"' (escapeChars cs ++ '"' :: rest) = some ((escapeChars cs).length + 1) := by
  induction cs with
  | nil => rfl
  | cons c cs ih =>
    rw [escapeChars_cons]
    split
    · -- A character that is escaped stands behind its backslash.
      show quotedLength '"' ('\\' :: c :: (escapeChars cs ++ '"' :: rest)) = _
      rw [quotedLength_cons, if_pos rfl]
      simp only [ih, Option.map_some, List.length_append, List.length_cons, List.length_nil]
      congr 1
      omega
    · rename_i hc
      rw [not_or] at hc
      show quotedLength '"' (c :: (escapeChars cs ++ '"' :: rest)) = _
      rw [quotedLength_cons, if_neg hc.1, if_neg hc.2, ih]
      simp only [Option.map_some, List.length_append, List.length_cons, List.length_nil]
      congr 1
      omega

theorem escapeChars_eq_self {cs : List Char} (h : ∀ c ∈ cs, c ≠ '"' ∧ c ≠ '\\') :
    escapeChars cs = cs := by
  induction cs with
  | nil => rfl
  | cons c cs ih =>
    obtain ⟨⟨hquote, hslash⟩, hcs⟩ := List.forall_mem_cons.mp h
    rw [escapeChars_cons, ih hcs, if_neg (not_or.mpr ⟨hslash, hquote⟩)]
    rfl

theorem quoted_toList (s : String) : (quoted s).toList = '"' :: (escapeChars s.toList ++ ['"']) := by
  simp [quoted, escape]

/-- **A quoted text is one literal.** -/
theorem lexes_quoted (s : String) :
    Rust.Lexes Anything (quoted s).toList [⟨.literal, quoted s, 0, (quoted s).toList.length⟩] := by
  intro rest _
  have hclass : Text.isBlank '"' = false ∧ Rust.Lexer.isIdentStart '"' = false :=
    ⟨by decide, Rust.Lexer.not_isIdentStart_of_mark (by decide)⟩
  have hstep : step '"' (escapeChars s.toList ++ '"' :: rest) =
      .ok ⟨some .literal, (escapeChars s.toList ++ ['"']).length⟩ := by
    simp [step, tokenStep, rawMarker, literal, hclass, quotedLength_escapeChars]
  have hemit := Run.emit (p := 0) (w := escapeChars s.toList ++ ['"']) (r := rest)
    (by rwa [List.append_assoc]) (.refl _ _)
  rw [Nat.zero_add, ← quoted_toList, String.ofList_toList] at hemit
  rw [quoted_toList]
  exact hemit

theorem writes_quoted (s : String) :
    Writes Anything (quoted s).toList [⟨.literal, quoted s, 0, 0⟩] := ⟨_, lexes_quoted s, rfl⟩

/-- A byte string without quotes and backslashes is one literal. -/
theorem writes_bytes {cs : List Char} (h : ∀ c ∈ cs, c ≠ '"' ∧ c ≠ '\\') :
    Writes Anything ('b' :: '"' :: (cs ++ ['"']))
      [⟨.literal, String.ofList ('b' :: '"' :: (cs ++ ['"'])), 0, 0⟩] := by
  refine ⟨[⟨.literal, String.ofList ('b' :: '"' :: (cs ++ ['"'])), 0, cs.length + 3⟩],
    fun rest _ => ?_, rfl⟩
  have hlength := quotedLength_escapeChars cs rest
  rw [escapeChars_eq_self h] at hlength
  have hclass : Text.isBlank 'b' = false := by decide
  have hstep : step 'b' ('"' :: (cs ++ '"' :: rest)) =
      .ok ⟨some .literal, ('"' :: (cs ++ ['"'])).length⟩ := by
    simp [step, tokenStep, rawMarker, literal, hclass, hlength, startsWith, Nat.add_comm 1]
  have hemit := Run.emit (p := 0) (w := '"' :: (cs ++ ['"'])) (r := rest)
    (by rwa [List.cons_append, List.append_assoc]) (.refl _ _)
  rw [Nat.zero_add] at hemit
  simpa using hemit

/-! ### What a literal holds -/

/-- The text with another one in place of a character, wherever it stands. -/
def substitute (c : Char) (text cs : List Char) : List Char :=
  cs.flatMap fun d => if d = c then text else [d]

/-- **Escaping is two replacements.** Backslashes are doubled first, so those in front of quotes are not. -/
theorem escapeChars_eq_substitute (cs : List Char) :
    escapeChars cs = substitute '"' ['\\', '"'] (substitute '\\' ['\\', '\\'] cs) := by
  induction cs with
  | nil => rfl
  | cons c cs ih =>
    have hcons : substitute '"' ['\\', '"'] (substitute '\\' ['\\', '\\'] (c :: cs)) =
        substitute '"' ['\\', '"'] (if c = '\\' then ['\\', '\\'] else [c]) ++
          substitute '"' ['\\', '"'] (substitute '\\' ['\\', '\\'] cs) := by
      rw [substitute, substitute, substitute, List.flatMap_cons, List.flatMap_append]
      rfl
    rw [escapeChars_cons, hcons, ← ih, List.append_left_inj]
    by_cases hslash : c = '\\'
    · subst hslash
      decide
    · rw [if_neg hslash, substitute, List.flatMap_singleton]
      by_cases hquote : c = '"'
      · rw [if_pos (.inr hquote), if_pos hquote, hquote]
      · rw [if_neg (not_or.mpr ⟨hslash, hquote⟩), if_neg hquote]

/-- In the other order a quote would end the literal. -/
example : quotedLength '"' (substitute '\\' ['\\', '\\'] (substitute '"' ['\\', '"'] ['"']) ++ ['"']) =
    some 3 := by
  decide

/-- The text that stands escaped between quotes: each backslash stands in front of a backslash or a quote,
and each quote behind one. -/
def unescaped? : List Char → Option (List Char)
  | [] => some []
  | '\\' :: c :: rest => if c = '\\' ∨ c = '"' then (unescaped? rest).map (c :: ·) else none
  | c :: rest => if c = '\\' ∨ c = '"' then none else (unescaped? rest).map (c :: ·)

theorem unescaped?_cons {c : Char} (h : ¬ (c = '\\' ∨ c = '"')) (rest : List Char) :
    unescaped? (c :: rest) = (unescaped? rest).map (c :: ·) := by
  rw [unescaped?, if_neg h]
  intro _ _ hslash _
  exact h (.inl hslash)

/-- **An escaped text is read as what it was, and no other text is.** -/
theorem unescaped?_eq_some_iff {inside cs : List Char} :
    unescaped? inside = some cs ↔ inside = escapeChars cs := by
  constructor
  · intro h
    fun_induction unescaped? inside generalizing cs with
    | case1 =>
      cases h
      rfl
    | case2 c rest hc ih =>
      obtain ⟨cs, hcs, rfl⟩ := Option.map_eq_some_iff.mp h
      rw [escapeChars_cons, if_pos hc, ih hcs]
      rfl
    | case3 | case4 => cases h
    | case5 c rest _ hc ih =>
      obtain ⟨cs, hcs, rfl⟩ := Option.map_eq_some_iff.mp h
      rw [escapeChars_cons, if_neg hc, ih hcs]
      rfl
  · rintro rfl
    induction cs with
    | nil => rfl
    | cons c cs ih =>
      rw [escapeChars_cons]
      split
      · rename_i hc
        show unescaped? ('\\' :: c :: escapeChars cs) = _
        rw [unescaped?, if_pos hc, ih]
        rfl
      · rename_i hc
        show unescaped? (c :: escapeChars cs) = _
        rw [unescaped?_cons hc, ih]
        rfl

/-- The token is a literal at the start of a text, with quotes around the escaped text. -/
structure IsLiteralOf (s : String) (t : Token) : Prop where
  kind : t.kind = .literal
  start : t.start = 0
  stop : t.stop = (quoted s).toList.length
  text : t.text = quoted s
  escaped : t.text.toList =
    '"' :: (substitute '"' ['\\', '"'] (substitute '\\' ['\\', '\\'] s.toList) ++ ['"'])
  unescaped : ∀ inside, t.text.toList = '"' :: (inside ++ ['"']) ↔ unescaped? inside = some s.toList

theorem isLiteralOf_quoted (s : String) :
    IsLiteralOf s ⟨.literal, quoted s, 0, (quoted s).toList.length⟩ where
  kind := rfl
  start := rfl
  stop := rfl
  text := rfl
  escaped := by rw [quoted_toList, escapeChars_eq_substitute]
  unescaped inside := by
    rw [unescaped?_eq_some_iff, quoted_toList, List.cons_inj_right, List.append_left_inj]
    exact eq_comm

/-- **A quoted text is one literal, whatever it holds, and what follows on the next lines is read as it is on
its own.** -/
theorem tokenize_quoted (s : String) {following : List Char} {us : List Token}
    (h : tokenize following = .ok us) :
    ∃ t, IsLiteralOf s t ∧ tokenize (quoted s).toList = .ok [t] ∧
      tokenize ((quoted s).toList ++ '\n' :: following) =
        .ok (t :: us.map (Token.shift ((quoted s).toList.length + 1))) := by
  have halone := (lexes_quoted s).tokenize trivial
  refine ⟨_, isLiteralOf_quoted s, halone, ?_⟩
  rw [Rust.tokenize_line halone, h]
  rfl

/-- A text that holds quotes and a backslash at its end, in front of a comment that looks like a quote. -/
theorem tokenize_quoted_backslash : tokenize "// \"\nx".toList = .ok [⟨.ident, "x", 5, 6⟩] ∧
    ∃ t, IsLiteralOf "say \"hi\" \\" t ∧ tokenize (quoted "say \"hi\" \\").toList = .ok [t] ∧
      tokenize ((quoted "say \"hi\" \\").toList ++ '\n' :: "// \"\nx".toList) =
        .ok [t, ⟨.ident, "x", 21, 22⟩] := by
  have hfollowing : tokenize "// \"\nx".toList = .ok [⟨.ident, "x", 5, 6⟩] := by decide +kernel
  have hlength : (quoted "say \"hi\" \\").toList.length = 15 := by decide
  obtain ⟨t, ht, halone, hall⟩ := tokenize_quoted "say \"hi\" \\" hfollowing
  rw [hlength] at hall
  exact ⟨hfollowing, t, ht, halone, hall⟩

end ContractSync.Emit

/-!
## Methods in written code

A known method has a builder of its own; any other one is written in capitals in a byte string. **A method
without quotes and backslashes is written as balanced code** (`passes_methodCall`, `passes_requestCall`),
also in capitals, which bring neither of them in.
-/

namespace ContractSync.Emit

open Rust (Anything Passes marksOf? nest)

variable {method : String}

/-- The method can stand in quotes as it is. -/
def IsQuotable (method : String) : Prop := ∀ c ∈ method.toList, c ≠ '"' ∧ c ≠ '\\'

instance : DecidablePred IsQuotable := fun method =>
  inferInstanceAs (Decidable (∀ c ∈ method.toList, _))

theorem upperMethod_toList (method : String) :
    (upperMethod method).toList = Text.upper method.toList :=
  String.toList_ofList

theorem methodValue_toList (method : String) :
    (methodValue method).toList = "actix_web::http::Method::from_bytes(".toList ++
      'b' :: '"' :: (Text.upper method.toList ++ '"' :: ").unwrap()".toList) := by
  have hopen : "actix_web::http::Method::from_bytes(b\"".toList =
      "actix_web::http::Method::from_bytes(".toList ++ ['b', '"'] := by decide
  have hclose : "\").unwrap()".toList = '"' :: ").unwrap()".toList := by decide
  have htext : (methodValue method).toList =
      "actix_web::http::Method::from_bytes(b\"".toList ++ Text.upper method.toList ++
        "\").unwrap()".toList := by
    unfold methodValue
    simp only [String.toList_append, upperMethod_toList]
  have hparts := congrArg₂ (fun a b => a ++ Text.upper method.toList ++ b) hopen hclose
  rw [htext.trans hparts]
  simp only [List.append_assoc, List.cons_append, List.nil_append]

theorem passes_methodValue (h : IsQuotable method) :
    Passes Anything [] [] (methodValue method).toList := by
  have hlead : Passes Anything [] [")"] "actix_web::http::Method::from_bytes(".toList :=
    .const rfl (by decide)
  have hbytes := Passes.leaf (writes_bytes (Text.ne_quote_upper h)) nofun [")"]
  have htail : Passes Anything [")"] [] ").unwrap()".toList :=
    .const rfl (by decide)
  have hall := hlead.and (hbytes.and htail)
  rw [methodValue_toList]
  simpa only [List.append_assoc, List.cons_append, List.nil_append] using hall

/-- A method among those with a builder, else the call that takes its value. -/
theorem passes_call (methods : List String) (lead tail : String) (h : IsQuotable method)
    (hmethods : ∀ m ∈ methods, (marksOf? (m ++ "()").toList).bind (nest []) = some [])
    (hlead : (marksOf? lead.toList).bind (nest []) = some [")"])
    (htail : (marksOf? tail.toList).bind (nest [")"]) = some []) :
    Passes Anything [] []
      (if methods.contains (Route.lowerMethod method) then Route.lowerMethod method ++ "()"
        else lead ++ methodValue method ++ tail).toList := by
  split
  · rename_i hknown
    exact .of_marks (hmethods _ (List.contains_iff_mem.mp hknown))
  · simp only [String.toList_append, List.append_assoc]
    exact (Passes.of_marks hlead).and (((passes_methodValue h).balanced [")"]).and (.of_marks htail))

theorem passes_methodCall (h : IsQuotable method) :
    Passes Anything [] [] (methodCall method).toList :=
  passes_call builderMethods "method(" ")" h (by decide) (by decide)
    (by decide)

theorem passes_requestCall (h : IsQuotable method) :
    Passes Anything [] [] (requestCall method).toList :=
  passes_call requestMethods "default().method(" ")" h (by decide) (by decide)
    (by decide)

end ContractSync.Emit
