import ContractSync.Emit.Handler
import ContractSync.Proofs.Emit.Arguments
import ContractSync.Proofs.Emit.Pieces
import ContractSync.Proofs.Rust.ItemText

/-!
# The text of a handler

A link is built by a statement, and a comment behind it shows how to send it. The name of the link goes into
the comment and the names of its parameters go into the statement as they are, so they must fit there
(`FitsLines`); the target and the expressions stand in literals. **The statement of a link that fits is
complete** (`passes_buildLink`).

A stub takes over free text of a document: in documentation comments, which are written line by line, in
literals, and in line comments and statements, which it must fit (`FitsStub`). **A stub is written as one
function with a body**, named for the handler (`exists_handlerStub`), and it can be written wherever the
document holds strings (`parse_handlerStub`). A header whose description goes on behind a line feed does not
fit: the rest of it is read as code (`parse_handlerStub_fails`).
-/

namespace ContractSync.Emit

open Document (Value)
open Route (Header Link)
open Rust (Anything IsAttributes IsItemText Passes Token TokenTree Writes WritesInner)
open Rust.Lexer (IsBreak)

/-- The value is a string or nothing. -/
def IsTextOrNull (v : Value) : Prop := v = .null ∨ ∃ s, v = .text s

/-- The text can be written in front of a blank. -/
def FitsBeforeBlank (text : String) : Prop :=
  Passes (fun rest => ∃ more, rest = ' ' :: more) [] [] text.toList

theorem fitsBeforeBlank_of_isIdentifier {name : String} (h : Rust.IsIdentifier name) :
    FitsBeforeBlank name := by
  refine (Passes.leaf (Writes.identifier h) nofun []).mono ?_
  rintro rest ⟨more, rfl⟩
  exact (Rust.Lexer.isGap_of_mem_gapMarks (by decide)).append (List.cons_ne_nil _ _) more

/-- The target of the link holds a place for the parameter. -/
def Uses (link : Link) (parameter : String) : Prop :=
  ∃ target, linkTarget link = .ok target ∧ target.holdsText ("\x7b" ++ parameter ++ "\x7d") = .ok true

/-- What a handler takes over from the link as it stands fits where it is written. -/
structure FitsLines (link : Link) : Prop where
  name : ∀ name, link.name = .text name → '\n' ∉ name.toList
  parameters : ∀ p ∈ link.parameters, Uses link p.1 → FitsBeforeBlank p.1

variable {link : Link}

theorem IsPart.letters {text : String} (h : ∀ c ∈ text.toList, Text.isWordChar c = true) :
    IsPart text := by
  by_cases hempty : text.toList = []
  · rw [IsPart, hempty]
    exact ⟨[], .nil, rfl⟩
  · exact .word ⟨hempty, h⟩

theorem isPart_quoted (text : String) : IsPart (quoted text) :=
  (Passes.leaf (writes_quoted text) nofun []).mono fun _ _ => trivial

theorem isPart_runtimeText (expression : String) : IsPart (runtimeText expression) := by
  unfold runtimeText
  split
  · exact .letters Name.isWordChar_of_mem_snake
  · split
    · refine .behind (passes_piece (by simp [pieces])) ?_
      have hkind : Rust.TokenKind.ident ≠ .punct := by decide
      exact (Passes.leaf (Writes.identifier (Name.isIdentifier_fieldName _)) hkind []).mono fun _ hrest => hrest.1
    · split
      · exact .behind (passes_piece (by simp [pieces])) (.letters Name.isWordChar_of_mem_snake)
      · exact isPart_quoted expression

/-- The arguments of a link are those parameters that its target holds. -/
theorem isPart_linkArguments (h : FitsLines link) {target : Value}
    (htarget : linkTarget link = .ok target) {arguments : List String}
    (harguments : linkArguments target link.parameters = .ok arguments) :
    ∀ text ∈ arguments, IsPart text := by
  obtain ⟨found, hfound, harguments⟩ := bind_eq_ok.mp harguments
  rw [pure_eq_ok.mp harguments]
  intro text htext
  obtain ⟨result, hresult, htext⟩ := List.mem_filterMap.mp htext
  obtain ⟨p, hp, hstep⟩ := exists_of_mem_mapM hfound result hresult
  obtain ⟨holds, hholds, hstep⟩ := bind_eq_ok.mp hstep
  obtain rfl : result = some text := htext
  cases holds with
  | false => cases hstep
  | true =>
    cases hstep
    have hname := h.parameters p hp ⟨target, htarget, hholds⟩
    have hequals : Passes Anything [] [] " = ".toList := passes_piece (by simp [pieces])
    have hblank : " = ".toList = [' ', '=', ' '] := by decide
    rw [IsPart, String.toList_append, String.toList_append, List.append_assoc]
    refine Passes.append hname (hequals.and (isPart_runtimeText p.2)) fun rest _ => ?_
    rw [hblank]
    exact ⟨_, rfl⟩

/-- The value of a link: its target, with the arguments filled in. -/
theorem isPart_linkValue (target : String) {arguments : List String} (h : ∀ text ∈ arguments, IsPart text) :
    IsPart (if arguments.isEmpty then quoted target
      else "format!(" ++ quoted target ++ ", " ++ ", ".intercalate arguments ++ ")") := by
  split
  · exact isPart_quoted target
  · have hopen : Passes Anything [] [")"] "format!(".toList := passes_piece (by simp [pieces])
    have htarget := Passes.leaf (writes_quoted target) (show Rust.TokenKind.literal ≠ .punct by decide) [")"]
    have hcomma : Passes Anything [")"] [")"] ", ".toList := passes_piece (by simp [pieces])
    have hclose : Passes Anything [")"] [] ")".toList := passes_piece (by simp [pieces])
    have harguments := Passes.append ((IsPart.join h).balanced [")"]) hclose fun rest _ =>
      isBreak_piece (by simp [breakPieces]) rest
    have hall := hopen.and (htarget.and (hcomma.and harguments))
    simp only [IsPart, String.toList_append, List.append_assoc]
    exact hall.mono fun _ _ => trivial

theorem newline_notMem_escape {s : String} (h : '\n' ∉ s.toList) : '\n' ∉ (escape s).toList := by
  rw [escape, String.toList_ofList, escapeChars, List.mem_flatMap]
  rintro ⟨c, hc, hmem⟩
  split at hmem
  · rcases List.mem_cons.mp hmem with heq | heq
    · cases heq
    · exact h (List.mem_singleton.mp heq ▸ hc)
  · exact h (List.mem_singleton.mp hmem ▸ hc)

/-- **The statement that builds a link is complete**, and what its comment mentions stands on one line. -/
theorem passes_buildLink (h : FitsLines link) {built : BuiltLink} (hbuilt : buildLink link = .ok built) :
    Passes Anything [] [] built.statement.toList ∧ '\n' ∉ built.name.toList ∧
      '\n' ∉ built.holder.toList := by
  unfold buildLink at hbuilt
  split at hbuilt
  · rename_i name hname
    obtain ⟨target, htarget, hbuilt⟩ := bind_eq_ok.mp hbuilt
    obtain ⟨arguments, harguments, hbuilt⟩ := bind_eq_ok.mp hbuilt
    rw [pure_eq_ok.mp hbuilt]
    have hsnake : Name.IsWord (if (Name.snake name).isEmpty then "target" else Name.snake name) := by
      split
      · exact ⟨by decide, by decide⟩
      · rename_i hne
        refine ⟨fun h => hne ?_, Name.isWordChar_of_mem_snake⟩
        rw [String.toList_eq_nil_iff.mp h]
        rfl
    have hholder : Name.IsWord ("link_" ++
        if (Name.snake name).isEmpty then "target" else Name.snake name) :=
      Name.isWord_append (by decide) hsnake
    refine ⟨?_, newline_notMem_escape (h.name name hname), fun hmem =>
      absurd (hholder.chars _ hmem) (by decide)⟩
    have hlet : Passes Anything [] [] "let ".toList := passes_piece (by simp [pieces])
    have hequals : Passes Anything [] [] " = ".toList := passes_piece (by simp [pieces])
    have hend : Passes Anything [] [] ";".toList := passes_piece (by simp [pieces])
    have hvalue := Passes.append (isPart_linkValue target.display (isPart_linkArguments h htarget harguments))
      hend fun rest _ => isBreak_piece (by simp [breakPieces]) rest
    have hall := hlet.and (Passes.append (IsPart.word hholder) (hequals.and hvalue) fun rest _ => by
      rw [List.append_assoc]
      exact isBreak_piece (by simp [breakPieces]) _)
    rw [String.toList_append, String.toList_append, String.toList_append, String.toList_append,
      List.append_assoc, List.append_assoc, List.append_assoc]
    exact hall
  · cases hbuilt

/-! ### Links that are built -/

/-- What the link says of itself and of its target are strings. -/
structure IsTextualLink (link : Link) : Prop where
  name : ∃ name, link.name = .text name
  operationRef : IsTextOrNull link.operationRef
  operationId : IsTextOrNull link.operationId

/-- Such a link leads to a text. -/
theorem IsTextualLink.exists_target (h : IsTextualLink link) :
    ∃ target, linkTarget link = .ok (.text target) := by
  have hown : ∃ target, (if link.operationId.isPresent then link.operationId else .text "") =
      Value.text target := by
    rcases h.operationId with hnull | ⟨s, hs⟩
    · rw [hnull]
      exact ⟨"", rfl⟩
    · rw [hs]
      split
      · exact ⟨s, rfl⟩
      · exact ⟨"", rfl⟩
  obtain ⟨target, htarget⟩ := hown
  unfold linkTarget
  rcases h.operationRef with hnull | ⟨ref, href⟩
  · rw [hnull]
    exact ⟨target, congrArg _ htarget⟩
  · rw [href]
    simp only
    split
    · exact ⟨target, congrArg _ htarget⟩
    · split
      · split <;> exact ⟨_, rfl⟩
      · exact ⟨ref, rfl⟩

/-- Such a link can be built. -/
theorem IsTextualLink.exists_buildLink (h : IsTextualLink link) : ∃ built, buildLink link = .ok built := by
  obtain ⟨name, hname⟩ := h.name
  obtain ⟨target, htarget⟩ := h.exists_target
  have harguments : ∃ arguments, linkArguments (.text target) link.parameters = .ok arguments := by
    have hfound : ∃ found, link.parameters.mapM (fun p : String × String => (do
        return if ← (Value.text target).holdsText ("\x7b" ++ p.1 ++ "\x7d") then
          some (p.1 ++ " = " ++ runtimeText p.2)
        else none : Except Fault (Option String))) = .ok found := exists_mapM fun p _ => ⟨_, rfl⟩
    obtain ⟨found, hfound⟩ := hfound
    exact ⟨found.filterMap id, bind_eq_ok.mpr ⟨found, hfound, rfl⟩⟩
  obtain ⟨arguments, harguments⟩ := harguments
  unfold buildLink
  simp only [hname, htarget, harguments, bind, Except.bind]
  exact ⟨_, rfl⟩

variable {route : Route}

/-! ### The lines of a body -/

theorem passes_join {texts : List String} (h : ∀ text ∈ texts, Passes Anything [] [] text.toList) :
    Passes Anything [] [] (String.join texts).toList := by
  induction texts with
  | nil => exact ⟨[], .nil, rfl⟩
  | cons text texts ih =>
    obtain ⟨htext, htexts⟩ := List.forall_mem_cons.mp h
    rw [String.join_cons, String.toList_append]
    exact htext.and (ih htexts)

/-- A comment that is put together from a text that opens it, others, and one that ends its line. -/
theorem passes_remark (lead close : String) {a b : List Char} (line : List Char)
    (hlead : lead.toList = "    //".toList ++ a) (hclose : close.toList = b ++ ['\n'])
    (hline : '\n' ∉ a ++ line ++ b) : Passes Anything [] [] (lead.toList ++ (line ++ close.toList)) := by
  have hopen : "    //".toList = "    ".toList ++ ['/', '/'] := by decide
  have hwrites := writes_remark "    ".toList _ (by decide) hline
  rw [hlead, hclose, hopen]
  refine ⟨[], ?_, rfl⟩
  simpa using hwrites

theorem passes_linkLines {built : BuiltLink} (h : Passes Anything [] [] built.statement.toList)
    (hname : '\n' ∉ built.name.toList) (hholder : '\n' ∉ built.holder.toList) :
    Passes Anything [] [] (linkLines built).toList := by
  have hindent : Passes Anything [] [] "    ".toList := passes_piece (by simp [pieces])
  have hend : Passes Anything [] [] "\n".toList := passes_piece (by simp [pieces])
  have hmiddle : '\n' ∉ "\\\"\", ".toList := by decide
  have hremark := passes_remark "    // .append_header((\"Link\", format!(\"<\x7b\x7d>; rel=\\\"" ")))\n"
    (built.name.toList ++ ("\\\"\", ".toList ++ built.holder.toList))
    (a := " .append_header((\"Link\", format!(\"<\x7b\x7d>; rel=\\\"".toList) (b := ")))".toList) (by decide) (by decide) (by
      simp only [List.mem_append, not_or]
      exact ⟨⟨by decide, hname, hmiddle, hholder⟩, by decide⟩)
  unfold linkLines
  simp only [String.toList_append, List.append_assoc] at hremark ⊢
  exact hindent.and (h.and (hend.and hremark))

theorem passes_linksBlock {links : List BuiltLink}
    (h : ∀ built ∈ links, Passes Anything [] [] built.statement.toList ∧
      '\n' ∉ built.name.toList ∧ '\n' ∉ built.holder.toList) :
    Passes Anything [] [] (linksBlock links).toList := by
  have hopen : Passes Anything [] [] "    // -- Generated Links --\n".toList :=
    passes_piece (by simp [pieces])
  have hclose : Passes Anything [] [] "    // ---------------------\n\n".toList :=
    passes_piece (by simp [pieces])
  unfold linksBlock
  split
  · exact ⟨[], .nil, rfl⟩
  · rw [String.toList_append, String.toList_append, List.append_assoc]
    refine hopen.and (Passes.and (passes_join fun text htext => ?_) hclose)
    obtain ⟨built, hbuilt, rfl⟩ := List.mem_map.mp htext
    obtain ⟨hstatement, hname, hholder⟩ := h built hbuilt
    exact passes_linkLines hstatement hname hholder

/-- The texts of the header stand on one line. -/
structure IsOnLine (header : Header) : Prop where
  name : '\n' ∉ header.name.toList
  description : ∀ text ∈ header.description, '\n' ∉ text.toList

theorem passes_headerLine {header : Header} (h : IsOnLine header) (htype : header.type.IsWorded) :
    Passes Anything [] [] (headerLine header).toList := by
  have hdescription : ∀ text, text = header.description.getD "" →
      '\n' ∉ (if text.isEmpty then "No description" else text).toList := by
    rintro text rfl
    split
    · decide
    · cases hfound : header.description with
      | none => decide
      | some text => exact h.description text hfound
  have hremark := passes_remark "    // - " ")\n" (a := " - ".toList) (b := ")".toList)
    (header.name.toList ++ (": ".toList ++ ((typeText header.type).toList ++ (" (".toList ++
      (if (header.description.getD "").isEmpty then "No description"
        else header.description.getD "").toList)))) (by decide) (by decide) (by
      simp only [List.mem_append, not_or]
      exact ⟨⟨by decide, h.name, by decide, (isTypeCode_typeText htype).newline_notMem, by decide,
        hdescription _ rfl⟩, by decide⟩)
  unfold headerLine
  simp only [String.toList_append, List.append_assoc] at hremark ⊢
  exact hremark

theorem passes_headersBlock {headers : List Header} (h : ∀ header ∈ headers, IsOnLine header)
    (htypes : ∀ header ∈ headers, header.type.IsWorded) :
    Passes Anything [] [] (headersBlock headers).toList := by
  have hopen : Passes Anything [] [] "    // Required Response Headers:\n".toList :=
    passes_piece (by simp [pieces])
  unfold headersBlock
  split
  · exact ⟨[], .nil, rfl⟩
  · rw [String.toList_append]
    refine hopen.and (passes_join fun text htext => ?_)
    obtain ⟨header, hheader, rfl⟩ := List.mem_map.mp htext
    exact passes_headerLine (h header hheader) (htypes header hheader)

theorem passes_exampleBlock (route : Route) : Passes Anything [] [] (exampleBlock route).toList := by
  have hnil : Passes Anything [] [] "".toList := ⟨[], .nil, rfl⟩
  have hopen : Passes Anything [] [] "    // Example:\n    // HttpResponse::[Status]()\n".toList :=
    passes_piece (by simp [pieces])
  have hlinks : Passes Anything [] [] (if route.responseLinks.isEmpty then ""
      else "    //     .append_header((\"Link\", ...))\n").toList := by
    split
    · exact hnil
    · exact passes_piece (by simp [pieces])
  have hresult : Passes Anything [] [] (if route.responseType.isSome then "    //     .json(body)\n"
      else "    //     .finish()\n").toList := by
    split <;> exact passes_piece (by simp [pieces])
  unfold exampleBlock
  split
  · exact hnil
  · rw [String.toList_append, String.toList_append, List.append_assoc]
    exact hopen.and (hlinks.and hresult)

/-! ### The head -/

/-- The result of a handler has no delimiters and ends no item. -/
theorem writes_returnText (h : route.IsWorded) : WritesInner IsBreak (returnText route).toList := by
  have hclose : WritesInner Anything ">>".toList := .const rfl (by decide)
  unfold returnText
  split
  · exact (WritesInner.const rfl (by decide)).mono fun _ _ => trivial
  · split
    · rename_i type htype
      have hlead : WritesInner Anything "actix_web::Result<web::Json<".toList :=
        .const rfl (by decide)
      have hbracket := (isTypeCode_typeText (h.response type htype)).writes.append hclose fun rest _ =>
        isBreak_piece (by simp [breakPieces]) rest
      rw [String.toList_append, String.toList_append, List.append_assoc]
      exact (hlead.append hbracket fun _ _ => trivial).mono fun _ _ => trivial
    · have hword : Rust.IsTypeCode "Responder" := .word ⟨by decide, by decide⟩
      have hlead : WritesInner Anything "impl ".toList := .const rfl (by decide)
      have htext : "impl Responder".toList = "impl ".toList ++ "Responder".toList := by decide
      rw [htext]
      exact hlead.append hword.writes fun _ _ => trivial

/-! ### Stubs -/

/-- What a stub takes over from the route as it stands fits where it is written. -/
structure FitsStub (route : Route) : Prop where
  headers : ∀ header ∈ route.responseHeaders, IsOnLine header
  links : ∀ link ∈ route.responseLinks, FitsLines link

/-- What the route says of its security scheme and of its links are strings. -/
structure IsTextualRoute (route : Route) : Prop where
  scheme : ∀ r ∈ route.security.head?, ∃ name, r.schemeName = .text name
  links : ∀ link ∈ route.responseLinks, IsTextualLink link

/-- The attributes of a handler. -/
def deprecation (route : Route) : List TokenTree :=
  if route.deprecated then
    [.leaf ⟨.punct, "#", 0, 0⟩,
      .group ⟨.punct, "[", 0, 0⟩ [.leaf ⟨.ident, "deprecated", 0, 0⟩] ⟨.punct, "]", 0, 0⟩]
  else []

theorem isAttributes_deprecation (route : Route) :
    IsAttributes (deprecation route) ∧ TokenTree.isNestedAll (deprecation route) = true := by
  unfold deprecation
  split
  · exact ⟨.cons rfl rfl .nil, rfl⟩
  · exact ⟨.nil, rfl⟩

/-- What stands in front of a handler's keyword and name: its comment, its attributes and its visibility. -/
theorem writes_front (route : Route) :
    Writes Anything ((docComment "" (docLines [route.summary, route.description])).toList ++
      ((if route.deprecated then "#[deprecated]\n" else "").toList ++ "pub async fn ".toList))
      (TokenTree.flattenAll (deprecation route) ++
        [⟨.ident, "pub", 0, 0⟩, ⟨.ident, "async", 0, 0⟩, ⟨.ident, "fn", 0, 0⟩]) := by
  have hdoc : Writes Anything (docComment "" (docLines [route.summary, route.description])).toList [] :=
    writes_docComment (by decide) (newline_notMem_docLines _)
  have hdeprecated : Writes Anything (if route.deprecated then "#[deprecated]\n" else "").toList
      (TokenTree.flattenAll (deprecation route)) := by
    unfold deprecation
    split
    · exact writes_piece (by simp [written, TokenTree.flattenAll, TokenTree.flatten])
    · exact .nil
  have hfn : Writes Anything "pub async fn ".toList
      [⟨.ident, "pub", 0, 0⟩, ⟨.ident, "async", 0, 0⟩, ⟨.ident, "fn", 0, 0⟩] := writes_piece (by simp [written])
  exact hdoc.and (hdeprecated.and hfn)

/-- The characters of a stub, part by part. -/
def stubText (route : Route) (arguments : List String) (links : List BuiltLink) : List Char :=
  ((docComment "" (docLines [route.summary, route.description])).toList
      ++ ((if route.deprecated then "#[deprecated]\n" else "").toList ++ "pub async fn ".toList))
    ++ (route.handlerName.toList ++ ("(".toList ++ ((", ".intercalate arguments).toList
    ++ (") -> ".toList ++ ((returnText route).toList ++ (" \x7b\n".toList
    ++ (((linksBlock links).toList ++ ((headersBlock route.responseHeaders).toList
      ++ ((exampleBlock route).toList ++ "    todo!()\n".toList))) ++ "\x7d\n".toList)))))))

theorem handlerStub_toList {arguments : List String} {stub : String}
    (h : handlerStub route arguments = .ok stub) :
    ∃ links, route.responseLinks.mapM buildLink = .ok links ∧ stub.toList = stubText route arguments links := by
  obtain ⟨links, hlinks, hstub⟩ := bind_eq_ok.mp h
  have hend : "    todo!()\n\x7d\n".toList = "    todo!()\n".toList ++ "\x7d\n".toList := by decide
  refine ⟨links, hlinks, ?_⟩
  rw [pure_eq_ok.mp hstub, stubText]
  simp only [String.toList_append, hend, List.append_assoc]

/-- **A stub is one function with a body**, named for its handler. -/
theorem exists_handlerStub (h : route.IsWorded) (hfits : FitsStub route)
    (hhandler : Rust.IsIdentifier route.handlerName) {arguments : List String} {stub : String}
    (harguments : ∀ text ∈ arguments, IsPart text) (hstub : handlerStub route arguments = .ok stub) :
    ∃ node, IsItemText stub.toList node ∧ node.itemKind? = some .function ∧
      node.name? = some route.handlerName ∧ node.body?.isSome := by
  obtain ⟨links, hlinks, htext⟩ := handlerStub_toList hstub
  have hbuilt : ∀ built ∈ links, Passes Anything [] [] built.statement.toList ∧
      '\n' ∉ built.name.toList ∧ '\n' ∉ built.holder.toList := by
    intro built hmem
    obtain ⟨link, hlink, hbuilt⟩ := exists_of_mem_mapM hlinks built hmem
    exact passes_buildLink (hfits.links link hlink) hbuilt
  obtain ⟨inside, hinside, hnest⟩ := IsPart.join harguments
  obtain ⟨trees, rfl, htrees⟩ := Rust.exists_trees_of_nest hnest
  obtain ⟨result, hresult, hinner⟩ := writes_returnText h
  have htodo : Passes Anything [] [] "    todo!()\n".toList := passes_piece (by simp [pieces])
  obtain ⟨body, hbody, hbalanced⟩ := (passes_linksBlock hbuilt).and
    ((passes_headersBlock hfits.headers h.headers).and ((passes_exampleBlock route).and htodo))
  have hopen : Writes Anything "(".toList [⟨.punct, "(", 0, 0⟩] := writes_piece (by simp [written])
  have harrow : Writes Anything ") -> ".toList [⟨.punct, ")", 0, 0⟩, ⟨.punct, "->", 0, 0⟩] :=
    writes_piece (by simp [written])
  have hbrace : Writes Anything " \x7b\n".toList [⟨.punct, "\x7b", 0, 0⟩] := writes_piece (by simp [written])
  have hclose : Writes Anything "\x7d\n".toList [⟨.punct, "\x7d", 0, 0⟩] := writes_piece (by simp [written])
  have hbreak : ∀ {text : String} {more : List Char} (rest : List Char), text ∈ breakPieces →
      IsBreak (text.toList ++ more ++ rest) := by
    intro text more rest htext
    rw [List.append_assoc]
    exact isBreak_piece htext _
  have hsignature := hopen.and (hinside.append (harrow.and (hresult.append (hbrace.and (hbody.and hclose))
    fun rest _ => hbreak rest (by simp [breakPieces])))
    fun rest _ => hbreak rest (by simp [breakPieces]))
  have hall : Writes Anything (stubText route arguments links) _ :=
    (writes_front route).and ((Writes.identifier hhandler).append hsignature
      fun rest _ => (hbreak rest (by simp [breakPieces])).1)
  obtain ⟨hflat, hleaves⟩ := Rust.nested_leaves fun t ht => ⟨(hinner t ht).1, (hinner t ht).2.1⟩
  obtain ⟨hattributes, hnested⟩ := isAttributes_deprecation route
  have hends : ∀ tree ∈ TokenTree.group ⟨.punct, "(", 0, 0⟩ trees ⟨.punct, ")", 0, 0⟩ ::
      .leaf ⟨.punct, "->", 0, 0⟩ :: result.map .leaf, ["\x7b", ";"].any tree.isPunct = false := by
    refine List.forall_mem_cons.mpr ⟨rfl, List.forall_mem_cons.mpr ⟨rfl, fun tree htree => ?_⟩⟩
    obtain ⟨t, ht, rfl⟩ := List.mem_map.mp htree
    obtain ⟨hopener, -, hsemicolon⟩ := hinner t ht
    rw [Token.isOpener, Bool.or_eq_false_iff] at hopener
    rw [List.any_cons, List.any_cons, List.any_nil, TokenTree.isPunct, TokenTree.isPunct, TokenTree.head,
      hopener.2, hsemicolon]
    rfl
  obtain ⟨node, hnode, hkind, hname, hhas⟩ := Rust.exists_function (deprecation route)
    [.leaf ⟨.ident, "pub", 0, 0⟩, .leaf ⟨.ident, "async", 0, 0⟩]
    (.group ⟨.punct, "(", 0, 0⟩ trees ⟨.punct, ")", 0, 0⟩ :: .leaf ⟨.punct, "->", 0, 0⟩ ::
      result.map .leaf) body
    (by simpa [TokenTree.flattenAll_append, TokenTree.flattenAll, TokenTree.flatten, hflat] using hall)
    hattributes (.pubAsync rfl rfl)
    (by simp only [TokenTree.isNestedAll_append, TokenTree.isNestedAll, TokenTree.isNested, hnested, htrees,
      hleaves]; rfl)
    hends hbalanced
  exact ⟨node, htext ▸ hnode, hkind, hname, hhas⟩

theorem IsTextualRoute.exists_stub (h : IsTextualRoute route) (arguments : List String) :
    ∃ stub, handlerStub route arguments = .ok stub := by
  obtain ⟨links, hlinks⟩ := exists_mapM fun link hlink => (h.links link hlink).exists_buildLink
  exact ⟨_, by rw [handlerStub, hlinks]; rfl⟩

/-- **A stub of a document's route is written and read as one function with a body**, named for the
handler, whatever the comments, parameters, bodies and security of the route are. -/
theorem parse_handlerStub {doc : Contract.Canonical} {routes : List Route}
    (h : (Route.ofDocument doc).collect.1 = .ok routes) (hroute : route ∈ routes)
    (hhandler : Rust.IsIdentifier route.handlerName) (htexts : IsTextualRoute route)
    (hfits : FitsStub route) :
    ∃ arguments stub tree node, handlerArguments route none = .ok arguments ∧
      handlerStub route arguments = .ok stub ∧ Rust.parse stub.toList = .ok tree ∧
      tree.root.children = [node] ∧ node.itemKind? = some .function ∧
      node.name? = some route.handlerName ∧ node.body?.isSome := by
  have hwords := Route.ofDocument_isWorded (Resolving.yields_of_collect h) route hroute
  obtain ⟨arguments, harguments⟩ := exists_handlerArguments htexts.scheme none
  obtain ⟨stub, hstub⟩ := htexts.exists_stub arguments
  obtain ⟨node, hnode, hkind, hname, hbody⟩ := exists_handlerStub hwords hfits hhandler
    (isPart_handlerArguments hwords forall_mem_none harguments) hstub
  obtain ⟨trees, hreads, -⟩ := hnode.reads
  exact ⟨arguments, stub, _, node, harguments, hstub, Rust.parse_eq_ok_iff.mpr ⟨trees, _, hreads, rfl⟩,
    rfl, hkind, hname, hbody⟩

/-! ### A document whose response has a header -/

/-- The description of the header and the links are open. -/
def limitDocument (description : String) (links : List (String × Document.Value)) : Document.Entries :=
  [(.text "openapi", .text "3.2.0"),
   (.text "paths", .object [("/calls/{id}", .object [("get", .object [
     ("operationId", .text "limits"),
     ("parameters", .list [.object [("name", .text "id"), ("in", .text "path")]]),
     ("responses", .object [("200", .object [
       ("headers", .object [("X-Left", .object [("description", .text description)])]),
       ("links", .object links)])])])])])]

/-- A link to the operation itself. -/
def selfLink : String × Document.Value :=
  ("self", .object [("operationRef", .text "#/paths/~1calls~1{id}"),
    ("parameters", .object [("id", .text "$request.path.id")])])

/-- The canonical form of a document and its routes. -/
def routesOf? (document : Document.Entries) : Option (Contract.Canonical × List Route) := do
  let doc ← (Contract.normalize document).toOption
  let routes ← (Route.ofDocument doc).collect.1.toOption
  return (doc, routes)

theorem routesOf?_eq_some {document : Document.Entries} {doc : Contract.Canonical} {routes : List Route}
    (h : routesOf? document = some (doc, routes)) :
    Contract.normalize document = .ok doc ∧ (Route.ofDocument doc).collect.1 = .ok routes := by
  obtain ⟨doc', hdoc, h⟩ := Option.bind_eq_some_iff.mp h
  obtain ⟨routes', hroutes, h⟩ := Option.bind_eq_some_iff.mp h
  cases h
  exact ⟨eq_ok_of_toOption hdoc, eq_ok_of_toOption hroutes⟩

set_option synthInstance.maxSize 512 in
theorem parse_handlerStub_limits :
    ∃ doc routes route, Contract.normalize (limitDocument "Calls left." [selfLink]) = .ok doc ∧
      (Route.ofDocument doc).collect.1 = .ok routes ∧ route ∈ routes ∧
      ∃ arguments stub tree node, handlerArguments route none = .ok arguments ∧
        handlerStub route arguments = .ok stub ∧ Rust.parse stub.toList = .ok tree ∧
        tree.root.children = [node] ∧ node.itemKind? = some .function ∧
        node.name? = some "limits" ∧ node.body?.isSome := by
  have hfacts : ∃ found ∈ routesOf? (limitDocument "Calls left." [selfLink]), ∃ route ∈ found.2.head?,
      route.handlerName = "limits" ∧ route.security.length = 0 ∧
      route.responseHeaders.map (fun h => (h.name, h.description)) = [("X-Left", some "Calls left.")] ∧
      route.responseLinks.map (fun l => (l.name, l.operationRef)) =
        [(.text "self", .text "#/paths/~1calls~1{id}")] ∧
      route.responseLinks.map (fun l => (l.operationId, l.parameters)) =
        [(.null, [("id", "$request.path.id")])] := by
    decide +kernel
  obtain ⟨⟨doc, routes⟩, hfound, route, hroute, hname, hsecurity, hheaders, hlinks, hmore⟩ := hfacts
  obtain ⟨hdoc, hroutes⟩ := routesOf?_eq_some hfound
  have hmem := List.mem_of_mem_head? hroute
  obtain ⟨header, hheaders, hheader⟩ := List.map_eq_singleton_iff.mp hheaders
  obtain ⟨link, hlinks, hlink⟩ := List.map_eq_singleton_iff.mp hlinks
  rw [hlinks, List.map_singleton, List.singleton_inj, Prod.mk.injEq] at hmore
  rw [Prod.mk.injEq] at hheader hlink
  have htexts : IsTextualRoute route := by
    refine ⟨by rw [List.length_eq_zero_iff.mp hsecurity]; exact forall_mem_none, ?_⟩
    rw [hlinks]
    exact List.forall_mem_singleton.mpr ⟨⟨_, hlink.1⟩, .inr ⟨_, hlink.2⟩, .inl hmore.1⟩
  have hfits : FitsStub route := by
    refine ⟨?_, ?_⟩
    · rw [hheaders]
      refine List.forall_mem_singleton.mpr ⟨by rw [hheader.1]; decide, ?_⟩
      rw [hheader.2]
      exact forall_mem_some (by decide)
    · rw [hlinks]
      refine List.forall_mem_singleton.mpr ⟨fun name hname => ?_, ?_⟩
      · rw [hlink.1] at hname
        cases hname
        decide
      · rw [hmore.2]
        exact List.forall_mem_singleton.mpr fun _ => fitsBeforeBlank_of_isIdentifier (by decide)
  obtain ⟨arguments, stub, tree, node, hresult⟩ :=
    parse_handlerStub hroutes hmem (by rw [hname]; decide) htexts hfits
  rw [hname] at hresult
  exact ⟨doc, routes, route, hdoc, hroutes, hmem, arguments, stub, tree, node, hresult⟩

/-- **A description that goes on behind a line feed leaves its comment**: what follows is read as code, and
the stub is not read at all. -/
theorem parse_handlerStub_fails :
    ∃ doc routes route arguments stub,
      Contract.normalize (limitDocument "Calls left.\nReset every hour." []) = .ok doc ∧
      (Route.ofDocument doc).collect.1 = .ok routes ∧ route ∈ routes ∧
      Rust.IsIdentifier route.handlerName ∧ IsTextualRoute route ∧
      handlerArguments route none = .ok arguments ∧ handlerStub route arguments = .ok stub ∧
      ∀ tree, Rust.parse stub.toList ≠ .ok tree := by
  have hfacts : ∃ found ∈ routesOf? (limitDocument "Calls left.\nReset every hour." []),
      ∃ route ∈ found.2.head?, Rust.IsIdentifier route.handlerName ∧ route.security.length = 0 ∧
        route.responseLinks.length = 0 ∧ ∃ arguments ∈ (handlerArguments route none).toOption,
          ∃ tokens ∈ Rust.tokensOf? (stubText route arguments []),
            (TokenTree.ofTokens tokens).toOption.isSome = false := by
    decide +kernel
  obtain ⟨⟨doc, routes⟩, hfound, route, hroute, hname, hsecurity, hlinks, arguments, harguments, tokens,
    htokens, hopen⟩ := hfacts
  obtain ⟨hdoc, hroutes⟩ := routesOf?_eq_some hfound
  have htexts : IsTextualRoute route := by
    refine ⟨?_, ?_⟩
    · rw [List.length_eq_zero_iff.mp hsecurity]
      exact forall_mem_none
    · rw [List.length_eq_zero_iff.mp hlinks]
      exact List.forall_mem_nil _
  obtain ⟨stub, hstub⟩ := htexts.exists_stub arguments
  obtain ⟨links, hbuilt, htext⟩ := handlerStub_toList hstub
  obtain rfl : links = [] := by
    rw [List.length_eq_zero_iff.mp hlinks] at hbuilt
    exact (Except.ok.inj hbuilt).symm
  refine ⟨doc, routes, route, arguments, stub, hdoc, hroutes, List.mem_of_mem_head? hroute, hname, htexts,
    eq_ok_of_toOption harguments, hstub, fun tree htree => ?_⟩
  obtain ⟨trees, nodes, hreads, -⟩ := Rust.parse_eq_ok_iff.mp htree
  have hread := hreads.tokens
  rw [htext, (Rust.Lexes.of_tokens (Option.mem_def.mp htokens)).tokenize trivial] at hread
  cases hread
  rw [TokenTree.ofTokens_eq_ok_iff.mpr ⟨rfl, hreads.nested⟩] at hopen
  cases hopen

end ContractSync.Emit
