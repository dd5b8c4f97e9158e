import ContractSync.Proofs.Edit.Keep
import ContractSync.Proofs.Rust.RecordEnd

/-!
# Adding a field

A field is written on lines of its own in front of the closing brace (`isFieldText_fieldLines`). In each of
the layouts the text in front of these lines ends where further fields can go (`TakesField.opensBody`), if
behind the last field stands nothing but comments, or a comma with only blanks in front of it (`TakesField`).
**Then the struct gets the field behind those it has, and nothing else changes** (`addField_grows`). Behind
a comment a comma is overlooked, and there the edit writes a second one (`addField_breaks`).
-/

namespace ContractSync.Edit

open Rust (BodyIn Edges Entry FieldView Group IsFieldText Node Opened Span Spells Token TokenTree
  Tree tokenize)
open Rust.TokenTree (flattenAll isNestedAll)

/-! ### The lines of a field -/

/-- The texts can stand for the parts of a field: an identifier, a type that is one entry of a list, and
attributes. -/
structure IsField (name type visibility : String) (attributes : List String) : Prop where
  name : Spells name.toList [.leaf ⟨.ident, name, 0, name.toList.length⟩]
  type : ∃ trees, Spells type.toList trees ∧ Entry.depthBehind 0 trees = some 0
  visibility : visibility = "" ∨ visibility = "pub"
  attributes : ∀ a ∈ attributes, ∃ hash opener inner closer,
    Spells a.toList [.leaf hash, .group opener inner closer] ∧ hash.isPunct "#" = true ∧
      opener.isPunct "[" = true

theorem fieldLines_nil (indent : List Char) (name type visibility : String) :
    fieldLines indent name type visibility [] ++ ['\n'] = indent ++
      ((if visibility.isEmpty then "" else visibility ++ " ").toList ++
        (name.toList ++ ':' :: ' ' :: (type.toList ++ [',', '\n']))) := by
  simp [fieldLines, List.intercalate]

theorem fieldLines_cons (indent : List Char) (name type visibility a : String)
    (attributes : List String) :
    fieldLines indent name type visibility (a :: attributes) =
      indent ++ (a.toList ++ '\n' :: fieldLines indent name type visibility attributes) := by
  cases attributes <;> simp [fieldLines, List.intercalate]

/-- **The lines of a field are read as this field**, with the texts that it was given. -/
theorem isFieldText_fieldLines {name type visibility : String} {attributes : List String}
    (h : IsField name type visibility attributes) (hpub : name = "pub" → visibility = "pub")
    {indent : List Char} (hindent : ∀ c ∈ indent, Text.isBlank c = true) :
    ∃ trees comma field,
      IsFieldText (fieldLines indent name type visibility attributes ++ ['\n']) trees comma field ∧
      field.fieldView (fieldLines indent name type visibility attributes ++ ['\n']) =
        ⟨some name, some type.toList, attributes.map String.toList⟩ := by
  obtain ⟨types, htype, hdepth⟩ := h.type
  have hattributes := h.attributes
  induction attributes with
  | nil =>
    have hvisibility : (if visibility.isEmpty then "" else visibility ++ " ").toList = "pub ".toList ∨
        (if visibility.isEmpty then "" else visibility ++ " ").toList = [] ∧ name ≠ "pub" := by
      rcases h.visibility with rfl | rfl
      · exact .inr ⟨rfl, fun hname => absurd (hpub hname) (by decide)⟩
      · exact .inl rfl
    obtain ⟨trees, comma, field, hfield, -, hview⟩ :=
      IsFieldText.named h.name rfl htype hdepth hvisibility
    have hblanks := hfield.fieldView_around indent []
    rw [fieldLines_nil]
    rw [List.append_nil] at hblanks
    exact ⟨_, _, _, hfield.blanks hindent, hblanks.trans hview⟩
  | cons a attributes ih =>
    obtain ⟨ha, hrest⟩ := List.forall_mem_cons.mp hattributes
    obtain ⟨hash, opener, inner, closer, ha, hhash, hopener⟩ := ha
    obtain ⟨trees, comma, field, hfield, hview⟩ :=
      ih ⟨h.name, h.type, h.visibility, hrest⟩ hrest
    obtain ⟨trees', comma', field', hfield', hview'⟩ := hfield.attributeLine ha hhash hopener
    have hblanks := hfield'.fieldView_around indent []
    rw [fieldLines_cons, List.append_assoc, List.append_assoc, List.cons_append]
    rw [List.append_nil] at hblanks
    exact ⟨_, _, _, hfield'.blanks hindent, hblanks.trans (by rw [hview', hview]; rfl)⟩

/-! ### Where the lines go -/

/-- A field can go to the end of a record: behind the last field stands nothing but comments, or a comma
with only blanks in front of it, and a field without a comma closes its angle brackets. -/
inductive TakesField (source : List Char) (n : Node) (body : Span) : Prop
  | empty (hfields : n.fields = []) (htokens : tokenize (between source body) = .ok [])
  | comma {last : Node} {t : Token} (hlast : n.fields.getLast? = some last)
      (hcomma : hasComma (Text.slice source last.stop body.stop) = true)
      (htokens : tokenize (Text.slice source last.stop body.stop) = .ok [t])
  | last {last : Node} {span : Span} {type : List TokenTree} (hlast : n.fields.getLast? = some last)
      (htokens : tokenize (Text.slice source last.stop body.stop) = .ok [])
      (hspan : last.type? = some span)
      (htype : tokenize (Text.slice source span.start span.stop) = .ok (flattenAll type))
      (hnested : isNestedAll type = true) (hdepth : Entry.depthBehind 0 type = some 0)

/-- What holds no tokens does not begin with a comma. -/
theorem hasComma_eq_false {tail : List Char} (h : tokenize tail = .ok []) : hasComma tail = false := by
  rw [← Bool.not_eq_true]
  intro hcomma
  rw [hasComma, beq_iff_eq, Text.trimStart] at hcomma
  obtain ⟨rest, hrest⟩ := List.head?_eq_some_iff.mp hcomma
  have hparts := List.takeWhile_append_dropWhile (p := Text.isBlank) (l := tail)
  rw [hrest] at hparts
  have hrun := Rust.Lexer.run_of_lexFrom h
  rw [← hparts] at hrun
  obtain ⟨vs, hvs, hbehind⟩ := (Rust.Lexer.run_blanks
    (fun c hc => List.all_eq_true.mp List.all_takeWhile c hc) 0 (',' :: rest)).cancel hrun
  obtain ⟨more, hmore, -⟩ := hbehind.first_step (w := []) (Rust.Lexer.step_comma rest)
  rw [hmore] at hvs
  cases hvs

variable {source : List Char} {nodes members : List Node} {n : Node} {b : Group}
  {front back : List Token}

/-- The text with lines in the body, in the layout that the body has. -/
def addLines (source : List Char) (n : Node) (body : Span) (lines : List Char → List Char) :
    List Char :=
  if isMultiline source body then addToLines source n body lines
  else addToSingleLine source n body lines

/-- Lines come to stand behind a text that ends where further fields can go, and blanks in front of the
closing brace. -/
def OpensBody (source : List Char) (n : Node) (b : Group) (members : List Node) (front : List Token) :
    Prop :=
  ∃ a base indent y, Opened source b members front a base ∧
    (∀ c ∈ indent, Text.isBlank c = true) ∧ (∀ c ∈ y, Text.isBlank c = true) ∧
    ∀ lines, addLines source n b.span lines =
      a ++ '\n' :: (lines indent ++ '\n' :: y) ++ source.drop b.closer.start

/-- Where lines go in a body of several lines. -/
theorem exists_cut_of_isMultiline {kind : Rust.ItemKind}
    (hb : BodyIn source nodes n kind b members front back)
    (hmulti : isMultiline source b.span = true) :
    ∃ a line, a <+: source ∧ tokenize a = .ok (front ++ b.opener :: flattenAll b.inner) ∧
      (∀ c ∈ line, Text.isBlank c = true) ∧
      ∀ new, Text.splice source (Text.lineStart source b.closer.start)
          (Text.lineStart source b.closer.start) (new ++ ['\n']) =
        a ++ '\n' :: (new ++ '\n' :: line) ++ source.drop b.closer.start := by
  rw [isMultiline, Bool.and_eq_true, decide_eq_true_eq] at hmulti
  obtain ⟨a, line, htake, hfront, hdrop, -, hline, hfeed⟩ := exists_cut_of_lines hmulti.2 hmulti.1
  refine ⟨a, line, ?_, ?_, hline, fun new => ?_⟩
  · exact (List.prefix_append a _).trans (htake ▸ List.take_prefix _ source)
  · exact hb.tokenize_cut htake (List.forall_mem_cons.mpr ⟨by decide, hline⟩) hfeed
  · have hfront' : source.take (Text.lineStart source b.closer.start) = a ++ ['\n'] := hfront
    have hdrop' : source.drop (Text.lineStart source b.closer.start) =
        line ++ source.drop b.closer.start := hdrop
    rw [Text.splice, hfront', hdrop']
    simp

/-- Where lines go in a body on one line. -/
theorem cut_of_not_isMultiline {kind : Rust.ItemKind}
    (hb : BodyIn source nodes n kind b members front back)
    (hmulti : ¬ isMultiline source b.span = true) {start : Nat} (hstart : b.opener.start < start)
    (hle : start ≤ b.closer.start) :
    source.take start ++ Text.trimEnd (Text.slice source start b.closer.start) <+: source ∧
      tokenize (source.take start ++ Text.trimEnd (Text.slice source start b.closer.start)) =
        .ok (front ++ b.opener :: flattenAll b.inner) := by
  rw [isMultiline, Bool.and_eq_true, decide_eq_true_eq] at hmulti
  obtain ⟨-, -, -, hlt⟩ := hb.run_closer
  obtain ⟨w, htake, hw, hfeed⟩ := @exists_cut_of_line source b.span start hstart hle (Nat.le_of_lt hlt)
    fun h => hmulti h.symm
  refine ⟨?_, hb.tokenize_cut htake hw fun h => hfeed (List.mem_of_mem_tail h)⟩
  exact (List.prefix_append _ w).trans (htake ▸ List.take_prefix _ source)

/-- Behind the last comma. -/
theorem opensBody_of_comma (hb : BodyIn source nodes n .struct_ b members front back)
    (hrecord : b.isTuple = false) {last : Node} {t : Token} (hlast : n.fields.getLast? = some last)
    (hcomma : hasComma (Text.slice source last.stop b.span.stop) = true)
    (htokens : tokenize (Text.slice source last.stop b.span.stop) = .ok [t]) :
    OpensBody source n b members front := by
  have hmembers := hlast
  rw [(hb.fields_eq hrecord).1] at hmembers
  have hended := hb.ended_of_comma hrecord hmembers htokens
  by_cases hmulti : isMultiline source b.span = true
  · obtain ⟨a, line, hinitial, ha, hline, hsplice⟩ := exists_cut_of_isMultiline hb hmulti
    refine ⟨a, _, Text.indentAt source last.start, line, .of_start hb ha hinitial hended,
      fun c => isBlank_of_mem_indentAt, hline, fun lines => ?_⟩
    simp only [addLines, if_pos hmulti, addToLines, hlast]
    rw [if_pos hcomma]
    exact hsplice _
  · obtain ⟨hstart, hle⟩ := hb.stop_bounds hrecord (List.mem_of_getLast? hmembers)
    obtain ⟨hinitial, ha⟩ := cut_of_not_isMultiline hb hmulti hstart hle
    refine ⟨_, _, Text.indentAt source n.itemStart ++ indentUnit, Text.indentAt source n.itemStart,
      .of_start hb ha hinitial hended, fun c => isBlank_of_mem_indentAt_append,
      fun c => isBlank_of_mem_indentAt, fun lines => ?_⟩
    simp only [addLines, if_neg hmulti, addToSingleLine, hlast]
    rw [if_pos hcomma]
    simp [Group.span]

/-- Behind the last field, which gets a comma. -/
theorem opensBody_of_last (hb : BodyIn source nodes n .struct_ b members front back)
    (hrecord : b.isTuple = false) {last : Node} {span : Span} {type : List TokenTree}
    (hlast : n.fields.getLast? = some last)
    (htokens : tokenize (Text.slice source last.stop b.span.stop) = .ok [])
    (hspan : last.type? = some span)
    (htype : tokenize (Text.slice source span.start span.stop) = .ok (flattenAll type))
    (hnested : isNestedAll type = true) (hdepth : Entry.depthBehind 0 type = some 0) :
    OpensBody source n b members front := by
  have hmembers := hlast
  rw [(hb.fields_eq hrecord).1] at hmembers
  obtain ⟨hstop, hended⟩ := hb.ended_of_last hrecord hmembers hspan htokens htype hnested hdepth
  have hcomma : ¬ hasComma (Text.slice source last.stop b.span.stop) = true := by
    rw [hasComma_eq_false htokens]
    exact Bool.false_ne_true
  by_cases hmulti : isMultiline source b.span = true
  · obtain ⟨a, line, hinitial, ha, hline, hsplice⟩ := exists_cut_of_isMultiline hb hmulti
    have hle : last.stop ≤ a.length := by
      obtain ⟨t, ht, hstop⟩ := Option.map_eq_some_iff.mp hstop
      have hall := (Rust.Lexer.run_of_lexFrom ha).ordered.2.1 t (List.mem_append_right _
        (List.mem_cons_of_mem _ (List.mem_of_getLast? ht)))
      omega
    obtain ⟨u, t, rfl, hu⟩ : ∃ u t, u ++ t = a ∧ u.length = last.stop :=
      ⟨_, _, List.take_append_drop last.stop a, List.length_take_of_le hle⟩
    rw [← hu] at hstop
    refine ⟨_, _, Text.indentAt source last.start, line, .of_last hb ha hinitial hstop hended,
      fun c => isBlank_of_mem_indentAt, hline, fun lines => ?_⟩
    simp only [addLines, if_pos hmulti, addToLines, hlast]
    have hsplice := hsplice (lines (Text.indentAt source last.start))
    rw [if_neg hcomma, ← hu]
    show Text.splice (Text.splice source (Text.lineStart source b.closer.start)
      (Text.lineStart source b.closer.start) _) _ _ _ = _
    have hwhole : u ++ t ++ '\n' :: (lines (Text.indentAt source last.start) ++ '\n' :: line) ++
        source.drop b.closer.start = u ++ (t ++ ('\n' :: (lines (Text.indentAt source last.start) ++
          '\n' :: line) ++ source.drop b.closer.start)) := by simp
    rw [hsplice, hwhole, Text.splice, List.take_left, List.drop_left]
    simp
  · obtain ⟨hstart, hle⟩ := hb.stop_bounds hrecord (List.mem_of_getLast? hmembers)
    obtain ⟨hinitial, ha⟩ := cut_of_not_isMultiline hb hmulti hstart hle
    obtain ⟨-, -, -, hlt⟩ := hb.run_closer
    have hlength : (source.take last.stop).length = last.stop :=
      List.length_take_of_le (by omega)
    rw [← hlength] at hstop
    refine ⟨_, _, Text.indentAt source n.itemStart ++ indentUnit, Text.indentAt source n.itemStart,
      .of_last hb ha hinitial hstop hended, fun c => isBlank_of_mem_indentAt_append,
      fun c => isBlank_of_mem_indentAt, fun lines => ?_⟩
    simp only [addLines, if_neg hmulti, addToSingleLine, hlast]
    rw [if_neg hcomma]
    simp [Group.span]

/-- Behind the opening brace. -/
theorem opensBody_of_empty (hb : BodyIn source nodes n .struct_ b [] front back)
    (hrecord : b.isTuple = false) (hopener : b.opener.stop = b.opener.start + 1)
    (htokens : tokenize (between source b.span) = .ok []) : OpensBody source n b [] front := by
  have hfields : n.fields.getLast? = none := by rw [(hb.fields_eq hrecord).1, List.getLast?_nil]
  by_cases hmulti : isMultiline source b.span = true
  · obtain ⟨a, line, hinitial, ha, hline, hsplice⟩ := exists_cut_of_isMultiline hb hmulti
    have hended : Entry.Ended b.opener.stop b.inner [] := by
      rw [(hb.inner_eq_nil hopener htokens).1]
      exact .nil _
    refine ⟨a, _, Text.indentAt source b.closer.start ++ indentUnit, line,
      .of_start hb ha hinitial hended, fun c => isBlank_of_mem_indentAt_append, hline,
      fun lines => ?_⟩
    simp only [addLines, if_pos hmulti, addToLines, hfields]
    exact hsplice _
  · obtain ⟨-, -, -, hlt⟩ := hb.run_closer
    have hle := hb.opener_bounds.2
    refine ⟨_, _, Text.indentAt source n.itemStart ++ indentUnit, Text.indentAt source n.itemStart,
      .of_empty hb hopener (by omega) htokens, fun c => isBlank_of_mem_indentAt_append,
      fun c => isBlank_of_mem_indentAt, fun lines => ?_⟩
    simp only [addLines, if_neg hmulti, addToSingleLine, hfields]
    simp [Group.span]

/-- **Where further fields can go there is a place for lines**, in each of the layouts. -/
theorem TakesField.opensBody (h : TakesField source n b.span)
    (hb : BodyIn source nodes n .struct_ b members front back) (hrecord : b.isTuple = false) :
    OpensBody source n b members front := by
  cases h with
  | empty hfields htokens =>
    have hopener : b.opener.stop = b.opener.start + 1 := by
      have hbrace := hb.brace hrecord
      rw [Rust.Token.isPunct, Bool.and_eq_true, beq_iff_eq, beq_iff_eq] at hbrace
      rw [(Rust.Lexer.run_of_lexFrom hb.tokens).stop_eq (by simp), hbrace.2]
      rfl
    obtain rfl : members = [] := (hb.fields_eq hrecord).1.symm.trans hfields
    exact opensBody_of_empty hb hrecord hopener htokens
  | comma hlast hcomma htokens => exact opensBody_of_comma hb hrecord hlast hcomma htokens
  | last hlast htokens hspan htype hnested hdepth =>
    exact opensBody_of_last hb hrecord hlast htokens hspan htype hnested hdepth

/-! ### Adding -/

variable {tree : Tree} {declaration name type visibility : String} {attributes : List String}

/-- A field that is there is not added. -/
theorem addField_eq_self (h : Rust.parse source = .ok tree)
    (hfound : tree.find? declaration [.struct_] = some n) (hpresent : (n.field? name).isSome = true)
    (path : Option String) :
    apply source (.addField declaration name type visibility attributes) path = .ok source := by
  show addField source declaration name type visibility attributes path = _
  simp only [addField, readSource_eq_ok.mpr h, target_eq_ok.mpr hfound, bind, Except.bind]
  rw [if_pos hpresent]
  rfl

/-- Another field goes into the body. -/
theorem addField_eq {body : Span} (h : Rust.parse source = .ok tree)
    (hfound : tree.find? declaration [.struct_] = some n) (habsent : n.field? name = none)
    (hbody : n.body? = some body) (hbrace : source[body.start]? = some '\x7b')
    (path : Option String) :
    apply source (.addField declaration name type visibility attributes) path =
      .ok (addLines source n body fun indent =>
        fieldLines indent name type visibility attributes) := by
  show addField source declaration name type visibility attributes path = _
  simp only [addField, readSource_eq_ok.mpr h, target_eq_ok.mpr hfound, bind, Except.bind, habsent,
    hbody, hbrace]
  rfl

/-- **A record gets a field behind those it has.** The new text differs in the body only, and is read as
the tree that was there, carried, with the field in the record; the fields look as they did, and the new
one as the request says. When it comes again the request changes nothing. -/
theorem addField_grows {body : Span} (h : Rust.parse source = .ok tree)
    (hfound : tree.find? declaration [.struct_] = some n) (habsent : n.field? name = none)
    (hbody : n.body? = some body) (hbrace : source[body.start]? = some '\x7b')
    (hspace : TakesField source n body) (hnew : IsField name type visibility attributes)
    (hpub : name = "pub" → visibility = "pub") (path : Option String) :
    let request := Request.addField declaration name type visibility attributes
    ∃ result content after field,
      let e := Edges.behind body.stop (body.start + 1 + content.length)
      apply source request path = .ok result ∧
      result = source.take (body.start + 1) ++ content ++ source.drop body.stop ∧
      Rust.parse result = .ok after ∧
      after.root = tree.root.grow e body.start [field] ∧
      after.find? declaration [.struct_] = some (n.grow e body.start [field]) ∧
      (n.grow e body.start [field]).fields = n.fields ++ [field] ∧
      (n.fields ++ [field]).map (Node.fieldView result) = n.fields.map (Node.fieldView source) ++
        [⟨some name, some type.toList, attributes.map String.toList⟩] ∧
      apply result request path = .ok result := by
  intro request
  obtain ⟨nodes, b, members, front, back, rfl, rfl, hb⟩ := exists_bodyIn h hfound (by decide) hbody
  have hrecord := hb.isTuple_eq_false hbrace
  obtain ⟨a, base, indent, y, hopened, hindent, hy, hlines⟩ := hspace.opensBody hb hrecord
  obtain ⟨types, comma, field, hblock, hview⟩ := isFieldText_fieldLines hnew hpub hindent
  generalize hlast : fieldLines indent name type visibility attributes ++ ['\n'] = block at *
  -- The new text, and its part in the body.
  obtain ⟨hle, htake⟩ := hopened.take_eq (Nat.succ_le_of_lt hb.opener_bounds.1)
  obtain ⟨content, hcontent⟩ : ∃ content, content =
      a.drop (b.opener.start + 1) ++ '\n' :: (block ++ y) := ⟨_, rfl⟩
  have htext : a ++ '\n' :: (block ++ y) = source.take (b.opener.start + 1) ++ content := by
    rw [hcontent, htake, ← List.append_assoc, List.take_append_drop]
  have hlength : (a ++ '\n' :: (block ++ y)).length = b.span.start + 1 + content.length := by
    rw [htext, List.length_append, htake, List.length_take_of_le hle]
    rfl
  have hparse := hopened.parse_field hb hrecord hblock hy 0
  dsimp only at hparse
  have hfields := hb.fields_grow hrecord (hblock.recordField_move (a.length + 1))
    (a ++ '\n' :: (block ++ y)).length
  have hviews := hopened.fieldView (y := y) hb hrecord hblock (source.drop b.closer.start)
  rw [← (hb.fields_eq hrecord).1, hview] at hviews
  rw [hlength] at hparse hfields
  generalize hresult : a ++ '\n' :: (block ++ y) ++ source.drop b.closer.start = result at *
  have hfound' : Tree.find? ⟨result, (Node.mk .file 0 0 source.length nodes).grow
      (.behind b.closer.start (b.span.start + 1 + content.length)) b.opener.start
        [field.move (· + (a.length + 1))], 0⟩ declaration [.struct_] = _ :=
    (Tree.find?_grow rfl (List.forall_mem_singleton.mpr (Entry.isMember_recordField
      (hblock.recordField_move (a.length + 1))).plain) declaration [.struct_]).trans
        (congrArg (Option.map _) hfound)
  refine ⟨result, content, _, field.move (· + (a.length + 1)), ?_, ?_, hparse, rfl, hfound', hfields,
    hviews, ?_⟩
  · rw [addField_eq h hfound habsent hbody hbrace, hlines, ← hresult, ← hlast]
    simp
  · rw [← hresult, htext]
    rfl
  · refine addField_eq_self hparse hfound' ?_ path
    have hname : (field.move (· + (a.length + 1))).name? = some name :=
      (Node.name?_move ..).trans (congrArg FieldView.name hview)
    rw [Node.field?, List.find?_isSome, hfields]
    exact ⟨_, List.mem_append_right _ (List.mem_singleton_self _), by simp [hname]⟩

/-! ### A last field without a comma -/

def lineText : List Char := "struct A \x7b a: V<u8> /* c */ \x7d".toList

def lineField : Node := .mk (.field "a" ⟨14, 19⟩) 11 11 19 []

def lineStruct : Node := .mk (.item .struct_ (some "A") (some ⟨9, 28⟩)) 0 0 29 [lineField]

def lineTree : Tree := ⟨lineText, .mk .file 0 0 29 [lineStruct], 0⟩

/-- The trees of `V<u8>`. -/
def lineTypeTrees : List TokenTree :=
  [.leaf ⟨.ident, "V", 0, 1⟩, .leaf ⟨.punct, "<", 1, 2⟩, .leaf ⟨.ident, "u8", 2, 4⟩,
    .leaf ⟨.punct, ">", 4, 5⟩]

/-- The trees of `#[x]`. -/
def markTrees : List TokenTree :=
  [.leaf ⟨.punct, "#", 0, 1⟩,
    .group ⟨.punct, "[", 1, 2⟩ [.leaf ⟨.ident, "x", 2, 3⟩] ⟨.punct, "]", 3, 4⟩]

/-- The field gets its comma in front of the comment, the new one a line of its own behind it. -/
theorem addField_grows_lineSample :
    ∃ result, apply lineText (.addField "A" "b" "i32" "pub" ["#[x]"]) none = .ok result ∧
      result = "struct A \x7b a: V<u8>, /* c */\n    #[x]\n    pub b: i32,\n\x7d".toList ∧
      apply result (.addField "A" "b" "i32" "pub" ["#[x]"]) none = .ok result := by
  have h : Rust.parse lineText = .ok lineTree := eq_ok_of_toOption (by decide +kernel)
  have hfound : lineTree.find? "A" [.struct_] = some lineStruct := by decide
  have hspace : TakesField lineText lineStruct ⟨9, 28⟩ :=
    @TakesField.last _ _ _ lineField ⟨14, 19⟩ lineTypeTrees rfl (eq_ok_of_toOption (by decide +kernel)) rfl
      (eq_ok_of_toOption (by decide +kernel)) (by decide) (by decide)
  have hnew : IsField "b" "i32" "pub" ["#[x]"] := by
    refine ⟨⟨eq_ok_of_toOption (by decide +kernel), rfl, rfl, rfl⟩,
      ⟨[.leaf ⟨.ident, "i32", 0, 3⟩], ⟨eq_ok_of_toOption (by decide +kernel), rfl, rfl, rfl⟩, rfl⟩, .inr rfl, List.forall_mem_singleton.mpr ?_⟩
    exact ⟨_, _, _, _, ⟨eq_ok_of_toOption (by decide +kernel : (tokenize "#[x]".toList).toOption =
      some (flattenAll markTrees)), rfl, rfl, rfl⟩, rfl, rfl⟩
  obtain ⟨result, _, _, _, hresult, _, _, _, _, _, _, hagain⟩ :=
    addField_grows h hfound (by decide) rfl (by decide) hspace hnew (by decide) none
  have heval : apply lineText (.addField "A" "b" "i32" "pub" ["#[x]"]) none =
      .ok "struct A \x7b a: V<u8>, /* c */\n    #[x]\n    pub b: i32,\n\x7d".toList :=
    eq_ok_of_toOption (by decide +kernel)
  obtain rfl := Except.ok.inj (hresult.symm.trans heval)
  exact ⟨_, hresult, rfl, hagain⟩

/-! ### A comma behind a comment -/

def overlookedText : List Char := "struct A \x7b\n    a: i32 /* c */,\n\x7d\n".toList

def overlookedStruct : Node :=
  .mk (.item .struct_ (some "A") (some ⟨9, 31⟩)) 0 0 32 [.mk (.field "a" ⟨18, 21⟩) 15 15 21 []]

def overlookedTree : Tree := ⟨overlookedText, .mk .file 0 0 33 [overlookedStruct], 0⟩

/-- The comma is overlooked, and with a second one the text can be read no more. -/
theorem addField_breaks :
    Rust.parse overlookedText = .ok overlookedTree ∧
      overlookedTree.find? "A" [.struct_] = some overlookedStruct ∧
      overlookedText[9]? = some '\x7b' ∧ overlookedStruct.field? "b" = none ∧
      IsField "b" "i32" "pub" [] ∧
      ∃ result, apply overlookedText (.addField "A" "b" "i32" "pub" []) none = .ok result ∧
        (Rust.parse result).toOption = none ∧
        (apply result (.addField "A" "b" "i32" "pub" []) none).toOption = none := by
  have hresult : apply overlookedText (.addField "A" "b" "i32" "pub" []) none =
      .ok "struct A \x7b\n    a: i32, /* c */,\n    pub b: i32,\n\x7d\n".toList :=
    eq_ok_of_toOption (by decide +kernel)
  have hnew : IsField "b" "i32" "pub" [] :=
    ⟨⟨eq_ok_of_toOption (by decide +kernel), rfl, rfl, rfl⟩,
      ⟨[.leaf ⟨.ident, "i32", 0, 3⟩], ⟨eq_ok_of_toOption (by decide +kernel), rfl, rfl, rfl⟩, rfl⟩, .inr rfl, List.forall_mem_nil _⟩
  exact ⟨eq_ok_of_toOption (by decide +kernel), by decide +kernel, by decide, by decide +kernel, hnew,
    _, hresult, by decide +kernel, by decide +kernel⟩

end ContractSync.Edit
