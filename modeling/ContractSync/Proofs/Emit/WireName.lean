import ContractSync.Proofs.Emit.Declaration
import ContractSync.Proofs.Rust.MemberText

/-!
# Names on the wire

A field whose name in code does not tell its property carries the property in an attribute, as a literal with
backslashes in front of quotes and backslashes. `Rust.Node.wireName?` reads it back: from the literal under
`rename` in an attribute of serde, else from the name of the field.

**A written field shows its name, the text of its type and its attributes as they were written**
(`exists_fieldText`), wherever it stands among other fields (`readsMembers_fieldLines`), and **its name on the
wire is its property, whatever characters that consists of** (`wireName?_writtenView`). Variants show their
names (`readsMembers_variants`).
-/

/-! ### Literals -/

namespace ContractSync.Rust

/-- What a character behind a backslash stands for. -/
def escapedChars : List (Char × Char) :=
  [('\\', '\\'), ('"', '"'), ('\'', '\''), ('n', '\n'), ('r', '\r'), ('t', '\t'), ('0', Char.ofNat 0)]

/-- The characters that stand between the quotes of a literal, without escapes. Escapes by number, and
backslashes at the ends of lines, are not read. -/
def unescape : List Char → Option (List Char)
  | [] => some []
  | '\\' :: c :: rest => do return (← escapedChars.lookup c) :: (← unescape rest)
  | ['\\'] => none
  | c :: rest => do return c :: (← unescape rest)

/-- The text that a string literal stands for. -/
def unquote? (literal : String) : Option String :=
  match literal.toList with
  | '"' :: rest => if rest.getLast? = some '"' then (unescape rest.dropLast).map String.ofList else none
  | _ => none

/-! ### Attributes of serde -/

/-- What is given under a key: the token behind the key and an equals sign. -/
def valueOf? (key : String) : List Token → Option String
  | name :: mark :: value :: rest =>
    if name.isWord key && mark.isPunct "=" then some value.text else valueOf? key (mark :: value :: rest)
  | _ => none

/-- The literal that an attribute of serde renames with. -/
def renameOf? (text : List Char) : Option String :=
  match (tokenize text).toOption with
  | some (_ :: _ :: path :: args) => if path.isWord "serde" then valueOf? "rename" args else none
  | _ => none

/-- The name on the wire, as far as it is seen: what the field is renamed with, else its name without the raw
marker. -/
def FieldView.wireName? (view : FieldView) : Option String :=
  match view.attributes.findSome? renameOf? with
  | some literal => unquote? literal
  | none => view.name.map Name.bare

/-- The name of a field on the wire. -/
def Node.wireName? (source : List Char) (f : Node) : Option String := (f.fieldView source).wireName?

theorem valueOf?_map_bare (key : String) (ts : List Token) :
    valueOf? key (ts.map Token.bare) = valueOf? key ts := by
  fun_induction valueOf? key ts with
  | case1 name mark value rest h => exact if_pos h
  | case2 name mark value rest h ih => exact (if_neg h).trans ih
  | case3 ts h =>
    match ts, h with
    | [], _ | [_], _ | [_, _], _ => rfl
    | a :: b :: c :: rest, h => exact absurd rfl (h a b c rest)

/-- An attribute is one of serde, or none, wherever its tokens stand. -/
theorem renameOf?_of_writes {text : List Char} {hash opener path : Token} {args : List Token}
    (h : Writes Anything text (hash :: opener :: path :: args)) :
    renameOf? text = if path.isWord "serde" then valueOf? "rename" args else none := by
  obtain ⟨ts, hts, hbare⟩ := h.tokenize trivial
  obtain ⟨a, ts, rfl, -, hbare⟩ := List.map_eq_cons_iff.mp hbare
  obtain ⟨b, ts, rfl, -, hbare⟩ := List.map_eq_cons_iff.mp hbare
  obtain ⟨c, ts, rfl, rfl, rfl⟩ := List.map_eq_cons_iff.mp hbare
  rw [renameOf?, hts, valueOf?_map_bare]
  rfl

/-! ### Lines in front of a field -/

namespace IsFieldText

open Lexer
open TokenTree (flattenAll isNestedAll isNestedAll_map_move)

variable {text : List Char} {trees : List TokenTree} {comma : Token} {field : Node}

/-- A text without tokens in front. -/
theorem silent (h : IsFieldText text trees comma field) {x : List Char} (hx : Lexes Anything x []) :
    IsFieldText (x ++ text) (trees.map (TokenTree.move (· + x.length))) (comma.shift x.length)
      (field.move (· + x.length)) where
  run rest := by
    have hrun := (hx (text ++ rest) trivial).trans (h.run_move x.length rest)
    rwa [List.nil_append, ← List.append_assoc, ← List.length_append] at hrun
  nested := by rw [isNestedAll_map_move, h.nested]
  mark := h.mark
  depth := h.depth_move x.length
  field := h.recordField_move x.length

end IsFieldText

/-- **Lines of attributes in front of a field are seen as its attributes.** -/
theorem IsFieldText.attributeLines {text : List Char} {trees : List TokenTree} {comma : Token} {field : Node}
    (h : IsFieldText text trees comma field) {attributes : List String}
    (hattributes : ∀ a ∈ attributes, IsAttributeText a.toList) :
    ∃ trees' comma' field', IsFieldText ((Rust.attributeLines attributes).toList ++ text) trees' comma' field' ∧
      field'.fieldView ((Rust.attributeLines attributes).toList ++ text) =
        { field.fieldView text with
          attributes := attributes.map String.toList ++ (field.fieldView text).attributes } := by
  have hblanks : ∀ c ∈ "    ".toList, Text.isBlank c = true := by decide
  induction attributes with
  | nil => exact ⟨trees, comma, field, h, rfl⟩
  | cons a rest ih =>
    obtain ⟨ha, hrest⟩ := List.forall_mem_cons.mp hattributes
    obtain ⟨hash, opener, closer, inner, hspells, hhash, hopener⟩ := ha
    obtain ⟨trees₁, comma₁, field₁, hfield₁, hview₁⟩ := ih hrest
    obtain ⟨trees₂, comma₂, field₂, hfield₂, hview₂⟩ := hfield₁.attributeLine hspells hhash hopener
    have hlines := hfield₂.blanks hblanks
    rw [attributeLines_cons_toList, List.append_assoc, List.append_assoc, List.cons_append]
    refine ⟨_, _, _, hlines, ?_⟩
    rw [Node.fieldView_behind, hview₂, hview₁]
    rfl

end ContractSync.Rust

namespace ContractSync.Emit

open Model (Field)
open Rust (Anything FieldView IsAttributeText IsFieldText Lexes Node ReadsMember ReadsMembers Shows renameOf? unescape
  unquote?)
open Schema (VariantLabel)
open Rust.TokenTree (flattenAll)

/-! ### Quoted texts -/

theorem unescape_cons {c : Char} (h : c ≠ '\\') (rest : List Char) :
    unescape (c :: rest) = (unescape rest).map (c :: ·) := by
  rw [unescape]
  · rw [Option.map_eq_bind]
    rfl
  · intro _ _ hc _
    exact h hc
  · intro hc _
    exact h hc

/-- **Without its escapes a text is what it was.** -/
theorem unescape_escapeChars (cs : List Char) : unescape (escapeChars cs) = some cs := by
  induction cs with
  | nil => rfl
  | cons c cs ih =>
    rw [escapeChars_cons]
    split
    · rename_i hc
      rcases hc with rfl | rfl
      · show unescape ('\\' :: '\\' :: escapeChars cs) = _
        rw [unescape, ih]
        rfl
      · show unescape ('\\' :: '"' :: escapeChars cs) = _
        rw [unescape, ih]
        rfl
    · rename_i hc
      show unescape (c :: escapeChars cs) = _
      rw [unescape_cons (fun h => hc (.inl h)), ih]
      rfl

theorem unquote?_quoted (s : String) : unquote? (quoted s) = some s := by
  rw [unquote?, quoted_toList]
  simp only [List.getLast?_concat, List.dropLast_concat, if_true, unescape_escapeChars, Option.map_some,
    String.ofList_toList]

/-! ### Attributes of fields and variants -/

/-- The tokens of the beginning of an attribute that gives a literal under a key of so many characters. -/
def openingTokens (key : String) (k : Nat) : List Rust.Token :=
  [⟨.punct, "#", 0, 1⟩, ⟨.punct, "[", 1, 2⟩, ⟨.ident, "serde", 2, 7⟩, ⟨.punct, "(", 7, 8⟩, ⟨.ident, key, 8, k + 8⟩,
    ⟨.punct, "=", k + 9, k + 10⟩]

/-- The text is the beginning of such an attribute. -/
structure IsOpening (opening key : String) (k : Nat) : Prop where
  tokens : Rust.tokensOf? opening.toList = some (openingTokens key k)
  length : opening.toList.length = k + 11

section Attribute

variable {opening key : String} {k : Nat}

theorem lexes_attribute (h : IsOpening opening key k) (value : String) :
    Lexes Anything (opening ++ quoted value ++ ")]").toList
      (openingTokens key k ++ [⟨.literal, quoted value, k + 11, k + 11 + (quoted value).toList.length⟩,
        ⟨.punct, ")", k + 11 + (quoted value).toList.length, k + 12 + (quoted value).toList.length⟩,
        ⟨.punct, "]", k + 12 + (quoted value).toList.length, k + 13 + (quoted value).toList.length⟩]) := by
  have hclose : Lexes Anything ")]".toList [⟨.punct, ")", 0, 1⟩, ⟨.punct, "]", 1, 2⟩] := .of_tokens (by decide)
  have hall := (Lexes.of_tokens h.tokens).and ((lexes_quoted value).and hclose)
  rw [h.length] at hall
  rw [String.toList_append, String.toList_append, List.append_assoc]
  generalize quoted value = literal at hall ⊢
  refine (congrArg (Lexes Anything _) ?_).mpr hall
  simp [Rust.Token.shift]
  omega

theorem isAttributeText_attribute (h : IsOpening opening key k) (value : String) :
    IsAttributeText (opening ++ quoted value ++ ")]").toList := by
  have htokens := (lexes_attribute h value).tokenize trivial
  have hlength : (opening ++ quoted value ++ ")]").toList.length = k + 13 + (quoted value).toList.length := by
    have hclose : ")]".toList.length = 2 := by decide
    rw [String.toList_append, String.toList_append, List.length_append, List.length_append, h.length, hclose]
    omega
  generalize quoted value = literal at htokens hlength
  generalize literal.toList.length = n at htokens hlength
  refine ⟨⟨.punct, "#", 0, 1⟩, ⟨.punct, "[", 1, 2⟩, ⟨.punct, "]", k + 12 + n, k + 13 + n⟩,
    [.leaf ⟨.ident, "serde", 2, 7⟩, .group ⟨.punct, "(", 7, 8⟩
      [.leaf ⟨.ident, key, 8, k + 8⟩, .leaf ⟨.punct, "=", k + 9, k + 10⟩, .leaf ⟨.literal, literal, k + 11, k + 11 + n⟩]
      ⟨.punct, ")", k + 11 + n, k + 12 + n⟩], ⟨htokens, rfl, rfl, ?_⟩, rfl, rfl⟩
  exact congrArg some hlength.symm

/-- The attribute renames if its key says so. -/
theorem renameOf?_attribute (h : IsOpening opening key k) (value : String) :
    renameOf? (opening ++ quoted value ++ ")]").toList = if key = "rename" then some (quoted value) else none := by
  rw [Rust.renameOf?_of_writes ⟨_, lexes_attribute h value, rfl⟩]
  by_cases hkey : key = "rename"
  · rw [if_pos hkey, hkey]
    rfl
  · have hword : (key == "rename") = false := beq_false_of_ne hkey
    simp [Rust.Token.bare, Rust.Token.move, Rust.Token.isWord, Rust.valueOf?, hkey, hword]

end Attribute

/-- The attribute that renames. -/
def renameText (property : String) : String := "#[serde(rename = " ++ quoted property ++ ")]"

/-- The attribute that allows another name. -/
def aliasText (value : String) : String := "#[serde(alias = " ++ quoted value ++ ")]"

theorem isOpening_rename : IsOpening "#[serde(rename = " "rename" 6 := ⟨by decide, by decide⟩

theorem isOpening_alias : IsOpening "#[serde(alias = " "alias" 5 := ⟨by decide, by decide⟩

theorem isAttributeText_renameText (property : String) : IsAttributeText (renameText property).toList :=
  isAttributeText_attribute isOpening_rename property

theorem renameOf?_renameText (property : String) :
    renameOf? (renameText property).toList = some (quoted property) := renameOf?_attribute isOpening_rename property

theorem isAttributeText_deprecated : IsAttributeText "#[deprecated]".toList :=
  ⟨⟨.punct, "#", 0, 1⟩, ⟨.punct, "[", 1, 2⟩, ⟨.punct, "]", 12, 13⟩, [.leaf ⟨.ident, "deprecated", 2, 12⟩],
    ⟨eq_ok_of_toOption (by decide +kernel), rfl, rfl, rfl⟩, rfl, rfl⟩

theorem findSome?_deprecated (deprecated : Bool) :
    ((if deprecated then ["#[deprecated]"] else []).map String.toList).findSome? renameOf? = none := by
  have hnone : renameOf? "#[deprecated]".toList = none := by decide +kernel
  split
  · rw [List.map_singleton, List.findSome?_singleton, hnone]
  · rfl

theorem fieldText_attributes (f : Field) : (fieldText f).attributes =
    (if f.isRenamed then [renameText f.property] else []) ++ (if f.deprecated then ["#[deprecated]"] else []) := rfl

theorem isAttributeText_of_mem {f : Field} : ∀ a ∈ (fieldText f).attributes, IsAttributeText a.toList := by
  rw [fieldText_attributes]
  refine List.forall_mem_append.mpr ⟨?_, ?_⟩
  · split
    · exact List.forall_mem_singleton.mpr (isAttributeText_renameText f.property)
    · exact List.forall_mem_nil _
  · split
    · exact List.forall_mem_singleton.mpr isAttributeText_deprecated
    · exact List.forall_mem_nil _

/-! ### Fields as they are seen -/

/-- The lines of a field: its comment, its attributes, its name and its type. -/
def recordLines (comment attributes : List String) (name type : String) : String :=
  docComment "    " comment ++ Rust.attributeLines attributes ++ "    pub " ++ name ++ ": " ++ type ++ ",\n"

/-- **A field is seen as it is written.** -/
theorem readsMember_recordLines {comment attributes : List String} {name type : String}
    (hcomment : ∀ line ∈ comment, '\n' ∉ line.toList) (hattributes : ∀ a ∈ attributes, IsAttributeText a.toList)
    (hname : Rust.IsIdentifier name) (htype : Rust.FitsField type.toList) :
    ReadsMember Rust.Entry.recordField (recordLines comment attributes name type).toList
      (Shows (recordLines comment attributes name type).toList
        ⟨some name, some type.toList, attributes.map String.toList⟩) := by
  obtain ⟨types, hspells, hdepth⟩ := htype
  obtain ⟨trees, comma, field, hfield, -, hview⟩ :=
    IsFieldText.named (Rust.spells_identifier hname) rfl hspells hdepth (.inl rfl)
  have hblanks : ∀ c ∈ "    ".toList, Text.isBlank c = true := by decide
  obtain ⟨trees, comma, field', hfield', hview'⟩ := (hfield.blanks hblanks).attributeLines hattributes
  rw [Node.fieldView_behind, hview, List.append_nil] at hview'
  -- The comment has no tokens.
  obtain ⟨ts, hts, hnil⟩ := @writes_docComment "    " comment (by decide) hcomment
  obtain rfl := List.map_eq_nil_iff.mp hnil
  have htext : (recordLines comment attributes name type).toList = (docComment "    " comment).toList ++
      ((Rust.attributeLines attributes).toList ++ ("    ".toList ++ ("pub ".toList ++
        (name.toList ++ ':' :: ' ' :: (type.toList ++ [',', '\n']))))) := by
    have hpub : "    pub ".toList = "    ".toList ++ "pub ".toList := by decide
    unfold recordLines
    simp only [String.toList_append, hpub, List.append_assoc]
    rfl
  rw [htext]
  rw [← hview']
  exact hfield'.readsMember.silent hts

/-- A written field as it is seen. -/
def writtenView (f : Field) : FieldView :=
  ⟨some f.name, some (typeText f.type).toList, (fieldText f).attributes.map String.toList⟩

/-- **The name on the wire is the property.** -/
theorem wireName?_writtenView (f : Field) : (writtenView f).wireName? = some f.property := by
  rw [FieldView.wireName?, writtenView, fieldText_attributes]
  by_cases hrenamed : f.isRenamed = true
  · rw [if_pos hrenamed, List.singleton_append, List.map_cons, List.findSome?_cons, renameOf?_renameText]
    exact unquote?_quoted f.property
  · have hname : Name.bare f.name = f.property := by
      rwa [Model.Field.isRenamed, bne_iff_ne, ne_eq, not_not] at hrenamed
    rw [if_neg hrenamed, List.nil_append, findSome?_deprecated]
    exact congrArg some hname

/-- **Fields one behind the other are seen as they are written.** -/
theorem readsMembers_fieldLines {fields : List Field} (h : ∀ f ∈ fields, FitsRecord f) :
    ReadsMembers Rust.Entry.recordField (String.join (fields.map fieldLines)).toList fun d nodes =>
      ∀ front behind, front.length = d → nodes.map (Node.fieldView (front ++
        ((String.join (fields.map fieldLines)).toList ++ behind))) = fields.map writtenView :=
  Rust.readsMembers_shows fun f hf => readsMember_recordLines (newline_notMem_docLines [f.description])
    isAttributeText_of_mem (h f hf).name (h f hf).type

/-! ### Variants as they are seen -/

/-- The attributes of a variant. -/
def labelAttributes (label : VariantLabel) : List String :=
  (if label.deprecated then ["#[deprecated]"] else []) ++ label.rename.toList.map renameText ++
    label.aliases.map aliasText

theorem isAttributeText_of_mem_labelAttributes (label : VariantLabel) :
    ∀ a ∈ labelAttributes label, IsAttributeText a.toList := by
  refine List.forall_mem_append.mpr ⟨List.forall_mem_append.mpr ⟨?_, ?_⟩, ?_⟩
  · split
    · exact List.forall_mem_singleton.mpr isAttributeText_deprecated
    · exact List.forall_mem_nil _
  · exact List.forall_mem_map.mpr fun value _ => isAttributeText_renameText value
  · exact List.forall_mem_map.mpr fun value _ => isAttributeText_attribute isOpening_alias value

theorem attributeLine_eq {opening line : String} (hopening : line = "    " ++ opening) (literal : String) :
    line ++ literal ++ ")]\n" = "    " ++ (opening ++ literal ++ ")]") ++ "\n" := by
  have hend : ")]\n".toList = ")]".toList ++ "\n".toList := by decide
  rw [hopening, ← String.toList_inj]
  simp only [String.toList_append, List.append_assoc, hend]

theorem renameLine_eq (name : String) : renameLine "    " name = Rust.attributeLines [renameText name] := by
  rw [Rust.attributeLines_singleton]
  refine Eq.trans ?_ (attributeLine_eq rfl (quoted name))
  rw [renameLine, String.append_assoc, String.append_assoc]

theorem variantFront_eq (label : VariantLabel) : variantFront label =
    docComment "    " (docLines [label.description]) ++ Rust.attributeLines (labelAttributes label) := by
  have hdeprecated : (if label.deprecated then "    #[deprecated]\n" else "") =
      Rust.attributeLines (if label.deprecated then ["#[deprecated]"] else []) := by
    cases label.deprecated <;> decide
  have hrename : (label.rename.map (renameLine "    ")).getD "" =
      Rust.attributeLines (label.rename.toList.map renameText) := by
    cases label.rename with
    | none => rfl
    | some name => exact renameLine_eq name
  have haliases : String.join (label.aliases.map fun a => "    #[serde(alias = " ++ quoted a ++ ")]\n") =
      Rust.attributeLines (label.aliases.map aliasText) := by
    rw [Rust.attributeLines, List.map_map]
    exact congrArg String.join (List.map_congr_left fun value _ => attributeLine_eq (by decide) (quoted value))
  rw [variantFront, hdeprecated, hrename, haliases, labelAttributes, Rust.attributeLines_append,
    Rust.attributeLines_append, ← String.toList_inj]
  simp only [String.toList_append, List.append_assoc]

/-- A written variant as it is seen. -/
def writtenLabel (label : VariantLabel) : FieldView :=
  ⟨some label.name, none, (labelAttributes label).map String.toList⟩

/-- **The name of a variant on the wire** is what it is renamed to, else its own. -/
theorem wireName?_writtenLabel (label : VariantLabel) :
    (writtenLabel label).wireName? = some (label.rename.getD (Name.bare label.name)) := by
  have haliases : ((label.aliases.map aliasText).map String.toList).findSome? renameOf? = none := by
    rw [List.map_map, List.findSome?_map, List.findSome?_eq_none_iff]
    exact fun value _ => renameOf?_attribute isOpening_alias value
  have hrename : ((label.rename.toList.map renameText).map String.toList).findSome? renameOf? =
      label.rename.map quoted := by
    cases label.rename with
    | none => rfl
    | some value =>
      rw [Option.toList_some, List.map_singleton, List.map_singleton, List.findSome?_singleton]
      exact renameOf?_renameText value
  rw [FieldView.wireName?, writtenLabel, labelAttributes, List.map_append, List.map_append, List.findSome?_append,
    List.findSome?_append, findSome?_deprecated, haliases, hrename, Option.none_or, Option.or_none]
  cases label.rename with
  | none => rfl
  | some value => exact unquote?_quoted value

theorem readsMember_variantLines {label : VariantLabel} {type : Option Schema.DataType}
    (hname : Rust.IsIdentifier label.name) (htype : ∀ t ∈ type, t.IsWorded) :
    ReadsMember Rust.Entry.variant (variantLines label type).toList
      (Shows (variantLines label type).toList (writtenLabel label)) := by
  obtain ⟨contents, hcontents, hgap, hinside, hneutral⟩ := exists_contentTrees htype
  have hvariant := (Rust.readsMember_variant_shows hname hcontents hgap hinside hneutral).attributeLines
    (isAttributeText_of_mem_labelAttributes label)
  obtain ⟨ts, hts, hnil⟩ := @writes_docComment "    " _ (by decide) (newline_notMem_docLines [label.description])
  obtain rfl := List.map_eq_nil_iff.mp hnil
  have hlines : variantLines label type =
      variantFront label ++ "    " ++ label.name ++ variantContent type ++ ",\n" := rfl
  rw [hlines, variantFront_eq]
  simp only [String.toList_append, List.append_assoc]
  simp only [List.append_assoc, List.append_nil] at hvariant
  exact hvariant.silent hts

/-- What is read as a variant is one. -/
theorem isVariant_of_read {entry : Rust.Entry} {node : Node} (h : Rust.Entry.variant entry = .ok (some node)) :
    node.isVariant = true ∧ node.isField = false := by
  rw [Rust.Entry.variant] at h
  split at h
  · cases h
  · obtain ⟨name, -, h⟩ := bind_eq_ok.mp h
    cases h
    exact ⟨rfl, rfl⟩

/-- **Variants one behind the other are seen as they are written.** -/
theorem readsMembers_variantLines {α : Type} {line : α → String} {label : α → VariantLabel} {variants : List α}
    (h : ∀ v ∈ variants, ReadsMember Rust.Entry.variant (line v).toList
      (Shows (line v).toList (writtenLabel (label v)))) :
    ReadsMembers Rust.Entry.variant (String.join (variants.map line)).toList fun d nodes =>
      (∀ n ∈ nodes, n.isVariant = true ∧ n.isField = false) ∧ ∀ front behind, front.length = d →
        nodes.map (Node.fieldView (front ++ ((String.join (variants.map line)).toList ++ behind))) =
          variants.map fun v => writtenLabel (label v) := by
  obtain ⟨trees, hlex, hnested, hread⟩ := Rust.readsMembers_shows h
  refine ⟨trees, hlex, hnested, fun d before stop => ?_⟩
  obtain ⟨nodes, hnodes, hviews⟩ := hread d before stop
  refine ⟨nodes, hnodes, ?_, hviews⟩
  obtain ⟨results, hresults, hnodes⟩ := bind_eq_ok.mp hnodes
  rw [pure_eq_ok.mp hnodes]
  intro n hn
  obtain ⟨_, hmem, rfl⟩ := List.mem_filterMap.mp hn
  obtain ⟨entry, -, hentry⟩ := exists_of_mem_mapM hresults _ hmem
  exact isVariant_of_read hentry

end ContractSync.Emit
