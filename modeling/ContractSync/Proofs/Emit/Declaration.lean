import ContractSync.Edit.Apply
import ContractSync.Emit.Declaration
import ContractSync.Proofs.Edit.Retype
import ContractSync.Proofs.Emit.Pieces
import ContractSync.Proofs.Emit.TypeText
import ContractSync.Proofs.Rust.MemberText

/-!
# The text of a model

A model is written with its comment, the traits that it derives, and its fields or variants on lines of their
own; another name for a type is written on one line. **Each model is written as one item**
(`exists_modelItem`): it has the kind and the name of the model, derives the traits of models, and each of
its fields is found by name with its type at the place where it is written.
-/

namespace ContractSync.Rust

open Attribute (lead)
open TokenTree (flattenAll isNestedAll)

/-! ### Types of fields -/

/-- The text can stand for the type of a field. -/
def FitsField (type : List Char) : Prop :=
  ∃ trees, Spells type trees ∧ Entry.depthBehind 0 trees = some 0

theorem IsTypeText.fitsField {type : List Char} (h : IsTypeText type) : FitsField type := by
  obtain ⟨_, trees, halone, hof, hdepth⟩ := h
  obtain ⟨rfl, hnested⟩ := TokenTree.ofTokens_eq_ok_iff.mp hof
  refine ⟨trees, ⟨halone.tokens, hnested, ?_, ?_⟩, hdepth⟩
  · rw [← TokenTree.start_head?_flattenAll]
    exact halone.first
  · rw [← TokenTree.stop_getLast?_flattenAll]
    exact halone.last

/-! ### Comments and attributes -/

theorem IsAttributes.append {a b : List TokenTree} (ha : IsAttributes a) (hb : IsAttributes b) :
    IsAttributes (a ++ b) := by
  induction ha with
  | nil => exact hb
  | cons hhash hopener _ ih => exact .cons hhash hopener ih

theorem IsAttributes.outer_append {a : List TokenTree} (ha : IsAttributes a) (b : List TokenTree) :
    (lead (a ++ b)).outer = (lead a).outer ++ (lead b).outer := by
  induction ha with
  | nil => rfl
  | @cons hash opener closer inner rest hhash hopener _ ih =>
    have hcons : ∀ trees, (lead (.leaf hash :: .group opener inner closer :: trees)).outer =
        Attribute.node hash.start false inner closer :: (lead trees).outer := fun trees => by
      rw [lead, hhash, hopener]
      rfl
    rw [List.cons_append, List.cons_append, hcons, hcons, ih, List.cons_append]

/-- The text consists of comments and attributes. -/
def IsLead (text : List Char) : Prop :=
  ∃ attributes, IsAttributes attributes ∧ isNestedAll attributes = true ∧
    Writes Anything text (flattenAll attributes)

namespace IsLead

variable {a b : List Char}

theorem of_comment (h : Writes Anything a []) : IsLead a := ⟨[], .nil, rfl, h⟩

theorem append (ha : IsLead a) (hb : IsLead b) : IsLead (a ++ b) := by
  obtain ⟨as, has, hnested, hwrites⟩ := ha
  obtain ⟨bs, hbs, hnested', hwrites'⟩ := hb
  refine ⟨as ++ bs, has.append hbs, ?_, ?_⟩
  · rw [TokenTree.isNestedAll_append, hnested, hnested']
    rfl
  · rw [TokenTree.flattenAll_append]
    exact hwrites.and hwrites'

theorem join {texts : List String} (h : ∀ text ∈ texts, IsLead text.toList) :
    IsLead (String.join texts).toList := by
  rw [String.toList_join]
  induction texts with
  | nil => exact .of_comment .nil
  | cons text texts ih =>
    obtain ⟨htext, htexts⟩ := List.forall_mem_cons.mp h
    exact htext.append (ih htexts)

theorem of_marks {text : String} {attributes : List TokenTree} (hattributes : IsAttributes attributes)
    (hnested : isNestedAll attributes = true) (h : marksOf? text.toList = some (flattenAll attributes)) :
    IsLead text.toList :=
  ⟨attributes, hattributes, hnested, .of_marks h⟩

/-- A field behind comments and attributes. -/
theorem field {name : String} {type : List Char} (h : IsLead a) (hname : IsIdentifier name)
    (htype : FitsField type) :
    IsMember Entry.recordField (a ++ "    pub ".toList ++ name.toList ++ ": ".toList ++ type ++ ",\n".toList)
      ⟨some name, some ⟨a.length + name.toList.length + 10,
        a.length + name.toList.length + 10 + type.length⟩⟩ := by
  obtain ⟨attributes, hattributes, hnested, hwrites⟩ := h
  obtain ⟨types, hspells, hdepth⟩ := htype
  exact isMember_field hwrites hattributes hnested hname hspells hdepth

end IsLead

/-! ### Aliases -/

/-- Another name for a type, up to the semicolon. -/
theorem Item.read_alias {trees middle : List TokenTree} {keyword name last : Token}
    (hskip : skipQualifiers (Entry.dropVisibility trees) =
      .leaf keyword :: .leaf name :: (middle ++ [.leaf last]))
    (hkeyword : keyword.text = "type") (hname : name.kind = .ident)
    (hmiddle : ∀ tree ∈ middle, tree.isPunct ";" = false) (hlast : last.isPunct ";" = true) (stop : Nat) :
    read stop trees = .ok {
      kind := .typeAlias, name := some name.text, stop := last.stop, rest := [] } := by
  have hword : Item.keyword (.leaf keyword :: .leaf name :: (middle ++ [.leaf last])) = "type" := hkeyword
  have halias : aliasName? (.leaf keyword :: .leaf name :: (middle ++ [.leaf last])) = some name.text :=
    if_pos hname
  have hkeywordMark : keyword.isPunct ";" = false := by
    rw [Token.isPunct, hkeyword, Bool.and_eq_false_iff]
    exact .inr rfl
  have hnameMark : name.isPunct ";" = false := by
    rw [Token.isPunct, hname]
    rfl
  have hscan : scanTo stop [";"] ((.leaf keyword :: .leaf name :: middle) ++ .leaf last :: []) =
      .ok (.leaf last, []) := by
    refine scanTo_append (fun tree htree => ?_) ?_
    · rw [List.any_cons, List.any_nil, Bool.or_false]
      rcases List.mem_cons.mp htree with rfl | htree
      · exact hkeywordMark
      rcases List.mem_cons.mp htree with rfl | htree
      · exact hnameMark
      · exact hmiddle tree htree
    · rw [List.any_cons, List.any_nil, Bool.or_false]
      exact hlast
  rw [List.cons_append, List.cons_append] at hscan
  rw [read, hskip, readKeyword, hword, if_neg (by decide), if_neg (by decide), if_neg (by decide),
    if_neg (by decide), if_neg (by decide), if_neg (by decide), halias, if_pos ⟨rfl, rfl⟩, readLine, hscan]
  rfl

/-- **The text of an alias**: the name, and tokens up to a semicolon. -/
theorem exists_alias {text : List Char} {name : String} {middle : List Token}
    (h : Writes Anything text (⟨.ident, "pub", 0, 0⟩ :: ⟨.ident, "type", 0, 0⟩ :: ⟨.ident, name, 0, 0⟩ ::
      (middle ++ [⟨.punct, ";", 0, 0⟩])))
    (hmiddle : ∀ t ∈ middle, t.IsInner) :
    ∃ node, IsItemText text node ∧ node.itemKind? = some .typeAlias ∧ node.name? = some name ∧
      node.children = [] := by
  obtain ⟨ts, hts, hbare⟩ := h.tokenize trivial
  obtain ⟨pub, ts, rfl, hpub, hbare⟩ := List.map_eq_cons_iff.mp hbare
  obtain ⟨keyword, ts, rfl, hkeyword, hbare⟩ := List.map_eq_cons_iff.mp hbare
  obtain ⟨t, ts, rfl, ht, hbare⟩ := List.map_eq_cons_iff.mp hbare
  obtain ⟨inner, ends, rfl, hinner, hbare⟩ := List.map_eq_append_iff.mp hbare
  obtain ⟨last, rfl, hlast⟩ := List.map_eq_singleton_iff.mp hbare
  have hlastMark : last.isPunct ";" = true := Token.isPunct_of_bare hlast
  have hinside : ∀ t ∈ inner, t.IsInner := fun t hmem => hmiddle t.bare (hinner ▸ List.mem_map_of_mem hmem)
  have hword : ∀ {u : Token} {word : String}, u.bare = ⟨.ident, word, 0, 0⟩ → u.kind = .ident ∧ u.text = word :=
    fun hu => ⟨congrArg Token.kind hu, congrArg Token.text hu⟩
  have hpubWord : pub.isWord "pub" = true := by
    rw [Token.isWord, (hword hpub).1, (hword hpub).2]
    rfl
  have hplain : ∀ u ∈ pub :: keyword :: t :: (inner ++ [last]), u.isOpener = false ∧ u.isCloser = false := by
    have hident : ∀ {u : Token}, u.kind = .ident → u.isOpener = false ∧ u.isCloser = false := fun hu => by
      simp [Token.isOpener, Token.isCloser, Token.isPunct, hu]
    intro u hu
    simp only [List.mem_cons, List.mem_append, List.not_mem_nil, or_false] at hu
    rcases hu with rfl | rfl | rfl | hu | rfl
    · exact hident (hword hpub).1
    · exact hident (hword hkeyword).1
    · exact hident (hword ht).1
    · exact ⟨(hinside u hu).1, (hinside u hu).2.1⟩
    · have hmark : ∀ mark, u.isPunct mark = (";" == mark) := fun mark => by
        rw [Token.isPunct, Bool.and_eq_true, beq_iff_eq, beq_iff_eq] at hlastMark
        rw [Token.isPunct, hlastMark.1, hlastMark.2, beq_self_eq_true, Bool.true_and]
      simp only [Token.isOpener, Token.isCloser, hmark]
      decide
  obtain ⟨hflat, hnested⟩ := nested_leaves hplain
  have hskip := (IsFront.pub hpubWord).skip (by rw [(hword hkeyword).2]; decide)
    ⟨t, (inner ++ [last]).map .leaf, rfl⟩
  rw [List.map_append, List.map_singleton] at hskip
  have hread := Item.read_alias hskip (hword hkeyword).2 (hword ht).1
    (fun tree htree => by
      obtain ⟨u, hu, rfl⟩ := List.mem_map.mp htree
      exact (hinside u hu).2.2) hlastMark 0
  obtain ⟨start, hitems, hall⟩ := (IsFront.pub hpubWord).items .nil (hword hkeyword).1 hread rfl rfl
    (List.forall_mem_nil _) rfl
  refine ⟨_, ⟨⟨_, ⟨hflat.symm ▸ hts, hnested, ?_⟩, ?_, last, ?_, .inl hlastMark⟩, hall⟩, rfl,
    congrArg some (hword ht).2, rfl⟩
  · simpa using hitems
  · intro tree htree
    obtain rfl : TokenTree.leaf pub = tree := Option.some.inj htree
    rw [TokenTree.isPunct, TokenTree.head, Token.isPunct, (hword hpub).1]
    rfl
  · rw [hflat, ← List.cons_append, ← List.cons_append, ← List.cons_append, List.getLast?_concat]

end ContractSync.Rust

namespace ContractSync.Emit

open Model (Field)
open Rust (Anything FitsField IsAttributes IsGap IsIdentifier IsLead IsMember IsMembers MemberView Node TokenTree Writes
  marksOf?)
open Rust.TokenTree (flattenAll isNestedAll)
open Schema (VariantLabel)

/-! ### Attributes of fields and variants -/

theorem isLead_docComment {indent : String} (hindent : Text.isAllBlank indent.toList = true)
    (texts : List (Option String)) : IsLead (docComment indent (docLines texts)).toList :=
  .of_comment (writes_docComment hindent (newline_notMem_docLines texts))

/-- The attribute `#[serde(key = "text")]`. -/
def serdeAttribute (key text : String) : List TokenTree :=
  [.leaf ⟨.punct, "#", 0, 0⟩,
    .group ⟨.punct, "[", 0, 0⟩
      [.leaf ⟨.ident, "serde", 0, 0⟩,
        .group ⟨.punct, "(", 0, 0⟩
          [.leaf ⟨.ident, key, 0, 0⟩, .leaf ⟨.punct, "=", 0, 0⟩, .leaf ⟨.literal, quoted text, 0, 0⟩]
          ⟨.punct, ")", 0, 0⟩]
      ⟨.punct, "]", 0, 0⟩]

theorem isAttributes_serdeAttribute (key text : String) :
    IsAttributes (serdeAttribute key text) ∧ isNestedAll (serdeAttribute key text) = true :=
  ⟨.cons rfl rfl .nil, rfl⟩

theorem writes_renameLine {indent : String} (hindent : Text.isAllBlank indent.toList = true) (name : String) :
    Writes Anything (renameLine indent name).toList (flattenAll (serdeAttribute "rename" name)) := by
  have hlead : Writes Anything "#[serde(rename = ".toList
      [⟨.punct, "#", 0, 0⟩, ⟨.punct, "[", 0, 0⟩, ⟨.ident, "serde", 0, 0⟩, ⟨.punct, "(", 0, 0⟩,
        ⟨.ident, "rename", 0, 0⟩, ⟨.punct, "=", 0, 0⟩] := .const rfl (by decide)
  have hclose : Writes Anything ")]\n".toList [⟨.punct, ")", 0, 0⟩, ⟨.punct, "]", 0, 0⟩] :=
    .const rfl (by decide)
  have hall := (Writes.blanks hindent).and (hlead.and ((writes_quoted name).and hclose))
  unfold renameLine
  simp only [String.toList_append, List.append_assoc]
  exact hall

/-- An attribute that ends with a quoted text. -/
theorem isLead_serde {opening key : String} (h : marksOf? opening.toList =
      some [⟨.punct, "#", 0, 0⟩, ⟨.punct, "[", 0, 0⟩, ⟨.ident, "serde", 0, 0⟩, ⟨.punct, "(", 0, 0⟩,
        ⟨.ident, key, 0, 0⟩, ⟨.punct, "=", 0, 0⟩]) (text : String) :
    IsLead (opening ++ quoted text ++ ")]\n").toList := by
  obtain ⟨hattributes, hnested⟩ := isAttributes_serdeAttribute key text
  have hclose : Writes Anything ")]\n".toList [⟨.punct, ")", 0, 0⟩, ⟨.punct, "]", 0, 0⟩] :=
    .const rfl (by decide)
  refine ⟨_, hattributes, hnested, ?_⟩
  rw [String.toList_append, String.toList_append, List.append_assoc]
  exact (Writes.of_marks h).and ((writes_quoted text).and hclose)

/-- The attribute `#[deprecated]`. -/
def deprecatedAttribute : List Rust.TokenTree :=
  [.leaf ⟨.punct, "#", 0, 0⟩,
    .group ⟨.punct, "[", 0, 0⟩ [.leaf ⟨.ident, "deprecated", 0, 0⟩] ⟨.punct, "]", 0, 0⟩]

theorem isLead_deprecated : IsLead "    #[deprecated]\n".toList :=
  @IsLead.of_marks _ deprecatedAttribute (.cons rfl rfl .nil) rfl (by decide)

theorem isLead_empty : IsLead "".toList := .of_comment .nil

/-! ### Fields -/

/-- What stands in front of a field: its comment and its attributes. -/
def fieldFront (f : Field) : String :=
  docComment "    " (docLines [f.description])
    ++ String.join ((fieldText f).attributes.map fun a => "    " ++ a ++ "\n")

theorem isLead_fieldFront (f : Field) : IsLead (fieldFront f).toList := by
  have hrename : IsLead ("    " ++ ("#[serde(rename = " ++ quoted f.property ++ ")]") ++ "\n").toList := by
    have hlead := @isLead_serde "    #[serde(rename = " "rename" (by decide) f.property
    have hopening : "    #[serde(rename = ".toList = "    ".toList ++ "#[serde(rename = ".toList := by decide
    have hclosing : ")]\n".toList = ")]".toList ++ "\n".toList := by decide
    simpa only [String.toList_append, hopening, hclosing, List.append_assoc] using hlead
  rw [fieldFront, String.toList_append]
  refine (isLead_docComment (by decide) _).append (.join (List.forall_mem_map.mpr ?_))
  refine List.forall_mem_append.mpr ⟨?_, ?_⟩
  · split
    · exact List.forall_mem_singleton.mpr hrename
    · exact List.forall_mem_nil _
  · split
    · exact List.forall_mem_singleton.mpr isLead_deprecated
    · exact List.forall_mem_nil _

/-- The text of a field up to its type. -/
def fieldOpening (f : Field) : List Char :=
  (fieldFront f).toList ++ "    pub ".toList ++ f.name.toList ++ ": ".toList

theorem fieldLines_toList (f : Field) :
    (fieldLines f).toList = fieldOpening f ++ (typeText f.type).toList ++ ",\n".toList := by
  have hlines : fieldLines f =
      fieldFront f ++ "    pub " ++ f.name ++ ": " ++ typeText f.type ++ ",\n" := rfl
  rw [hlines]
  simp only [String.toList_append, fieldOpening]

/-- A field as it is found: its name and the place of its type. -/
def fieldView (f : Field) : MemberView :=
  ⟨some f.name, some ⟨(fieldOpening f).length, (fieldOpening f).length + (typeText f.type).toList.length⟩⟩

/-- The field can be written. -/
structure FitsRecord (f : Field) : Prop where
  name : IsIdentifier f.name
  type : FitsField (typeText f.type).toList

theorem isMember_fieldLines {f : Field} (h : FitsRecord f) :
    IsMember Rust.Entry.recordField (fieldLines f).toList (fieldView f) := by
  have hmember := (isLead_fieldFront f).field h.name h.type
  have hpub : "    pub ".toList.length = 8 := by decide
  have hcolon : ": ".toList.length = 2 := by decide
  have hstart : (fieldFront f).toList.length + f.name.toList.length + 10 = (fieldOpening f).length := by
    simp only [fieldOpening, List.length_append, hpub, hcolon]
    omega
  rw [hstart] at hmember
  rw [fieldLines_toList]
  exact hmember

/-- Fields one behind the other, as they are found. -/
def fieldViews : List Field → List MemberView
  | [] => []
  | f :: rest => fieldView f :: (fieldViews rest).map (MemberView.behind (fieldLines f).toList.length)

theorem isMembers_fieldLines {fields : List Field} (h : ∀ f ∈ fields, FitsRecord f) :
    IsMembers Rust.Entry.recordField (String.join (fields.map fieldLines)).toList (fieldViews fields) := by
  rw [String.toList_join]
  induction fields with
  | nil => exact .nil _
  | cons f rest ih =>
    obtain ⟨hf, hrest⟩ := List.forall_mem_cons.mp h
    exact .cons (isMember_fieldLines hf) (ih hrest)

/-- The field has this name; raw markers do not matter. -/
def isCalled (name : String) (f : Field) : Bool := Name.bare f.name == Name.bare name

/-- What is found is a field with this name; raw markers do not matter. -/
def isViewOf (name : String) (v : MemberView) : Bool :=
  v.type.isSome && v.name.any fun found => Name.bare found == Name.bare name

theorem isViewOf_behind (name : String) (d : Nat) : isViewOf name ∘ MemberView.behind d = isViewOf name := by
  funext v
  rw [Function.comp, isViewOf, isViewOf, MemberView.behind, Option.isSome_map]

/-- The first field with a name is found where it is written. -/
theorem find?_fieldViews {name : String} {before behind : List Field} {f : Field}
    (hbefore : ∀ g ∈ before, isCalled name g = false) (hf : isCalled name f = true) :
    (fieldViews (before ++ f :: behind)).find? (isViewOf name) =
      some ((fieldView f).behind (String.join (before.map fieldLines)).toList.length) := by
  rw [String.toList_join]
  induction before with
  | nil =>
    have hview : isViewOf name (fieldView f) = true := hf
    rw [List.nil_append, fieldViews, List.find?_cons, hview]
    exact congrArg some ((fieldView f).behind_zero).symm
  | cons g before ih =>
    obtain ⟨hg, hbefore⟩ := List.forall_mem_cons.mp hbefore
    have hview : isViewOf name (fieldView g) = false := hg
    rw [List.cons_append, fieldViews, List.find?_cons, hview, List.find?_map, isViewOf_behind, ih hbefore,
      Option.map_some, MemberView.behind_behind, List.map_cons, List.flatMap_cons, List.length_append,
      Nat.add_comm]

theorem find?_fieldViews_eq_none {name : String} {fields : List Field}
    (h : ∀ f ∈ fields, isCalled name f = false) : (fieldViews fields).find? (isViewOf name) = none := by
  induction fields with
  | nil => rfl
  | cons f rest ih =>
    obtain ⟨hf, hrest⟩ := List.forall_mem_cons.mp h
    have hview : isViewOf name (fieldView f) = false := hf
    rw [fieldViews, List.find?_cons, hview, List.find?_map, isViewOf_behind, ih hrest]
    rfl

/-! ### Variants -/

/-- What stands in front of a variant: its comment and its attributes. -/
def variantFront (label : VariantLabel) : String :=
  docComment "    " (docLines [label.description])
    ++ (if label.deprecated then "    #[deprecated]\n" else "")
    ++ ((label.rename.map (renameLine "    ")).getD "")
    ++ String.join (label.aliases.map fun a => "    #[serde(alias = " ++ quoted a ++ ")]\n")

theorem isLead_variantFront (label : VariantLabel) : IsLead (variantFront label).toList := by
  simp only [variantFront, String.toList_append]
  refine (((isLead_docComment (by decide) _).append ?_).append ?_).append
    (.join (List.forall_mem_map.mpr fun a _ => @isLead_serde _ "alias" (by decide) a))
  · split
    · exact isLead_deprecated
    · exact isLead_empty
  · cases label.rename with
    | none => exact isLead_empty
    | some name =>
      obtain ⟨hattributes, hnested⟩ := isAttributes_serdeAttribute "rename" name
      exact ⟨_, hattributes, hnested, writes_renameLine (by decide) name⟩

/-- The content of a variant. -/
def variantContent (type : Option Schema.DataType) : String :=
  match type.map typeText with
  | some text => if text.isEmpty then "" else "(" ++ text ++ ")"
  | none => ""

/-- The content of a variant is nothing, or a type in parentheses. -/
theorem exists_contentTrees {type : Option Schema.DataType} (h : ∀ t ∈ type, t.IsWorded) :
    ∃ contents, Writes Anything (variantContent type).toList (flattenAll contents) ∧
      IsGap ((variantContent type).toList ++ [',']) ∧ isNestedAll contents = true ∧
      ∀ tree ∈ contents, Rust.Entry.IsNeutral tree := by
  have hnothing : ∃ contents, Writes Anything "".toList (flattenAll contents) ∧ IsGap ("".toList ++ [',']) ∧
      isNestedAll contents = true ∧ ∀ tree ∈ contents, Rust.Entry.IsNeutral tree :=
    ⟨[], .nil, by decide +kernel, rfl, List.forall_mem_nil _⟩
  unfold variantContent
  cases type with
  | none => exact hnothing
  | some type =>
    simp only [Option.map_some]
    split
    · exact hnothing
    · obtain ⟨marks, hmarks, hinner⟩ := (isTypeCode_typeText (h type rfl)).writes
      obtain ⟨hflat, hnested⟩ := Rust.nested_leaves fun t ht => ⟨(hinner t ht).1, (hinner t ht).2.1⟩
      have hopen : Writes Anything "(".toList [⟨.punct, "(", 0, 0⟩] := .const rfl (by decide)
      have hclose : Writes Anything ")".toList [⟨.punct, ")", 0, 0⟩] := .const rfl (by decide)
      refine ⟨[.group ⟨.punct, "(", 0, 0⟩ (marks.map .leaf) ⟨.punct, ")", 0, 0⟩], ?_, ?_, ?_, ?_⟩
      · have hall := hopen.and (hmarks.append hclose fun rest _ =>
          Rust.Lexer.IsBreak.append (by decide +kernel) (by decide) rest)
        rw [String.toList_append, String.toList_append, List.append_assoc, flattenAll, flattenAll,
          Rust.TokenTree.flatten, hflat, List.append_nil]
        exact hall
      · rw [String.toList_append, String.toList_append, List.append_assoc, List.append_assoc]
        exact IsGap.append (by decide +kernel) (by decide) _
      · rw [isNestedAll, Rust.TokenTree.isNested, hnested]
        rfl
      · exact List.forall_mem_singleton.mpr (@Rust.Entry.isNeutral_of_mark _ "(" rfl (by decide))

theorem isMember_variantLines {label : VariantLabel} {type : Option Schema.DataType}
    (hname : IsIdentifier label.name) (htype : ∀ t ∈ type, t.IsWorded) :
    IsMember Rust.Entry.variant (variantLines label type).toList ⟨some label.name, none⟩ := by
  obtain ⟨attributes, hattributes, hnested, hfront⟩ := isLead_variantFront label
  obtain ⟨contents, hcontents, hgap, hinside, hneutral⟩ := exists_contentTrees htype
  have hlines : variantLines label type =
      variantFront label ++ "    " ++ label.name ++ variantContent type ++ ",\n" := rfl
  rw [hlines]
  simp only [String.toList_append]
  exact Rust.isMember_variant hfront hattributes hnested hname hcontents hgap hinside hneutral

theorem exists_isMembers_variants {lines : List String}
    (h : ∀ line ∈ lines, ∃ name, IsMember Rust.Entry.variant line.toList ⟨some name, none⟩) :
    ∃ views : List MemberView, IsMembers Rust.Entry.variant (String.join lines).toList views ∧
      ∀ v ∈ views, v.type = none := by
  rw [String.toList_join]
  induction lines with
  | nil => exact ⟨[], .nil _, List.forall_mem_nil _⟩
  | cons line lines ih =>
    obtain ⟨⟨name, hline⟩, hlines⟩ := List.forall_mem_cons.mp h
    obtain ⟨views, hviews, htypes⟩ := ih hlines
    refine ⟨_, .cons hline hviews, List.forall_mem_cons.mpr ⟨rfl, List.forall_mem_map.mpr fun v hv => ?_⟩⟩
    rw [MemberView.behind, htypes v hv]
    rfl

/-! ### What declarations derive -/

/-- The traits that models derive, as an attribute. -/
def derivesAttribute : List Rust.TokenTree :=
  [.leaf ⟨.punct, "#", 0, 1⟩,
    .group ⟨.punct, "[", 1, 2⟩
      [.leaf ⟨.ident, "derive", 2, 8⟩,
        .group ⟨.punct, "(", 8, 9⟩
          [.leaf ⟨.ident, "Debug", 9, 14⟩, .leaf ⟨.punct, ",", 14, 15⟩, .leaf ⟨.ident, "Clone", 16, 21⟩,
            .leaf ⟨.punct, ",", 21, 22⟩, .leaf ⟨.ident, "Serialize", 23, 32⟩, .leaf ⟨.punct, ",", 32, 33⟩,
            .leaf ⟨.ident, "Deserialize", 34, 45⟩, .leaf ⟨.punct, ",", 45, 46⟩,
            .leaf ⟨.ident, "ToSchema", 47, 55⟩]
          ⟨.punct, ")", 55, 56⟩]
      ⟨.punct, "]", 56, 57⟩]

/-- The place of the traits in the attribute. -/
def derivesArgs : Rust.Span := ⟨8, 55⟩

/-- The attribute as it is read. -/
def derivesNode : Node := .mk (.attribute (some "derive") (some derivesArgs) false) 0 0 57 []

theorem lexes_derivesLine : Rust.Lexes Anything derivesLine.toList (flattenAll derivesAttribute) :=
  .of_tokens (by decide)

/-- The traits stand behind the comment, whatever attributes follow. -/
theorem exists_derivesFront {comment more : List Char} (hcomment : Writes Anything comment [])
    (hmore : IsLead more) :
    ∃ attributes, Rust.Lexes Anything (comment ++ derivesLine.toList ++ more) (flattenAll attributes) ∧
      IsAttributes attributes ∧ isNestedAll attributes = true ∧
      derivesNode.move (· + comment.length) ∈ (Rust.Attribute.lead attributes).outer := by
  have hderives : IsAttributes derivesAttribute := .cons rfl rfl .nil
  obtain ⟨ts, hts, hnil⟩ := hcomment
  obtain rfl := List.map_eq_nil_iff.mp hnil
  obtain ⟨others, hothers, hnested, hwrites⟩ := hmore
  obtain ⟨there, hthere, hattributes, hnested'⟩ := hothers.exists_lexes hnested hwrites
  have hall := (hts.and lexes_derivesLine).and hthere
  generalize (comment ++ derivesLine.toList).length = d at hall
  have hshift : ∀ (n : Nat) (trees : List Rust.TokenTree), (flattenAll trees).map (Rust.Token.shift n) =
      flattenAll (trees.map (Rust.TokenTree.move (· + n))) := fun n trees => by
    rw [Rust.TokenTree.flattenAll_map_move]
    rfl
  rw [List.nil_append, hshift, hshift, ← Rust.TokenTree.flattenAll_append] at hall
  have hmoved := hderives.move (· + comment.length)
  refine ⟨_, hall, hmoved.append (hattributes.move _), ?_, ?_⟩
  · rw [Rust.TokenTree.isNestedAll_append, Rust.TokenTree.isNestedAll_map_move,
      Rust.TokenTree.isNestedAll_map_move, hnested']
    rfl
  · rw [hmoved.outer_append]
    exact List.mem_append_left _ (List.mem_singleton_self _)

end ContractSync.Emit

/-! ### Declarations -/

namespace ContractSync.Model

open Rust (ItemKind)

/-- The kind of the item that declares a shape. -/
def Shape.itemKind : Shape → ItemKind
  | .record _ => .struct_
  | .union _ _ | .literals _ => .enum_
  | .alias _ => .typeAlias

/-- The fields of a record. -/
def Shape.fields : Shape → List Field
  | .record fields => fields
  | .union _ _ | .literals _ | .alias _ => []

/-- The shape can be written: its names are identifiers and its types stand for types. -/
def Shape.FitsDeclaration : Shape → Prop
  | .record fields => ∀ f ∈ fields, Emit.FitsRecord f
  | .union variants _ => ∀ v ∈ variants, Rust.IsIdentifier v.1.name ∧ v.2.IsWorded
  | .literals variants => ∀ v ∈ variants, Rust.IsIdentifier v.name
  | .alias target => target.IsWorded

/-- The model can be written. -/
structure FitsDeclaration (m : Model) : Prop where
  name : Rust.IsIdentifier m.name
  shape : m.shape.FitsDeclaration

end ContractSync.Model

namespace ContractSync.Emit

open Edit (between groupArgs)
open Model (Field)
open Rust (IsItemText MemberView Node)

/-- The text of a record up to its first field. -/
def recordOpening (m : Model) : List Char :=
  (docComment "" (docLines [m.description])).toList ++ derivesLine.toList ++
    ("pub struct ".toList ++ (m.name.toList ++ " \x7b\n".toList))

/-- A record with a field between others. -/
theorem record_toList {m : Model} {before behind : List Field} {f : Field}
    (h : m.shape = .record (before ++ f :: behind)) : (modelDeclaration m).toList =
      recordOpening m ++ (String.join (before.map fieldLines)).toList ++ fieldOpening f
        ++ (typeText f.type).toList
        ++ (",\n".toList ++ (String.join (behind.map fieldLines)).toList ++ "\x7d\n".toList) := by
  rw [modelDeclaration, h]
  simp only [shapeText, recordOpening, String.toList_append, String.toList_join, List.map_append,
    List.map_cons, List.flatMap_append, List.flatMap_cons, fieldLines_toList, List.append_assoc]

/-- A node as a model is found: it declares the model and its fields and derives the traits. -/
structure IsModelItem (m : Model) (node : Node) : Prop where
  item : IsItemText (modelDeclaration m).toList node
  kind : node.itemKind? = some m.shape.itemKind
  name : node.name? = some m.name
  derives : m.shape.itemKind ≠ .typeAlias → ∃ args ∈ groupArgs node "derive",
    args.stop ≤ (modelDeclaration m).toList.length ∧
      between (modelDeclaration m).toList args = (", ".intercalate modelDerives).toList
  field : ∀ name, (node.field? name).map Node.memberView =
    ((fieldViews m.shape.fields).find? (isViewOf name)).map (MemberView.behind (recordOpening m).length)

/-- The fields of a node are found among its members. -/
theorem field?_of_children {node : Node} {attributes : List Rust.TokenTree} {members : List Node}
    (h : node.children = (Rust.Attribute.lead attributes).outer ++ members) (name : String) :
    (node.field? name).map Node.memberView = (members.map Node.memberView).find? (isViewOf name) := by
  have houter : ((Rust.Attribute.lead attributes).outer).filter Node.isField = [] := by
    refine List.filter_eq_nil_iff.mpr fun n hn => ?_
    obtain ⟨_, _, _, _, rfl⟩ := Rust.Attribute.mem_lead (.inr hn)
    exact Bool.false_ne_true
  have hview : isViewOf name ∘ Node.memberView = fun n =>
      n.isField && n.name?.any fun found => Name.bare found == Name.bare name := by
    funext n
    have hfield : n.isField = n.type?.isSome := by
      rw [Node.isField, Node.type?]
      cases n.shape <;> rfl
    rw [Function.comp, isViewOf, hfield]
    rfl
  have hdecide : ∀ a b : Bool, decide (a = true ∧ b = true) = (a && b) := by decide
  rw [Node.field?, Node.fields, h, List.filter_append, houter, List.nil_append, List.find?_filter,
    List.find?_map, hview]
  simp only [hdecide]

/-- A field that the model has is found. -/
theorem IsModelItem.field?_isSome {m : Model} {node : Node} (h : IsModelItem m node) {name : String}
    (hname : name ∈ m.shape.fields.map (·.name)) : (node.field? name).isSome = true := by
  obtain ⟨f, hf, rfl⟩ := List.mem_map.mp hname
  have hviews : ∀ {fields : List Field}, f ∈ fields →
      ((fieldViews fields).find? (isViewOf f.name)).isSome = true := by
    intro fields hf
    rw [List.find?_isSome]
    induction fields with
    | nil => cases hf
    | cons g rest ih =>
      rcases List.mem_cons.mp hf with rfl | hf
      · exact ⟨_, List.mem_cons_self, beq_self_eq_true _⟩
      · obtain ⟨v, hv, hview⟩ := ih hf
        refine ⟨_, List.mem_cons_of_mem _ (List.mem_map_of_mem hv), ?_⟩
        exact (congrFun (isViewOf_behind f.name _) v).trans hview
  have hfield := congrArg Option.isSome (h.field f.name)
  rwa [Option.isSome_map, Option.isSome_map, hviews hf] at hfield

end ContractSync.Emit

namespace ContractSync.Edit

/-- What stands between two delimiters does not depend on what stands around. -/
theorem between_behind {front text behind : List Char} {s : Rust.Span} (h : s.stop ≤ text.length) :
    between (front ++ (text ++ behind)) (s.move (· + front.length)) = between text s := by
  have hstart : (s.move (· + front.length)).start + 1 = s.start + 1 + front.length := by
    show s.start + front.length + 1 = _
    omega
  rw [between, hstart]
  exact (Text.slice_append_right front _ _ _).trans (Text.slice_append_left h behind)

end ContractSync.Edit

namespace ContractSync.Emit

open Edit (between groupArgs)
open Model (Field)
open Rust (IsItemText MemberView Node)

/-- The traits in front of a declaration are found in it. -/
theorem exists_derives {node : Node} {comment more : List Char} {attributes : List Rust.TokenTree}
    {members : List Node} (h : node.children = (Rust.Attribute.lead attributes).outer ++ members)
    (hmem : derivesNode.move (· + comment.length) ∈ (Rust.Attribute.lead attributes).outer) :
    ∃ args ∈ groupArgs node "derive", args.stop ≤ (comment ++ (derivesLine.toList ++ more)).length ∧
      between (comment ++ (derivesLine.toList ++ more)) args = (", ".intercalate modelDerives).toList := by
  have hlength : derivesArgs.stop ≤ derivesLine.toList.length := by decide
  refine ⟨derivesArgs.move (· + comment.length), List.mem_filterMap.mpr
    ⟨derivesNode.move (· + comment.length), List.mem_filter.mpr ⟨?_, rfl⟩, if_pos rfl⟩, ?_, ?_⟩
  · exact h ▸ List.mem_append_left _ hmem
  · show derivesArgs.stop + comment.length ≤ _
    rw [List.length_append, List.length_append]
    omega
  · have hline : between derivesLine.toList derivesArgs = (", ".intercalate modelDerives).toList := by
      decide
    rw [Edit.between_behind hlength, hline]

/-- A node as a model with members is found: it declares the model and derives the traits, and it holds
attributes and these members. -/
structure IsBracedItem (m : Model) (node : Node) (members : List Node) : Prop where
  item : IsItemText (modelDeclaration m).toList node
  kind : node.itemKind? = some m.shape.itemKind
  name : node.name? = some m.name
  derives : ∃ args ∈ groupArgs node "derive", args.stop ≤ (modelDeclaration m).toList.length ∧
    between (modelDeclaration m).toList args = (", ".intercalate modelDerives).toList
  children : ∃ attributes, node.children = (Rust.Attribute.lead attributes).outer ++ members

/-- Such a node is the item of the model if its fields are found where they are written. -/
theorem IsBracedItem.isModelItem {m : Model} {node : Node} {members : List Node} (h : IsBracedItem m node members)
    (hviews : ∀ name, (members.map Node.memberView).find? (isViewOf name) =
      ((fieldViews m.shape.fields).find? (isViewOf name)).map (MemberView.behind (recordOpening m).length)) :
    IsModelItem m node := by
  obtain ⟨attributes, hchildren⟩ := h.children
  refine ⟨h.item, h.kind, h.name, fun _ => h.derives, fun name => ?_⟩
  rw [field?_of_children hchildren, hviews]

/-- A declaration with such members is an item with such members. -/
theorem exists_bracedItem {m : Model} {word : String} {read : Rust.MemberReader}
    {comment more opening body : List Char} {holds : Nat → List Node → Prop}
    (hbraced : Rust.IsBraced word m.shape.itemKind read) (hname : Rust.IsIdentifier m.name)
    (hcomment : Rust.Writes Rust.Anything comment []) (hmore : Rust.IsLead more)
    (hopening : opening = ("pub " ++ word ++ " ").toList ++ (m.name.toList ++ " \x7b\n".toList))
    (hbody : Rust.ReadsMembers read body holds)
    (htext : (modelDeclaration m).toList =
      comment ++ derivesLine.toList ++ more ++ opening ++ (body ++ "\x7d\n".toList)) :
    ∃ node members, IsBracedItem m node members ∧
      holds (comment ++ derivesLine.toList ++ more ++ opening).length members := by
  obtain ⟨attributes, hfront, hattributes, hnested, hderives⟩ := exists_derivesFront hcomment hmore
  obtain ⟨node, members, hitem, hkind, hnodeName, hchildren, hmembers⟩ :=
    Rust.exists_declaration hbraced hfront hattributes hnested hname hbody
  rw [← hopening] at hitem hmembers
  refine ⟨node, members, ⟨?_, hkind, hnodeName, ?_, attributes, hchildren⟩, hmembers⟩
  · rw [htext]
    exact hitem
  · rw [htext, List.append_assoc _ more, List.append_assoc _ (more ++ opening), List.append_assoc comment]
    exact exists_derives hchildren hderives

/-- A record with such fields. -/
theorem exists_bracedRecord {m : Model} {fields : List Field} {holds : Nat → List Node → Prop}
    (hshape : m.shape = .record fields) (hname : Rust.IsIdentifier m.name)
    (hbody : Rust.ReadsMembers Rust.Entry.recordField (String.join (fields.map fieldLines)).toList holds) :
    ∃ node members, IsBracedItem m node members ∧ holds (recordOpening m).length members := by
  have hword : ("pub " ++ "struct" ++ " ").toList = "pub struct ".toList := by decide
  have hcomment : Rust.Writes Rust.Anything (docComment "" (docLines [m.description])).toList [] :=
    writes_docComment (by decide) (newline_notMem_docLines _)
  have hbraced : Rust.IsBraced "struct" m.shape.itemKind Rust.Entry.recordField := by
    rw [hshape]
    exact .struct
  obtain ⟨node, members, hnode, hmembers⟩ := exists_bracedItem hbraced hname hcomment
    (.of_comment (.nil : Rust.Writes _ [] _)) rfl hbody (by
      rw [modelDeclaration, hshape]
      simp only [shapeText, String.toList_append, List.append_assoc, List.nil_append, hword])
  rw [hword, List.append_nil] at hmembers
  exact ⟨node, members, hnode, hmembers⟩

theorem exists_recordItem {m : Model} {fields : List Field} (hshape : m.shape = .record fields)
    (hname : Rust.IsIdentifier m.name) (hfields : ∀ f ∈ fields, FitsRecord f) :
    ∃ node, IsModelItem m node := by
  obtain ⟨node, members, hnode, hmembers⟩ := exists_bracedRecord hshape hname (isMembers_fieldLines hfields)
  refine ⟨node, hnode.isModelItem fun name => ?_⟩
  rw [hmembers, hshape, Model.Shape.fields, List.find?_map, isViewOf_behind]

/-- An enumeration with such variants. -/
theorem exists_bracedEnum {m : Model} {tagging body : String} {holds : Nat → List Node → Prop}
    (hkind : m.shape.itemKind = .enum_) (hname : Rust.IsIdentifier m.name)
    (htagging : Rust.IsLead tagging.toList)
    (hbody : Rust.ReadsMembers Rust.Entry.variant body.toList holds)
    (htext : shapeText m.name m.shape = enumText m.name tagging body) :
    ∃ node members front, IsBracedItem m node members ∧
      (modelDeclaration m).toList = front ++ (body.toList ++ "\x7d\n".toList) ∧ holds front.length members := by
  have hword : ("pub " ++ "enum" ++ " ").toList = "pub enum ".toList := by decide
  have hcomment : Rust.Writes Rust.Anything (docComment "" (docLines [m.description])).toList [] :=
    writes_docComment (by decide) (newline_notMem_docLines _)
  have hbraced : Rust.IsBraced "enum" m.shape.itemKind Rust.Entry.variant := by
    rw [hkind]
    exact .enum
  have hparts : (modelDeclaration m).toList = (docComment "" (docLines [m.description])).toList ++
      derivesLine.toList ++ tagging.toList ++ (("pub " ++ "enum" ++ " ").toList ++
        (m.name.toList ++ " \x7b\n".toList)) ++ (body.toList ++ "\x7d\n".toList) := by
    rw [modelDeclaration, htext]
    simp only [enumText, String.toList_append, List.append_assoc, hword]
  obtain ⟨node, members, hnode, hmembers⟩ := exists_bracedItem hbraced hname hcomment htagging rfl hbody hparts
  exact ⟨node, members, _, hnode, hparts, hmembers⟩

/-- An enumeration is the item of its model. -/
theorem exists_enumItem {m : Model} {tagging : String} {lines : List String}
    (hkind : m.shape.itemKind = .enum_) (hnone : m.shape.fields = []) (hname : Rust.IsIdentifier m.name)
    (htagging : Rust.IsLead tagging.toList)
    (hlines : ∀ line ∈ lines, ∃ name, Rust.IsMember Rust.Entry.variant line.toList ⟨some name, none⟩)
    (htext : shapeText m.name m.shape = enumText m.name tagging (String.join lines)) :
    ∃ node, IsModelItem m node := by
  obtain ⟨views, hviews, htypes⟩ := exists_isMembers_variants hlines
  obtain ⟨node, members, _, hnode, -, hmembers⟩ := exists_bracedEnum hkind hname htagging hviews htext
  refine ⟨node, hnode.isModelItem fun name => ?_⟩
  -- No variant has a type of its own.
  have hfound : views.find? (isViewOf name) = none := List.find?_eq_none.mpr fun v hv => by
    rw [isViewOf, htypes v hv]
    exact Bool.false_ne_true
  rw [hmembers, hnone, List.find?_map, isViewOf_behind, hfound, fieldViews, List.find?_nil, Option.map_none,
    Option.map_none]

/-- The attribute `#[serde(untagged)]`. -/
def untaggedAttribute : List Rust.TokenTree :=
  [.leaf ⟨.punct, "#", 0, 0⟩,
    .group ⟨.punct, "[", 0, 0⟩
      [.leaf ⟨.ident, "serde", 0, 0⟩,
        .group ⟨.punct, "(", 0, 0⟩ [.leaf ⟨.ident, "untagged", 0, 0⟩] ⟨.punct, ")", 0, 0⟩]
      ⟨.punct, "]", 0, 0⟩]

theorem isLead_taggingLine (discriminator : Option String) : Rust.IsLead (taggingLine discriminator).toList := by
  cases discriminator with
  | none =>
    exact @Rust.IsLead.of_marks _ untaggedAttribute (.cons rfl rfl .nil) rfl (by decide)
  | some name => exact @isLead_serde "#[serde(tag = " "tag" (by decide) name

/-- Another name for a type holds nothing. -/
theorem exists_aliasNode {m : Model} {target : Schema.DataType} (hshape : m.shape = .alias target)
    (hname : Rust.IsIdentifier m.name) (htarget : target.IsWorded) :
    ∃ node, IsItemText (modelDeclaration m).toList node ∧ node.itemKind? = some m.shape.itemKind ∧
      node.name? = some m.name ∧ node.children = [] := by
  have hcomment : Rust.Writes Rust.Anything (docComment "" (docLines [m.description])).toList [] :=
    writes_docComment (by decide) (newline_notMem_docLines _)
  have hhead : Rust.Writes Rust.Anything "pub type ".toList [⟨.ident, "pub", 0, 0⟩, ⟨.ident, "type", 0, 0⟩] :=
    .const rfl (by decide)
  have hequals : Rust.Writes Rust.Anything " = ".toList [⟨.punct, "=", 0, 0⟩] := .const rfl (by decide)
  have hend : Rust.Writes Rust.Anything ";\n".toList [⟨.punct, ";", 0, 0⟩] := .const rfl (by decide)
  obtain ⟨marks, hmarks, hinner⟩ := (isTypeCode_typeText htarget).writes
  have hall := hcomment.and (hhead.and ((Rust.Writes.identifier hname).append
    (hequals.and (hmarks.append hend fun rest _ => Rust.Lexer.IsBreak.append (by decide +kernel) (by decide) rest))
    fun rest _ => by
      rw [List.append_assoc]
      exact Rust.IsGap.append (by decide +kernel) (by decide) _))
  have htext : (modelDeclaration m).toList = (docComment "" (docLines [m.description])).toList ++
      ("pub type ".toList ++ (m.name.toList ++ (" = ".toList ++ ((typeText target).toList ++ ";\n".toList)))) := by
    rw [modelDeclaration, hshape]
    simp only [shapeText, String.toList_append, List.append_assoc]
  obtain ⟨node, hitem, hkind, hnodeName, hchildren⟩ := @Rust.exists_alias _ m.name
    (⟨.punct, "=", 0, 0⟩ :: marks) hall (List.forall_mem_cons.mpr ⟨by decide, hinner⟩)
  exact ⟨node, htext ▸ hitem, hshape ▸ hkind, hnodeName, hchildren⟩

theorem exists_aliasItem {m : Model} {target : Schema.DataType} (hshape : m.shape = .alias target)
    (hname : Rust.IsIdentifier m.name) (htarget : target.IsWorded) : ∃ node, IsModelItem m node := by
  obtain ⟨node, hitem, hkind, hnodeName, hchildren⟩ := exists_aliasNode hshape hname htarget
  refine ⟨node, hitem, hkind, hnodeName, fun h => ?_, fun name => ?_⟩
  · rw [hshape] at h
    exact absurd rfl h
  · rw [Node.field?, Node.fields, hchildren, hshape]
    rfl

/-- **Each model that can be written is written as one item.** -/
theorem exists_modelItem {m : Model} (h : m.FitsDeclaration) : ∃ node, IsModelItem m node := by
  obtain ⟨hname, hshape⟩ := h
  cases hm : m.shape with
  | record fields =>
    rw [hm] at hshape
    exact exists_recordItem hm hname hshape
  | union variants discriminator =>
    rw [hm] at hshape
    refine exists_enumItem (by rw [hm]; rfl) (by rw [hm]; rfl) hname (isLead_taggingLine discriminator)
      (List.forall_mem_map.mpr fun v hv => ⟨v.1.name, isMember_variantLines (hshape v hv).1 ?_⟩) (by rw [hm]; rfl)
    rintro _ ⟨⟩
    exact (hshape v hv).2
  | literals variants =>
    rw [hm] at hshape
    exact exists_enumItem (by rw [hm]; rfl) (by rw [hm]; rfl) hname isLead_empty
      (List.forall_mem_map.mpr fun v hv => ⟨v.name, @isMember_variantLines v none (hshape v hv) nofun⟩)
      (by rw [hm]; rfl)
  | «alias» target =>
    rw [hm] at hshape
    exact exists_aliasItem hm hname hshape

end ContractSync.Emit
