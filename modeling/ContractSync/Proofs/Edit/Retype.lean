import ContractSync.Edit.Apply
import ContractSync.Proofs.Edit.Keep
import ContractSync.Proofs.Name.Bare
import ContractSync.Proofs.Rust.RetypeField
import ContractSync.Proofs.Rust.Splice
import ContractSync.Proofs.Rust.TupleList
import ContractSync.Proofs.Text.Parts

/-!
# Giving a field another type

A text stands for a type if it is lexed on its own, begins and ends with a token, is nested, and has
no comma outside of angle brackets, which it closes (`IsTypeText`). **Put in the place of a field's type
it gives a text that is read as the same tree, moved** (`parse_splice`), so a request to retype a field
does just that and nothing when it comes again (`retypeField_moves`).
-/

namespace ContractSync.Rust

open TokenTree (flattenAll flattenAll_map_move isNestedAll_map_move)

/-- The text can stand as the type of a field. -/
def IsTypeText (type : List Char) : Prop :=
  ∃ tokens trees, StandsAlone type tokens ∧ TokenTree.ofTokens tokens = .ok trees ∧
    Entry.depthBehind 0 trees = some 0

/-- The body of a declaration stands in braces. -/
def IsRecord (source : List Char) (n : Node) : Prop :=
  ∃ body, n.body? = some body ∧ source[body.start]? = some '\x7b'

/-- The trees of a type text, moved to where it is put, cover that part of the text. -/
theorem Covers.of_standsAlone {type : List Char} {trees : List TokenTree} {span : Span}
    (h : StandsAlone type (flattenAll trees)) (hlt : span.start < span.stop) :
    Covers (trees.map (TokenTree.move (· + span.start)))
      (span.move (span.replaced type.length)) := by
  have hfirst := h.first
  have hlast := h.last
  rw [TokenTree.start_head?_flattenAll, Option.map_eq_some_iff] at hfirst
  rw [TokenTree.stop_getLast?_flattenAll, Option.map_eq_some_iff] at hlast
  obtain ⟨first, hhead, hstart⟩ := hfirst
  obtain ⟨last, hlast, hstop⟩ := hlast
  rw [Span.move_replaced hlt]
  constructor
  · rw [List.head?_map, hhead]
    simp [hstart]
  · rw [List.getLast?_map, hlast]
    simp [hstop, Nat.add_comm]

/-- **A text with another type for one of its fields is read as the same tree, moved.** -/
theorem parse_splice {source new : List Char} {revision : Nat} {tree : Tree} {n f : Node}
    {span : Span} (h : parse source revision = .ok tree) (hn : n ∈ tree.nodes)
    (hkind : n.itemKind? = some .struct_) (hrecord : IsRecord source n) (hf : f ∈ n.children)
    (htype : f.type? = some span) (hnew : IsTypeText new) :
    span.start < span.stop ∧ span.stop ≤ source.length ∧
      parse (Text.splice source span.start span.stop new) revision =
        .ok ⟨Text.splice source span.start span.stop new,
          tree.root.move (span.replaced new.length), revision⟩ := by
  obtain ⟨trees, nodes, ⟨htokens, hnested, hitems⟩, rfl⟩ := parse_eq_ok_iff.mp h
  obtain ⟨_, types, halone, hof, hdepth⟩ := hnew
  obtain ⟨rfl, hnested'⟩ := TokenTree.ofTokens_eq_ok_iff.mp hof
  obtain ⟨body, hbody, hbrace⟩ := hrecord
  have hmem : n ∈ Node.walkAll nodes := by
    rcases Node.mem_walk_mk.mp hn with rfl | hn
    · cases hkind
    · exact hn
  obtain ⟨b, found, ahead, beyond, rfl, hb⟩ :=
    Reads.bodyIn ⟨htokens, hnested, hitems⟩ hmem hkind (by decide) hbody
  obtain ⟨front, back, colon, type, htokens, hcolon, hcovers, hback, hretype⟩ :=
    hb.retype (hb.isTuple_eq_false hbrace) hf htype
  have hfirst : (flattenAll type).head?.map Token.start = some span.start := by
    rw [TokenTree.start_head?_flattenAll, hcovers.1]
  have hlast : (flattenAll type).getLast?.map Token.stop = some span.stop := by
    rw [TokenTree.stop_getLast?_flattenAll, hcovers.2]
  -- Where the part stands.
  obtain ⟨hlt, hle⟩ : span.start < span.stop ∧ span.stop ≤ source.length := by
    obtain ⟨a, k, u, v, rfl, hstart, hstop, hcut⟩ :=
      Lexer.exists_around htokens hcolon hfirst hlast
    have hpos : 0 < u.length := List.length_pos_iff.mpr hcut.nonempty
    simp only [List.length_append, List.length_cons]
    omega
  -- The trees of the new text.
  obtain ⟨trees', hflat', hnested'', hitems'⟩ := hretype (.same (span.replaced new.length))
    (types.map (TokenTree.move (· + span.start))) (.of_standsAlone halone hlt)
    (by rw [← TokenTree.map_carry_same, Entry.depthBehind_carry, hdepth])
    (by rw [isNestedAll_map_move, hnested'])
  rw [Node.map_carry_same] at hitems'
  have hsplice := tokenize_splice htokens hcolon hfirst hlast hback halone
  refine ⟨hlt, hle, parse_eq_ok_iff.mpr
    ⟨_, _, ⟨?_, hnested'', hitems'⟩, ?_⟩⟩
  · rw [hsplice, hflat', flattenAll_map_move]
    rfl
  · have hend : span.replaced new.length source.length =
        (Text.splice source span.start span.stop new).length := by
      rw [Text.length_splice (by omega), Span.replaced, if_neg (by omega)]
    rw [Node.move_mk, Span.replaced_before (by omega), hend]
    rfl

end ContractSync.Rust

namespace ContractSync.Edit

open Rust (Node Span Tree IsTypeText IsRecord)

/-- What retyping a field that is there gives. -/
theorem retypeField_eq {source : List Char} {tree : Tree} {found f : Node} {span : Span}
    {declaration field : String} (h : Rust.parse source = .ok tree)
    (hfound : tree.find? declaration [.struct_] = some found) (hf : found.field? field = some f)
    (htype : f.type? = some span) (type : String) (path : Option String) :
    apply source (.retypeField declaration field type) path =
      .ok (if tree.spanText span = type.toList then source
        else Text.splice source span.start span.stop type.toList) := by
  show retypeField source declaration field type path = _
  simp only [retypeField, readSource_eq_ok.mpr h, target_eq_ok.mpr hfound, bind, Except.bind, hf,
    Option.bind_some, htype]
  rfl

/-- **Retyping a field replaces its type and nothing else**: the new text is read as the tree that was
there, every position behind the type moved by the change in length, the field that is found in it has
the new type, and retyping it again changes nothing. -/
theorem retypeField_moves {source : List Char} {tree : Tree} {found f : Node} {span : Span}
    {declaration field type : String} (h : Rust.parse source = .ok tree)
    (hfound : tree.find? declaration [.struct_] = some found) (hrecord : IsRecord source found)
    (hf : found.field? field = some f) (htype : f.type? = some span)
    (hnew : IsTypeText type.toList) (path : Option String) :
    let g := span.replaced type.toList.length
    let result := Text.splice source span.start span.stop type.toList
    apply source (.retypeField declaration field type) path = .ok result ∧
      ∃ after, Rust.parse result = .ok after ∧ after.root = tree.root.move g ∧
        after.find? declaration [.struct_] = some (found.move g) ∧
        (found.move g).field? field = some (f.move g) ∧
        (f.move g).type?.map after.spanText = some type.toList ∧
        apply result (.retypeField declaration field type) path = .ok result := by
  intro g result
  obtain ⟨hmem, kind, hkind, hstruct⟩ := Tree.of_find? hfound
  rw [List.mem_singleton.mp hkind] at hstruct
  obtain ⟨hlt, hle, hparse⟩ := Rust.parse_splice h hmem hstruct hrecord
    (Node.mem_children_of_field? hf) htype hnew
  have hsource : tree.source = source := by
    obtain ⟨_, _, _, rfl⟩ := Rust.parse_eq_ok_iff.mp h
    rfl
  have hfound' : Tree.find? ⟨result, tree.root.move g, 0⟩ declaration [.struct_] =
      some (found.move g) := by
    rw [Tree.find?_move rfl, hfound]
    rfl
  have hf' : (found.move g).field? field = some (f.move g) := by
    rw [Node.field?_move, hf]
    rfl
  have htype' : (f.move g).type? = some (span.move g) := by
    rw [Node.type?_move, htype]
    rfl
  have htext : Tree.spanText ⟨result, tree.root.move g, 0⟩ (span.move g) = type.toList := by
    rw [Span.move_replaced hlt]
    exact Text.slice_splice (by omega)
  refine ⟨?_, _, hparse, rfl, hfound', hf', ?_, ?_⟩
  · rw [retypeField_eq h hfound hf htype]
    split
    · rename_i hsame
      rw [Tree.spanText, hsource] at hsame
      show _ = Except.ok (Text.splice source span.start span.stop type.toList)
      rw [← hsame, Text.splice_slice (Nat.le_of_lt hlt)]
    · rfl
  · rw [htype', Option.map_some, htext]
  · rw [retypeField_eq hparse hfound' hf' htype', if_pos htext]

/-! ### A struct with two fields -/

def pairText : List Char := "struct P { a: K, b: V }".toList

def pairField : Node := .mk (.field "a" ⟨14, 15⟩) 11 11 15 []

def pairStruct : Node :=
  .mk (.item .struct_ (some "P") (some ⟨9, 22⟩)) 0 0 23
    [pairField, .mk (.field "b" ⟨20, 21⟩) 17 17 21 []]

def pairTree : Tree := ⟨pairText, .mk .file 0 0 23 [pairStruct], 0⟩

/-- The trees of `Vec<(K, V)>`. -/
def vecTrees : List Rust.TokenTree :=
  [.leaf ⟨.ident, "Vec", 0, 3⟩, .leaf ⟨.punct, "<", 3, 4⟩,
    .group ⟨.punct, "(", 4, 5⟩
      [.leaf ⟨.ident, "K", 5, 6⟩, .leaf ⟨.punct, ",", 6, 7⟩, .leaf ⟨.ident, "V", 8, 9⟩]
      ⟨.punct, ")", 9, 10⟩,
    .leaf ⟨.punct, ">", 10, 11⟩]

/-- The field in front gets a type that is longer and holds a comma. -/
theorem retypeField_moves_pairSample :
    apply pairText (.retypeField "P" "a" "Vec<(K, V)>") none =
      .ok "struct P { a: Vec<(K, V)>, b: V }".toList := by
  have h : Rust.parse pairText = .ok pairTree := eq_ok_of_toOption (by decide +kernel)
  have hfound : pairTree.find? "P" [.struct_] = some pairStruct := by decide
  have hrecord : IsRecord pairText pairStruct := ⟨⟨9, 22⟩, rfl, by decide⟩
  have hf : pairStruct.field? "a" = some pairField := by decide
  have htype : pairField.type? = some ⟨14, 15⟩ := rfl
  have htokens : Rust.tokenize "Vec<(K, V)>".toList =
      .ok (Rust.TokenTree.flattenAll vecTrees) := eq_ok_of_toOption (by decide +kernel)
  have hnew : IsTypeText "Vec<(K, V)>".toList :=
    ⟨_, vecTrees, ⟨htokens, by decide, by decide, by decide, by decide⟩,
      eq_ok_of_toOption (by decide), by decide⟩
  exact (retypeField_moves h hfound hrecord hf htype hnew none).1

end ContractSync.Edit

/-!
## Retyping the fields of a tuple struct

**The fields of a tuple struct are those of its body, with the types that are written there, just if no
type begins with parentheses right behind `pub`** (`tupleFields_eq_iff`). Then a request to retype a field by
its number replaces the type and nothing else. In `pub (i32, u8)` the parentheses are taken for the
restriction of the visibility, and the type that is replaced is the empty text behind them
(`tupleType_hidden`).
-/

namespace ContractSync.Rust

/-- The body of a declaration stands in parentheses. -/
def IsTuple (source : List Char) (n : Node) : Prop :=
  ∃ body, n.body? = some body ∧ source[body.start]? = some '('

theorem BodyIn.isTuple_eq_true {source : List Char} {nodes found : List Node} {n : Node}
    {kind : ItemKind} {b : Group} {front back : List Token}
    (h : BodyIn source nodes n kind b found front back) (htuple : IsTuple source n) :
    b.isTuple = true := by
  obtain ⟨body, hbody, hparen⟩ := htuple
  obtain rfl : b.span = body := Option.some.inj (h.span.symm.trans hbody)
  by_contra hrecord
  have hbrace := h.brace (Bool.eq_false_iff.mpr hrecord)
  have hchar := (Lexer.run_of_lexFrom h.tokens).getElem?_start (t := b.opener) (by simp)
  rw [Token.isPunct, Bool.and_eq_true, beq_iff_eq, beq_iff_eq] at hbrace
  rw [Nat.sub_zero, hbrace.2, String.toList_ofList] at hchar
  cases hchar.symm.trans hparen

theorem isField_of_mem_tupleFields {position : Nat} {entries : List Entry} :
    ∀ f ∈ Entry.tupleFields position entries, f.isField = true := by
  induction entries generalizing position with
  | nil => exact List.forall_mem_nil _
  | cons entry entries ih =>
    rw [Entry.tupleFields]
    split
    · rename_i field hfield
      refine List.forall_mem_cons.mpr ⟨?_, ih⟩
      rw [Entry.tupleField] at hfield
      dsimp only at hfield
      split at hfield
      · cases hfield
      · cases hfield
        rfl
    · exact List.forall_mem_nil _

theorem not_isField_of_isAttribute {n : Node} (h : n.isAttribute = true) : n.isField = false := by
  rw [Node.isAttribute] at h
  rw [Node.isField]
  split at h
  · rename_i hshape
    rw [hshape]
  · cases h

/-- The fields of a tuple struct are those that its body is read as. -/
theorem BodyIn.fields_eq_tuple {source : List Char} {nodes found : List Node} {n : Node} {b : Group}
    {front back : List Token} (h : BodyIn source nodes n .struct_ b found front back)
    (htuple : b.isTuple = true) : n.fields = Entry.tupleFields 0 b.entries := by
  have hmembers := h.members
  rw [Group.members, Item.members] at hmembers
  simp only [htuple, if_true] at hmembers
  obtain rfl := Except.ok.inj hmembers
  obtain ⟨attributes, hchildren, hattributes⟩ := h.children
  have hnone : attributes.filter Node.isField = [] := by
    refine List.filter_eq_nil_iff.mpr fun a ha => ?_
    rw [not_isField_of_isAttribute (hattributes a ha)]
    exact Bool.false_ne_true
  rw [Node.fields, hchildren, List.filter_append, hnone, List.nil_append,
    List.filter_eq_self.mpr isField_of_mem_tupleFields]

/-- **The fields of a tuple struct are those of its body just if no type is hidden.** -/
theorem fields_eq_nodes_iff {source : List Char} {revision : Nat} {tree : Tree} {n : Node}
    {list : TupleList} (h : parse source revision = .ok tree) (hn : n ∈ tree.nodes)
    (hkind : n.itemKind? = some .struct_) (htuple : IsTuple source n)
    (hbody : n.Holds source list.trees) :
    (n.fields = list.nodes ↔ ∀ w ∈ list.fields, w.hidesType = false) ∧
      ∀ w ∈ list.fields, w.span.start < w.span.stop := by
  obtain ⟨trees, nodes, hreads, rfl⟩ := parse_eq_ok_iff.mp h
  have hmem : n ∈ Node.walkAll nodes := by
    rcases Node.mem_walk_mk.mp hn with rfl | hmem
    · cases hkind
    · exact hmem
  obtain ⟨b, found, front, back, hb, hinner, horder, hstop⟩ :=
    hbody.exists_body hreads hmem hkind (by decide)
  constructor
  · have hlist := @tupleFields_eq_mapIdx_iff _ _ list.isComma 0 b.opener.stop _ horder hstop
    simp only [Nat.zero_add] at hlist
    rw [hb.fields_eq_tuple (hb.isTuple_eq_true htuple), Group.entries, hinner]
    exact hlist
  · intro w hw
    obtain ⟨before, behind, hsplit⟩ := list.exists_trees hw
    rw [hsplit] at horder
    exact (horder.right (a := _)).left.right.right.start_lt_stop

end ContractSync.Rust

namespace ContractSync.Edit

open Rust (IsTuple Node Tree TupleList WrittenField)

/-! ### The field with a number -/

theorem bare_toString (n : Nat) : Name.bare (toString n) = toString n :=
  Name.bare_eq_self (Name.isWordChar_of_mem_toString n)

/-- A field is found by its number. -/
theorem find?_nodes {list : TupleList} {position : Nat} {w : WrittenField}
    (hw : list.fields[position]? = some w) :
    list.nodes.find? (fun f => f.name?.any fun found => Name.bare found == Name.bare (toString position)) =
      some (w.node position) := by
  obtain ⟨hlt, hget⟩ := List.getElem?_eq_some_iff.mp hw
  have hname : ∀ (v : WrittenField) (i : Nat), (v.node i).name? = some (toString i) := fun v i => rfl
  refine List.find?_eq_some_iff_getElem.mpr ⟨?_, position, ?_, ?_, ?_⟩
  · rw [hname, Option.any_some, beq_self_eq_true]
  · rwa [TupleList.nodes, List.length_mapIdx]
  · simp only [TupleList.nodes, List.getElem_mapIdx, hget]
  · intro i hi
    simp only [TupleList.nodes, List.getElem_mapIdx, hname, Option.any_some, bare_toString,
      Bool.not_eq_true', beq_eq_false_iff_ne]
    intro hsame
    exact Nat.ne_of_lt hi (Name.toString_injective (congrArg String.toList hsame))

/-- **The fields of a tuple struct are those that are written just if no type begins with parentheses right
behind `pub`**, and then retyping a field by its number replaces its type, which is not empty, and nothing
else. -/
theorem tupleFields_eq_iff {source : List Char} {tree : Tree} {n : Node} {list : TupleList}
    (h : Rust.parse source = .ok tree) (hn : n ∈ tree.nodes) (hkind : n.itemKind? = some .struct_)
    (htuple : IsTuple source n) (hbody : n.Holds source list.trees) :
    (n.fields = list.nodes ↔ ∀ w ∈ list.fields, w.hidesType = false) ∧
      (∀ w ∈ list.fields, w.span.start < w.span.stop) ∧
      (n.fields = list.nodes → ∀ declaration, tree.find? declaration [.struct_] = some n →
        ∀ (position : Nat) (w : WrittenField), list.fields[position]? = some w → ∀ type path,
          apply source (.retypeField declaration (toString position) type) path =
            .ok (Text.splice source w.span.start w.span.stop type.toList)) := by
  obtain ⟨hfields, hspan⟩ := Rust.fields_eq_nodes_iff h hn hkind htuple hbody
  refine ⟨hfields, hspan, ?_⟩
  intro hnodes declaration hfound position w hw type path
  have hfield : n.field? (toString position) = some (w.node position) := by
    rw [Node.field?, hnodes, find?_nodes hw]
  have hsource : tree.source = source := by
    obtain ⟨_, _, _, rfl⟩ := Rust.parse_eq_ok_iff.mp h
    rfl
  have htype : (w.node position).type? = some w.span := rfl
  rw [retypeField_eq h hfound hfield htype]
  split
  · rename_i hsame
    have hlt := hspan w (List.mem_of_getElem? hw)
    rw [Tree.spanText, hsource] at hsame
    rw [← hsame, Text.splice_slice (Nat.le_of_lt hlt)]
  · rfl

/-! ### Parentheses in visibilities and types -/

open Rust (OuterAttribute TokenTree tokenize)

def pointText : List Char := "struct P(#[a] pub(crate) Vec<K>, pub u8, (K, V));".toList

/-- A field with an attribute and a restricted visibility. -/
def pointFirst : WrittenField where
  attributes := [⟨⟨.punct, "#", 9, 10⟩,
    ⟨⟨.punct, "[", 10, 11⟩, [.leaf ⟨.ident, "a", 11, 12⟩], ⟨.punct, "]", 12, 13⟩⟩, Eq.refl true, Eq.refl true⟩]
  visibility := some (⟨.ident, "pub", 14, 17⟩,
    some ⟨⟨.punct, "(", 17, 18⟩, [.leaf ⟨.ident, "crate", 18, 23⟩], ⟨.punct, ")", 23, 24⟩⟩)
  first := .leaf ⟨.ident, "Vec", 25, 28⟩
  more := [.leaf ⟨.punct, "<", 28, 29⟩, .leaf ⟨.ident, "K", 29, 30⟩, .leaf ⟨.punct, ">", 30, 31⟩]
  isVisibility := forall_mem_some ⟨rfl, forall_mem_some ⟨rfl, .inl ⟨_, rfl, by decide⟩⟩⟩
  isFirst := ⟨rfl, rfl⟩
  isType := by decide

def pointSecond : WrittenField where
  visibility := some (⟨.ident, "pub", 33, 36⟩, none)
  first := .leaf ⟨.ident, "u8", 37, 39⟩
  isVisibility := forall_mem_some ⟨rfl, forall_mem_none⟩
  isFirst := ⟨rfl, rfl⟩
  isType := by decide

/-- A field whose type is a tuple. -/
def pointLast : WrittenField where
  first := .group ⟨.punct, "(", 41, 42⟩
    [.leaf ⟨.ident, "K", 42, 43⟩, .leaf ⟨.punct, ",", 43, 44⟩, .leaf ⟨.ident, "V", 45, 46⟩]
    ⟨.punct, ")", 46, 47⟩
  isVisibility := forall_mem_none
  isFirst := ⟨rfl, rfl⟩
  isType := by decide

def pointList : TupleList where
  ended := [(pointFirst, ⟨.punct, ",", 31, 32⟩), (pointSecond, ⟨.punct, ",", 39, 40⟩)]
  last := some pointLast
  isComma := List.forall_mem_cons.mpr ⟨rfl, List.forall_mem_singleton.mpr rfl⟩

def pointStruct : Node :=
  .mk (.item .struct_ (some "P") (some ⟨8, 47⟩)) 0 0 49
    [.mk (.field "0" ⟨25, 31⟩) 9 14 31 [.mk (.attribute (some "a") none false) 9 9 13 []],
      .mk (.field "1" ⟨37, 39⟩) 33 33 39 [], .mk (.field "2" ⟨41, 47⟩) 41 41 47 []]

/-- The types behind a restriction, behind a bare `pub` and without a visibility. -/
theorem tupleFields_eq_iff_pointSample :
    Rust.parse pointText = .ok ⟨pointText, .mk .file 0 0 49 [pointStruct], 0⟩ ∧
      pointStruct.itemKind? = some .struct_ ∧ IsTuple pointText pointStruct ∧
      pointStruct.Holds pointText pointList.trees ∧ pointStruct.fields = pointList.nodes ∧
      apply pointText (.retypeField "P" "2" "String") none =
        .ok "struct P(#[a] pub(crate) Vec<K>, pub u8, String);".toList := by
  have h : Rust.parse pointText = .ok ⟨pointText, .mk .file 0 0 49 [pointStruct], 0⟩ :=
    eq_ok_of_toOption (by decide +kernel)
  have htuple : IsTuple pointText pointStruct := ⟨⟨8, 47⟩, rfl, by decide⟩
  have hbody : pointStruct.Holds pointText pointList.trees :=
    ⟨[⟨.ident, "struct", 0, 6⟩, ⟨.ident, "P", 7, 8⟩, ⟨.punct, "(", 8, 9⟩] ++
      TokenTree.flattenAll pointList.trees ++ [⟨.punct, ")", 47, 48⟩, ⟨.punct, ";", 48, 49⟩], ⟨8, 47⟩,
      eq_ok_of_toOption (by decide +kernel), rfl, by decide, by decide⟩
  obtain ⟨hfields, -, hretype⟩ := tupleFields_eq_iff h (by decide) rfl htuple hbody
  have hnodes := hfields.mpr (by decide)
  exact ⟨h, rfl, htuple, hbody, hnodes,
    hretype hnodes "P" (by decide) 2 pointLast rfl "String" none⟩

def pairTupleText : List Char := "struct S(pub (i32, u8));".toList

/-- A field whose type begins with parentheses behind a bare `pub`. -/
def pairTupleField : WrittenField where
  visibility := some (⟨.ident, "pub", 9, 12⟩, none)
  first := .group ⟨.punct, "(", 13, 14⟩
    [.leaf ⟨.ident, "i32", 14, 17⟩, .leaf ⟨.punct, ",", 17, 18⟩, .leaf ⟨.ident, "u8", 19, 21⟩]
    ⟨.punct, ")", 21, 22⟩
  isVisibility := forall_mem_some ⟨rfl, forall_mem_none⟩
  isFirst := ⟨rfl, rfl⟩
  isType := by decide

def pairTupleList : TupleList where
  ended := []
  last := some pairTupleField
  isComma := List.forall_mem_nil _

def pairTupleStruct : Node :=
  .mk (.item .struct_ (some "S") (some ⟨8, 22⟩)) 0 0 24 [.mk (.field "0" ⟨22, 22⟩) 9 9 22 []]

/-- **A tuple behind a bare `pub` is taken for a restriction**: the field has an empty type, and another type
is put behind the one that it has. -/
theorem tupleType_hidden :
    Rust.parse pairTupleText = .ok ⟨pairTupleText, .mk .file 0 0 24 [pairTupleStruct], 0⟩ ∧
      pairTupleStruct.itemKind? = some .struct_ ∧ IsTuple pairTupleText pairTupleStruct ∧
      pairTupleStruct.Holds pairTupleText pairTupleList.trees ∧
      pairTupleField.span = ⟨13, 22⟩ ∧ pairTupleStruct.fields.map Node.type? = [some ⟨22, 22⟩] ∧
      pairTupleStruct.fields ≠ pairTupleList.nodes ∧
      apply pairTupleText (.retypeField "S" "0" "u8") none = .ok "struct S(pub (i32, u8)u8);".toList :=
  ⟨eq_ok_of_toOption (by decide +kernel), rfl, ⟨⟨8, 22⟩, rfl, by decide⟩,
    ⟨[⟨.ident, "struct", 0, 6⟩, ⟨.ident, "S", 7, 8⟩, ⟨.punct, "(", 8, 9⟩] ++
      TokenTree.flattenAll pairTupleList.trees ++ [⟨.punct, ")", 22, 23⟩, ⟨.punct, ";", 23, 24⟩], ⟨8, 22⟩,
      eq_ok_of_toOption (by decide +kernel), rfl, by decide, by decide⟩,
    by decide, by decide, by decide, eq_ok_of_toOption (by decide +kernel)⟩

end ContractSync.Edit
