import ContractSync.Proofs.Rust.ItemText

/-!
# Texts of declarations and their members

The body of a declaration is a row of members that each stand on lines of their own: comments, attributes,
and the member with its comma. `ReadsMember` says of a text that it is read as one member, wherever it stands,
and what holds of the member; `IsMember` is the case of a name and, for a field, a type at a place. **Members
one behind the other are read as such** (`ReadsMembers.cons`, `IsMembers.cons`).

A member is seen with its name, the text of its type and the texts of its attributes, wherever its own text
stands (`Shows`). **Members one behind the other are seen as they are on their own** (`readsMembers_shows`).
Comments in front of a member are not seen (`ReadsMember.silent`), and **lines of attributes in front of a
variant are seen as its attributes** (`ReadsMember.attributeLines`).
-/

namespace ContractSync.Rust

open Attribute (lead)
open Lexer
open TokenTree (flattenAll flattenAll_map_move isNestedAll isNestedAll_map_move)

/-! ### Attributes in front of a member -/

theorem IsAttributes.move {attributes : List TokenTree} (h : IsAttributes attributes) (g : Nat → Nat) :
    IsAttributes (attributes.map (TokenTree.move g)) := by
  induction h with
  | nil => exact .nil
  | cons hhash hopener _ ih => exact .cons hhash hopener ih

theorem IsAttributes.isNeutral {attributes : List TokenTree} (h : IsAttributes attributes) :
    ∀ tree ∈ attributes, Entry.IsNeutral tree := by
  induction h with
  | nil => exact List.forall_mem_nil _
  | cons hhash hopener _ ih =>
    exact List.forall_mem_cons.mpr ⟨Entry.isNeutral_of_mark hhash (by decide),
      List.forall_mem_cons.mpr ⟨Entry.isNeutral_of_mark hopener (by decide), ih⟩⟩

/-- A field with attributes in front is the same field with attributes. -/
theorem IsAttributes.recordField {attributes trees : List TokenTree} {before stop : Nat} {comma : Bool}
    {field : Node} (h : IsAttributes attributes)
    (hfield : Entry.recordField ⟨before, trees, stop, comma⟩ = .ok (some field)) :
    ∃ field', Entry.recordField ⟨before, attributes ++ trees, stop, comma⟩ = .ok (some field') ∧
      field'.shape = field.shape := by
  induction h with
  | nil => exact ⟨field, hfield, rfl⟩
  | cons hhash hopener _ ih =>
    obtain ⟨⟨shape, start, itemStart, last, children⟩, hfield', hshape⟩ := ih
    exact ⟨_, Entry.recordField_attribute hfield' hhash hopener, hshape⟩

/-- Comments and attributes in front of the text of a field. -/
theorem IsFieldText.behind {text front : List Char} {trees attributes : List TokenTree} {comma : Token}
    {field : Node} (h : IsFieldText text trees comma field)
    (hfront : Writes Anything front (flattenAll attributes)) (hattributes : IsAttributes attributes)
    (hnested : isNestedAll attributes = true) :
    ∃ trees' comma' field', IsFieldText (front ++ text) trees' comma' field' ∧
      field'.shape = (field.move (· + front.length)).shape := by
  obtain ⟨ts, hts, hbare⟩ := hfront
  obtain ⟨there, rfl, hthere, rfl⟩ := exists_trees_of_bare hbare hnested
  have hmoved := h.recordField_move front.length
  obtain ⟨field', hfield', hshape⟩ := hattributes.of_bare.recordField hmoved
  refine ⟨there ++ trees.map (TokenTree.move (· + front.length)), comma.shift front.length, field',
    ⟨fun rest => ?_, ?_, h.mark, ?_, hfield'⟩, hshape⟩
  · have hrun := (hts (text ++ rest) trivial).trans (h.run_move front.length rest)
    rw [← List.append_assoc, ← List.append_assoc, ← TokenTree.flattenAll_append,
      ← List.length_append] at hrun
    exact hrun
  · rw [TokenTree.isNestedAll_append, hthere, isNestedAll_map_move, h.nested]
    rfl
  · rw [Entry.depthBehind_append (Entry.depthBehind_eq_self hattributes.of_bare.isNeutral 0),
      h.depth_move]

/-! ### Members -/

/-- A member as far as it can be found: its name and the place of its type. -/
structure MemberView where
  name : Option String
  type : Option Span

/-- The member behind so many characters. -/
def MemberView.behind (d : Nat) (m : MemberView) : MemberView := ⟨m.name, m.type.map (Span.move (· + d))⟩

/-- What can be found of a member. -/
def Node.memberView (n : Node) : MemberView := ⟨n.name?, n.type?⟩

theorem Node.memberView_move (n : Node) (d : Nat) :
    (n.move (· + d)).memberView = n.memberView.behind d := by
  rw [memberView, memberView, name?_move, type?_move]
  rfl

theorem Node.memberView_congr {m n : Node} (h : m.shape = n.shape) : m.memberView = n.memberView := by
  rw [memberView, memberView, name?, name?, type?, type?, h]

theorem MemberView.behind_behind (d d' : Nat) (m : MemberView) :
    (m.behind d).behind d' = m.behind (d + d') := by
  obtain ⟨name, type⟩ := m
  cases type with
  | none => rfl
  | some s => simp [behind, Span.move, Nat.add_assoc]

theorem MemberView.behind_zero (m : MemberView) : m.behind 0 = m := by
  obtain ⟨name, type⟩ := m
  cases type <;> rfl

/-- What reads the members of a declaration. -/
abbrev MemberReader := Entry → Except Failure (Option Node)

/-- The text, with its comma, is read as one member, and this holds of it behind so many characters. -/
def ReadsMember (read : MemberReader) (text : List Char) (holds : Nat → Node → Prop) : Prop :=
  ∃ trees comma, Lexes Anything text (flattenAll trees ++ [comma]) ∧ isNestedAll trees = true ∧
    comma.isPunct "," = true ∧ Entry.depthBehind 0 trees = some 0 ∧
    ∀ d before stop, ∃ node, read ⟨before, trees.map (TokenTree.move (· + d)), stop, true⟩ =
      .ok (some node) ∧ holds d node

/-- The text is read as members, and this holds of them behind so many characters. -/
def ReadsMembers (read : MemberReader) (text : List Char) (holds : Nat → List Node → Prop) : Prop :=
  ∃ trees, Lexes Anything text (flattenAll trees) ∧ isNestedAll trees = true ∧
    ∀ d before stop, ∃ nodes, Entry.nodes read
        (Entry.divide before stop 0 [] (trees.map (TokenTree.move (· + d)))) = .ok nodes ∧ holds d nodes

/-- The text, with its comma, is read as one member that is found so, wherever it stands. -/
def IsMember (read : MemberReader) (text : List Char) (view : MemberView) : Prop :=
  ∃ trees comma, Lexes Anything text (flattenAll trees ++ [comma]) ∧ isNestedAll trees = true ∧
    comma.isPunct "," = true ∧ Entry.depthBehind 0 trees = some 0 ∧
    ∀ d before stop, ∃ node, read ⟨before, trees.map (TokenTree.move (· + d)), stop, true⟩ =
      .ok (some node) ∧ node.memberView = view.behind d

/-- The text is read as members that are found so, wherever it stands. -/
def IsMembers (read : MemberReader) (text : List Char) (views : List MemberView) : Prop :=
  ∃ trees, Lexes Anything text (flattenAll trees) ∧ isNestedAll trees = true ∧
    ∀ d before stop, ∃ nodes, Entry.nodes read
        (Entry.divide before stop 0 [] (trees.map (TokenTree.move (· + d)))) = .ok nodes ∧
      nodes.map Node.memberView = views.map (MemberView.behind d)

/-- Trees that are moved on twice. -/
theorem TokenTree.map_move_add {trees : List TokenTree} (h : isNestedAll trees = true) (m d : Nat) :
    (trees.map (move (· + m))).map (move (· + d)) = trees.map (move (· + (m + d))) := by
  refine flattenAll_injective ?_ ?_ ?_
  · rw [isNestedAll_map_move, isNestedAll_map_move, h]
  · rw [isNestedAll_map_move, h]
  · rw [flattenAll_map_move, flattenAll_map_move, flattenAll_map_move, List.map_map]
    refine List.map_congr_left fun t _ => ?_
    simp [Token.move, Nat.add_assoc]

namespace ReadsMembers

variable {read : MemberReader} {a b : List Char} {p : Nat → Node → Prop} {q q' : Nat → List Node → Prop}

theorem mono (h : ReadsMembers read a q) (hq : ∀ d nodes, q d nodes → q' d nodes) : ReadsMembers read a q' := by
  obtain ⟨trees, hlex, hnested, hread⟩ := h
  refine ⟨trees, hlex, hnested, fun d before stop => ?_⟩
  obtain ⟨nodes, hnodes, hholds⟩ := hread d before stop
  exact ⟨nodes, hnodes, hq d nodes hholds⟩

theorem nil (h : ∀ d, q d []) : ReadsMembers read [] q :=
  ⟨[], .nil, rfl, fun d _ _ => ⟨[], rfl, h d⟩⟩

/-- **One member in front of others.** -/
theorem cons (ha : ReadsMember read a p) (hb : ReadsMembers read b q) :
    ReadsMembers read (a ++ b) fun d nodes =>
      ∃ node rest, nodes = node :: rest ∧ p d node ∧ q (a.length + d) rest := by
  obtain ⟨trees, comma, hlex, hnested, hcomma, hdepth, hread⟩ := ha
  obtain ⟨more, hlex', hnested', hread'⟩ := hb
  have hleaf : TokenTree.isNested (.leaf comma) = true := TokenTree.isNested_leaf hcomma (by decide)
  refine ⟨trees ++ .leaf comma :: more.map (TokenTree.move (· + a.length)), ?_, ?_,
    fun d before stop => ?_⟩
  · have hall := hlex.and hlex'
    rw [List.append_assoc] at hall
    rw [TokenTree.flattenAll_append, flattenAll, flattenAll_map_move]
    exact hall
  · rw [TokenTree.isNestedAll_append, hnested, isNestedAll, hleaf, isNestedAll_map_move, hnested']
    rfl
  · obtain ⟨node, hnode, hholds⟩ := hread d before (comma.start + d)
    obtain ⟨nodes, hnodes, hrest⟩ := hread' (a.length + d) (comma.stop + d) stop
    have hmoved : Entry.depthBehind 0 (trees.map (TokenTree.move (· + d))) = some 0 := by
      rw [← TokenTree.map_carry_same, Entry.depthBehind_carry, hdepth]
    have hcomma' : (TokenTree.move (· + d) (.leaf comma)).isPunct "," = true := hcomma
    refine ⟨node :: nodes, ?_, node, nodes, rfl, hholds, hrest⟩
    rw [List.map_append, List.map_cons, TokenTree.map_move_add hnested', Entry.divide_at_comma hmoved hcomma']
    exact Entry.nodes_cons_eq_ok.mpr ⟨_, _, hnode, hnodes, rfl⟩

end ReadsMembers

namespace IsMembers

variable {read : MemberReader} {a b : List Char} {view : MemberView} {views : List MemberView}

theorem nil (read : MemberReader) : IsMembers read [] [] := ReadsMembers.nil fun _ => rfl

theorem cons (ha : IsMember read a view) (hb : IsMembers read b views) :
    IsMembers read (a ++ b) (view :: views.map (MemberView.behind a.length)) := by
  refine ReadsMembers.mono (ReadsMembers.cons ha hb) fun d nodes => ?_
  rintro ⟨node, rest, rfl, hview, hviews⟩
  rw [List.map_cons, List.map_cons, hview, hviews, List.map_map]
  refine congrArg _ (List.map_congr_left fun m _ => ?_)
  exact (m.behind_behind a.length d).symm

end IsMembers

/-! ### Fields and variants -/

/-- A field is a member. -/
theorem IsFieldText.isMember {text : List Char} {trees : List TokenTree} {comma : Token} {field : Node}
    (h : IsFieldText text trees comma field) : IsMember Entry.recordField text field.memberView := by
  refine ⟨trees, comma, fun rest _ => h.run rest, h.nested, h.mark, h.depth, fun d before stop => ?_⟩
  exact ⟨_, Entry.recordField_eq_some (h.recordField_move d) before stop true, field.memberView_move d⟩

theorem spells_identifier {name : String} (h : IsIdentifier name) :
    Spells name.toList [.leaf ⟨.ident, name, 0, name.toList.length⟩] := by
  have hrun := @run_identifier name.toList [] h rfl
  rw [List.append_nil, String.ofList_toList] at hrun
  exact ⟨lexFrom_of_run hrun, rfl, rfl, rfl⟩

/-- **A field with its comments and attributes** is a member; its type stands where it is written. -/
theorem isMember_field {front type : List Char} {name : String} {attributes types : List TokenTree}
    (hfront : Writes Anything front (flattenAll attributes)) (hattributes : IsAttributes attributes)
    (hnested : isNestedAll attributes = true) (hname : IsIdentifier name) (htype : Spells type types)
    (hdepth : Entry.depthBehind 0 types = some 0) :
    IsMember Entry.recordField
      (front ++ "    pub ".toList ++ name.toList ++ ": ".toList ++ type ++ ",\n".toList)
      ⟨some name, some ⟨front.length + name.toList.length + 10,
        front.length + name.toList.length + 10 + type.length⟩⟩ := by
  obtain ⟨trees, comma, field, hfield, hspan, hview⟩ :=
    IsFieldText.named (spells_identifier hname) rfl htype hdepth (.inl rfl)
  have hindent : Writes Anything "    ".toList [] := .blanks rfl
  have hindented := hfront.and hindent
  rw [List.append_nil] at hindented
  obtain ⟨trees', comma', field', hfield', hshape⟩ := hfield.behind hindented hattributes hnested
  have hname' : field.name? = some name := congrArg FieldView.name hview
  have hmember := hfield'.isMember
  rw [Node.memberView_congr hshape, Node.memberView_move, Node.memberView, hname', hspan] at hmember
  have htext : front ++ "    pub ".toList ++ name.toList ++ ": ".toList ++ type ++ ",\n".toList =
      front ++ "    ".toList ++ ("pub ".toList ++ (name.toList ++ ':' :: ' ' :: (type ++ [',', '\n']))) := by
    have hpub : "    pub ".toList = "    ".toList ++ "pub ".toList := by decide
    rw [hpub]
    simp
  have hplace : ∀ n : Nat, "pub ".toList.length + name.toList.length + 2 + n +
      (front ++ "    ".toList).length = front.length + name.toList.length + 10 + n := fun n => by
    rw [List.length_append]
    show 4 + _ + 2 + n + (_ + 4) = _
    omega
  rw [htext]
  simp only [MemberView.behind, Option.map_some, Span.move, hplace] at hmember
  have hzero := hplace 0
  rw [Nat.add_zero, Nat.add_zero] at hzero
  rwa [hzero] at hmember

theorem variant_named {attributes more : List TokenTree} {t : Token} (h : IsAttributes attributes)
    (hkind : t.kind = .ident) (before stop : Nat) (comma : Bool) :
    ∃ node, Entry.variant ⟨before, attributes ++ .leaf t :: more, stop, comma⟩ = .ok (some node) ∧
      node.memberView = ⟨some t.text, none⟩ ∧ node.children = (lead attributes).outer := by
  have hmark : t.isPunct "#" = false := by
    rw [Token.isPunct, hkind]
    rfl
  obtain ⟨hlead, -⟩ := h.lead_eq (Attribute.lead_of_not_hash hmark more)
  rw [Entry.variant, hlead]
  simp only [Entry.isTrailing, List.isEmpty_cons, Bool.false_and, Bool.false_eq_true, if_false,
    Entry.name, if_pos hkind]
  exact ⟨_, rfl, rfl, rfl⟩

/-- **A variant with its comments and attributes** is read as a member, with what it holds. -/
theorem readsMember_variant {front content : List Char} {name : String}
    {attributes contents : List TokenTree} (hfront : Writes Anything front (flattenAll attributes))
    (hattributes : IsAttributes attributes) (hnested : isNestedAll attributes = true)
    (hname : IsIdentifier name) (hcontent : Writes Anything content (flattenAll contents))
    (hgap : IsGap (content ++ [','])) (hinside : isNestedAll contents = true)
    (hneutral : ∀ tree ∈ contents, Entry.IsNeutral tree) :
    ReadsMember Entry.variant (front ++ "    ".toList ++ name.toList ++ content ++ ",\n".toList) fun _ node =>
      node.memberView = ⟨some name, none⟩ ∧ (attributes = [] → node.children = []) := by
  have hindent : Writes Anything "    ".toList [] := .blanks rfl
  have hend : Writes Anything ",\n".toList [⟨.punct, ",", 0, 0⟩] := .const rfl (by decide)
  have hwhole := (hfront.and hindent).and ((Writes.identifier hname).append (hcontent.and hend)
    fun rest _ => by
      have hcut : content ++ ",\n".toList ++ rest = content ++ [','] ++ ('\n' :: rest) := by simp
      rw [hcut]
      exact hgap.append (by simp) _)
  obtain ⟨ts, hts, hbare⟩ := hwhole
  have hbare' : ts.map Token.bare =
      flattenAll (attributes ++ .leaf ⟨.ident, name, 0, 0⟩ :: contents) ++ [⟨.punct, ",", 0, 0⟩] := by
    rw [hbare]
    simp [TokenTree.flattenAll_append, flattenAll, TokenTree.flatten]
  obtain ⟨us, vs, rfl, hus, hvs⟩ := List.map_eq_append_iff.mp hbare'
  obtain ⟨comma, rfl, hcomma⟩ := List.map_eq_singleton_iff.mp hvs
  obtain ⟨there, rfl, hthere, htrees⟩ := exists_trees_of_bare hus (by
    simp only [TokenTree.isNestedAll_append, isNestedAll, hnested, hinside]
    rfl)
  obtain ⟨attributes', there', rfl, rfl, hrest⟩ := List.map_eq_append_iff.mp htrees
  obtain ⟨leaf, contents', rfl, hleaf, rfl⟩ := List.map_eq_cons_iff.mp hrest
  obtain ⟨t, rfl, ht⟩ := TokenTree.eq_leaf_of_bare hleaf
  have hkind : t.kind = .ident := congrArg Token.kind ht
  have htext : t.text = name := congrArg Token.text ht
  have hattributes' := hattributes.of_bare
  refine ⟨_, comma, ?_, hthere, ?_, ?_, fun d before stop => ?_⟩
  · have hassoc : front ++ "    ".toList ++ (name.toList ++ (content ++ ",\n".toList)) =
        front ++ "    ".toList ++ name.toList ++ content ++ ",\n".toList := by simp
    rwa [hassoc] at hts
  · exact Token.isPunct_of_bare hcomma
  · refine Entry.depthBehind_eq_self (List.forall_mem_append.mpr ⟨hattributes'.isNeutral,
      List.forall_mem_cons.mpr ⟨Entry.isNeutral_of_ident hkind, fun tree htree mark hmark => ?_⟩⟩) 0
    have hbare := hneutral tree.bare (List.mem_map_of_mem htree) mark hmark
    rwa [TokenTree.bare, TokenTree.isPunct_move] at hbare
  · rw [List.map_append, List.map_cons]
    obtain ⟨node, hnode, hview, hchildren⟩ := @variant_named _ (contents'.map (TokenTree.move (· + d)))
      (t.move (· + d)) (hattributes'.move (· + d)) hkind before stop true
    refine ⟨node, hnode, hview.trans (congrArg (MemberView.mk · none) (congrArg some htext)), fun hnone => ?_⟩
    obtain rfl := List.map_eq_nil_iff.mp hnone
    exact hchildren

/-- It is found by its name. -/
theorem isMember_variant {front content : List Char} {name : String}
    {attributes contents : List TokenTree} (hfront : Writes Anything front (flattenAll attributes))
    (hattributes : IsAttributes attributes) (hnested : isNestedAll attributes = true)
    (hname : IsIdentifier name) (hcontent : Writes Anything content (flattenAll contents))
    (hgap : IsGap (content ++ [','])) (hinside : isNestedAll contents = true)
    (hneutral : ∀ tree ∈ contents, Entry.IsNeutral tree) :
    IsMember Entry.variant (front ++ "    ".toList ++ name.toList ++ content ++ ",\n".toList)
      ⟨some name, none⟩ := by
  obtain ⟨trees, comma, hlex, hinner, hcomma, hdepth, hread⟩ :=
    readsMember_variant hfront hattributes hnested hname hcontent hgap hinside hneutral
  refine ⟨trees, comma, hlex, hinner, hcomma, hdepth, fun d before stop => ?_⟩
  obtain ⟨node, hnode, hview, -⟩ := hread d before stop
  exact ⟨node, hnode, hview⟩

/-! ### Members as they are seen -/

/-- Behind so many characters the node is seen so, whatever they are and whatever follows. -/
def Shows (text : List Char) (view : FieldView) (d : Nat) (node : Node) : Prop :=
  ∀ front behind, front.length = d → node.fieldView (front ++ (text ++ behind)) = view

/-- **Members one behind the other are seen as they are on their own.** -/
theorem readsMembers_shows {α : Type} {read : MemberReader} {line : α → String} {view : α → FieldView}
    {items : List α} (h : ∀ a ∈ items, ReadsMember read (line a).toList (Shows (line a).toList (view a))) :
    ReadsMembers read (String.join (items.map line)).toList fun d nodes => ∀ front behind, front.length = d →
      nodes.map (Node.fieldView (front ++ ((String.join (items.map line)).toList ++ behind))) = items.map view := by
  rw [String.toList_join]
  induction items with
  | nil => exact .nil fun _ _ _ _ => rfl
  | cons a rest ih =>
    obtain ⟨ha, hrest⟩ := List.forall_mem_cons.mp h
    refine (ReadsMembers.cons ha (ih hrest)).mono fun d nodes => ?_
    rintro ⟨node, more, rfl, hnode, hmore⟩ front behind rfl
    -- What stands in front of the others is what stands in front, and the first member.
    have hothers := hmore (front ++ (line a).toList) behind (by rw [List.length_append, Nat.add_comm])
    rw [List.map_cons, List.map_cons, List.map_cons, List.flatMap_cons, List.append_assoc (line a).toList,
      hnode _ _ rfl]
    rw [List.append_assoc] at hothers
    rw [hothers]

/-- A field is seen so wherever it stands. -/
theorem IsFieldText.readsMember {text : List Char} {trees : List TokenTree} {comma : Token} {field : Node}
    (h : IsFieldText text trees comma field) :
    ReadsMember Entry.recordField text (Shows text (field.fieldView text)) := by
  refine ⟨trees, comma, fun rest _ => h.run rest, h.nested, h.mark, h.depth,
    fun d before stop => ⟨_, Entry.recordField_eq_some (h.recordField_move d) before stop true, ?_⟩⟩
  rintro front behind rfl
  exact h.fieldView_around front behind

/-! ### Texts in front of a member -/

namespace ReadsMember

variable {read : MemberReader} {text : List Char} {view : FieldView}

theorem mono {p q : Nat → Node → Prop} (h : ReadsMember read text p) (hp : ∀ d node, p d node → q d node) :
    ReadsMember read text q := by
  obtain ⟨trees, comma, hlex, hnested, hcomma, hdepth, hread⟩ := h
  refine ⟨trees, comma, hlex, hnested, hcomma, hdepth, fun d before stop => ?_⟩
  obtain ⟨node, hnode, hholds⟩ := hread d before stop
  exact ⟨node, hnode, hp d node hholds⟩

/-- A text without tokens in front is not seen. -/
theorem silent (h : ReadsMember read text (Shows text view)) {x : List Char} (hx : Lexes Anything x []) :
    ReadsMember read (x ++ text) (Shows (x ++ text) view) := by
  obtain ⟨trees, comma, hlex, hnested, hcomma, hdepth, hread⟩ := h
  refine ⟨trees.map (TokenTree.move (· + x.length)), comma.shift x.length, ?_, ?_, hcomma, ?_,
    fun d before stop => ?_⟩
  · have hall := hx.and hlex
    rw [List.nil_append, List.map_append, List.map_singleton] at hall
    rw [flattenAll_map_move]
    exact hall
  · rw [isNestedAll_map_move, hnested]
  · rw [← TokenTree.map_carry_same, Entry.depthBehind_carry, hdepth]
  · obtain ⟨node, hnode, hshows⟩ := hread (x.length + d) before stop
    rw [TokenTree.map_move_add hnested]
    refine ⟨node, hnode, ?_⟩
    rintro front behind rfl
    rw [List.append_assoc, ← List.append_assoc front]
    exact hshows (front ++ x) behind (by rw [List.length_append, Nat.add_comm])

end ReadsMember

/-- A variant has one more attribute in front. -/
theorem Entry.variant_attribute {before stop : Nat} {trees inner : List TokenTree} {node : Node}
    {hash opener closer : Token} (h : variant ⟨before, trees, stop, true⟩ = .ok (some node))
    (hhash : hash.isPunct "#" = true) (hopener : opener.isPunct "[" = true) :
    ∃ front, variant ⟨before, .leaf hash :: .group opener inner closer :: trees, stop, true⟩ = .ok (some front) ∧
      ∀ source, front.fieldView source = { node.fieldView source with
        attributes := Text.slice source hash.start closer.stop :: (node.fieldView source).attributes } := by
  have hlead : Attribute.lead (.leaf hash :: .group opener inner closer :: trees) =
      { Attribute.lead trees with
        outer := Attribute.node hash.start false inner closer :: (Attribute.lead trees).outer } := by
    rw [Attribute.lead, hhash, hopener]
    rfl
  have htrailing : ∀ trees rest, (⟨before, trees, stop, true⟩ : Entry).isTrailing rest = false :=
    fun _ _ => Bool.and_false _
  rw [variant] at h
  simp only [htrailing, Bool.false_eq_true, if_false] at h
  obtain ⟨name, hname, h⟩ := bind_eq_ok.mp h
  have hname' : (⟨before, .leaf hash :: .group opener inner closer :: trees, stop, true⟩ : Entry).name .variant
      (Attribute.lead trees).rest = .ok name := by
    unfold Entry.name at hname ⊢
    exact hname
  rw [variant, hlead]
  simp only [htrailing, Bool.false_eq_true, if_false, hname']
  cases h
  exact ⟨_, rfl, fun source => rfl⟩

/-- The text is an attribute, from its hash mark to its bracket. -/
def IsAttributeText (a : List Char) : Prop :=
  ∃ hash opener closer inner, Spells a [.leaf hash, .group opener inner closer] ∧ hash.isPunct "#" = true ∧
    opener.isPunct "[" = true

/-- Attributes on lines of their own, behind blanks. -/
def attributeLines (attributes : List String) : String :=
  String.join (attributes.map fun a => "    " ++ a ++ "\n")

theorem attributeLines_singleton (a : String) : attributeLines [a] = "    " ++ a ++ "\n" := by
  rw [← String.toList_inj, attributeLines, String.toList_join]
  exact List.append_nil _

theorem attributeLines_append (as bs : List String) :
    attributeLines (as ++ bs) = attributeLines as ++ attributeLines bs := by
  rw [← String.toList_inj, attributeLines, attributeLines, attributeLines, String.toList_append, List.map_append,
    String.toList_join, String.toList_join, String.toList_join, List.flatMap_append]

theorem attributeLines_cons_toList (a : String) (rest : List String) : (attributeLines (a :: rest)).toList =
    "    ".toList ++ (a.toList ++ '\n' :: (attributeLines rest).toList) := by
  rw [attributeLines, List.map_cons, String.toList_join, List.flatMap_cons, ← String.toList_join, ← attributeLines,
    String.toList_append, String.toList_append, List.append_assoc, List.append_assoc]
  rfl

namespace ReadsMember

variable {text : List Char} {view : FieldView}

/-- An attribute on a line of its own in front of a variant. -/
theorem attributeLine (h : ReadsMember Entry.variant text (Shows text view)) {a : List Char} (ha : IsAttributeText a) :
    ReadsMember Entry.variant (a ++ '\n' :: text)
      (Shows (a ++ '\n' :: text) { view with attributes := a :: view.attributes }) := by
  obtain ⟨hash, opener, closer, inner, hspells, hhash, hopener⟩ := ha
  obtain ⟨trees, comma, hlex, hnested, hcomma, hdepth, hread⟩ := h
  have hneutral : ∀ tree ∈ [TokenTree.leaf hash, .group opener inner closer], Entry.IsNeutral tree := by
    simp only [List.forall_mem_cons]
    exact ⟨Entry.isNeutral_of_mark hhash (by decide), Entry.isNeutral_of_mark hopener (by decide),
      List.forall_mem_nil _⟩
  refine ⟨[.leaf hash, .group opener inner closer] ++ trees.map (TokenTree.move (· + (a.length + 1))),
    comma.shift (a.length + 1), fun rest hrest => ?_, ?_, hcomma, ?_, fun d before stop => ?_⟩
  · have hrun := (run_line hspells.tokens (text ++ rest)).trans
      (Nat.zero_add (a.length + 1) ▸ (hlex rest hrest).shift (a.length + 1))
    have hlength : text.length + (a.length + 1) = (a ++ '\n' :: text).length := by
      simp
      omega
    rw [hlength, List.map_append, List.map_singleton, ← List.append_assoc] at hrun
    rw [TokenTree.flattenAll_append, flattenAll_map_move, List.append_assoc a]
    exact hrun
  · rw [TokenTree.isNestedAll_append, hspells.nested, isNestedAll_map_move, hnested]
    rfl
  · rw [Entry.depthBehind_append (Entry.depthBehind_eq_self hneutral 0), ← TokenTree.map_carry_same,
      Entry.depthBehind_carry, hdepth]
  · obtain ⟨node, hnode, hshows⟩ := hread (a.length + 1 + d) before stop
    rw [← TokenTree.map_move_add hnested] at hnode
    have hhash' : (hash.move (· + d)).isPunct "#" = true := hhash
    have hopener' : (opener.move (· + d)).isPunct "[" = true := hopener
    obtain ⟨front, hfront, hview⟩ := Entry.variant_attribute hnode hhash' hopener'
    refine ⟨front, hfront, ?_⟩
    rintro before behind rfl
    have hslice : Text.slice (before ++ (a ++ '\n' :: text ++ behind)) (hash.start + before.length)
        (closer.stop + before.length) = a := by
      rw [Text.slice_append_right, List.append_assoc]
      exact hspells.slice_eq (s := ⟨hash.start, closer.stop⟩) ⟨rfl, rfl⟩ _
    have hnodeView : node.fieldView (before ++ (a ++ '\n' :: text ++ behind)) = view := by
      have hall := hshows (before ++ (a ++ ['\n'])) behind (by
        rw [List.length_append, List.length_append, List.length_singleton, Nat.add_comm])
      rw [← hall]
      simp
    rw [hview, hnodeView]
    exact congrArg (fun found => { view with attributes := found :: view.attributes }) hslice

/-- **Lines of attributes in front of a variant are seen as its attributes.** -/
theorem attributeLines (h : ReadsMember Entry.variant text (Shows text view)) {attributes : List String}
    (hattributes : ∀ a ∈ attributes, IsAttributeText a.toList) :
    ReadsMember Entry.variant ((Rust.attributeLines attributes).toList ++ text)
      (Shows ((Rust.attributeLines attributes).toList ++ text)
        { view with attributes := attributes.map String.toList ++ view.attributes }) := by
  have hblanks : Lexes Anything "    ".toList [] := .of_tokens (by decide)
  induction attributes with
  | nil => exact h
  | cons a rest ih =>
    obtain ⟨ha, hrest⟩ := List.forall_mem_cons.mp hattributes
    have hline := ((ih hrest).attributeLine ha).silent hblanks
    rw [attributeLines_cons_toList, List.append_assoc, List.append_assoc, List.cons_append]
    exact hline

end ReadsMember

/-! ### Variants without attributes -/

/-- **A variant with what it holds** is seen with its name and no attributes. -/
theorem readsMember_variant_shows {content : List Char} {name : String} {contents : List TokenTree}
    (hname : IsIdentifier name) (hcontent : Writes Anything content (flattenAll contents))
    (hgap : IsGap (content ++ [','])) (hinside : isNestedAll contents = true)
    (hneutral : ∀ tree ∈ contents, Entry.IsNeutral tree) :
    ReadsMember Entry.variant ("    ".toList ++ name.toList ++ content ++ ",\n".toList)
      (Shows ("    ".toList ++ name.toList ++ content ++ ",\n".toList) ⟨some name, none, []⟩) := by
  refine (readsMember_variant Writes.nil .nil rfl hname hcontent hgap hinside hneutral).mono ?_
  rintro d node ⟨hview, hchildren⟩ front behind -
  have hfound : node.name? = some name := congrArg MemberView.name hview
  have htype : node.type? = none := congrArg MemberView.type hview
  rw [Node.fieldView, hfound, htype, Node.attributes, hchildren rfl]
  rfl

/-! ### Members behind attributes -/

namespace Node

theorem not_isField_of_isAttribute {n : Node} (h : n.isAttribute = true) : n.isField = false := by
  rw [isAttribute] at h
  rw [isField]
  cases hshape : n.shape <;> simp_all

theorem not_isVariant_of_isAttribute {n : Node} (h : n.isAttribute = true) : n.isVariant = false := by
  rw [isAttribute] at h
  rw [isVariant]
  cases hshape : n.shape <;> simp_all

/-- What is seen with a type is a field. -/
theorem isField_of_type {source : List Char} {n : Node} (h : (n.fieldView source).type.isSome = true) :
    n.isField = true ∧ n.isVariant = false := by
  rw [fieldView, Option.isSome_map, type?] at h
  rw [isField, isVariant]
  cases hshape : n.shape <;> simp_all

variable {node : Node} {attributes : List TokenTree} {members : List Node}

/-- Behind its attributes a node holds its members. -/
theorem filter_children (h : node.children = (Attribute.lead attributes).outer ++ members) {P : Node → Bool}
    (hP : ∀ n : Node, n.isAttribute = true → P n = false) : node.children.filter P = members.filter P := by
  have houter : (Attribute.lead attributes).outer.filter P = [] := by
    refine List.filter_eq_nil_iff.mpr fun n hn => ?_
    obtain ⟨_, _, _, _, rfl⟩ := Attribute.mem_lead (.inr hn)
    rw [hP _ rfl]
    exact Bool.false_ne_true
  rw [h, List.filter_append, houter, List.nil_append]

/-- **Members that are seen with types are the fields.** -/
theorem fields_eq (h : node.children = (Attribute.lead attributes).outer ++ members) {source : List Char}
    {views : List FieldView} (hviews : members.map (fieldView source) = views)
    (htypes : ∀ view ∈ views, view.type.isSome = true) : node.fields = members ∧ node.variants = [] := by
  have hmembers : ∀ n ∈ members, n.isField = true ∧ n.isVariant = false := fun n hn =>
    isField_of_type (htypes _ (hviews ▸ List.mem_map_of_mem hn))
  constructor
  · rw [fields, filter_children h fun _ => not_isField_of_isAttribute,
      List.filter_eq_self.mpr fun n hn => (hmembers n hn).1]
  · rw [variants, filter_children h fun _ => not_isVariant_of_isAttribute,
      List.filter_eq_nil_iff.mpr fun n hn => by rw [(hmembers n hn).2]; exact Bool.false_ne_true]

end Node

end ContractSync.Rust

/-!
## Texts of declarations with members

A structure or an enumeration is written with its comments and attributes in front, and its members on
lines of their own between braces. **Such a text is that of one item, whose children are the attributes and
the members** (`exists_declaration`). What is known of the members where they stand alone is known of them
there.
-/

namespace ContractSync.Rust

open Attribute (lead)
open TokenTree (flattenAll flattenAll_map_move isNestedAll isNestedAll_map_move)

/-- Tokens like those of attributes are those of attributes. -/
theorem IsAttributes.exists_lexes {next : List Char → Prop} {text : List Char} {attributes : List TokenTree}
    (h : IsAttributes attributes) (hnested : isNestedAll attributes = true)
    (htext : Writes next text (flattenAll attributes)) :
    ∃ there, Lexes next text (flattenAll there) ∧ IsAttributes there ∧ isNestedAll there = true := by
  obtain ⟨ts, hts, hmarks⟩ := htext
  obtain ⟨there, rfl, hthere, heq⟩ := exists_trees_of_bare hmarks hnested
  exact ⟨there, hts, (heq ▸ h : IsAttributes (there.map TokenTree.bare)).of_bare, hthere⟩

namespace Item

variable {trees inner : List TokenTree} {keyword name opener closer : Token}

/-- A structure with its fields between braces. -/
theorem read_struct (hskip : skipQualifiers (Entry.dropVisibility trees) =
      [.leaf keyword, .leaf name, .group opener inner closer])
    (hkeyword : keyword.text = "struct") (hname : name.kind = .ident)
    (hopener : opener.isPunct "\x7b" = true) (stop : Nat) :
    read stop trees = .ok {
      kind := .struct_, name := some name.text, body := some ⟨opener, inner, closer⟩
      stop := closer.stop, rest := [] } := by
  have hword : Item.keyword [.leaf keyword, .leaf name, .group opener inner closer] = "struct" :=
    hkeyword
  have hangle : opener.isPunct "<" = false := Token.isPunct_of_ne hopener (by decide)
  have hround : opener.isPunct "(" = false := Token.isPunct_of_ne hopener (by decide)
  have hfound : ["\x7b", ";"].any (TokenTree.group opener inner closer).isPunct = true := by
    rw [List.any_cons, TokenTree.isPunct, TokenTree.head, hopener]
    rfl
  rw [read, hskip, readKeyword, hword, if_pos (.inl rfl), readStruct, List.tail_cons, List.tail_cons,
    nameAt, if_pos hname, skipGenerics, TokenTree.isPunct, TokenTree.head, hangle,
    if_neg Bool.false_ne_true]
  simp only [bind, Except.bind, tupleBody?, hround, Bool.false_eq_true, if_false, scanTo, hfound, if_true]
  rfl

/-- An enumeration with its variants between braces. -/
theorem read_enum (hskip : skipQualifiers (Entry.dropVisibility trees) =
      [.leaf keyword, .leaf name, .group opener inner closer])
    (hkeyword : keyword.text = "enum") (hname : name.kind = .ident)
    (hopener : opener.isPunct "\x7b" = true) (stop : Nat) :
    read stop trees = .ok {
      kind := .enum_, name := some name.text, body := some ⟨opener, inner, closer⟩
      stop := closer.stop, rest := [] } := by
  have hword : Item.keyword [.leaf keyword, .leaf name, .group opener inner closer] = "enum" :=
    hkeyword
  have hangle : opener.isPunct "<" = false := Token.isPunct_of_ne hopener (by decide)
  have hfound : ["\x7b"].any (TokenTree.group opener inner closer).isPunct = true := by
    rw [List.any_cons, TokenTree.isPunct, TokenTree.head, hopener]
    rfl
  rw [read, hskip, readKeyword, hword, if_neg (by decide), if_pos rfl, readEnum, List.tail_cons,
    List.tail_cons, nameAt, if_pos hname, skipGenerics, TokenTree.isPunct, TokenTree.head, hangle,
    if_neg Bool.false_ne_true]
  simp only [bind, Except.bind, scanTo, hfound, if_true]
  rfl

end Item

/-- The declarations with members between braces: the keyword and what reads the members. -/
inductive IsBraced : String → ItemKind → MemberReader → Prop
  | struct : IsBraced "struct" .struct_ Entry.recordField
  | enum : IsBraced "enum" .enum_ Entry.variant

section Braced

variable {word : String} {kind : ItemKind} {read : MemberReader}

theorem IsBraced.isPlain (h : IsBraced word kind read) {entries : List Entry} {nodes : List Node}
    (hnodes : Entry.nodes read entries = .ok nodes) : ∀ n ∈ nodes, n.IsPlain := by
  cases h with
  | struct => exact Entry.forall_nodes (fun _ _ h => (Entry.isMember_recordField h).plain) hnodes
  | enum => exact Entry.forall_nodes (fun _ _ h => (Entry.isMember_variant h).plain) hnodes

/-- The item that is read. -/
theorem IsBraced.read_eq (h : IsBraced word kind read) {trees inner : List TokenTree}
    {keyword name opener closer : Token} (hskip : Item.skipQualifiers (Entry.dropVisibility trees) =
      [.leaf keyword, .leaf name, .group opener inner closer])
    (hkeyword : keyword.text = word) (hname : name.kind = .ident)
    (hopener : opener.isPunct "\x7b" = true) :
    ∃ item, Item.read 0 trees = .ok item ∧ item.rest = [] ∧ item.isBlock = false ∧ item.kind = kind ∧
      item.name = some name.text ∧
      item.members = Entry.nodes read (Entry.divide opener.stop closer.start 0 [] inner) := by
  have hround : opener.isPunct "(" = false := Token.isPunct_of_ne hopener (by decide)
  cases h with
  | struct =>
    refine ⟨_, Item.read_struct hskip hkeyword hname hopener 0, rfl, rfl, rfl, rfl, ?_⟩
    exact Group.members_of_record (b := ⟨opener, inner, closer⟩) hround
  | enum => exact ⟨_, Item.read_enum hskip hkeyword hname hopener 0, rfl, rfl, rfl, rfl, rfl⟩

/-- A word is no delimiter. -/
theorem TokenTree.isNested_ident {t : Token} (h : t.kind = .ident) : isNested (.leaf t) = true := by
  simp [isNested, Token.isOpener, Token.isCloser, Token.isPunct, h]

/-- The trees of a declaration are one item, with the attributes and the members in it. -/
theorem IsBraced.items (h : IsBraced word kind read) {attributes inner : List TokenTree}
    {pub keyword t opener closer : Token} {members : List Node} (hattributes : IsAttributes attributes)
    (hpub : pub.isWord "pub" = true) (hkeyword : keyword.isWord word = true) (ht : t.kind = .ident)
    (hopener : opener.isPunct "\x7b" = true)
    (hmembers : Entry.nodes read (Entry.divide opener.stop closer.start 0 [] inner) = .ok members) :
    ∃ node, Items (attributes ++ [.leaf pub, .leaf keyword, .leaf t, .group opener inner closer]) [node] ∧
      (∀ m ∈ Node.walkAll node.children, m.itemKind? = none) ∧ node.itemKind? = some kind ∧
      node.name? = some t.text ∧ node.children = (lead attributes).outer ++ members := by
  rw [Token.isWord, Bool.and_eq_true, beq_iff_eq, beq_iff_eq] at hkeyword
  have hqualifier : keyword.text ∉ "pub" :: Item.qualifiers := by
    rw [hkeyword.2]
    cases h <;> decide
  have hskip := (IsFront.pub hpub).skip hqualifier ⟨t, [.group opener inner closer], rfl⟩
  obtain ⟨item, hitem, hrest, hblock, hitemKind, hitemName, hitemMembers⟩ :=
    h.read_eq hskip hkeyword.2 ht hopener
  obtain ⟨start, hitems, hplain⟩ := (IsFront.pub hpub).items hattributes hkeyword.1 hitem hrest
    (hitemMembers.trans hmembers) (h.isPlain hmembers) hblock
  exact ⟨_, hitems, hplain, congrArg some hitemKind, hitemName, List.append_nil _⟩

/-- The head of a declaration: two words, the name and the opening brace. -/
theorem IsBraced.exists_head (h : IsBraced word kind read) {name : String} (hname : IsIdentifier name) :
    ∃ pub keyword t opener : Token,
      Lexes Anything (("pub " ++ word ++ " ").toList ++ (name.toList ++ " \x7b\n".toList))
        [pub, keyword, t, opener] ∧
      pub.bare = ⟨.ident, "pub", 0, 0⟩ ∧ keyword.bare = ⟨.ident, word, 0, 0⟩ ∧
      t.bare = ⟨.ident, name, 0, 0⟩ ∧ opener.bare = ⟨.punct, "\x7b", 0, 0⟩ := by
  have hword : Writes Anything ("pub " ++ word ++ " ").toList
      [⟨.ident, "pub", 0, 0⟩, ⟨.ident, word, 0, 0⟩] := by
    cases h <;> exact Writes.of_marks (by decide)
  have hopen : Writes Anything " \x7b\n".toList [⟨.punct, "\x7b", 0, 0⟩] := .const rfl (by decide)
  obtain ⟨head, hhead, hmarks⟩ := hword.and ((Writes.identifier hname).append hopen
    fun rest _ => IsGap.append (by decide +kernel) (by decide) rest)
  obtain ⟨pub, head, rfl, hpub, hmarks⟩ := List.map_eq_cons_iff.mp hmarks
  obtain ⟨keyword, head, rfl, hkeyword, hmarks⟩ := List.map_eq_cons_iff.mp hmarks
  obtain ⟨t, head, rfl, ht, hmarks⟩ := List.map_eq_cons_iff.mp hmarks
  obtain ⟨opener, rfl, hopener⟩ := List.map_eq_singleton_iff.mp hmarks
  exact ⟨pub, keyword, t, opener, hhead, hpub, hkeyword, ht, hopener⟩

/-- **The text of a declaration**: attributes, the head, the members and the closing brace. What holds of the
members behind other characters holds of them behind those in front. -/
theorem exists_declaration {name : String} {front body : List Char} {attributes : List TokenTree}
    {holds : Nat → List Node → Prop} (h : IsBraced word kind read)
    (hfront : Lexes Anything front (flattenAll attributes)) (hattributes : IsAttributes attributes)
    (hnested : isNestedAll attributes = true)
    (hname : IsIdentifier name) (hbody : ReadsMembers read body holds) :
    ∃ node members, IsItemText (front ++ (("pub " ++ word ++ " ").toList ++
        (name.toList ++ " \x7b\n".toList)) ++ (body ++ "\x7d\n".toList)) node ∧
      node.itemKind? = some kind ∧ node.name? = some name ∧
      node.children = (lead attributes).outer ++ members ∧
      holds (front ++ (("pub " ++ word ++ " ").toList ++ (name.toList ++ " \x7b\n".toList))).length members := by
  obtain ⟨pub, keyword, t, opener, hhead, hpub, hkeyword, ht, hopener⟩ := h.exists_head hname
  generalize ("pub " ++ word ++ " ").toList ++ (name.toList ++ " \x7b\n".toList) = opening at hhead ⊢
  obtain ⟨closing, hclosing, hcloses⟩ : Writes Anything "\x7d\n".toList [⟨.punct, "\x7d", 0, 0⟩] :=
    .const rfl (by decide)
  obtain ⟨closer, rfl, hcloser⟩ := List.map_eq_singleton_iff.mp hcloses
  obtain ⟨inner, hinner, hinside, hmembers⟩ := hbody
  have htokens := ((hfront.and hhead).and (hinner.and hclosing)).tokenize trivial
  generalize (front ++ opening).length = d at htokens ⊢
  have hshift : (flattenAll inner).map (Token.shift d) =
      flattenAll (inner.map (TokenTree.move (· + d))) := by
    rw [flattenAll_map_move]
    rfl
  rw [List.map_append, hshift] at htokens
  obtain ⟨members, hread, hviews⟩ :=
    hmembers d (opener.shift front.length).stop ((closer.shift body.length).shift d).start
  -- Where the tokens stand does not matter for what they are.
  have hident : (t.shift front.length).kind = .ident := congrArg Token.kind ht
  have hpubKind : (pub.shift front.length).kind = .ident := congrArg Token.kind hpub
  have hkeywordKind : (keyword.shift front.length).kind = .ident := congrArg Token.kind hkeyword
  obtain ⟨node, hitems, hplain, hnodeKind, hnodeName, hchildren⟩ :=
    h.items hattributes (Token.isWord_of_bare (t := pub.shift front.length) hpub)
      (Token.isWord_of_bare (t := keyword.shift front.length) hkeyword) hident
      (Token.isPunct_of_bare (t := opener.shift front.length) hopener) hread
  have hgroup : TokenTree.isNested (.group (opener.shift front.length)
      (inner.map (TokenTree.move (· + d))) ((closer.shift body.length).shift d)) = true := by
    rw [TokenTree.isNested, isNestedAll_map_move, hinside, Bool.and_true]
    show opener.bare.closes closer.bare = true
    rw [hopener, hcloser]
    rfl
  refine ⟨node, members, ⟨⟨_, ⟨?_, ?_, hitems⟩, hattributes.head hpubKind,
    (closer.shift body.length).shift d, ?_, .inr (Token.isPunct_of_bare hcloser)⟩, hplain⟩, hnodeKind,
    hnodeName.trans (congrArg some (congrArg Token.text ht)), hchildren, hviews⟩
  · rw [htokens]
    simp [TokenTree.flattenAll_append, flattenAll, TokenTree.flatten]
  · simp only [TokenTree.isNestedAll_append, hnested, isNestedAll, hgroup, TokenTree.isNested_ident, hident,
      hpubKind, hkeywordKind, Bool.and_self]
  · have hlast := TokenTree.getLast?_flattenAll_group (opener.shift front.length)
      (inner.map (TokenTree.move (· + d))) ((closer.shift body.length).shift d)
      (attributes ++ [.leaf (pub.shift front.length), .leaf (keyword.shift front.length),
        .leaf (t.shift front.length)])
    rwa [List.append_assoc] at hlast

end Braced

end ContractSync.Rust
