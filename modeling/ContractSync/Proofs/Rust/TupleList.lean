import ContractSync.Proofs.Rust.VariantList

/-!
# The fields of a tuple struct

`TupleList` is what may stand between the parentheses of a struct: fields with a comma between them and
perhaps one at the end, each made of attributes, perhaps a visibility and a type (`WrittenField`). Each of
them is read as one field, which ends where its type does (`WrittenField.exists_tupleField`). **The type
begins where it is written just if it does not begin with parentheses right behind `pub`**
(`tupleFields_eq_mapIdx_iff`), where they are taken for the restriction of the visibility.
-/

namespace ContractSync.Rust

open TokenTree (flattenAll)

/-! ### Fields as they are written -/

/-- What stands in the parentheses of a visibility: `crate`, `self`, `super`, or `in` with a path. -/
def IsRestriction (inner : List TokenTree) : Prop :=
  (∃ t : Token, inner = [.leaf t] ∧ ["crate", "self", "super"].any t.isWord = true) ∨
    ∃ (t : Token) (path : List TokenTree), inner = .leaf t :: path ∧ t.isWord "in" = true ∧ path ≠ []

/-- A field as it is written: attributes, a visibility and the trees of a type, which hold no comma
outside of angle brackets and close these. -/
structure WrittenField where
  attributes : List OuterAttribute := []
  visibility : Option (Token × Option Group) := none
  first : TokenTree
  more : List TokenTree := []
  isVisibility : ∀ v ∈ visibility, v.1.isWord "pub" = true ∧
    ∀ g ∈ v.2, g.opener.isPunct "(" = true ∧ IsRestriction g.inner
  isFirst : first.isPunct "#" = false ∧ first.isWord "pub" = false
  isType : Entry.depthBehind 0 (first :: more) = some 0

namespace WrittenField

/-- The trees of the type. -/
def type (w : WrittenField) : List TokenTree := w.first :: w.more

/-- The trees of the visibility. -/
def marks (w : WrittenField) : List TokenTree :=
  (w.visibility.map fun v => .leaf v.1 :: (v.2.map Group.tree).toList).getD []

/-- The trees of the field. -/
def trees (w : WrittenField) : List TokenTree :=
  w.attributes.flatMap OuterAttribute.trees ++ (w.marks ++ w.type)

/-- Where the visibility starts, or the type if there is none. -/
def itemStart (w : WrittenField) : Nat := (w.visibility.map (·.1.start)).getD w.first.start

/-- Where the first token of the field starts. -/
def start (w : WrittenField) : Nat := (w.attributes.head?.map (·.hash.start)).getD w.itemStart

/-- From the first token of the type to its last one. -/
def span (w : WrittenField) : Span := ⟨w.first.start, (w.more.getLast?.getD w.first).stop⟩

/-- The node with the attributes of the field and a type that starts at the position given. -/
def nodeFrom (w : WrittenField) (position start : Nat) : Node :=
  .mk (.field (toString position) ⟨start, w.span.stop⟩) w.start w.itemStart w.span.stop
    (w.attributes.map OuterAttribute.node)

/-- The node of the field. -/
def node (w : WrittenField) (position : Nat) : Node := w.nodeFrom position w.span.start

/-- The type begins with parentheses right behind `pub`. -/
def hidesType (w : WrittenField) : Bool :=
  w.visibility.any (·.2.isNone) &&
    match w.first with
    | .group opener _ _ => opener.isPunct "("
    | .leaf _ => false

end WrittenField

/-- The content of the body of a struct: fields that have a comma, and perhaps one that has none. -/
structure TupleList where
  ended : List (WrittenField × Token)
  last : Option WrittenField
  isComma : ∀ w ∈ ended, w.2.isPunct "," = true

namespace TupleList

/-- The trees of the fields and their commas. -/
def trees (list : TupleList) : List TokenTree :=
  list.ended.flatMap (fun w => w.1.trees ++ [.leaf w.2]) ++
    (list.last.map WrittenField.trees).getD []

/-- The fields in their order. -/
def fields (list : TupleList) : List WrittenField := list.ended.map Prod.fst ++ list.last.toList

/-- The nodes of the fields, which are numbered in their order. -/
def nodes (list : TupleList) : List Node := list.fields.mapIdx fun position w => w.node position

/-- The trees of a field stand among those of the list. -/
theorem exists_trees (list : TupleList) {w : WrittenField} (hw : w ∈ list.fields) :
    ∃ before behind, list.trees = before ++ (w.trees ++ behind) := by
  rcases List.mem_append.mp hw with hw | hw
  · obtain ⟨⟨w, comma⟩, hmem, rfl⟩ := List.mem_map.mp hw
    obtain ⟨front, back, hended⟩ := List.append_of_mem hmem
    refine ⟨front.flatMap (fun w => w.1.trees ++ [.leaf w.2]),
      .leaf comma :: (back.flatMap (fun w => w.1.trees ++ [.leaf w.2]) ++
        (list.last.map WrittenField.trees).getD []), ?_⟩
    rw [trees, hended, List.flatMap_append, List.flatMap_cons]
    simp only [List.append_assoc, List.cons_append, List.nil_append]
  · refine ⟨list.ended.flatMap (fun w => w.1.trees ++ [.leaf w.2]), [], ?_⟩
    rw [trees, Option.mem_toList.mp hw, List.append_nil]
    rfl

end TupleList

/-! ### One field -/

namespace Ordered

variable {tree : TokenTree} {rest : List TokenTree}

theorem flatten_eq_cons (tree : TokenTree) : ∃ tokens, tree.flatten = tree.head :: tokens := by
  cases tree with
  | leaf t => exact ⟨[], rfl⟩
  | group opener inner closer => exact ⟨_, rfl⟩

/-- The first tree starts in front of the others. -/
theorem start_lt_start (h : Ordered (tree :: rest)) {other : TokenTree} (hother : other ∈ rest) :
    tree.start < other.start := by
  obtain ⟨tokens, htokens⟩ := flatten_eq_cons tree
  obtain ⟨hbounds, hapart⟩ := h
  rw [flattenAll, htokens, List.cons_append] at hbounds hapart
  have hmem : other.head ∈ flattenAll rest :=
    TokenTree.mem_flattenAll.mpr ⟨other, hother, TokenTree.head_mem_flatten other⟩
  have hbefore := (List.pairwise_cons.mp hapart).1 _ (List.mem_append_right _ hmem)
  have hfirst := hbounds tree.head List.mem_cons_self
  rw [← TokenTree.start_head, ← TokenTree.start_head]
  omega

/-- The trees take up some of the text. -/
theorem start_lt_stop (h : Ordered (tree :: rest)) : tree.start < (rest.getLast?.getD tree).stop := by
  have hfirst := TokenTree.start_head?_flattenAll (tree :: rest)
  have hlast := TokenTree.stop_getLast?_flattenAll (tree :: rest)
  rw [List.getLast?_cons] at hlast
  obtain ⟨t, ht, hstart⟩ := Option.map_eq_some_iff.mp hfirst
  obtain ⟨u, hu, hstop⟩ := Option.map_eq_some_iff.mp hlast
  rw [← hstart, ← hstop]
  obtain ⟨hbounds, hapart⟩ := h
  obtain ⟨tokens, htokens⟩ := List.head?_eq_some_iff.mp ht
  rw [htokens] at hbounds hapart hu
  have hbefore := hbounds t List.mem_cons_self
  rcases List.mem_cons.mp (List.mem_of_getLast? hu) with rfl | hmem
  · exact hbefore
  · have hbehind := (List.pairwise_cons.mp hapart).1 u hmem
    have := hbounds u (List.mem_cons_of_mem _ hmem)
    omega

end Ordered

namespace WrittenField

variable (w : WrittenField)

theorem isNeutral_marks : ∀ tree ∈ w.marks, Entry.IsNeutral tree := by
  intro tree htree
  rw [marks] at htree
  cases hvisibility : w.visibility with
  | none =>
    rw [hvisibility] at htree
    cases htree
  | some v =>
    obtain ⟨hpub, hrestriction⟩ := w.isVisibility v hvisibility
    rw [hvisibility] at htree
    rcases List.mem_cons.mp htree with rfl | htree
    · exact Entry.isNeutral_of_ident (Token.kind_of_isWord hpub)
    · obtain ⟨g, hg, rfl⟩ := Option.map_eq_some_iff.mp (Option.mem_toList.mp htree)
      exact Entry.isNeutral_of_mark (hrestriction g hg).1 (by decide)

/-- The comma behind a field ends it. -/
theorem depthBehind_trees : Entry.depthBehind 0 w.trees = some 0 := by
  rw [trees, Entry.depthBehind_append (Entry.depthBehind_eq_self (OuterAttribute.isNeutral _) 0),
    Entry.depthBehind_append (Entry.depthBehind_eq_self w.isNeutral_marks 0)]
  exact w.isType

/-- The visibility is taken off, and parentheses behind a bare `pub` with it. -/
theorem dropVisibility_eq :
    Entry.dropVisibility (w.marks ++ w.type) = if w.hidesType then w.more else w.type := by
  obtain ⟨-, hfirst⟩ := w.isFirst
  rw [marks, hidesType, type]
  cases hvisibility : w.visibility with
  | none =>
    cases hkind : w.first with
    | leaf t =>
      rw [hkind] at hfirst
      exact Entry.dropVisibility_of_not_pub hfirst _
    | group opener inner closer => rfl
  | some v =>
    obtain ⟨pub, restriction⟩ := v
    obtain ⟨hpub, hrestriction⟩ := w.isVisibility _ hvisibility
    cases restriction with
    | some g =>
      obtain ⟨hparen, -⟩ := hrestriction g rfl
      simp [Group.tree, Entry.dropVisibility, hpub, hparen]
    | none =>
      cases hkind : w.first with
      | leaf t => simp [Entry.dropVisibility, hpub]
      | group opener inner closer =>
        simp only [Option.map_some, Option.map_none, Option.toList_none, Option.getD_some,
          List.cons_append, List.nil_append, Entry.dropVisibility, hpub, if_true]
        rfl

theorem lead_trees :
    Attribute.lead w.trees = ⟨[], w.attributes.map OuterAttribute.node, w.marks ++ w.type⟩ := by
  refine OuterAttribute.lead_append w.attributes ?_
  rw [marks, type]
  cases hvisibility : w.visibility with
  | none =>
    cases hkind : w.first with
    | leaf t =>
      have hhash := w.isFirst.1
      rw [hkind] at hhash
      exact Attribute.lead_of_not_hash hhash _
    | group opener inner closer => rfl
  | some v =>
    refine Attribute.lead_of_not_hash ?_ _
    rw [Token.isPunct, Token.kind_of_isWord (w.isVisibility v hvisibility).1]
    rfl

/-- **A field is read up to the end of its type, and from its start just if parentheses do not hide
it.** -/
theorem exists_tupleField (horder : Ordered w.trees) {stop : Nat}
    (hstop : ∀ t ∈ flattenAll w.trees, t.stop ≤ stop) (position before : Nat) (comma : Bool) :
    ∃ start, Entry.tupleField position ⟨before, w.trees, stop, comma⟩ =
        some (w.nodeFrom position start) ∧
      (start = w.span.start ↔ w.hidesType = false) := by
  have hlast : Entry.lastStop ⟨before, w.trees, stop, comma⟩ = w.span.stop := by
    rw [Entry.lastStop, trees, type, ← List.append_assoc, List.getLast?_append, List.getLast?_cons]
    rfl
  have hitem : Entry.offsetOf ⟨before, w.trees, stop, comma⟩ (w.marks ++ w.type) = w.itemStart := by
    rw [marks, itemStart, type]
    cases w.visibility <;> rfl
  have hmore : (w.marks ++ w.type).isEmpty = false := by simp [type]
  refine ⟨Entry.offsetOf ⟨before, w.trees, stop, comma⟩ (if w.hidesType then w.more else w.type),
    ?_, ?_⟩
  · simp only [Entry.tupleField, w.lead_trees, Entry.isTrailing, hmore, Bool.false_and,
      Bool.false_eq_true, if_false, hlast, w.dropVisibility_eq, hitem]
    rw [Entry.node, nodeFrom, start, List.head?_map, Option.map_map]
    rfl
  · cases hhides : w.hidesType with
    | false => exact iff_of_true rfl rfl
    | true =>
      refine iff_of_false (Nat.ne_of_gt ?_) (by decide)
      have htype : Ordered (w.first :: w.more) := (horder.right (a := _)).right
      cases hbehind : w.more with
      | cons other rest => exact htype.start_lt_start (hbehind ▸ List.mem_cons_self)
      | nil =>
        have hmem : w.first.head ∈ flattenAll w.trees := by
          refine TokenTree.mem_flattenAll.mpr ⟨w.first, ?_, TokenTree.head_mem_flatten _⟩
          simp [trees, type]
        have hbefore := horder.bounds _ hmem
        have hend := hstop _ hmem
        have hstart := w.first.start_head
        show w.first.start < stop
        omega

end WrittenField

/-! ### A row of fields -/

open Entry (divide tupleFields)

/-- The first entry of several is read as the field it is written as just if its type is not hidden. -/
theorem tupleFields_cons_iff {w : WrittenField} (horder : Ordered w.trees) {stop : Nat}
    (hstop : ∀ t ∈ flattenAll w.trees, t.stop ≤ stop) {position before : Nat} {comma : Bool}
    {entries : List Entry} {others : List Node} :
    tupleFields position (⟨before, w.trees, stop, comma⟩ :: entries) = w.node position :: others ↔
      w.hidesType = false ∧ tupleFields (position + 1) entries = others := by
  obtain ⟨start, hfield, hstart⟩ := w.exists_tupleField horder hstop position before comma
  have hnode : w.nodeFrom position start = w.node position ↔ start = w.span.start := by
    constructor
    · intro hnode
      injection hnode with hshape
      injection hshape with _ hspan
      exact (Span.mk.inj hspan).1
    · exact fun h => h ▸ rfl
  rw [tupleFields, hfield, List.cons.injEq, hnode, hstart]

/-- **The fields of a list are read as they are written just if no type is hidden.** -/
theorem tupleFields_eq_mapIdx_iff {ended : List (WrittenField × Token)} {last : Option WrittenField}
    (hcomma : ∀ w ∈ ended, w.2.isPunct "," = true) {position before stop : Nat}
    (horder : Ordered (ended.flatMap (fun w => w.1.trees ++ [.leaf w.2]) ++
      (last.map WrittenField.trees).getD []))
    (hstop : ∀ t ∈ flattenAll (ended.flatMap (fun w => w.1.trees ++ [.leaf w.2]) ++
      (last.map WrittenField.trees).getD []), t.stop ≤ stop) :
    tupleFields position (divide before stop 0 []
        (ended.flatMap (fun w => w.1.trees ++ [.leaf w.2]) ++
          (last.map WrittenField.trees).getD [])) =
        (ended.map Prod.fst ++ last.toList).mapIdx (fun i w => w.node (position + i)) ↔
      ∀ w ∈ ended.map Prod.fst ++ last.toList, w.hidesType = false := by
  induction ended generalizing position before with
  | nil =>
    cases last with
    | none => exact iff_of_true rfl (List.forall_mem_nil _)
    | some w =>
      have hne : w.trees ≠ [] := by simp [WrittenField.trees, WrittenField.type]
      simp only [List.flatMap_nil, List.nil_append, Option.map_some, Option.getD_some, List.map_nil,
        Option.toList_some, List.mapIdx_cons, List.mapIdx_nil, Nat.add_zero,
        List.forall_mem_singleton] at horder hstop ⊢
      rw [Entry.divide_of_depth w.depthBehind_trees hne, tupleFields_cons_iff horder hstop]
      exact and_iff_left rfl
  | cons w ended ih =>
    obtain ⟨w, comma⟩ := w
    obtain ⟨hw, hended⟩ := List.forall_mem_cons.mp hcomma
    simp only [List.flatMap_cons, List.append_assoc, List.cons_append, List.nil_append, List.map_cons,
      List.mapIdx_cons, Nat.add_zero, List.forall_mem_cons] at horder hstop ⊢
    have hbefore : ∀ t ∈ flattenAll w.trees, t.stop ≤ (TokenTree.leaf comma).start := by
      intro t ht
      have hapart := horder.apart
      rw [TokenTree.flattenAll_append] at hapart
      exact (List.pairwise_append.mp hapart).2.2 t ht comma List.mem_cons_self
    have hrest : ∀ t ∈ flattenAll (ended.flatMap (fun w => w.1.trees ++ [.leaf w.2]) ++
        (last.map WrittenField.trees).getD []), t.stop ≤ stop := by
      intro t ht
      refine hstop t ?_
      rw [TokenTree.flattenAll_append]
      exact List.mem_append_right _ (List.mem_cons_of_mem comma ht)
    have hnumbers : (fun i (v : WrittenField) => v.node (position + (i + 1))) =
        fun i v => v.node (position + 1 + i) := by
      funext i v
      rw [Nat.add_right_comm, Nat.add_assoc]
    have hmark : (TokenTree.leaf comma).isPunct "," = true := hw
    rw [Entry.divide_at_comma w.depthBehind_trees hmark, tupleFields_cons_iff horder.left hbefore, hnumbers,
      ih hended (Ordered.right (a := [.leaf comma]) horder.right) hrest]

end ContractSync.Rust
