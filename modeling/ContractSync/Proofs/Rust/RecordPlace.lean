import ContractSync.Proofs.Rust.Forest
import Mathlib.Data.List.Pairwise

/-!
# Where the fields of records stand

No struct stands in another one: **the structs of a text stand one behind the other, at whatever depth of
modules** (`Items.structs_apart`). The fields of a record stand in its body, each with its type
(`Items.record_stands`).
-/

namespace ContractSync.Rust

open Attribute (lead)
open TokenTree (Row flatten flattenAll)

variable {trees : List TokenTree} {nodes : List Node} {low high : Nat}

/-! ### Structs -/

namespace Node

/-- The node is a struct. -/
def isStruct (n : Node) : Bool := n.itemKind? == some .struct_

/-- Where no items are, no structs are. -/
theorem filter_isStruct_of_isPlain {nodes : List Node} (h : ∀ n ∈ nodes, n.IsPlain) :
    (walkAll nodes).filter isStruct = [] := by
  refine List.filter_eq_nil_iff.mpr ?_
  intro m hm
  obtain ⟨n, hn, hm⟩ := mem_walkAll.mp hm
  rw [isStruct, h n hn m hm]
  exact Bool.false_ne_true

theorem type?_of_isAttribute {n : Node} (h : n.isAttribute = true) : n.type? = none := by
  rw [Node.isAttribute] at h
  rw [Node.type?]
  split
  · rename_i hshape
    rw [hshape] at h
    cases h
  · rfl

end Node

/-- The structs of an item: the item itself, or those that it holds. -/
theorem Item.filter_isStruct_toNode {item : Item} {trees : List TokenTree} {place : Nat}
    {members inside : List Node} (hmembers : item.members = .ok members) :
    (item.toNode (lead trees).outer place members inside).walk.filter Node.isStruct =
      (if item.kind = .struct_ then [item.toNode (lead trees).outer place members inside] else []) ++
        (Node.walkAll inside).filter Node.isStruct := by
  have houter : (Node.walkAll (lead trees).outer).filter Node.isStruct = [] :=
    Node.filter_isStruct_of_isPlain fun n hn => Attribute.isPlain_of_mem_lead (.inr hn)
  have hmember : (Node.walkAll members).filter Node.isStruct = [] :=
    Node.filter_isStruct_of_isPlain (Item.isPlain_members hmembers)
  have hself : (item.toNode (lead trees).outer place members inside).isStruct =
      decide (item.kind = .struct_) := by
    show (some item.kind == some .struct_) = _
    cases item.kind <;> rfl
  have hwalk : (item.toNode (lead trees).outer place members inside).walk =
      item.toNode (lead trees).outer place members inside ::
        Node.walkAll ((lead trees).outer ++ members ++ inside) := rfl
  rw [hwalk, List.filter_cons, hself, Node.walkAll_append, Node.walkAll_append, List.filter_append,
    List.filter_append, houter, hmember, List.nil_append, List.nil_append]
  by_cases hkind : item.kind = .struct_
  · simp [hkind]
  · simp [hkind]

/-- The trees inside an item stand one behind the other, and end before the item does. -/
theorem Item.Standing.row_inside {item : Item} (h : item.Standing trees low high) :
    ∃ first last, Row item.inside first last ∧ last ≤ item.stop := by
  rw [Item.inside]
  split
  · cases hbody : item.body with
    | none => exact ⟨item.stop, item.stop, Nat.le_refl _, Nat.le_refl _⟩
    | some b =>
      obtain ⟨-, ⟨-, hinner, hcloser⟩, hle⟩ := h.body b hbody
      exact ⟨_, _, hinner, Nat.le_trans (Nat.le_of_lt hcloser) hle⟩
  · exact ⟨item.stop, item.stop, Nat.le_refl _, Nat.le_refl _⟩

/-- **The structs of a text stand one behind the other.** -/
theorem Items.structs_apart (h : Items trees nodes) (hrow : Row trees low high) :
    Node.Apart ((Node.walkAll nodes).filter Node.isStruct) := by
  have hinner : ∀ trees : List TokenTree, (Node.walkAll (lead trees).inner).filter Node.isStruct = [] :=
    fun trees => Node.filter_isStruct_of_isPlain fun n hn => Attribute.isPlain_of_mem_lead (.inl hn)
  have houter : ∀ trees : List TokenTree, (Node.walkAll (lead trees).outer).filter Node.isStruct = [] :=
    fun trees => Node.filter_isStruct_of_isPlain fun n hn => Attribute.isPlain_of_mem_lead (.inr hn)
  -- The items in front end where those behind begin, so only what one item holds has to be looked at.
  induction h generalizing low high with
  | @done trees hrest =>
    rw [Node.walkAll_append, List.filter_append, hinner, houter]
    exact .nil
  | @semicolon trees rest tree nodes hrest hsemi following ih =>
    rw [Node.walkAll_append, List.filter_append, hinner, List.nil_append]
    exact ih (hrow.of_suffix ((List.suffix_cons ..).trans (hrest ▸ Attribute.rest_lead_suffix trees)))
  | @item stop trees rest tree item members inside nodes hrest hsemi hread hmembers held following
      ihheld ihfollowing =>
    obtain ⟨mid, hlead⟩ := Attribute.standing_lead hrow
    have hbehind := hlead.rest
    rw [hrest] at hbehind
    have hstanding := Item.standing_of_read hread hbehind
    obtain ⟨first, last, hinside, hlast⟩ := hstanding.row_inside
    have hfollowing : ∀ n ∈ Node.walkAll nodes, item.stop ≤ n.start :=
      following.le_start fun t ht => (hstanding.rest.bounds t ht).1
    rw [Node.walkAll_append, List.filter_append, hinner, List.nil_append, Node.walkAll, List.filter_append,
      Item.filter_isStruct_toNode hmembers]
    refine List.pairwise_append.mpr ⟨?_, ihfollowing hstanding.rest, fun m hm n hn =>
      Nat.le_trans ?_ (hfollowing n (List.mem_filter.mp hn).1)⟩
    · split
      · rename_i hkind
        rw [Item.inside_of_not_isBlock (by rw [Item.isBlock, hkind]; rfl)] at held
        rw [held.eq_nil]
        exact List.pairwise_singleton _ _
      · exact ihheld hinside
    · rcases List.mem_append.mp hm with hm | hm
      · split at hm
        · rw [List.mem_singleton.mp hm]
          exact Nat.le_refl item.stop
        · cases hm
      · exact held.stop_le (fun t ht => Nat.le_trans (hinside.bounds t ht).2.2 hlast) m (List.mem_filter.mp hm).1

/-! ### Fields -/

namespace Entry

/-- The type of a field stands in the field and ends with it. -/
theorem type_bounds {entry : Entry} {f : Node} {s : Span} (h : recordField entry = .ok (some f))
    (hrow : Row entry.trees entry.before entry.stop) (htype : f.type? = some s) :
    f.start ≤ s.start ∧ s.stop = f.stop := by
  rcases recordField_eq_ok.mp h with ⟨-, h⟩ | ⟨name, colon, type, hfield, h⟩
  · cases h
  cases h
  obtain rfl : Span.mk (entry.offsetOf type) entry.lastStop = s := Option.some.inj htype
  refine ⟨?_, rfl⟩
  obtain ⟨mid, hlead⟩ := Attribute.standing_lead hrow
  obtain ⟨hdrop, -, -, hne⟩ := hfield
  have hsuffix : type <:+ (lead entry.trees).rest :=
    (List.IsSuffix.trans ⟨[.leaf name, colon], by rw [hdrop]; rfl⟩
      (Item.dropVisibility_suffix (lead entry.trees).rest))
  have hbehind := hlead.rest
  -- What stands behind the attributes begins where the field does, attributes aside.
  cases hrest : (lead entry.trees).rest with
  | nil =>
    rw [hrest] at hsuffix
    exact absurd (List.suffix_nil.mp hsuffix) hne
  | cons tree rest =>
    rw [hrest] at hbehind hsuffix
    have hfirst : Row (tree :: rest) tree.start entry.stop := ⟨Nat.le_refl _, hbehind.2⟩
    have htypeStart := (offsetOf_bounds
      (hsuffix.trans (hrest ▸ Attribute.rest_lead_suffix entry.trees)) hne (hfirst.of_suffix hsuffix)).1
    have hstart := (hlead.start hbehind.1).2.1
    have hoffset : entry.offsetOf (lead entry.trees).rest = tree.start := by
      rw [hrest]
      rfl
    show ((lead entry.trees).outer.head?.map Node.start).getD (entry.offsetOf (lead entry.trees).rest) ≤ _
    rw [hoffset]
    exact Nat.le_trans hstart htypeStart

theorem exists_entry_of_mem_nodes {read : Entry → Except Failure (Option Node)} {entries : List Entry}
    {found : List Node} (h : Entry.nodes read entries = .ok found) {n : Node}
    (hn : n ∈ found) : ∃ entry ∈ entries, read entry = .ok (some n) := by
  obtain ⟨results, hresults, h⟩ := bind_eq_ok.mp h
  rw [pure_eq_ok.mp h, List.mem_filterMap] at hn
  obtain ⟨o, ho, rfl⟩ := hn
  exact exists_of_mem_mapM hresults _ ho

end Entry

/-- The fields of a record stand in its body, their types apart from each other. -/
structure StandsAround (n : Node) (body : Span) : Prop where
  start : n.start ≤ body.start
  solid : body.start < body.stop
  stop : body.stop ≤ n.stop
  types : ∀ f ∈ n.children, ∀ s, f.type? = some s → body.start < s.start ∧ s.stop ≤ body.stop
  apart : ∀ f ∈ n.children, ∀ g ∈ n.children, f ≠ g → ∀ s t, f.type? = some s → g.type? = some t →
    s.stop ≤ t.start ∨ t.stop ≤ s.start

/-- Fields that are read one behind the other. -/
theorem StandsAround.of_forest {n : Node} {attributes found : List Node} {b : Group} {source : List Char}
    (hstart : n.start ≤ b.opener.start) (hstop : b.closer.start ≤ n.stop) (hsolid : b.tree.IsSolid)
    (hchildren : n.children = attributes ++ found) (hattributes : ∀ a ∈ attributes, a.isAttribute = true)
    (hfound : Entry.nodes Entry.recordField b.entries = .ok found)
    (hforest : Forest source false found b.opener.stop b.closer.start) : StandsAround n b.span := by
  have hmem : ∀ f ∈ n.children, ∀ s, f.type? = some s → f ∈ found := by
    intro f hf s hs
    rw [hchildren] at hf
    refine (List.mem_append.mp hf).resolve_left fun ha => ?_
    rw [Node.type?_of_isAttribute (hattributes f ha)] at hs
    cases hs
  have htype : ∀ f ∈ found, ∀ s, f.type? = some s → f.start ≤ s.start ∧ s.stop = f.stop := by
    intro f hf s hs
    obtain ⟨entry, hentry, hread⟩ := Entry.exists_entry_of_mem_nodes hfound hf
    exact Entry.type_bounds hread ((Entry.standing_divide 0 [] hsolid.2.1).1 entry hentry).row hs
  have hinner : b.opener.stop ≤ b.closer.start := hsolid.2.1.le
  refine ⟨hstart, Nat.lt_of_lt_of_le hsolid.1 hinner, hstop, fun f hf s hs => ?_,
    fun f hf g hg hne s t hs ht => ?_⟩
  · have hin := hforest.inside f (hmem f hf s hs)
    have hbounds := htype f (hmem f hf s hs) s hs
    have hopener := hsolid.1
    show b.opener.start < s.start ∧ s.stop ≤ b.closer.start
    omega
  · have hordered : ∀ f ∈ found, f ∈ found.filter (Node.isOrdered false) := by
      intro f hf
      obtain ⟨entry, -, hread⟩ := Entry.exists_entry_of_mem_nodes hfound hf
      have hnot := (Entry.isMember_recordField hread).not_isAttribute
      refine List.mem_filter.mpr ⟨hf, ?_⟩
      rw [Node.isAttribute] at hnot
      rw [Node.isOrdered, Node.isInner, Bool.false_and, Bool.not_false, Bool.and_true]
      split
      · rename_i hshape
        rw [hshape] at hnot
        cases hnot
      · rfl
    have hsome : (found.filter (Node.isOrdered false)).Pairwise fun f g => f.Before g ∨ g.Before f :=
      hforest.order.imp .inl
    have hsymm : Std.Symm fun f g : Node => f.Before g ∨ g.Before f := ⟨fun _ _ => Or.symm⟩
    have hpair := hsome.forall (hordered f (hmem f hf s hs)) (hordered g (hmem g hg t ht)) hne
    have hf := htype f (hmem f hf s hs) s hs
    have hg := htype g (hmem g hg t ht) t ht
    rcases hpair with hbefore | hbefore
    · have := hbefore.2
      omega
    · have := hbefore.2
      omega

/-- The node is that of an item which is read from some of the trees. -/
theorem Items.exists_item {n : Node} {kind : ItemKind} (h : Items trees nodes) (hrow : Row trees low high)
    (hn : n ∈ Node.walkAll nodes) (hkind : n.itemKind? = some kind) :
    ∃ own first last stop tree rest item members inside, Row own first last ∧
      (∀ t ∈ flattenAll own, t ∈ flattenAll trees) ∧ (lead own).rest = tree :: rest ∧
      Item.read stop (tree :: rest) = .ok item ∧ item.members = .ok members ∧ Items item.inside inside ∧
      n = item.toNode (lead own).outer tree.start members inside := by
  have hamong := h.among hn hkind
  clear h hn
  induction hamong generalizing low high with
  | @next stop trees rest tree item members inside nodes hrest hsemi hread hmembers held _ hnode =>
    exact ⟨trees, low, high, stop, tree, rest, item, members, inside, hrow, fun _ => id, hrest, hread, hmembers,
      held, hnode.symm⟩
  | behind_semicolon hrest hsemi hsuffix _ ih | behind_item hrest hsemi hread hmembers held hsuffix _ ih =>
    obtain ⟨own, first, last, stop, tree, rest, item, members, inside, hown, hsubset, hitem⟩ :=
      ih (hrow.of_suffix hsuffix)
    exact ⟨own, first, last, stop, tree, rest, item, members, inside, hown,
      fun t ht => TokenTree.flattenAll_subset hsuffix.subset (hsubset t ht), hitem⟩
  | @in_block stop trees rest tree item b inside nodes hrest hsemi hread following hisBlock hb _ ih =>
    obtain ⟨mid, hlead⟩ := Attribute.standing_lead hrow
    have hbehind := hlead.rest
    rw [hrest] at hbehind
    have hsolid := ((Item.standing_of_read hread hbehind).body b hb).2.1
    obtain ⟨-, front, behind, rfl⟩ := Item.body_mem hrest hread hb
    obtain ⟨own, first, last, stop, tree, rest, item, members, inside, hown, hsubset, hitem⟩ :=
      ih hsolid.2.1
    refine ⟨own, first, last, stop, tree, rest, item, members, inside, hown, fun t ht => ?_, hitem⟩
    rw [Group.tree, TokenTree.flattenAll_append_group]
    exact List.mem_append_right _ (List.mem_cons_of_mem _ (List.mem_append_left _ (hsubset t ht)))

/-- A struct is no block of items. -/
theorem Item.inside_eq_nil {item : Item} {inside : List Node} (hkind : item.kind = .struct_)
    (held : Items item.inside inside) : inside = [] := by
  have hblock : item.isBlock = false := by
    rw [Item.isBlock, hkind]
    rfl
  rw [Item.inside_of_not_isBlock hblock] at held
  exact held.eq_nil

/-- A struct with a field has a body. -/
theorem Items.exists_body {n f : Node} {s : Span} (h : Items trees nodes) (hrow : Row trees low high)
    (hn : n ∈ Node.walkAll nodes) (hkind : n.itemKind? = some .struct_) (hf : f ∈ n.children)
    (htype : f.type? = some s) : ∃ body, n.body? = some body := by
  obtain ⟨own, -, -, stop, tree, rest, item, members, inside, -, -, hrest, hread, hmembers, held, rfl⟩ :=
    h.exists_item hrow hn hkind
  cases hbody : item.body with
  | some b => exact ⟨b.span, congrArg (Option.map Group.span) hbody⟩
  | none =>
    obtain rfl := Item.members_of_none hmembers hbody
    obtain rfl := Item.inside_eq_nil (Option.some.inj hkind) held
    have houter : f ∈ (lead own).outer := by
      have hmem : f ∈ (lead own).outer ++ [] ++ [] := hf
      rwa [List.append_nil, List.append_nil] at hmem
    obtain ⟨_, _, _, _, rfl⟩ := Attribute.mem_lead (.inr houter)
    cases htype

/-- **The fields of a record stand in its body.** -/
theorem Items.record_stands {source : List Char} {n : Node} {body : Span} (h : Items trees nodes)
    (hrow : Row trees low high) (hchar : ∀ t ∈ flattenAll trees, source[t.start]? = t.text.toList.head?)
    (hn : n ∈ Node.walkAll nodes) (hkind : n.itemKind? = some .struct_) (hbody : n.body? = some body)
    (hbrace : source[body.start]? = some '\x7b') : StandsAround n body := by
  obtain ⟨own, low, high, stop, tree, rest, item, members, inside, hrow, hsubset, hrest, hread, hmembers, held,
    rfl⟩ := h.exists_item hrow hn hkind
  obtain ⟨mid, hlead⟩ := Attribute.standing_lead hrow
  have hbehind := hlead.rest
  rw [hrest] at hbehind
  obtain ⟨b, hb, rfl⟩ := Option.map_eq_some_iff.mp hbody
  obtain ⟨hopener, hsolid, hcloser⟩ := (Item.standing_of_read hread hbehind).body b hb
  have hstruct : item.kind = .struct_ := Option.some.inj hkind
  obtain rfl := Item.inside_eq_nil hstruct held
  obtain ⟨-, front, behind, rfl⟩ := Item.body_mem hrest hread hb
  -- A brace in the text is no parenthesis.
  have hrecord : b.isTuple = false := by
    have hopen := hchar b.opener (hsubset _ (by simp [TokenTree.flattenAll_append_group, Group.tree]))
    rw [← Bool.not_eq_true, Group.isTuple, Token.isPunct, Bool.and_eq_true, beq_iff_eq, beq_iff_eq]
    rintro ⟨-, htext⟩
    rw [htext, String.toList_ofList] at hopen
    cases hbrace.symm.trans hopen
  have htuple : item.isTuple = false := by
    rw [Item.isTuple, hb, Option.any_some, hrecord, Bool.and_false]
  have hforest : Forest source item.isTuple members b.opener.stop b.closer.start :=
    Item.forest_members hmembers hb hsolid
  rw [htuple] at hforest
  have hfound : Entry.nodes Entry.recordField b.entries = .ok members := by
    rwa [Item.members_of_body hb, hstruct, Group.members_of_record hrecord] at hmembers
  have hplace := (hlead.start hbehind.1).2.1
  have hlt : b.closer.start < b.closer.stop := hsolid.2.2
  refine .of_forest (Nat.le_trans hplace (Nat.le_of_lt hopener)) (Nat.le_trans (Nat.le_of_lt hlt) hcloser)
    hsolid (List.append_nil _) ?_ hfound hforest
  intro a ha
  obtain ⟨_, _, _, _, rfl⟩ := Attribute.mem_lead (.inr ha)
  rfl

end ContractSync.Rust
