import ContractSync.Proofs.Rust.MoveTree

/-!
# Nodes that get more parts

`grow e p added` carries a node and gives the item whose body opens at `p` the nodes `added` behind its
parts. Where no body opens at `p` it is `carry e`, as it is with nothing to add. A node that is no item
and holds none is plain: attributes, fields and variants are.
-/

namespace ContractSync.Rust

open Attribute (lead)

variable {e : Edges} {p : Nat} {added : List Node}

/-! ### Nodes that hold no items -/

namespace Node

/-- Neither the node nor anything in it is an item. -/
def IsPlain (n : Node) : Prop := ∀ m ∈ n.walk, m.itemKind? = none

/-- The node is one of a field or a variant, and holds no item. -/
structure IsMember (n : Node) : Prop where
  kind : n.isField = true ∨ n.isVariant = true
  plain : n.IsPlain

theorem itemKind?_of_member {n : Node} (h : n.isField = true ∨ n.isVariant = true) :
    n.itemKind? = none := by
  rw [isField, isVariant] at h
  rw [itemKind?]
  cases hshape : n.shape <;> simp_all

theorem IsMember.not_isAttribute {n : Node} (h : n.IsMember) : n.isAttribute = false := by
  have hkind := h.kind
  rw [isField, isVariant] at hkind
  rw [isAttribute]
  cases hshape : n.shape <;> simp_all

end Node

theorem Attribute.isPlain_node (start : Nat) (inner : Bool) (trees : List TokenTree)
    (closer : Token) : (node start inner trees closer).IsPlain := by
  intro m hm
  rcases Node.mem_walk_mk.mp hm with rfl | hm
  · rfl
  · cases hm

theorem Attribute.isPlain_of_mem_lead {trees : List TokenTree} {n : Node}
    (h : n ∈ (lead trees).inner ∨ n ∈ (lead trees).outer) : n.IsPlain := by
  obtain ⟨start, inner, content, closer, rfl⟩ := mem_lead h
  exact isPlain_node start inner content closer

namespace Entry

/-- A field or a variant with its attributes. -/
theorem isMember_node {shape : Shape} {trees : List TokenTree} {itemStart stop : Nat}
    (h : (node shape (lead trees).outer itemStart stop).isField = true ∨
      (node shape (lead trees).outer itemStart stop).isVariant = true) :
    (node shape (lead trees).outer itemStart stop).IsMember := by
  refine ⟨h, fun m hm => ?_⟩
  rcases Node.mem_walk_mk.mp hm with rfl | hm
  · exact Node.itemKind?_of_member h
  · obtain ⟨a, ha, hm⟩ := Node.mem_walkAll.mp hm
    exact Attribute.isPlain_of_mem_lead (.inr ha) m hm

theorem isMember_tupleFields {entries : List Entry} {position : Nat} {n : Node}
    (h : n ∈ tupleFields position entries) : n.IsMember := by
  induction entries generalizing position with
  | nil => cases h
  | cons entry rest ih =>
    rw [tupleFields] at h
    split at h
    · rename_i field hfield
      rcases List.mem_cons.mp h with rfl | h
      · simp only [tupleField] at hfield
        split at hfield
        · cases hfield
        · cases hfield
          exact isMember_node (.inl rfl)
      · exact ih h
    · cases h

theorem isMember_recordField {entry : Entry} {n : Node} (h : recordField entry = .ok (some n)) :
    n.IsMember := by
  rcases recordField_eq_ok.mp h with ⟨-, h⟩ | ⟨name, colon, type, -, h⟩
  · cases h
  · cases h
    exact isMember_node (.inl rfl)

theorem isMember_variant {entry : Entry} {n : Node} (h : variant entry = .ok (some n)) :
    n.IsMember := by
  rw [variant] at h
  split at h
  · cases h
  · obtain ⟨_, -, h⟩ := bind_eq_ok.mp h
    cases h
    exact isMember_node (.inr rfl)

/-- What holds of the node of each entry holds of all nodes. -/
theorem forall_nodes {read : Entry → Except Failure (Option Node)} {P : Node → Prop}
    {entries : List Entry} {found : List Node}
    (hread : ∀ entry n, read entry = .ok (some n) → P n)
    (h : nodes read entries = .ok found) : ∀ n ∈ found, P n := by
  induction entries generalizing found with
  | nil =>
    cases h
    nofun
  | cons entry rest ih =>
    obtain ⟨o, more, ho, hmore, rfl⟩ := nodes_cons_eq_ok.mp h
    intro n hn
    rcases List.mem_append.mp hn with hn | hn
    · obtain rfl : o = some n := by simpa using hn
      exact hread entry n ho
    · exact ih hmore n hn

end Entry

/-- The members of a struct or an enum are fields and variants. -/
theorem Item.isMember_members {item : Item} {found : List Node} (h : item.members = .ok found) :
    ∀ n ∈ found, n.IsMember := by
  obtain ⟨kind, name, body, stop, rest⟩ := item
  cases body with
  | none => cases kind <;> (cases h; nofun)
  | some b =>
    cases kind with
    | struct_ =>
      simp only [Item.members] at h
      split at h
      · cases h
        exact fun n hn => Entry.isMember_tupleFields hn
      · exact Entry.forall_nodes (fun _ _ => Entry.isMember_recordField) h
    | enum_ => exact Entry.forall_nodes (fun _ _ => Entry.isMember_variant) h
    | function | use | module | impl | trait_ | typeAlias | other =>
      cases h
      nofun

/-- Fields and variants are no items. -/
theorem Item.isPlain_members {item : Item} {found : List Node} (h : item.members = .ok found) :
    ∀ n ∈ found, n.IsPlain := fun n hn => (Item.isMember_members h n hn).plain

/-! ### Growing -/

/-- The item's body opens at the position. -/
def Shape.opensAt (p : Nat) : Shape → Bool
  | .item _ _ (some body) => body.start == p
  | _ => false

namespace Node

mutual

/-- The node carried, with more parts for the item whose body opens at `p`. -/
def grow (e : Edges) (p : Nat) (added : List Node) : Node → Node
  | mk shape start itemStart stop children =>
    mk (shape.carry e) (e.start start) (e.start itemStart) (e.stop stop)
      (growAll e p added children ++ if shape.opensAt p then added else [])

/-- The nodes carried, with more parts for the item whose body opens at `p`. -/
def growAll (e : Edges) (p : Nat) (added : List Node) : List Node → List Node
  | [] => []
  | n :: rest => grow e p added n :: growAll e p added rest

end

theorem growAll_eq_map (nodes : List Node) :
    growAll e p added nodes = nodes.map (grow e p added) := by
  induction nodes with
  | nil => rfl
  | cons n rest ih => rw [growAll, ih, List.map_cons]

theorem grow_mk (shape : Shape) (start itemStart stop : Nat) (children : List Node) :
    grow e p added (mk shape start itemStart stop children) =
      mk (shape.carry e) (e.start start) (e.start itemStart) (e.stop stop)
        (children.map (grow e p added) ++ if shape.opensAt p then added else []) := by
  rw [grow, growAll_eq_map]

@[simp] theorem shape_grow (n : Node) : (n.grow e p added).shape = n.shape.carry e := by
  cases n
  rfl

theorem children_grow (n : Node) :
    (n.grow e p added).children =
      n.children.map (grow e p added) ++ if n.shape.opensAt p then added else [] := by
  cases n
  rw [grow_mk]
  rfl

@[simp] theorem itemKind?_grow (n : Node) : (n.grow e p added).itemKind? = n.itemKind? := by
  rw [itemKind?, itemKind?, shape_grow]
  cases n.shape <;> rfl

@[simp] theorem name?_grow (n : Node) : (n.grow e p added).name? = n.name? := by
  rw [name?, name?, shape_grow]
  cases n.shape <;> rfl

theorem opensAt_iff {n : Node} : n.shape.opensAt p = true ↔ ∃ body, n.body? = some body ∧
    body.start = p := by
  rw [body?]
  match n.shape with
  | .item _ _ none | .item _ _ (some _) | .file | .attribute .. | .field .. | .variant .. =>
    simp [Shape.opensAt]

mutual

/-- With nothing to add nodes are carried only. -/
theorem grow_nil (n : Node) : n.grow e p [] = n.carry e := by
  cases n with
  | mk shape start itemStart stop children => rw [grow, carry, growAll_nil, ite_self, List.append_nil]

theorem growAll_nil (nodes : List Node) : growAll e p [] nodes = carryAll e nodes := by
  cases nodes with
  | nil => rfl
  | cons n rest => rw [growAll, carryAll, grow_nil, growAll_nil]

end

mutual

/-- Where no body opens nodes are carried only. -/
theorem grow_eq_carry {n : Node} (h : ∀ m ∈ n.walk, m.shape.opensAt p = false) :
    n.grow e p added = n.carry e := by
  cases n with
  | mk shape start itemStart stop children =>
    simp only [walk, List.forall_mem_cons] at h
    have hshape : shape.opensAt p = false := h.1
    rw [grow, carry, growAll_eq_carryAll h.2, hshape, if_neg Bool.false_ne_true, List.append_nil]

theorem growAll_eq_carryAll {nodes : List Node}
    (h : ∀ m ∈ walkAll nodes, m.shape.opensAt p = false) :
    growAll e p added nodes = carryAll e nodes := by
  cases nodes with
  | nil => rfl
  | cons n rest =>
    simp only [walkAll, List.forall_mem_append] at h
    rw [growAll, carryAll, grow_eq_carry h.1, growAll_eq_carryAll h.2]

end

theorem map_grow_eq_carry {nodes : List Node}
    (h : ∀ m ∈ walkAll nodes, m.shape.opensAt p = false) :
    nodes.map (grow e p added) = nodes.map (carry e) := by
  rw [← growAll_eq_map, growAll_eq_carryAll h, carryAll_eq_map]

theorem opensAt_eq_false_of_itemKind? {n : Node} (h : n.itemKind? = none) :
    n.shape.opensAt p = false := by
  rw [itemKind?] at h
  cases hshape : n.shape with
  | item =>
    rw [hshape] at h
    cases h
  | _ => rfl

/-- Plain nodes have no body. -/
theorem map_grow_of_isPlain {nodes : List Node} (h : ∀ n ∈ nodes, n.IsPlain) :
    nodes.map (grow e p added) = nodes.map (carry e) := by
  refine map_grow_eq_carry fun m hm => ?_
  obtain ⟨n, hn, hm⟩ := mem_walkAll.mp hm
  exact opensAt_eq_false_of_itemKind? (h n hn m hm)

mutual

/-- What is added holds no items, so the items are those that were there. -/
theorem items_grow (hadded : ∀ a ∈ added, a.IsPlain) (n : Node) :
    (n.grow e p added).walk.filter (·.itemKind?.isSome) =
      (n.walk.filter (·.itemKind?.isSome)).map (grow e p added) := by
  cases n with
  | mk shape start itemStart stop children =>
    have hmore : (walkAll (if shape.opensAt p then added else [])).filter
        (·.itemKind?.isSome) = [] := by
      refine List.filter_eq_nil_iff.mpr fun m hm => ?_
      split at hm
      · obtain ⟨a, ha, hm⟩ := mem_walkAll.mp hm
        rw [hadded a ha m hm]
        exact Bool.false_ne_true
      · cases hm
    have hkind : (grow e p added (mk shape start itemStart stop children)).itemKind? =
        (mk shape start itemStart stop children).itemKind? := itemKind?_grow _
    rw [grow] at hkind
    rw [grow, walk, walk, List.filter_cons, List.filter_cons, hkind, walkAll_append, List.filter_append,
      hmore, List.append_nil, items_growAll hadded]
    split
    · rw [List.map_cons, grow]
    · rfl

theorem items_growAll (hadded : ∀ a ∈ added, a.IsPlain) (nodes : List Node) :
    (walkAll (growAll e p added nodes)).filter (·.itemKind?.isSome) =
      ((walkAll nodes).filter (·.itemKind?.isSome)).map (grow e p added) := by
  cases nodes with
  | nil => rfl
  | cons n rest =>
    rw [growAll, walkAll, walkAll, List.filter_append, List.filter_append, List.map_append,
      items_grow hadded, items_growAll hadded]

end

end Node

/-! ### Nodes that are read -/

/-- No body opens where no token starts. -/
theorem Items.opensAt_eq_false {trees : List TokenTree} {nodes : List Node} (h : Items trees nodes)
    (hp : ∀ t ∈ TokenTree.flattenAll trees, t.start ≠ p) :
    ∀ n ∈ Node.walkAll nodes, n.shape.opensAt p = false := by
  intro n hn
  -- Moving the position moves no token.
  have hcarry := h.carry_eq_self (e := ⟨fun x => if x = p then p + 1 else x, id⟩)
    (fun t ht => Token.carry_eq_self (if_neg (hp t ht)) rfl) n hn
  have hshape := congrArg Node.shape hcarry
  rw [Node.shape_carry] at hshape
  match hn : n.shape with
  | .item kind name (some body) =>
    rw [hn] at hshape
    have hstart : (if body.start = p then p + 1 else body.start) = body.start := by
      injection hshape with _ _ hbody
      injection hbody with hbody
      exact congrArg Span.start hbody
    rw [Shape.opensAt]
    refine beq_false_of_ne fun heq => ?_
    rw [if_pos heq] at hstart
    omega
  | .item _ _ none | .file | .attribute .. | .field .. | .variant .. => rfl

theorem Items.map_grow {trees : List TokenTree} {nodes : List Node} (h : Items trees nodes)
    (hp : ∀ t ∈ TokenTree.flattenAll trees, t.start ≠ p) :
    nodes.map (Node.grow e p added) = nodes.map (Node.carry e) :=
  Node.map_grow_eq_carry (h.opensAt_eq_false hp)

/-- The node of an item that is recast, with more parts. -/
theorem Item.toNode_grow {item : Item} {attributes members inside members' inside' : List Node}
    (hattributes : ∀ a ∈ attributes, a.IsPlain)
    (hparts : (members ++ inside).map (Node.grow e p added) ++
      (if (Shape.item item.kind item.name (item.body.map Group.span)).opensAt p then added else []) =
        members' ++ inside')
    (content : Token → List TokenTree → List TokenTree) (more : List TokenTree) (itemStart : Nat) :
    (item.recast e content more).toNode (attributes.map (Node.carry e)) (e.start itemStart)
        members' inside' =
      (item.toNode attributes itemStart members inside).grow e p added := by
  have hall : (attributes ++ members ++ inside).map (Node.grow e p added) =
      attributes.map (Node.carry e) ++ (members ++ inside).map (Node.grow e p added) := by
    rw [List.append_assoc, List.map_append, Node.map_grow_of_isPlain hattributes]
  rw [toNode_recast, toNode, Node.grow_mk, hall, List.append_assoc, List.append_assoc, ← hparts]

end ContractSync.Rust

/-!
## Finding declarations in a tree that has changed

What is found by name does not depend on positions, nor on fields that an item gets: **in a tree that has
grown the same declarations are found, grown** (`Tree.find?_grow`). A tree that is carried or moved has
grown by nothing (`Tree.find?_carry`, `Tree.find?_move`).
-/

namespace ContractSync.Rust

variable {g : Nat → Nat} {e : Edges} {p : Nat} {added : List Node}

@[simp] theorem Node.body?_carry (n : Node) :
    (n.carry e).body? = n.body?.map (Span.move e.start) := by
  rw [body?, body?, shape_carry]
  cases n.shape <;> rfl

theorem Node.fields_move (n : Node) : (n.move g).fields = n.fields.map (move g) := by
  rw [fields, fields, children_move, List.filter_map]
  congr 2
  funext m
  exact isField_move m

/-- The fields of an item that has grown. -/
theorem Node.fields_grow (n : Node) : (n.grow e p added).fields =
    n.fields.map (grow e p added) ++ if n.shape.opensAt p then added.filter isField else [] := by
  have hfield : isField ∘ grow e p added = isField := by
    funext m
    rw [Function.comp, isField, isField, shape_grow]
    cases m.shape <;> rfl
  rw [fields, fields, children_grow, List.filter_append, List.filter_map, hfield]
  split <;> rfl

theorem Node.attributes_move (n : Node) :
    (n.move g).attributes = n.attributes.map (Node.move g) := by
  have hattribute : ∀ m : Node, (m.move g).isAttribute = m.isAttribute := fun m => by
    rw [isAttribute, isAttribute, shape_move]
    cases m.shape <;> rfl
  rw [attributes, attributes, children_move, List.filter_map]
  congr 2
  exact funext hattribute

theorem Node.field?_move (n : Node) (name : String) :
    (n.move g).field? name = (n.field? name).map (move g) := by
  rw [field?, field?, fields_move, List.find?_map]
  congr 2
  funext m
  rw [Function.comp, name?_move]

theorem Node.mem_children_of_field? {n f : Node} {name : String} (h : n.field? name = some f) :
    f ∈ n.children :=
  (List.mem_filter.mp (List.mem_of_find?_eq_some h)).1

namespace Tree

/-- Where the items of a tree, and those at its top, are those of another tree with a change, so are the
declarations that are found. -/
theorem find?_map {tree after : Tree} {change : Node → Node}
    (hkind : ∀ n, (change n).itemKind? = n.itemKind?) (hname : ∀ n, (change n).name? = n.name?)
    (htop : after.root.children.filter (·.itemKind?.isSome) =
      (tree.root.children.filter (·.itemKind?.isSome)).map change)
    (hnodes : after.nodes.filter (·.itemKind?.isSome) =
      (tree.nodes.filter (·.itemKind?.isSome)).map change)
    (name : String) (kinds : List ItemKind) :
    after.find? name kinds = (tree.find? name kinds).map change := by
  generalize hfound : (fun n : Node => n.itemKind?.any kinds.contains && isNamed name n) = isFound
  have hchange : isFound ∘ change = isFound := by
    funext n
    have hnamed : isNamed name (change n) = isNamed name n := by rw [isNamed, hname, ← isNamed]
    rw [← hfound, Function.comp, hkind, hnamed]
  have hfilter : ∀ nodes : List Node,
      nodes.find? isFound = (nodes.filter (·.itemKind?.isSome)).find? isFound := fun nodes => by
    rw [List.find?_filter, ← hfound]
    congr 1
    funext n
    cases hn : n.itemKind? <;> simp [hn]
  rw [find?, find?, findWhere?, findWhere?, hfound, hfilter, htop, List.find?_map, hchange, ← hfilter,
    hfilter after.nodes, hnodes, List.find?_map, hchange, ← hfilter]
  cases tree.root.children.find? isFound <;> rfl

/-- The same declarations are found in a tree that has grown. -/
theorem find?_grow {tree after : Tree} (h : after.root = tree.root.grow e p added)
    (hadded : ∀ a ∈ added, a.IsPlain) (name : String) (kinds : List ItemKind) :
    after.find? name kinds = (tree.find? name kinds).map (Node.grow e p added) := by
  have hmore : (if tree.root.shape.opensAt p then added else []).filter (·.itemKind?.isSome) = [] := by
    refine List.filter_eq_nil_iff.mpr fun n hn => ?_
    split at hn
    · rw [hadded n hn n n.mem_walk_self]
      exact Bool.false_ne_true
    · cases hn
  have hkind : (fun n : Node => n.itemKind?.isSome) ∘ Node.grow e p added = (·.itemKind?.isSome) :=
    funext fun n => congrArg Option.isSome n.itemKind?_grow
  refine find?_map Node.itemKind?_grow Node.name?_grow ?_ ?_ name kinds
  · rw [h, Node.children_grow, List.filter_append, hmore, List.append_nil, List.filter_map, hkind]
  · rw [nodes, h, Node.items_grow hadded]
    rfl

/-- The same declarations are found in a tree that is carried. -/
theorem find?_carry {tree after : Tree} (h : after.root = tree.root.carry e) (name : String)
    (kinds : List ItemKind) :
    after.find? name kinds = (tree.find? name kinds).map (Node.carry e) := by
  have hgrow : Node.grow e 0 [] = Node.carry e := funext Node.grow_nil
  rw [← hgrow] at h ⊢
  exact find?_grow h nofun name kinds

/-- The same declarations are found in a tree that has moved. -/
theorem find?_move {tree moved : Tree} (h : moved.root = tree.root.move g) (name : String)
    (kinds : List ItemKind) : moved.find? name kinds = (tree.find? name kinds).map (Node.move g) := by
  have hcarry : Node.carry (.same g) = Node.move g := funext Node.carry_same
  rw [← hcarry] at h ⊢
  exact find?_carry h name kinds

/-- A declaration is a node of the tree, of one of the kinds. -/
theorem of_find? {tree : Tree} {name : String} {kinds : List ItemKind} {n : Node}
    (h : tree.find? name kinds = some n) :
    n ∈ tree.nodes ∧ ∃ kind ∈ kinds, n.itemKind? = some kind := by
  obtain ⟨hmem, hfound⟩ : n ∈ tree.nodes ∧
      (n.itemKind?.any kinds.contains && isNamed name n) = true := by
    rw [find?, findWhere?] at h
    cases htop : tree.root.children.find? fun n =>
        n.itemKind?.any kinds.contains && isNamed name n with
    | some m =>
      rw [htop] at h
      cases h
      have hfound := List.find?_some htop
      refine ⟨?_, hfound⟩
      rw [nodes]
      have hmem := Node.mem_walkAll.mpr ⟨n, List.mem_of_find?_eq_some htop, n.mem_walk_self⟩
      cases hroot : tree.root
      rw [hroot] at hmem
      exact List.mem_cons_of_mem _ hmem
    | none =>
      rw [htop] at h
      have hnodes : (tree.nodes.find? fun n =>
          n.itemKind?.any kinds.contains && isNamed name n) = some n := h
      have hfound := List.find?_some hnodes
      exact ⟨List.mem_of_find?_eq_some hnodes, hfound⟩
  rw [Bool.and_eq_true, Option.any_eq_true] at hfound
  obtain ⟨⟨kind, hkind, hcontains⟩, -⟩ := hfound
  exact ⟨hmem, kind, List.contains_iff_mem.mp hcontains, hkind⟩

end Tree

end ContractSync.Rust
