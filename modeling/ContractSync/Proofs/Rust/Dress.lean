import ContractSync.Proofs.Rust.Refill

/-!
# Nodes with other attributes

`dress e p attributes` carries nodes and gives the struct or enum that starts at `p`, behind its attributes,
other ones. Nothing else in the nodes changes, so **by name the same declarations are found, dressed**
(`Tree.find?_dress`).
-/

namespace ContractSync.Rust

open Attribute (lead)
open TokenTree (carryAll flatten flattenAll isNested isNestedAll)

variable {e : Edges} {p : Nat} {attributes : List Node}

/-! ### Dressing nodes -/

namespace Node

/-- The node is a struct or an enum. -/
def isData (n : Node) : Bool := n.itemKind? == some .struct_ || n.itemKind? == some .enum_

/-- A struct or an enum that starts at the position, behind its attributes. -/
def isDataAt (p : Nat) (n : Node) : Bool := n.isData && n.itemStart == p

/-- The node carried, with other attributes. -/
def withAttributes (e : Edges) (attributes : List Node) : Node → Node
  | mk shape _ itemStart stop children =>
    mk (shape.carry e) ((attributes.head?.map Node.start).getD (e.start itemStart)) (e.start itemStart)
      (e.stop stop) (attributes ++ (children.filter (!·.isAttribute)).map (carry e))

mutual

/-- The node carried, with other attributes for the struct or enum that starts at `p`. -/
def dress (e : Edges) (p : Nat) (attributes : List Node) : Node → Node
  | mk shape start itemStart stop children =>
    if (mk shape start itemStart stop children).isDataAt p then
      (mk shape start itemStart stop children).withAttributes e attributes
    else mk (shape.carry e) (e.start start) (e.start itemStart) (e.stop stop) (dressAll e p attributes children)

/-- The nodes carried, with other attributes for the struct or enum that starts at `p`. -/
def dressAll (e : Edges) (p : Nat) (attributes : List Node) : List Node → List Node
  | [] => []
  | n :: rest => dress e p attributes n :: dressAll e p attributes rest

end

theorem dressAll_eq_map (nodes : List Node) :
    dressAll e p attributes nodes = nodes.map (dress e p attributes) := by
  induction nodes with
  | nil => rfl
  | cons n rest ih => rw [dressAll, ih, List.map_cons]

theorem dress_of_isDataAt {n : Node} (h : n.isDataAt p = true) :
    n.dress e p attributes = n.withAttributes e attributes := by
  cases n
  rw [dress, if_pos h]

theorem dress_mk {shape : Shape} {start itemStart stop : Nat} {children : List Node}
    (h : (mk shape start itemStart stop children).isDataAt p = false) :
    dress e p attributes (mk shape start itemStart stop children) =
      mk (shape.carry e) (e.start start) (e.start itemStart) (e.stop stop)
        (children.map (dress e p attributes)) := by
  rw [dress, if_neg (by rw [h]; exact Bool.false_ne_true), dressAll_eq_map]

@[simp] theorem shape_dress (n : Node) : (n.dress e p attributes).shape = n.shape.carry e := by
  cases n
  rw [dress]
  split <;> rfl

@[simp] theorem itemKind?_dress (n : Node) : (n.dress e p attributes).itemKind? = n.itemKind? := by
  rw [itemKind?, itemKind?, shape_dress]
  cases n.shape <;> rfl

@[simp] theorem name?_dress (n : Node) : (n.dress e p attributes).name? = n.name? := by
  rw [name?, name?, shape_dress]
  cases n.shape <;> rfl

/-- The attributes of a dressed declaration. -/
theorem attributes_withAttributes (n : Node) (h : ∀ a ∈ attributes, a.isAttribute = true) :
    (n.withAttributes e attributes).attributes = attributes := by
  cases n with
  | mk shape start itemStart stop parts =>
    have hnone : ((parts.filter (!·.isAttribute)).map (carry e)).filter isAttribute = [] := by
      refine List.filter_eq_nil_iff.mpr fun a ha => ?_
      obtain ⟨m, hm, rfl⟩ := List.mem_map.mp ha
      have hm := (List.mem_filter.mp hm).2
      have hcarry : (m.carry e).isAttribute = m.isAttribute := by
        rw [isAttribute, isAttribute, shape_carry]
        cases m.shape <;> rfl
      rw [hcarry]
      simpa using hm
    rw [withAttributes, Node.attributes, children, List.filter_append, hnone, List.append_nil,
      List.filter_eq_self.mpr h]

theorem start_withAttributes (n : Node) :
    (n.withAttributes e attributes).start =
      (attributes.head?.map Node.start).getD (e.start n.itemStart) := by
  cases n
  rfl

theorem itemStart_withAttributes (n : Node) :
    (n.withAttributes e attributes).itemStart = e.start n.itemStart := by
  cases n
  rfl

theorem isData_of_isPlain {n : Node} (h : n.itemKind? = none) : n.isData = false := by
  rw [isData, h]
  rfl

theorem exists_kind_of_isData {n : Node} (h : n.isData = true) : ∃ kind, n.itemKind? = some kind := by
  rw [isData, Bool.or_eq_true, beq_iff_eq, beq_iff_eq] at h
  exact h.elim (⟨_, ·⟩) (⟨_, ·⟩)

mutual

/-- Where no declaration starts nodes are carried only. -/
theorem dress_eq_carry {n : Node} (h : ∀ m ∈ n.walk, m.isDataAt p = false) :
    n.dress e p attributes = n.carry e := by
  cases n with
  | mk shape start itemStart stop children =>
    simp only [walk, List.forall_mem_cons] at h
    rw [dress, if_neg (by rw [h.1]; exact Bool.false_ne_true), carry, dressAll_eq_carryAll h.2]

theorem dressAll_eq_carryAll {nodes : List Node} (h : ∀ m ∈ walkAll nodes, m.isDataAt p = false) :
    dressAll e p attributes nodes = carryAll e nodes := by
  cases nodes with
  | nil => rfl
  | cons n rest =>
    simp only [walkAll, List.forall_mem_append] at h
    rw [dressAll, carryAll, dress_eq_carry h.1, dressAll_eq_carryAll h.2]

end

theorem map_dress_eq_carry {nodes : List Node} (h : ∀ m ∈ walkAll nodes, m.isDataAt p = false) :
    nodes.map (dress e p attributes) = nodes.map (carry e) := by
  rw [← dressAll_eq_map, dressAll_eq_carryAll h, carryAll_eq_map]

/-- Plain nodes are no declarations. -/
theorem map_dress_of_isPlain {nodes : List Node} (h : ∀ n ∈ nodes, n.IsPlain) :
    nodes.map (dress e p attributes) = nodes.map (carry e) := by
  refine map_dress_eq_carry fun m hm => ?_
  obtain ⟨n, hn, hm⟩ := mem_walkAll.mp hm
  rw [isDataAt, isData_of_isPlain (h n hn m hm), Bool.false_and]

end Node

/-! ### What declarations hold -/

/-- Fields and variants are no attributes. -/
theorem Item.not_isAttribute_members {item : Item} {found : List Node} (h : item.members = .ok found) :
    ∀ n ∈ found, n.isAttribute = false := fun n hn => (Item.isMember_members h n hn).not_isAttribute

/-- The body of a struct or an enum is no block of items. -/
theorem Item.not_isBlock_of_isData {item : Item} {outer members inside : List Node} {itemStart : Nat}
    (h : (item.toNode outer itemStart members inside).isData = true) : item.isBlock = false := by
  have hkind : (some item.kind == some .struct_ || some item.kind == some .enum_) = true := h
  rw [Item.isBlock]
  revert hkind
  cases item.kind <;> decide

/-! ### Nodes that are read -/

/-- No node starts, behind its attributes, where no token starts. -/
theorem Items.itemStart_ne {trees : List TokenTree} {nodes : List Node} (h : Items trees nodes)
    (hp : ∀ t ∈ flattenAll trees, t.start ≠ p) : ∀ n ∈ Node.walkAll nodes, n.itemStart ≠ p := by
  rintro n hn rfl
  -- Moving the position moves no token.
  have hcarry := h.carry_eq_self (e := ⟨fun x => if x = n.itemStart then n.itemStart + 1 else x, id⟩)
    (fun t ht => Token.carry_eq_self (if_neg (hp t ht)) rfl) n hn
  have hstart := congrArg Node.itemStart hcarry
  cases n with
  | mk shape start itemStart stop parts =>
    have hmoved : (if itemStart = itemStart then itemStart + 1 else itemStart) = itemStart := hstart
    rw [if_pos rfl] at hmoved
    omega

theorem Items.map_dress {trees : List TokenTree} {nodes : List Node} (h : Items trees nodes)
    (hp : ∀ t ∈ flattenAll trees, t.start ≠ p) :
    nodes.map (Node.dress e p attributes) = nodes.map (Node.carry e) := by
  refine Node.map_dress_eq_carry fun n hn => ?_
  rw [Node.isDataAt, beq_false_of_ne (h.itemStart_ne hp n hn), Bool.and_false]

/-- A struct or an enum holds no items. -/
theorem Items.isPlain_children {trees : List TokenTree} {nodes : List Node} (h : Items trees nodes) :
    ∀ n ∈ Node.walkAll nodes, n.isData = true → ∀ c ∈ n.children, c.IsPlain := by
  intro n hn hdata
  obtain ⟨kind, hkind⟩ := Node.exists_kind_of_isData hdata
  have hamong := h.among hn hkind
  clear h hn
  induction hamong with
  | @next stop trees rest tree item members inside nodes hrest hsemi hread hmembers held following hnode =>
    subst hnode
    rw [Item.inside_of_not_isBlock (Item.not_isBlock_of_isData hdata)] at held
    rw [held.eq_nil]
    show ∀ c ∈ (lead trees).outer ++ members ++ [], c.IsPlain
    rw [List.append_nil, List.forall_mem_append]
    exact ⟨fun m hm => Attribute.isPlain_of_mem_lead (.inr hm), Item.isPlain_members hmembers⟩
  | behind_semicolon _ _ _ _ ih => exact ih
  | in_block _ _ _ _ _ _ _ ih => exact ih
  | behind_item _ _ _ _ _ _ _ ih => exact ih

/-! ### Finding declarations -/

namespace Node

theorem IsPlain.items {nodes : List Node} (h : ∀ n ∈ nodes, n.IsPlain) :
    (walkAll nodes).filter (·.itemKind?.isSome) = [] := by
  refine List.filter_eq_nil_iff.mpr fun m hm => ?_
  obtain ⟨n, hn, hm⟩ := mem_walkAll.mp hm
  rw [h n hn m hm]
  exact Bool.false_ne_true

theorem IsPlain.carry {n : Node} (h : n.IsPlain) : (n.carry e).IsPlain := by
  intro m hm
  rw [walk_carry] at hm
  obtain ⟨m, hmem, rfl⟩ := List.mem_map.mp hm
  rw [← h m hmem, itemKind?, itemKind?, shape_carry]
  cases m.shape <;> rfl

mutual

/-- The items of dressed nodes are those that were there. -/
theorem items_dress (hattributes : ∀ a ∈ attributes, a.IsPlain) {n : Node}
    (h : ∀ m ∈ n.walk, m.isDataAt p = true → ∀ c ∈ m.children, c.IsPlain) :
    (n.dress e p attributes).walk.filter (·.itemKind?.isSome) =
      (n.walk.filter (·.itemKind?.isSome)).map (dress e p attributes) := by
  cases n with
  | mk shape start itemStart stop parts =>
    simp only [walk, List.forall_mem_cons] at h
    have hkind : (dress e p attributes (mk shape start itemStart stop parts)).itemKind? =
        (mk shape start itemStart stop parts).itemKind? := itemKind?_dress _
    rw [walk, List.filter_cons]
    by_cases hdata : (mk shape start itemStart stop parts).isDataAt p = true
    · have hparts : ∀ c ∈ parts, c.IsPlain := h.1 hdata
      have hdressed : ∀ m ∈ attributes ++ (parts.filter (!·.isAttribute)).map (Node.carry e),
          m.IsPlain := by
        refine List.forall_mem_append.mpr ⟨hattributes, fun m hm => ?_⟩
        obtain ⟨c, hc, rfl⟩ := List.mem_map.mp hm
        exact (hparts c (List.mem_filter.mp hc).1).carry
      rw [IsPlain.items hparts]
      rw [dress_of_isDataAt hdata] at hkind ⊢
      rw [withAttributes] at hkind ⊢
      rw [walk, List.filter_cons, hkind, IsPlain.items hdressed]
      split
      · rw [List.map_cons, dress_of_isDataAt hdata, withAttributes]
        rfl
      · rfl
    · rw [Bool.not_eq_true] at hdata
      have hdress := @dress_mk e p attributes shape start itemStart stop parts hdata
      rw [← dressAll_eq_map] at hdress
      rw [hdress] at hkind ⊢
      rw [walk, List.filter_cons, hkind, items_dressAll hattributes h.2]
      split
      · rw [List.map_cons, hdress]
      · rfl

theorem items_dressAll (hattributes : ∀ a ∈ attributes, a.IsPlain) {nodes : List Node}
    (h : ∀ m ∈ walkAll nodes, m.isDataAt p = true → ∀ c ∈ m.children, c.IsPlain) :
    (walkAll (dressAll e p attributes nodes)).filter (·.itemKind?.isSome) =
      ((walkAll nodes).filter (·.itemKind?.isSome)).map (dress e p attributes) := by
  cases nodes with
  | nil => rfl
  | cons n rest =>
    simp only [walkAll, List.forall_mem_append] at h
    rw [dressAll, walkAll, walkAll, List.filter_append, List.filter_append, List.map_append,
      items_dress hattributes h.1, items_dressAll hattributes h.2]

end

end Node

/-- The same declarations are found in a file with other attributes. -/
theorem Tree.find?_dress {tree after : Tree} {nodes : List Node} {length length' : Nat}
    (hroot : tree.root = .mk .file 0 0 length nodes)
    (hafter : after.root = .mk .file 0 0 length' (nodes.map (Node.dress e p attributes)))
    (hattributes : ∀ a ∈ attributes, a.IsPlain)
    (hplain : ∀ n ∈ Node.walkAll nodes, n.isData = true → ∀ c ∈ n.children, c.IsPlain) (name : String)
    (kinds : List ItemKind) :
    after.find? name kinds = (tree.find? name kinds).map (Node.dress e p attributes) := by
  have hkind : (fun n : Node => n.itemKind?.isSome) ∘ Node.dress e p attributes = (·.itemKind?.isSome) :=
    funext fun n => congrArg Option.isSome n.itemKind?_dress
  have hitems := Node.items_dressAll (e := e) (p := p) hattributes fun n hn hdata =>
    hplain n hn (Bool.and_eq_true _ _ ▸ hdata).1
  refine find?_map Node.itemKind?_dress Node.name?_dress ?_ ?_ name kinds
  · rw [hafter, hroot, Node.children, Node.children, List.filter_map, hkind]
  · rw [Tree.nodes, Tree.nodes, hafter, hroot, Node.walk, Node.walk, ← Node.dressAll_eq_map]
    exact hitems

end ContractSync.Rust
