import ContractSync.Proofs.Rust.Items

/-!
# Items, fields and variants, carried

What an item holds is read in the same way from an item carried (`Item.members_carry`), and so is a whole
sequence of items (`Items.carry`): **the nodes of trees carried are the nodes of the trees, carried**.
-/

namespace ContractSync.Rust

variable {e : Edges}

/-! ### Attributes -/

namespace Attribute

theorem lead_recast_alone {content : Token → List TokenTree → List TokenTree}
    (hkeeps : KeepsBrackets e content) (trees : List TokenTree) :
    lead (trees.map (TokenTree.recast e content)) = (lead trees).recast e content := by
  have h : lead (trees.map (TokenTree.recast e content) ++ []) = _ := lead_recast hkeeps (.inl rfl)
  rwa [Lead.append_nil, List.append_nil] at h

theorem lead_carry (trees : List TokenTree) :
    lead (trees.map (TokenTree.carry e)) =
      ⟨(lead trees).inner.map (Node.carry e), (lead trees).outer.map (Node.carry e),
        (lead trees).rest.map (TokenTree.carry e)⟩ := by
  have h := lead_recast_alone (e := e) keepsBrackets_carryAll trees
  rwa [Lead.recast, TokenTree.recast_carryAll] at h

end Attribute

/-! ### Entries -/

namespace Entry

/-- The entry with the ends of its tokens carried: it begins where the token before it stops, and stops
where the token behind it starts. -/
def carry (e : Edges) (entry : Entry) : Entry :=
  ⟨e.stop entry.before, entry.trees.map (TokenTree.carry e), e.start entry.stop, entry.comma⟩

theorem angleAfter_carry (angle : Nat) (tree : TokenTree) :
    angleAfter angle (tree.carry e) = angleAfter angle tree := by
  rw [angleAfter, angleAfter, TokenTree.isPunct_carry, TokenTree.isPunct_carry]

theorem divide_carry (before stop angle : Nat) (taken trees : List TokenTree) :
    divide (e.stop before) (e.start stop) angle (taken.map (TokenTree.carry e))
        (trees.map (TokenTree.carry e)) =
      (divide before stop angle taken trees).map (carry e) := by
  fun_induction divide before stop angle taken trees with
  | case1 before angle taken hempty =>
    rw [List.map_nil, divide, if_pos (by rwa [List.isEmpty_map])]
    rfl
  | case2 before angle taken hempty =>
    rw [List.map_nil, divide, if_neg (by rwa [List.isEmpty_map]), ← List.map_reverse]
    rfl
  | case3 before angle taken tree rest hcomma ih =>
    rw [List.map_cons, divide, TokenTree.isPunct_carry, if_pos hcomma, ← List.map_reverse,
      TokenTree.start_carry, TokenTree.stop_carry, List.map_cons]
    rw [List.map_nil] at ih
    rw [ih]
    rfl
  | case4 before angle taken tree rest hcomma ih =>
    rw [List.map_cons, divide, TokenTree.isPunct_carry, if_neg hcomma, angleAfter_carry]
    exact ih

theorem offsetOf_carry (entry : Entry) (trees : List TokenTree) :
    (entry.carry e).offsetOf (trees.map (TokenTree.carry e)) = e.start (entry.offsetOf trees) := by
  cases trees with
  | nil => rfl
  | cons tree rest => exact TokenTree.start_carry tree

theorem lastStop_carry (entry : Entry) : (entry.carry e).lastStop = e.stop entry.lastStop := by
  rw [lastStop, lastStop, carry, List.getLast?_map]
  cases entry.trees.getLast? with
  | none => rfl
  | some tree => exact TokenTree.stop_carry tree

theorem node_carry (shape : Shape) (attributes : List Node) (itemStart stop : Nat) :
    node (shape.carry e) (attributes.map (Node.carry e)) (e.start itemStart) (e.stop stop) =
      (node shape attributes itemStart stop).carry e := by
  rw [node, node, Node.carry_mk, List.head?_map]
  cases attributes.head? with
  | none => rfl
  | some first => simp

theorem name_eq_ok {entry : Entry} {what : Named} {trees : List TokenTree} {name : String} :
    entry.name what trees = .ok name ↔
      ∃ t rest, trees = .leaf t :: rest ∧ t.kind = .ident ∧ t.text = name := by
  match trees with
  | [] | .group .. :: _ => simp [Entry.name]
  | .leaf t :: rest =>
    rw [Entry.name]
    constructor
    · intro h
      split at h
      · rename_i hident
        cases h
        exact ⟨t, rest, rfl, hident, rfl⟩
      · cases h
    · rintro ⟨_, _, h, hident, rfl⟩
      cases h
      rw [if_pos hident]

/-- The entry is a field with a name: behind the attributes and the visibility stand the name, a colon
and the type. -/
def IsRecordField (entry : Entry) (name : Token) (colon : TokenTree) (type : List TokenTree) :
    Prop :=
  dropVisibility (Attribute.lead entry.trees).rest = .leaf name :: colon :: type ∧
    name.kind = .ident ∧ colon.isPunct ":" = true ∧ type ≠ []

/-- The node of a field with a name. -/
def fieldNode (entry : Entry) (name : Token) (type : List TokenTree) : Node :=
  let lead := Attribute.lead entry.trees
  node (.field name.text ⟨entry.offsetOf type, entry.lastStop⟩) lead.outer
    (entry.offsetOf lead.rest) entry.lastStop

theorem IsRecordField.not_isTrailing {entry : Entry} {name : Token} {colon : TokenTree}
    {type : List TokenTree} (h : entry.IsRecordField name colon type) :
    entry.isTrailing (Attribute.lead entry.trees).rest = false := by
  cases hrest : (Attribute.lead entry.trees).rest with
  | nil =>
    obtain ⟨h, -⟩ := h
    rw [hrest] at h
    cases h
  | cons tree rest => rfl

/-- What a record's entry is read as: nothing if only attributes are left, else a field. -/
theorem recordField_eq_ok {entry : Entry} {o : Option Node} :
    recordField entry = .ok o ↔
      (entry.isTrailing (Attribute.lead entry.trees).rest = true ∧ o = none) ∨
      ∃ name colon type, entry.IsRecordField name colon type ∧
        o = some (entry.fieldNode name type) := by
  constructor
  · intro h
    by_cases htrailing : entry.isTrailing (Attribute.lead entry.trees).rest = true
    · rw [recordField, if_pos htrailing] at h
      cases h
      exact .inl ⟨htrailing, rfl⟩
    · simp only [recordField, htrailing, Bool.false_eq_true, if_false] at h
      obtain ⟨_, hname, h⟩ := bind_eq_ok.mp h
      obtain ⟨name, rest, htrees, hident, rfl⟩ := name_eq_ok.mp hname
      rw [htrees, List.tail_cons] at h
      match rest, htrees, h with
      | [], _, h => cases h
      | colon :: type, htrees, h =>
        simp only [List.head?_cons, Option.any_some, List.tail_cons] at h
        by_cases hcolon : colon.isPunct ":" = true
        · by_cases htype : type = []
          · rw [htype] at h
            simp only [hcolon] at h
            cases h
          · have hempty : type.isEmpty = false := by simpa using htype
            simp only [hcolon, hempty] at h
            cases h
            exact .inr ⟨name, colon, type, ⟨htrees, hident, hcolon, htype⟩, rfl⟩
        · simp only [hcolon] at h
          cases h
  · rintro (⟨h, rfl⟩ | ⟨name, colon, type, h, rfl⟩)
    · rw [recordField, if_pos h]
      rfl
    · have htrailing := h.not_isTrailing
      obtain ⟨htrees, hname, hcolon, htype⟩ := h
      have hname' : entry.name .field (.leaf name :: colon :: type) = .ok name.text :=
        name_eq_ok.mpr ⟨name, _, rfl, hname, rfl⟩
      have hempty : type.isEmpty = false := by
        cases type with
        | nil => exact absurd rfl htype
        | cons => rfl
      simp only [recordField, htrailing, htrees, hname', Bool.false_eq_true, if_false]
      refine bind_eq_ok.mpr ⟨_, rfl, ?_⟩
      simp only [List.tail_cons, List.head?_cons, Option.any_some, hcolon, hempty, Bool.not_true,
        Bool.false_eq_true, if_false]
      rfl

theorem dropVisibility_carry (trees : List TokenTree) :
    dropVisibility (trees.map (TokenTree.carry e)) =
      (dropVisibility trees).map (TokenTree.carry e) := by
  have h : dropVisibility (trees.map (TokenTree.recast e fun _ => TokenTree.carryAll e) ++ []) =
      _ := dropVisibility_recast (.inl rfl)
  rwa [TokenTree.recast_carryAll, List.append_nil, List.append_nil] at h

theorem isTrailing_carry (entry : Entry) (trees : List TokenTree) :
    (entry.carry e).isTrailing (trees.map (TokenTree.carry e)) = entry.isTrailing trees := by
  rw [isTrailing, isTrailing, List.isEmpty_map]
  rfl

/-- What a record's entry is read as does not depend on where it stands. -/
theorem recordField_carry {entry : Entry} {o : Option Node} (h : recordField entry = .ok o) :
    recordField (entry.carry e) = .ok (o.map (Node.carry e)) := by
  have hlead : Attribute.lead (entry.carry e).trees = _ := Attribute.lead_carry entry.trees
  rcases recordField_eq_ok.mp h with ⟨htrailing, rfl⟩ | ⟨name, colon, type, hfield, rfl⟩
  · refine recordField_eq_ok.mpr (.inl ⟨?_, rfl⟩)
    rw [hlead, isTrailing_carry]
    exact htrailing
  · obtain ⟨htrees, hname, hcolon, htype⟩ := hfield
    refine recordField_eq_ok.mpr (.inr ⟨name.carry e, colon.carry e, type.map (TokenTree.carry e),
      ⟨?_, hname, by rwa [TokenTree.isPunct_carry], by simpa using htype⟩, ?_⟩)
    · rw [hlead, dropVisibility_carry, htrees]
      rfl
    · simp only [fieldNode, hlead, offsetOf_carry, lastStop_carry, Option.map_some, ← node_carry]
      rfl

theorem tupleField_carry (position : Nat) (entry : Entry) :
    tupleField position (entry.carry e) = (tupleField position entry).map (Node.carry e) := by
  have hlead : Attribute.lead (entry.carry e).trees = _ := Attribute.lead_carry entry.trees
  simp only [tupleField, hlead, isTrailing_carry, dropVisibility_carry, offsetOf_carry, lastStop_carry]
  split
  · rfl
  · rw [Option.map_some, ← node_carry]
    rfl

theorem tupleFields_carry (position : Nat) (entries : List Entry) :
    tupleFields position (entries.map (carry e)) =
      (tupleFields position entries).map (Node.carry e) := by
  induction entries generalizing position with
  | nil => rfl
  | cons entry rest ih =>
    rw [List.map_cons, tupleFields, tupleFields, tupleField_carry]
    cases tupleField position entry with
    | none => rfl
    | some field => simp only [Option.map_some, List.map_cons, ih]

theorem variant_carry {entry : Entry} {o : Option Node} (h : variant entry = .ok o) :
    variant (entry.carry e) = .ok (o.map (Node.carry e)) := by
  have hlead : Attribute.lead (entry.carry e).trees = _ := Attribute.lead_carry entry.trees
  rw [variant] at h
  simp only [variant, hlead, isTrailing_carry, offsetOf_carry, lastStop_carry]
  split at h
  · rename_i htrailing
    cases h
    rw [if_pos htrailing]
    rfl
  · rename_i htrailing
    obtain ⟨_, hname, h⟩ := bind_eq_ok.mp h
    cases h
    obtain ⟨name, rest, htrees, hident, rfl⟩ := name_eq_ok.mp hname
    rw [if_neg htrailing]
    refine bind_eq_ok.mpr ⟨name.text, ?_, ?_⟩
    · rw [htrees]
      exact name_eq_ok.mpr ⟨name.carry e, _, rfl, hident, rfl⟩
    · rw [Option.map_some, ← node_carry]
      rfl

theorem nodes_cons_eq_ok {read : Entry → Except Failure (Option Node)} {entry : Entry}
    {rest : List Entry} {found : List Node} :
    nodes read (entry :: rest) = .ok found ↔
      ∃ o more, read entry = .ok o ∧ nodes read rest = .ok more ∧ found = o.toList ++ more := by
  simp only [nodes, List.mapM_cons, bind_eq_ok, pure_eq_ok]
  constructor
  · rintro ⟨_, ⟨o, ho, os, hos, rfl⟩, rfl⟩
    refine ⟨o, os.filterMap id, ho, ⟨os, hos, rfl⟩, ?_⟩
    cases o <;> rfl
  · rintro ⟨o, _, ho, ⟨os, hos, rfl⟩, rfl⟩
    refine ⟨o :: os, ⟨o, ho, os, hos, rfl⟩, ?_⟩
    cases o <;> rfl

/-- Entries that are read alike one by one are read alike together. -/
theorem nodes_carry (read : Entry → Except Failure (Option Node))
    (hread : ∀ entry o, read entry = .ok o → read (entry.carry e) = .ok (o.map (Node.carry e)))
    {entries : List Entry} {found : List Node} (h : nodes read entries = .ok found) :
    nodes read (entries.map (carry e)) = .ok (found.map (Node.carry e)) := by
  induction entries generalizing found with
  | nil =>
    cases h
    rfl
  | cons entry rest ih =>
    obtain ⟨o, more, ho, hmore, rfl⟩ := nodes_cons_eq_ok.mp h
    refine nodes_cons_eq_ok.mpr ⟨_, _, hread entry o ho, ih hmore, ?_⟩
    cases o <;> rfl

end Entry

/-! ### Items -/

namespace Item

theorem entries_carry (b : Group) :
    (b.recast e fun _ => TokenTree.carryAll e).entries = b.entries.map (Entry.carry e) := by
  rw [Group.entries, Group.entries, Entry.ofGroup, Entry.ofGroup, ← Entry.divide_carry,
    List.map_nil, ← TokenTree.carryAll_eq_map]
  rfl

/-- **What an item holds is read in the same way from the item carried.** -/
theorem members_carry {item : Item} {found : List Node} (h : item.members = .ok found)
    (more : List TokenTree) :
    (item.recast e (fun _ => TokenTree.carryAll e) more).members =
      .ok (found.map (Node.carry e)) := by
  obtain ⟨kind, name, body, stop, rest⟩ := item
  cases body with
  | none => cases kind <;> (cases h; rfl)
  | some b =>
    cases kind with
    | struct_ =>
      have htuple : (b.recast e fun _ => TokenTree.carryAll e).isTuple = b.isTuple := rfl
      simp only [Item.members, Item.recast, Option.map_some, entries_carry, htuple] at h ⊢
      split at h
      · rename_i hb
        cases h
        rw [if_pos hb, Entry.tupleFields_carry]
      · rename_i hb
        rw [if_neg hb]
        exact Entry.nodes_carry Entry.recordField (fun _ _ => Entry.recordField_carry) h
    | enum_ =>
      simp only [Item.members, Item.recast, Option.map_some, entries_carry] at h ⊢
      exact Entry.nodes_carry Entry.variant (fun _ _ => Entry.variant_carry) h
    | function | use | module | impl | trait_ | typeAlias | other =>
      cases h
      rfl

theorem inside_carry (item : Item) (more : List TokenTree) :
    (item.recast e (fun _ => TokenTree.carryAll e) more).inside =
      item.inside.map (TokenTree.carry e) := by
  have hblock : (item.recast e (fun _ => TokenTree.carryAll e) more).isBlock = item.isBlock := rfl
  rw [inside, inside, hblock]
  split
  · simp only [Item.recast]
    cases item.body with
    | none => rfl
    | some b => exact TokenTree.carryAll_eq_map b.inner
  · rfl

/-- The node of an item that is recast, whatever it holds. -/
theorem toNode_recast (item : Item) (content : Token → List TokenTree → List TokenTree)
    (more : List TokenTree) (attributes members inside : List Node) (itemStart : Nat) :
    (item.recast e content more).toNode (attributes.map (Node.carry e)) (e.start itemStart)
        members inside =
      .mk ((Shape.item item.kind item.name (item.body.map Group.span)).carry e)
        (e.start ((attributes.head?.map Node.start).getD itemStart)) (e.start itemStart)
        (e.stop item.stop) (attributes.map (Node.carry e) ++ members ++ inside) := by
  have hbody : (item.body.map (Group.recast e content)).map Group.span =
      (item.body.map Group.span).map (Span.move e.start) := by
    cases item.body <;> rfl
  have hstart : ((attributes.map (Node.carry e)).head?.map Node.start).getD (e.start itemStart) =
      e.start ((attributes.head?.map Node.start).getD itemStart) := by
    cases attributes with
    | nil => rfl
    | cons first rest => exact Node.start_carry first
  rw [toNode, hstart]
  simp only [Item.recast, hbody]
  rfl

theorem toNode_carry (item : Item) (content : Token → List TokenTree → List TokenTree)
    (more : List TokenTree) (attributes members inside : List Node) (itemStart : Nat) :
    (item.recast e content more).toNode (attributes.map (Node.carry e)) (e.start itemStart)
        (members.map (Node.carry e)) (inside.map (Node.carry e)) =
      (item.toNode attributes itemStart members inside).carry e := by
  rw [toNode_recast, toNode, Node.carry_mk, List.map_append, List.map_append]

end Item

/-! ### Sequences of items -/

open Attribute (lead)

variable {content : Token → List TokenTree → List TokenTree}

theorem Items.nil : Items [] [] := .done rfl

theorem Items.eq_nil {nodes : List Node} (h : Items [] nodes) : nodes = [] := by
  cases h with
  | done => rfl
  | semicolon hrest | item hrest => cases hrest

/-- A semicolon in trees recast. -/
theorem Items.semicolon_recast {trees rest : List TokenTree} {tree : TokenTree}
    {nodes : List Node} (hkeeps : Attribute.KeepsBrackets e content)
    (hrest : (lead trees).rest = tree :: rest) (hsemi : tree.isPunct ";" = true)
    (following : Items (rest.map (TokenTree.recast e content)) nodes) :
    Items (trees.map (TokenTree.recast e content))
      ((lead trees).inner.map (Node.carry e) ++ nodes) := by
  have hlead := Attribute.lead_recast_alone hkeeps trees
  rw [Attribute.Lead.recast, hrest] at hlead
  have h : Items (trees.map (TokenTree.recast e content)) _ :=
    .semicolon (by rw [hlead]; rfl) (by rwa [TokenTree.isPunct_recast]) following
  simp only [hlead] at h
  exact h

/-- An item in trees recast. -/
theorem Items.item_recast {stop : Nat} {trees rest : List TokenTree} {tree : TokenTree}
    {item : Item} {members inside nodes : List Node} (hkeeps : Attribute.KeepsBrackets e content)
    (hrest : (lead trees).rest = tree :: rest) (hsemi : tree.isPunct ";" = false)
    (hread : Item.read stop (tree :: rest) = .ok item)
    (hmembers : (item.recast e content []).members = .ok members)
    (held : Items (item.recast e content []).inside inside)
    (following : Items (item.rest.map (TokenTree.recast e content)) nodes) :
    Items (trees.map (TokenTree.recast e content))
      ((lead trees).inner.map (Node.carry e) ++
        (item.recast e content []).toNode ((lead trees).outer.map (Node.carry e))
          (e.start tree.start) members inside :: nodes) := by
  have hlead := Attribute.lead_recast_alone hkeeps trees
  rw [Attribute.Lead.recast, hrest] at hlead
  have hread' : Item.read stop ((tree :: rest).map (TokenTree.recast e content)) =
      .ok (item.recast e content []) := by
    have h : Item.read stop ((tree :: rest).map (TokenTree.recast e content) ++ []) = _ :=
      Item.read_recast hread (List.cons_ne_nil _ _) (.inl rfl) stop
    rwa [List.append_nil] at h
  have hfollowing : Items (item.recast e content []).rest nodes := by
    rw [Item.recast, List.append_nil]
    exact following
  have h : Items (trees.map (TokenTree.recast e content)) _ :=
    .item (by rw [hlead]; rfl) (by rwa [TokenTree.isPunct_recast]) hread' hmembers held hfollowing
  simp only [hlead, TokenTree.start_recast] at h
  exact h

/-- **The items of trees carried are the items of the trees, carried.** -/
theorem Items.carry {trees : List TokenTree} {nodes : List Node} (h : Items trees nodes) :
    Items (trees.map (TokenTree.carry e)) (nodes.map (Node.carry e)) := by
  have hkeeps : Attribute.KeepsBrackets e fun _ => TokenTree.carryAll e :=
    Attribute.keepsBrackets_carryAll
  rw [← TokenTree.recast_carryAll]
  induction h with
  | @done trees hrest =>
    have hlead := Attribute.lead_recast_alone hkeeps trees
    rw [Attribute.Lead.recast, hrest] at hlead
    have h : Items (trees.map (TokenTree.recast e fun _ => TokenTree.carryAll e)) _ :=
      .done (by rw [hlead]; rfl)
    simp only [hlead] at h
    rwa [List.map_append]
  | semicolon hrest hsemi following ih =>
    rw [List.map_append]
    exact .semicolon_recast hkeeps hrest hsemi ih
  | @item stop trees rest tree item members inside nodes hrest hsemi hread hmembers held following
      ihheld ihfollowing =>
    have hheld : Items (item.recast e (fun _ => TokenTree.carryAll e) []).inside
        (inside.map (Node.carry e)) := by
      rw [TokenTree.recast_carryAll] at ihheld
      rwa [Item.inside_carry]
    rw [List.map_append, List.map_cons, ← Item.toNode_carry item (fun _ => TokenTree.carryAll e) []]
    exact .item_recast hkeeps hrest hsemi hread (Item.members_carry hmembers []) hheld ihfollowing

/-- The items of trees moved are the items of the trees, moved. -/
theorem Items.move {g : Nat → Nat} {trees : List TokenTree} {nodes : List Node}
    (h : Items trees nodes) : Items (trees.map (TokenTree.move g)) (nodes.map (Node.move g)) := by
  rw [← TokenTree.map_carry_same, ← Node.map_carry_same]
  exact h.carry

/-! ### Where nodes stand -/

/-- Nodes stay where they are if the tokens do that they are read from. -/
theorem Items.carry_eq_self {trees : List TokenTree} {nodes : List Node} (h : Items trees nodes)
    (hstays : ∀ t ∈ TokenTree.flattenAll trees, t.carry e = t) :
    ∀ n ∈ Node.walkAll nodes, n.carry e = n := by
  have hnodes : Node.carryAll e nodes = nodes := by
    have h' := h.carry (e := e)
    rw [← TokenTree.carryAll_eq_map, TokenTree.carryAll_eq_self hstays, ← Node.carryAll_eq_map] at h'
    exact h'.unique h
  have hwalk : (Node.walkAll nodes).map (Node.carry e) = (Node.walkAll nodes).map id := by
    rw [← Node.walkAll_carryAll, hnodes, List.map_id]
  exact List.map_inj_left.mp hwalk

/-- No node starts before the tokens that it is read from. -/
theorem Items.le_start {trees : List TokenTree} {nodes : List Node} {low : Nat}
    (h : Items trees nodes) (hlow : ∀ t ∈ TokenTree.flattenAll trees, low ≤ t.start) :
    ∀ n ∈ Node.walkAll nodes, low ≤ n.start := by
  intro n hn
  have hcarry := h.carry_eq_self (e := ⟨max low, id⟩)
    (fun t ht => Token.carry_eq_self (Nat.max_eq_right (hlow t ht)) rfl) n hn
  rw [← hcarry, Node.start_carry]
  exact Nat.le_max_left ..

/-- No node ends behind the tokens that it is read from. -/
theorem Items.stop_le {trees : List TokenTree} {nodes : List Node} {high : Nat}
    (h : Items trees nodes) (hhigh : ∀ t ∈ TokenTree.flattenAll trees, t.stop ≤ high) :
    ∀ n ∈ Node.walkAll nodes, n.stop ≤ high := by
  intro n hn
  have hcarry := h.carry_eq_self (e := ⟨id, min high⟩)
    (fun t ht => Token.carry_eq_self rfl (Nat.min_eq_right (hhigh t ht))) n hn
  rw [← hcarry, Node.stop_carry]
  exact Nat.min_le_left ..

end ContractSync.Rust
