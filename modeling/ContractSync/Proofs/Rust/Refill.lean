import ContractSync.Proofs.Rust.Grow
import ContractSync.Proofs.Rust.Run

/-!
# Other trees in the body of an item

`refill e p new` carries trees and puts `new` into the group that opens at `p`, at any depth of modules.
An item that holds no other items and whose body opens there is found on the way through the items around
it: **if the new trees are read as the members of the item and some more, all nodes are what they were,
carried, and that item has the new ones behind its own** (`Items.refillable`). `BodyIn` is what this
comes to for a text with its tokens. `Among` is the way through the items to one of them.
-/

namespace ContractSync.Rust

open Attribute (lead)
open TokenTree (carryAll flatten flattenAll isNested isNestedAll recast)

variable {e : Edges} {p : Nat} {new : List TokenTree} {added : List Node}

/-! ### Refilling trees -/

namespace TokenTree

mutual

/-- The tree carried, with new trees in the group that opens at `p`. Brackets are left alone. -/
def refill (e : Edges) (p : Nat) (new : List TokenTree) : TokenTree → TokenTree
  | leaf t => leaf (t.carry e)
  | group opener inner closer =>
    group (opener.carry e)
      (if opener.isPunct "[" then carryAll e inner
        else if opener.start = p then new else refillAll e p new inner)
      (closer.carry e)

/-- The trees carried, with new ones in the group that opens at `p`. -/
def refillAll (e : Edges) (p : Nat) (new : List TokenTree) : List TokenTree → List TokenTree
  | [] => []
  | tree :: rest => refill e p new tree :: refillAll e p new rest

end

/-- What the groups of refilled trees hold. -/
def refilled (e : Edges) (p : Nat) (new : List TokenTree) (opener : Token)
    (inner : List TokenTree) : List TokenTree :=
  if opener.isPunct "[" then carryAll e inner
  else if opener.start = p then new else refillAll e p new inner

theorem recast_refilled : recast e (refilled e p new) = refill e p new := by
  funext tree
  cases tree <;> rfl

theorem refillAll_eq_map (trees : List TokenTree) :
    refillAll e p new trees = trees.map (refill e p new) := by
  induction trees with
  | nil => rfl
  | cons tree rest ih => rw [refillAll, ih, List.map_cons]

mutual

/-- Where no group opens trees are carried only. -/
theorem refill_eq_carry {tree : TokenTree} (h : ∀ t ∈ flatten tree, t.start ≠ p) :
    refill e p new tree = carry e tree := by
  cases tree with
  | leaf t => rfl
  | group opener inner closer =>
    simp only [flatten, List.forall_mem_cons, List.forall_mem_append] at h
    rw [refill, carry, refillAll_eq_carryAll h.2.1, if_neg h.1, ite_self]

theorem refillAll_eq_carryAll {trees : List TokenTree} (h : ∀ t ∈ flattenAll trees, t.start ≠ p) :
    refillAll e p new trees = carryAll e trees := by
  cases trees with
  | nil => rfl
  | cons tree rest =>
    simp only [flattenAll, List.forall_mem_append] at h
    rw [refillAll, carryAll, refill_eq_carry h.1, refillAll_eq_carryAll h.2]

end

theorem map_refill_eq_carry {trees : List TokenTree} (h : ∀ t ∈ flattenAll trees, t.start ≠ p) :
    trees.map (refill e p new) = trees.map (carry e) := by
  rw [← refillAll_eq_map, refillAll_eq_carryAll h, carryAll_eq_map]

mutual

theorem isNested_refill (hnew : isNestedAll new = true) {tree : TokenTree}
    (h : isNested tree = true) : isNested (refill e p new tree) = true := by
  cases tree with
  | leaf t => exact h
  | group opener inner closer =>
    rw [isNested, Bool.and_eq_true] at h
    rw [refill, isNested, Token.closes_carry, h.1, Bool.true_and]
    split
    · rw [isNestedAll_carryAll, h.2]
    · split
      · exact hnew
      · exact isNestedAll_refillAll hnew h.2

theorem isNestedAll_refillAll (hnew : isNestedAll new = true) {trees : List TokenTree}
    (h : isNestedAll trees = true) : isNestedAll (refillAll e p new trees) = true := by
  cases trees with
  | nil => rfl
  | cons tree rest =>
    rw [isNestedAll, Bool.and_eq_true] at h
    rw [refillAll, isNestedAll, isNested_refill hnew h.1, isNestedAll_refillAll hnew h.2]
    rfl

end

theorem flattenAll_append_group (front inner behind : List TokenTree) (opener closer : Token) :
    flattenAll (front ++ .group opener inner closer :: behind) =
      flattenAll front ++ opener :: (flattenAll inner ++ closer :: flattenAll behind) := by
  rw [flattenAll_append, flattenAll, flatten]
  simp

end TokenTree

theorem Attribute.keepsBrackets_refilled : KeepsBrackets e (TokenTree.refilled e p new) := by
  intro opener inner h
  rw [TokenTree.refilled, if_pos h, TokenTree.carryAll_eq_map]

/-! ### Where tokens start -/

/-- No two tokens of the trees start in the same place. -/
def StartApart (trees : List TokenTree) : Prop := ((flattenAll trees).map Token.start).Nodup

namespace StartApart

theorem of_suffix {trees rest : List TokenTree} (h : StartApart trees) (hs : rest <:+ trees) :
    StartApart rest := by
  obtain ⟨front, rfl⟩ := hs
  rw [StartApart, TokenTree.flattenAll_append, List.map_append] at h
  exact (List.nodup_append.mp h).2.1

theorem ne {front behind : List TokenTree} (h : StartApart (front ++ behind)) {t u : Token}
    (ht : t ∈ flattenAll front) (hu : u ∈ flattenAll behind) : t.start ≠ u.start := by
  rw [StartApart, TokenTree.flattenAll_append, List.map_append] at h
  exact (List.nodup_append.mp h).2.2 _ (List.mem_map_of_mem ht) _ (List.mem_map_of_mem hu)

/-- A group starts in a place of its own, and what it holds does as well. -/
theorem group {front behind inner : List TokenTree} {opener closer : Token}
    (h : StartApart (front ++ .group opener inner closer :: behind)) :
    StartApart inner ∧ (∀ t ∈ flattenAll front, t.start ≠ opener.start) ∧
      (∀ t ∈ flattenAll inner, t.start ≠ opener.start) ∧
      ∀ t ∈ flattenAll behind, t.start ≠ opener.start := by
  have hgroup := h.of_suffix (List.suffix_append ..)
  rw [StartApart, flattenAll, flatten, List.cons_append, List.map_cons, List.nodup_cons] at hgroup
  obtain ⟨hopener, hrest⟩ := hgroup
  simp only [List.mem_map, List.mem_append, not_exists, not_and] at hopener
  refine ⟨?_, fun t ht => h.ne ht ?_, fun t ht => hopener t (.inl (.inl ht)),
    fun t ht => hopener t (.inr ht)⟩
  · rw [List.map_append, List.map_append] at hrest
    exact (List.nodup_append.mp (List.nodup_append.mp hrest).1).1
  · rw [flattenAll, flatten]
    exact List.mem_cons_self

end StartApart

/-! ### Groups in trees -/

namespace Group

/-- What the group holds as the body of an item of the kind. -/
def members (kind : ItemKind) (b : Group) : Except Failure (List Node) :=
  Item.members { kind, body := some b, stop := 0, rest := [] }

/-- The body of a record is read as its fields. -/
theorem members_of_record {b : Group} (h : b.isTuple = false) :
    b.members .struct_ = Entry.nodes Entry.recordField
      (Entry.divide b.opener.stop b.closer.start 0 [] b.inner) := by
  simp only [members, Item.members, h, Bool.false_eq_true, if_false]
  rfl

/-- The group carried, with other trees inside. -/
def holding (e : Edges) (b : Group) (new : List TokenTree) : Group :=
  ⟨b.opener.carry e, new, b.closer.carry e⟩

/-- The group stands among the trees, or in a group among them that has no brackets. -/
inductive Within (b : Group) : List TokenTree → Prop
  | here (front behind : List TokenTree) : Within b (front ++ b.tree :: behind)
  | inside (front behind : List TokenTree) {opener closer : Token} {inner : List TokenTree}
      (hmark : opener.isPunct "[" = false) (held : Within b inner) :
      Within b (front ++ .group opener inner closer :: behind)

variable {b : Group}

theorem Within.append {trees : List TokenTree} (h : b.Within trees) (front : List TokenTree) :
    b.Within (front ++ trees) := by
  cases h with
  | here front' behind =>
    rw [← List.append_assoc]
    exact .here _ _
  | inside front' behind hmark held =>
    rw [← List.append_assoc]
    exact .inside _ _ hmark held

theorem Within.opener_mem {trees : List TokenTree} (h : b.Within trees) :
    b.opener ∈ flattenAll trees := by
  induction h with
  | here front behind =>
    rw [tree, TokenTree.flattenAll_append_group]
    simp
  | inside front behind hmark held ih =>
    rw [TokenTree.flattenAll_append_group]
    simp [ih]

/-- The delimiters match, and so do those inside. -/
theorem Within.nested {trees : List TokenTree} (h : b.Within trees)
    (hnested : isNestedAll trees = true) :
    b.opener.closes b.closer = true ∧ isNestedAll b.inner = true := by
  induction h with
  | here front behind =>
    have hgroup := TokenTree.isNestedAll_eq_true_iff.mp hnested b.tree (by simp)
    rwa [tree, isNested, Bool.and_eq_true] at hgroup
  | inside front behind hmark held ih =>
    have hgroup := TokenTree.isNestedAll_eq_true_iff.mp hnested _
      (List.mem_append_right _ List.mem_cons_self)
    rw [isNested, Bool.and_eq_true] at hgroup
    exact ih hgroup.2

/-- **The tokens of refilled trees**: those in front of the group and behind it are carried. -/
theorem Within.flattenAll_refill {trees : List TokenTree} (h : b.Within trees)
    (hmark : b.opener.isPunct "[" = false) (hapart : StartApart trees) :
    ∃ front back, flattenAll trees =
        front ++ b.opener :: (flattenAll b.inner ++ b.closer :: back) ∧
      ∀ (e : Edges) (new : List TokenTree),
        flattenAll (trees.map (TokenTree.refill e b.opener.start new)) =
          front.map (·.carry e) ++ b.opener.carry e ::
            (flattenAll new ++ b.closer.carry e :: back.map (·.carry e)) := by
  induction h with
  | here front behind =>
    obtain ⟨-, hfront, -, hbehind⟩ := hapart.group
    refine ⟨_, _, TokenTree.flattenAll_append_group .., fun e new => ?_⟩
    rw [List.map_append, List.map_cons, TokenTree.map_refill_eq_carry hfront,
      TokenTree.map_refill_eq_carry hbehind, tree, TokenTree.refill, if_neg (by simp [hmark]),
      if_pos rfl, TokenTree.flattenAll_append_group, TokenTree.flattenAll_map_carry,
      TokenTree.flattenAll_map_carry]
  | @inside front behind opener closer inner hmark' held ih =>
    have hapart' := hapart
    obtain ⟨hinner, -, hopener, -⟩ := hapart.group
    obtain ⟨front', back, hflat, hrefill⟩ := ih hinner
    have hin : b.opener ∈ flattenAll [TokenTree.group opener inner closer] := by
      simp [flattenAll, flatten, held.opener_mem]
    have hfront : ∀ t ∈ flattenAll front, t.start ≠ b.opener.start := fun t ht =>
      hapart'.ne ht (by simpa [flattenAll, flatten] using .inr (.inl held.opener_mem))
    have hbehind : ∀ t ∈ flattenAll behind, t.start ≠ b.opener.start := by
      rw [List.append_cons] at hapart'
      refine fun t ht => (hapart'.ne ?_ ht).symm
      rw [TokenTree.flattenAll_append]
      exact List.mem_append_right _ hin
    refine ⟨flattenAll front ++ opener :: front', back ++ closer :: flattenAll behind, ?_,
      fun e new => ?_⟩
    · rw [TokenTree.flattenAll_append_group, hflat]
      simp
    · rw [List.map_append, List.map_cons, TokenTree.map_refill_eq_carry hfront,
        TokenTree.map_refill_eq_carry hbehind, TokenTree.refill, if_neg (by simp [hmark']),
        if_neg (hopener _ held.opener_mem).symm, TokenTree.refillAll_eq_map,
        TokenTree.flattenAll_append_group, hrefill, TokenTree.flattenAll_map_carry,
        TokenTree.flattenAll_map_carry]
      simp

end Group

/-! ### Items around a body -/

theorem Item.members_of_body {item : Item} {b : Group} (h : item.body = some b) :
    item.members = b.members item.kind := by
  obtain ⟨kind, name, body, stop, rest⟩ := item
  cases h
  rfl

theorem Item.members_of_isBlock {item : Item} (h : item.isBlock = true) : item.members = .ok [] := by
  obtain ⟨kind, name, body, stop, rest⟩ := item
  cases kind with
  | struct_ | enum_ | function | use | typeAlias | other => cases h
  | module | impl | trait_ => cases body <;> rfl

theorem Item.inside_of_not_isBlock {item : Item} (h : item.isBlock = false) : item.inside = [] := by
  rw [inside, h]
  rfl

/-- An item inside which others are read has a body for them. -/
theorem Item.block_of_held (item : Item) {nodes : List Node} (held : Items item.inside nodes)
    (hne : nodes ≠ []) :
    item.isBlock = true ∧ ∃ b, item.body = some b ∧ item.inside = b.inner := by
  have hinside : item.inside ≠ [] := by
    intro hnil
    rw [hnil] at held
    exact hne held.eq_nil
  have hblock : item.isBlock = true := by
    rw [← Bool.not_eq_false]
    exact fun h => hinside (Item.inside_of_not_isBlock h)
  obtain ⟨b, hb⟩ : ∃ b, item.body = some b := by
    refine Option.ne_none_iff_exists'.mp fun hb => hinside ?_
    rw [inside, hblock, hb]
    rfl
  refine ⟨hblock, b, hb, ?_⟩
  rw [inside, hblock, hb]
  rfl

/-! ### Where an item is -/

/-- The item is among the nodes of the trees: it is the next one, or it is behind a semicolon, in a block or
behind an item. -/
inductive Among (n : Node) : List TokenTree → List Node → Prop
  | next {stop : Nat} {trees rest : List TokenTree} {tree : TokenTree} {item : Item}
      {members inside nodes : List Node}
      (hrest : (lead trees).rest = tree :: rest) (hsemi : tree.isPunct ";" = false)
      (hread : Item.read stop (tree :: rest) = .ok item) (hmembers : item.members = .ok members)
      (held : Items item.inside inside) (following : Items item.rest nodes)
      (hnode : item.toNode (lead trees).outer tree.start members inside = n) :
      Among n trees ((lead trees).inner ++ n :: nodes)
  | behind_semicolon {trees rest : List TokenTree} {tree : TokenTree} {nodes : List Node}
      (hrest : (lead trees).rest = tree :: rest) (hsemi : tree.isPunct ";" = true)
      (hsuffix : rest <:+ trees) (h : Among n rest nodes) : Among n trees ((lead trees).inner ++ nodes)
  | in_block {stop : Nat} {trees rest : List TokenTree} {tree : TokenTree} {item : Item} {b : Group}
      {inside nodes : List Node}
      (hrest : (lead trees).rest = tree :: rest) (hsemi : tree.isPunct ";" = false)
      (hread : Item.read stop (tree :: rest) = .ok item) (following : Items item.rest nodes)
      (hblock : item.isBlock = true) (hbody : item.body = some b) (h : Among n b.inner inside) :
      Among n trees ((lead trees).inner ++ item.toNode (lead trees).outer tree.start [] inside :: nodes)
  | behind_item {stop : Nat} {trees rest : List TokenTree} {tree : TokenTree} {item : Item}
      {members inside nodes : List Node}
      (hrest : (lead trees).rest = tree :: rest) (hsemi : tree.isPunct ";" = false)
      (hread : Item.read stop (tree :: rest) = .ok item) (hmembers : item.members = .ok members)
      (held : Items item.inside inside) (hsuffix : item.rest <:+ trees) (h : Among n item.rest nodes) :
      Among n trees ((lead trees).inner ++
        item.toNode (lead trees).outer tree.start members inside :: nodes)

/-- **Every item that the nodes hold is among them.** -/
theorem Items.among {trees : List TokenTree} {nodes : List Node} {n : Node} {kind : ItemKind}
    (h : Items trees nodes) (hn : n ∈ Node.walkAll nodes) (hkind : n.itemKind? = some kind) :
    Among n trees nodes := by
  have hplain : ∀ {m : Node}, m.IsPlain → n ∉ m.walk := by
    intro m hm hmem
    rw [hm n hmem] at hkind
    cases hkind
  obtain ⟨m, hm, hmem⟩ := Node.mem_walkAll.mp hn
  clear hn
  induction h generalizing m with
  | @done trees hrest =>
    exact absurd hmem (hplain (Attribute.isPlain_of_mem_lead (List.mem_append.mp hm)))
  | @semicolon trees rest tree nodes hrest hsemi _ ih =>
    rcases List.mem_append.mp hm with hm | hm
    · exact absurd hmem (hplain (Attribute.isPlain_of_mem_lead (.inl hm)))
    · exact .behind_semicolon hrest hsemi
        ((List.suffix_cons ..).trans (hrest ▸ Attribute.rest_lead_suffix trees)) (ih m hm hmem)
  | @item stop trees rest tree item members inside nodes hrest hsemi hread hmembers held following
      ihheld ihfollowing =>
    rcases List.mem_append.mp hm with hm | hm
    · exact absurd hmem (hplain (Attribute.isPlain_of_mem_lead (.inl hm)))
    rcases List.mem_cons.mp hm with rfl | hm
    · rcases Node.mem_walk_mk.mp hmem with rfl | hmem
      · exact .next hrest hsemi hread hmembers held following rfl
      · obtain ⟨m, hm, hwithin⟩ := Node.mem_walkAll.mp hmem
        have hinside : m ∈ inside := by
          refine (List.mem_append.mp hm).resolve_left fun hm => ?_
          rcases List.mem_append.mp hm with hm | hm
          · exact hplain (Attribute.isPlain_of_mem_lead (.inr hm)) hwithin
          · exact hplain (Item.isPlain_members hmembers m hm) hwithin
        obtain ⟨hblock, b, hb, hin⟩ := item.block_of_held held (List.ne_nil_of_mem hinside)
        rw [hin] at ihheld
        rw [Item.members_of_isBlock hblock] at hmembers
        cases hmembers
        exact .in_block hrest hsemi hread following hblock hb (ihheld m hinside hwithin)
    · have hsuffix := (Item.read_isTaken hread (List.cons_ne_nil _ _)).rest_suffix.trans
        (hrest ▸ Attribute.rest_lead_suffix trees)
      exact .behind_item hrest hsemi hread hmembers held hsuffix (ihfollowing m hm hmem)

/-- The body can hold other trees: where they are read as the members and some more, the nodes are
those that were read, grown. -/
def Refillable (kind : ItemKind) (b : Group) (found : List Node) (trees : List TokenTree)
    (nodes : List Node) : Prop :=
  ∀ (e : Edges) (new : List TokenTree) (added : List Node),
    (b.holding e new).members kind = .ok (found.map (Node.carry e) ++ added) →
      Items (trees.map (TokenTree.refill e b.opener.start new))
        (nodes.map (Node.grow e b.opener.start added))

/-- A body among the trees that are read as nodes. -/
structure IsBodyOf (kind : ItemKind) (b : Group) (found : List Node) (trees : List TokenTree)
    (nodes : List Node) : Prop where
  mark : b.isBody = true
  members : b.members kind = .ok found
  within : b.Within trees
  refillable : Refillable kind b found trees nodes

section Step

variable {stop : Nat} {trees rest : List TokenTree} {tree : TokenTree} {item : Item}
  {members inside nodes : List Node}

/-- The body of an item is one of the trees. -/
theorem Item.body_mem {b : Group} (hrest : (lead trees).rest = tree :: rest)
    (hread : Item.read stop (tree :: rest) = .ok item) (hbody : item.body = some b) :
    b.isBody = true ∧ ∃ front behind, trees = front ++ b.tree :: behind := by
  obtain ⟨taken, -, htaken, htree⟩ := Item.read_isTaken hread (List.cons_ne_nil _ _)
  obtain ⟨hmem, hmark⟩ := htree b hbody
  have hsuffix : tree :: rest <:+ trees := hrest ▸ Attribute.rest_lead_suffix trees
  exact ⟨hmark, List.append_of_mem (hsuffix.subset (htaken ▸ List.mem_append_left _ hmem))⟩

/-- It stands in front of what follows the item. -/
theorem Item.body_split {b : Group} (hrest : (lead trees).rest = tree :: rest)
    (hread : Item.read stop (tree :: rest) = .ok item) (hbody : item.body = some b)
    (hapart : StartApart trees) :
    b.isBody = true ∧ (∃ front behind, trees = front ++ b.tree :: behind) ∧
      ∀ t ∈ flatten b.tree, ∀ u ∈ flattenAll item.rest, u.start ≠ t.start := by
  obtain ⟨hmark, hmem⟩ := Item.body_mem hrest hread hbody
  obtain ⟨taken, -, htaken, htree⟩ := Item.read_isTaken hread (List.cons_ne_nil _ _)
  have hsuffix := hrest ▸ Attribute.rest_lead_suffix trees
  rw [htaken] at hsuffix
  exact ⟨hmark, hmem, fun t ht u hu => ((hapart.of_suffix hsuffix).ne
    (TokenTree.mem_flattenAll.mpr ⟨_, (htree b hbody).1, ht⟩) hu).symm⟩

/-- The group of a body is no group in brackets. -/
theorem Group.not_bracket {b : Group} (h : b.isBody = true) : b.opener.isPunct "[" = false := by
  simp only [isBody, List.any_cons, List.any_nil, Bool.or_false, Bool.or_eq_true] at h
  rcases h with h | h | h <;> exact Token.isPunct_of_ne h (by decide)

/-- The body opens where the group does. -/
theorem Item.opensAt_body {b : Group} (hbody : item.body = some b) :
    (Shape.item item.kind item.name (item.body.map Group.span)).opensAt b.opener.start = true := by
  rw [hbody]
  exact beq_self_eq_true b.opener.start

theorem Item.not_opensAt_body (h : ∀ b ∈ item.body, b.opener.start ≠ p) :
    (Shape.item item.kind item.name (item.body.map Group.span)).opensAt p = false := by
  cases hbody : item.body with
  | none => rfl
  | some b => exact beq_false_of_ne (h b hbody)

/-- A body in which nothing starts at the position is carried. -/
theorem Item.body_refilled (h : ∀ b ∈ item.body, ∀ t ∈ flatten b.tree, t.start ≠ p) :
    item.body.map (Group.recast e (TokenTree.refilled e p new)) =
      item.body.map (Group.recast e fun _ => carryAll e) := by
  cases hbody : item.body with
  | none => rfl
  | some b =>
    have htree := h b hbody
    simp only [Group.tree, flatten, List.forall_mem_cons, List.forall_mem_append] at htree
    simp only [Option.map_some, Group.recast, TokenTree.refilled, if_neg htree.1,
      TokenTree.refillAll_eq_carryAll htree.2.1, ite_self]

/-- What an item holds in its body is read from the body alone. -/
theorem Item.holds_of_body {item item' : Item} (hkind : item.kind = item'.kind)
    (hbody : item.body = item'.body) :
    item.members = item'.members ∧ item.inside = item'.inside := by
  obtain ⟨kind, name, body, stop, rest⟩ := item
  obtain ⟨kind', name', body', stop', rest'⟩ := item'
  cases hkind
  cases hbody
  exact ⟨rfl, rfl⟩

theorem Item.mem_flatten_body {t : Token} (ht : t ∈ flattenAll item.inside) :
    ∃ b ∈ item.body, t ∈ flatten b.tree := by
  rw [inside] at ht
  split at ht
  · cases hbody : item.body with
    | none =>
      rw [hbody] at ht
      cases ht
    | some b =>
      rw [hbody] at ht
      refine ⟨b, rfl, ?_⟩
      rw [Group.tree, flatten]
      exact List.mem_cons_of_mem _ (List.mem_append_left _ ht)
  · cases ht

namespace Refillable

variable {kind : ItemKind} {b : Group} {found : List Node}

/-- The place is behind a semicolon. -/
theorem behind_semicolon (hrest : (lead trees).rest = tree :: rest) (hsemi : tree.isPunct ";" = true)
    (h : Refillable kind b found rest nodes) :
    Refillable kind b found trees ((lead trees).inner ++ nodes) := by
  intro e new added hnew
  rw [List.map_append, Node.map_grow_of_isPlain fun n hn =>
    Attribute.isPlain_of_mem_lead (.inl hn), ← TokenTree.recast_refilled]
  refine .semicolon_recast Attribute.keepsBrackets_refilled hrest hsemi ?_
  rw [TokenTree.recast_refilled]
  exact h e new added hnew

/-- The place is behind an item, which is carried. -/
theorem behind_item (hrest : (lead trees).rest = tree :: rest) (hsemi : tree.isPunct ";" = false)
    (hread : Item.read stop (tree :: rest) = .ok item) (hmembers : item.members = .ok members)
    (held : Items item.inside inside) (hapart : StartApart (tree :: rest))
    (hwithin : b.Within item.rest) (h : Refillable kind b found item.rest nodes) :
    Refillable kind b found trees ((lead trees).inner ++
      item.toNode (lead trees).outer tree.start members inside :: nodes) := by
  intro e new added hnew
  obtain ⟨taken, -, htaken, htree⟩ := Item.read_isTaken hread (List.cons_ne_nil _ _)
  rw [htaken] at hapart
  have hne : ∀ body ∈ item.body, ∀ t ∈ flatten body.tree, t.start ≠ b.opener.start :=
    fun body hbody t ht => hapart.ne
      (TokenTree.mem_flattenAll.mpr ⟨_, (htree body hbody).1, ht⟩) hwithin.opener_mem
  obtain ⟨hmembers', hinside'⟩ : (item.recast e (TokenTree.refilled e b.opener.start new) []).members =
        (item.recast e (fun _ => carryAll e) []).members ∧
      (item.recast e (TokenTree.refilled e b.opener.start new) []).inside =
        (item.recast e (fun _ => carryAll e) []).inside :=
    Item.holds_of_body rfl (Item.body_refilled hne)
  have hinside : inside.map (Node.grow e b.opener.start added) = inside.map (Node.carry e) := by
    refine held.map_grow fun t ht => ?_
    obtain ⟨body, hbody, ht⟩ := Item.mem_flatten_body ht
    exact hne body hbody t ht
  have hparts : (members ++ inside).map (Node.grow e b.opener.start added) ++
      (if (Shape.item item.kind item.name (item.body.map Group.span)).opensAt b.opener.start
        then added else []) = members.map (Node.carry e) ++ inside.map (Node.carry e) := by
    rw [Item.not_opensAt_body fun body hbody => hne body hbody _ (TokenTree.head_mem_flatten _),
      if_neg Bool.false_ne_true, List.append_nil, List.map_append,
      Node.map_grow_of_isPlain (Item.isPlain_members hmembers), hinside]
  rw [List.map_append, List.map_cons, Node.map_grow_of_isPlain fun n hn =>
    Attribute.isPlain_of_mem_lead (.inl hn), ← Item.toNode_grow (fun n hn =>
      Attribute.isPlain_of_mem_lead (.inr hn)) hparts (TokenTree.refilled e b.opener.start new) [],
    ← TokenTree.recast_refilled]
  refine .item_recast Attribute.keepsBrackets_refilled hrest hsemi hread ?_ ?_ ?_
  · rw [hmembers', Item.members_carry hmembers]
  · rw [hinside', Item.inside_carry]
    exact held.carry
  · rw [TokenTree.recast_refilled]
    exact h e new added hnew

/-- The place is the body of an item. -/
theorem in_body (hrest : (lead trees).rest = tree :: rest) (hsemi : tree.isPunct ";" = false)
    (hread : Item.read stop (tree :: rest) = .ok item) (hmembers : item.members = .ok members)
    (following : Items item.rest nodes) (hblock : item.isBlock = false) (hbody : item.body = some b)
    (hmark : b.opener.isPunct "[" = false)
    (hbehind : ∀ t ∈ flattenAll item.rest, t.start ≠ b.opener.start) :
    Refillable item.kind b members trees ((lead trees).inner ++
      item.toNode (lead trees).outer tree.start members [] :: nodes) := by
  intro e new added hnew
  have hbody' : (item.recast e (TokenTree.refilled e b.opener.start new) []).body =
      some (b.holding e new) := by
    simp only [Item.recast, hbody, Option.map_some, Group.recast, TokenTree.refilled, hmark,
      Bool.false_eq_true, if_false, if_true]
    rfl
  have hparts : (members ++ []).map (Node.grow e b.opener.start added) ++
      (if (Shape.item item.kind item.name (item.body.map Group.span)).opensAt b.opener.start
        then added else []) = (members.map (Node.carry e) ++ added) ++ [] := by
    rw [Item.opensAt_body hbody, if_pos rfl, List.append_nil, List.append_nil,
      Node.map_grow_of_isPlain (Item.isPlain_members hmembers)]
  rw [List.map_append, List.map_cons, Node.map_grow_of_isPlain fun n hn =>
    Attribute.isPlain_of_mem_lead (.inl hn), ← Item.toNode_grow (fun n hn =>
      Attribute.isPlain_of_mem_lead (.inr hn)) hparts (TokenTree.refilled e b.opener.start new) [],
    ← TokenTree.recast_refilled]
  refine .item_recast Attribute.keepsBrackets_refilled hrest hsemi hread ?_ ?_ ?_
  · rw [Item.members_of_body hbody']
    exact hnew
  · have hblock' : (item.recast e (TokenTree.refilled e b.opener.start new) []).isBlock = false :=
      hblock
    rw [Item.inside_of_not_isBlock hblock']
    exact .nil
  · rw [TokenTree.recast_refilled, TokenTree.map_refill_eq_carry hbehind, following.map_grow hbehind]
    exact following.carry

/-- The place is in the body of an item that holds others. -/
theorem in_block {outer : Group} (hrest : (lead trees).rest = tree :: rest)
    (hsemi : tree.isPunct ";" = false) (hread : Item.read stop (tree :: rest) = .ok item)
    (following : Items item.rest nodes) (hblock : item.isBlock = true)
    (hbody : item.body = some outer) (hmark : outer.opener.isPunct "[" = false)
    (hopener : outer.opener.start ≠ b.opener.start)
    (hbehind : ∀ t ∈ flattenAll item.rest, t.start ≠ b.opener.start) {held : List Node}
    (h : Refillable kind b found outer.inner held) :
    Refillable kind b found trees ((lead trees).inner ++
      item.toNode (lead trees).outer tree.start [] held :: nodes) := by
  intro e new added hnew
  have hblock' : (item.recast e (TokenTree.refilled e b.opener.start new) []).isBlock = true :=
    hblock
  have hinside : (item.recast e (TokenTree.refilled e b.opener.start new) []).inside =
      outer.inner.map (TokenTree.refill e b.opener.start new) := by
    rw [Item.inside, hblock', if_pos rfl]
    simp only [Item.recast, hbody, Option.map_some, Group.recast, TokenTree.refilled, hmark,
      hopener, Bool.false_eq_true, if_false, Option.getD_some, TokenTree.refillAll_eq_map]
  have hparts : ([] ++ held).map (Node.grow e b.opener.start added) ++
      (if (Shape.item item.kind item.name (item.body.map Group.span)).opensAt b.opener.start
        then added else []) = [] ++ held.map (Node.grow e b.opener.start added) := by
    have hne : ∀ body ∈ item.body, body.opener.start ≠ b.opener.start := by
      rw [hbody]
      rintro body ⟨⟩
      exact hopener
    rw [Item.not_opensAt_body hne, if_neg Bool.false_ne_true, List.append_nil, List.nil_append,
      List.nil_append]
  rw [List.map_append, List.map_cons, Node.map_grow_of_isPlain fun n hn =>
    Attribute.isPlain_of_mem_lead (.inl hn), ← Item.toNode_grow (fun n hn =>
      Attribute.isPlain_of_mem_lead (.inr hn)) hparts (TokenTree.refilled e b.opener.start new) [],
    ← TokenTree.recast_refilled]
  refine .item_recast Attribute.keepsBrackets_refilled hrest hsemi hread
    (Item.members_of_isBlock hblock') ?_ ?_
  · rw [hinside]
    exact h e new added hnew
  · rw [TokenTree.recast_refilled, TokenTree.map_refill_eq_carry hbehind, following.map_grow hbehind]
    exact following.carry

end Refillable

namespace IsBodyOf

variable {kind : ItemKind} {b : Group} {found nodes' : List Node}

theorem of_suffix (h : IsBodyOf kind b found rest nodes) (hs : rest <:+ trees)
    (hrefill : Refillable kind b found trees nodes') : IsBodyOf kind b found trees nodes' := by
  obtain ⟨front, rfl⟩ := hs
  exact ⟨h.mark, h.members, h.within.append front, hrefill⟩

/-- The body of an item that holds no others. -/
theorem of_item (hrest : (lead trees).rest = tree :: rest) (hsemi : tree.isPunct ";" = false)
    (hread : Item.read stop (tree :: rest) = .ok item) (hmembers : item.members = .ok members)
    (following : Items item.rest nodes) (hblock : item.isBlock = false) (hbody : item.body = some b)
    (hapart : StartApart trees) :
    IsBodyOf item.kind b members trees ((lead trees).inner ++
      item.toNode (lead trees).outer tree.start members [] :: nodes) := by
  obtain ⟨hmark, ⟨front, behind, htrees⟩, hbehind⟩ := Item.body_split hrest hread hbody hapart
  have hwithin : b.Within trees := htrees ▸ .here front behind
  exact ⟨hmark, Item.members_of_body hbody ▸ hmembers, hwithin,
    .in_body hrest hsemi hread hmembers following hblock hbody (Group.not_bracket hmark)
      (hbehind _ (TokenTree.head_mem_flatten b.tree))⟩

/-- A body among the items that another one holds. -/
theorem in_block {outer : Group} {held : List Node} (hrest : (lead trees).rest = tree :: rest)
    (hsemi : tree.isPunct ";" = false) (hread : Item.read stop (tree :: rest) = .ok item)
    (following : Items item.rest nodes) (hblock : item.isBlock = true)
    (hbody : item.body = some outer) (hapart : StartApart trees)
    (h : IsBodyOf kind b found outer.inner held) :
    IsBodyOf kind b found trees ((lead trees).inner ++
      item.toNode (lead trees).outer tree.start [] held :: nodes) := by
  obtain ⟨hmark, ⟨front, behind, htrees⟩, hbehind⟩ := Item.body_split hrest hread hbody hapart
  have hbracket := Group.not_bracket hmark
  have hmem : b.opener ∈ flatten outer.tree := by
    simp [Group.tree, flatten, h.within.opener_mem]
  have hwithin : b.Within trees := htrees ▸ .inside front behind hbracket h.within
  rw [htrees] at hapart
  obtain ⟨-, -, hopener, -⟩ := hapart.group
  exact ⟨h.mark, h.members, hwithin, h.refillable.in_block hrest hsemi hread following hblock hbody
    hbracket (hopener _ h.within.opener_mem).symm (hbehind _ hmem)⟩

end IsBodyOf

end Step

/-- **The body of an item that is found in the nodes can be refilled**, in whatever items the item
stands. -/
theorem Items.refillable {trees : List TokenTree} {nodes : List Node} {n : Node} {kind : ItemKind}
    {span : Span} (h : Items trees nodes) (hapart : StartApart trees) (hn : n ∈ Node.walkAll nodes)
    (hkind : n.itemKind? = some kind) (hblock : kind ∉ [.module, .trait_, .impl])
    (hbody : n.body? = some span) :
    ∃ b attributes found, b.span = span ∧ n.children = attributes ++ found ∧
      (∀ a ∈ attributes, a.isAttribute = true) ∧ IsBodyOf kind b found trees nodes := by
  have hamong := h.among hn hkind
  clear h hn
  induction hamong with
  | @next stop trees rest tree item members inside nodes hrest hsemi hread hmembers held following hnode =>
    subst hnode
    obtain rfl : item.kind = kind := Option.some.inj hkind
    obtain ⟨b, hb, rfl⟩ := Option.map_eq_some_iff.mp hbody
    have hnotBlock : item.isBlock = false := by
      simpa [Item.isBlock, and_assoc] using hblock
    rw [Item.inside_of_not_isBlock hnotBlock] at held
    obtain rfl := held.eq_nil
    refine ⟨b, (lead trees).outer, members, rfl, List.append_nil _, fun a ha => ?_,
      .of_item hrest hsemi hread hmembers following hnotBlock hb hapart⟩
    obtain ⟨_, _, _, _, rfl⟩ := Attribute.mem_lead (.inr ha)
    rfl
  | behind_semicolon hrest hsemi hsuffix _ ih =>
    obtain ⟨b, attributes, found, hspan, hchildren, hattributes, hb⟩ := ih (hapart.of_suffix hsuffix)
    exact ⟨b, attributes, found, hspan, hchildren, hattributes,
      hb.of_suffix hsuffix (hb.refillable.behind_semicolon hrest hsemi)⟩
  | in_block hrest hsemi hread following hisBlock hb _ ih =>
    obtain ⟨-, ⟨front, behind, rfl⟩, -⟩ := Item.body_split hrest hread hb hapart
    obtain ⟨b, attributes, found, hspan, hchildren, hattributes, hbody⟩ := ih hapart.group.1
    exact ⟨b, attributes, found, hspan, hchildren, hattributes,
      hbody.in_block hrest hsemi hread following hisBlock hb hapart⟩
  | @behind_item stop trees rest tree item members inside nodes hrest hsemi hread hmembers held hsuffix _ ih =>
    obtain ⟨b, attributes, found, hspan, hchildren, hattributes, hb⟩ := ih (hapart.of_suffix hsuffix)
    have hapart' := hapart.of_suffix (hrest ▸ Attribute.rest_lead_suffix trees : tree :: rest <:+ trees)
    exact ⟨b, attributes, found, hspan, hchildren, hattributes, hb.of_suffix hsuffix
      (hb.refillable.behind_item hrest hsemi hread hmembers held hapart' hb.within)⟩

/-! ### The body in a text -/

/-- A group is the body of an item that is read from the text. The tokens are those in front of the body,
the body's and those behind it; other trees can take the place of what it holds. -/
structure BodyIn (source : List Char) (nodes : List Node) (n : Node) (kind : ItemKind) (b : Group)
    (found : List Node) (front back : List Token) : Prop where
  span : n.body? = some b.span
  mark : b.isBody = true
  closes : b.opener.closes b.closer = true
  nested : isNestedAll b.inner = true
  members : b.members kind = .ok found
  children : ∃ attributes, n.children = attributes ++ found ∧ ∀ a ∈ attributes, a.isAttribute = true
  tokens : tokenize source = .ok (front ++ b.opener :: (flattenAll b.inner ++ b.closer :: back))
  refill : ∀ (e : Edges) (new : List TokenTree) (added : List Node), isNestedAll new = true →
    (b.holding e new).members kind = .ok (found.map (Node.carry e) ++ added) →
      ∃ trees, flattenAll trees = front.map (·.carry e) ++ b.opener.carry e ::
          (flattenAll new ++ b.closer.carry e :: back.map (·.carry e)) ∧
        isNestedAll trees = true ∧ Items trees (nodes.map (Node.grow e b.opener.start added))

namespace BodyIn

variable {source : List Char} {nodes found : List Node} {n : Node} {kind : ItemKind} {b : Group}
  {front back : List Token}

/-- A field is among the members. -/
theorem mem_found (h : BodyIn source nodes n kind b found front back) {f : Node} {type : Span}
    (hf : f ∈ n.children) (htype : f.type? = some type) : f ∈ found := by
  obtain ⟨attributes, hchildren, hattributes⟩ := h.children
  rw [hchildren] at hf
  refine (List.mem_append.mp hf).resolve_left fun ha => ?_
  have hattribute := hattributes f ha
  rw [Node.type?] at htype
  rw [Node.isAttribute] at hattribute
  split at htype
  · rename_i hshape
    rw [hshape] at hattribute
    cases hattribute
  · cases htype

/-- A body that is not in parentheses is in braces. -/
theorem brace (h : BodyIn source nodes n kind b found front back) (htuple : b.isTuple = false) :
    b.opener.isPunct "\x7b" = true := by
  have hopener := Token.isOpener_of_closes h.closes
  have hparen : b.opener.isPunct "(" = false := htuple
  have hbracket := Group.not_bracket h.mark
  simpa [Token.isOpener, hparen, hbracket] using hopener

/-- A body that begins with a brace in the text is not in parentheses. -/
theorem isTuple_eq_false (h : BodyIn source nodes n kind b found front back)
    (hbrace : source[b.opener.start]? = some '\x7b') : b.isTuple = false := by
  have hchar := (Lexer.run_of_lexFrom h.tokens).getElem?_start (t := b.opener) (by simp)
  rw [← Bool.not_eq_true, Group.isTuple, Token.isPunct, Bool.and_eq_true, beq_iff_eq, beq_iff_eq]
  rintro ⟨-, htext⟩
  rw [Nat.sub_zero, htext, String.toList_ofList, hbrace] at hchar
  cases hchar

end BodyIn

theorem Reads.bodyIn {source : List Char} {trees : List TokenTree} {nodes : List Node} {n : Node}
    {kind : ItemKind} {span : Span} (h : Reads source trees nodes) (hn : n ∈ Node.walkAll nodes)
    (hkind : n.itemKind? = some kind) (hblock : kind ∉ [.module, .trait_, .impl])
    (hbody : n.body? = some span) :
    ∃ b found front back, b.span = span ∧ BodyIn source nodes n kind b found front back := by
  have hapart : StartApart trees := (Lexer.run_of_lexFrom h.tokens).start_nodup
  obtain ⟨b, attributes, found, rfl, hchildren, hattributes, hb⟩ :=
    h.items.refillable hapart hn hkind hblock hbody
  obtain ⟨front, back, hflat, hrefill⟩ :=
    hb.within.flattenAll_refill (Group.not_bracket hb.mark) hapart
  obtain ⟨hcloses, hinner⟩ := hb.within.nested h.nested
  refine ⟨b, found, front, back, rfl, hbody, hb.mark, hcloses, hinner, hb.members,
    ⟨attributes, hchildren, hattributes⟩, hflat ▸ h.tokens, fun e new added hnew hmembers => ?_⟩
  refine ⟨_, hrefill e new, ?_, hb.refillable e new added hmembers⟩
  rw [← TokenTree.refillAll_eq_map, TokenTree.isNestedAll_refillAll hnew h.nested]

end ContractSync.Rust
