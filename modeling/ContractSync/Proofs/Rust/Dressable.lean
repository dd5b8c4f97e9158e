import ContractSync.Proofs.Rust.AttributeList
import ContractSync.Proofs.Rust.CutItem
import ContractSync.Proofs.Rust.Dress
import ContractSync.Proofs.Rust.Place
import ContractSync.Proofs.Rust.Refill

/-!
# Other attributes in front of a declaration

**Where other attributes take the place of those of a struct or an enum, the trees are read as they were,
carried, with the declaration dressed** (`Items.dressable`). The declaration can stand behind other items or
in a block. An item in front of it comes to its end with a mark of its own (`Item.read_cut`), so nothing that
is read there has a part in the attributes (`Dressable.behind`).
-/

namespace ContractSync.Rust

open Attribute (lead)
open TokenTree (carryAll flatten flattenAll isNested isNestedAll)

variable {e : Edges} {p : Nat} {attributes : List Node}

theorem TokenTree.isNestedAll_of_suffix {trees rest : List TokenTree} (h : isNestedAll trees = true)
    (hs : rest <:+ trees) : isNestedAll rest = true := by
  obtain ⟨front, rfl⟩ := hs
  rw [isNestedAll_append, Bool.and_eq_true] at h
  exact h.2

/-- No semicolon begins attributes. -/
theorem Attributes.semicolon_first {new more : List TokenTree} {inner outer : List Node}
    (h : Attributes new inner outer) (hfirst : ((new ++ more).head?.any (·.isPunct ";")) = true) :
    (more.head?.any (·.isPunct ";")) = true := by
  rw [List.head?_append] at hfirst
  cases hhead : new.head? with
  | some hash =>
    rw [hhead, Option.some_or, Option.any_some, TokenTree.isPunct,
      Token.isPunct_of_ne (h.head hhead) (by decide)] at hfirst
    cases hfirst
  | none =>
    rw [hhead, Option.none_or] at hfirst
    exact hfirst

/-- No token behind an item starts where the item starts. -/
theorem Item.start_ne_rest {stop : Nat} {own rest : List TokenTree} {tree : TokenTree} {item : Item}
    (hread : Item.read stop (tree :: rest) = .ok item) (hapart : StartApart (own ++ tree :: rest)) :
    ∀ t ∈ flattenAll item.rest, t.start ≠ tree.start := by
  obtain ⟨taken, hne, htaken, -⟩ := Item.read_isTaken hread (List.cons_ne_nil _ _)
  obtain ⟨first, taken, rfl⟩ := List.exists_cons_of_ne_nil hne
  obtain ⟨rfl, -⟩ := List.cons.inj htaken
  rw [htaken, ← List.append_assoc] at hapart
  intro t ht
  rw [← TokenTree.start_head]
  exact (hapart.ne (TokenTree.mem_flattenAll.mpr ⟨tree, by simp, TokenTree.head_mem_flatten tree⟩) ht).symm

/-- The attributes `own`, read as `inner` and `outer`, stand in front of the declaration that starts at `p`,
and others can take the place of the outer ones. What is in front of them ends with a border. -/
structure Dressable (p : Nat) (own : List TokenTree) (inner outer : List Node) (front back : List Token)
    (trees : List TokenTree) (nodes : List Node) : Prop where
  attributes : Attributes own inner outer
  nested : isNestedAll own = true
  tokens : flattenAll trees = front ++ (flattenAll own ++ back)
  place : back.head?.map Token.start = some p
  border : ∀ t ∈ front.getLast?, t.isBorder = true
  dress : ∀ (e : Edges) (new : List TokenTree) (attributes : List Node),
    Attributes new (inner.map (Node.carry e)) attributes → isNestedAll new = true →
    ∃ trees', flattenAll trees' = front.map (·.carry e) ++ (flattenAll new ++ back.map (·.carry e)) ∧
      isNestedAll trees' = true ∧
      ((trees'.head?.any (·.isPunct ";")) = true → (trees.head?.any (·.isPunct ";")) = true) ∧
      Items trees' (nodes.map (Node.dress e p attributes))

/-- The node of a declaration with other attributes. -/
theorem Item.toNode_dress {item : Item} {outer members : List Node} {itemStart : Nat}
    (hdata : (item.toNode outer itemStart members []).isData = true)
    (houter : ∀ a ∈ outer, a.isAttribute = true) (hmembers : ∀ m ∈ members, m.isAttribute = false)
    (content : Token → List TokenTree → List TokenTree) (more : List TokenTree) :
    (item.recast e content more).toNode attributes (e.start itemStart) (members.map (Node.carry e)) [] =
      (item.toNode outer itemStart members []).dress e itemStart attributes := by
  have hfilter : (outer ++ members ++ []).filter (!·.isAttribute) = members := by
    rw [List.append_nil, List.filter_append, List.filter_eq_nil_iff.mpr fun a ha => by
      simp [houter a ha], List.nil_append, List.filter_eq_self.mpr fun m hm => by simp [hmembers m hm]]
  have hat : (item.toNode outer itemStart members []).isDataAt itemStart = true := by
    rw [Node.isDataAt, hdata, Bool.true_and]
    exact beq_self_eq_true _
  have hbody : (item.body.map (Group.recast e content)).map Group.span =
      (item.body.map Group.span).map (Span.move e.start) := by
    cases item.body <;> rfl
  rw [Node.dress_of_isDataAt hat, toNode, toNode, Node.withAttributes, hfilter, List.append_nil, Item.recast,
    Shape.carry, hbody]

/-- The node of a block of items. -/
theorem Item.toNode_dress_of_isBlock {item : Item} {outer held : List Node} (hblock : item.isBlock = true)
    (houter : ∀ a ∈ outer, a.IsPlain) (itemStart : Nat) (content : Token → List TokenTree → List TokenTree)
    (more : List TokenTree) :
    (item.toNode outer itemStart [] held).dress e p attributes =
      (item.recast e content more).toNode (outer.map (Node.carry e)) (e.start itemStart) []
        (held.map (Node.dress e p attributes)) := by
  have hdata : (item.toNode outer itemStart [] held).isDataAt p = false := by
    rw [Node.isDataAt, Bool.and_eq_false_iff, ← Bool.not_eq_true]
    refine .inl fun hdata => ?_
    rw [Item.not_isBlock_of_isData hdata] at hblock
    cases hblock
  rw [Item.toNode_recast, Item.toNode, Node.dress_mk hdata, List.append_nil, List.append_nil,
    List.map_append, Node.map_dress_of_isPlain houter]

/-- What a block holds is what stands in its braces now. -/
theorem Item.inside_refilled {item : Item} {b : Group} (hblock : item.isBlock = true)
    (hbody : item.body = some b) (hbracket : b.opener.isPunct "[" = false) (content : List TokenTree) :
    (item.recast e (TokenTree.refilled e b.opener.start content) []).inside = content := by
  have hblock' : (item.recast e (TokenTree.refilled e b.opener.start content) []).isBlock = true := hblock
  rw [Item.inside, hblock', if_pos rfl]
  simp only [Item.recast, hbody, Option.map_some, Group.recast, TokenTree.refilled, hbracket,
    Bool.false_eq_true, if_false, if_true, Option.getD_some]

namespace Dressable

variable {stop : Nat} {trees rest own : List TokenTree} {tree : TokenTree} {item : Item}
  {members inside nodes inner outer : List Node} {front back : List Token}

/-- The declaration starts with one of the tokens. -/
theorem exists_first (h : Dressable p own inner outer front back trees nodes) :
    ∃ t ∈ flattenAll trees, t.start = p := by
  obtain ⟨t, ht, hstart⟩ := Option.map_eq_some_iff.mp h.place
  refine ⟨t, ?_, hstart⟩
  rw [h.tokens]
  exact List.mem_append_right _ (List.mem_append_right _ (List.mem_of_mem_head? ht))

theorem ne_nil (h : Dressable p own inner outer front back trees nodes) : trees ≠ [] := by
  rintro rfl
  obtain ⟨t, ht, -⟩ := h.exists_first
  cases ht

/-- A border stays one behind other tokens that end with a border. -/
theorem border_append (h : Dressable p own inner outer front back trees nodes) {ahead : List Token}
    (hborder : ∀ t ∈ ahead.getLast?, t.isBorder = true) :
    ∀ t ∈ (ahead ++ front).getLast?, t.isBorder = true := by
  intro t ht
  rw [List.getLast?_append] at ht
  cases hlast : front.getLast? with
  | some u =>
    rw [hlast] at ht
    cases ht
    exact h.border _ hlast
  | none =>
    rw [hlast] at ht
    exact hborder t ht

/-- The declaration is the first of the items. -/
theorem here (hrest : (lead trees).rest = tree :: rest) (hsemi : tree.isPunct ";" = false)
    (hread : Item.read stop (tree :: rest) = .ok item) (hmembers : item.members = .ok members)
    (following : Items item.rest nodes)
    (hdata : (item.toNode (lead trees).outer tree.start members []).isData = true)
    (hnested : isNestedAll trees = true) (hapart : StartApart trees) :
    ∃ own back, Dressable tree.start own (lead trees).inner (lead trees).outer [] back trees
      ((lead trees).inner ++ item.toNode (lead trees).outer tree.start members [] :: nodes) := by
  obtain ⟨own, htrees, hown⟩ := Attributes.exists_front trees
  rw [hrest] at htrees
  have hlead : lead (tree :: rest) = ⟨[], [], tree :: rest⟩ := hrest ▸ Attributes.lead_rest trees
  have hboth : isNestedAll own = true ∧ isNestedAll (tree :: rest) = true := by
    rw [htrees, TokenTree.isNestedAll_append, Bool.and_eq_true] at hnested
    exact hnested
  have hbehind := Item.start_ne_rest hread (htrees ▸ hapart)
  refine ⟨own, flattenAll (tree :: rest), hown, hboth.1, ?_, ?_, nofun,
    fun e new attributes hnew hnewNested => ?_⟩
  · rw [List.nil_append, ← TokenTree.flattenAll_append, ← htrees]
  · rw [TokenTree.head?_flattenAll, List.head?_cons, Option.map_some, Option.map_some, TokenTree.start_head]
  have hcarry : lead ((tree :: rest).map (TokenTree.carry e)) =
      ⟨[], [], (tree :: rest).map (TokenTree.carry e)⟩ := by
    rw [Attribute.lead_carry, hlead]
    rfl
  have hlead' := hnew.lead_append ((tree :: rest).map (TokenTree.carry e))
  rw [hcarry, List.append_nil, List.append_nil] at hlead'
  refine ⟨new ++ (tree :: rest).map (TokenTree.carry e), ?_, ?_, ?_, ?_⟩
  · rw [TokenTree.flattenAll_append, TokenTree.flattenAll_map_carry]
    rfl
  · rw [TokenTree.isNestedAll_append, TokenTree.isNestedAll_map_carry, hnewNested, hboth.2]
    rfl
  · intro hfirst
    have hmark := hnew.semicolon_first hfirst
    rw [List.map_cons, List.head?_cons, Option.any_some, TokenTree.isPunct_carry, hsemi] at hmark
    cases hmark
  · have hread' : Item.read stop
        ((tree :: rest).map (TokenTree.recast e fun _ => TokenTree.carryAll e) ++ []) =
        .ok (item.recast e (fun _ => TokenTree.carryAll e) []) :=
      Item.read_recast hread (List.cons_ne_nil _ _) (.inl rfl) stop
    rw [List.append_nil, TokenTree.recast_carryAll, List.map_cons] at hread'
    have held : Items (item.recast e (fun _ => TokenTree.carryAll e) []).inside [] := by
      rw [Item.inside_carry, Item.inside_of_not_isBlock (Item.not_isBlock_of_isData hdata)]
      exact .nil
    have hfollowing : Items (item.recast e (fun _ => TokenTree.carryAll e) []).rest
        (nodes.map (Node.carry e)) := by
      rw [Item.recast, TokenTree.recast_carryAll, List.append_nil]
      exact following.carry
    have hrest' : (lead (new ++ (tree :: rest).map (TokenTree.carry e))).rest =
        tree.carry e :: rest.map (TokenTree.carry e) := by
      rw [hlead']
      rfl
    have hitems := Items.item hrest' (by rw [TokenTree.isPunct_carry, hsemi]) hread'
      (Item.members_carry hmembers []) held hfollowing
    rw [hlead', TokenTree.start_carry, Item.toNode_dress hdata hown.isAttribute
      (Item.not_isAttribute_members hmembers)] at hitems
    rw [List.map_append, Node.map_dress_of_isPlain fun n hn => Attribute.isPlain_of_mem_lead (.inl hn),
      List.map_cons (f := Node.dress e tree.start attributes), following.map_dress hbehind]
    exact hitems

/-- The declaration is behind items that have come to their end. -/
theorem behind {done more : List TokenTree} {found : List Node} (hdone : Items done found)
    (hnested : isNestedAll done = true) (hne : done ≠ [])
    (hborder : ∀ t ∈ (flattenAll done).getLast?, t.isBorder = true)
    (hclosed : ∀ (e : Edges) (trees : List TokenTree),
      ((trees.head?.any (·.isPunct ";")) = true → (more.head?.any (·.isPunct ";")) = true) →
        Closed (done.map (TokenTree.carry e)) (found.map (Node.carry e)) trees)
    (hapart : StartApart (done ++ more)) (h : Dressable p own inner outer front back more nodes) :
    Dressable p own inner outer (flattenAll done ++ front) back (done ++ more) (found ++ nodes) := by
  have hp : ∀ t ∈ flattenAll done, t.start ≠ p := by
    obtain ⟨u, hu, rfl⟩ := h.exists_first
    exact fun t ht => hapart.ne ht hu
  refine ⟨h.attributes, h.nested, ?_, h.place, h.border_append hborder,
    fun e new attributes hnew hnewNested => ?_⟩
  · rw [TokenTree.flattenAll_append, h.tokens, List.append_assoc]
  · obtain ⟨trees', htokens, hnested', hfirst, hitems⟩ := h.dress e new attributes hnew hnewNested
    obtain ⟨first, done', rfl⟩ := List.exists_cons_of_ne_nil hne
    refine ⟨(first :: done').map (TokenTree.carry e) ++ trees', ?_, ?_, ?_, ?_⟩
    · rw [TokenTree.flattenAll_append, TokenTree.flattenAll_map_carry, htokens, List.map_append,
        List.append_assoc]
    · rw [TokenTree.isNestedAll_append, TokenTree.isNestedAll_map_carry, hnested, hnested']
      rfl
    · rw [List.map_cons, List.cons_append, List.cons_append, List.head?_cons, List.head?_cons, Option.any_some,
        Option.any_some, TokenTree.isPunct_carry]
      exact id
    · rw [List.map_append, hdone.map_dress hp]
      exact (hdone.carry.append_iff (hclosed e trees' hfirst)).mpr ⟨_, hitems, rfl⟩

/-- The last of the tokens, where items come to their end. -/
theorem isBorder_of_last {last : TokenTree} (hnested : isNestedAll (trees ++ [last]) = true)
    (hlast : last.isPunct ";" = true ∨ last.isPunct "\x7b" = true) :
    ∀ t ∈ (flattenAll (trees ++ [last])).getLast?, t.isBorder = true := by
  rw [TokenTree.isNestedAll_append, isNestedAll, Bool.and_eq_true, Bool.and_eq_true] at hnested
  intro t ht
  cases last with
  | leaf u =>
    rw [TokenTree.flattenAll_concat, flatten, List.getLast?_concat] at ht
    cases ht
    rcases hlast with hsemi | hopen
    · have hsemi : t.isPunct ";" = true := hsemi
      rw [Token.isBorder, hsemi]
      rfl
    · have hopener : t.isOpener = true := by
        have hopen : t.isPunct "\x7b" = true := hopen
        rw [Token.isOpener, hopen, Bool.or_true]
      rw [Token.isBorder, hopener, Bool.or_true]
      rfl
  | group opener content closer =>
    rw [TokenTree.flattenAll_concat, flatten, ← List.cons_append, ← List.append_assoc,
      List.getLast?_concat] at ht
    cases ht
    rw [isNested, Bool.and_eq_true] at hnested
    rw [Token.isBorder, Token.isCloser_of_closes hnested.2.1.1, Bool.or_true]

theorem behind_semicolon (hrest : (lead trees).rest = tree :: rest) (hsemi : tree.isPunct ";" = true)
    (hnested : isNestedAll trees = true) (hapart : StartApart trees)
    (h : Dressable p own inner outer front back rest nodes) :
    ∃ front, Dressable p own inner outer front back trees ((lead trees).inner ++ nodes) := by
  obtain ⟨ahead, htrees, hahead⟩ := Attributes.exists_front trees
  have hlead : lead [tree] = ⟨[], [], [tree]⟩ :=
    Attributes.lead_cut (b := rest) (by
      rw [List.singleton_append, ← hrest]
      exact Attributes.lead_rest trees)
  have hlead' := hahead.lead_append [tree]
  rw [hlead, List.append_nil, List.append_nil] at hlead'
  have hrest' : (lead (ahead ++ [tree])).rest = [tree] := by rw [hlead']
  have hdone := Items.semicolon hrest' hsemi .nil
  rw [hlead', List.append_nil] at hdone
  rw [hrest, ← List.singleton_append, ← List.append_assoc] at htrees
  rw [htrees] at hnested hapart
  have hnested' : isNestedAll (ahead ++ [tree]) = true := by
    rw [TokenTree.isNestedAll_append, Bool.and_eq_true] at hnested
    exact hnested.1
  have hclosed : ∀ (e : Edges) (more : List TokenTree),
      Closed ((ahead ++ [tree]).map (TokenTree.carry e)) ((lead trees).inner.map (Node.carry e)) more := by
    intro e more
    refine .inr (.inl ⟨tree.carry e, ?_, .inl ?_⟩)
    · rw [List.map_append, List.map_singleton, List.getLast?_concat]
    · rw [TokenTree.isPunct_carry, hsemi]
  have hall := h.behind hdone hnested' (by simp) (isBorder_of_last hnested' (.inl hsemi))
    (fun e more _ => hclosed e more) hapart
  rw [← htrees] at hall
  exact ⟨_, hall⟩

theorem behind_item (hrest : (lead trees).rest = tree :: rest) (hsemi : tree.isPunct ";" = false)
    (hread : Item.read stop (tree :: rest) = .ok item) (hmembers : item.members = .ok members)
    (held : Items item.inside inside) (hnested : isNestedAll trees = true) (hapart : StartApart trees)
    (h : Dressable p own inner outer front back item.rest nodes) :
    ∃ front, Dressable p own inner outer front back trees ((lead trees).inner ++
      item.toNode (lead trees).outer tree.start members inside :: nodes) := by
  obtain ⟨ahead, htrees, hahead⟩ := Attributes.exists_front trees
  obtain ⟨taken, last, htaken, hends, hcut⟩ := Item.read_cut hread h.ne_nil
  have hlead : lead (taken ++ [last]) = ⟨[], [], taken ++ [last]⟩ :=
    Attributes.lead_cut (b := item.rest) (by
      rw [List.append_assoc, List.singleton_append, ← htaken, ← hrest]
      exact Attributes.lead_rest trees)
  have hlead' := hahead.lead_append (taken ++ [last])
  rw [hlead, List.append_nil, List.append_nil] at hlead'
  -- The item begins with the same tree when it is cut off.
  obtain ⟨rest', hrest'⟩ : ∃ rest', taken ++ [last] = tree :: rest' := by
    cases taken with
    | nil => exact ⟨[], by rw [(List.cons.inj htaken).1]; rfl⟩
    | cons first taken => exact ⟨taken ++ [last], by rw [(List.cons.inj htaken).1]; rfl⟩
  have hrest'' : (lead (ahead ++ (taken ++ [last]))).rest = tree :: rest' := by rw [hlead', hrest']
  rw [hrest'] at hcut
  have hdone := Items.item hrest'' hsemi hcut hmembers held .nil
  rw [hlead'] at hdone
  have htrees' : trees = (ahead ++ (taken ++ [last])) ++ item.rest := by
    rw [List.append_assoc, List.append_assoc, List.singleton_append, ← htaken, ← hrest]
    exact htrees
  rw [htrees'] at hnested hapart
  have hnested' : isNestedAll (ahead ++ (taken ++ [last])) = true := by
    rw [TokenTree.isNestedAll_append, Bool.and_eq_true] at hnested
    exact hnested.1
  have hborder : ∀ t ∈ (flattenAll (ahead ++ (taken ++ [last]))).getLast?, t.isBorder = true := by
    rw [← List.append_assoc] at hnested' ⊢
    exact isBorder_of_last hnested' (hends.imp_right And.left)
  have hall := h.behind hdone hnested' (by simp) hborder (fun e more hmore => ?_) hapart
  · rw [← htrees', List.append_assoc] at hall
    exact ⟨_, hall⟩
  by_cases hkind : item.kind = .other
  · refine .inr (.inl ⟨last.carry e, ?_, ?_⟩)
    · rw [← List.append_assoc, List.map_append, List.map_singleton, List.getLast?_concat]
    · rw [TokenTree.isPunct_carry, TokenTree.isPunct_carry]
      refine hends.imp_right fun hbrace => ⟨hbrace.1, ?_⟩
      rw [← Bool.not_eq_true]
      intro hfirst
      rw [hbrace.2 hkind] at hmore
      cases hmore hfirst
  · refine .inr (.inr ⟨_, by rw [List.map_append, List.map_singleton, List.getLast?_concat], ?_⟩)
    rw [Node.isClosed, Node.shape_carry]
    exact bne_iff_ne.mpr hkind

theorem in_block {b : Group} {held : List Node} (hrest : (lead trees).rest = tree :: rest)
    (hsemi : tree.isPunct ";" = false) (hread : Item.read stop (tree :: rest) = .ok item)
    (following : Items item.rest nodes) (hblock : item.isBlock = true) (hbody : item.body = some b)
    (hnested : isNestedAll trees = true) (hapart : StartApart trees)
    (h : Dressable p own inner outer front back b.inner held) :
    ∃ front back, Dressable p own inner outer front back trees ((lead trees).inner ++
      item.toNode (lead trees).outer tree.start [] held :: nodes) := by
  obtain ⟨hmark, ⟨ahead, after, htrees⟩, hbehind⟩ := Item.body_split hrest hread hbody hapart
  have hwithin : b.Within trees := htrees ▸ .here ahead after
  have hbracket := Group.not_bracket hmark
  obtain ⟨ahead, after, htokens, hrefill⟩ := hwithin.flattenAll_refill hbracket hapart
  have hopener : b.opener.isBorder = true := by
    rw [Token.isBorder, Token.isOpener_of_closes (hwithin.nested hnested).1, Bool.or_true]
    rfl
  have hp : ∀ t ∈ flattenAll item.rest, t.start ≠ p := by
    obtain ⟨u, hu, rfl⟩ := h.exists_first
    exact hbehind u (List.mem_cons_of_mem _ (List.mem_append_left _ hu))
  have hbody' : ∀ t ∈ flattenAll item.rest, t.start ≠ b.opener.start :=
    hbehind _ (TokenTree.head_mem_flatten b.tree)
  have hborder : ∀ t ∈ (ahead ++ [b.opener]).getLast?, t.isBorder = true := by
    rw [List.getLast?_concat]
    exact forall_mem_some hopener
  refine ⟨ahead ++ [b.opener] ++ front, back ++ b.closer :: after, h.attributes, h.nested, ?_, ?_,
    h.border_append hborder, fun e new attributes hnew hnewNested => ?_⟩
  · rw [htokens, h.tokens]
    simp only [List.append_assoc, List.cons_append, List.nil_append]
  · rw [List.head?_append]
    obtain ⟨u, hu, hstart⟩ := Option.map_eq_some_iff.mp h.place
    rw [hu, Option.some_or, Option.map_some, hstart]
  · obtain ⟨content, hcontent, hcontentNested, -, hitems⟩ := h.dress e new attributes hnew hnewNested
    refine ⟨trees.map (TokenTree.refill e b.opener.start content), ?_, ?_, ?_, ?_⟩
    · rw [hrefill, hcontent]
      simp only [List.map_append, List.map_cons, List.append_assoc, List.cons_append, List.nil_append]
    · rw [← TokenTree.refillAll_eq_map]
      exact TokenTree.isNestedAll_refillAll hcontentNested hnested
    · rw [← TokenTree.recast_refilled]
      cases trees with
      | nil => exact id
      | cons first trees =>
        rw [List.map_cons, List.head?_cons, List.head?_cons, Option.any_some, Option.any_some,
          TokenTree.isPunct_recast]
        exact id
    · have houter : ∀ n ∈ (lead trees).outer, n.IsPlain := fun n hn => Attribute.isPlain_of_mem_lead (.inr hn)
      have hinside := Item.inside_refilled (e := e) hblock hbody hbracket content
      rw [List.map_append, List.map_cons, Item.toNode_dress_of_isBlock hblock houter tree.start
          (TokenTree.refilled e b.opener.start content) [], ← TokenTree.recast_refilled,
        Node.map_dress_of_isPlain fun n hn => Attribute.isPlain_of_mem_lead (.inl hn)]
      refine .item_recast Attribute.keepsBrackets_refilled hrest hsemi hread
        (Item.members_of_isBlock hblock) ?_ ?_
      · rw [hinside]
        exact hitems
      · rw [TokenTree.recast_refilled, TokenTree.map_refill_eq_carry hbody', following.map_dress hp]
        exact following.carry

end Dressable

/-- The attributes of a declaration. -/
theorem Item.attributes_toNode {item : Item} {outer members : List Node}
    (houter : ∀ a ∈ outer, a.isAttribute = true) (hmembers : ∀ m ∈ members, m.isAttribute = false)
    (itemStart : Nat) : (item.toNode outer itemStart members []).attributes = outer := by
  rw [toNode, Node.attributes, Node.children, List.append_nil, List.filter_append,
    List.filter_eq_self.mpr houter, List.filter_eq_nil_iff.mpr fun m hm => by simp [hmembers m hm],
    List.append_nil]

/-- **Other attributes can be put in front of every struct and every enum**, in whatever items it stands. -/
theorem Items.dressable {trees : List TokenTree} {nodes : List Node} {n : Node} (h : Items trees nodes)
    (hnested : isNestedAll trees = true) (hapart : StartApart trees) (hn : n ∈ Node.walkAll nodes)
    (hdata : n.isData = true) :
    ∃ own inner front back, Dressable n.itemStart own inner n.attributes front back trees nodes := by
  obtain ⟨kind, hkind⟩ := Node.exists_kind_of_isData hdata
  have hamong := h.among hn hkind
  clear h hn
  induction hamong with
  | @next stop trees rest tree item members inside nodes hrest hsemi hread hmembers held following hnode =>
    subst hnode
    rw [Item.inside_of_not_isBlock (Item.not_isBlock_of_isData hdata)] at held
    obtain rfl := held.eq_nil
    have houter : ∀ a ∈ (lead trees).outer, a.isAttribute = true := fun a ha => by
      obtain ⟨_, _, _, _, rfl⟩ := Attribute.mem_lead (.inr ha)
      rfl
    obtain ⟨own, back, hdress⟩ := Dressable.here hrest hsemi hread hmembers following hdata hnested hapart
    refine ⟨own, (lead trees).inner, [], back, ?_⟩
    rw [item.attributes_toNode houter (Item.not_isAttribute_members hmembers) tree.start]
    exact hdress
  | behind_semicolon hrest hsemi hsuffix _ ih =>
    obtain ⟨own, inner, front, back, hdress⟩ :=
      ih (TokenTree.isNestedAll_of_suffix hnested hsuffix) (hapart.of_suffix hsuffix)
    obtain ⟨front, hdress⟩ := hdress.behind_semicolon hrest hsemi hnested hapart
    exact ⟨own, inner, front, back, hdress⟩
  | in_block hrest hsemi hread following hblock hb _ ih =>
    obtain ⟨-, ⟨front, behind, rfl⟩, -⟩ := Item.body_split hrest hread hb hapart
    have hheld := (Group.Within.nested (.here front behind) hnested).2
    obtain ⟨own, inner, front, back, hdress⟩ := ih hheld hapart.group.1
    obtain ⟨front, back, hdress⟩ := hdress.in_block hrest hsemi hread following hblock hb hnested hapart
    exact ⟨own, inner, front, back, hdress⟩
  | behind_item hrest hsemi hread hmembers held hsuffix _ ih =>
    obtain ⟨own, inner, front, back, hdress⟩ :=
      ih (TokenTree.isNestedAll_of_suffix hnested hsuffix) (hapart.of_suffix hsuffix)
    obtain ⟨front, hdress⟩ := hdress.behind_item hrest hsemi hread hmembers held hnested hapart
    exact ⟨own, inner, front, back, hdress⟩

/-- In a text with other attributes in front of a declaration, the declaration is found with these. -/
theorem Reads.exists_withAttributes {source text : List Char} {trees own new : List TokenTree}
    {nodes inner : List Node} {n : Node} {front back : List Token} {revision : Nat} {name : String}
    {kinds : List ItemKind} (h : Reads source trees nodes) (hdata : n.isData = true)
    (hdress : Dressable n.itemStart own inner n.attributes front back trees nodes)
    (hfound : (⟨source, .mk .file 0 0 source.length nodes, revision⟩ : Tree).find? name kinds = some n)
    (hnew : Attributes new (inner.map (Node.carry e)) attributes) (hnested : isNestedAll new = true)
    (htokens : tokenize text =
      .ok (front.map (·.carry e) ++ (flattenAll new ++ back.map (·.carry e)))) :
    ∃ after, parse text revision = .ok after ∧
      after.find? name kinds = some (n.withAttributes e attributes) := by
  obtain ⟨trees', hflat, hnested', -, hitems⟩ := hdress.dress e new attributes hnew hnested
  refine ⟨_, parse_eq_ok_iff.mpr ⟨trees', _, ⟨hflat ▸ htokens, hnested', hitems⟩, rfl⟩, ?_⟩
  have hplain : ∀ a ∈ attributes, a.IsPlain := fun a ha => hnew.isPlain a (List.mem_append_right _ ha)
  have hat : n.isDataAt n.itemStart = true := by
    rw [Node.isDataAt, hdata, beq_self_eq_true]
    rfl
  have hfind : (⟨text, .mk .file 0 0 text.length (nodes.map (Node.dress e n.itemStart attributes)),
      revision⟩ : Tree).find? name kinds =
        ((⟨source, .mk .file 0 0 source.length nodes, revision⟩ : Tree).find? name kinds).map
          (Node.dress e n.itemStart attributes) :=
    Tree.find?_dress rfl rfl hplain h.items.isPlain_children name kinds
  rw [hfind, hfound, Option.map_some, Node.dress_of_isDataAt hat]

end ContractSync.Rust
