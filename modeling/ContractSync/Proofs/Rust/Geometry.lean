import ContractSync.Proofs.Rust.Append
import ContractSync.Proofs.Rust.Forest
import ContractSync.Proofs.Rust.ReaderLayout
import ContractSync.Proofs.Rust.ReaderTotal
import ContractSync.Proofs.Rust.Refill

/-!
# The geometry of syntax trees

**Every node of a text that is read stands well** (`parse_geometry`): its parts stand in it, one behind the
other, its body stands between two delimiters that match, and it is reached in one way. Every token stands in
one of the outermost nodes, except for semicolons that belong to no item and the attributes in front of them.
-/

namespace ContractSync.Rust

open Attribute (lead)
open TokenTree (Row flatten flattenAll isNestedAll)

variable {trees : List TokenTree} {nodes root : List Node}

/-! ### Delimiters of bodies -/

theorem Node.body?_of_itemKind? {n : Node} (h : n.itemKind? = none) : n.body? = none := by
  obtain ⟨shape, start, itemStart, stop, children⟩ := n
  cases shape <;> first | rfl | cases h

/-- The body of a node is a group of the trees that the node is read from. -/
theorem Items.exists_within (h : Items trees nodes) :
    ∀ n ∈ Node.walkAll nodes, ∀ body ∈ n.body?, ∃ b : Group, b.span = body ∧ b.Within trees := by
  intro n hn body hbody
  obtain ⟨kind, hkind⟩ : ∃ kind, n.itemKind? = some kind := by
    refine Option.ne_none_iff_exists'.mp fun hnone => ?_
    rw [Node.body?_of_itemKind? hnone] at hbody
    cases hbody
  have hamong := h.among hn hkind
  clear h hn
  induction hamong with
  | next hrest hsemi hread hmembers held following hnode =>
    subst hnode
    obtain ⟨b, hb, rfl⟩ := Option.map_eq_some_iff.mp hbody
    obtain ⟨-, front, behind, rfl⟩ := Item.body_mem hrest hread hb
    exact ⟨b, rfl, .here front behind⟩
  | behind_semicolon _ _ hsuffix _ ih =>
    obtain ⟨b, hb, hwithin⟩ := ih
    obtain ⟨front, rfl⟩ := hsuffix
    exact ⟨b, hb, hwithin.append front⟩
  | in_block hrest hsemi hread _ _ houter _ ih =>
    obtain ⟨b, hb, hwithin⟩ := ih
    obtain ⟨hmark, front, behind, rfl⟩ := Item.body_mem hrest hread houter
    exact ⟨b, hb, .inside front behind (Group.not_bracket hmark) hwithin⟩
  | behind_item _ _ _ _ _ hsuffix _ ih =>
    obtain ⟨b, hb, hwithin⟩ := ih
    obtain ⟨front, rfl⟩ := hsuffix
    exact ⟨b, hb, hwithin.append front⟩

/-! ### Tokens that belong to no item -/

/-- The trees are attributes. -/
inductive AreAttributes : List TokenTree → Prop
  | nil : AreAttributes []
  | outer {hash opener closer : Token} {trees rest : List TokenTree} (hhash : hash.isPunct "#" = true)
      (hopener : opener.isPunct "[" = true) (h : AreAttributes rest) :
      AreAttributes (.leaf hash :: .group opener trees closer :: rest)
  | inner {hash bang opener closer : Token} {trees rest : List TokenTree}
      (hhash : hash.isPunct "#" = true) (hbang : bang.isPunct "!" = true)
      (hopener : opener.isPunct "[" = true) (h : AreAttributes rest) :
      AreAttributes (.leaf hash :: .leaf bang :: .group opener trees closer :: rest)

/-- Behind the trees an item may begin: they are none, or their last one ends a node, or it is a
semicolon that belongs to no item. -/
inductive ItemBegins (root : List Node) : List TokenTree → Prop
  | first : ItemBegins root []
  | behindNode {front : List TokenTree} {last : TokenTree} {n : Node} (hn : n ∈ root)
      (hstop : n.stop = last.stop) : ItemBegins root (front ++ [last])
  | behindEmpty {front attributes : List TokenTree} {semicolon : Token}
      (hattributes : AreAttributes attributes) (hsemicolon : semicolon.isPunct ";" = true)
      (h : ItemBegins root front) : ItemBegins root (front ++ (attributes ++ [.leaf semicolon]))

/-- The token is a semicolon where an item may begin, or in the attributes in front of it. -/
def IsOfEmptyItem (root : List Node) (trees : List TokenTree) (t : Token) : Prop :=
  ∃ front attributes semicolon behind, trees = front ++ (attributes ++ [.leaf semicolon]) ++ behind ∧
    ItemBegins root front ∧ AreAttributes attributes ∧ semicolon.isPunct ";" = true ∧
    (t ∈ flattenAll attributes ∨ t = semicolon)

theorem Attribute.exists_attributes (trees : List TokenTree) :
    ∃ attributes, AreAttributes attributes ∧ trees = attributes ++ (lead trees).rest := by
  fun_induction lead trees with
  | case1 hash opener inner closer rest hmark following ih =>
    obtain ⟨attributes, hattributes, htrees⟩ := ih
    rw [Bool.and_eq_true] at hmark
    exact ⟨_, .outer hmark.1 hmark.2 hattributes, by rw [htrees]; rfl⟩
  | case3 hash bang opener inner closer rest hmark following ih =>
    obtain ⟨attributes, hattributes, htrees⟩ := ih
    rw [Bool.and_eq_true, Bool.and_eq_true] at hmark
    exact ⟨_, .inner hmark.1.1 hmark.1.2 hmark.2 hattributes, by rw [htrees]; rfl⟩
  | case2 | case4 | case5 => exact ⟨[], .nil, rfl⟩

/-- **Every token stands in the text of a node, or belongs to an empty item.** -/
theorem Items.covers_or_empty {low high : Nat} (h : Items trees nodes) (hrow : Row trees low high)
    (hnested : isNestedAll trees = true) {all front : List TokenTree} (hall : all = front ++ trees)
    (hfront : ItemBegins root front) (hroot : nodes ⊆ root) :
    ∀ t ∈ flattenAll trees, (∃ n ∈ root, n.Covers t) ∨ IsOfEmptyItem root all t := by
  induction h generalizing low high front with
  | @done trees hrest =>
    intro t ht
    rcases Attribute.covers_of_lead hrow t ht with ht | ⟨n, hn, hcovers⟩
    · rw [hrest] at ht
      cases ht
    · exact .inl ⟨n, hroot hn, hcovers⟩
  | @semicolon trees rest tree nodes hrest hsemi following ih =>
    obtain ⟨attributes, hattributes, htrees⟩ := Attribute.exists_attributes trees
    rw [hrest] at htrees
    rw [htrees, TokenTree.isNestedAll_append, Bool.and_eq_true] at hnested
    obtain ⟨semicolon, rfl⟩ := TokenTree.exists_leaf
      (TokenTree.isNestedAll_eq_true_iff.mp hnested.2 tree List.mem_cons_self) hsemi (by decide)
    have hsplit : all = front ++ (attributes ++ [.leaf semicolon]) ++ rest := by
      rw [hall, htrees]
      simp
    have hrow' : Row rest low high := hrow.of_suffix
      ((List.suffix_cons ..).trans (hrest ▸ Attribute.rest_lead_suffix trees))
    have hnested' : isNestedAll rest = true := by
      have := hnested.2
      rw [TokenTree.isNestedAll, Bool.and_eq_true] at this
      exact this.2
    have hrest' := ih hrow' hnested' hsplit (.behindEmpty hattributes hsemi hfront)
      (List.Subset.trans (List.subset_append_right _ _) hroot)
    have hempty : ∀ t, t ∈ flattenAll attributes ∨ t = semicolon → IsOfEmptyItem root all t :=
      fun t ht => ⟨front, attributes, semicolon, rest, hsplit, hfront, hattributes, hsemi, ht⟩
    rw [htrees, TokenTree.flattenAll_append]
    refine List.forall_mem_append.mpr ⟨fun t ht => .inr (hempty t (.inl ht)), ?_⟩
    exact List.forall_mem_cons.mpr ⟨.inr (hempty semicolon (.inr rfl)), hrest'⟩
  | @item stop trees rest tree item members inside nodes hrest hsemi hread hmembers held following
      ihheld ihfollowing =>
    obtain ⟨mid, hlead⟩ := Attribute.standing_lead hrow
    have hbehind := hlead.rest
    rw [hrest] at hbehind
    obtain ⟨taken, last, htaken, hstop, hcovered⟩ :=
      (Item.standing_of_read hread hbehind).taken
    have hstanding := Item.standing_of_read hread hbehind
    obtain ⟨attributes, hattributes, htrees⟩ := Attribute.exists_attributes trees
    rw [hrest, htaken] at htrees
    have hself : item.toNode (lead trees).outer tree.start members inside ∈ root :=
      hroot (List.mem_append_right _ List.mem_cons_self)
    obtain ⟨-, hplace, houter⟩ := hlead.start hbehind.1
    have hnested' : isNestedAll item.rest = true := by
      rw [htrees, TokenTree.isNestedAll_append, TokenTree.isNestedAll_append, Bool.and_eq_true,
        Bool.and_eq_true] at hnested
      exact hnested.2.2
    have hsplit : all = front ++ (attributes ++ taken) ++ [last] ++ item.rest := by
      rw [hall, htrees]
      simp
    have hrest' := ihfollowing hstanding.rest hnested' hsplit (.behindNode hself hstop.symm)
      (List.Subset.trans (List.subset_cons_self _ _)
        (List.Subset.trans (List.subset_append_right _ _) hroot))
    intro t ht
    rcases Attribute.covers_of_lead hrow t ht with ht | ⟨n, hn, hcovers⟩
    · rw [hrest, htaken, TokenTree.flattenAll_append] at ht
      refine (List.mem_append.mp ht).elim (fun ht => .inl ⟨_, hself, ?_⟩) (hrest' t)
      obtain ⟨hstart, -, hle⟩ := hcovered.bounds t ht
      exact ⟨Nat.le_trans hplace hstart, hle⟩
    · rcases List.mem_append.mp hn with hinner | hn'
      · exact .inl ⟨n, hroot (List.mem_append_left _ hinner), hcovers⟩
      · refine .inl ⟨_, hself, Nat.le_trans (houter n hn') hcovers.1, ?_⟩
        have := (hlead.between n hn).2.2
        have := hcovers.2
        have := hbehind.1
        have := hstanding.lt
        show t.stop ≤ item.stop
        omega

/-! ### Whole trees -/

/-- Where the nodes of a tree stand, in a text with the tokens, and in an arena that holds them. -/
structure IsGeometry (source : List Char) (tokens : List Token) (trees : List TokenTree)
    (table : List (Nat × Nat)) (arena : Arena) (root : Node) : Prop where
  placed : ∀ n ∈ root.walk, ¬ IsTupleField source [root] n →
    n.IsPlaced source ∧ n.stop ≤ source.length
  delimiters : ∀ n ∈ root.walk, ∀ body ∈ n.body?, ∃ i j opener closer, (i, j) ∈ table ∧
    tokens[i]? = some opener ∧ tokens[j]? = some closer ∧ opener.closes closer = true ∧
      body = ⟨opener.start, closer.start⟩
  represents : arena.Represents root
  parent : ∀ path place slot, arena.Leads path place → arena[place]? = some slot →
    ∀ child ∈ slot.children, ∃ found, arena[child]? = some found ∧ found.parent = some place
  once : ∀ path path' place, arena.Leads path place → arena.Leads path' place → path = path'
  covered : ∀ t ∈ tokens, (∃ n ∈ root.children, n.Covers t) ∨ IsOfEmptyItem root.children trees t

/-- The file holds everything that is read. -/
theorem Forest.isPlaced_file {source : List Char} (h : Forest source false nodes 0 source.length) :
    (Node.mk .file 0 0 source.length nodes).IsPlaced source :=
  ⟨Nat.le_refl _, Nat.zero_le _, forall_mem_none, h.inside, h.order⟩

/-- **Every node of a text that is read stands well.** -/
theorem parse_geometry {source : List Char} {revision : Nat} {tree : Tree}
    (h : parse source revision = .ok tree) :
    ∃ tokens trees table arena, tokenize source = .ok tokens ∧ TokenTree.ofTokens tokens = .ok trees ∧
      matchDelimiters tokens = .ok table ∧ parseArena source = .ok arena ∧
        IsGeometry source tokens trees table arena tree.root := by
  obtain ⟨_, arena, hparse, harena, hrepresents⟩ | ⟨_, hparse, -⟩ := parse_total source revision
  swap
  · rw [h] at hparse
    cases hparse
  cases h.symm.trans hparse
  obtain ⟨trees, nodes, hreads, rfl⟩ := parse_eq_ok_iff.mp h
  have hchar : ∀ t ∈ flattenAll trees, source[t.start]? = t.text.toList.head? := fun t ht =>
    (Lexer.run_of_lexFrom hreads.tokens).getElem?_start ht
  have hforest := hreads.items.forest hreads.row hchar
  have htrees := TokenTree.ofTokens_eq_ok_iff.mpr ⟨rfl, hreads.nested⟩
  have hsubset : Node.walkAll nodes ⊆ Node.walkAll [.mk .file 0 0 source.length nodes] := by
    rw [Node.walkAll, Node.walkAll, List.append_nil, Node.walk]
    exact List.subset_cons_self ..
  refine ⟨flattenAll trees, trees, TokenTree.pairsAll 0 trees, arena, hreads.tokens, htrees,
    by rw [matchDelimiters, htrees]; rfl, harena, ?_, ?_, hrepresents, fun _ _ _ => hrepresents.parent_eq,
    fun _ _ _ => hrepresents.path_unique ?_, ?_⟩
  · rw [Node.walk]
    refine List.forall_mem_cons.mpr ⟨fun _ => ⟨hforest.isPlaced_file, Nat.le_refl _⟩, fun n hn hfield => ?_⟩
    refine ⟨?_, hreads.stop_le n hn⟩
    rcases hforest.placed n hn with hplaced | ⟨htuple, -⟩ | hfield'
    · exact hplaced
    · cases htuple
    · exact absurd (hfield'.mono hsubset) hfield
  · rw [Node.walk]
    refine List.forall_mem_cons.mpr ⟨forall_mem_none, fun n hn body hbody => ?_⟩
    obtain ⟨b, rfl, hwithin⟩ := hreads.items.exists_within n hn body hbody
    obtain ⟨i, j, hpair, hopener, hcloser⟩ := hwithin.exists_pair 0
    rw [Nat.zero_add, Nat.zero_add] at hpair
    exact ⟨i, j, b.opener, b.closer, hpair, hopener, hcloser, (hwithin.nested hreads.nested).1, rfl⟩
  · rw [Node.walk]
    refine List.forall_mem_cons.mpr ⟨?_, fun n hn => ?_⟩
    · exact hforest.nodup.sublist ((Node.sublist_walkAll nodes).map Node.itemStart)
    · exact hforest.nodup.sublist ((Node.children_sublist hn).map Node.itemStart)
  · exact hreads.items.covers_or_empty hreads.row hreads.nested (List.nil_append trees).symm .first
      (List.Subset.refl nodes)

def moduleText : List Char :=
  "#![a] #[b] struct P(u8); #[c]; mod m \x7b fn f() \x7b\x7d \x7d".toList

def moduleFile : Node :=
  .mk .file 0 0 50 [
    .mk (.attribute (some "a") none true) 0 0 5 [],
    .mk (.item .struct_ (some "P") (some ⟨19, 22⟩)) 6 11 24 [
      .mk (.attribute (some "b") none false) 6 6 10 [], .mk (.field "0" ⟨20, 22⟩) 20 20 22 []],
    .mk (.item .module (some "m") (some ⟨37, 49⟩)) 31 31 50 [
      .mk (.item .function (some "f") (some ⟨46, 47⟩)) 39 39 48 []]]

/-- Attributes of either kind, a struct in parentheses, a semicolon of its own and a module. -/
theorem parse_geometry_moduleSample :
    parse moduleText = .ok ⟨moduleText, moduleFile, 0⟩ ∧
      ∃ tokens trees table arena, tokenize moduleText = .ok tokens ∧ TokenTree.ofTokens tokens = .ok trees ∧
        matchDelimiters tokens = .ok table ∧ parseArena moduleText = .ok arena ∧
          IsGeometry moduleText tokens trees table arena moduleFile :=
  have h : parse moduleText = .ok ⟨moduleText, moduleFile, 0⟩ := eq_ok_of_toOption (by decide +kernel)
  ⟨h, parse_geometry h⟩

end ContractSync.Rust
