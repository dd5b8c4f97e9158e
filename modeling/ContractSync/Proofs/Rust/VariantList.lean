import ContractSync.Proofs.Rust.RetypeField

/-!
# The variants of an enum

`VariantList` is what may stand between the braces of an enum: variants with a comma between them and
perhaps one at the end, each made of attributes, a name, perhaps a payload in parentheses or braces and
perhaps a discriminant (`WrittenVariant`). **These are the variants that are read just if no discriminant
with a comma behind it leaves an angle bracket open** (`variants_eq_iff`): in `1 << 2` both marks count as
opening brackets, and the comma behind them ends no variant (`variants_swallowed`).
-/

namespace ContractSync.Rust

open TokenTree (flattenAll isNestedAll)

/-! ### Variants as they are written -/

/-- An outer attribute as it is written. -/
structure OuterAttribute where
  hash : Token
  group : Group
  isHash : hash.isPunct "#" = true
  isBracket : group.opener.isPunct "[" = true

namespace OuterAttribute

/-- The trees of the attribute. -/
def trees (a : OuterAttribute) : List TokenTree := [.leaf a.hash, a.group.tree]

/-- The node of the attribute. -/
def node (a : OuterAttribute) : Node :=
  Attribute.node a.hash.start false a.group.inner a.group.closer

end OuterAttribute

/-- A variant as it is written: attributes, a name, a payload, an equals sign and a discriminant in which
commas stand in groups only. -/
structure WrittenVariant where
  attributes : List OuterAttribute := []
  name : Token
  payload : Option Group := none
  value : Option (Token × List TokenTree) := none
  isName : name.kind = .ident
  isPayload : ∀ g ∈ payload, g.opener.isPunct "(" = true ∨ g.opener.isPunct "\x7b" = true
  isValue : ∀ v ∈ value,
    v.1.isPunct "=" = true ∧ v.2 ≠ [] ∧ ∀ tree ∈ v.2, tree.isPunct "," = false

namespace WrittenVariant

/-- What stands behind the name. -/
def content (v : WrittenVariant) : List TokenTree :=
  (v.payload.map Group.tree).toList ++ (v.value.map fun value => .leaf value.1 :: value.2).getD []

/-- The trees of the variant. -/
def trees (v : WrittenVariant) : List TokenTree :=
  v.attributes.flatMap OuterAttribute.trees ++ .leaf v.name :: v.content

/-- Where the first token of the variant starts. -/
def start (v : WrittenVariant) : Nat := (v.attributes.head?.map (·.hash.start)).getD v.name.start

/-- Where the last token of the variant ends. -/
def stop (v : WrittenVariant) : Nat := (v.content.getLast?.map TokenTree.stop).getD v.name.stop

/-- The node with the name and the attributes of the variant that ends at the position given. -/
def nodeUpTo (v : WrittenVariant) (stop : Nat) : Node :=
  .mk (.variant v.name.text) v.start v.name.start stop (v.attributes.map OuterAttribute.node)

/-- The node of the variant. -/
def node (v : WrittenVariant) : Node := v.nodeUpTo v.stop

/-- How many angle brackets the discriminant leaves open. -/
def openAngles (v : WrittenVariant) : Nat :=
  (v.value.map fun value => value.2.foldl Entry.angleAfter 0).getD 0

end WrittenVariant

/-- The content of the body of an enum: variants that have a comma, and perhaps one that has none. -/
structure VariantList where
  ended : List (WrittenVariant × Token)
  last : Option WrittenVariant
  isComma : ∀ v ∈ ended, v.2.isPunct "," = true

namespace VariantList

/-- The trees of the variants and their commas. -/
def trees (list : VariantList) : List TokenTree :=
  list.ended.flatMap (fun v => v.1.trees ++ [.leaf v.2]) ++
    (list.last.map WrittenVariant.trees).getD []

/-- The variants in their order. -/
def variants (list : VariantList) : List WrittenVariant :=
  list.ended.map Prod.fst ++ list.last.toList

end VariantList

/-- The tokens of the text between the delimiters of the node's body are those of the trees. -/
def Node.Holds (source : List Char) (n : Node) (trees : List TokenTree) : Prop :=
  ∃ tokens body, tokenize source = .ok tokens ∧ n.body? = some body ∧ isNestedAll trees = true ∧
    flattenAll trees = tokens.filter fun t => body.start < t.start && t.start < body.stop

/-! ### One variant -/

theorem OuterAttribute.lead_append (attributes : List OuterAttribute) {more : List TokenTree}
    (hmore : Attribute.lead more = ⟨[], [], more⟩) :
    Attribute.lead (attributes.flatMap trees ++ more) = ⟨[], attributes.map node, more⟩ := by
  induction attributes with
  | nil => exact hmore
  | cons a attributes ih =>
    rw [List.flatMap_cons, trees, Group.tree, List.append_assoc, List.cons_append, List.cons_append,
      List.nil_append, Attribute.lead, a.isHash, a.isBracket, ih]
    rfl

theorem OuterAttribute.isNeutral (attributes : List OuterAttribute) :
    ∀ tree ∈ attributes.flatMap trees, Entry.IsNeutral tree := by
  intro tree htree
  obtain ⟨a, -, ha⟩ := List.mem_flatMap.mp htree
  rcases List.mem_cons.mp ha with rfl | ha
  · exact Entry.isNeutral_of_mark a.isHash (by decide)
  · rw [List.mem_singleton.mp ha]
    exact Entry.isNeutral_of_mark a.isBracket (by decide)

theorem depthBehind_of_no_comma {trees : List TokenTree}
    (h : ∀ tree ∈ trees, tree.isPunct "," = false) (angle : Nat) :
    Entry.depthBehind angle trees = some (trees.foldl Entry.angleAfter angle) := by
  induction trees generalizing angle with
  | nil => rfl
  | cons tree rest ih =>
    obtain ⟨htree, hrest⟩ := List.forall_mem_cons.mp h
    rw [Entry.depthBehind, htree, Bool.false_and, if_neg Bool.false_ne_true, ih hrest]
    rfl

namespace WrittenVariant

variable (v : WrittenVariant)

theorem isNeutral_payload : ∀ tree ∈ (v.payload.map Group.tree).toList, Entry.IsNeutral tree := by
  intro tree htree
  obtain ⟨g, hg, rfl⟩ := Option.map_eq_some_iff.mp (Option.mem_toList.mp htree)
  intro other hother
  have hne : ∀ mark ∈ ["(", "\x7b"], ∀ other ∈ [",", "<", ">"], mark ≠ other := by decide
  rcases v.isPayload g hg with h | h
  · exact Token.isPunct_of_ne h (hne _ (by decide) other hother)
  · exact Token.isPunct_of_ne h (hne _ (by decide) other hother)

/-- All angle brackets that a variant leaves open stand in its discriminant. -/
theorem depthBehind_trees : Entry.depthBehind 0 v.trees = some v.openAngles := by
  have hname : Entry.depthBehind 0 (.leaf v.name :: v.content) = Entry.depthBehind 0 v.content :=
    Entry.depthBehind_append (a := [.leaf v.name]) (Entry.depthBehind_eq_self
      (List.forall_mem_singleton.mpr (Entry.isNeutral_of_ident v.isName)) 0) v.content
  rw [trees, Entry.depthBehind_append (Entry.depthBehind_eq_self (OuterAttribute.isNeutral v.attributes) 0), hname,
    content, Entry.depthBehind_append (Entry.depthBehind_eq_self v.isNeutral_payload 0), openAngles]
  cases hvalue : v.value with
  | none => rfl
  | some value =>
    obtain ⟨hequals, -, hcommas⟩ := v.isValue value hvalue
    have hne : ∀ mark ∈ [",", "<", ">"], (TokenTree.leaf value.1).isPunct mark = false :=
      fun mark hmark => Token.isPunct_of_ne hequals
        ((by decide : ∀ mark ∈ [",", "<", ">"], "=" ≠ mark) mark hmark)
    exact (Entry.depthBehind_append (a := [.leaf value.1]) (Entry.depthBehind_eq_self
      (List.forall_mem_singleton.mpr hne) 0) value.2).trans (depthBehind_of_no_comma hcommas 0)

/-- An entry that begins with the variant is read as one with its name and its attributes. -/
theorem variant_append (before stop : Nat) (comma : Bool) (more : List TokenTree) :
    ∃ last, (v.trees ++ more).getLast? = some last ∧
      Entry.variant ⟨before, v.trees ++ more, stop, comma⟩ = .ok (some (v.nodeUpTo last.stop)) := by
  have hne : v.trees ++ more ≠ [] := by simp [trees]
  refine ⟨(v.trees ++ more).getLast hne, List.getLast?_eq_some_getLast hne, ?_⟩
  have hlead : Attribute.lead (v.trees ++ more) =
      ⟨[], v.attributes.map OuterAttribute.node, .leaf v.name :: (v.content ++ more)⟩ := by
    rw [trees, List.append_assoc, List.cons_append]
    refine OuterAttribute.lead_append v.attributes (Attribute.lead_of_not_hash ?_ _)
    rw [Token.isPunct, v.isName]
    rfl
  simp only [Entry.variant, hlead, Entry.isTrailing, List.isEmpty_cons, Bool.false_and,
    Bool.false_eq_true, if_false]
  refine bind_eq_ok.mpr ⟨v.name.text, Entry.name_eq_ok.mpr ⟨v.name, _, rfl, v.isName, rfl⟩, ?_⟩
  simp only [Entry.node, nodeUpTo, start, Entry.offsetOf, Entry.lastStop,
    List.getLast?_eq_some_getLast hne, List.head?_map, Option.map_map]
  rfl

theorem stop_of_getLast? {last : TokenTree} (h : v.trees.getLast? = some last) :
    last.stop = v.stop := by
  rw [trees, List.getLast?_append, List.getLast?_cons] at h
  obtain rfl : v.content.getLast?.getD (.leaf v.name) = last := by simpa using h
  rw [stop]
  cases v.content.getLast? <;> rfl

/-- The variant alone. -/
theorem variant_trees (before stop : Nat) (comma : Bool) :
    Entry.variant ⟨before, v.trees, stop, comma⟩ = .ok (some v.node) := by
  obtain ⟨last, hlast, hread⟩ := v.variant_append before stop comma []
  rw [List.append_nil] at hlast hread
  rwa [v.stop_of_getLast? hlast] at hread

end WrittenVariant

/-! ### A row of variants -/

namespace Entry

/-- The first entry begins with the trees that are taken already. -/
theorem exists_divide {taken : List TokenTree} (hne : taken ≠ []) (before stop angle : Nat)
    (trees : List TokenTree) : ∃ more stop' comma rest,
      divide before stop angle taken trees = ⟨before, taken.reverse ++ more, stop', comma⟩ :: rest ∧
        more <+: trees := by
  induction trees generalizing angle taken with
  | nil =>
    have hempty : taken.isEmpty = false := by simpa using hne
    exact ⟨[], stop, false, [], by rw [divide, hempty, List.append_nil]; rfl, List.nil_prefix⟩
  | cons tree trees ih =>
    rw [divide]
    split
    · exact ⟨[], tree.start, true, _, by rw [List.append_nil], List.nil_prefix⟩
    · obtain ⟨more, stop', comma, rest, hdivide, hprefix⟩ :=
        ih (List.cons_ne_nil tree taken) (angleAfter angle tree)
      refine ⟨tree :: more, stop', comma, rest, ?_, ?_⟩
      · rw [hdivide, List.reverse_cons, List.append_assoc, List.singleton_append]
      · simpa using hprefix

end Entry

/-- The tokens of the trees stand one behind the other. -/
structure Ordered (trees : List TokenTree) : Prop where
  bounds : ∀ t ∈ flattenAll trees, t.start < t.stop
  apart : (flattenAll trees).Pairwise fun t u => t.stop ≤ u.start

namespace Ordered

variable {a b : List TokenTree}

theorem left (h : Ordered (a ++ b)) : Ordered a := by
  obtain ⟨hbounds, hapart⟩ := h
  rw [TokenTree.flattenAll_append] at hbounds hapart
  exact ⟨(List.forall_mem_append.mp hbounds).1, (List.pairwise_append.mp hapart).1⟩

theorem right (h : Ordered (a ++ b)) : Ordered b := by
  obtain ⟨hbounds, hapart⟩ := h
  rw [TokenTree.flattenAll_append] at hbounds hapart
  exact ⟨(List.forall_mem_append.mp hbounds).2, (List.pairwise_append.mp hapart).2.1⟩

/-- The last of some trees and more ends behind the last of the first ones. -/
theorem stop_ne (h : Ordered (a ++ b)) (hb : b ≠ []) {last last' : TokenTree}
    (hlast : a.getLast? = some last) (hlast' : (a ++ b).getLast? = some last') :
    last'.stop ≠ last.stop := by
  have hstops : ∀ {trees : List TokenTree} {tree : TokenTree}, trees.getLast? = some tree →
      ∃ t ∈ flattenAll trees, t.stop = tree.stop := by
    intro trees tree h
    have hstop := TokenTree.stop_getLast?_flattenAll trees
    rw [h] at hstop
    obtain ⟨t, ht, hstop⟩ := Option.map_eq_some_iff.mp hstop
    exact ⟨t, List.mem_of_getLast? ht, hstop⟩
  rw [List.getLast?_append_of_ne_nil _ hb] at hlast'
  obtain ⟨t, ht, hstop⟩ := hstops hlast
  obtain ⟨u, hu, hstop'⟩ := hstops hlast'
  obtain ⟨hbounds, hapart⟩ := h
  rw [TokenTree.flattenAll_append] at hbounds hapart
  have hbefore := (List.pairwise_append.mp hapart).2.2 t ht u hu
  have := hbounds u (List.mem_append_right _ hu)
  omega

end Ordered

open Entry (divide nodes nodes_cons_eq_ok variant)

/-- A variant whose comma ends it. -/
theorem nodes_of_closed {v : WrittenVariant} {comma : Token} {rest : List TokenTree}
    {before stop : Nat} {found : List Node} (hcomma : comma.isPunct "," = true)
    (hclosed : v.openAngles = 0)
    (hread : nodes variant (divide before stop 0 [] (v.trees ++ .leaf comma :: rest)) = .ok found) :
    ∃ more, nodes variant (divide comma.stop stop 0 [] rest) = .ok more ∧ found = v.node :: more := by
  have hmark : (TokenTree.leaf comma).isPunct "," = true := hcomma
  rw [Entry.divide_at_comma (hclosed ▸ v.depthBehind_trees) hmark] at hread
  obtain ⟨o, more, ho, hmore, rfl⟩ := nodes_cons_eq_ok.mp hread
  cases (v.variant_trees ..).symm.trans ho
  exact ⟨more, hmore, rfl⟩

/-- A variant whose comma is taken for a part of it: the node ends at the comma or behind it. -/
theorem nodes_of_open {v : WrittenVariant} {comma : Token} {rest : List TokenTree}
    {before stop : Nat} {found : List Node} (hopen : v.openAngles ≠ 0)
    (horder : Ordered (v.trees ++ .leaf comma :: rest))
    (hread : nodes variant (divide before stop 0 [] (v.trees ++ .leaf comma :: rest)) = .ok found) :
    ∃ stop more, stop ≠ v.stop ∧ found = v.nodeUpTo stop :: more := by
  have hangle : ((TokenTree.leaf comma).isPunct "," && v.openAngles == 0) = false := by
    rw [beq_false_of_ne hopen, Bool.and_false]
  rw [Entry.divide_append v.depthBehind_trees, divide, if_neg (by rw [hangle]; exact Bool.false_ne_true)] at hread
  obtain ⟨more, stop', comma', entries, hdivide, behind, hrest⟩ := Entry.exists_divide
    (List.cons_ne_nil (.leaf comma) (v.trees.reverse ++ [])) before stop
    (Entry.angleAfter v.openAngles (.leaf comma)) rest
  have htaken : (.leaf comma :: (v.trees.reverse ++ [])).reverse ++ more =
      v.trees ++ .leaf comma :: more := by simp
  rw [hdivide, htaken] at hread
  obtain ⟨o, nodes', ho, -, rfl⟩ := nodes_cons_eq_ok.mp hread
  obtain ⟨last', hlast', hvariant⟩ := v.variant_append before stop' comma'
    (.leaf comma :: more)
  cases hvariant.symm.trans ho
  have htrees : v.trees ≠ [] := by simp [WrittenVariant.trees]
  have hlast := List.getLast?_eq_some_getLast htrees
  refine ⟨last'.stop, nodes', ?_, rfl⟩
  rw [← v.stop_of_getLast? hlast]
  refine Ordered.stop_ne (b := .leaf comma :: more) ?_ (List.cons_ne_nil _ _) hlast hlast'
  rw [← hrest, ← List.cons_append, ← List.append_assoc] at horder
  exact horder.left

/-- The variants of a list are read one by one just if every comma ends a variant. -/
theorem nodes_eq_iff {ended : List (WrittenVariant × Token)} {last : Option WrittenVariant}
    (hcomma : ∀ v ∈ ended, v.2.isPunct "," = true) {before stop : Nat} {found : List Node}
    (horder : Ordered (ended.flatMap (fun v => v.1.trees ++ [.leaf v.2]) ++
      (last.map WrittenVariant.trees).getD []))
    (hread : nodes variant (divide before stop 0 []
      (ended.flatMap (fun v => v.1.trees ++ [.leaf v.2]) ++
        (last.map WrittenVariant.trees).getD [])) = .ok found) :
    found = (ended.map Prod.fst ++ last.toList).map WrittenVariant.node ↔
      ∀ v ∈ ended, v.1.openAngles = 0 := by
  induction ended generalizing before found with
  | nil =>
    refine iff_of_true ?_ (List.forall_mem_nil _)
    cases last with
    | none =>
      cases hread
      rfl
    | some v =>
      have htrees : v.trees ≠ [] := by simp [WrittenVariant.trees]
      have hdivide : divide before stop 0 [] v.trees = [⟨before, v.trees, stop, false⟩] :=
        Entry.divide_of_depth v.depthBehind_trees htrees before stop
      simp only [List.flatMap_nil, List.nil_append, Option.map_some, Option.getD_some,
        hdivide] at hread
      obtain ⟨o, more, ho, hmore, rfl⟩ := nodes_cons_eq_ok.mp hread
      cases (v.variant_trees ..).symm.trans ho
      cases hmore
      rfl
  | cons v ended ih =>
    obtain ⟨v, comma⟩ := v
    obtain ⟨hv, hended⟩ := List.forall_mem_cons.mp hcomma
    simp only [List.flatMap_cons, List.append_assoc, List.cons_append, List.nil_append] at horder hread
    rw [List.forall_mem_cons, List.map_cons, List.cons_append, List.map_cons]
    by_cases hclosed : v.openAngles = 0
    · obtain ⟨more, hmore, rfl⟩ := nodes_of_closed hv hclosed hread
      have hrest := Ordered.right (a := [.leaf comma]) horder.right
      rw [List.cons.injEq, eq_self, true_and, ih hended hrest hmore, and_iff_right hclosed]
    · obtain ⟨stop', more, hstop, rfl⟩ := nodes_of_open hclosed horder hread
      refine iff_of_false (fun h => hstop ?_) (fun h => hclosed h.1)
      have hnode := (List.cons.inj h).1
      rw [WrittenVariant.node, WrittenVariant.nodeUpTo, WrittenVariant.nodeUpTo, Node.mk.injEq] at hnode
      exact hnode.2.2.2.1

/-! ### The body of an enum in a text -/

/-- Between two tokens of a run stand the tokens between them. -/
theorem filter_between {front inner back : List Token} {opener closer : Token}
    (hbounds : ∀ t ∈ front ++ opener :: (inner ++ closer :: back), t.start < t.stop)
    (hapart : (front ++ opener :: (inner ++ closer :: back)).Pairwise fun t u => t.stop ≤ u.start) :
    (front ++ opener :: (inner ++ closer :: back)).filter
      (fun t => opener.start < t.start && t.start < closer.start) = inner := by
  simp only [List.pairwise_append, List.pairwise_cons, List.forall_mem_append,
    List.forall_mem_cons] at hapart hbounds
  obtain ⟨-, ⟨hopener, -, ⟨hcloser, -⟩, hinner⟩, hfront⟩ := hapart
  obtain ⟨bfront, bopener, binner, bcloser, -⟩ := hbounds
  have hnone : ∀ {ts : List Token}, (∀ t ∈ ts, t.start ≤ opener.start ∨ closer.start ≤ t.start) →
      ts.filter (fun t => opener.start < t.start && t.start < closer.start) = [] := by
    intro ts h
    refine List.filter_eq_nil_iff.mpr fun t ht => ?_
    have := h t ht
    simp only [Bool.and_eq_true, decide_eq_true_eq]
    omega
  have hkeep : inner.filter (fun t => opener.start < t.start && t.start < closer.start) = inner := by
    refine List.filter_eq_self.mpr fun t ht => ?_
    have h1 := hopener.1 t ht
    have h2 := (hinner t ht).1
    have h3 := binner t ht
    simp only [Bool.and_eq_true, decide_eq_true_eq]
    omega
  rw [List.filter_append, List.filter_cons, List.filter_append, List.filter_cons, hkeep,
    hnone fun t ht => .inl (by have := (hfront t ht).1; have := bfront t ht; omega),
    hnone fun t ht => .inr (by have := hcloser t ht; omega)]
  simp

theorem isVariant_of_nodes {entries : List Entry} {found : List Node}
    (h : nodes variant entries = .ok found) : ∀ n ∈ found, n.isVariant = true := by
  induction entries generalizing found with
  | nil =>
    cases h
    exact List.forall_mem_nil _
  | cons entry entries ih =>
    obtain ⟨o, more, ho, hmore, rfl⟩ := nodes_cons_eq_ok.mp h
    refine List.forall_mem_append.mpr ⟨fun n hn => ?_, ih hmore⟩
    rw [Option.mem_toList.mp hn, variant] at ho
    split at ho
    · cases ho
    · obtain ⟨name, -, ho⟩ := bind_eq_ok.mp ho
      cases ho
      rfl

/-- The body of an item with the trees that it holds. -/
theorem Node.Holds.exists_body {source : List Char} {trees held : List TokenTree} {nodes : List Node}
    {n : Node} {kind : ItemKind} (h : Reads source trees nodes) (hn : n ∈ Node.walkAll nodes)
    (hkind : n.itemKind? = some kind) (hblock : kind ∉ [.module, .trait_, .impl])
    (hheld : n.Holds source held) :
    ∃ b found front back, BodyIn source nodes n kind b found front back ∧ b.inner = held ∧
      Ordered held ∧ ∀ t ∈ flattenAll held, t.stop ≤ b.closer.start := by
  obtain ⟨tokens, body, htokens, hspan, hnested, hinside⟩ := hheld
  obtain ⟨b, found, front, back, rfl, hb⟩ := h.bodyIn hn hkind hblock hspan
  obtain ⟨-, hbounds, hapart⟩ := (Lexer.run_of_lexFrom hb.tokens).ordered
  cases hb.tokens.symm.trans htokens
  have hbounds' := fun t ht => (hbounds t ht).2.1
  have hinner : flattenAll held = flattenAll b.inner := hinside.trans (filter_between hbounds' hapart)
  obtain rfl := TokenTree.flattenAll_injective hnested hb.nested hinner
  have hinside' := List.pairwise_append.mp (List.pairwise_append.mp hapart).2.1.of_cons
  refine ⟨b, found, front, back, hb, rfl, ⟨fun t ht => hbounds' t ?_, hinside'.1⟩, fun t ht => ?_⟩
  · simp [ht]
  · exact hinside'.2.2 t ht b.closer List.mem_cons_self

/-- **The variants of an enum are those of its body just if no discriminant in front of a comma leaves an
angle bracket open.** -/
theorem variants_eq_iff {source : List Char} {revision : Nat} {tree : Tree} {n : Node}
    {list : VariantList} (h : parse source revision = .ok tree) (hn : n ∈ tree.nodes)
    (hkind : n.itemKind? = some .enum_) (hbody : n.Holds source list.trees) :
    n.variants = list.variants.map WrittenVariant.node ↔
      ∀ v ∈ list.ended, v.1.openAngles = 0 := by
  obtain ⟨trees, found, hreads, rfl⟩ := parse_eq_ok_iff.mp h
  have hmem : n ∈ Node.walkAll found := by
    rcases Node.mem_walk_mk.mp hn with rfl | hmem
    · cases hkind
    · exact hmem
  obtain ⟨b, members, front, back, hb, hinner, horder, -⟩ :=
    hbody.exists_body hreads hmem hkind (by decide)
  have hread : nodes variant (divide b.opener.stop b.closer.start 0 [] list.trees) = .ok members :=
    hinner ▸ hb.members
  have hvariants : n.variants = members := by
    obtain ⟨attributes, hchildren, hattributes⟩ := hb.children
    rw [Node.variants, hchildren, List.filter_append,
      List.filter_eq_self.mpr (isVariant_of_nodes hread), List.filter_eq_nil_iff.mpr fun a ha => ?_,
      List.nil_append]
    have := hattributes a ha
    rw [Node.isAttribute] at this
    rw [Node.isVariant]
    split at this
    · rename_i hshape
      rw [hshape]
      exact Bool.false_ne_true
    · cases this
  rw [hvariants]
  exact nodes_eq_iff list.isComma horder hread

/-! ### Brackets in groups, and outside of them -/

def flagsText : List Char := "enum E \x7b #[a] A(u8), B = (1 << 2), C \x7d".toList

/-- The first variant, with its attribute and its payload. -/
def flagsFirst : WrittenVariant where
  attributes := [⟨⟨.punct, "#", 9, 10⟩,
    ⟨⟨.punct, "[", 10, 11⟩, [.leaf ⟨.ident, "a", 11, 12⟩], ⟨.punct, "]", 12, 13⟩⟩, rfl, rfl⟩]
  name := ⟨.ident, "A", 14, 15⟩
  payload := some ⟨⟨.punct, "(", 15, 16⟩, [.leaf ⟨.ident, "u8", 16, 18⟩], ⟨.punct, ")", 18, 19⟩⟩
  isName := rfl
  isPayload := forall_mem_some (.inl rfl)
  isValue := forall_mem_none

/-- The second variant, whose discriminant is a group. -/
def flagsSecond : WrittenVariant where
  name := ⟨.ident, "B", 21, 22⟩
  value := some (⟨.punct, "=", 23, 24⟩, [.group ⟨.punct, "(", 25, 26⟩
    [.leaf ⟨.literal, "1", 26, 27⟩, .leaf ⟨.punct, "<", 28, 29⟩, .leaf ⟨.punct, "<", 29, 30⟩,
      .leaf ⟨.literal, "2", 31, 32⟩] ⟨.punct, ")", 32, 33⟩])
  isName := rfl
  isPayload := forall_mem_none
  isValue := forall_mem_some ⟨rfl, List.cons_ne_nil _ _, List.forall_mem_singleton.mpr rfl⟩

/-- The variant without anything behind its name. -/
def WrittenVariant.plain (name : String) (start : Nat) : WrittenVariant where
  name := ⟨.ident, name, start, start + name.length⟩
  isName := rfl
  isPayload := forall_mem_none
  isValue := forall_mem_none

def flagsList : VariantList where
  ended := [(flagsFirst, ⟨.punct, ",", 19, 20⟩), (flagsSecond, ⟨.punct, ",", 33, 34⟩)]
  last := some (.plain "C" 35)
  isComma := List.forall_mem_cons.mpr ⟨rfl, List.forall_mem_singleton.mpr rfl⟩

def flagsEnum : Node :=
  .mk (.item .enum_ (some "E") (some ⟨7, 37⟩)) 0 0 38
    [.mk (.variant "A") 9 14 19 [.mk (.attribute (some "a") none false) 9 9 13 []],
      .mk (.variant "B") 21 21 33 [], .mk (.variant "C") 35 35 36 []]

/-- In a group the marks are no brackets. -/
theorem variants_eq_iff_flagsSample :
    parse flagsText = .ok ⟨flagsText, .mk .file 0 0 38 [flagsEnum], 0⟩ ∧
      flagsEnum.itemKind? = some .enum_ ∧ flagsEnum.Holds flagsText flagsList.trees ∧
      flagsEnum.variants = flagsList.variants.map WrittenVariant.node := by
  have h : parse flagsText = .ok ⟨flagsText, .mk .file 0 0 38 [flagsEnum], 0⟩ :=
    eq_ok_of_toOption (by decide +kernel)
  have hbody : flagsEnum.Holds flagsText flagsList.trees :=
    ⟨[⟨.ident, "enum", 0, 4⟩, ⟨.ident, "E", 5, 6⟩, ⟨.punct, "\x7b", 7, 8⟩] ++
      flattenAll flagsList.trees ++ [⟨.punct, "\x7d", 37, 38⟩], ⟨7, 37⟩,
      eq_ok_of_toOption (by decide +kernel), rfl, by decide, by decide⟩
  exact ⟨h, rfl, hbody, (variants_eq_iff h (by decide) rfl hbody).mpr (by decide)⟩

def shiftText : List Char := "enum E \x7b A = 1 << 2, B \x7d".toList

/-- A variant whose discriminant has the marks outside of groups. -/
def shiftFirst : WrittenVariant where
  name := ⟨.ident, "A", 9, 10⟩
  value := some (⟨.punct, "=", 11, 12⟩, [.leaf ⟨.literal, "1", 13, 14⟩,
    .leaf ⟨.punct, "<", 15, 16⟩, .leaf ⟨.punct, "<", 16, 17⟩, .leaf ⟨.literal, "2", 18, 19⟩])
  isName := rfl
  isPayload := forall_mem_none
  isValue := forall_mem_some ⟨rfl, List.cons_ne_nil _ _, by decide⟩

def shiftList : VariantList where
  ended := [(shiftFirst, ⟨.punct, ",", 19, 20⟩)]
  last := some (.plain "B" 21)
  isComma := List.forall_mem_singleton.mpr rfl

def shiftEnum : Node :=
  .mk (.item .enum_ (some "E") (some ⟨7, 23⟩)) 0 0 24 [.mk (.variant "A") 9 9 22 []]

/-- **Marks outside of groups hide the variants behind them**: the first of two variants takes in the
second. -/
theorem variants_swallowed :
    parse shiftText = .ok ⟨shiftText, .mk .file 0 0 24 [shiftEnum], 0⟩ ∧
      shiftEnum.itemKind? = some .enum_ ∧ shiftEnum.Holds shiftText shiftList.trees ∧
      shiftEnum.variants.map Node.name? = [some "A"] ∧
      shiftList.variants.map (·.name.text) = ["A", "B"] ∧
      shiftEnum.variants ≠ shiftList.variants.map WrittenVariant.node :=
  ⟨eq_ok_of_toOption (by decide +kernel), rfl,
    ⟨[⟨.ident, "enum", 0, 4⟩, ⟨.ident, "E", 5, 6⟩, ⟨.punct, "\x7b", 7, 8⟩] ++
      flattenAll shiftList.trees ++ [⟨.punct, "\x7d", 23, 24⟩], ⟨7, 23⟩,
      eq_ok_of_toOption (by decide +kernel), rfl, by decide, by decide⟩,
    by decide, by decide, by decide⟩

end ContractSync.Rust
