import ContractSync.Proofs.Rust.Grow
import ContractSync.Proofs.Rust.Items
import ContractSync.Proofs.Rust.Writing

/-!
# Texts of one item

Written declarations have a common form: attributes, visibility and qualifiers, the keyword with the name,
and what the kind asks for. `IsItemText` says that a text is read as one such item, complete in itself.
**A text with the tokens of a function is that of a function** (`exists_function`), wherever its tokens
stand.
-/

namespace ContractSync.Rust

open Attribute (lead)
open TokenTree (flattenAll isNestedAll)

/-! ### The parts of an item -/

/-- Outer attributes, one after another. -/
inductive IsAttributes : List TokenTree → Prop
  | nil : IsAttributes []
  | cons {hash opener closer : Token} {inner rest : List TokenTree} (hhash : hash.isPunct "#" = true)
      (hopener : opener.isPunct "[" = true) (following : IsAttributes rest) :
      IsAttributes (.leaf hash :: .group opener inner closer :: rest)

/-- The words in front of a keyword. -/
inductive IsFront : List TokenTree → Prop
  | nil : IsFront []
  | pub {t : Token} (h : t.isWord "pub" = true) : IsFront [.leaf t]
  | async {t : Token} (h : t.isWord "async" = true) : IsFront [.leaf t]
  | pubAsync {t u : Token} (ht : t.isWord "pub" = true) (hu : u.isWord "async" = true) :
      IsFront [.leaf t, .leaf u]

theorem TokenTree.eq_leaf_of_bare {tree : TokenTree} {t : Token} (h : tree.bare = .leaf t) :
    ∃ u, tree = .leaf u ∧ u.bare = t := by
  cases tree with
  | leaf u => exact ⟨u, rfl, by cases h; rfl⟩
  | group => cases h

theorem TokenTree.eq_group_of_bare {tree : TokenTree} {o c : Token} {inner : List TokenTree}
    (h : tree.bare = .group o inner c) :
    ∃ o' inner' c', tree = .group o' inner' c' ∧ o'.bare = o ∧ inner'.map bare = inner ∧
      c'.bare = c := by
  cases tree with
  | leaf => cases h
  | group o' inner' c' =>
    rw [bare, ← carry_same, carry_group, map_carry_same, group.injEq] at h
    exact ⟨o', inner', c', rfl, h⟩

theorem TokenTree.getLast?_flattenAll_group (o : Token) (inner : List TokenTree) (c : Token)
    (trees : List TokenTree) : (flattenAll (trees ++ [.group o inner c])).getLast? = some c := by
  rw [flattenAll_append, flattenAll, flatten, flattenAll, List.append_nil, ← List.cons_append,
    ← List.append_assoc, List.getLast?_concat]

theorem IsAttributes.of_bare {trees : List TokenTree} (h : IsAttributes (trees.map TokenTree.bare)) :
    IsAttributes trees := by
  generalize hbare : trees.map TokenTree.bare = bare at h
  induction h generalizing trees with
  | nil => exact List.map_eq_nil_iff.mp hbare ▸ .nil
  | cons hhash hopener _ ih =>
    obtain ⟨a, more, rfl, ha, hmore⟩ := List.map_eq_cons_iff.mp hbare
    obtain ⟨b, rest, rfl, hb, hrest⟩ := List.map_eq_cons_iff.mp hmore
    obtain ⟨hash, rfl, rfl⟩ := TokenTree.eq_leaf_of_bare ha
    obtain ⟨o, inner, c, rfl, rfl, -, -⟩ := TokenTree.eq_group_of_bare hb
    exact .cons hhash hopener (ih hrest)

theorem IsFront.of_bare {trees : List TokenTree} (h : IsFront (trees.map TokenTree.bare)) :
    IsFront trees := by
  match trees, h with
  | [], _ => exact .nil
  | [.leaf t], .pub ht => exact .pub ht
  | [.leaf t], .async ht => exact .async ht
  | [.leaf t, .leaf u], .pubAsync ht hu => exact .pubAsync ht hu

/-- Attributes are read as attributes, whatever they are those of. -/
theorem IsAttributes.lead_eq {attributes more : List TokenTree} (h : IsAttributes attributes)
    (hmore : lead more = { rest := more }) :
    lead (attributes ++ more) = ⟨[], (lead attributes).outer, more⟩ ∧
      ∀ n ∈ (lead attributes).outer, n.IsPlain := by
  induction h with
  | nil => exact ⟨hmore, List.forall_mem_nil _⟩
  | @cons hash opener closer inner rest hhash hopener _ ih =>
    obtain ⟨hlead, hplain⟩ := ih
    have hcons : ∀ trees, lead (.leaf hash :: .group opener inner closer :: trees) = { lead trees with
        outer := Attribute.node hash.start false inner closer :: (lead trees).outer } := fun trees => by
      rw [lead, hhash, hopener]
      rfl
    rw [List.cons_append, List.cons_append, hcons, hcons, hlead]
    exact ⟨rfl, List.forall_mem_cons.mpr ⟨Attribute.isPlain_node _ _ _ _, hplain⟩⟩

theorem dropVisibility_pub {t u : Token} (h : t.isWord "pub" = true) (rest : List TokenTree) :
    Entry.dropVisibility (.leaf t :: .leaf u :: rest) = .leaf u :: rest :=
  if_pos h

/-- The keyword is what stands behind the words in front. -/
theorem IsFront.skip {front more : List TokenTree} {keyword : Token} (h : IsFront front)
    (hword : keyword.text ∉ "pub" :: Item.qualifiers) (hmore : ∃ t rest, more = .leaf t :: rest) :
    Item.skipQualifiers (Entry.dropVisibility (front ++ .leaf keyword :: more)) =
      .leaf keyword :: more := by
  obtain ⟨t, rest, rfl⟩ := hmore
  rw [List.mem_cons, not_or] at hword
  have hpub : keyword.isWord "pub" = false := by
    rw [Token.isWord, beq_false_of_ne hword.1, Bool.and_false]
  have hstop : Item.isQualifier keyword (.leaf t :: rest) = false := by
    have hcontains : Item.qualifiers.contains keyword.text = false := by
      rw [← Bool.not_eq_true, List.contains_iff_mem]
      exact hword.2
    rw [Item.isQualifier, hcontains, Bool.and_false, Bool.false_and]
  have hkeyword : Item.skipQualifiers (.leaf keyword :: .leaf t :: rest) =
      .leaf keyword :: .leaf t :: rest := Item.skipQualifiers_of_not hstop
  have hasync : ∀ {u : Token}, u.isWord "async" = true →
      Item.skipQualifiers (.leaf u :: .leaf keyword :: .leaf t :: rest) =
        .leaf keyword :: .leaf t :: rest := by
    intro u hu
    rw [Token.isWord, Bool.and_eq_true, beq_iff_eq, beq_iff_eq] at hu
    have hqualifier : Item.isQualifier u (.leaf keyword :: .leaf t :: rest) = true := by
      rw [Item.isQualifier, hu.1, hu.2]
      rfl
    rw [Item.skipQualifiers, if_pos hqualifier, if_neg fun h => absurd (hu.2 ▸ h.1) (by decide), hkeyword]
  cases h with
  | nil =>
    rw [List.nil_append, Entry.dropVisibility_of_not_pub hpub, hkeyword]
  | pub h => rw [List.singleton_append, dropVisibility_pub h, hkeyword]
  | @async t h =>
    have hnot : t.isWord "pub" = false := by
      have hword := h
      rw [Token.isWord, Bool.and_eq_true, beq_iff_eq, beq_iff_eq] at hword
      rw [Token.isWord, hword.2, Bool.and_eq_false_iff]
      exact .inr rfl
    rw [List.singleton_append, Entry.dropVisibility_of_not_pub hnot, hasync h]
  | pubAsync ht hu =>
    rw [List.cons_append, List.singleton_append, dropVisibility_pub ht, hasync hu]

/-! ### Items -/

/-- The text is read as this item, which is complete and begins with no semicolon. -/
structure IsItemText (text : List Char) (node : Node) : Prop where
  reads : ∃ trees, Reads text trees [node] ∧ (∀ tree ∈ trees.head?, tree.isPunct ";" = false) ∧
    ∃ t, (flattenAll trees).getLast? = some t ∧ (t.isPunct ";" = true ∨ t.isPunct "\x7d" = true)
  plain : ∀ m ∈ Node.walkAll node.children, m.itemKind? = none

theorem walkAll_isPlain {nodes : List Node} (h : ∀ n ∈ nodes, n.IsPlain) :
    ∀ m ∈ Node.walkAll nodes, m.itemKind? = none := by
  intro m hm
  obtain ⟨n, hn, hm⟩ := Node.mem_walkAll.mp hm
  exact h n hn m hm

/-- The head of an item: its first tree is no attribute and no semicolon. -/
theorem IsFront.head {front : List TokenTree} {keyword : Token} (h : IsFront front)
    (hkeyword : keyword.kind = .ident) (more : List TokenTree) :
    ∃ t rest, front ++ .leaf keyword :: more = .leaf t :: rest ∧ t.kind = .ident := by
  have hident : ∀ {t : Token} {word : String}, t.isWord word = true → t.kind = .ident := by
    intro t word h
    rw [Token.isWord, Bool.and_eq_true, beq_iff_eq] at h
    exact h.1
  cases h with
  | nil => exact ⟨_, _, rfl, hkeyword⟩
  | pub h | async h => exact ⟨_, _, rfl, hident h⟩
  | pubAsync h _ => exact ⟨_, _, rfl, hident h⟩

/-- An item begins with an attribute or a word. -/
theorem IsAttributes.head {attributes more : List TokenTree} {t : Token}
    (h : IsAttributes attributes) (ht : t.kind = .ident) :
    ∀ tree ∈ (attributes ++ .leaf t :: more).head?, tree.isPunct ";" = false := by
  intro tree htree
  cases h with
  | nil =>
    cases htree
    rw [TokenTree.isPunct, TokenTree.head, Token.isPunct, ht]
    rfl
  | cons hhash =>
    cases htree
    rw [Token.isPunct, Bool.and_eq_true, beq_iff_eq, beq_iff_eq] at hhash
    rw [TokenTree.isPunct, TokenTree.head, Token.isPunct, hhash.2, Bool.and_eq_false_iff]
    exact .inr rfl

/-- An item behind its attributes, with nothing behind it and no items in it. -/
theorem IsFront.items {attributes front more : List TokenTree} {keyword : Token} {item : Item}
    {members : List Node} {stop : Nat} (hfront : IsFront front) (hattributes : IsAttributes attributes)
    (hkeyword : keyword.kind = .ident)
    (hread : Item.read stop (front ++ .leaf keyword :: more) = .ok item) (hrest : item.rest = [])
    (hmembers : item.members = .ok members) (hplain : ∀ n ∈ members, n.IsPlain)
    (hblock : item.isBlock = false) :
    ∃ start, Items (attributes ++ (front ++ .leaf keyword :: more))
        [item.toNode (lead attributes).outer start members []] ∧
      ∀ m ∈ Node.walkAll (item.toNode (lead attributes).outer start members []).children,
        m.itemKind? = none := by
  obtain ⟨t, rest, htrees, hident⟩ := hfront.head hkeyword more
  rw [htrees] at hread ⊢
  have hmark : ∀ text, t.isPunct text = false := fun text => by
    rw [Token.isPunct, hident]
    rfl
  obtain ⟨hlead, houter⟩ := hattributes.lead_eq (Attribute.lead_of_not_hash (hmark "#") rest)
  have hinside : item.inside = [] := by
    rw [Item.inside, hblock]
    rfl
  have hitems := Items.item (congrArg Attribute.Lead.rest hlead) (hmark ";") hread hmembers
    (by rw [hinside]; exact Items.nil) (by rw [hrest]; exact Items.nil)
  rw [hlead, List.nil_append] at hitems
  refine ⟨t.start, hitems, ?_⟩
  show ∀ m ∈ Node.walkAll ((lead attributes).outer ++ members ++ []), _
  rw [List.append_nil]
  exact walkAll_isPlain (List.forall_mem_append.mpr ⟨houter, hplain⟩)

namespace Item

variable {trees more : List TokenTree}

theorem scanTo_append {stop : Nat} {marks : List String} {found : TokenTree}
    (h : ∀ tree ∈ trees, marks.any tree.isPunct = false) (hfound : marks.any found.isPunct = true) :
    scanTo stop marks (trees ++ found :: more) = .ok (found, more) := by
  induction trees with
  | nil => rw [List.nil_append, scanTo, if_pos hfound]
  | cons tree trees ih =>
    obtain ⟨htree, htrees⟩ := List.forall_mem_cons.mp h
    rw [List.cons_append, scanTo, if_neg (by rw [htree]; exact Bool.false_ne_true), ih htrees]

/-- A function with its body. -/
theorem read_function {keyword name opener closer : Token} {signature inner : List TokenTree}
    (hskip : skipQualifiers (Entry.dropVisibility trees) =
      .leaf keyword :: .leaf name :: (signature ++ [.group opener inner closer]))
    (hkeyword : keyword.text = "fn") (hname : name.kind = .ident)
    (hsignature : ∀ tree ∈ signature, ["\x7b", ";"].any tree.isPunct = false)
    (hopener : opener.isPunct "\x7b" = true) (stop : Nat) :
    read stop trees = .ok {
      kind := .function, name := some name.text, body := some ⟨opener, inner, closer⟩
      stop := closer.stop, rest := [] } := by
  have hword : Item.keyword (.leaf keyword :: .leaf name ::
      (signature ++ [.group opener inner closer])) = "fn" := hkeyword
  have hfound : ["\x7b", ";"].any (TokenTree.group opener inner closer).isPunct = true := by
    rw [List.any_cons, TokenTree.isPunct, TokenTree.head, hopener]
    rfl
  rw [read, hskip, readKeyword, hword, if_neg (by decide), if_neg (by decide), if_pos rfl,
    readFunction, List.tail_cons, List.tail_cons, nameAt, if_pos hname, scanTo_append hsignature hfound]
  rfl

end Item

/-- **The text of a function**: attributes, the words in front, the keyword, the name, the signature and
the body, whose delimiters are balanced. -/
theorem exists_function {text : List Char} {name : String}
    (attributes front signature : List TokenTree) (body : List Token)
    (h : Writes Anything text (flattenAll attributes ++ (flattenAll front ++ ⟨.ident, "fn", 0, 0⟩ ::
      ⟨.ident, name, 0, 0⟩ :: (flattenAll signature ++
        ⟨.punct, "\x7b", 0, 0⟩ :: (body ++ [⟨.punct, "\x7d", 0, 0⟩])))))
    (hattributes : IsAttributes attributes) (hfront : IsFront front)
    (hnested : isNestedAll (attributes ++ front ++ signature) = true)
    (hsignature : ∀ tree ∈ signature, ["\x7b", ";"].any tree.isPunct = false)
    (hbody : nest [] body = some []) :
    ∃ node, IsItemText text node ∧ node.itemKind? = some .function ∧ node.name? = some name ∧
      node.body?.isSome := by
  obtain ⟨inner, rfl, hinner⟩ := exists_trees_of_nest hbody
  obtain ⟨ts, hts, hbare⟩ := h.tokenize trivial
  have hflat : ts.map Token.bare = flattenAll (attributes ++ (front ++
      .leaf ⟨.ident, "fn", 0, 0⟩ :: .leaf ⟨.ident, name, 0, 0⟩ ::
        (signature ++ [.group ⟨.punct, "\x7b", 0, 0⟩ inner ⟨.punct, "\x7d", 0, 0⟩]))) := by
    rw [hbare]
    simp [TokenTree.flattenAll_append, flattenAll, TokenTree.flatten]
  simp only [TokenTree.isNestedAll_append, Bool.and_eq_true] at hnested
  obtain ⟨there, rfl, hthere, htrees⟩ := exists_trees_of_bare hflat (by
    simp only [TokenTree.isNestedAll_append, isNestedAll, TokenTree.isNested, hnested, hinner]
    rfl)
  obtain ⟨attributes', there₁, rfl, rfl, h₁⟩ := List.map_eq_append_iff.mp htrees
  obtain ⟨front', there₂, rfl, rfl, h₂⟩ := List.map_eq_append_iff.mp h₁
  obtain ⟨a, there₃, rfl, ha, h₃⟩ := List.map_eq_cons_iff.mp h₂
  obtain ⟨b, there₄, rfl, hb, h₄⟩ := List.map_eq_cons_iff.mp h₃
  obtain ⟨signature', there₅, rfl, rfl, h₅⟩ := List.map_eq_append_iff.mp h₄
  obtain ⟨c, there₆, rfl, hc, h₆⟩ := List.map_eq_cons_iff.mp h₅
  obtain rfl := List.map_eq_nil_iff.mp h₆
  obtain ⟨keyword, rfl, hkeyword⟩ := TokenTree.eq_leaf_of_bare ha
  obtain ⟨t, rfl, ht⟩ := TokenTree.eq_leaf_of_bare hb
  obtain ⟨opener, inner', closer, rfl, hopener, -, hcloser⟩ := TokenTree.eq_group_of_bare hc
  have hkind : keyword.kind = .ident := congrArg Token.kind hkeyword
  have hword : keyword.text = "fn" := congrArg Token.text hkeyword
  have hbrace : opener.isPunct "\x7b" = true := Token.isPunct_of_bare hopener
  have hread := Item.read_function
    (hfront.of_bare.skip (by rw [hword]; decide)
      ⟨t, signature' ++ [.group opener inner' closer], rfl⟩)
    hword (show t.kind = .ident from congrArg Token.kind ht)
    (fun tree htree => hsignature tree.bare (List.mem_map_of_mem htree) ▸ by
      cases tree <;> rfl) hbrace 0
  obtain ⟨start, hitems, hplain⟩ := hfront.of_bare.items hattributes.of_bare hkind hread rfl rfl
    (List.forall_mem_nil _) rfl
  refine ⟨_, ⟨⟨_, ⟨hts, hthere, hitems⟩, ?_, closer, ?_, .inr ?_⟩, hplain⟩, rfl, ?_, rfl⟩
  · obtain ⟨u, rest, htrees, hu⟩ := hfront.of_bare.head hkind (.leaf t :: (signature' ++
      [.group opener inner' closer]))
    rw [htrees]
    exact hattributes.of_bare.head hu
  · have hend : ∀ trees, (flattenAll (trees ++ [.group opener inner' closer])).getLast? = some closer :=
      TokenTree.getLast?_flattenAll_group opener inner' closer
    have hlast := hend (attributes' ++ (front' ++ .leaf keyword :: .leaf t :: signature'))
    simpa only [List.append_assoc, List.cons_append] using hlast
  · exact Token.isPunct_of_bare hcloser
  · exact congrArg some (congrArg Token.text ht)

end ContractSync.Rust
