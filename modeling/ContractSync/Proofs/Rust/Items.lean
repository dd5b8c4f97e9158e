import ContractSync.Proofs.Rust.Grouping
import ContractSync.Proofs.Rust.MoveItem
import ContractSync.Rust.Tree

/-!
# The items in a sequence of trees

`Items trees nodes` says what `parseItems` does, one constructor for each way to go on: the trees are
read as the nodes, attribute after attribute and item after item. It does not mention the position
where the trees end, which only errors depend on: **`parseItems` succeeds with some nodes if and only if
the relation holds** (`parseItems_eq_ok_iff`). A text is read as the nodes of the nested trees of its
tokens (`parse_eq_ok_iff`).
-/

namespace ContractSync.Rust

open Attribute (lead)

/-- The trees are read as the nodes. -/
inductive Items : List TokenTree → List Node → Prop
  /-- Nothing but attributes. -/
  | done {trees : List TokenTree} (hrest : (lead trees).rest = []) :
      Items trees ((lead trees).inner ++ (lead trees).outer)
  /-- A semicolon that belongs to no item; outer attributes in front of it are lost. -/
  | semicolon {trees rest : List TokenTree} {tree : TokenTree} {nodes : List Node}
      (hrest : (lead trees).rest = tree :: rest) (hsemi : tree.isPunct ";" = true)
      (following : Items rest nodes) : Items trees ((lead trees).inner ++ nodes)
  /-- An item with what it holds. -/
  | item {stop : Nat} {trees rest : List TokenTree} {tree : TokenTree} {item : Item}
      {members inside nodes : List Node}
      (hrest : (lead trees).rest = tree :: rest) (hsemi : tree.isPunct ";" = false)
      (hread : Item.read stop (tree :: rest) = .ok item) (hmembers : item.members = .ok members)
      (held : Items item.inside inside) (following : Items item.rest nodes) :
      Items trees ((lead trees).inner ++
        item.toNode (lead trees).outer tree.start members inside :: nodes)

/-! ### The relation and the function -/

theorem parseItems_of_done {trees : List TokenTree} (hrest : (lead trees).rest = []) (stop : Nat) :
    parseItems stop trees = .ok ((lead trees).inner ++ (lead trees).outer) := by
  rw [parseItems.eq_def]
  dsimp only
  split
  · rfl
  · rename_i h
    rw [hrest] at h
    cases h

theorem parseItems_of_semicolon {trees rest : List TokenTree} {tree : TokenTree}
    (hrest : (lead trees).rest = tree :: rest) (hsemi : tree.isPunct ";" = true) (stop : Nat) :
    parseItems stop trees = (parseItems stop rest).map ((lead trees).inner ++ ·) := by
  rw [parseItems.eq_def]
  dsimp only
  split
  · rename_i h
    rw [hrest] at h
    cases h
  · rename_i h
    rw [hrest] at h
    cases h
    rw [if_pos hsemi]

theorem parseItems_of_item {stop : Nat} {trees rest : List TokenTree} {tree : TokenTree}
    (hrest : (lead trees).rest = tree :: rest) (hsemi : tree.isPunct ";" = false) :
    parseItems stop trees = do
      let item ← Item.read stop (tree :: rest)
      let members ← item.members
      let inside ← parseItems item.insideStop item.inside
      let following ← parseItems stop item.rest
      return (lead trees).inner ++
        item.toNode (lead trees).outer tree.start members inside :: following := by
  rw [parseItems.eq_def]
  dsimp only
  split
  · rename_i h
    rw [hrest] at h
    cases h
  · rename_i h
    rw [hrest] at h
    cases h
    rw [if_neg (by rw [hsemi]; exact Bool.false_ne_true)]
    split
    · rename_i hread
      rw [hread]
      rfl
    · rename_i hread
      rw [hread]
      rfl

theorem items_of_parseItems {stop : Nat} {trees : List TokenTree} {nodes : List Node}
    (h : parseItems stop trees = .ok nodes) : Items trees nodes := by
  induction stop, trees using parseItems.induct generalizing nodes with
  | case1 stop trees _ _ =>
    rename_i hrest
    rw [parseItems_of_done hrest] at h
    cases h
    exact .done hrest
  | case2 stop trees _ _ tree rest hrest hsemi =>
    rename_i ih
    rw [parseItems_of_semicolon hrest hsemi] at h
    obtain ⟨following, hfollowing, rfl⟩ := map_eq_ok.mp h
    exact .semicolon hrest hsemi (ih hfollowing)
  | case3 stop trees _ _ tree rest hrest hsemi failure =>
    rename_i hread
    rw [Bool.not_eq_true] at hsemi
    rw [parseItems_of_item hrest hsemi, hread] at h
    cases h
  | case4 stop trees _ _ tree rest hrest hsemi item hread ihinside =>
    rename_i ihrest
    rw [Bool.not_eq_true] at hsemi
    rw [parseItems_of_item hrest hsemi] at h
    obtain ⟨_, hread', h⟩ := bind_eq_ok.mp h
    cases hread.symm.trans hread'
    obtain ⟨members, hmembers, h⟩ := bind_eq_ok.mp h
    obtain ⟨inside, hinside, h⟩ := bind_eq_ok.mp h
    obtain ⟨following, hfollowing, h⟩ := bind_eq_ok.mp h
    rw [pure_eq_ok] at h
    subst h
    exact .item hrest hsemi hread hmembers (ihinside hinside) (ihrest hfollowing)

/-- An item is read alike when other trees follow, if it is settled without them. Where the trees end
does not matter. -/
theorem Item.read_append {stop : Nat} {trees more : List TokenTree} {item : Item}
    (h : read stop trees = .ok item) (hne : trees ≠ []) (hsettled : item.Settled trees more)
    (stop' : Nat) : read stop' (trees ++ more) = .ok { item with rest := item.rest ++ more } := by
  have hid : TokenTree.recast (.same id) (fun _ inner => inner) = id := by
    funext tree
    cases tree <;> rfl
  have h' : read stop' (trees.map (TokenTree.recast (.same id) fun _ inner => inner) ++ more) =
      .ok (item.recast (.same id) (fun _ inner => inner) more) := read_recast h hne hsettled stop'
  have hitem : item.recast (.same id) (fun _ inner => inner) more =
      { item with rest := item.rest ++ more } := by
    have hgroup : Group.recast (.same id) (fun _ inner => inner) = id := rfl
    rw [Item.recast, hid, hgroup, Option.map_id_apply, List.map_id]
    rfl
  rwa [hitem, hid, List.map_id] at h'

theorem Item.read_stop {stop : Nat} {trees : List TokenTree} {item : Item}
    (h : read stop trees = .ok item) (hne : trees ≠ []) (stop' : Nat) :
    read stop' trees = .ok item := by
  have h' := read_append h hne (.inl rfl) stop'
  rwa [List.append_nil, List.append_nil] at h'

theorem parseItems_of_items {trees : List TokenTree} {nodes : List Node} (h : Items trees nodes)
    (stop : Nat) : parseItems stop trees = .ok nodes := by
  induction h generalizing stop with
  | done hrest => exact parseItems_of_done hrest stop
  | semicolon hrest hsemi _ ih =>
    rw [parseItems_of_semicolon hrest hsemi, ih]
    rfl
  | item hrest hsemi hread hmembers _ _ ihheld ihfollowing =>
    rw [parseItems_of_item hrest hsemi]
    refine bind_eq_ok.mpr ⟨_, Item.read_stop hread (List.cons_ne_nil _ _) stop, ?_⟩
    refine bind_eq_ok.mpr ⟨_, hmembers, ?_⟩
    refine bind_eq_ok.mpr ⟨_, ihheld _, ?_⟩
    exact bind_eq_ok.mpr ⟨_, ihfollowing _, rfl⟩

/-- **The relation is what `parseItems` computes.** -/
theorem parseItems_eq_ok_iff {stop : Nat} {trees : List TokenTree} {nodes : List Node} :
    parseItems stop trees = .ok nodes ↔ Items trees nodes :=
  ⟨items_of_parseItems, fun h => parseItems_of_items h stop⟩

theorem Items.unique {trees : List TokenTree} {nodes nodes' : List Node} (h : Items trees nodes)
    (h' : Items trees nodes') : nodes = nodes' :=
  Except.ok.inj ((parseItems_of_items h 0).symm.trans (parseItems_of_items h' 0))

/-! ### What a first step leaves to read -/

theorem items_semicolon_iff {trees rest : List TokenTree} {tree : TokenTree} {all : List Node}
    (hrest : (lead trees).rest = tree :: rest) (hsemi : tree.isPunct ";" = true) :
    Items trees all ↔ ∃ nodes, Items rest nodes ∧ all = (lead trees).inner ++ nodes := by
  rw [← @parseItems_eq_ok_iff 0 trees, parseItems_of_semicolon hrest hsemi, map_eq_ok]
  simp only [parseItems_eq_ok_iff, @eq_comm _ all]

theorem items_item_iff {stop : Nat} {trees rest : List TokenTree} {tree : TokenTree} {item : Item}
    {members inside all : List Node} (hrest : (lead trees).rest = tree :: rest)
    (hsemi : tree.isPunct ";" = false) (hread : Item.read stop (tree :: rest) = .ok item)
    (hmembers : item.members = .ok members) (held : Items item.inside inside) :
    Items trees all ↔ ∃ nodes, Items item.rest nodes ∧ all = (lead trees).inner ++
      item.toNode (lead trees).outer tree.start members inside :: nodes := by
  constructor
  · intro h
    rw [← @parseItems_eq_ok_iff stop, parseItems_of_item hrest hsemi, hread] at h
    obtain ⟨_, hitem, h⟩ := bind_eq_ok.mp h
    cases hitem
    rw [hmembers] at h
    obtain ⟨_, hmembers', h⟩ := bind_eq_ok.mp h
    cases hmembers'
    rw [parseItems_of_items held] at h
    obtain ⟨_, hinside, h⟩ := bind_eq_ok.mp h
    cases hinside
    obtain ⟨nodes, hnodes, h⟩ := bind_eq_ok.mp h
    exact ⟨nodes, items_of_parseItems hnodes, pure_eq_ok.mp h⟩
  · rintro ⟨nodes, hnodes, rfl⟩
    exact .item hrest hsemi hread hmembers held hnodes

/-! ### Whole texts -/

/-- The text is read as the nodes of the trees that its tokens are grouped to. -/
structure Reads (source : List Char) (trees : List TokenTree) (nodes : List Node) : Prop where
  tokens : tokenize source = .ok (TokenTree.flattenAll trees)
  nested : TokenTree.isNestedAll trees = true
  items : Items trees nodes

/-- What it takes for a text to be read. -/
theorem parse_eq_ok_iff {source : List Char} {revision : Nat} {tree : Tree} :
    parse source revision = .ok tree ↔
      ∃ trees nodes, Reads source trees nodes ∧
        tree = ⟨source, .mk .file 0 0 source.length nodes, revision⟩ := by
  simp only [parse, bind_eq_ok, pure_eq_ok, parseItems_eq_ok_iff, TokenTree.ofTokens_eq_ok_iff]
  constructor
  · rintro ⟨_, htokens, trees, ⟨rfl, hnested⟩, nodes, hitems, rfl⟩
    exact ⟨trees, nodes, ⟨htokens, hnested, hitems⟩, rfl⟩
  · rintro ⟨trees, nodes, ⟨htokens, hnested, hitems⟩, rfl⟩
    exact ⟨_, htokens, trees, ⟨rfl, hnested⟩, nodes, hitems, rfl⟩

/-- A text is read in one way. -/
theorem Reads.unique {source : List Char} {trees trees' : List TokenTree}
    {nodes nodes' : List Node} (h : Reads source trees nodes) (h' : Reads source trees' nodes') :
    trees = trees' ∧ nodes = nodes' := by
  obtain rfl := TokenTree.flattenAll_injective h.nested h'.nested
    (Except.ok.inj (h.tokens.symm.trans h'.tokens))
  exact ⟨rfl, h.items.unique h'.items⟩

end ContractSync.Rust
