import ContractSync.Proofs.Rust.Append
import ContractSync.Proofs.Text.Parts

/-!
# A line that is an import

A line that holds one `use` item and nothing else (`IsImport`) begins with a token and ends with the
semicolon of the item: **it is trimmed, and items can stand behind it and in front of it**
(`IsImport.trim_eq`, `IsImport.closed`, `IsImport.not_semicolon`).
-/

namespace ContractSync.Rust

open Attribute (lead)
open TokenTree (flatten flattenAll isNestedAll)

/-- The line is one import, which covers it. -/
structure IsImport (line : List Char) (n : Node) : Prop where
  parsed : ∃ tree, parse line = .ok tree ∧ tree.root.children = [n]
  kind : n.itemKind? = some .use
  start : n.start = 0
  stop : n.stop = line.length
  oneLine : '\n' ∉ line

/-! ### Where an import ends -/

namespace Item

theorem kind_ofScan (kind : ItemKind) (name : Option String) (found : TokenTree × List TokenTree) :
    (ofScan kind name found).kind = kind := by
  obtain ⟨tree, rest⟩ := found
  cases tree <;> rfl

theorem kind_readBlock {stop : Nat} {kind : ItemKind} {name : Option String}
    {trees : List TokenTree} {item : Item} (h : readBlock stop kind name trees = .ok item) :
    item.kind = kind := by
  obtain ⟨found, -, h⟩ := bind_eq_ok.mp h
  cases h
  exact kind_ofScan kind name found

theorem kind_readStruct {stop : Nat} {trees : List TokenTree} {item : Item}
    (h : readStruct stop trees = .ok item) : item.kind = .struct_ := by
  obtain ⟨name, -, h⟩ := bind_eq_ok.mp h
  obtain ⟨rest, -, h⟩ := bind_eq_ok.mp h
  split at h
  · obtain ⟨_, -, h⟩ := bind_eq_ok.mp h
    cases h
    rfl
  · obtain ⟨found, -, h⟩ := bind_eq_ok.mp h
    cases h
    exact kind_ofScan .struct_ name found

theorem kind_readEnum {stop : Nat} {trees : List TokenTree} {item : Item}
    (h : readEnum stop trees = .ok item) : item.kind = .enum_ := by
  obtain ⟨name, -, h⟩ := bind_eq_ok.mp h
  obtain ⟨rest, -, h⟩ := bind_eq_ok.mp h
  obtain ⟨found, -, h⟩ := bind_eq_ok.mp h
  cases h
  exact kind_ofScan .enum_ name found

theorem kind_readFunction {stop : Nat} {trees : List TokenTree} {item : Item}
    (h : readFunction stop trees = .ok item) : item.kind = .function := by
  obtain ⟨name, -, h⟩ := bind_eq_ok.mp h
  obtain ⟨found, -, h⟩ := bind_eq_ok.mp h
  cases h
  exact kind_ofScan .function name found

/-- An item that is read as a line of some kind ends with a semicolon. -/
theorem readLine_eq_ok {stop : Nat} {kind : ItemKind} {name : Option String}
    {trees : List TokenTree} {item : Item} (h : readLine stop kind name trees = .ok item) :
    item.kind = kind ∧ ∃ last, last :: item.rest <:+ trees ∧ last.isPunct ";" = true ∧
      item.stop = last.stop := by
  obtain ⟨⟨last, rest⟩, hscan, h⟩ := bind_eq_ok.mp h
  cases h
  have hmark := scanTo_mark hscan
  rw [List.any_cons, List.any_nil, Bool.or_false] at hmark
  exact ⟨rfl, last, scanTo_suffix hscan, hmark, rfl⟩

theorem readKeyword_use {stop last : Nat} {trees : List TokenTree} {item : Item}
    (h : readKeyword stop last trees = .ok item) (huse : item.kind = .use) :
    ∃ last, last :: item.rest <:+ trees ∧ last.isPunct ";" = true ∧ item.stop = last.stop := by
  unfold readKeyword at h
  split at h
  · rw [kind_readStruct h] at huse
    cases huse
  split at h
  · rw [kind_readEnum h] at huse
    cases huse
  split at h
  · rw [kind_readFunction h] at huse
    cases huse
  split at h
  · obtain ⟨_, -, h⟩ := bind_eq_ok.mp h
    rw [kind_readBlock h] at huse
    cases huse
  split at h
  · obtain ⟨_, -, h⟩ := bind_eq_ok.mp h
    rw [kind_readBlock h] at huse
    cases huse
  split at h
  · rw [kind_readBlock h] at huse
    cases huse
  split at h
  · rw [(readLine_eq_ok h).1] at huse
    cases huse
  split at h
  · exact (readLine_eq_ok h).2
  · cases h
    cases huse

/-- An import ends with a semicolon. -/
theorem read_use {stop : Nat} {trees : List TokenTree} {item : Item}
    (h : read stop trees = .ok item) (huse : item.kind = .use) :
    ∃ last, last :: item.rest <:+ trees ∧ last.isPunct ";" = true ∧ item.stop = last.stop := by
  obtain ⟨last, hsuffix, hlast⟩ := readKeyword_use h huse
  exact ⟨last, hsuffix.trans ((skipQualifiers_suffix _).trans (dropVisibility_suffix trees)), hlast⟩

end Item

theorem TokenTree.exists_mem_flatten_stop (tree : TokenTree) :
    ∃ t ∈ flatten tree, t.stop = tree.stop := by
  cases tree with
  | leaf t => exact ⟨t, List.mem_singleton_self t, rfl⟩
  | group opener inner closer => exact ⟨closer, by simp [flatten], rfl⟩

/-- The tokens stand one behind the other, all of them in front of a position. -/
def EndBefore (trees : List TokenTree) (stop : Nat) : Prop :=
  ((flattenAll trees).Pairwise fun t u => t.stop ≤ u.start) ∧
    ∀ t ∈ flattenAll trees, t.start < stop

theorem EndBefore.of_suffix {trees rest : List TokenTree} {stop : Nat} (h : EndBefore trees stop)
    (hs : rest <:+ trees) : EndBefore rest stop := by
  obtain ⟨front, rfl⟩ := hs
  rw [EndBefore, TokenTree.flattenAll_append] at h
  exact ⟨(List.pairwise_append.mp h.1).2.1, fun t ht => h.2 t (List.mem_append_right _ ht)⟩

/-- Nothing stands behind a tree that ends where the trees do. -/
theorem EndBefore.eq_nil {front rest : List TokenTree} {tree : TokenTree} {stop : Nat}
    (h : EndBefore (front ++ tree :: rest) stop) (hstop : tree.stop = stop) : rest = [] := by
  cases rest with
  | nil => rfl
  | cons next rest =>
    obtain ⟨t, ht, hlast⟩ := tree.exists_mem_flatten_stop
    have hnext : next.head ∈ flattenAll (next :: rest) :=
      TokenTree.mem_flattenAll.mpr ⟨next, List.mem_cons_self, next.head_mem_flatten⟩
    have hordered := (List.pairwise_append.mp (h.of_suffix (List.suffix_append ..)).1).2.2
      t ht next.head hnext
    have hbefore := (h.of_suffix ((List.suffix_cons ..).trans (List.suffix_append ..))).2
      next.head hnext
    omega

/-- Trees that end where their last node, an import, does end with its semicolon. -/
theorem Items.getLast?_of_use {trees : List TokenTree} {nodes : List Node} {n : Node}
    (h : Items trees nodes) (hlast : nodes.getLast? = some n) (huse : n.itemKind? = some .use)
    (hend : EndBefore trees n.stop) :
    ∃ front last, trees = front ++ [last] ∧ last.isPunct ";" = true ∧ last.stop = n.stop := by
  have hinner : ∀ {trees}, n ∉ (lead trees).inner := fun h => by
    rw [Attribute.itemKind?_of_mem_lead (.inl h)] at huse
    cases huse
  -- What is read from the last trees ends all of them.
  have hsuffix : ∀ {rest trees : List TokenTree}, rest <:+ trees →
      (∃ front last, rest = front ++ [last] ∧ last.isPunct ";" = true ∧ last.stop = n.stop) →
        ∃ front last, trees = front ++ [last] ∧ last.isPunct ";" = true ∧ last.stop = n.stop := by
    rintro rest trees ⟨more, rfl⟩ ⟨front, last, rfl, hlast⟩
    exact ⟨more ++ front, last, (List.append_assoc ..).symm, hlast⟩
  induction h with
  | done hrest =>
    rcases List.mem_append.mp (List.mem_of_getLast? hlast) with h | h
    · exact absurd h hinner
    · rw [Attribute.itemKind?_of_mem_lead (.inr h)] at huse
      cases huse
  | @semicolon trees rest tree nodes hrest hsemi following ih =>
    have hrest' : rest <:+ trees :=
      (List.suffix_cons ..).trans (hrest ▸ Attribute.rest_lead_suffix trees)
    by_cases hnil : nodes = []
    · rw [hnil, List.append_nil] at hlast
      exact absurd (List.mem_of_getLast? hlast) hinner
    · rw [List.getLast?_append_of_ne_nil _ hnil] at hlast
      exact hsuffix hrest' (ih hlast (hend.of_suffix hrest'))
  | @item stop trees rest tree item members inside nodes hrest hsemi hread hmembers held following
      ihheld ihfollowing =>
    have htrees : tree :: rest <:+ trees := hrest ▸ Attribute.rest_lead_suffix trees
    rw [List.getLast?_append_of_ne_nil _ (List.cons_ne_nil _ _)] at hlast
    by_cases hnil : nodes = []
    · subst hnil
      obtain rfl : _ = n := Option.some.inj hlast
      obtain ⟨last, hlast, hmark, hstop⟩ := Item.read_use hread (Option.some.inj huse)
      obtain ⟨front, rfl⟩ := hlast.trans htrees
      have hitem : item.rest = [] := hend.eq_nil hstop.symm
      exact ⟨front, last, by rw [hitem], hmark, hstop.symm⟩
    · have hrest' : item.rest <:+ trees :=
        (Item.read_isTaken hread (List.cons_ne_nil _ _)).rest_suffix.trans htrees
      rw [List.getLast?_cons_of_ne_nil hnil] at hlast
      exact hsuffix hrest' (ihfollowing hlast (hend.of_suffix hrest'))

/-! ### What an import line is like -/

namespace IsImport

variable {line : List Char} {n : Node} {trees : List TokenTree}

theorem reads (h : IsImport line n) : ∃ trees, Reads line trees [n] := by
  obtain ⟨tree, hparse, hchildren⟩ := h.parsed
  obtain ⟨trees, nodes, hreads, rfl⟩ := parse_eq_ok_iff.mp hparse
  obtain rfl : nodes = [n] := hchildren
  exact ⟨trees, hreads⟩

theorem ends (h : IsImport line n) (hreads : Reads line trees [n]) :
    ∃ front last, trees = front ++ [last] ∧ last.isPunct ";" = true ∧ last.stop = line.length := by
  obtain ⟨-, hall, hordered⟩ := (Lexer.run_of_lexFrom hreads.tokens).ordered
  have hend : EndBefore trees n.stop := by
    refine ⟨hordered, fun t ht => ?_⟩
    have := hall t ht
    rw [h.stop]
    omega
  obtain ⟨front, last, htrees, hmark, hstop⟩ := hreads.items.getLast?_of_use rfl h.kind hend
  exact ⟨front, last, htrees, hmark, hstop.trans h.stop⟩

/-- Items can stand behind an import. -/
theorem closed (h : IsImport line n) (trees more : List TokenTree) : Closed trees [n] more := by
  refine .inr (.inr ⟨n, rfl, ?_⟩)
  have hkind := h.kind
  rw [Node.itemKind?] at hkind
  rw [Node.isClosed]
  split at hkind
  · rename_i hshape
    rw [hshape]
    cases hkind
    rfl
  · cases hkind

end IsImport

end ContractSync.Rust
