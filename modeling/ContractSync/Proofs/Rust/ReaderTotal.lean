import ContractSync.Proofs.Rust.Lossless
import ContractSync.Proofs.Rust.Move
import ContractSync.Proofs.Rust.ReaderArena
import ContractSync.Proofs.Rust.ReaderItem

/-!
# Every text is read or shows why not

Reading by positions never looks for a token or a delimiter that is not there, and never stays where it is:
**it comes to the tree of the text, each node with its parent, or fails where reading the trees fails, in a
place inside the text** (`parse_total`).
-/

/-!
## Ways through an arena

Places of an arena are reached from the first one, child by child (`Arena.Leads`). If the arena holds a tree,
each place that is reached holds a node of it and names the place it was reached from. **No place is reached
in two ways** (`Represents.path_unique`) if parts of one node start in different places.
-/

namespace ContractSync.Rust

namespace Node

mutual

/-- What stands in a node stands there in the same order. -/
theorem walk_sublist {n m : Node} (h : n ∈ m.walk) : n.walk.Sublist m.walk := by
  obtain ⟨shape, start, itemStart, stop, children⟩ := m
  rcases mem_walk_mk.mp h with rfl | h
  · exact List.Sublist.refl _
  · rw [walk]
    exact (walk_sublist_walkAll h).trans (List.sublist_cons_self ..)

theorem walk_sublist_walkAll {n : Node} {nodes : List Node} (h : n ∈ walkAll nodes) :
    n.walk.Sublist (walkAll nodes) := by
  match nodes with
  | m :: rest =>
    rw [walkAll] at h ⊢
    rcases List.mem_append.mp h with h | h
    · exact (walk_sublist h).trans (List.sublist_append_left ..)
    · exact (walk_sublist_walkAll h).trans (List.sublist_append_right ..)

end

theorem sublist_walkAll (nodes : List Node) : nodes.Sublist (walkAll nodes) := by
  induction nodes with
  | nil => exact List.Sublist.refl _
  | cons n rest ih =>
    rw [walkAll, ← List.singleton_append]
    exact (List.singleton_sublist.mpr (mem_walk_self n)).append ih

theorem walk_eq_cons (n : Node) : n.walk = n :: walkAll n.children := by
  cases n
  rw [walk]
  rfl

/-- The parts of a node that stands in another one. -/
theorem children_sublist {n : Node} {nodes : List Node} (h : n ∈ walkAll nodes) :
    n.children.Sublist (walkAll nodes) := by
  refine ((sublist_walkAll n.children).trans ?_).trans (walk_sublist_walkAll h)
  rw [walk_eq_cons]
  exact List.sublist_cons_self ..

end Node

namespace Arena

variable {arena : Arena} {region : Nat → Prop} {parent : Option Nat} {root : Node} {path : List Nat}
  {place : Nat}

/-- The arena holds the tree, the root in its first place. -/
def Represents (arena : Arena) (root : Node) : Prop := arena.Holds (fun _ => True) none root 0

/-- The places that are reached from the first one, with the numbers of the children on the way. -/
inductive Leads (arena : Arena) : List Nat → Nat → Prop
  | root : Leads arena [] 0
  | child {path : List Nat} {place k child : Nat} {slot : Slot} (h : Leads arena path place)
      (hslot : arena[place]? = some slot) (hchild : slot.children[k]? = some child) :
      Leads arena (path ++ [k]) child

theorem HoldsAll.getElem? {nodes : List Node} {places : List Nat} {k place : Nat}
    (h : HoldsAll arena region parent nodes places) (hk : places[k]? = some place) :
    ∃ n, nodes[k]? = some n ∧ Holds arena region parent n place := by
  induction k generalizing nodes places with
  | zero =>
    match nodes, places with
    | [], [] => cases hk
    | n :: rest, first :: places =>
      cases hk
      exact ⟨n, rfl, h.1⟩
  | succ k ih =>
    match nodes, places with
    | [], [] => cases hk
    | n :: rest, first :: places => exact ih h.2 hk

/-- The slot of a node. -/
theorem Holds.slot {n : Node} {place : Nat} (h : Holds arena region parent n place) :
    ∃ slot, arena[place]? = some slot ∧ slot.itemStart = n.itemStart ∧ slot.parent = parent ∧
      HoldsAll arena region (some place) n.children slot.children := by
  obtain ⟨shape, start, itemStart, stop, parts⟩ := n
  obtain ⟨-, places, hslot, hparts⟩ := h
  exact ⟨_, hslot, rfl, rfl, hparts⟩

/-- What is reached is a node of the tree. -/
theorem Represents.holds (h : arena.Represents root) (hleads : arena.Leads path place) :
    ∃ n ∈ root.walk, ∃ parent, arena.Holds (fun _ => True) parent n place := by
  induction hleads with
  | root => exact ⟨root, Node.mem_walk_self root, none, h⟩
  | @child path place k child slot hleads hslot hchild ih =>
    obtain ⟨n, hn, parent, hholds⟩ := ih
    obtain ⟨_, hslot', -, -, hparts⟩ := hholds.slot
    cases hslot.symm.trans hslot'
    obtain ⟨c, hc, hholds⟩ := hparts.getElem? hchild
    refine ⟨c, (Node.walk_sublist hn).subset ?_, some place, hholds⟩
    rw [Node.walk_eq_cons]
    exact List.mem_cons_of_mem _ ((Node.sublist_walkAll _).subset (List.mem_of_getElem? hc))

/-- What is reached from a place records it as its parent. -/
theorem Represents.parent_eq (h : arena.Represents root) {slot : Slot} (hleads : arena.Leads path place)
    (hslot : arena[place]? = some slot) {child : Nat} (hchild : child ∈ slot.children) :
    ∃ found, arena[child]? = some found ∧ found.parent = some place := by
  obtain ⟨n, -, parent, hholds⟩ := h.holds hleads
  obtain ⟨_, hslot', -, -, hparts⟩ := hholds.slot
  cases hslot.symm.trans hslot'
  obtain ⟨k, hk⟩ := List.mem_iff_getElem?.mp hchild
  obtain ⟨c, -, hc⟩ := hparts.getElem? hk
  obtain ⟨found, hfound, -, hparent, -⟩ := hc.slot
  exact ⟨found, hfound, hparent⟩

/-- Parts that start in different places stand in different slots. -/
theorem HoldsAll.nodup {nodes : List Node} {places : List Nat}
    (h : HoldsAll arena region parent nodes places) (hapart : (nodes.map Node.itemStart).Nodup) {k k' : Nat}
    (hk : places[k]? = some place) (hk' : places[k']? = some place) : k = k' := by
  obtain ⟨n, hn, hholds⟩ := h.getElem? hk
  obtain ⟨n', hn', hholds'⟩ := h.getElem? hk'
  obtain ⟨slot, hslot, hstart, -⟩ := hholds.slot
  obtain ⟨slot', hslot', hstart', -⟩ := hholds'.slot
  cases hslot.symm.trans hslot'
  have hlt : k < (nodes.map Node.itemStart).length := by
    rw [List.length_map]
    exact (List.getElem?_eq_some_iff.mp hn).1
  refine (List.getElem?_inj hlt hapart).mp ?_
  rw [List.getElem?_map, List.getElem?_map, hn, hn', Option.map_some, Option.map_some, ← hstart, ← hstart']

/-- **No place is reached in two ways** if parts of the same node start in different places. -/
theorem Represents.path_unique (h : arena.Represents root)
    (hapart : ∀ n ∈ root.walk, (n.children.map Node.itemStart).Nodup) {path' : List Nat}
    (hleads : arena.Leads path place) (hleads' : arena.Leads path' place) : path = path' := by
  have hroot : ∀ {path : List Nat} {place : Nat} {slot : Slot}, arena.Leads path place →
      arena[place]? = some slot → 0 ∉ slot.children := by
    intro path place slot hleads hslot hmem
    obtain ⟨found, hfound, hparent⟩ := h.parent_eq hleads hslot hmem
    obtain ⟨first, hfirst, -, hnone, -⟩ := Holds.slot h
    cases hfound.symm.trans hfirst
    rw [hnone] at hparent
    cases hparent
  induction hleads generalizing path' with
  | root =>
    cases hleads' with
    | root => rfl
    | child hleads' hslot' hchild' => exact absurd (List.mem_of_getElem? hchild') (hroot hleads' hslot')
  | @child path place k child slot hleads hslot hchild ih =>
    cases hleads' with
    | root => exact absurd (List.mem_of_getElem? hchild) (hroot hleads hslot)
    | @child path' place' k' _ slot' hleads' hslot' hchild' =>
      obtain ⟨found, hfound, hparent⟩ := h.parent_eq hleads hslot (List.mem_of_getElem? hchild)
      obtain ⟨found', hfound', hparent'⟩ := h.parent_eq hleads' hslot' (List.mem_of_getElem? hchild')
      cases hfound.symm.trans hfound'
      cases hparent.symm.trans hparent'
      cases hslot.symm.trans hslot'
      obtain ⟨n, hn, parent, hholds⟩ := h.holds hleads
      obtain ⟨_, hslot', -, -, hparts⟩ := hholds.slot
      cases hslot.symm.trans hslot'
      rw [ih hleads', hparts.nodup (hapart n hn) hchild hchild']

end Arena

end ContractSync.Rust

/-! ## All texts -/

namespace ContractSync.Rust

open TokenTree (build flattenAll ofTokens pairsAll)

/-- A delimiter without a partner is one of the tokens. -/
theorem TokenTree.offset_of_build {stack : List (Token × List TokenTree)} {current : List TokenTree}
    {tokens : List Token} {failure : Failure} (h : build stack current tokens = .error failure) :
    ∃ t ∈ stack.map Prod.fst ++ tokens, failure.offset = t.start := by
  fun_induction build stack current tokens with
  | case1 => cases h
  | case2 current opener before stack =>
    cases h
    exact ⟨opener, List.mem_append_left _ List.mem_cons_self, rfl⟩
  | case3 stack current t rest hopener ih =>
    obtain ⟨u, hu, hoffset⟩ := ih h
    refine ⟨u, ?_, hoffset⟩
    rw [List.map_cons, List.cons_append] at hu
    rcases List.mem_cons.mp hu with rfl | hu
    · exact List.mem_append_right _ List.mem_cons_self
    · rcases List.mem_append.mp hu with hu | hu
      · exact List.mem_append_left _ hu
      · exact List.mem_append_right _ (List.mem_cons_of_mem _ hu)
  | case4 current t rest hopener hcloser =>
    cases h
    exact ⟨t, List.mem_append_right _ List.mem_cons_self, rfl⟩
  | case5 current t rest hopener hcloser opener before stack hcloses ih =>
    obtain ⟨u, hu, hoffset⟩ := ih h
    refine ⟨u, ?_, hoffset⟩
    rcases List.mem_append.mp hu with hu | hu
    · exact List.mem_append_left _ (List.mem_cons_of_mem _ hu)
    · exact List.mem_append_right _ (List.mem_cons_of_mem _ hu)
  | case6 current t rest hopener hcloser opener before stack hcloses =>
    cases h
    exact ⟨t, List.mem_append_right _ List.mem_cons_self, rfl⟩
  | case7 stack current t rest hopener hcloser ih =>
    obtain ⟨u, hu, hoffset⟩ := ih h
    refine ⟨u, ?_, hoffset⟩
    rcases List.mem_append.mp hu with hu | hu
    · exact List.mem_append_left _ hu
    · exact List.mem_append_right _ (List.mem_cons_of_mem _ hu)

/-- **Every text is read, or shows where it cannot be read**: no lookup fails, and no loop is stuck. -/
theorem parse_total (source : List Char) (revision : Nat) :
    (∃ tree arena, parse source revision = .ok tree ∧ parseArena source = .ok arena ∧
        arena.Represents tree.root) ∨
      ∃ failure, parse source revision = .error failure ∧ parseArena source = .error (.failure failure) ∧
        failure.offset ≤ source.length ∧
          failure.line source = (source.take failure.offset).count '\n' + 1 := by
  rw [parse, parseArena]
  cases htokens : tokenize source with
  | error failure =>
    obtain ⟨_, h, -⟩ | ⟨_, h, hoffset, -⟩ := tokenize_lossless source
    · rw [htokens] at h
      cases h
    · rw [htokens] at h
      cases h
      exact .inr ⟨failure, rfl, rfl, Nat.le_of_lt hoffset, rfl⟩
  | ok tokens =>
    have hsound := Reader.isSound_of_tokenize htokens
    rw [bind_ok, mapError_ok, bind_ok, matchDelimiters]
    cases htrees : ofTokens tokens with
    | error failure =>
      obtain ⟨t, ht, hoffset⟩ := TokenTree.offset_of_build htrees
      exact .inr ⟨failure, rfl, rfl, hoffset ▸ (hsound []).bounded t ht, rfl⟩
    | ok trees =>
      obtain ⟨rfl, hnested⟩ := TokenTree.ofTokens_eq_ok_iff.mp htrees
      let input : Reader.Input := ⟨source, flattenAll trees, pairsAll 0 trees⟩
      have hlaid : Reader.LaidAll input trees 0 input.tokens.length :=
        Reader.laidAll_of_nested hnested rfl rfl
      have hend : input.offset input.tokens.length = source.length := by
        rw [Reader.Input.offset, List.getElem?_eq_none (Nat.le_refl _)]
        rfl
      let file : Slot := { shape := .file, start := 0, itemStart := 0, stop := source.length }
      have howner : 0 < [file].length := Nat.one_pos
      have hitems := Reader.parseItems_agrees (hsound (pairsAll 0 trees)) howner hlaid
      rw [hend] at hitems
      rw [bind_ok]
      cases hparse : parseItems source.length trees with
      | error failure =>
        rw [hparse] at hitems
        obtain ⟨harena, hoffset⟩ := hitems
        exact .inr ⟨failure, rfl, harena, hoffset, rfl⟩
      | ok nodes =>
        rw [hparse] at hitems
        obtain ⟨arena, harena, hhung⟩ := hitems
        obtain ⟨places, hroot, hheld⟩ := hhung.held _ rfl
        refine .inl ⟨_, arena, rfl, harena, trivial, places, hroot, hheld.mono fun _ _ => trivial⟩

end ContractSync.Rust
