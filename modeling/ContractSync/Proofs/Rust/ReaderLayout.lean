import ContractSync.Proofs.Rust.Reader
import ContractSync.Proofs.Rust.Refill
import ContractSync.Proofs.Rust.Writing

/-!
# Trees in the positions of their tokens

Trees are laid out between two positions if their tokens stand there and each group has its delimiters in
the table (`LaidAll`). **The trees of a text are laid out between the first position and the last one**
(`laidAll_of_nested`). What is read by positions agrees with what is read from the trees if both come to
related results, or both fail alike somewhere in the text (`Agrees`).
-/

/-!
## The table of delimiters

`matchDelimiters` lists the positions of matching delimiters among the tokens. **Every group of the trees
has its two delimiters in the table** (`Group.Within.exists_pair`), and each opening one stands there once,
so that it is found (`lookup_pairsAll`).
-/

namespace ContractSync.Rust

open TokenTree (flatten flattenAll isNested pairs pairsAll size sizeAll)

/-- A token that opens a group is no word. -/
theorem Token.kind_of_isOpener {t : Token} (h : t.isOpener = true) : t.kind = .punct := by
  simp only [Token.isOpener, Token.isPunct, Bool.or_eq_true, Bool.and_eq_true, beq_iff_eq] at h
  rcases h with (h | h) | h <;> exact h.1

/-- What opens a group is none of the other marks. -/
theorem Token.isPunct_of_isOpener {t : Token} {mark : String} (h : t.isOpener = true)
    (hmark : mark ∉ ["(", "[", "\x7b"]) : t.isPunct mark = false := by
  rw [← Bool.not_eq_true]
  intro h'
  simp only [List.mem_cons, List.not_mem_nil, or_false, not_or] at hmark
  rw [Token.isOpener, Token.isPunct_of_ne h' hmark.1, Token.isPunct_of_ne h' hmark.2.1,
    Token.isPunct_of_ne h' hmark.2.2] at h
  cases h

namespace TokenTree

mutual

theorem length_flatten (tree : TokenTree) : (flatten tree).length = size tree := by
  cases tree with
  | leaf t => rfl
  | group opener inner closer =>
    rw [flatten, size, List.length_cons, List.length_append, length_flattenAll]
    rfl

theorem length_flattenAll (trees : List TokenTree) : (flattenAll trees).length = sizeAll trees := by
  cases trees with
  | nil => rfl
  | cons tree rest =>
    rw [flattenAll, sizeAll, List.length_append, length_flatten, length_flattenAll]

end

/-- A mark that opens nothing is a single token. -/
theorem exists_leaf {tree : TokenTree} (h : isNested tree = true) {mark : String}
    (hmark : tree.isPunct mark = true) (hopener : mark ∉ ["(", "[", "\x7b"]) :
    ∃ t, tree = leaf t := by
  cases tree with
  | leaf t => exact ⟨t, rfl⟩
  | group opener inner closer =>
    rw [isNested, Bool.and_eq_true] at h
    rw [isPunct, head, Token.isPunct_of_isOpener (Token.isOpener_of_closes h.1) hopener] at hmark
    cases hmark

theorem pairsAll_append (base : Nat) (a b : List TokenTree) :
    pairsAll base (a ++ b) = pairsAll base a ++ pairsAll (base + sizeAll a) b := by
  induction a generalizing base with
  | nil => rfl
  | cons tree a ih => rw [List.cons_append, pairsAll, pairsAll, sizeAll, ih, List.append_assoc, Nat.add_assoc]

mutual

/-- The opening delimiters of a tree stand among its tokens, in their order. -/
theorem pairs_ordered (base : Nat) (tree : TokenTree) :
    (∀ p ∈ pairs base tree, base ≤ p.1 ∧ p.1 < base + size tree) ∧
      (pairs base tree).Pairwise fun p q => p.1 < q.1 := by
  cases tree with
  | leaf t => exact ⟨List.forall_mem_nil _, .nil⟩
  | group opener inner closer =>
    obtain ⟨hinside, hordered⟩ := pairsAll_ordered (base + 1) inner
    rw [pairs, size]
    refine ⟨List.forall_mem_cons.mpr ⟨⟨Nat.le_refl _, by show base < _; omega⟩, fun p hp => ?_⟩,
      List.pairwise_cons.mpr ⟨fun p hp => ?_, hordered⟩⟩
    · have := hinside p hp
      omega
    · exact (hinside p hp).1

theorem pairsAll_ordered (base : Nat) (trees : List TokenTree) :
    (∀ p ∈ pairsAll base trees, base ≤ p.1 ∧ p.1 < base + sizeAll trees) ∧
      (pairsAll base trees).Pairwise fun p q => p.1 < q.1 := by
  cases trees with
  | nil => exact ⟨List.forall_mem_nil _, .nil⟩
  | cons tree rest =>
    obtain ⟨hfirst, hfirstOrdered⟩ := pairs_ordered base tree
    obtain ⟨hrest, hrestOrdered⟩ := pairsAll_ordered (base + size tree) rest
    rw [pairsAll, sizeAll]
    refine ⟨List.forall_mem_append.mpr ⟨fun p hp => ?_, fun p hp => ?_⟩,
      List.pairwise_append.mpr ⟨hfirstOrdered, hrestOrdered, fun p hp q hq => ?_⟩⟩
    · have := hfirst p hp
      omega
    · have := hrest p hp
      omega
    · exact Nat.lt_of_lt_of_le (hfirst p hp).2 (hrest q hq).1

end

/-- An opening delimiter is found in the table. -/
theorem lookup_pairsAll {base i j : Nat} {trees : List TokenTree} (h : (i, j) ∈ pairsAll base trees) :
    (pairsAll base trees).lookup i = some j := by
  have hordered := (pairsAll_ordered base trees).2
  exact (lookup_eq_some_iff_mem (List.pairwise_map.mpr (hordered.imp Nat.ne_of_lt))).mpr h

end TokenTree

/-- **A group has its delimiters in the table**, counted from the first token of the trees. -/
theorem Group.Within.exists_pair {b : Group} {trees : List TokenTree} (h : b.Within trees)
    (base : Nat) : ∃ i j, (base + i, base + j) ∈ pairsAll base trees ∧
      (flattenAll trees)[i]? = some b.opener ∧ (flattenAll trees)[j]? = some b.closer := by
  induction h generalizing base with
  | here front behind =>
    refine ⟨sizeAll front, sizeAll front + 1 + sizeAll b.inner, ?_, ?_, ?_⟩
    · rw [TokenTree.pairsAll_append, tree, pairsAll, pairs]
      simp [Nat.add_assoc]
    · rw [tree, TokenTree.flattenAll_append_group, ← TokenTree.length_flattenAll front,
        List.getElem?_append_right (Nat.le_refl _), Nat.sub_self]
      rfl
    · rw [tree, TokenTree.flattenAll_append_group, ← TokenTree.length_flattenAll front,
        ← TokenTree.length_flattenAll b.inner, Nat.add_assoc,
        List.getElem?_append_right (Nat.le_add_right _ _), Nat.add_sub_cancel_left, Nat.add_comm 1,
        List.getElem?_cons_succ, List.getElem?_append_right (Nat.le_refl _), Nat.sub_self]
      rfl
  | @inside front behind opener closer inner hmark held ih =>
    obtain ⟨i, j, hmem, hopener, hcloser⟩ := ih (base + sizeAll front + 1)
    have hget : ∀ k t, (flattenAll inner)[k]? = some t →
        (flattenAll (front ++ .group opener inner closer :: behind))[sizeAll front + 1 + k]? =
          some t := by
      intro k t hk
      have hlt := (List.getElem?_eq_some_iff.mp hk).1
      rw [TokenTree.flattenAll_append_group, ← TokenTree.length_flattenAll front, Nat.add_assoc,
        List.getElem?_append_right (Nat.le_add_right _ _), Nat.add_sub_cancel_left, Nat.add_comm 1,
        List.getElem?_cons_succ, List.getElem?_append_left hlt, hk]
    refine ⟨sizeAll front + 1 + i, sizeAll front + 1 + j, ?_, hget i _ hopener, hget j _ hcloser⟩
    rw [TokenTree.pairsAll_append, pairsAll, pairs]
    simp only [← Nat.add_assoc, List.mem_append, List.mem_cons]
    exact .inr (.inl (.inr hmem))

end ContractSync.Rust

/-! ## Layouts -/

namespace ContractSync.Rust.Reader

open TokenTree (flatten flattenAll isNested isNestedAll pairs pairsAll size sizeAll)

variable {α β α' β' : Type}

/-! ### Two computations -/

/-- The offsets of the text are those of its tokens; a parenthesis is punctuation. -/
structure Input.IsSound (input : Input) : Prop where
  bounded : ∀ t ∈ input.tokens, t.start ≤ input.source.length
  paren : ∀ t ∈ input.tokens, t.text = "(" → t.kind = .punct

theorem Input.IsSound.offset_le {input : Input} (h : input.IsSound) (index : Nat) :
    input.offset index ≤ input.source.length := by
  rw [Input.offset]
  cases ht : input.tokens[index]? with
  | none => exact Nat.le_refl _
  | some t => exact h.bounded t (List.mem_of_getElem? ht)

/-- The computation by positions comes to a result that is related to the one on trees, or both fail alike,
somewhere in the text. -/
def Agrees (input : Input) (R : α → β → Prop) : Except Failure α → Except Halt β → Prop
  | .error failure, y => y = .error (.failure failure) ∧ failure.offset ≤ input.source.length
  | .ok a, y => ∃ b, y = .ok b ∧ R a b

namespace Agrees

variable {input : Input} {R : α → β → Prop} {S : α' → β' → Prop} {x : Except Failure α}
  {y : Except Halt β}

theorem ok {a : α} {b : β} (h : R a b) : Agrees input R (.ok a) (.ok b) := ⟨b, rfl, h⟩

theorem fail (hsound : input.IsSound) {problem : Problem} {offset index : Nat}
    (hoffset : offset = input.offset index) :
    Agrees input R (.error ⟨problem, offset⟩) (input.fail problem index) := by
  subst hoffset
  exact ⟨rfl, hsound.offset_le index⟩

/-- The result of the first one is known. -/
theorem bind_eq {f : α → Except Failure α'} {g : β → Except Halt β'} (h : Agrees input R x y)
    (hnext : ∀ a b, x = .ok a → R a b → Agrees input S (f a) (g b)) :
    Agrees input S (x >>= f) (y >>= g) := by
  cases x with
  | error failure =>
    obtain ⟨rfl, hoffset⟩ := h
    exact ⟨rfl, hoffset⟩
  | ok a =>
    obtain ⟨b, rfl, hab⟩ := h
    exact hnext a b rfl hab

theorem bind {f : α → Except Failure α'} {g : β → Except Halt β'} (h : Agrees input R x y)
    (hnext : ∀ a b, R a b → Agrees input S (f a) (g b)) : Agrees input S (x >>= f) (y >>= g) :=
  h.bind_eq fun a b _ => hnext a b

/-- What is made of the result of the first one. -/
theorem map {R' : α' → β → Prop} {f : α → α'} (h : Agrees input R x y)
    (himp : ∀ a b, R a b → R' (f a) b) : Agrees input R' (do return f (← x)) y := by
  cases x with
  | error failure => exact h
  | ok a =>
    obtain ⟨b, hb, hab⟩ := h
    exact ⟨b, hb, himp a b hab⟩

/-- What is done with the result of the second one does not fail. -/
theorem andThen {S : α → β' → Prop} {g : β → Except Halt β'} (h : Agrees input R x y)
    (hnext : ∀ a b, R a b → ∃ c, g b = .ok c ∧ S a c) : Agrees input S x (y >>= g) := by
  cases x with
  | error failure =>
    obtain ⟨rfl, hoffset⟩ := h
    exact ⟨rfl, hoffset⟩
  | ok a =>
    obtain ⟨b, rfl, hab⟩ := h
    exact hnext a b hab

end Agrees

/-! ### Trees in their positions -/

mutual

/-- The tree is laid out from the first position up to the second one. -/
def Laid (input : Input) : TokenTree → Nat → Nat → Prop
  | .leaf t, i, j =>
    input.tokens[i]? = some t ∧ t.isOpener = false ∧ t.isCloser = false ∧ j = i + 1
  | .group opener inner closer, i, j =>
    ∃ k, input.tokens[i]? = some opener ∧ opener.isOpener = true ∧ input.partner i = .ok k ∧
      LaidAll input inner (i + 1) k ∧ input.tokens[k]? = some closer ∧ j = k + 1

/-- The trees are laid out one behind the other. -/
def LaidAll (input : Input) : List TokenTree → Nat → Nat → Prop
  | [], i, j => i = j
  | tree :: rest, i, j => ∃ k, Laid input tree i k ∧ LaidAll input rest k j

end

variable {input : Input} {trees rest a b : List TokenTree} {tree : TokenTree} {i j k limit : Nat}

mutual

theorem Laid.lt {tree : TokenTree} {i j : Nat} (h : Laid input tree i j) : i < j := by
  cases tree with
  | leaf t =>
    obtain ⟨-, -, -, rfl⟩ := h
    exact Nat.lt_succ_self i
  | group opener inner closer =>
    obtain ⟨k, -, -, -, hinner, -, rfl⟩ := h
    exact Nat.lt_succ_of_lt (Nat.lt_of_succ_le hinner.le)

theorem LaidAll.le {trees : List TokenTree} {i j : Nat} (h : LaidAll input trees i j) : i ≤ j := by
  cases trees with
  | nil => exact Nat.le_of_eq h
  | cons tree rest =>
    obtain ⟨k, htree, hrest⟩ := h
    exact Nat.le_trans (Nat.le_of_lt htree.lt) hrest.le

end

theorem LaidAll.lt (h : LaidAll input (tree :: rest) i j) : i < j := by
  obtain ⟨k, htree, hrest⟩ := h
  exact Nat.lt_of_lt_of_le htree.lt hrest.le

mutual

/-- A tree takes as many positions as it has tokens. -/
theorem Laid.eq_add {tree : TokenTree} {i j : Nat} (h : Laid input tree i j) : j = i + size tree := by
  cases tree with
  | leaf t => exact h.2.2.2
  | group opener inner closer =>
    obtain ⟨k, -, -, -, hinner, -, rfl⟩ := h
    rw [hinner.eq_add, size]
    omega

theorem LaidAll.eq_add {trees : List TokenTree} {i j : Nat} (h : LaidAll input trees i j) :
    j = i + sizeAll trees := by
  cases trees with
  | nil => exact h.symm
  | cons tree rest =>
    obtain ⟨k, htree, hrest⟩ := h
    rw [hrest.eq_add, htree.eq_add, sizeAll, Nat.add_assoc]

end

theorem LaidAll.lt_of_ne_nil (h : LaidAll input trees i limit) (hne : trees ≠ []) : i < limit := by
  rw [h.eq_add]
  exact Nat.lt_add_of_pos_right (Item.sizeAll_pos hne)

/-- What stands behind others comes later. -/
theorem LaidAll.le_of_suffix (h : LaidAll input trees i limit) (h' : LaidAll input rest j limit)
    (hs : rest <:+ trees) : i ≤ j := by
  have hle := Item.sizeAll_le_of_suffix hs
  have hi := h.eq_add
  have hj := h'.eq_add
  omega

/-- Trees that end in the same position start in the same one. -/
theorem LaidAll.unique (h : LaidAll input trees i limit) (h' : LaidAll input trees j limit) : i = j := by
  have hi := h.eq_add
  have hj := h'.eq_add
  omega

theorem laidAll_append :
    LaidAll input (a ++ b) i j ↔ ∃ k, LaidAll input a i k ∧ LaidAll input b k j := by
  induction a generalizing i with
  | nil =>
    constructor
    · exact fun h => ⟨i, rfl, h⟩
    · rintro ⟨_, rfl, h⟩
      exact h
  | cons tree a ih =>
    constructor
    · rintro ⟨k, htree, h⟩
      obtain ⟨m, ha, hb⟩ := ih.mp h
      exact ⟨m, ⟨k, htree, ha⟩, hb⟩
    · rintro ⟨m, ⟨k, htree, ha⟩, hb⟩
      exact ⟨k, htree, ih.mpr ⟨m, ha, hb⟩⟩

/-- The first token of a tree stands where the tree does. -/
theorem Laid.getElem? (h : Laid input tree i j) : input.tokens[i]? = some tree.head := by
  cases tree with
  | leaf t => exact h.1
  | group opener inner closer =>
    obtain ⟨k, hopener, -⟩ := h
    exact hopener

theorem Laid.token (h : Laid input tree i j) : input.token i = .ok tree.head := by
  rw [Input.token, h.getElem?]

theorem Laid.token_leaf {t : Token} (h : Laid input (.leaf t) i j) : input.token i = .ok t := h.token

theorem Laid.token_group {opener closer : Token} {inner : List TokenTree}
    (h : Laid input (.group opener inner closer) i j) : input.token i = .ok opener := h.token

theorem Laid.offset (h : Laid input tree i j) : input.offset i = tree.start := by
  rw [Input.offset, h.getElem?]
  cases tree <;> rfl

theorem token_start {t : Token} (h : input.token i = .ok t) : t.start = input.offset i := by
  rw [Input.token] at h
  rw [Input.offset]
  split at h
  · rename_i found hfound
    cases h
    rw [hfound]
    rfl
  · cases h

/-- The last token in front of the position ends there. -/
def EndsAt (input : Input) (i stop : Nat) : Prop := ∃ t, input.token (i - 1) = .ok t ∧ t.stop = stop

/-- The last token of a tree stands in front of the position behind it. -/
theorem Laid.last (h : Laid input tree i j) : EndsAt input j tree.stop := by
  cases tree with
  | leaf t =>
    obtain ⟨ht, -, -, rfl⟩ := h
    exact ⟨t, by rw [Nat.add_sub_cancel, Input.token, ht], rfl⟩
  | group opener inner closer =>
    obtain ⟨k, -, -, -, -, hcloser, rfl⟩ := h
    exact ⟨closer, by rw [Nat.add_sub_cancel, Input.token, hcloser], rfl⟩

theorem LaidAll.last (h : LaidAll input trees i j) {last : TokenTree}
    (hlast : trees.getLast? = some last) : EndsAt input j last.stop := by
  obtain ⟨front, rfl⟩ := List.getLast?_eq_some_iff.mp hlast
  obtain ⟨k, -, m, hlaid, rfl⟩ := laidAll_append.mp h
  exact hlaid.last

/-- A single token, or a group that is passed over in one step. -/
theorem Laid.step (h : Laid input tree i j) :
    (tree.head.isOpener = true ∧ input.skipGroup i = .ok j) ∨
      (tree.head.isOpener = false ∧ j = i + 1) := by
  cases tree with
  | leaf t => exact .inr ⟨h.2.1, h.2.2.2⟩
  | group opener inner closer =>
    obtain ⟨k, -, hopener, hpartner, -, -, rfl⟩ := h
    refine .inl ⟨hopener, ?_⟩
    rw [Input.skipGroup, hpartner]
    rfl

theorem Laid.isPunct (h : Laid input tree i j) (hlimit : i < limit) (text : String) :
    input.isPunct i limit text = .ok (tree.isPunct text) := by
  rw [Input.isPunct, if_pos hlimit, h.token]
  rfl

/-- The punctuation in front of the trees. -/
theorem LaidAll.isPunct (h : LaidAll input trees i limit) (text : String) :
    input.isPunct i limit text = .ok (trees.head?.any (TokenTree.isPunct · text)) := by
  cases trees with
  | nil =>
    rw [Input.isPunct, if_neg (Nat.not_lt.mpr (Nat.le_of_eq h.symm))]
    rfl
  | cons tree rest =>
    obtain ⟨k, htree, -⟩ := id h
    exact htree.isPunct h.lt text

theorem LaidAll.isPunct_nil (h : LaidAll input [] i limit) (text : String) :
    input.isPunct i limit text = .ok false := h.isPunct text

theorem LaidAll.isPunct_cons (h : LaidAll input (tree :: rest) i limit) (text : String) :
    input.isPunct i limit text = .ok (tree.isPunct text) := h.isPunct text

theorem Laid.opener {opener closer : Token} {inner : List TokenTree}
    (h : Laid input (.group opener inner closer) i j) : opener.isOpener = true := by
  obtain ⟨k, -, hopener, -⟩ := h
  exact hopener

theorem Laid.kind_opener {opener closer : Token} {inner : List TokenTree}
    (h : Laid input (.group opener inner closer) i j) : opener.kind = .punct :=
  Token.kind_of_isOpener h.opener

theorem LaidAll.isPunct_leaf {t : Token} (h : LaidAll input (.leaf t :: rest) i limit)
    (text : String) : input.isPunct i limit text = .ok (t.isPunct text) := h.isPunct_cons text

theorem LaidAll.isPunct_group {opener closer : Token} {inner : List TokenTree}
    (h : LaidAll input (.group opener inner closer :: rest) i limit) (text : String) :
    input.isPunct i limit text = .ok (opener.isPunct text) := h.isPunct_cons text

theorem LaidAll.isWord_nil (h : LaidAll input [] i limit) (word : String) :
    input.isWord i limit word = .ok false := by
  rw [Input.isWord, if_neg (Nat.not_lt.mpr (Nat.le_of_eq h.symm))]
  rfl

theorem LaidAll.isWord_leaf {t : Token} (h : LaidAll input (.leaf t :: rest) i limit)
    (word : String) : input.isWord i limit word = .ok (t.isWord word) := by
  obtain ⟨k, htree, -⟩ := id h
  rw [Input.isWord, if_pos h.lt, htree.token_leaf]
  rfl

theorem LaidAll.isWord_group {opener closer : Token} {inner : List TokenTree}
    (h : LaidAll input (.group opener inner closer :: rest) i limit) (word : String) :
    input.isWord i limit word = .ok false := by
  obtain ⟨k, htree, -⟩ := id h
  rw [Input.isWord, if_pos h.lt, htree.token_group, bind_ok, Token.isWord, htree.kind_opener]
  rfl

/-- A mark that opens nothing is a single token. -/
theorem Laid.exists_leaf (h : Laid input tree i j) {mark : String} (hmark : tree.isPunct mark = true)
    (hopener : mark ∉ ["(", "[", "\x7b"]) : ∃ t, tree = .leaf t := by
  cases tree with
  | leaf t => exact ⟨t, rfl⟩
  | group opener inner closer =>
    rw [TokenTree.isPunct, TokenTree.head, Token.isPunct_of_isOpener h.opener hopener] at hmark
    cases hmark

/-- Behind a single token. -/
theorem LaidAll.tail_leaf {t : Token} (h : LaidAll input (.leaf t :: rest) i limit) :
    LaidAll input rest (i + 1) limit := by
  obtain ⟨k, ⟨-, -, -, rfl⟩, hrest⟩ := h
  exact hrest

/-- Behind a group. -/
theorem LaidAll.tail_group {opener closer : Token} {inner : List TokenTree}
    (h : LaidAll input (.group opener inner closer :: rest) i limit) :
    ∃ k, input.partner i = .ok k ∧ LaidAll input inner (i + 1) k ∧ input.token k = .ok closer ∧
      LaidAll input rest (k + 1) limit := by
  obtain ⟨_, ⟨k, -, -, hpartner, hinner, hcloser, rfl⟩, hrest⟩ := h
  exact ⟨k, hpartner, hinner, by rw [Input.token, hcloser], hrest⟩

theorem LaidAll.skipGroup {opener closer : Token} {inner : List TokenTree}
    (h : LaidAll input (.group opener inner closer :: rest) i limit) :
    ∃ k, input.skipGroup i = .ok k ∧ LaidAll input rest k limit := by
  obtain ⟨k, hpartner, -, -, hrest⟩ := h.tail_group
  exact ⟨k + 1, by rw [Input.skipGroup, hpartner]; rfl, hrest⟩

/-! ### The whole text -/

theorem partner_of_mem {i j : Nat} (htable : input.pairs = pairsAll 0 trees)
    (h : (i, j) ∈ pairsAll 0 trees) : input.partner i = .ok j := by
  rw [Input.partner, htable, List.lookup_append, TokenTree.lookup_pairsAll h]
  rfl

mutual

/-- A tree whose tokens stand among the others is laid out there. -/
theorem laid_of_table {tree : TokenTree} (front behind : List Token) (hnested : isNested tree = true)
    (htokens : input.tokens = front ++ (flatten tree ++ behind))
    (htable : ∀ p ∈ pairs front.length tree, input.partner p.1 = .ok p.2) :
    Laid input tree front.length (front.length + size tree) := by
  cases tree with
  | leaf t =>
    rw [isNested, Bool.and_eq_true, Bool.not_eq_true', Bool.not_eq_true'] at hnested
    refine ⟨?_, hnested.1, hnested.2, rfl⟩
    rw [htokens, List.getElem?_append_right (Nat.le_refl _), Nat.sub_self]
    rfl
  | group opener inner closer =>
    rw [isNested, Bool.and_eq_true] at hnested
    rw [pairs, List.forall_mem_cons] at htable
    have hsplit : input.tokens = (front ++ [opener]) ++ (flattenAll inner ++ closer :: behind) := by
      rw [htokens, flatten]
      simp
    have hlength : (front ++ [opener]).length = front.length + 1 := by simp
    have hinner := laidAll_of_table (front ++ [opener]) (closer :: behind) hnested.2 hsplit (by rw [hlength]; exact htable.2)
    rw [hlength] at hinner
    refine ⟨front.length + 1 + sizeAll inner, ?_, Token.isOpener_of_closes hnested.1, htable.1, hinner, ?_,
      by rw [size]; omega⟩
    · rw [htokens, List.getElem?_append_right (Nat.le_refl _), Nat.sub_self]
      rfl
    · rw [hsplit, ← hlength, ← TokenTree.length_flattenAll,
        List.getElem?_append_right (Nat.le_add_right _ _), Nat.add_sub_cancel_left,
        List.getElem?_append_right (Nat.le_refl _), Nat.sub_self]
      rfl

theorem laidAll_of_table {trees : List TokenTree} (front behind : List Token)
    (hnested : isNestedAll trees = true)
    (htokens : input.tokens = front ++ (flattenAll trees ++ behind))
    (htable : ∀ p ∈ pairsAll front.length trees, input.partner p.1 = .ok p.2) :
    LaidAll input trees front.length (front.length + sizeAll trees) := by
  cases trees with
  | nil => rfl
  | cons tree rest =>
    rw [isNestedAll, Bool.and_eq_true] at hnested
    rw [pairsAll, List.forall_mem_append] at htable
    rw [flattenAll, List.append_assoc] at htokens
    have hlength : (front ++ flatten tree).length = front.length + size tree := by
      rw [List.length_append, TokenTree.length_flatten]
    have hrest := laidAll_of_table (front ++ flatten tree) behind hnested.2
      (htokens.trans (List.append_assoc ..).symm) (by rw [hlength]; exact htable.2)
    rw [hlength] at hrest
    rw [sizeAll, ← Nat.add_assoc]
    exact ⟨_, laid_of_table front _ hnested.1 htokens htable.1, hrest⟩

end

/-- **The trees of all tokens are laid out between the first position and the last one.** -/
theorem laidAll_of_nested (hnested : isNestedAll trees = true) (htokens : input.tokens = flattenAll trees)
    (htable : input.pairs = pairsAll 0 trees) : LaidAll input trees 0 input.tokens.length := by
  have h := laidAll_of_table [] [] hnested (by rw [htokens]; simp)
    fun p hp => partner_of_mem htable hp
  rwa [List.length_nil, Nat.zero_add, ← TokenTree.length_flattenAll, ← htokens] at h

/-- The tokens of a text are sound. -/
theorem isSound_of_tokenize {source : List Char} {tokens : List Token}
    (h : tokenize source = .ok tokens) (pairs : List (Nat × Nat)) :
    (Input.mk source tokens pairs).IsSound := by
  have hrun := Lexer.run_of_lexFrom h
  refine ⟨fun t ht => ?_, fun t ht htext => ?_⟩
  · have := hrun.ordered.2.1 t ht
    show t.start ≤ source.length
    omega
  · obtain ⟨front, behind, rfl⟩ := List.append_of_mem ht
    obtain ⟨c, w, r, -, hstep, hword, -⟩ := hrun.split
    have hchars : "(".toList = c :: w := by rw [← htext, hword, String.toList_ofList]
    obtain ⟨rfl, -⟩ : '(' = c ∧ [] = w := List.cons.inj hchars
    rw [Lexer.step_single (by decide), Except.ok.injEq, Lexer.Step.mk.injEq, Option.some.injEq] at hstep
    exact hstep.1.symm

end ContractSync.Rust.Reader
