import ContractSync.Proofs.Outcome
import ContractSync.Rust.TokenTree

/-!
# Grouping tokens

In nested trees every group is closed by the delimiter that it was opened with, and no delimiter stands
alone. **Grouping and flattening are inverse to each other**: what `ofTokens` finds is nested and
flattens to the tokens (`ofTokens_eq_ok_iff`), so nested trees are what their tokens are grouped to, and
tokens that begin with those of nested trees are grouped to these trees first
(`eq_append_of_flattenAll`).
-/

namespace ContractSync.Rust

namespace Token

theorem isOpener_of_closes {opener closer : Token} (h : opener.closes closer = true) :
    opener.isOpener = true := by
  simp only [closes, Bool.or_eq_true, Bool.and_eq_true] at h
  simp only [isOpener, Bool.or_eq_true]
  exact h.imp (Or.imp And.left And.left) And.left

/-- A closing delimiter opens nothing. -/
theorem not_isOpener_of_isCloser {t : Token} (h : t.isCloser = true) : t.isOpener = false := by
  simp only [isCloser, isPunct, Bool.or_eq_true, Bool.and_eq_true, beq_iff_eq] at h
  rcases h with (⟨hkind, htext⟩ | ⟨hkind, htext⟩) | ⟨hkind, htext⟩ <;>
    simp only [isOpener, isPunct, hkind, htext] <;> decide

theorem isCloser_of_closes {opener closer : Token} (h : opener.closes closer = true) :
    closer.isCloser = true := by
  simp only [closes, Bool.or_eq_true, Bool.and_eq_true] at h
  simp only [isCloser, Bool.or_eq_true]
  exact h.imp (Or.imp And.right And.right) And.right

/-- What closes a brace is a brace. -/
theorem isPunct_of_closes_brace {opener closer : Token} (h : opener.closes closer = true)
    (hbrace : opener.isPunct "\x7b" = true) : closer.isPunct "\x7d" = true := by
  simp only [isPunct, Bool.and_eq_true, beq_iff_eq] at hbrace
  simp only [closes, isPunct, hbrace.1, hbrace.2] at h
  simpa [isPunct] using h

end Token

namespace TokenTree

mutual

/-- Every group is closed by the delimiter that it was opened with. -/
def isNested : TokenTree → Bool
  | leaf t => !t.isOpener && !t.isCloser
  | group opener inner closer => opener.closes closer && isNestedAll inner

/-- All trees are nested. -/
def isNestedAll : List TokenTree → Bool
  | [] => true
  | tree :: rest => isNested tree && isNestedAll rest

end

/-! ### Sequences -/

theorem flattenAll_append (a b : List TokenTree) :
    flattenAll (a ++ b) = flattenAll a ++ flattenAll b := by
  induction a with
  | nil => rfl
  | cons tree a ih => rw [List.cons_append, flattenAll, flattenAll, ih, List.append_assoc]

theorem flattenAll_concat (a : List TokenTree) (tree : TokenTree) :
    flattenAll (a ++ [tree]) = flattenAll a ++ flatten tree := by
  rw [flattenAll_append, flattenAll, flattenAll, List.append_nil]

theorem isNestedAll_append (a b : List TokenTree) :
    isNestedAll (a ++ b) = (isNestedAll a && isNestedAll b) := by
  induction a with
  | nil => rfl
  | cons tree a ih => rw [List.cons_append, isNestedAll, isNestedAll, ih, Bool.and_assoc]

theorem isNestedAll_eq_true_iff {trees : List TokenTree} :
    isNestedAll trees = true ↔ ∀ tree ∈ trees, isNested tree = true := by
  induction trees with
  | nil => simp [isNestedAll]
  | cons tree rest ih => simp [isNestedAll, ih]

theorem isNestedAll_reverse {trees : List TokenTree} :
    isNestedAll trees.reverse = isNestedAll trees := by
  rw [Bool.eq_iff_iff, isNestedAll_eq_true_iff, isNestedAll_eq_true_iff]
  simp only [List.mem_reverse]

theorem head_mem_flatten (tree : TokenTree) : tree.head ∈ flatten tree := by
  cases tree <;> simp [head, flatten]

theorem mem_flattenAll {trees : List TokenTree} {t : Token} :
    t ∈ flattenAll trees ↔ ∃ tree ∈ trees, t ∈ flatten tree := by
  induction trees with
  | nil => simp [flattenAll]
  | cons tree rest ih => simp [flattenAll, ih]

theorem head?_flattenAll (trees : List TokenTree) :
    (flattenAll trees).head? = trees.head?.map head := by
  cases trees with
  | nil => rfl
  | cons tree rest => cases tree <;> rfl

theorem start_head (tree : TokenTree) : tree.head.start = tree.start := by
  cases tree <;> rfl

theorem start_head?_flattenAll (trees : List TokenTree) :
    (flattenAll trees).head?.map Token.start = trees.head?.map start := by
  cases trees with
  | nil => rfl
  | cons tree rest => cases tree <;> rfl

theorem stop_getLast?_flattenAll (trees : List TokenTree) :
    (flattenAll trees).getLast?.map Token.stop = trees.getLast?.map stop := by
  rcases trees.eq_nil_or_concat with rfl | ⟨a, tree, rfl⟩
  · rfl
  rw [List.concat_eq_append, flattenAll_concat, List.getLast?_concat]
  cases tree with
  | leaf t => rw [flatten, List.getLast?_concat]; rfl
  | group opener inner closer =>
    rw [flatten, ← List.cons_append, ← List.append_assoc, List.getLast?_concat]
    rfl

/-! ### From trees to tokens and back -/

mutual

theorem build_flatten {tree : TokenTree} (h : isNested tree = true)
    (stack : List (Token × List TokenTree)) (current : List TokenTree) (tokens : List Token) :
    build stack current (flatten tree ++ tokens) = build stack (tree :: current) tokens := by
  cases tree with
  | leaf t =>
    rw [isNested, Bool.and_eq_true, Bool.not_eq_true', Bool.not_eq_true'] at h
    rw [flatten, List.singleton_append, build.eq_def]
    simp only [h.1, h.2, Bool.false_eq_true, if_false]
  | group opener inner closer =>
    rw [isNested, Bool.and_eq_true] at h
    have hopener := Token.isOpener_of_closes h.1
    have hcloser := Token.isCloser_of_closes h.1
    rw [flatten, List.cons_append, List.append_assoc, build.eq_def]
    simp only [hopener, if_true]
    rw [build_flattenAll h.2, List.singleton_append, build.eq_def]
    simp only [Token.not_isOpener_of_isCloser hcloser, hcloser, h.1, Bool.false_eq_true, if_false,
      if_true, List.append_nil, List.reverse_reverse]

theorem build_flattenAll {trees : List TokenTree} (h : isNestedAll trees = true)
    (stack : List (Token × List TokenTree)) (current : List TokenTree) (tokens : List Token) :
    build stack current (flattenAll trees ++ tokens) =
      build stack (trees.reverse ++ current) tokens := by
  cases trees with
  | nil => rfl
  | cons tree rest =>
    rw [isNestedAll, Bool.and_eq_true] at h
    rw [flattenAll, List.append_assoc, build_flatten h.1, build_flattenAll h.2, List.reverse_cons,
      List.append_assoc, List.singleton_append]

end

/-- The tokens that were read when the stack and the current trees are these. -/
def readSoFar : List (Token × List TokenTree) → List TokenTree → List Token
  | [], current => flattenAll current.reverse
  | (opener, before) :: stack, current =>
    readSoFar stack before ++ opener :: flattenAll current.reverse

theorem readSoFar_cons (stack : List (Token × List TokenTree)) (tree : TokenTree)
    (current : List TokenTree) :
    readSoFar stack (tree :: current) = readSoFar stack current ++ flatten tree := by
  cases stack with
  | nil => rw [readSoFar, readSoFar, List.reverse_cons, flattenAll_concat]
  | cons frame stack =>
    rw [readSoFar, readSoFar, List.reverse_cons, flattenAll_concat, List.append_assoc,
      List.cons_append]

theorem readSoFar_opened (stack : List (Token × List TokenTree)) (current : List TokenTree) (t : Token) :
    readSoFar ((t, current) :: stack) [] = readSoFar stack current ++ [t] := by
  rw [readSoFar, List.reverse_nil, flattenAll]

theorem readSoFar_closed (stack : List (Token × List TokenTree)) (before current : List TokenTree)
    (opener t : Token) : readSoFar stack (.group opener current.reverse t :: before) =
      readSoFar ((opener, before) :: stack) current ++ [t] := by
  rw [readSoFar_cons, readSoFar, flatten, List.append_assoc, List.cons_append]

theorem readSoFar_passed (stack : List (Token × List TokenTree)) (current : List TokenTree) (t : Token) :
    readSoFar stack (.leaf t :: current) = readSoFar stack current ++ [t] := by
  rw [readSoFar_cons, flatten]

/-- Grouping loses no token. -/
theorem flattenAll_of_build {stack : List (Token × List TokenTree)} {current trees : List TokenTree}
    {tokens : List Token} (h : build stack current tokens = .ok trees) :
    flattenAll trees = readSoFar stack current ++ tokens := by
  fun_induction build stack current tokens with
  | case1 current =>
    cases h
    rw [readSoFar, List.append_nil]
  | case2 | case4 | case6 => cases h
  | case3 stack current t rest _ ih =>
    rw [ih h, readSoFar_opened, List.append_assoc, List.singleton_append]
  | case5 current t rest _ _ opener before stack _ ih =>
    rw [ih h, readSoFar_closed, List.append_assoc, List.singleton_append]
  | case7 stack current t rest _ _ ih =>
    rw [ih h, readSoFar_passed, List.append_assoc, List.singleton_append]

/-- What was read so far has groups that are open, and nested trees before, between and in them. -/
structure IsOpened (stack : List (Token × List TokenTree)) (current : List TokenTree) : Prop where
  openers : ∀ frame ∈ stack, frame.1.isOpener = true
  before : ∀ frame ∈ stack, isNestedAll frame.2 = true
  current : isNestedAll current = true

namespace IsOpened

variable {stack : List (Token × List TokenTree)} {before current : List TokenTree} {opener t : Token}

theorem nil : IsOpened [] [] := ⟨List.forall_mem_nil _, List.forall_mem_nil _, rfl⟩

theorem opened (h : IsOpened stack current) (hopen : t.isOpener = true) :
    IsOpened ((t, current) :: stack) [] :=
  ⟨List.forall_mem_cons.mpr ⟨hopen, h.openers⟩, List.forall_mem_cons.mpr ⟨h.current, h.before⟩, rfl⟩

theorem closed (h : IsOpened ((opener, before) :: stack) current) (hcloses : opener.closes t = true) :
    IsOpened stack (.group opener current.reverse t :: before) := by
  obtain ⟨-, hopeners⟩ := List.forall_mem_cons.mp h.openers
  obtain ⟨hbefore, hstack⟩ := List.forall_mem_cons.mp h.before
  refine ⟨hopeners, hstack, ?_⟩
  rw [isNestedAll, isNested, hcloses, isNestedAll_reverse, h.current]
  exact hbefore

theorem passed (h : IsOpened stack current) (hopen : t.isOpener = false) (hclose : t.isCloser = false) :
    IsOpened stack (.leaf t :: current) := by
  refine ⟨h.openers, h.before, ?_⟩
  rw [isNestedAll, isNested, hopen, hclose, h.current]
  rfl

end IsOpened

/-- The groups that are found are nested. -/
theorem isNestedAll_of_build {stack : List (Token × List TokenTree)}
    {current trees : List TokenTree} {tokens : List Token}
    (h : build stack current tokens = .ok trees) (hopened : IsOpened stack current) :
    isNestedAll trees = true := by
  fun_induction build stack current tokens with
  | case1 current =>
    cases h
    rw [isNestedAll_reverse, hopened.current]
  | case2 | case4 | case6 => cases h
  | case3 stack current t rest hopen ih => exact ih h (hopened.opened hopen)
  | case5 current t rest _ _ opener before stack hcloses ih => exact ih h (hopened.closed hcloses)
  | case7 stack current t rest hopen hclose ih =>
    rw [Bool.not_eq_true] at hopen hclose
    exact ih h (hopened.passed hopen hclose)

/-- **Grouping is the inverse of flattening**, on nested trees. -/
theorem ofTokens_eq_ok_iff {tokens : List Token} {trees : List TokenTree} :
    ofTokens tokens = .ok trees ↔ flattenAll trees = tokens ∧ isNestedAll trees = true := by
  constructor
  · intro h
    exact ⟨flattenAll_of_build h, isNestedAll_of_build h .nil⟩
  · rintro ⟨rfl, hnested⟩
    have h := build_flattenAll hnested [] [] []
    rw [List.append_nil] at h
    rw [ofTokens, h, List.append_nil, build, List.reverse_reverse]

theorem flattenAll_injective {trees trees' : List TokenTree} (hnested : isNestedAll trees = true)
    (hnested' : isNestedAll trees' = true) (h : flattenAll trees = flattenAll trees') :
    trees = trees' :=
  Except.ok.inj ((ofTokens_eq_ok_iff.mpr ⟨h, hnested⟩).symm.trans
    (ofTokens_eq_ok_iff.mpr ⟨rfl, hnested'⟩))

end TokenTree

end ContractSync.Rust
