import ContractSync.Proofs.Rust.ReaderLayout

/-!
# Matching delimiters

The delimiters among tokens are a word over three kinds of brackets, which is well nested if groups make it
up (`IsWellNested`). **Delimiters are matched exactly if their word is well nested**
(`matchDelimiters_exact`). Then each of them has one partner, of its kind and of the other side, and what
lies between two partners lies beside or inside of what lies between two others (`IsMatching`). Else the
failure shows at the first closing delimiter that does not close the group opened last, or, if there is
none, at the last delimiter that is left open (`IsFault`).
-/

namespace ContractSync.Rust

open TokenTree (build flatten flattenAll isNested isNestedAll ofTokens ofTokens_eq_ok_iff pairs pairsAll)

/-! ### Words of delimiters -/

/-- The token opens or closes a group. -/
def Token.isDelimiter (t : Token) : Bool := t.isOpener || t.isCloser

/-- The delimiters among the tokens. -/
def delimiters (ts : List Token) : List Token := ts.filter Token.isDelimiter

/-- The delimiters are those of groups side by side, and each group is closed by the kind of delimiter that
opened it. -/
inductive IsWellNested : List Token → Prop
  | nil : IsWellNested []
  | group {opener closer : Token} {inner behind : List Token} (h : opener.closes closer = true)
      (hinner : IsWellNested inner) (hbehind : IsWellNested behind) :
      IsWellNested (opener :: (inner ++ closer :: behind))

theorem Token.isDelimiter_of_closes {opener closer : Token} (h : opener.closes closer = true) :
    opener.isDelimiter = true ∧ closer.isDelimiter = true := by
  rw [isDelimiter, isDelimiter, isOpener_of_closes h, isCloser_of_closes h, Bool.or_true]
  exact ⟨rfl, rfl⟩

theorem delimiters_append (a b : List Token) : delimiters (a ++ b) = delimiters a ++ delimiters b :=
  List.filter_append ..

theorem delimiters_cons {t : Token} (h : t.isDelimiter = true) (ts : List Token) :
    delimiters (t :: ts) = t :: delimiters ts :=
  List.filter_cons_of_pos h

/-- Well-nested delimiters leave those that are due as they were. -/
theorem IsWellNested.nest_eq {word : List Token} (h : IsWellNested word) (due : List String) :
    nest due word = some due := by
  induction h generalizing due with
  | nil => rfl
  | group hcloses _ _ ihinner ihbehind => rw [nest_group hcloses ihinner, ihbehind]

/-- Other tokens do not count. -/
theorem nest_delimiters (due : List String) (ts : List Token) : nest due (delimiters ts) = nest due ts := by
  induction ts generalizing due with
  | nil => rfl
  | cons t ts ih =>
    cases ht : t.isDelimiter with
    | true =>
      rw [delimiters_cons ht, nest_cons, nest_cons]
      exact congrArg (t.nest due).bind (funext ih)
    | false =>
      have hdue : t.nest due = some due := by
        rw [Token.isDelimiter, Bool.or_eq_false_iff] at ht
        rw [Token.nest, ht.1, ht.2]
        rfl
      rw [delimiters, List.filter_cons_of_neg (by rw [ht]; exact Bool.false_ne_true), ← delimiters, ih,
        nest_cons, hdue, Option.bind_some]

mutual

theorem isWellNested_flatten {tree : TokenTree} (h : isNested tree = true) {behind : List Token}
    (hbehind : IsWellNested behind) : IsWellNested (delimiters (flatten tree) ++ behind) := by
  cases tree with
  | leaf t =>
    rw [isNested, Bool.and_eq_true, Bool.not_eq_true', Bool.not_eq_true'] at h
    have hnone : delimiters (flatten (.leaf t)) = [] := by
      rw [flatten, delimiters, List.filter_singleton, Token.isDelimiter, h.1, h.2]
      rfl
    rwa [hnone, List.nil_append]
  | group opener inner closer =>
    rw [isNested, Bool.and_eq_true] at h
    obtain ⟨hopener, hcloser⟩ := Token.isDelimiter_of_closes h.1
    have hinner := isWellNested_flattenAll h.2 .nil
    rw [List.append_nil] at hinner
    rw [flatten, delimiters_cons hopener, delimiters_append, delimiters_cons hcloser, List.cons_append,
      List.append_assoc]
    exact .group h.1 hinner hbehind

/-- The delimiters of nested trees are well nested. -/
theorem isWellNested_flattenAll {trees : List TokenTree} (h : isNestedAll trees = true)
    {behind : List Token} (hbehind : IsWellNested behind) :
    IsWellNested (delimiters (flattenAll trees) ++ behind) := by
  cases trees with
  | nil => exact hbehind
  | cons tree rest =>
    rw [isNestedAll, Bool.and_eq_true] at h
    rw [flattenAll, delimiters_append, List.append_assoc]
    exact isWellNested_flatten h.1 (isWellNested_flattenAll h.2 hbehind)

end

theorem isWellNested_of_nested {trees : List TokenTree} (h : isNestedAll trees = true) :
    IsWellNested (delimiters (flattenAll trees)) := by
  have hword := isWellNested_flattenAll h .nil
  rwa [List.append_nil] at hword

/-- **Delimiters are matched if and only if they are well nested.** -/
theorem exists_table_iff {tokens : List Token} :
    (∃ table, matchDelimiters tokens = .ok table) ↔ IsWellNested (delimiters tokens) := by
  constructor
  · rintro ⟨table, h⟩
    obtain ⟨trees, htrees, -⟩ := map_eq_ok.mp h
    obtain ⟨rfl, hnested⟩ := ofTokens_eq_ok_iff.mp htrees
    exact isWellNested_of_nested hnested
  · intro h
    have hnest := h.nest_eq []
    rw [nest_delimiters] at hnest
    obtain ⟨trees, htrees⟩ := exists_trees_of_nest hnest
    exact ⟨pairsAll 0 trees, map_eq_ok.mpr ⟨trees, ofTokens_eq_ok_iff.mpr htrees, rfl⟩⟩

/-! ### Partners -/

/-- The table pairs the delimiters between two positions: each pair is one of partners, each delimiter is in
a pair, and no two pairs cross. -/
structure Pairing (tokens : List Token) (low high : Nat) (table : List (Nat × Nat)) : Prop where
  inside : ∀ p ∈ table, low ≤ p.1 ∧ p.1 < p.2 ∧ p.2 < high
  closes : ∀ p ∈ table, ∃ opener closer, tokens[p.1]? = some opener ∧ tokens[p.2]? = some closer ∧
    opener.closes closer = true
  covers : ∀ i, low ≤ i → i < high → ∀ t ∈ tokens[i]?, t.isDelimiter = true →
    ∃ p ∈ table, i = p.1 ∨ i = p.2
  apart : table.Pairwise fun p q => p.1 < q.1 ∧ (p.2 < q.1 ∨ q.2 < p.2)

namespace Pairing

variable {tokens : List Token} {low mid high : Nat} {table a b : List (Nat × Nat)}

theorem nil (position : Nat) : Pairing tokens position position [] :=
  ⟨List.forall_mem_nil _, List.forall_mem_nil _, fun i hlow hhigh => by omega, .nil⟩

/-- One more token that is no delimiter. -/
theorem leaf {t : Token} (h : tokens[low]? = some t) (ht : t.isDelimiter = false) :
    Pairing tokens low (low + 1) [] := by
  refine ⟨List.forall_mem_nil _, List.forall_mem_nil _, fun i hlow hhigh u hu hdelimiter => ?_, .nil⟩
  obtain rfl : i = low := by omega
  rw [h, Option.mem_some_iff] at hu
  rw [← hu, ht] at hdelimiter
  cases hdelimiter

/-- Delimiters of one kind around what is paired. -/
theorem group {opener closer : Token} (h : Pairing tokens (low + 1) high table) (hle : low + 1 ≤ high)
    (hopener : tokens[low]? = some opener) (hcloser : tokens[high]? = some closer)
    (hcloses : opener.closes closer = true) : Pairing tokens low (high + 1) ((low, high) :: table) where
  inside := by
    refine List.forall_mem_cons.mpr ⟨⟨Nat.le_refl _, hle, Nat.lt_succ_self _⟩, fun p hp => ?_⟩
    have := h.inside p hp
    omega
  closes := List.forall_mem_cons.mpr ⟨⟨opener, closer, hopener, hcloser, hcloses⟩, h.closes⟩
  covers := by
    intro i hlow hhigh t ht hdelimiter
    by_cases hends : i = low ∨ i = high
    · exact ⟨(low, high), List.mem_cons_self, hends⟩
    · obtain ⟨p, hp, hi⟩ := h.covers i (by omega) (by omega) t ht hdelimiter
      exact ⟨p, List.mem_cons_of_mem _ hp, hi⟩
  apart := by
    refine List.pairwise_cons.mpr ⟨fun p hp => ?_, h.apart⟩
    obtain ⟨hlow, -, hhigh⟩ := h.inside p hp
    exact ⟨hlow, .inr hhigh⟩

theorem append (ha : Pairing tokens low mid a) (hb : Pairing tokens mid high b) (hlow : low ≤ mid)
    (hhigh : mid ≤ high) : Pairing tokens low high (a ++ b) where
  inside := by
    refine List.forall_mem_append.mpr ⟨fun p hp => ?_, fun p hp => ?_⟩
    · have := ha.inside p hp
      omega
    · have := hb.inside p hp
      omega
  closes := List.forall_mem_append.mpr ⟨ha.closes, hb.closes⟩
  covers := by
    intro i hi hi' t ht hdelimiter
    rcases Nat.lt_or_ge i mid with hmid | hmid
    · obtain ⟨p, hp, hends⟩ := ha.covers i hi hmid t ht hdelimiter
      exact ⟨p, List.mem_append_left _ hp, hends⟩
    · obtain ⟨p, hp, hends⟩ := hb.covers i hmid hi' t ht hdelimiter
      exact ⟨p, List.mem_append_right _ hp, hends⟩
  apart := by
    refine List.pairwise_append.mpr ⟨ha.apart, hb.apart, fun p hp q hq => ?_⟩
    have := ha.inside p hp
    have := hb.inside q hq
    exact ⟨by omega, .inl (by omega)⟩

end Pairing

namespace Reader

variable {input : Input} {i j : Nat}

mutual

theorem Laid.pairing {tree : TokenTree} {i j : Nat} (h : Laid input tree i j)
    (hnested : isNested tree = true) : Pairing input.tokens i j (pairs i tree) := by
  cases tree with
  | leaf t =>
    obtain ⟨htoken, hopen, hclose, rfl⟩ := h
    exact .leaf htoken (by rw [Token.isDelimiter, hopen, hclose]; rfl)
  | group opener inner closer =>
    obtain ⟨k, hopener, -, -, hinner, hcloser, rfl⟩ := h
    rw [isNested, Bool.and_eq_true] at hnested
    rw [pairs, ← hinner.eq_add]
    exact (hinner.pairing hnested.2).group hinner.le hopener hcloser hnested.1

/-- The delimiters of nested trees are paired where the trees are laid out. -/
theorem LaidAll.pairing {trees : List TokenTree} {i j : Nat} (h : LaidAll input trees i j)
    (hnested : isNestedAll trees = true) : Pairing input.tokens i j (pairsAll i trees) := by
  cases trees with
  | nil =>
    obtain rfl : i = j := h
    exact .nil i
  | cons tree rest =>
    obtain ⟨k, htree, hrest⟩ := h
    rw [isNestedAll, Bool.and_eq_true] at hnested
    rw [pairsAll, ← htree.eq_add]
    exact (htree.pairing hnested.1).append (hrest.pairing hnested.2) (Nat.le_of_lt htree.lt) hrest.le

end

end Reader

/-- The position of the delimiter that belongs to the one in the position. -/
def partner? (table : List (Nat × Nat)) (index : Nat) : Option Nat :=
  (table ++ table.map Prod.swap).lookup index

namespace Pairing

variable {tokens : List Token} {low high i j : Nat} {table : List (Nat × Nat)}

/-- Two pairs of the table are the same, or one of them opens first and does not cross the other. -/
theorem cases_of_mem (h : Pairing tokens low high table) {p q : Nat × Nat} (hp : p ∈ table)
    (hq : q ∈ table) : p = q ∨ (p.1 < q.1 ∧ (p.2 < q.1 ∨ q.2 < p.2)) ∨
      (q.1 < p.1 ∧ (q.2 < p.1 ∨ p.2 < q.2)) := by
  obtain ⟨front, behind, rfl⟩ := List.append_of_mem hp
  obtain ⟨-, hbehind, hfront⟩ := List.pairwise_append.mp h.apart
  rcases List.mem_append.mp hq with hq | hq
  · exact .inr (.inr (hfront q hq p List.mem_cons_self))
  rcases List.mem_cons.mp hq with rfl | hq
  · exact .inl rfl
  · exact .inr (.inl (List.rel_of_pairwise_cons hbehind hq))

/-- No position stands in two pairs. -/
theorem nodup_keys (h : Pairing tokens low high table) :
    ((table ++ table.map Prod.swap).map Prod.fst).Nodup := by
  rw [List.map_append, List.map_map, List.nodup_append]
  refine ⟨?_, ?_, fun i hi j hj => ?_⟩
  · refine List.pairwise_map.mpr (h.apart.imp fun hpq => ?_)
    exact Nat.ne_of_lt hpq.1
  · refine List.pairwise_map.mpr (h.apart.imp_of_mem fun {p q} hp hq hpq => ?_)
    have := h.inside q hq
    show p.2 ≠ q.2
    omega
  · obtain ⟨p, hp, rfl⟩ := List.mem_map.mp hi
    obtain ⟨q, hq, rfl⟩ := List.mem_map.mp hj
    have hinside := h.inside p hp
    have hinside' := h.inside q hq
    show p.1 ≠ q.2
    rcases h.cases_of_mem hp hq with rfl | hpq | hqp <;> omega

/-- Partners are the two delimiters of a pair. -/
theorem partner?_eq_some_iff (h : Pairing tokens low high table) :
    partner? table i = some j ↔ (i, j) ∈ table ∨ (j, i) ∈ table := by
  rw [partner?, lookup_eq_some_iff_mem h.nodup_keys, List.mem_append]
  refine or_congr_right ⟨fun hmem => ?_, fun hmem => List.mem_map.mpr ⟨_, hmem, rfl⟩⟩
  obtain ⟨p, hp, hswap⟩ := List.mem_map.mp hmem
  rwa [← Prod.swap_swap p, hswap] at hp

end Pairing

/-- The table gives each delimiter, and no other token, its partner: the opening ones have theirs behind
them, of the same kind, and the parts between partners lie beside or inside of each other. -/
structure IsMatching (tokens : List Token) (table : List (Nat × Nat)) : Prop where
  defined : ∀ i, (∃ j, partner? table i = some j) ↔ ∃ t ∈ tokens[i]?, t.isDelimiter = true
  involutive : ∀ i j, partner? table i = some j → partner? table j = some i
  closes : ∀ i j, partner? table i = some j → ∀ opener ∈ tokens[i]?, opener.isOpener = true →
    i < j ∧ ∃ closer ∈ tokens[j]?, opener.closes closer = true
  apart : ∀ i j k l, partner? table i = some j → partner? table k = some l → i < j → k < l → i < k →
    j < k ∨ l < j

/-- A table for all tokens matches them. -/
theorem Pairing.isMatching {tokens : List Token} {table : List (Nat × Nat)}
    (h : Pairing tokens 0 tokens.length table) : IsMatching tokens table where
  defined := by
    intro i
    constructor
    · rintro ⟨j, hj⟩
      rcases h.partner?_eq_some_iff.mp hj with hmem | hmem
      · obtain ⟨opener, closer, hopener, -, hcloses⟩ := h.closes _ hmem
        exact ⟨opener, hopener, (Token.isDelimiter_of_closes hcloses).1⟩
      · obtain ⟨opener, closer, -, hcloser, hcloses⟩ := h.closes _ hmem
        exact ⟨closer, hcloser, (Token.isDelimiter_of_closes hcloses).2⟩
    · rintro ⟨t, ht, hdelimiter⟩
      have hlt := (List.getElem?_eq_some_iff.mp ht).1
      obtain ⟨⟨k, l⟩, hmem, rfl | rfl⟩ := h.covers i (Nat.zero_le _) hlt t ht hdelimiter
      · exact ⟨l, h.partner?_eq_some_iff.mpr (.inl hmem)⟩
      · exact ⟨k, h.partner?_eq_some_iff.mpr (.inr hmem)⟩
  involutive := by
    intro i j hj
    exact h.partner?_eq_some_iff.mpr (h.partner?_eq_some_iff.mp hj).symm
  closes := by
    intro i j hj t ht hopen
    rcases h.partner?_eq_some_iff.mp hj with hmem | hmem
    · obtain ⟨opener, closer, hopener, hcloser, hcloses⟩ := h.closes _ hmem
      obtain rfl : opener = t := Option.some.inj (hopener.symm.trans ht)
      exact ⟨(h.inside _ hmem).2.1, closer, hcloser, hcloses⟩
    · -- the position of a closing delimiter holds no opening one
      obtain ⟨opener, closer, -, hcloser, hcloses⟩ := h.closes _ hmem
      obtain rfl : closer = t := Option.some.inj (hcloser.symm.trans ht)
      rw [Token.not_isOpener_of_isCloser (Token.isCloser_of_closes hcloses)] at hopen
      cases hopen
  apart := by
    have hpair : ∀ i j, partner? table i = some j → i < j → (i, j) ∈ table := by
      intro i j hj hlt
      rcases h.partner?_eq_some_iff.mp hj with hmem | hmem
      · exact hmem
      · have := (h.inside _ hmem).2.1
        omega
    intro i j k l hj hl hij hkl hik
    rcases h.cases_of_mem (hpair i j hj hij) (hpair k l hl hkl) with heq | hapart | hapart
    · cases heq
      omega
    · exact hapart.2
    · exact absurd hik (Nat.lt_asymm hapart.1)

/-- **Delimiters that are matched have the partners that they should have.** -/
theorem isMatching_of_ok {tokens : List Token} {table : List (Nat × Nat)}
    (h : matchDelimiters tokens = .ok table) : IsMatching tokens table := by
  obtain ⟨trees, htrees, rfl⟩ := map_eq_ok.mp h
  obtain ⟨rfl, hnested⟩ := ofTokens_eq_ok_iff.mp htrees
  let input : Reader.Input := ⟨[], flattenAll trees, pairsAll 0 trees⟩
  have hlaid : Reader.LaidAll input trees 0 input.tokens.length := Reader.laidAll_of_nested hnested rfl rfl
  exact (hlaid.pairing hnested).isMatching

/-! ### Delimiters without partners -/

/-- The delimiter opens the group that is open behind the tokens and was opened last: what stands behind it
is well nested. -/
def IsLastOpen (front : List Token) (opener : Token) : Prop :=
  opener.isOpener = true ∧
    ∃ before inner, front = before ++ opener :: inner ∧ IsWellNested (delimiters inner)

/-- The token behind the others closes no group, or not the one that was opened last. -/
def IsStray (front : List Token) (t : Token) : Prop :=
  t.isCloser = true ∧ ∀ opener, IsLastOpen front opener → opener.closes t = false

/-- Each closing delimiter closes the group that was opened last in front of it. -/
def HasNoStray (tokens : List Token) : Prop :=
  ∀ front t behind, tokens = front ++ t :: behind → ¬ IsStray front t

/-- What is wrong with delimiters: the first closing one that does not close the group opened last, or, if
there is none, the last one that is left open. -/
inductive IsFault (tokens : List Token) : Failure → Prop
  | stray {front behind : List Token} {t : Token} (htokens : tokens = front ++ t :: behind)
      (hfirst : HasNoStray front) (ht : IsStray front t) : IsFault tokens ⟨.unexpectedCloser t.text, t.start⟩
  | unclosed {opener : Token} (hnone : HasNoStray tokens) (hopener : IsLastOpen tokens opener) :
      IsFault tokens ⟨.unclosed opener.text, opener.start⟩

/-- The delimiter that closes what was opened last is due next. -/
theorem IsLastOpen.due {front : List Token} {opener : Token} (h : IsLastOpen front opener)
    {due : List String} (hdue : nest [] front = some due) : due.head? = some opener.partner := by
  obtain ⟨hopen, before, inner, rfl, hinner⟩ := h
  rw [nest, List.foldlM_append] at hdue
  obtain ⟨first, -, hrest⟩ := Option.bind_eq_some_iff.mp hdue
  have hnest : nest first (opener :: inner) = some due := hrest
  rw [nest_cons, Token.nest, if_pos hopen, Option.bind_some, ← nest_delimiters, hinner.nest_eq,
    Option.some.injEq] at hnest
  rw [← hnest, List.head?_cons]

/-- Behind well-nested delimiters no group is open. -/
theorem IsWellNested.not_isLastOpen {tokens : List Token} (h : IsWellNested (delimiters tokens))
    (opener : Token) : ¬ IsLastOpen tokens opener := by
  intro hopener
  have hnest := h.nest_eq []
  rw [nest_delimiters] at hnest
  cases hopener.due hnest

/-- Two elements of a list are the same one, or one of them stands behind the other. -/
theorem append_cons_cases {α : Type} {a b c d : List α} {x y : α} (h : a ++ x :: b = c ++ y :: d) :
    (a = c ∧ x = y) ∨ (∃ between, c = a ++ x :: between ∧ b = between ++ y :: d) ∨
      ∃ between, a = c ++ y :: between ∧ d = between ++ x :: b := by
  rcases List.append_eq_append_iff.mp h with ⟨m, rfl, hm⟩ | ⟨m, rfl, hm⟩ <;>
    rcases m with _ | ⟨z, m⟩ <;> obtain ⟨rfl, rfl⟩ := List.cons.inj hm
  · exact .inl ⟨(List.append_nil a).symm, rfl⟩
  · exact .inr (.inl ⟨m, rfl, rfl⟩)
  · exact .inl ⟨List.append_nil c, rfl⟩
  · exact .inr (.inr ⟨m, rfl, rfl⟩)

theorem IsLastOpen.unique {front : List Token} {opener opener' : Token} (h : IsLastOpen front opener)
    (h' : IsLastOpen front opener') : opener = opener' := by
  obtain ⟨hopen, before, inner, rfl, hinner⟩ := h
  obtain ⟨hopen', before', inner', hsplit, hinner'⟩ := h'
  rcases append_cons_cases hsplit with ⟨-, heq⟩ | ⟨between, -, rfl⟩ | ⟨between, -, rfl⟩
  · exact heq
  · exact absurd ⟨hopen', between, inner', rfl, hinner'⟩ (hinner.not_isLastOpen opener')
  · exact absurd ⟨hopen, between, inner, rfl, hinner⟩ (hinner'.not_isLastOpen opener)

/-- Only one thing is wrong. -/
theorem IsFault.unique {tokens : List Token} {failure failure' : Failure} (h : IsFault tokens failure)
    (h' : IsFault tokens failure') : failure = failure' := by
  cases h with
  | @stray front behind t htokens hfirst ht =>
    cases h' with
    | @stray front' behind' t' htokens' hfirst' ht' =>
      rcases append_cons_cases (htokens.symm.trans htokens') with ⟨-, rfl⟩ | ⟨between, hfront, -⟩ |
        ⟨between, hfront, -⟩
      · rfl
      · exact absurd ht (hfirst' front t between hfront)
      · exact absurd ht' (hfirst front' t' between hfront)
    | unclosed hnone _ => exact absurd ht (hnone front t behind htokens)
  | unclosed hnone hopener =>
    cases h' with
    | @stray front behind t htokens _ ht => exact absurd ht (hnone front t behind htokens)
    | unclosed _ hopener' => rw [hopener.unique hopener']

theorem HasNoStray.nil : HasNoStray [] := by
  intro front t behind hsplit
  exact absurd hsplit.symm (List.append_ne_nil_of_right_ne_nil _ (List.cons_ne_nil _ _))

theorem HasNoStray.concat {front : List Token} {t : Token} (h : HasNoStray front)
    (ht : ¬ IsStray front t) : HasNoStray (front ++ [t]) := by
  intro before u behind hsplit
  rcases append_cons_cases hsplit with ⟨rfl, rfl⟩ | ⟨between, -, hnil⟩ | ⟨between, hfront, -⟩
  · exact ht
  · exact absurd hnil.symm (List.append_ne_nil_of_right_ne_nil _ (List.cons_ne_nil _ _))
  · exact h before u between hfront

namespace TokenTree

variable {stack : List (Token × List TokenTree)} {before current : List TokenTree} {opener t : Token}

namespace IsOpened

/-- The delimiter on top of the stack was opened last. -/
theorem isLastOpen (h : IsOpened ((opener, before) :: stack) current) :
    IsLastOpen (readSoFar ((opener, before) :: stack) current) opener := by
  refine ⟨h.openers _ List.mem_cons_self, _, flattenAll current.reverse, rfl, ?_⟩
  exact isWellNested_of_nested (isNestedAll_reverse.trans h.current)

/-- A closing delimiter that does not close what is on top of the stack is astray. -/
theorem isStray (h : IsOpened stack current) (hclose : t.isCloser = true)
    (hnot : ∀ frame ∈ stack.head?, frame.1.closes t = false) : IsStray (readSoFar stack current) t := by
  refine ⟨hclose, fun opener hopener => ?_⟩
  cases stack with
  | nil =>
    have hnested := isWellNested_of_nested (isNestedAll_reverse.trans h.current)
    exact absurd hopener (hnested.not_isLastOpen opener)
  | cons frame stack =>
    rw [hopener.unique h.isLastOpen]
    exact hnot frame rfl

end IsOpened

/-- What becomes of tokens: either no closing delimiter is astray, or the failure is what is wrong. -/
def IsSettled (tokens : List Token) : Except Failure (List TokenTree) → Prop
  | .ok _ => HasNoStray tokens
  | .error failure => IsFault tokens failure

/-- Behind tokens among which no closing delimiter is astray, grouping goes on as it should. -/
theorem isSettled_build (tokens : List Token) (hopened : IsOpened stack current)
    (hnone : HasNoStray (readSoFar stack current)) :
    IsSettled (readSoFar stack current ++ tokens) (build stack current tokens) := by
  -- Along the grouping, what was read so far grows by one token at a time and stays without strays.
  fun_induction build stack current tokens with
  | case1 =>
    rw [List.append_nil]
    exact hnone
  | case2 current opener before stack =>
    rw [List.append_nil]
    exact .unclosed hnone hopened.isLastOpen
  | case3 stack current t rest hopen ih =>
    have hfits : ¬ IsStray (readSoFar stack current) t := by
      intro hstray
      rw [Token.not_isOpener_of_isCloser hstray.1] at hopen
      cases hopen
    have hrest := ih (hopened.opened hopen) (readSoFar_opened .. ▸ hnone.concat hfits)
    rwa [readSoFar_opened, List.append_assoc, List.singleton_append] at hrest
  | case4 current t rest hopen hclose => exact .stray rfl hnone (hopened.isStray hclose forall_mem_none)
  | case5 current t rest hopen hclose opener before stack hcloses ih =>
    have hfits : ¬ IsStray (readSoFar ((opener, before) :: stack) current) t := by
      intro hstray
      rw [hstray.2 opener hopened.isLastOpen] at hcloses
      cases hcloses
    have hrest := ih (hopened.closed hcloses) (readSoFar_closed .. ▸ hnone.concat hfits)
    rwa [readSoFar_closed, List.append_assoc, List.singleton_append] at hrest
  | case6 current t rest hopen hclose opener before stack hcloses =>
    refine .stray rfl hnone (hopened.isStray hclose (forall_mem_some ?_))
    rwa [← Bool.not_eq_true]
  | case7 stack current t rest hopen hclose ih =>
    rw [Bool.not_eq_true] at hopen hclose
    have hfits : ¬ IsStray (readSoFar stack current) t := by
      intro hstray
      rw [hstray.1] at hclose
      cases hclose
    have hrest := ih (hopened.passed hopen hclose) (readSoFar_passed .. ▸ hnone.concat hfits)
    rwa [readSoFar_passed, List.append_assoc, List.singleton_append] at hrest

end TokenTree

/-- **Delimiters that are not matched fail where the first one is without its partner.** -/
theorem matchDelimiters_eq_error_iff {tokens : List Token} {failure : Failure} :
    matchDelimiters tokens = .error failure ↔ IsFault tokens failure := by
  have hsettled : TokenTree.IsSettled tokens (ofTokens tokens) :=
    TokenTree.isSettled_build tokens .nil .nil
  rw [matchDelimiters, map_eq_error]
  cases hgrouped : ofTokens tokens with
  | error found =>
    rw [hgrouped] at hsettled
    constructor
    · rintro ⟨⟩
      exact hsettled
    · intro hfault
      rw [hsettled.unique hfault]
  | ok trees =>
    rw [hgrouped] at hsettled
    obtain ⟨rfl, hnested⟩ := ofTokens_eq_ok_iff.mp hgrouped
    constructor
    · intro h
      cases h
    · intro hfault
      cases hfault with
      | @stray front behind t htokens _ ht => exact absurd ht (hsettled front t behind htokens)
      | unclosed _ hopener => exact absurd hopener ((isWellNested_of_nested hnested).not_isLastOpen _)

/-- **Delimiters are matched exactly.** -/
theorem matchDelimiters_exact (tokens : List Token) :
    ((∃ table, matchDelimiters tokens = .ok table) ↔ IsWellNested (delimiters tokens)) ∧
      (∀ table, matchDelimiters tokens = .ok table → IsMatching tokens table) ∧
        ∀ failure, matchDelimiters tokens = .error failure ↔ IsFault tokens failure :=
  ⟨exists_table_iff, fun _ => isMatching_of_ok, fun _ => matchDelimiters_eq_error_iff⟩

/-- Punctuation marks side by side. -/
def marksInRow (texts : List String) : List Token :=
  texts.mapIdx fun i text => ⟨.punct, text, i, i + 1⟩

/-- Groups of all kinds beside and inside of each other, groups that cross, and a group that is left open
around another one. -/
theorem matchDelimiters_exact_groups :
    matchDelimiters (marksInRow ["(", "[", ";", "]", "\x7b", "\x7d", ")"]) = .ok [(0, 6), (1, 3), (4, 5)] ∧
      IsMatching (marksInRow ["(", "[", ";", "]", "\x7b", "\x7d", ")"]) [(0, 6), (1, 3), (4, 5)] ∧
      matchDelimiters (marksInRow ["(", "[", ")", "]"]) = .error ⟨.unexpectedCloser ")", 2⟩ ∧
      IsFault (marksInRow ["(", "[", ")", "]"]) ⟨.unexpectedCloser ")", 2⟩ ∧
      matchDelimiters (marksInRow ["(", "[", "]"]) = .error ⟨.unclosed "(", 0⟩ ∧
      IsFault (marksInRow ["(", "[", "]"]) ⟨.unclosed "(", 0⟩ := by
  have hnested : matchDelimiters (marksInRow ["(", "[", ";", "]", "\x7b", "\x7d", ")"]) =
      .ok [(0, 6), (1, 3), (4, 5)] := by decide +kernel
  have hcrossed : matchDelimiters (marksInRow ["(", "[", ")", "]"]) =
      .error ⟨.unexpectedCloser ")", 2⟩ := by decide +kernel
  have hopen : matchDelimiters (marksInRow ["(", "[", "]"]) = .error ⟨.unclosed "(", 0⟩ := by
    decide +kernel
  exact ⟨hnested, (matchDelimiters_exact _).2.1 _ hnested, hcrossed,
    ((matchDelimiters_exact _).2.2 _).mp hcrossed, hopen, ((matchDelimiters_exact _).2.2 _).mp hopen⟩

end ContractSync.Rust
