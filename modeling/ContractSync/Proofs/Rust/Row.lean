import ContractSync.Proofs.Rust.Refill

/-!
# Trees in a row

The trees of a text stand one behind the other, and those of a group between its delimiters (`Row`).
**An item is read from a first part of such a row: it ends where this part does, its body stands behind the
first token and in front of the end, and what follows starts behind the end** (`Item.standing_of_read`).
The attributes in front of an item (`Attribute.row_lead`) and the entries of a list (`Entry.row_divide`)
stand in a row as well.
-/

namespace ContractSync.Rust

open TokenTree (flatten flattenAll)

namespace TokenTree

mutual

/-- The tree covers some text; what a group holds stands between its delimiters. -/
def IsSolid : TokenTree → Prop
  | leaf t => t.start < t.stop
  | group opener inner closer =>
    opener.start < opener.stop ∧ Row inner opener.stop closer.start ∧ closer.start < closer.stop

/-- The trees stand one behind the other, between two positions. -/
def Row : List TokenTree → Nat → Nat → Prop
  | [], low, high => low ≤ high
  | tree :: rest, low, high => low ≤ tree.start ∧ IsSolid tree ∧ Row rest tree.stop high

end

variable {low high : Nat} {a b trees : List TokenTree} {tree : TokenTree}

mutual

theorem IsSolid.lt {tree : TokenTree} (h : tree.IsSolid) : tree.start < tree.stop := by
  cases tree with
  | leaf t => exact h
  | group opener inner closer =>
    obtain ⟨hopener, hinner, hcloser⟩ := h
    exact Nat.lt_of_lt_of_le hopener (Nat.le_trans hinner.le (Nat.le_of_lt hcloser))

theorem Row.le {trees : List TokenTree} {low high : Nat} (h : Row trees low high) : low ≤ high := by
  cases trees with
  | nil => exact h
  | cons tree rest =>
    obtain ⟨hlow, htree, hrest⟩ := h
    exact Nat.le_trans hlow (Nat.le_trans (Nat.le_of_lt htree.lt) hrest.le)

end

theorem Row.mono {low' high' : Nat} (h : Row trees low high) (hlow : low' ≤ low)
    (hhigh : high ≤ high') : Row trees low' high' := by
  induction trees generalizing low low' with
  | nil => exact Nat.le_trans hlow (Nat.le_trans h hhigh)
  | cons tree rest ih =>
    obtain ⟨hstart, htree, hrest⟩ := h
    exact ⟨Nat.le_trans hlow hstart, htree, ih hrest (Nat.le_refl _)⟩

/-- A row can be cut everywhere. -/
theorem row_append : Row (a ++ b) low high ↔ ∃ mid, Row a low mid ∧ Row b mid high := by
  induction a generalizing low with
  | nil =>
    constructor
    · intro h
      exact ⟨low, Nat.le_refl low, h⟩
    · rintro ⟨mid, hle, h⟩
      exact h.mono hle (Nat.le_refl high)
  | cons tree a ih =>
    rw [List.cons_append, Row, ih]
    constructor
    · rintro ⟨hlow, htree, mid, ha, hb⟩
      exact ⟨mid, ⟨hlow, htree, ha⟩, hb⟩
    · rintro ⟨mid, ⟨hlow, htree, ha⟩, hb⟩
      exact ⟨hlow, htree, mid, ha, hb⟩

theorem Row.of_suffix {rest : List TokenTree} (h : Row trees low high) (hs : rest <:+ trees) :
    Row rest low high := by
  obtain ⟨front, rfl⟩ := hs
  obtain ⟨mid, hfront, hrest⟩ := row_append.mp h
  exact hrest.mono hfront.le (Nat.le_refl high)

/-- The part of a row behind a tree. -/
theorem Row.behind (h : Row (a ++ tree :: b) low high) :
    low ≤ tree.start ∧ tree.IsSolid ∧ Row b tree.stop high := by
  obtain ⟨mid, ha, hlow, htree, hb⟩ := row_append.mp h
  exact ⟨Nat.le_trans ha.le hlow, htree, hb⟩

/-- A row ends behind its last tree. -/
theorem Row.upto {last : TokenTree} (h : Row a low high) (hlast : a.getLast? = some last) :
    Row a low last.stop ∧ last.stop ≤ high := by
  obtain ⟨front, rfl⟩ := List.getLast?_eq_some_iff.mp hlast
  obtain ⟨mid, hfront, hlow, hsolid, hle⟩ := row_append.mp h
  exact ⟨row_append.mpr ⟨mid, hfront, hlow, hsolid, Nat.le_refl _⟩, hle⟩

/-! ### The tokens of a row -/

theorem flattenAll_subset {rest : List TokenTree} (hs : rest ⊆ trees) :
    flattenAll rest ⊆ flattenAll trees := by
  intro t ht
  obtain ⟨tree, htree, ht⟩ := mem_flattenAll.mp ht
  exact mem_flattenAll.mpr ⟨tree, hs htree, ht⟩

mutual

theorem IsSolid.bounds {tree : TokenTree} (h : tree.IsSolid) :
    ∀ t ∈ flatten tree, tree.start ≤ t.start ∧ t.start < t.stop ∧ t.stop ≤ tree.stop := by
  cases tree with
  | leaf t => exact List.forall_mem_singleton.mpr ⟨Nat.le_refl _, h, Nat.le_refl _⟩
  | group opener inner closer =>
    obtain ⟨hopener, hinner, hcloser⟩ := h
    have hle := hinner.le
    rw [flatten, List.forall_mem_cons, List.forall_mem_append, List.forall_mem_singleton]
    refine ⟨⟨Nat.le_refl _, hopener, ?_⟩, fun t ht => ?_, ⟨?_, hcloser, Nat.le_refl _⟩⟩
    · show opener.stop ≤ closer.stop
      omega
    · have := hinner.bounds t ht
      show opener.start ≤ t.start ∧ t.start < t.stop ∧ t.stop ≤ closer.stop
      omega
    · show opener.start ≤ closer.start
      omega

theorem Row.bounds {trees : List TokenTree} {low high : Nat} (h : Row trees low high) :
    ∀ t ∈ flattenAll trees, low ≤ t.start ∧ t.start < t.stop ∧ t.stop ≤ high := by
  cases trees with
  | nil => exact List.forall_mem_nil _
  | cons tree rest =>
    obtain ⟨hlow, htree, hrest⟩ := h
    have hlt := htree.lt
    have hle := hrest.le
    rw [flattenAll, List.forall_mem_append]
    refine ⟨fun t ht => ?_, fun t ht => ?_⟩
    · have := htree.bounds t ht
      omega
    · have := hrest.bounds t ht
      omega

end

mutual

theorem isSolid_of_apart {tree : TokenTree} (hsolid : ∀ t ∈ flatten tree, t.start < t.stop)
    (hapart : (flatten tree).Pairwise fun t u => t.stop ≤ u.start) : tree.IsSolid := by
  cases tree with
  | leaf t => exact hsolid t (List.mem_singleton_self t)
  | group opener inner closer =>
    simp only [flatten, List.forall_mem_cons, List.forall_mem_append] at hsolid
    simp only [flatten, List.pairwise_cons, List.pairwise_append, List.forall_mem_append,
      List.forall_mem_singleton] at hapart
    obtain ⟨hopener, hinner, hcloser, -⟩ := hsolid
    obtain ⟨⟨hfirst, hbetween⟩, hpair, -, hlast⟩ := hapart
    exact ⟨hopener, row_of_apart hinner hpair hfirst hlast hbetween, hcloser⟩

/-- Tokens one behind the other are those of a row. -/
theorem row_of_apart {trees : List TokenTree} {low high : Nat}
    (hsolid : ∀ t ∈ flattenAll trees, t.start < t.stop)
    (hapart : (flattenAll trees).Pairwise fun t u => t.stop ≤ u.start)
    (hlow : ∀ t ∈ flattenAll trees, low ≤ t.start) (hhigh : ∀ t ∈ flattenAll trees, t.stop ≤ high)
    (hle : low ≤ high) : Row trees low high := by
  cases trees with
  | nil => exact hle
  | cons tree rest =>
    rw [flattenAll, List.forall_mem_append] at hsolid hlow hhigh
    rw [flattenAll, List.pairwise_append] at hapart
    obtain ⟨htree, hrest, hbehind⟩ := hapart
    obtain ⟨last, hlast, hstop⟩ : ∃ t ∈ flatten tree, t.stop = tree.stop := by
      cases tree with
      | leaf t => exact ⟨t, List.mem_singleton_self t, rfl⟩
      | group opener inner closer => exact ⟨closer, by simp [flatten], rfl⟩
    refine ⟨start_head tree ▸ hlow.1 _ (head_mem_flatten tree), isSolid_of_apart hsolid.1 htree, ?_⟩
    exact row_of_apart hsolid.2 hrest (fun t ht => hstop ▸ hbehind last hlast t ht) hhigh.2
      (hstop ▸ hhigh.1 last hlast)

end

end TokenTree

open TokenTree (IsSolid Row row_append)

/-- The trees of a text are a row. -/
theorem Reads.row {source : List Char} {trees : List TokenTree} {nodes : List Node}
    (h : Reads source trees nodes) : Row trees 0 source.length := by
  obtain ⟨-, hbounds, hapart⟩ := (Lexer.run_of_lexFrom h.tokens).ordered
  refine TokenTree.row_of_apart (fun t ht => (hbounds t ht).2.1) hapart (fun t _ => Nat.zero_le _)
    (fun t ht => ?_) (Nat.zero_le _)
  have := (hbounds t ht).2.2
  omega

/-! ### Items -/

namespace Item

/-- The item is read from a first part of the trees and ends with it; its body stands there. -/
def IsSpanned (item : Item) (trees : List TokenTree) : Prop :=
  ∃ front last, trees = front ++ last :: item.rest ∧ item.stop = last.stop ∧
    ∀ b ∈ item.body, b.tree ∈ front ++ [last]

variable {stop : Nat} {trees : List TokenTree} {item : Item}

theorem IsSpanned.mono {a b : List TokenTree} (h : item.IsSpanned a) (hs : a <:+ b) :
    item.IsSpanned b := by
  obtain ⟨front, last, rfl, hstop, hbody⟩ := h
  obtain ⟨more, rfl⟩ := hs
  refine ⟨more ++ front, last, (List.append_assoc ..).symm, hstop, fun b hb => ?_⟩
  rw [List.append_assoc]
  exact List.mem_append_right more (hbody b hb)

/-- An item that ends with a tree which is its body, or has none. -/
theorem IsSpanned.of_suffix {tree : TokenTree} (hs : tree :: item.rest <:+ trees)
    (hstop : item.stop = tree.stop) (hbody : ∀ b ∈ item.body, b.tree = tree) :
    item.IsSpanned trees :=
  .mono ⟨[], tree, rfl, hstop, fun b hb => List.mem_singleton.mpr (hbody b hb)⟩ hs

theorem ofScan_isSpanned {marks : List String} {found : TokenTree × List TokenTree}
    {kind : ItemKind} {name : Option String} (h : scanTo stop marks trees = .ok found) :
    (ofScan kind name found).IsSpanned trees := by
  obtain ⟨tree, rest⟩ := found
  cases tree with
  | leaf last => exact .of_suffix (scanTo_suffix h) rfl forall_mem_none
  | group opener inner closer => exact .of_suffix (scanTo_suffix h) rfl (forall_mem_some rfl)

theorem readLine_isSpanned {kind : ItemKind} {name : Option String}
    (h : readLine stop kind name trees = .ok item) : item.body = none ∧ item.IsSpanned trees := by
  obtain ⟨⟨last, rest⟩, hscan, h⟩ := bind_eq_ok.mp h
  cases h
  exact ⟨rfl, .of_suffix (scanTo_suffix hscan) rfl forall_mem_none⟩

theorem readBlock_isSpanned {kind : ItemKind} {name : Option String}
    (h : readBlock stop kind name trees = .ok item) : item.IsSpanned trees := by
  obtain ⟨found, hscan, h⟩ := bind_eq_ok.mp h
  cases h
  exact ofScan_isSpanned hscan

theorem readFunction_isSpanned (h : readFunction stop trees = .ok item) :
    item.IsSpanned trees.tail := by
  obtain ⟨name, -, h⟩ := bind_eq_ok.mp h
  obtain ⟨found, hscan, h⟩ := bind_eq_ok.mp h
  cases h
  exact (ofScan_isSpanned hscan).mono (tail_suffix _)

theorem readEnum_isSpanned (h : readEnum stop trees = .ok item) : item.IsSpanned trees.tail := by
  obtain ⟨name, -, h⟩ := bind_eq_ok.mp h
  obtain ⟨rest, hgenerics, h⟩ := bind_eq_ok.mp h
  obtain ⟨found, hscan, h⟩ := bind_eq_ok.mp h
  cases h
  exact (ofScan_isSpanned hscan).mono ((skipGenerics_suffix hgenerics).trans (tail_suffix _))

theorem readStruct_isSpanned (h : readStruct stop trees = .ok item) :
    item.IsSpanned trees.tail := by
  obtain ⟨name, -, h⟩ := bind_eq_ok.mp h
  obtain ⟨rest, hgenerics, h⟩ := bind_eq_ok.mp h
  refine IsSpanned.mono ?_ ((skipGenerics_suffix hgenerics).trans (tail_suffix _))
  split at h
  · rename_i b htuple
    obtain ⟨⟨last, behind⟩, hscan, h⟩ := bind_eq_ok.mp h
    cases h
    obtain ⟨more, rfl, -⟩ := tupleBody?_eq_some htuple
    obtain ⟨between, rfl⟩ := scanTo_suffix hscan
    exact ⟨b.tree :: between, last, rfl, rfl, forall_mem_some List.mem_cons_self⟩
  · obtain ⟨found, hscan, h⟩ := bind_eq_ok.mp h
    cases h
    exact ofScan_isSpanned hscan

/-- What is skipped ends where the last tree of it does. -/
theorem skipOther_split (last : Nat) {trees : List TokenTree} (hne : trees ≠ [])
    (hlast : trees.getLast?.map TokenTree.stop = some last) :
    ∃ front final, trees = front ++ final :: (skipOther last trees).2 ∧
      (skipOther last trees).1 = final.stop := by
  fun_induction skipOther last trees with
  | case1 => exact absurd rfl hne
  | case2 tree rest => exact ⟨[], tree, rfl, rfl⟩
  | case3 tree _ _ next more => exact ⟨[tree], next, rfl, rfl⟩
  | case4 tree _ _ next more => exact ⟨[], tree, rfl, rfl⟩
  | case5 tree => exact ⟨[], tree, rfl, rfl⟩
  | case6 tree rest _ _ ih =>
    cases rest with
    | nil => exact ⟨[], tree, rfl, (Option.some.inj hlast).symm⟩
    | cons next more =>
      obtain ⟨front, final, htrees, hstop⟩ := ih (List.cons_ne_nil _ _) hlast
      exact ⟨tree :: front, final, by rw [List.cons_append, ← htrees], hstop⟩

theorem readKeyword_isSpanned {last : Nat} {whole : List TokenTree}
    (h : readKeyword stop last trees = .ok item) (hs : trees <:+ whole) (hne : whole ≠ [])
    (hlast : whole.getLast?.map TokenTree.stop = some last) :
    item.IsSpanned trees.tail ∨ item.body = none ∧ item.IsSpanned whole := by
  simp only [readKeyword] at h
  split at h
  · exact .inl (readStruct_isSpanned h)
  split at h
  · exact .inl (readEnum_isSpanned h)
  split at h
  · exact .inl (readFunction_isSpanned h)
  split at h
  · obtain ⟨name, -, h⟩ := bind_eq_ok.mp h
    exact .inl (readBlock_isSpanned h)
  split at h
  · obtain ⟨name, -, h⟩ := bind_eq_ok.mp h
    exact .inl (readBlock_isSpanned h)
  split at h
  · exact .inl (readBlock_isSpanned h)
  split at h
  · exact .inr ⟨(readLine_isSpanned h).1, (readLine_isSpanned h).2.mono hs⟩
  split at h
  · exact .inr ⟨(readLine_isSpanned h).1, (readLine_isSpanned h).2.mono hs⟩
  · cases h
    refine .inr ⟨rfl, ?_⟩
    by_cases htrees : trees = []
    · -- Nothing stands behind the qualifiers: the item ends with them.
      subst htrees
      obtain ⟨final, hfinal, hstop⟩ := Option.map_eq_some_iff.mp hlast
      obtain ⟨front, rfl⟩ := List.getLast?_eq_some_iff.mp hfinal
      exact ⟨front, final, rfl, hstop.symm, forall_mem_none⟩
    · obtain ⟨front', rfl⟩ := hs
      rw [List.getLast?_append_of_ne_nil _ htrees] at hlast
      obtain ⟨front, final, hsplit, hstop⟩ := skipOther_split last htrees hlast
      exact IsSpanned.mono ⟨front, final, hsplit, hstop, forall_mem_none⟩ (List.suffix_append ..)

/-- The item that is read from the trees ends with a first part of them, and no body comes first. -/
theorem read_isSpanned {tree : TokenTree} {rest : List TokenTree}
    (h : read stop (tree :: rest) = .ok item) :
    item.IsSpanned rest ∨ item.body = none ∧ item.IsSpanned (tree :: rest) := by
  have hs : skipQualifiers (Entry.dropVisibility (tree :: rest)) <:+ tree :: rest :=
    (skipQualifiers_suffix _).trans (dropVisibility_suffix _)
  have hlast : (tree :: rest).getLast?.map TokenTree.stop =
      some (((tree :: rest).getLast?.map TokenTree.stop).getD stop) := by
    rw [List.getLast?_cons]
    rfl
  refine (readKeyword_isSpanned h hs (List.cons_ne_nil _ _) hlast).imp_left fun hspan => ?_
  obtain ⟨front, hfront⟩ := hs
  refine hspan.mono ?_
  generalize skipQualifiers _ = trees at hfront
  cases front with
  | nil =>
    rw [List.nil_append] at hfront
    rw [hfront]
    exact List.suffix_refl rest
  | cons _ front =>
    exact (tail_suffix trees).trans ⟨front, (List.cons.inj hfront).2⟩

/-- The item starts in a row and is read from a first part of it. -/
structure Standing (item : Item) (trees : List TokenTree) (start high : Nat) : Prop where
  taken : ∃ front last, trees = front ++ [last] ++ item.rest ∧ last.stop = item.stop ∧
    Row (front ++ [last]) start item.stop
  lt : start < item.stop
  rest : Row item.rest item.stop high
  body : ∀ b ∈ item.body, start < b.opener.start ∧ b.tree.IsSolid ∧ b.closer.stop ≤ item.stop

/-- **An item that is read from a row stands in a first part of it.** -/
theorem standing_of_read {tree : TokenTree} {rest : List TokenTree} {low high : Nat}
    (h : read stop (tree :: rest) = .ok item) (hrow : Row (tree :: rest) low high) :
    item.Standing (tree :: rest) tree.start high := by
  have hrow' : Row (tree :: rest) tree.start high := ⟨Nat.le_refl _, hrow.2⟩
  obtain ⟨front, last, hsplit, hstop, hbody⟩ : ∃ front last,
      tree :: rest = front ++ last :: item.rest ∧ item.stop = last.stop ∧
        ∀ b ∈ item.body, ∃ ahead behind, front ++ [last] = tree :: ahead ++ b.tree :: behind := by
    rcases read_isSpanned h with ⟨front, last, rfl, hstop, hbody⟩ | ⟨hnone, hspan⟩
    · refine ⟨tree :: front, last, rfl, hstop, fun b hb => ?_⟩
      obtain ⟨ahead, behind, hb⟩ := List.append_of_mem (hbody b hb)
      exact ⟨ahead, behind, by rw [List.cons_append, hb, List.cons_append]⟩
    · obtain ⟨front, last, hsplit, hstop, -⟩ := hspan
      rw [hnone]
      exact ⟨front, last, hsplit, hstop, forall_mem_none⟩
  have hwhole : tree :: rest = (front ++ [last]) ++ item.rest := by rw [hsplit]; simp
  obtain ⟨hstart, hlast, hrest⟩ := (hsplit ▸ hrow').behind
  obtain ⟨mid, hfront, -⟩ := row_append.mp (hwhole ▸ hrow')
  obtain ⟨hupto, -⟩ := hfront.upto List.getLast?_concat
  rw [← hstop] at hrest hupto
  have hlt : tree.start < item.stop := by
    have := hlast.lt
    omega
  refine ⟨⟨front, last, hwhole, hstop.symm, hupto⟩, hlt, hrest, fun b hb => ?_⟩
  obtain ⟨ahead, behind, hbody⟩ := hbody b hb
  rw [hbody, List.cons_append] at hupto
  obtain ⟨-, htree, hbehind⟩ := hupto
  obtain ⟨hopener, hsolid, hcloser⟩ := hbehind.behind
  have hltTree := htree.lt
  exact ⟨Nat.lt_of_lt_of_le hltTree hopener, hsolid, hcloser.le⟩

end Item

/-! ### Attributes -/

namespace Node

/-- The node covers some text between two positions. -/
def Between (low high : Nat) (n : Node) : Prop := low ≤ n.start ∧ n.start < n.stop ∧ n.stop ≤ high

theorem Between.mono {low low' high high' : Nat} {n : Node} (h : n.Between low high)
    (hlow : low' ≤ low) (hhigh : high ≤ high') : n.Between low' high' := by
  obtain ⟨h1, h2, h3⟩ := h
  exact ⟨Nat.le_trans hlow h1, h2, Nat.le_trans h3 hhigh⟩

/-- The nodes do not overlap and stand in their order. -/
def Apart (nodes : List Node) : Prop := nodes.Pairwise fun m n => m.stop ≤ n.start

/-- The token stands in the text that the node covers. -/
def Covers (n : Node) (t : Token) : Prop := n.start ≤ t.start ∧ t.stop ≤ n.stop

end Node

namespace Attribute

/-- The attributes in front of a row stand before a position, and what follows them behind it. -/
structure Lead.Standing (found : Lead) (low mid high : Nat) : Prop where
  between : ∀ n ∈ found.inner ++ found.outer, n.Between low mid
  apart : Node.Apart found.outer
  nodup : ((found.inner ++ found.outer).map Node.start).Nodup
  le : low ≤ mid
  rest : Row found.rest mid high

namespace Lead.Standing

variable {found : Lead} {low mid high : Nat} {n : Node}

/-- One more attribute in front starts where no other one does. -/
theorem nodup_cons (h : found.Standing low mid high) {low' : Nat} (hn : n.Between low' low) :
    (n.start :: (found.inner ++ found.outer).map Node.start).Nodup := by
  refine List.nodup_cons.mpr ⟨fun hmem => ?_, h.nodup⟩
  obtain ⟨m, hm, hstart⟩ := List.mem_map.mp hmem
  have hm := h.between m hm
  unfold Node.Between at hm hn
  omega

theorem between_cons (h : found.Standing low mid high) {low' : Nat} (hn : n.Between low' low) :
    n.Between low' mid ∧ ∀ m ∈ found.inner ++ found.outer, m.Between low' mid := by
  refine ⟨hn.mono (Nat.le_refl _) h.le, fun m hm => (h.between m hm).mono ?_ (Nat.le_refl _)⟩
  exact Nat.le_trans hn.1 (Nat.le_trans (Nat.le_of_lt hn.2.1) hn.2.2)

/-- An outer attribute in front. -/
theorem cons_outer (h : found.Standing low mid high) {low' : Nat} (hn : n.Between low' low) :
    { found with outer := n :: found.outer : Lead }.Standing low' mid high := by
  obtain ⟨hfirst, hothers⟩ := h.between_cons hn
  refine ⟨fun m hm => ?_, List.pairwise_cons.mpr ⟨fun m hm => ?_, h.apart⟩, ?_,
    Nat.le_trans hfirst.1 (Nat.le_trans (Nat.le_of_lt hfirst.2.1) hfirst.2.2), h.rest⟩
  · rcases List.mem_append.mp hm with hm | hm
    · exact hothers m (List.mem_append_left _ hm)
    · rcases List.mem_cons.mp hm with rfl | hm
      · exact hfirst
      · exact hothers m (List.mem_append_right _ hm)
  · exact Nat.le_trans hn.2.2 (h.between m (List.mem_append_right _ hm)).1
  · rw [List.map_append, List.map_cons, List.perm_middle.nodup_iff, ← List.map_append]
    exact h.nodup_cons hn

/-- An inner attribute in front. -/
theorem cons_inner (h : found.Standing low mid high) {low' : Nat} (hn : n.Between low' low) :
    { found with inner := n :: found.inner : Lead }.Standing low' mid high := by
  obtain ⟨hfirst, hothers⟩ := h.between_cons hn
  exact ⟨List.forall_mem_cons.mpr ⟨hfirst, hothers⟩, h.apart, h.nodup_cons hn,
    Nat.le_trans hfirst.1 (Nat.le_trans (Nat.le_of_lt hfirst.2.1) hfirst.2.2), h.rest⟩

/-- Where something starts with its outer attributes counted. -/
theorem start (h : found.Standing low mid high) {place : Nat} (hplace : mid ≤ place) :
    low ≤ (found.outer.head?.map Node.start).getD place ∧
      (found.outer.head?.map Node.start).getD place ≤ place ∧
      ∀ m ∈ found.outer, (found.outer.head?.map Node.start).getD place ≤ m.start := by
  have hle := h.le
  cases houter : found.outer with
  | nil => exact ⟨Nat.le_trans hle hplace, Nat.le_refl _, List.forall_mem_nil _⟩
  | cons first outer =>
    have hbetween := h.between
    have hapart := h.apart
    rw [houter, List.forall_mem_append, List.forall_mem_cons] at hbetween
    rw [houter] at hapart
    obtain ⟨-, ⟨hfirst, hlt, hstop⟩, -⟩ := hbetween
    refine ⟨hfirst, ?_, List.forall_mem_cons.mpr ⟨Nat.le_refl _, fun m hm => ?_⟩⟩
    · show first.start ≤ place
      omega
    · exact Nat.le_trans (Nat.le_of_lt hlt) ((List.pairwise_cons.mp hapart).1 m hm)

end Lead.Standing

/-- The trees of an attribute are solid, so its node covers some text. -/
theorem between_node {hash opener closer : Token} {trees rest : List TokenTree} {low high : Nat}
    (inner : Bool) (hlow : low ≤ hash.start) (hhash : hash.start < hash.stop)
    (h : Row (.group opener trees closer :: rest) hash.stop high) :
    (node hash.start inner trees closer).Between low closer.stop :=
  ⟨hlow, Nat.lt_of_lt_of_le hhash (Nat.le_trans h.1 (Nat.le_of_lt h.2.1.lt)), Nat.le_refl _⟩

/-- **The attributes in front of a row stand in a first part of it.** -/
theorem standing_lead {trees : List TokenTree} {low high : Nat} (h : Row trees low high) :
    ∃ mid, (lead trees).Standing low mid high := by
  fun_induction lead trees generalizing low with
  | case1 hash opener inner closer rest _ following =>
    rename_i ih
    obtain ⟨hlow, hhash, hgroup⟩ := h
    obtain ⟨mid, hmid⟩ := ih hgroup.2.2
    exact ⟨mid, hmid.cons_outer (between_node false hlow hhash hgroup)⟩
  | case3 hash bang opener inner closer rest _ following =>
    rename_i ih
    obtain ⟨hlow, hhash, hbang, hsolid, hgroup⟩ := h
    obtain ⟨mid, hmid⟩ := ih hgroup.2.2
    refine ⟨mid, hmid.cons_inner (between_node true hlow hhash (hgroup.mono ?_ (Nat.le_refl _)))⟩
    exact Nat.le_trans hbang (Nat.le_of_lt hsolid)
  | case2 | case4 | case5 =>
    exact ⟨low, List.forall_mem_nil _, .nil, List.nodup_nil, Nat.le_refl low, h⟩

/-- The tokens of an attribute stand in the text that its node covers. -/
theorem covers_node {hash opener closer : Token} (first : List TokenTree)
    {rest trees : List TokenTree} {low high : Nat} (inner : Bool) (h : Row (.leaf hash :: first ++ .group opener trees closer :: rest) low high) :
    ∀ t ∈ flattenAll (.leaf hash :: first ++ [.group opener trees closer]),
      (node hash.start inner trees closer).Covers t := by
  rw [List.append_cons] at h
  obtain ⟨mid, hattribute, -⟩ := row_append.mp h
  obtain ⟨⟨-, hhash, hfirst⟩, -⟩ := hattribute.upto List.getLast?_concat
  have hrow : Row (.leaf hash :: (first ++ [.group opener trees closer])) hash.start closer.stop :=
    ⟨Nat.le_refl _, hhash, hfirst⟩
  exact fun t ht => ⟨(hrow.bounds t ht).1, (hrow.bounds t ht).2.2⟩

/-- Every token in front of what follows the attributes stands in one of them. -/
theorem covers_of_lead {trees : List TokenTree} {low high : Nat} (h : Row trees low high) :
    ∀ t ∈ flattenAll trees, t ∈ flattenAll (lead trees).rest ∨
      ∃ n ∈ (lead trees).inner ++ (lead trees).outer, n.Covers t := by
  fun_induction lead trees generalizing low with
  | case1 hash opener inner closer rest _ following =>
    rename_i ih
    intro t ht
    rw [show TokenTree.leaf hash :: .group opener inner closer :: rest =
      [.leaf hash, .group opener inner closer] ++ rest from rfl, TokenTree.flattenAll_append] at ht
    rcases List.mem_append.mp ht with ht | ht
    · exact .inr ⟨_, List.mem_append_right _ List.mem_cons_self,
        covers_node [] false h t ht⟩
    · obtain hrest | ⟨n, hn, hcovers⟩ := ih h.2.2.2.2 t ht
      · exact .inl hrest
      refine .inr ⟨n, ?_, hcovers⟩
      exact (List.mem_append.mp hn).elim (List.mem_append_left _)
        fun hn => List.mem_append_right _ (List.mem_cons_of_mem _ hn)
  | case3 hash bang opener inner closer rest _ following =>
    rename_i ih
    intro t ht
    rw [show TokenTree.leaf hash :: .leaf bang :: .group opener inner closer :: rest =
      [.leaf hash, .leaf bang, .group opener inner closer] ++ rest from rfl,
      TokenTree.flattenAll_append] at ht
    rcases List.mem_append.mp ht with ht | ht
    · exact .inr ⟨_, List.mem_cons_self, covers_node [.leaf bang] true h t ht⟩
    · obtain hrest | ⟨n, hn, hcovers⟩ := ih h.2.2.2.2.2.2 t ht
      · exact .inl hrest
      · exact .inr ⟨n, List.mem_cons_of_mem _ hn, hcovers⟩
  | case2 | case4 | case5 => exact fun t ht => .inl ht

end Attribute

/-! ### Entries -/

namespace Entry

/-- The trees of the entry stand in a row; a comma behind it stands in front of the end of the list. -/
structure Standing (entry : Entry) (low high : Nat) : Prop where
  le_before : low ≤ entry.before
  row : Row entry.trees entry.before entry.stop
  stop_le : entry.stop ≤ high
  comma : entry.comma = true → entry.stop < high

theorem Standing.mono {entry : Entry} {low low' high : Nat} (h : entry.Standing low high)
    (hlow : low' ≤ low) : entry.Standing low' high :=
  ⟨Nat.le_trans hlow h.le_before, h.row, h.stop_le, h.comma⟩

/-- **The entries of a row stand one behind the other**, with a comma between them. -/
theorem standing_divide {before stop : Nat} (angle : Nat) (taken : List TokenTree) {trees : List TokenTree}
    (h : Row (taken.reverse ++ trees) before stop) :
    (∀ entry ∈ divide before stop angle taken trees, entry.Standing before stop) ∧
      (divide before stop angle taken trees).Pairwise fun a b => a.stop < b.before := by
  fun_induction divide before stop angle taken trees with
  | case1 => exact ⟨List.forall_mem_nil _, .nil⟩
  | case2 before angle taken _ =>
    rw [List.append_nil] at h
    exact ⟨List.forall_mem_singleton.mpr ⟨Nat.le_refl _, h, Nat.le_refl _, fun hcomma => absurd hcomma Bool.false_ne_true⟩,
      List.pairwise_singleton _ _⟩
  | case3 before angle taken tree rest _ ih =>
    obtain ⟨mid, htaken, hmid, hsolid, hrest⟩ := row_append.mp h
    obtain ⟨hall, hapart⟩ := ih hrest
    have hlt := hsolid.lt
    have hle := hrest.le
    have hbefore := htaken.le
    have hfirst : (Entry.mk before taken.reverse tree.start true).Standing before stop :=
      ⟨Nat.le_refl _, htaken.mono (Nat.le_refl _) hmid, Nat.le_of_lt (Nat.lt_of_lt_of_le hlt hle),
        fun _ => Nat.lt_of_lt_of_le hlt hle⟩
    refine ⟨List.forall_mem_cons.mpr ⟨hfirst, fun entry hentry => (hall entry hentry).mono ?_⟩,
      List.pairwise_cons.mpr ⟨fun entry hentry => ?_, hapart⟩⟩
    · omega
    · exact Nat.lt_of_lt_of_le hlt (hall entry hentry).le_before
  | case4 before angle taken tree rest _ ih =>
    refine ih ?_
    rwa [List.reverse_cons, List.append_assoc, List.singleton_append]

end Entry

end ContractSync.Rust
