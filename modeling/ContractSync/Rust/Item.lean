import ContractSync.Rust.Entry

/-!
# The head of an item

`Item.read` takes one item from the start of a sequence of token trees: its kind, its name and the
group that is its body. What the body holds is read afterwards, as fields, variants or further items;
`read_isTaken` says that the body stands among the trees and that the rest is what follows, so both are
smaller than what the item was read from.
-/

namespace ContractSync.Rust

/-- A group with its delimiters. -/
structure Group where
  opener : Token
  inner : List TokenTree
  closer : Token
  deriving Repr

namespace Group

/-- The group as a tree. -/
def tree (b : Group) : TokenTree := .group b.opener b.inner b.closer

/-- The positions of the delimiters. -/
def span (b : Group) : Span := ⟨b.opener.start, b.closer.start⟩

/-- The entries of the list that the group holds. -/
def entries (b : Group) : List Entry := Entry.ofGroup b.opener b.inner b.closer

/-- The group stands between parentheses. -/
def isTuple (b : Group) : Bool := b.opener.isPunct "("

/-- The group starts where the body of an item may start. -/
def isBody (b : Group) : Bool := ["(", "\x7b", ";"].any b.opener.isPunct

end Group

/-- An item whose body is still to be read. -/
structure Item where
  kind : ItemKind
  name : Option String := none
  body : Option Group := none
  /-- Where the item ends. -/
  stop : Nat
  /-- What follows the item. -/
  rest : List TokenTree

namespace Item

open TokenTree (sizeAll)

/-! ### What an item holds -/

/-- The fields of a struct, the variants of an enum. -/
def members (item : Item) : Except Failure (List Node) :=
  match item.kind, item.body with
  | .struct_, some body =>
    if body.isTuple then .ok (Entry.tupleFields 0 body.entries)
    else Entry.nodes Entry.recordField body.entries
  | .enum_, some body => Entry.nodes Entry.variant body.entries
  | _, _ => .ok []

/-- The item holds further items. -/
def isBlock (item : Item) : Bool :=
  item.kind == .module || item.kind == .trait_ || item.kind == .impl

/-- The trees of the items it holds. -/
def inside (item : Item) : List TokenTree :=
  if item.isBlock then (item.body.map Group.inner).getD [] else []

/-- Where the trees inside end. -/
def insideStop (item : Item) : Nat := (item.body.map fun body => body.closer.start).getD 0

/-! ### Scanning -/

/-- What follows the generic parameters, whose brackets are open to the depth given. -/
def closeAngles (stop depth : Nat) : List TokenTree → Except Failure (List TokenTree)
  | [] => .error ⟨.unterminatedGenerics, stop⟩
  | tree :: rest =>
    if tree.isPunct "<" then closeAngles stop (depth + 1) rest
    else if tree.isPunct ">" then
      if depth ≤ 1 then .ok rest else closeAngles stop (depth - 1) rest
    else closeAngles stop depth rest

/-- What follows the generic parameters, if there are any. -/
def skipGenerics (stop : Nat) : List TokenTree → Except Failure (List TokenTree)
  | [] => .ok []
  | tree :: rest => if tree.isPunct "<" then closeAngles stop 1 rest else .ok (tree :: rest)

/-- The first tree that is or starts with one of the marks, and what follows it. -/
def scanTo (stop : Nat) (marks : List String) :
    List TokenTree → Except Failure (TokenTree × List TokenTree)
  | [] => .error ⟨.expectedOneOf marks, stop⟩
  | tree :: rest => if marks.any tree.isPunct then .ok (tree, rest) else scanTo stop marks rest

/-- The name at the start of the trees. -/
def nameAt (stop : Nat) (what : Named) : List TokenTree → Except Failure String
  | [] => .error ⟨.unexpectedEnd, stop⟩
  | .leaf t :: _ => if t.kind = .ident then .ok t.text else .error ⟨.expectedName what, t.start⟩
  | .group opener _ _ :: _ => .error ⟨.expectedName what, opener.start⟩

/-- The words that may stand in front of an item's keyword. -/
def qualifiers : List String := ["const", "async", "unsafe", "extern", "default"]

/-- `const` and `default` are qualifiers only in front of another qualifier or one of these. -/
def qualified : List String := qualifiers ++ ["fn", "impl", "trait", "unsafe"]

/-- The word is a qualifier, given what follows it. -/
def isQualifier (t : Token) (rest : List TokenTree) : Bool :=
  t.kind == .ident && qualifiers.contains t.text
    && (!(t.text == "const" || t.text == "default")
      || rest.isEmpty || rest.head?.any fun tree => qualified.contains tree.head.text)

/-- The trees without the qualifiers in front; `extern` may have a literal behind it. -/
def skipQualifiers : List TokenTree → List TokenTree
  | .leaf t :: .leaf u :: rest =>
    if isQualifier t (.leaf u :: rest) then
      if t.text = "extern" ∧ u.kind = .literal then skipQualifiers rest
      else skipQualifiers (.leaf u :: rest)
    else .leaf t :: .leaf u :: rest
  | .leaf t :: rest => if isQualifier t rest then rest else .leaf t :: rest
  | trees => trees

/-- The end of an item that is not described further, and what follows: it goes up to a semicolon or
a group in braces with the semicolon behind it, or to `last`, where the trees end. -/
def skipOther (last : Nat) : List TokenTree → Nat × List TokenTree
  | [] => (last, [])
  | tree :: rest =>
    if tree.isPunct ";" then (tree.stop, rest)
    else if tree.isPunct "\x7b" then
      match rest with
      | next :: more => if next.isPunct ";" then (next.stop, more) else (tree.stop, rest)
      | [] => (tree.stop, rest)
    else skipOther last rest

/-! ### Items by keyword -/

/-- The item that ends where the scan stopped, at its body or at a semicolon. -/
def ofScan (kind : ItemKind) (name : Option String) : TokenTree × List TokenTree → Item
  | (.leaf last, rest) => { kind, name, stop := last.stop, rest }
  | (.group opener inner closer, rest) =>
    { kind, name, body := some ⟨opener, inner, closer⟩, stop := closer.stop, rest }

/-- The group in parentheses at the start of the trees. -/
def tupleBody? : List TokenTree → Option Group
  | .group opener inner closer :: _ =>
    if opener.isPunct "(" then some ⟨opener, inner, closer⟩ else none
  | _ => none

/-- A struct, from its keyword on. -/
def readStruct (stop : Nat) (trees : List TokenTree) : Except Failure Item := do
  let name ← nameAt stop .struct_ trees.tail
  let rest ← skipGenerics stop trees.tail.tail
  match tupleBody? rest with
  | some body =>
    let (last, rest) ← scanTo stop [";"] rest.tail
    return { kind := .struct_, name, body := some body, stop := last.stop, rest }
  | none => return ofScan .struct_ name (← scanTo stop ["\x7b", ";"] rest)

/-- An enum, from its keyword on. -/
def readEnum (stop : Nat) (trees : List TokenTree) : Except Failure Item := do
  let name ← nameAt stop .enum_ trees.tail
  let rest ← skipGenerics stop trees.tail.tail
  return ofScan .enum_ name (← scanTo stop ["\x7b"] rest)

/-- A function, from its keyword on; what its body holds is not read. -/
def readFunction (stop : Nat) (trees : List TokenTree) : Except Failure Item := do
  let name ← nameAt stop .function trees.tail
  return ofScan .function name (← scanTo stop ["\x7b", ";"] trees.tail.tail)

/-- A module, a trait or an implementation block, from behind its keyword on. -/
def readBlock (stop : Nat) (kind : ItemKind) (name : Option String) (trees : List TokenTree) :
    Except Failure Item := do
  return ofScan kind name (← scanTo stop ["\x7b", ";"] trees)

/-- An item that ends with a semicolon, from its keyword on. -/
def readLine (stop : Nat) (kind : ItemKind) (name : Option String) (trees : List TokenTree) :
    Except Failure Item := do
  let (last, rest) ← scanTo stop [";"] trees
  return { kind, name, stop := last.stop, rest }

/-- The name of a type alias: the identifier behind the keyword `type`. -/
def aliasName? : List TokenTree → Option String
  | _ :: .leaf t :: _ => if t.kind = .ident then some t.text else none
  | _ => none

/-- The word that says what kind of item the trees are. -/
def keyword (trees : List TokenTree) : String :=
  (trees.head?.map fun tree => tree.head.text).getD ""

/-- The item whose visibility and qualifiers are read, from its keyword on. `last` is the end of the
last tree. -/
def readKeyword (stop last : Nat) (trees : List TokenTree) : Except Failure Item :=
  if keyword trees = "struct" ∨ keyword trees = "union" then readStruct stop trees
  else if keyword trees = "enum" then readEnum stop trees
  else if keyword trees = "fn" then readFunction stop trees
  else if keyword trees = "mod" then do
    readBlock stop .module (some (← nameAt stop .module trees.tail)) trees.tail
  else if keyword trees = "trait" then do
    readBlock stop .trait_ (some (← nameAt stop .trait_ trees.tail)) trees.tail
  else if keyword trees = "impl" then readBlock stop .impl none trees.tail
  else if keyword trees = "type" ∧ (aliasName? trees).isSome then
    readLine stop .typeAlias (aliasName? trees) trees
  else if keyword trees = "use" then readLine stop .use none trees
  else
    let (itemStop, rest) := skipOther last trees
    .ok { kind := .other, stop := itemStop, rest }

/-- The item at the start of the trees, whose attributes are read. -/
def read (stop : Nat) (trees : List TokenTree) : Except Failure Item :=
  readKeyword stop ((trees.getLast?.map TokenTree.stop).getD stop)
    (skipQualifiers (Entry.dropVisibility trees))

/-! ### What is handed on -/

theorem closeAngles_suffix {stop depth : Nat} {trees rest : List TokenTree}
    (h : closeAngles stop depth trees = .ok rest) : rest <:+ trees := by
  fun_induction closeAngles stop depth trees with
  | case1 => simp at h
  | case2 depth tree more _ ih | case4 depth tree more _ _ _ ih | case5 depth tree more _ _ ih =>
    exact (ih h).trans (List.suffix_cons ..)
  | case3 depth tree more => simp only [Except.ok.injEq] at h; exact h ▸ List.suffix_cons ..

theorem skipGenerics_suffix {stop : Nat} {trees rest : List TokenTree}
    (h : skipGenerics stop trees = .ok rest) : rest <:+ trees := by
  unfold skipGenerics at h
  split at h
  · simp only [Except.ok.injEq] at h; exact h ▸ List.suffix_refl _
  · split at h
    · exact (closeAngles_suffix h).trans (List.suffix_cons ..)
    · simp only [Except.ok.injEq] at h; exact h ▸ List.suffix_refl _

theorem scanTo_suffix {stop : Nat} {marks : List String} {trees rest : List TokenTree}
    {tree : TokenTree} (h : scanTo stop marks trees = .ok (tree, rest)) : tree :: rest <:+ trees := by
  fun_induction scanTo stop marks trees with
  | case1 => simp at h
  | case2 head more =>
    simp only [Except.ok.injEq, Prod.mk.injEq] at h
    obtain ⟨rfl, rfl⟩ := h
    exact List.suffix_refl _
  | case3 head more _ ih => exact (ih h).trans (List.suffix_cons ..)

/-- What is found is one of the marks. -/
theorem scanTo_mark {stop : Nat} {marks : List String} {trees rest : List TokenTree}
    {tree : TokenTree} (h : scanTo stop marks trees = .ok (tree, rest)) :
    marks.any tree.isPunct = true := by
  fun_induction scanTo stop marks trees with
  | case1 => simp at h
  | case2 head more hany =>
    simp only [Except.ok.injEq, Prod.mk.injEq] at h
    exact h.1 ▸ hany
  | case3 head more _ ih => exact ih h

theorem dropVisibility_suffix (trees : List TokenTree) : Entry.dropVisibility trees <:+ trees := by
  unfold Entry.dropVisibility
  split
  · rename_i t opener inner closer rest
    split
    · split
      · exact ⟨[.leaf t, .group opener inner closer], rfl⟩
      · exact List.suffix_cons ..
    · exact List.suffix_refl _
  · split
    · exact List.suffix_cons ..
    · exact List.suffix_refl _
  · exact List.suffix_refl _

theorem skipQualifiers_suffix (trees : List TokenTree) : skipQualifiers trees <:+ trees := by
  fun_induction skipQualifiers trees with
  | case1 t u rest _ _ ih => exact ih.trans ⟨[.leaf t, .leaf u], rfl⟩
  | case2 t u rest _ _ ih => exact ih.trans (List.suffix_cons ..)
  | case4 t rest => exact List.suffix_cons ..
  | case3 | case5 | case6 => exact List.suffix_refl _

theorem skipOther_suffix (last : Nat) (trees : List TokenTree) :
    (skipOther last trees).2 <:+ trees := by
  fun_induction skipOther last trees with
  | case1 => exact List.suffix_refl _
  | case2 tree rest | case4 tree _ _ next more | case5 tree => exact List.suffix_cons ..
  | case3 tree _ _ next more => exact ⟨[tree, next], rfl⟩
  | case6 tree rest _ _ ih => exact ih.trans (List.suffix_cons ..)

theorem tail_suffix (trees : List TokenTree) : trees.tail <:+ trees := List.tail_suffix trees

/-- The item is read from a first part of the trees, where its body stands, and hands on the rest. -/
def IsTaken (item : Item) (trees : List TokenTree) : Prop :=
  ∃ front, front ≠ [] ∧ trees = front ++ item.rest ∧
    ∀ body ∈ item.body, body.tree ∈ front ∧ body.isBody = true

theorem IsTaken.mono {item : Item} {a b : List TokenTree} (h : IsTaken item a) (hs : a <:+ b) :
    IsTaken item b := by
  obtain ⟨front, hne, rfl, hbody⟩ := h
  obtain ⟨more, rfl⟩ := hs
  refine ⟨more ++ front, by simp [hne], (List.append_assoc ..).symm, fun body h => ?_⟩
  exact ⟨List.mem_append_right _ (hbody body h).1, (hbody body h).2⟩

theorem IsTaken.rest_suffix {item : Item} {trees : List TokenTree} (h : IsTaken item trees) :
    item.rest <:+ trees := by
  obtain ⟨front, -, h, -⟩ := h
  exact ⟨front, h.symm⟩

/-- An item that ends with a tree which is its body, or has none. -/
theorem IsTaken.of_suffix {item : Item} {tree : TokenTree} {trees : List TokenTree}
    (hs : tree :: item.rest <:+ trees)
    (hbody : ∀ body ∈ item.body, body.tree = tree ∧ body.isBody = true) :
    IsTaken item trees := by
  obtain ⟨front, rfl⟩ := hs
  refine ⟨front ++ [tree], by simp, by simp, fun body h => ⟨?_, (hbody body h).2⟩⟩
  rw [(hbody body h).1]
  exact List.mem_append_right _ (List.mem_singleton_self tree)

theorem ofScan_isTaken {stop : Nat} {marks : List String} {trees : List TokenTree}
    {found : TokenTree × List TokenTree} {kind : ItemKind} {name : Option String}
    (h : scanTo stop marks trees = .ok found) (hmarks : marks ⊆ ["(", "\x7b", ";"]) :
    IsTaken (ofScan kind name found) trees := by
  obtain ⟨tree, rest⟩ := found
  have hsuffix := scanTo_suffix h
  cases tree with
  | leaf last => exact .of_suffix hsuffix nofun
  | group opener inner closer =>
    refine .of_suffix hsuffix fun body hbody => ?_
    cases hbody
    obtain ⟨mark, hmark, hany⟩ := List.any_eq_true.mp (scanTo_mark h)
    exact ⟨rfl, List.any_eq_true.mpr ⟨mark, hmarks hmark, hany⟩⟩

theorem tupleBody?_eq_some {trees : List TokenTree} {body : Group}
    (h : tupleBody? trees = some body) :
    ∃ rest, trees = body.tree :: rest ∧ body.isTuple = true := by
  unfold tupleBody? at h
  split at h
  · split at h
    · rename_i htuple
      cases h
      exact ⟨_, rfl, htuple⟩
    · cases h
  · cases h

theorem readStruct_isTaken {stop : Nat} {trees : List TokenTree} {item : Item}
    (h : readStruct stop trees = .ok item) : IsTaken item trees := by
  simp only [readStruct, bind, Except.bind, pure, Except.pure] at h
  split at h
  · cases h
  split at h
  · cases h
  rename_i rest hgen
  have hrest : rest <:+ trees :=
    (skipGenerics_suffix hgen).trans ((tail_suffix _).trans (tail_suffix _))
  split at h
  · rename_i body htuple
    split at h
    · cases h
    rename_i found hscan
    cases h
    obtain ⟨behind, rfl, hopen⟩ := tupleBody?_eq_some htuple
    obtain ⟨between, hbetween⟩ := scanTo_suffix hscan
    rw [List.tail_cons] at hbetween
    refine IsTaken.mono ⟨body.tree :: (between ++ [found.1]), by simp, by simp [← hbetween], ?_⟩ hrest
    intro _ hbody
    cases hbody
    exact ⟨List.mem_cons_self, List.any_eq_true.mpr ⟨"(", by decide, hopen⟩⟩
  · split at h
    · cases h
    rename_i found hscan
    cases h
    exact (ofScan_isTaken hscan (by decide)).mono hrest

theorem readEnum_isTaken {stop : Nat} {trees : List TokenTree} {item : Item}
    (h : readEnum stop trees = .ok item) : IsTaken item trees := by
  simp only [readEnum, bind, Except.bind, pure, Except.pure] at h
  split at h
  · cases h
  split at h
  · cases h
  rename_i rest hgen
  split at h
  · cases h
  rename_i found hscan
  cases h
  exact (ofScan_isTaken hscan (by decide)).mono
    ((skipGenerics_suffix hgen).trans ((tail_suffix _).trans (tail_suffix _)))

theorem readFunction_isTaken {stop : Nat} {trees : List TokenTree} {item : Item}
    (h : readFunction stop trees = .ok item) : IsTaken item trees := by
  simp only [readFunction, bind, Except.bind, pure, Except.pure] at h
  split at h
  · cases h
  split at h
  · cases h
  rename_i found hscan
  cases h
  exact (ofScan_isTaken hscan (by decide)).mono ((tail_suffix _).trans (tail_suffix _))

theorem readBlock_isTaken {stop : Nat} {kind : ItemKind} {name : Option String}
    {trees : List TokenTree} {item : Item} (h : readBlock stop kind name trees = .ok item) :
    IsTaken item trees := by
  simp only [readBlock, bind, Except.bind, pure, Except.pure] at h
  split at h
  · cases h
  rename_i found hscan
  cases h
  exact ofScan_isTaken hscan (by decide)

theorem readLine_isTaken {stop : Nat} {kind : ItemKind} {name : Option String}
    {trees : List TokenTree} {item : Item} (h : readLine stop kind name trees = .ok item) :
    IsTaken item trees := by
  simp only [readLine, bind, Except.bind, pure, Except.pure] at h
  split at h
  · cases h
  rename_i found hscan
  cases h
  exact .of_suffix (scanTo_suffix hscan) nofun

theorem skipOther_cons_suffix (last : Nat) (tree : TokenTree) (rest : List TokenTree) :
    (skipOther last (tree :: rest)).2 <:+ rest := by
  unfold skipOther
  split
  · exact List.suffix_refl _
  · split
    · split
      · split
        · exact List.suffix_cons ..
        · exact List.suffix_refl _
      · exact List.suffix_refl _
    · exact skipOther_suffix last rest

theorem readKeyword_isTaken {stop last : Nat} {trees whole : List TokenTree} {item : Item}
    (h : readKeyword stop last trees = .ok item) (hs : trees <:+ whole) (hne : whole ≠ []) :
    IsTaken item whole := by
  simp only [readKeyword] at h
  split at h
  · exact (readStruct_isTaken h).mono hs
  split at h
  · exact (readEnum_isTaken h).mono hs
  split at h
  · exact (readFunction_isTaken h).mono hs
  split at h
  · simp only [bind, Except.bind] at h
    split at h
    · simp at h
    · exact (readBlock_isTaken h).mono ((tail_suffix _).trans hs)
  split at h
  · simp only [bind, Except.bind] at h
    split at h
    · simp at h
    · exact (readBlock_isTaken h).mono ((tail_suffix _).trans hs)
  split at h
  · exact (readBlock_isTaken h).mono ((tail_suffix _).trans hs)
  split at h
  · exact (readLine_isTaken h).mono hs
  split at h
  · exact (readLine_isTaken h).mono hs
  · simp only [Except.ok.injEq] at h
    subst h
    cases trees with
    | nil => exact ⟨whole, hne, (List.append_nil _).symm, nofun⟩
    | cons tree rest =>
      obtain ⟨front, hfront⟩ := skipOther_cons_suffix last tree rest
      exact IsTaken.mono ⟨tree :: front, by simp, by simp [hfront], nofun⟩ hs

/-- An item is taken from the trees it is read from. -/
theorem read_isTaken {stop : Nat} {trees : List TokenTree} {item : Item}
    (h : read stop trees = .ok item) (hne : trees ≠ []) : IsTaken item trees :=
  readKeyword_isTaken h ((skipQualifiers_suffix _).trans (dropVisibility_suffix _)) hne

/-! ### What is handed on is smaller -/

theorem sizeAll_append (a b : List TokenTree) : sizeAll (a ++ b) = sizeAll a + sizeAll b := by
  induction a with
  | nil => exact (Nat.zero_add _).symm
  | cons tree a ih => rw [List.cons_append, sizeAll, sizeAll, ih, Nat.add_assoc]

theorem size_pos (tree : TokenTree) : 0 < tree.size := by
  cases tree <;> simp [TokenTree.size]

theorem sizeAll_pos {trees : List TokenTree} (h : trees ≠ []) : 0 < sizeAll trees := by
  cases trees with
  | nil => exact absurd rfl h
  | cons tree rest => exact Nat.lt_of_lt_of_le (size_pos tree) (Nat.le_add_right _ _)

theorem size_le_sizeAll {tree : TokenTree} {trees : List TokenTree} (h : tree ∈ trees) :
    tree.size ≤ sizeAll trees := by
  obtain ⟨before, behind, rfl⟩ := List.append_of_mem h
  rw [sizeAll_append, sizeAll]
  omega

theorem sizeAll_le_of_suffix {a b : List TokenTree} (h : a <:+ b) : sizeAll a ≤ sizeAll b := by
  obtain ⟨front, rfl⟩ := h
  rw [sizeAll_append]
  exact Nat.le_add_left _ _

theorem IsTaken.sizeAll_rest_lt {item : Item} {trees : List TokenTree} (h : IsTaken item trees) :
    sizeAll item.rest < sizeAll trees := by
  obtain ⟨front, hne, rfl, -⟩ := h
  rw [sizeAll_append]
  have := sizeAll_pos hne
  omega

theorem IsTaken.sizeAll_inside_lt {item : Item} {trees : List TokenTree} (h : IsTaken item trees) :
    sizeAll item.inside < sizeAll trees := by
  obtain ⟨front, hne, rfl, hbody⟩ := h
  rw [sizeAll_append]
  have hpos := sizeAll_pos hne
  unfold inside
  split
  · cases hitem : item.body with
    | none => exact Nat.lt_of_lt_of_le hpos (Nat.le_add_right _ _)
    | some body =>
      have hle := size_le_sizeAll (hbody body hitem).1
      rw [Group.tree, TokenTree.size] at hle
      show sizeAll body.inner < _
      omega
  · exact Nat.lt_of_lt_of_le hpos (Nat.le_add_right _ _)

end Item

end ContractSync.Rust
