import ContractSync.Proofs.Edit.Retype
import ContractSync.Proofs.Rust.RecordPlace
import ContractSync.Sync.Retype
import Mathlib.Data.List.Flatten

/-!
# The order of overrides

What an override replaces is found in the text as it is when its turn comes. A type that is replaced moves the
types behind it, but neither the names that a target is looked up by nor the brace that opens its body are
touched: **an override has the same target, moved, whatever was replaced before it** (`CanApply.step`), or has
none, before and after. The types of two targets have no character in common (`Rust.types_apart`), so two
overrides can be applied in any order (`CanApply.swap`), and with them a whole table
(`retypeFields_reordered`).
-/

namespace ContractSync.Rust

variable {s t : Span}

/-! ### Parts that are apart -/

/-- What stands in front of a part that is replaced stays. -/
theorem Span.move_before (hs : s.start < s.stop) (ht : t.start < t.stop) (h : t.stop ≤ s.start) (length : Nat) :
    t.move (s.replaced length) = t := by
  rw [move, replaced_before (by omega), replaced_before (by omega)]

/-- What stands behind a part that is replaced goes with its end. -/
theorem Span.move_behind (ht : t.start < t.stop) (h : s.stop ≤ t.start) (length : Nat) :
    t.move (s.replaced length) =
      ⟨s.start + length + (t.start - s.stop), s.start + length + (t.stop - s.stop)⟩ := by
  rw [move, replaced, if_neg (by omega), replaced, if_neg (by omega)]

/-- Parts that are apart can be replaced in any order, each where it stands when its turn comes. -/
theorem splice_apart {cs : List Char} (a b : List Char) (hs : s.start < s.stop) (ht : t.start < t.stop)
    (hsle : s.stop ≤ cs.length) (htle : t.stop ≤ cs.length) (h : s.stop ≤ t.start ∨ t.stop ≤ s.start) :
    Text.splice (Text.splice cs s.start s.stop a) (t.move (s.replaced a.length)).start
        (t.move (s.replaced a.length)).stop b =
      Text.splice (Text.splice cs t.start t.stop b) (s.move (t.replaced b.length)).start
        (s.move (t.replaced b.length)).stop a := by
  rcases h with h | h
  · rw [Span.move_behind ht h, Span.move_before ht hs h]
    exact Text.splice_comm a b (Nat.le_of_lt hs) h (Nat.le_of_lt ht) htle
  · rw [Span.move_before hs ht h, Span.move_behind hs h]
    exact (Text.splice_comm b a (Nat.le_of_lt ht) h (Nat.le_of_lt hs) hsle).symm

/-- A character outside of a part is still there when the part is replaced. -/
theorem getElem?_splice_replaced {cs : List Char} (new : List Char) {i : Nat} (hs : s.start < s.stop)
    (hle : s.stop ≤ cs.length) (h : i < s.start ∨ s.stop ≤ i) :
    (Text.splice cs s.start s.stop new)[s.replaced new.length i]? = cs[i]? := by
  rcases h with h | h
  · rw [Span.replaced_before (by omega)]
    exact Text.getElem?_splice_before h (by omega)
  · rw [Span.replaced, if_neg (by omega), Text.getElem?_splice_behind (by omega)]
    congr 1
    omega

/-! ### The types of two fields -/

section Parsed

variable {source : List Char} {revision : Nat} {tree : Tree} {n m f g : Node}

/-- Two structs of a text do not overlap. -/
theorem structs_apart (h : parse source revision = .ok tree) (hn : n ∈ tree.nodes) (hm : m ∈ tree.nodes)
    (hnkind : n.itemKind? = some .struct_) (hmkind : m.itemKind? = some .struct_) (hne : n ≠ m) :
    n.stop ≤ m.start ∨ m.stop ≤ n.start := by
  obtain ⟨trees, nodes, hreads, rfl⟩ := parse_eq_ok_iff.mp h
  have hmem : ∀ {k : Node}, k ∈ Tree.nodes ⟨source, .mk .file 0 0 source.length nodes, revision⟩ →
      k.itemKind? = some .struct_ → k ∈ (Node.walkAll nodes).filter Node.isStruct := by
    intro k hk hkind
    refine List.mem_filter.mpr ⟨?_, beq_iff_eq.mpr hkind⟩
    rcases Node.mem_walk_mk.mp hk with rfl | hk
    · cases hkind
    · exact hk
  have hsymm : Std.Symm fun n m : Node => n.stop ≤ m.start ∨ m.stop ≤ n.start := ⟨fun _ _ => Or.symm⟩
  have hapart := (hreads.items.structs_apart hreads.row).imp
    (S := fun n m : Node => n.stop ≤ m.start ∨ m.stop ≤ n.start) .inl
  exact hapart.forall (hmem hn hnkind) (hmem hm hmkind) hne

/-- The fields of a record stand in its braces. -/
theorem IsRecord.stands (h : parse source revision = .ok tree) (hn : n ∈ tree.nodes)
    (hkind : n.itemKind? = some .struct_) (hrecord : IsRecord source n) :
    ∃ body, n.body? = some body ∧ source[body.start]? = some '\x7b' ∧ StandsAround n body := by
  obtain ⟨trees, nodes, hreads, rfl⟩ := parse_eq_ok_iff.mp h
  obtain ⟨body, hbody, hbrace⟩ := hrecord
  have hmem : n ∈ Node.walkAll nodes := by
    rcases Node.mem_walk_mk.mp hn with rfl | hn
    · cases hkind
    · exact hn
  refine ⟨body, hbody, hbrace, hreads.items.record_stands hreads.row (fun t ht => ?_) hmem hkind hbody hbrace⟩
  exact (Lexer.run_of_lexFrom hreads.tokens).getElem?_start ht

/-- A struct with a field is a record unless it is a tuple. -/
theorem isRecord_of_not_isTuple (h : parse source revision = .ok tree) (hn : n ∈ tree.nodes)
    (hkind : n.itemKind? = some .struct_) (htuple : ¬ IsTuple source n) (hf : f ∈ n.children)
    (htype : f.type? = some s) : IsRecord source n := by
  obtain ⟨trees, nodes, hreads, rfl⟩ := parse_eq_ok_iff.mp h
  have hmem : n ∈ Node.walkAll nodes := by
    rcases Node.mem_walk_mk.mp hn with rfl | hn
    · cases hkind
    · exact hn
  obtain ⟨body, hbody⟩ := hreads.items.exists_body hreads.row hmem hkind hf htype
  obtain ⟨b, found, front, back, rfl, hb⟩ := hreads.bodyIn hmem hkind (by decide) hbody
  have hchar := (Lexer.run_of_lexFrom hreads.tokens).getElem?_start (t := b.opener) (by
    rw [Except.ok.inj (hreads.tokens.symm.trans hb.tokens)]
    simp)
  have hopener : ∀ {mark : String}, b.opener.isPunct mark = true →
      source[b.span.start]? = mark.toList.head? := by
    intro mark hmark
    rw [Token.isPunct, Bool.and_eq_true, beq_iff_eq, beq_iff_eq] at hmark
    rw [← hmark.2]
    exact hchar
  cases hparen : b.isTuple with
  | true => exact absurd ⟨_, hbody, by rw [hopener hparen, String.toList_ofList]; rfl⟩ htuple
  | false => exact ⟨_, hbody, by rw [hopener (hb.brace hparen), String.toList_ofList]; rfl⟩

/-- **The types of different fields of records have no character in common.** -/
theorem types_apart (h : parse source revision = .ok tree) (hn : n ∈ tree.nodes) (hm : m ∈ tree.nodes)
    (hnkind : n.itemKind? = some .struct_) (hmkind : m.itemKind? = some .struct_)
    (hnrecord : IsRecord source n) (hmrecord : IsRecord source m) (hf : f ∈ n.children) (hg : g ∈ m.children)
    (hs : f.type? = some s) (ht : g.type? = some t) (hne : n ≠ m ∨ f ≠ g) :
    s.stop ≤ t.start ∨ t.stop ≤ s.start := by
  obtain ⟨body, -, -, hstands⟩ := hnrecord.stands h hn hnkind
  obtain ⟨other, -, -, hother⟩ := hmrecord.stands h hm hmkind
  by_cases hsame : n = m
  · subst hsame
    exact hstands.apart f hf g hg (hne.resolve_left (· rfl)) s t hs ht
  · have hin := hstands.types f hf s hs
    have hin' := hother.types g hg t ht
    have := hstands.start
    have := hstands.stop
    have := hother.start
    have := hother.stop
    rcases structs_apart h hn hm hnkind hmkind hsame with hbefore | hbefore
    · exact .inl (by omega)
    · exact .inr (by omega)

/-- A record is one still when the type of a field is replaced, of its own or of another one. -/
theorem IsRecord.splice (h : parse source revision = .ok tree) (hn : n ∈ tree.nodes) (hm : m ∈ tree.nodes)
    (hnkind : n.itemKind? = some .struct_) (hmkind : m.itemKind? = some .struct_)
    (hnrecord : IsRecord source n) (hmrecord : IsRecord source m) (hg : g ∈ m.children)
    (ht : g.type? = some t) (hlt : t.start < t.stop) (hle : t.stop ≤ source.length) (new : List Char) :
    IsRecord (Text.splice source t.start t.stop new) (n.move (t.replaced new.length)) := by
  obtain ⟨body, hbody, hbrace, hstands⟩ := hnrecord.stands h hn hnkind
  obtain ⟨other, hother, -, hin⟩ := hmrecord.stands h hm hmkind
  refine ⟨body.move (t.replaced new.length), by rw [← Node.carry_same, Node.body?_carry, hbody]; rfl, ?_⟩
  rw [← hbrace]
  refine getElem?_splice_replaced new hlt hle ?_
  have htype := hin.types g hg t ht
  by_cases hsame : n = m
  · subst hsame
    obtain rfl := Option.some.inj (hbody.symm.trans hother)
    exact .inl htype.1
  · have := hstands.start
    have := hstands.solid
    have := hstands.stop
    have := hin.start
    have := hin.stop
    rcases structs_apart h hn hm hnkind hmkind hsame with hbefore | hbefore
    · exact .inl (by omega)
    · exact .inr (by omega)

end Parsed

/-! ### Names that are found -/

/-- One declaration is found under one name. -/
theorem Tree.bare_eq_of_find? {tree : Tree} {name other : String} {kinds : List ItemKind} {n : Node}
    (h : tree.find? name kinds = some n) (hother : tree.find? other kinds = some n) :
    Name.bare name = Name.bare other := by
  have hnamed : ∀ {name : String}, tree.find? name kinds = some n → ∃ x, n.name? = some x ∧
      Name.bare x = Name.bare name := by
    intro name h
    have hfound : (n.itemKind?.any kinds.contains && isNamed name n) = true := by
      rw [find?, findWhere?, Option.orElse_eq_or, Option.or_eq_some_iff] at h
      rcases h with h | ⟨-, h⟩
      · have hsome := List.find?_some h
        exact hsome
      · have hsome := List.find?_some h
        exact hsome
    obtain ⟨x, hx, hname⟩ := (Option.any_eq_true ..).mp (Bool.and_eq_true_iff.mp hfound).2
    exact ⟨x, hx, beq_iff_eq.mp hname⟩
  obtain ⟨x, hx, hname⟩ := hnamed h
  obtain ⟨y, hy, hname'⟩ := hnamed hother
  obtain rfl := Option.some.inj (hx.symm.trans hy)
  exact hname.symm.trans hname'

/-- One field is found under one name. -/
theorem Node.bare_eq_of_field? {n m f : Node} {name other : String} (h : n.field? name = some f)
    (hother : m.field? other = some f) : Name.bare name = Name.bare other := by
  have hnamed : ∀ {n : Node} {name : String}, n.field? name = some f → ∃ x, f.name? = some x ∧
      Name.bare x = Name.bare name := by
    intro n name h
    rw [field?] at h
    have hfound := List.find?_some h
    obtain ⟨x, hx, hname⟩ := (Option.any_eq_true ..).mp hfound
    exact ⟨x, hx, beq_iff_eq.mp hname⟩
  obtain ⟨x, hx, hname⟩ := hnamed h
  obtain ⟨y, hy, hname'⟩ := hnamed hother
  obtain rfl := Option.some.inj (hx.symm.trans hy)
  exact hname.symm.trans hname'

end ContractSync.Rust

namespace ContractSync.Sync

open Rust (IsRecord IsTuple IsTypeText Node Span Tree)

/-! ### Targets -/

/-- What an override replaces: the type of a field of a declaration. -/
structure IsTarget (tree : Tree) (o : Override) (n f : Node) (s : Span) : Prop where
  found : tree.find? o.declaration [.struct_] = some n
  field : n.field? o.field = some f
  type : f.type? = some s

/-- The part of the text that an override replaces, or what is missing. -/
def targetOf (tree : Tree) (o : Override) : Except Cause Span :=
  match tree.find? o.declaration [.struct_] with
  | none => .error (.declarationNotFound o.declaration)
  | some n =>
    match (n.field? o.field).bind Node.type? with
    | none => .error (.fieldNotFound o.declaration o.field)
    | some s => .ok s

/-- The warning about an override whose declaration or field is missing. -/
def skipWarning? (tree : Tree) (path : Option String) (o : Override) : Option String :=
  match targetOf tree o with
  | .ok _ => none
  | .error cause =>
    some ("Skipping retype of " ++ o.declaration ++ "." ++ o.field ++ ": " ++ (SyncError.mk cause path).message)

/-- The tree of the text with the type of an override, if it has a target. -/
def retypeTree (tree : Tree) (o : Override) : Tree :=
  match targetOf tree o with
  | .error _ => tree
  | .ok s => ⟨Text.splice tree.source s.start s.stop o.type.toList,
      tree.root.move (s.replaced o.type.toList.length), tree.revision⟩

section Targets

variable {tree : Tree} {o p : Override} {n m f g : Node} {s t : Span}

theorem targetOf_eq_ok : targetOf tree o = .ok s ↔ ∃ n f, IsTarget tree o n f s := by
  constructor
  · intro h
    rw [targetOf] at h
    split at h
    · cases h
    · rename_i n hfound
      split at h
      · cases h
      · rename_i t htype
        cases h
        obtain ⟨f, hf, htype⟩ := Option.bind_eq_some_iff.mp htype
        exact ⟨n, f, hfound, hf, htype⟩
  · rintro ⟨n, f, hfound, hf, htype⟩
    simp only [targetOf, hfound, hf, Option.bind_some, htype]

/-- What is missing concerns the override alone. -/
theorem isMissingTarget_of_targetOf {cause : Cause} (h : targetOf tree o = .error cause) (path : Option String) :
    isMissingTarget ⟨cause, path⟩ = true := by
  rw [targetOf] at h
  split at h
  · cases h
    rfl
  · split at h
    · cases h
      rfl
    · cases h

/-- A target is a struct of the tree and a field of it. -/
theorem IsTarget.mem (h : IsTarget tree o n f s) :
    n ∈ tree.nodes ∧ n.itemKind? = some .struct_ ∧ f ∈ n.children := by
  obtain ⟨hmem, kind, hkind, hstruct⟩ := Tree.of_find? h.found
  rw [List.mem_singleton.mp hkind] at hstruct
  exact ⟨hmem, hstruct, Node.mem_children_of_field? h.field⟩

/-- Targets are found in a tree that has moved where they were in the tree. -/
theorem targetOf_move {g : Nat → Nat} {moved : Tree} (h : moved.root = tree.root.move g) (o : Override) :
    targetOf moved o = (targetOf tree o).map (Span.move g) := by
  rw [targetOf, targetOf, Tree.find?_move h]
  cases tree.find? o.declaration [.struct_] with
  | none => rfl
  | some n =>
    have htype : ((n.move g).field? o.field).bind Node.type? =
        ((n.field? o.field).bind Node.type?).map (Span.move g) := by
      rw [Node.field?_move]
      cases n.field? o.field with
      | none => rfl
      | some f => exact Node.type?_move f
    simp only [Option.map_some, htype]
    cases (n.field? o.field).bind Node.type? <;> rfl

/-- A target in a tree that has moved is one of the tree. -/
theorem IsTarget.of_move {g : Nat → Nat} {moved : Tree} (hmoved : moved.root = tree.root.move g)
    (h : IsTarget moved o n f s) :
    ∃ n' f' s', IsTarget tree o n' f' s' ∧ n = n'.move g ∧ f = f'.move g ∧ s = s'.move g := by
  obtain ⟨hfound, hf, htype⟩ := h
  rw [Tree.find?_move hmoved] at hfound
  obtain ⟨n', hfound', rfl⟩ := Option.map_eq_some_iff.mp hfound
  rw [Node.field?_move] at hf
  obtain ⟨f', hf', rfl⟩ := Option.map_eq_some_iff.mp hf
  rw [Node.type?_move] at htype
  obtain ⟨s', htype', rfl⟩ := Option.map_eq_some_iff.mp htype
  exact ⟨n', f', s', ⟨hfound', hf', htype'⟩, rfl, rfl, rfl⟩

theorem retypeTree_of_ok (h : targetOf tree o = .ok s) : retypeTree tree o =
    ⟨Text.splice tree.source s.start s.stop o.type.toList, tree.root.move (s.replaced o.type.toList.length),
      tree.revision⟩ := by
  rw [retypeTree, h]

theorem retypeTree_of_error {cause : Cause} (h : targetOf tree o = .error cause) : retypeTree tree o = tree := by
  rw [retypeTree, h]

/-- Overrides give and take no targets. -/
theorem targetOf_retypeTree (tree : Tree) (o p : Override) :
    ∃ g, targetOf (retypeTree tree o) p = (targetOf tree p).map (Span.move g) := by
  cases htarget : targetOf tree o with
  | error cause =>
    refine ⟨id, ?_⟩
    rw [retypeTree_of_error htarget]
    cases targetOf tree p <;> rfl
  | ok s =>
    refine ⟨s.replaced o.type.toList.length, ?_⟩
    rw [retypeTree_of_ok htarget]
    exact targetOf_move rfl p

theorem skipWarning?_retypeTree (tree : Tree) (o p : Override) (path : Option String) :
    skipWarning? (retypeTree tree o) path p = skipWarning? tree path p := by
  obtain ⟨g, hmove⟩ := targetOf_retypeTree tree o p
  rw [skipWarning?, skipWarning?, hmove]
  cases targetOf tree p <;> rfl

theorem skipWarning?_foldl (os : List Override) (tree : Tree) (p : Override) (path : Option String) :
    skipWarning? (os.foldl retypeTree tree) path p = skipWarning? tree path p := by
  induction os generalizing tree with
  | nil => rfl
  | cons o os ih => rw [List.foldl_cons, ih, skipWarning?_retypeTree]

/-- An override with a warning changes nothing. -/
theorem retypeTree_of_skipWarning? {path : Option String} {warning : String}
    (h : skipWarning? tree path o = some warning) : retypeTree tree o = tree := by
  rw [skipWarning?] at h
  split at h
  · cases h
  · rename_i hmissing
    exact retypeTree_of_error hmissing

/-- **Applying one override**: with a target the text is changed there, without one the error says what is
missing. -/
theorem retypeField_eq_target (h : Rust.parse tree.source = .ok tree) (hn : ∀ n f s, IsTarget tree o n f s →
      IsRecord tree.source n) (htype : IsTypeText o.type.toList) (path : Option String) :
    Edit.retypeField tree.source o.declaration o.field o.type path =
      ((targetOf tree o).map fun _ => (retypeTree tree o).source).mapError fun cause => ⟨cause, path⟩ := by
  cases htarget : targetOf tree o with
  | ok s =>
    obtain ⟨n, f, hfound⟩ := targetOf_eq_ok.mp htarget
    rw [retypeTree_of_ok htarget]
    exact (Edit.retypeField_moves h hfound.found (hn n f s hfound) hfound.field hfound.type htype path).1
  | error cause =>
    have hread : Edit.readSource tree.source path = .ok tree := Edit.readSource_eq_ok.mpr h
    rw [targetOf] at htarget
    split at htarget
    · rename_i hfound
      cases htarget
      simp only [Edit.retypeField, hread, Edit.target, hfound, bind, Except.bind]
      rfl
    · rename_i n hfound
      split at htarget
      · rename_i hnone
        cases htarget
        simp only [Edit.retypeField, hread, Edit.target, hfound, bind, Except.bind, hnone]
        rfl
      · cases htarget

end Targets

/-! ### Overrides that can be applied -/

/-- The overrides are about different fields; raw markers do not matter. -/
def Override.Apart (o p : Override) : Prop :=
  Name.bare o.declaration ≠ Name.bare p.declaration ∨ Name.bare o.field ≠ Name.bare p.field

/-- The tree is that of its text, the types are well formed, no target is in a tuple, and no two overrides are
about one field. -/
structure CanApply (tree : Tree) (os : List Override) : Prop where
  parsed : Rust.parse tree.source = .ok tree
  types : ∀ o ∈ os, IsTypeText o.type.toList
  records : ∀ o ∈ os, ∀ n f s, IsTarget tree o n f s → IsRecord tree.source n
  apart : os.Pairwise Override.Apart

namespace CanApply

variable {tree : Tree} {o p : Override} {os ps : List Override} {s t : Span}

theorem perm (h : CanApply tree os) (hperm : os.Perm ps) : CanApply tree ps :=
  ⟨h.parsed, fun o ho => h.types o (hperm.mem_iff.mpr ho), fun o ho => h.records o (hperm.mem_iff.mpr ho),
    (hperm.pairwise_iff fun hapart => hapart.imp Ne.symm Ne.symm).mp h.apart⟩

theorem of_append (h : CanApply tree (os ++ ps)) : CanApply tree os :=
  ⟨h.parsed, fun o ho => h.types o (List.mem_append_left _ ho),
    fun o ho => h.records o (List.mem_append_left _ ho), (List.pairwise_append.mp h.apart).1⟩

/-- The part that an override replaces. -/
theorem bounds (h : CanApply tree os) (ho : o ∈ os) (hs : targetOf tree o = .ok s) :
    s.start < s.stop ∧ s.stop ≤ tree.source.length ∧
      Rust.parse (retypeTree tree o).source = .ok (retypeTree tree o) := by
  obtain ⟨n, f, htarget⟩ := targetOf_eq_ok.mp hs
  obtain ⟨hmem, hkind, hf⟩ := htarget.mem
  obtain ⟨hlt, hle, hparse⟩ :=
    Rust.parse_splice h.parsed hmem hkind (h.records o ho n f s htarget) hf htarget.type (h.types o ho)
  refine ⟨hlt, hle, ?_⟩
  have hrevision : tree.revision = 0 := by
    obtain ⟨_, _, _, htree⟩ := Rust.parse_eq_ok_iff.mp h.parsed
    rw [htree]
  rw [retypeTree_of_ok hs, hrevision]
  exact hparse

/-- **An override leaves the others as they are**: the text with its type can be read, and what the others
need still holds. -/
theorem step (h : CanApply tree (o :: os)) : CanApply (retypeTree tree o) os := by
  obtain ⟨-, hapart⟩ := List.pairwise_cons.mp h.apart
  cases hs : targetOf tree o with
  | error cause =>
    rw [retypeTree_of_error hs]
    exact ⟨h.parsed, fun p hp => h.types p (List.mem_cons_of_mem _ hp),
      fun p hp => h.records p (List.mem_cons_of_mem _ hp), hapart⟩
  | ok s =>
    obtain ⟨hlt, hle, hparse⟩ := h.bounds List.mem_cons_self hs
    refine ⟨hparse, fun p hp => h.types p (List.mem_cons_of_mem _ hp), fun p hp n f t htarget => ?_, hapart⟩
    obtain ⟨m, g, ho⟩ := targetOf_eq_ok.mp hs
    rw [retypeTree_of_ok hs] at htarget ⊢
    obtain ⟨n, f, t, hp', rfl, -, -⟩ := htarget.of_move rfl
    exact (h.records p (List.mem_cons_of_mem _ hp) n f t hp').splice h.parsed hp'.mem.1 ho.mem.1 hp'.mem.2.1
      ho.mem.2.1 (h.records o List.mem_cons_self m g s ho) ho.mem.2.2 ho.type hlt hle _

theorem foldl (h : CanApply tree (os ++ ps)) : CanApply (os.foldl retypeTree tree) ps := by
  induction os generalizing tree with
  | nil => exact h
  | cons o os ih => exact ih h.step

/-- Overrides about different fields have targets that are apart. -/
theorem targets_apart (h : CanApply tree os) (ho : o ∈ os) (hp : p ∈ os) (hapart : o.Apart p)
    (hs : targetOf tree o = .ok s) (ht : targetOf tree p = .ok t) : s.stop ≤ t.start ∨ t.stop ≤ s.start := by
  obtain ⟨n, f, hos⟩ := targetOf_eq_ok.mp hs
  obtain ⟨m, g, hpt⟩ := targetOf_eq_ok.mp ht
  refine Rust.types_apart h.parsed hos.mem.1 hpt.mem.1 hos.mem.2.1 hpt.mem.2.1 (h.records o ho n f s hos)
    (h.records p hp m g t hpt) hos.mem.2.2 hpt.mem.2.2 hos.type hpt.type ?_
  -- One node has one name.
  rcases hapart with hdeclaration | hfield
  · refine .inl ?_
    rintro rfl
    exact hdeclaration (Tree.bare_eq_of_find? hos.found hpt.found)
  · refine .inr ?_
    rintro rfl
    exact hfield (Node.bare_eq_of_field? hos.field hpt.field)

/-- **Two overrides can be applied in any order.** -/
theorem swap (h : CanApply tree (o :: p :: os)) :
    retypeTree (retypeTree tree o) p = retypeTree (retypeTree tree p) o := by
  have hother := h.perm (List.Perm.swap p o os)
  obtain ⟨hapart, -⟩ := List.pairwise_cons.mp h.apart
  obtain ⟨g, hg⟩ := targetOf_retypeTree tree o p
  obtain ⟨k, hk⟩ := targetOf_retypeTree tree p o
  cases hs : targetOf tree o with
  | error cause =>
    rw [hs] at hk
    rw [retypeTree_of_error hs, retypeTree_of_error hk]
  | ok s =>
    cases ht : targetOf tree p with
    | error cause =>
      rw [ht] at hg
      rw [retypeTree_of_error ht, retypeTree_of_error hg]
    | ok t =>
      -- The two texts are the same, so they are read as the same tree.
      have hsource : (retypeTree (retypeTree tree o) p).source = (retypeTree (retypeTree tree p) o).source := by
        obtain ⟨hslt, hsle, -⟩ := h.bounds List.mem_cons_self hs
        obtain ⟨htlt, htle, -⟩ := hother.bounds List.mem_cons_self ht
        have hboth := Rust.splice_apart o.type.toList p.type.toList hslt htlt hsle htle
          (h.targets_apart List.mem_cons_self (List.mem_cons_of_mem _ List.mem_cons_self)
            (hapart p List.mem_cons_self) hs ht)
        have hmoved : targetOf (retypeTree tree o) p = (targetOf tree p).map _ :=
          targetOf_move (by rw [retypeTree_of_ok hs]) p
        have hmoved' : targetOf (retypeTree tree p) o = (targetOf tree o).map _ :=
          targetOf_move (by rw [retypeTree_of_ok ht]) o
        rw [ht] at hmoved
        rw [hs] at hmoved'
        rw [retypeTree_of_ok hmoved, retypeTree_of_ok hmoved', retypeTree_of_ok hs, retypeTree_of_ok ht]
        exact hboth
      have hparse := h.step.step.parsed
      have hparse' := hother.step.step.parsed
      rw [hsource, hparse'] at hparse
      exact (Except.ok.inj hparse).symm

/-- **Overrides can be applied in any order.** -/
theorem foldl_perm (h : CanApply tree os) (hperm : os.Perm ps) :
    os.foldl retypeTree tree = ps.foldl retypeTree tree := by
  induction hperm generalizing tree with
  | nil => rfl
  | cons o _ ih => exact ih h.step
  | swap o p os => rw [List.foldl_cons, List.foldl_cons, List.foldl_cons, List.foldl_cons, h.swap]
  | trans hperm _ ih ih' => exact (ih h).trans (ih' (h.perm hperm))

/-- **The whole run**: each override is applied or skipped with a warning, and no text on the way stops it. -/
theorem retypeAll_eq (h : CanApply tree os) (path : Option String) :
    retypeAll path tree.source os = ⟨(os.foldl retypeTree tree).source, os.filterMap (skipWarning? tree path)⟩ := by
  induction os generalizing tree with
  | nil => rfl
  | cons o os ih =>
    have hrest := ih h.step
    have hwarnings : os.filterMap (skipWarning? (retypeTree tree o) path) = os.filterMap (skipWarning? tree path) :=
      congrArg (List.filterMap · os) (funext fun p => skipWarning?_retypeTree tree o p path)
    have hfield := retypeField_eq_target h.parsed (h.records o List.mem_cons_self)
      (h.types o List.mem_cons_self) path
    rw [hwarnings] at hrest
    cases hs : targetOf tree o with
    | ok s =>
      have hskip : skipWarning? tree path o = none := by rw [skipWarning?, hs]
      rw [hs] at hfield
      rw [retypeAll, hfield, List.filterMap_cons_none hskip]
      exact hrest
    | error cause =>
      have hskip : skipWarning? tree path o = some ("Skipping retype of " ++ o.declaration ++ "." ++ o.field ++
          ": " ++ (SyncError.mk cause path).message) := by rw [skipWarning?, hs]
      rw [hs] at hfield
      rw [retypeAll, hfield, List.filterMap_cons_some hskip]
      rw [retypeTree_of_error hs] at hrest
      simp only [Except.map, mapError_error, isMissingTarget_of_targetOf hs, if_true, hrest, List.foldl_cons,
        retypeTree_of_error hs]

/-- An override with a target is found in the end, with its type. -/
theorem shows (h : CanApply tree os) (ho : o ∈ os) (hs : targetOf tree o = .ok s) :
    ∃ t, targetOf (os.foldl retypeTree tree) o = .ok t ∧
      (os.foldl retypeTree tree).spanText t = o.type.toList := by
  -- It might as well have come last.
  have hperm : os.Perm (os.erase o ++ [o]) := (List.perm_cons_erase ho).trans (List.perm_append_singleton ..).symm
  have hlast := (h.perm hperm).foldl
  rw [h.foldl_perm hperm, List.foldl_concat]
  have hskip := skipWarning?_foldl (os.erase o) tree o none
  cases ht : targetOf ((os.erase o).foldl retypeTree tree) o with
  | error cause =>
    rw [skipWarning?, skipWarning?, ht, hs] at hskip
    cases hskip
  | ok t =>
    obtain ⟨hlt, hle, -⟩ := hlast.bounds List.mem_cons_self ht
    refine ⟨_, (targetOf_move (by rw [retypeTree_of_ok ht]) o).trans (by rw [ht]; rfl), ?_⟩
    rw [retypeTree_of_ok ht, Span.move_replaced hlt]
    exact Text.slice_splice (by omega)

end CanApply

/-! ### Tables -/

/-- The keys of a table are different names; raw markers do not matter. -/
structure KeysApart (table : Overrides) : Prop where
  declarations : (table.map fun entry => Name.bare entry.1).Nodup
  fields : ∀ entry ∈ table, (entry.2.map fun field => Name.bare field.1).Nodup

/-- The table has the entries of another one in some order, and so has each of its entries. -/
def IsReordered (table other : Overrides) : Prop :=
  ∃ between, List.Forall₂ (fun a b => a.1 = b.1 ∧ a.2.Perm b.2) table between ∧ between.Perm other

theorem KeysApart.pairwise {table : Overrides} (h : KeysApart table) :
    (overridesOf table).Pairwise Override.Apart := by
  rw [overridesOf, List.pairwise_flatMap]
  refine ⟨fun entry hentry => ?_, (List.pairwise_map.mp h.declarations).imp fun hne o ho p hp => ?_⟩
  · exact List.pairwise_map.mpr ((List.pairwise_map.mp (h.fields entry hentry)).imp .inr)
  · obtain ⟨_, -, rfl⟩ := List.mem_map.mp ho
    obtain ⟨_, -, rfl⟩ := List.mem_map.mp hp
    exact .inl hne

theorem IsReordered.perm {table other : Overrides} (h : IsReordered table other) :
    (overridesOf table).Perm (overridesOf other) := by
  obtain ⟨between, hentries, hperm⟩ := h
  have hbetween : (overridesOf between).Perm (overridesOf other) := hperm.flatMap_right _
  refine List.Perm.trans ?_ hbetween
  clear hperm hbetween
  induction hentries with
  | nil => exact .nil
  | @cons a b rest rest' hab _ ih =>
    obtain ⟨declaration, fields⟩ := a
    obtain ⟨_, fields'⟩ := b
    obtain ⟨rfl, hfields⟩ := hab
    exact (hfields.map _).append ih

/-- **A table of overrides means the same in any order.** Where no two keys are one name, the types are well
formed and no declaration is a tuple, the text does not depend on the order of the declarations and of the
fields in one. Each override without a target gives one warning and leaves the text as it is. The others give
none, and their types are found in the text at the end. Nothing else is warned about. -/
theorem retypeFields_reordered {source : List Char} {tree : Tree} {table other : Overrides}
    (h : Rust.parse source = .ok tree) (htypes : ∀ o ∈ overridesOf table, IsTypeText o.type.toList)
    (hkeys : KeysApart table) (htuples : ∀ o ∈ overridesOf table, ∀ n,
      tree.find? o.declaration [.struct_] = some n → ¬ IsTuple source n)
    (hother : IsReordered table other) (path : Option String) :
    (retypeFields source other path).source = (retypeFields source table path).source ∧
      (retypeFields source table path).warnings = (overridesOf table).filterMap (skipWarning? tree path) ∧
      (retypeFields source other path).warnings = (overridesOf other).filterMap (skipWarning? tree path) ∧
      (∀ front o behind warning, overridesOf table = front ++ o :: behind →
        skipWarning? tree path o = some warning →
          retypeAll path source (front ++ [o]) = ⟨(retypeAll path source front).source,
            (retypeAll path source front).warnings ++ [warning]⟩) ∧
      ∃ after, Rust.parse (retypeFields source table path).source = .ok after ∧
        ∀ o ∈ overridesOf table, skipWarning? tree path o = none →
          ∃ s, targetOf after o = .ok s ∧ after.spanText s = o.type.toList := by
  have hsource : tree.source = source := by
    obtain ⟨_, _, _, rfl⟩ := Rust.parse_eq_ok_iff.mp h
    rfl
  subst hsource
  have happly : CanApply tree (overridesOf table) := by
    refine ⟨h, htypes, fun o ho n f s htarget => ?_, hkeys.pairwise⟩
    obtain ⟨hmem, hkind, hf⟩ := htarget.mem
    exact Rust.isRecord_of_not_isTuple h hmem hkind (htuples o ho n htarget.found) hf htarget.type
  rw [retypeFields, retypeFields, happly.retypeAll_eq, (happly.perm hother.perm).retypeAll_eq]
  have hend : CanApply ((overridesOf table).foldl retypeTree tree) [] := by
    rw [← List.append_nil (overridesOf table)] at happly
    exact happly.foldl
  refine ⟨by rw [happly.foldl_perm hother.perm], rfl, rfl, fun front o behind warning hsplit hskip => ?_, _,
    hend.parsed, fun o ho hskip => ?_⟩
  · rw [hsplit, List.append_cons] at happly
    have hfront := happly.of_append
    rw [hfront.retypeAll_eq, hfront.of_append.retypeAll_eq, List.foldl_concat, List.filterMap_append,
      List.filterMap_cons_some hskip, List.filterMap_nil]
    rw [← skipWarning?_foldl front] at hskip
    rw [retypeTree_of_skipWarning? hskip]
  · rw [skipWarning?] at hskip
    split at hskip
    · rename_i s hs
      exact happly.shows ho hs
    · cases hskip

/-! ### Two structs, one of them in a module -/

def nestedText : List Char := "mod m { struct P { a: K } } struct R { c: V }".toList

def nestedStruct : Node :=
  .mk (.item .struct_ (some "P") (some ⟨17, 24⟩)) 8 8 25 [.mk (.field "a" ⟨22, 23⟩) 19 19 23 []]

def lastStruct : Node :=
  .mk (.item .struct_ (some "R") (some ⟨37, 44⟩)) 28 28 45 [.mk (.field "c" ⟨42, 43⟩) 39 39 43 []]

def nestedTree : Tree :=
  ⟨nestedText, .mk .file 0 0 45 [.mk (.item .module (some "m") (some ⟨6, 26⟩)) 0 0 27 [nestedStruct],
    lastStruct], 0⟩

/-- Two targets, a field that is missing and a declaration that is. -/
def nestedTable : Overrides := [("P", [("a", "i64"), ("z", "u8")]), ("Q", [("b", "u8")]), ("R", [("r#c", "u8")])]

theorem isTypeText_word {word : String}
    (h : Rust.tokenize word.toList = .ok [⟨.ident, word, 0, word.toList.length⟩])
    (hcolon : word.toList.head? ≠ some ':') (hslash : word.toList.getLast? ≠ some '/') :
    IsTypeText word.toList :=
  ⟨_, [.leaf ⟨.ident, word, 0, word.toList.length⟩], ⟨h, rfl, rfl, hcolon, hslash⟩, rfl, rfl⟩

/-- The same text comes out of the table backwards, with the same two warnings. -/
theorem retypeFields_reordered_nested :
    let other := [("R", [("r#c", "u8")]), ("Q", [("b", "u8")]), ("P", [("z", "u8"), ("a", "i64")])]
    (retypeFields nestedText other).source = (retypeFields nestedText nestedTable).source ∧
      (retypeFields nestedText nestedTable).warnings =
        ["Skipping retype of P.z: Field 'z' not found in 'P'",
          "Skipping retype of Q.b: Declaration 'Q' not found"] := by
  intro other
  have h : Rust.parse nestedText = .ok nestedTree := eq_ok_of_toOption (by decide +kernel)
  have hi64 : IsTypeText "i64".toList :=
    isTypeText_word (eq_ok_of_toOption (by decide +kernel)) (by decide) (by decide)
  have hu8 : IsTypeText "u8".toList :=
    isTypeText_word (eq_ok_of_toOption (by decide +kernel)) (by decide) (by decide)
  have hnested : ¬ IsTuple nestedText nestedStruct := by
    rintro ⟨body, hbody, hparen⟩
    cases hbody
    exact absurd hparen (by decide)
  have hlast : ¬ IsTuple nestedText lastStruct := by
    rintro ⟨body, hbody, hparen⟩
    cases hbody
    exact absurd hparen (by decide)
  have hP : nestedTree.find? "P" [.struct_] = some nestedStruct := by decide
  have hQ : nestedTree.find? "Q" [.struct_] = none := by decide
  have hR : nestedTree.find? "R" [.struct_] = some lastStruct := by decide
  have hkeys : KeysApart nestedTable := ⟨by decide, by decide⟩
  have hother : IsReordered nestedTable other :=
    ⟨[("P", [("z", "u8"), ("a", "i64")]), ("Q", [("b", "u8")]), ("R", [("r#c", "u8")])],
      .cons ⟨rfl, .swap ..⟩ (.cons ⟨rfl, .refl _⟩ (.cons ⟨rfl, .refl _⟩ .nil)),
      (List.reverse_perm _).symm⟩
  have htypes : ∀ o ∈ overridesOf nestedTable, IsTypeText o.type.toList := by
    simpa [overridesOf, nestedTable] using ⟨hi64, hu8⟩
  obtain ⟨hsource, hwarnings, -⟩ := retypeFields_reordered h htypes hkeys
    (by simp [overridesOf, nestedTable, hP, hQ, hR, hnested, hlast]) hother none
  refine ⟨hsource, hwarnings.trans ?_⟩
  decide

end ContractSync.Sync
