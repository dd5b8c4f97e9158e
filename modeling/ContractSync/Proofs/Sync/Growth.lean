import ContractSync.Proofs.Rust.Append
import ContractSync.Proofs.Rust.Grow
import ContractSync.Proofs.Rust.ItemText
import ContractSync.Proofs.Rust.LexEnd
import ContractSync.Proofs.Text.Parts
import ContractSync.Sync.Block

/-!
# Appending a declaration

What is appended stands behind a blank line, or behind blanks only. **If the text before it is closed
(`IsClosedText`) and it does not begin with a semicolon (`BeginsItem`), the items are those of the text and
those of the block, moved to where the block stands** (`parse_appendBlock`), and what is declared is what
was declared and what the block declares.
-/

namespace ContractSync.Rust

/-! ### The items of two texts -/

theorem Node.walkAll_map_move (g : Nat → Nat) (nodes : List Node) :
    walkAll (nodes.map (move g)) = (walkAll nodes).map (move g) := by
  rw [← moveAll_eq_map, walkAll_moveAll]

namespace Tree

variable {before added after : Tree} {size size' size'' : Nat}

/-- The items of some kind among what two texts hold. -/
theorem itemsOf_append {kind : ItemKind} {na nb : List Node} {g : Nat → Nat}
    (hbefore : before.root = .mk .file 0 0 size na) (hadded : added.root = .mk .file 0 0 size' nb)
    (hafter : after.root = .mk .file 0 0 size'' (na ++ nb.map (Node.move g))) :
    after.itemsOf kind = before.itemsOf kind ++ (added.itemsOf kind).map (Node.move g) := by
  have hfile : ∀ (size : Nat) (nodes : List Node),
      (Node.walk (.mk .file 0 0 size nodes)).filter (·.itemKind? == some kind) =
        (Node.walkAll nodes).filter (·.itemKind? == some kind) := fun size nodes => by
    rw [Node.walk, List.filter_cons_of_neg (by simp [Node.itemKind?, Node.shape])]
  have hkind : (fun n : Node => n.itemKind? == some kind) ∘ Node.move g =
      (fun n : Node => n.itemKind? == some kind) := funext fun n => by
    rw [Function.comp, Node.itemKind?_move]
  rw [itemsOf, itemsOf, itemsOf, nodes, nodes, nodes, hbefore, hadded, hafter, hfile, hfile, hfile,
    Node.walkAll_append, Node.walkAll_map_move, List.filter_append, List.filter_map, hkind]

/-- The names of the items of some kind. -/
theorem names_append {kind : ItemKind} {g : Nat → Nat}
    (h : after.itemsOf kind = before.itemsOf kind ++ (added.itemsOf kind).map (Node.move g)) :
    (after.itemsOf kind).filterMap Node.name? =
      (before.itemsOf kind).filterMap Node.name? ++ (added.itemsOf kind).filterMap Node.name? := by
  have hname : Node.name? ∘ Node.move g = Node.name? := funext fun n => n.name?_move
  rw [h, List.filterMap_append, List.filterMap_map, hname]

/-- The texts of the imports. -/
theorem imports_append {more : List Char}
    (hstop : ∀ n ∈ before.nodes, n.stop ≤ before.source.length)
    (hsource : after.source = before.source ++ more ++ added.source)
    (h : after.itemsOf .use = before.itemsOf .use ++
      (added.itemsOf .use).map (Node.move (· + (before.source ++ more).length))) :
    after.imports = before.imports ++ added.imports := by
  rw [imports, imports, imports, h, List.map_append, List.map_map]
  congr 1
  · refine List.map_congr_left fun n hn => ?_
    rw [text, text, hsource, List.append_assoc,
      Text.slice_append_left (hstop n (List.mem_filter.mp hn).1)]
  · refine List.map_congr_left fun n _ => ?_
    rw [Function.comp, text, text, hsource, Node.start_move, Node.stop_move,
      Text.slice_append_right]

end Tree

end ContractSync.Rust

namespace ContractSync.Sync

open Rust (Closed Node Reads TokenTree Tree tokenize)
open Rust.Lexer (Run)

/-- Every item of the text is complete: it has no tokens, or the last one ends an item. -/
def IsClosedText (source : List Char) : Prop :=
  ∃ tokens ∈ (tokenize source).toOption,
    ∀ t ∈ tokens.getLast?, t.isPunct ";" = true ∨ t.isPunct "\x7d" = true

instance : DecidablePred IsClosedText := fun source =>
  inferInstanceAs (Decidable (∃ tokens ∈ (tokenize source).toOption, _))

/-- The text begins with no semicolon, which would go on what stands before it. -/
def BeginsItem (block : List Char) : Prop :=
  ∃ tokens ∈ (tokenize block).toOption, ∀ t ∈ tokens.head?, t.isPunct ";" = false

instance : DecidablePred BeginsItem := fun block =>
  inferInstanceAs (Decidable (∃ tokens ∈ (tokenize block).toOption, _))

variable {source block : List Char}

/-- Closed trees are closed with what begins an item. -/
theorem IsClosedText.closed (hclosed : IsClosedText source) (hbegins : BeginsItem block)
    {ta tb : List TokenTree} {na nb : List Node} (ha : Reads source ta na) (hb : Reads block tb nb) :
    Closed ta na tb := by
  obtain ⟨tokens, htokens, hlast⟩ := hclosed
  obtain ⟨others, hothers, hhead⟩ := hbegins
  obtain rfl := Except.ok.inj (ha.tokens.symm.trans (eq_ok_of_toOption htokens))
  obtain rfl := Except.ok.inj (hb.tokens.symm.trans (eq_ok_of_toOption hothers))
  have hfirst : (tb.head?.any fun tree => tree.isPunct ";") = false := by
    rw [TokenTree.head?_flattenAll] at hhead
    cases tb with
    | nil => rfl
    | cons tree rest => exact hhead tree.head rfl
  cases hend : (TokenTree.flattenAll ta).getLast? with
  | none =>
    -- Without tokens there are no items.
    have hnil : TokenTree.flattenAll ta = TokenTree.flattenAll [] :=
      List.getLast?_eq_none_iff.mp hend
    obtain rfl := TokenTree.flattenAll_injective ha.nested rfl hnil
    exact .inl ha.items.eq_nil
  | some t =>
    exact .inr (.inl (.of_getLast? ha.nested hend ((hlast t hend).imp_right (⟨·, hfirst⟩))))

/-- A text to append to: the lexer comes to its end whatever follows. -/
structure IsOpenEnd (front : List Char) (trees : List TokenTree) (nodes : List Node) : Prop where
  reads : Reads front trees nodes
  run : ∀ rest, Run 0 (front ++ rest) (TokenTree.flattenAll trees) front.length rest

/-- A text whose last line has an end. -/
theorem IsOpenEnd.of_newline {front : List Char} {trees : List TokenTree} {nodes : List Node}
    (h : Reads (front ++ ['\n']) trees nodes) : IsOpenEnd (front ++ ['\n']) trees nodes := by
  refine ⟨h, fun rest => ?_⟩
  have hrun := (Rust.Lexer.run_of_lexFrom h.tokens).congr_behind_newline rest
  rwa [List.append_cons, Nat.zero_add] at hrun

/-- Blanks. -/
theorem IsOpenEnd.of_blanks {trees : List TokenTree} {nodes : List Node}
    (h : Reads source trees nodes) (hblank : Text.isAllBlank source = true) :
    IsOpenEnd source trees nodes := by
  have hall : ∀ x ∈ source, Text.isBlank x = true := List.all_eq_true.mp hblank
  have hrun : ∀ rest, Run 0 (source ++ rest) [] source.length rest := fun rest => by
    have hrun := Rust.Lexer.run_blanks hall 0 rest
    rwa [Nat.zero_add] at hrun
  have htokens : tokenize source = .ok [] := by
    have hrun := hrun []
    rw [List.append_nil] at hrun
    exact Rust.Lexer.lexFrom_of_run hrun
  have hnil := Except.ok.inj (h.tokens.symm.trans htokens)
  exact ⟨h, fun rest => hnil ▸ hrun rest⟩

theorem eq_append_of_endsWith {tail : List Char} (h : endsWith tail source = true) :
    ∃ front, source = front ++ tail := by
  rw [endsWith, List.isPrefixOf_iff_prefix, List.reverse_prefix] at h
  obtain ⟨front, rfl⟩ := h
  exact ⟨front, rfl⟩

/-- The end of a line is put where it is missing, and a blank line. -/
theorem isOpenEnd_closeLines {trees : List TokenTree} {nodes : List Node}
    (h : Reads source trees nodes) : IsOpenEnd (closeLines source) trees nodes := by
  rw [closeLines]
  split
  · rename_i hend
    obtain ⟨front, rfl⟩ := eq_append_of_endsWith hend
    rw [List.append_cons] at h ⊢
    exact .of_newline h
  split
  · exact .of_newline h.newline
  · have hnewline := IsOpenEnd.of_newline h.newline.newline
    rwa [List.append_assoc] at hnewline

/-- Where the block is put. -/
theorem exists_appendBlock_eq {trees : List TokenTree} {nodes : List Node}
    (h : Reads source trees nodes) (block : List Char) :
    ∃ front, appendBlock source block = front ++ block ∧ source <+: front ∧
      IsOpenEnd front trees nodes := by
  rw [appendBlock]
  split
  · rename_i hblank
    exact ⟨source, rfl, List.prefix_refl _, .of_blanks h hblank⟩
  · refine ⟨closeLines source, rfl, ?_, isOpenEnd_closeLines h⟩
    rw [closeLines]
    split
    · exact List.prefix_refl _
    split
    · exact List.prefix_append _ _
    · exact List.prefix_append _ _

/-- **Appending is compositional**: behind a closed text a block is read as it is on its own, moved to
where it stands. -/
theorem parse_appendBlock {before added : Tree} (hsource : Rust.parse source = .ok before)
    (hblock : Rust.parse block = .ok added) (hclosed : IsClosedText source)
    (hbegins : BeginsItem block) :
    ∃ front after, appendBlock source block = front ++ block ∧
      Rust.parse (appendBlock source block) = .ok after ∧
      after.root.children =
        before.root.children ++ added.root.children.map (Node.move (· + front.length)) ∧
      after.functionNames = before.functionNames ++ added.functionNames ∧
      after.structNames = before.structNames ++ added.structNames ∧
      after.imports = before.imports ++ added.imports := by
  obtain ⟨ta, na, ha, rfl⟩ := Rust.parse_eq_ok_iff.mp hsource
  obtain ⟨tb, nb, hb, rfl⟩ := Rust.parse_eq_ok_iff.mp hblock
  obtain ⟨front, hfront, ⟨more, rfl⟩, hopen⟩ := exists_appendBlock_eq ha block
  have hreads := hopen.reads.append hb (hclosed.closed hbegins ha hb) (hopen.run block)
  have hparse : Rust.parse (appendBlock source block) = .ok ⟨source ++ more ++ block,
      .mk .file 0 0 (source ++ more ++ block).length
        (na ++ nb.map (Node.move (· + (source ++ more).length))), 0⟩ := by
    rw [hfront]
    exact Rust.parse_eq_ok_iff.mpr ⟨_, _, hreads, rfl⟩
  have hstop : ∀ n ∈ Node.walk (.mk .file 0 0 source.length na), n.stop ≤ source.length := by
    intro n hn
    rcases Node.mem_walk_mk.mp hn with rfl | hn
    · exact Nat.le_refl _
    · exact ha.stop_le n hn
  exact ⟨source ++ more, _, hfront, hparse, rfl, Tree.names_append (Tree.itemsOf_append rfl rfl rfl),
    Tree.names_append (Tree.itemsOf_append rfl rfl rfl),
    Tree.imports_append hstop rfl (Tree.itemsOf_append rfl rfl rfl)⟩

/-! ### A block behind a comment -/

def handlerText : List Char := "fn a() \x7b\x7d // end".toList

def handlerTree : Tree :=
  ⟨handlerText, .mk .file 0 0 16 [.mk (.item .function (some "a") (some ⟨7, 8⟩)) 0 0 9 []], 0⟩

def modelText : List Char := "use b;\nstruct D;\n".toList

def modelTree : Tree :=
  ⟨modelText, .mk .file 0 0 17
    [.mk (.item .use none none) 0 0 6 [], .mk (.item .struct_ (some "D") none) 7 7 16 []], 0⟩

/-- The comment keeps its line, and the block is read as it was. -/
theorem parse_appendBlock_commentSample :
    ∃ front after, appendBlock handlerText modelText = front ++ modelText ∧
      Rust.parse (appendBlock handlerText modelText) = .ok after ∧
      after.root.children =
        handlerTree.root.children ++ modelTree.root.children.map (Node.move (· + front.length)) ∧
      after.functionNames = handlerTree.functionNames ++ modelTree.functionNames ∧
      after.structNames = handlerTree.structNames ++ modelTree.structNames ∧
      after.imports = handlerTree.imports ++ modelTree.imports :=
  parse_appendBlock (eq_ok_of_toOption (by decide +kernel)) (eq_ok_of_toOption (by decide +kernel))
    (by decide +kernel) (by decide +kernel)

end ContractSync.Sync

/-!
## Files that grow

Generated files grow at the end, item by item. `Grown` says that a text is read and that its last item is
complete. **A grown text with the text of an item behind it is a grown text** (`Grown.append`), which
begins with the text as it was and declares one name more.
-/

namespace ContractSync.Rust

namespace Tree

/-- The names of the functions at the top of the file. -/
def topFunctions (tree : Tree) : List String :=
  (tree.root.children.filter (·.itemKind? == some .function)).filterMap Node.name?

theorem mem_topFunctions {tree : Tree} {name : String} : name ∈ tree.topFunctions ↔
    ∃ node ∈ tree.root.children, node.itemKind? = some .function ∧ node.name? = some name := by
  simp only [topFunctions, List.mem_filterMap, List.mem_filter, beq_iff_eq, and_assoc]

/-- The names of the items of some kind. -/
def namesOf (tree : Tree) (kind : ItemKind) : List String := (tree.itemsOf kind).filterMap Node.name?

theorem functionNames_eq (tree : Tree) : tree.functionNames = tree.namesOf .function := rfl

theorem structNames_eq (tree : Tree) : tree.structNames = tree.namesOf .struct_ := rfl

end Tree

/-- The name that an item adds to those of some kind. -/
def Node.nameOf (node : Node) (kind : ItemKind) : List String :=
  if node.itemKind? = some kind then node.name?.toList else []

theorem Node.nameOf_self {node : Node} {kind : ItemKind} {name : String}
    (hkind : node.itemKind? = some kind) (hname : node.name? = some name) :
    node.nameOf kind = [name] := by
  rw [nameOf, if_pos hkind, hname]
  rfl

theorem Node.nameOf_of_ne {node : Node} {kind kind' : ItemKind} (hkind : node.itemKind? = some kind)
    (hne : kind ≠ kind') : node.nameOf kind' = [] :=
  if_neg fun h => hne (Option.some.inj (hkind.symm.trans h))

/-- The only item of a text is what the text declares. -/
theorem IsItemText.namesOf {text : List Char} {node : Node} (h : IsItemText text node) (size : Nat)
    (kind : ItemKind) :
    (⟨text, .mk .file 0 0 size [node], 0⟩ : Tree).namesOf kind = node.nameOf kind := by
  have hchildren : (Node.walkAll node.children).filter (·.itemKind? == some kind) = [] := by
    refine List.filter_eq_nil_iff.mpr fun m hm => ?_
    rw [h.plain m hm]
    nofun
  have hwalk : (Node.mk .file 0 0 size [node]).walk =
      .mk .file 0 0 size [node] :: node :: Node.walkAll node.children := by
    rw [Node.walk, Node.walkAll, Node.walkAll, List.append_nil]
    cases node
    rw [Node.walk]
    rfl
  rw [Tree.namesOf, Tree.itemsOf, Tree.nodes, hwalk, List.filter_cons_of_neg (by
    simp [Node.itemKind?, Node.shape]), List.filter_cons, hchildren, Node.nameOf]
  simp only [beq_iff_eq]
  split
  · cases hname : node.name? <;> simp [hname]
  · rfl

/-- A text is the text of one item at most. -/
theorem IsItemText.unique {text : List Char} {node node' : Node} (h : IsItemText text node)
    (h' : IsItemText text node') : node = node' := by
  have hparse : ∀ {node}, IsItemText text node →
      parse text = .ok ⟨text, .mk .file 0 0 text.length [node], 0⟩ := by
    intro node h
    obtain ⟨trees, hreads, -⟩ := h.reads
    exact parse_eq_ok_iff.mpr ⟨trees, [node], hreads, rfl⟩
  simpa using (hparse h).symm.trans (hparse h')

end ContractSync.Rust

namespace ContractSync.Sync

open Rust (IsItemText ItemKind Node TokenTree Tree tokenize)

/-- The functions that a text declares. -/
def functionsOf (source : List Char) : List String :=
  ((Rust.parse source).toOption.map Tree.functionNames).getD []

theorem functionsOf_eq {source : List Char} {tree : Tree} (h : Rust.parse source = .ok tree) :
    functionsOf source = tree.functionNames := by
  rw [functionsOf, h]
  rfl

/-- A blank text declares nothing. -/
theorem functionsOf_of_isAllBlank {source : List Char} (h : Text.isAllBlank source = true) :
    functionsOf source = [] := by
  have htokens : Rust.tokenize source = .ok [] := by
    have hrun := Rust.Lexer.run_blanks (List.all_eq_true.mp h) 0 []
    rw [List.append_nil] at hrun
    exact Rust.Lexer.lexFrom_of_run hrun
  rw [functionsOf_eq (Rust.parse_eq_ok_iff.mpr ⟨[], [], ⟨htokens, rfl, .nil⟩, rfl⟩)]
  rfl

theorem not_isAllBlank_of_extends {source result : List Char} (h : source <+: result)
    (hsource : Text.isAllBlank source = false) : Text.isAllBlank result = false := by
  obtain ⟨more, rfl⟩ := h
  rw [Text.isAllBlank, List.all_append, Bool.and_eq_false_iff]
  exact .inl hsource

/-- The text is read as a tree and its last item is complete. -/
structure Grown (source : List Char) (tree : Tree) : Prop where
  parsed : Rust.parse source = .ok tree
  closed : IsClosedText source

/-- The tree of a fixed text with a complete last item, if it is plain to see what its tokens are. -/
def grownOf? (source : List Char) : Option Tree :=
  (Rust.tokensOf? source).bind fun tokens =>
    if tokens.getLast?.all fun t => t.isPunct ";" || t.isPunct "\x7d" then
      (TokenTree.ofTokens tokens).toOption.bind fun trees =>
        (Rust.parseItems source.length trees).toOption.map fun items =>
          ⟨source, .mk .file 0 0 source.length items, 0⟩
    else none

/-- A fixed text is read as it looks. -/
theorem Grown.of_grownOf? {source : List Char} {tree : Tree} (h : grownOf? source = some tree) :
    Grown source tree := by
  obtain ⟨tokens, htokens, h⟩ := Option.bind_eq_some_iff.mp h
  split at h
  · rename_i hlast
    obtain ⟨trees, htrees, h⟩ := Option.bind_eq_some_iff.mp h
    obtain ⟨items, hitems, rfl⟩ := Option.map_eq_some_iff.mp h
    have hread := (Rust.Lexes.of_tokens htokens).tokenize trivial
    refine ⟨?_, tokens, mem_toOption_of_eq_ok hread, fun t ht => ?_⟩
    · rw [Rust.parse, hread]
      simp only [bind, Except.bind, eq_ok_of_toOption htrees, eq_ok_of_toOption hitems]
      rfl
    · rw [Option.mem_def.mp ht] at hlast
      exact Bool.or_eq_true _ _ ▸ hlast
  · cases h

theorem beginsItem_of_isItemText {block : List Char} {node : Node} (h : IsItemText block node) :
    BeginsItem block := by
  obtain ⟨trees, hreads, hhead, -⟩ := h.reads
  refine ⟨_, mem_toOption_of_eq_ok hreads.tokens, fun t ht => ?_⟩
  rw [TokenTree.head?_flattenAll] at ht
  obtain ⟨tree, htree, rfl⟩ := Option.map_eq_some_iff.mp ht
  exact hhead tree htree

/-- An item where a closed text is open to it. -/
theorem IsOpenEnd.grown {source front block : List Char} {trees : List TokenTree} {nodes : List Node}
    {node : Node} (hclosed : IsClosedText source) (hsource : Rust.Reads source trees nodes)
    (hopen : IsOpenEnd front trees nodes) (hblock : IsItemText block node) :
    Grown (front ++ block) ⟨front ++ block, .mk .file 0 0 (front ++ block).length
      (nodes ++ [node.move (· + front.length)]), 0⟩ := by
  obtain ⟨tb, hb, -, t, hlast, hends⟩ := hblock.reads
  have hreads := hopen.reads.append hb
    (hclosed.closed (beginsItem_of_isItemText hblock) hsource hb) (hopen.run block)
  refine ⟨Rust.parse_eq_ok_iff.mpr ⟨_, _, hreads, rfl⟩, _, mem_toOption_of_eq_ok hreads.tokens, fun u hu => ?_⟩
  rw [TokenTree.flattenAll_append, TokenTree.flattenAll_map_move, List.getLast?_append,
    List.getLast?_map, hlast, Option.map_some, Option.some_or] at hu
  cases hu
  exact hends

/-- **An item behind a grown text**: nothing before it changes, and it is one item more. -/
theorem Grown.append {source block : List Char} {before : Tree} {node : Node}
    (h : Grown source before) (hblock : IsItemText block node) :
    ∃ front after, appendBlock source block = front ++ block ∧ source <+: front ∧
      Grown (appendBlock source block) after ∧
      after.root.children = before.root.children ++ [node.move (· + front.length)] ∧
      ∀ kind, after.namesOf kind = before.namesOf kind ++ node.nameOf kind := by
  obtain ⟨ta, na, ha, rfl⟩ := Rust.parse_eq_ok_iff.mp h.parsed
  obtain ⟨front, hfront, hprefix, hopen⟩ := exists_appendBlock_eq ha block
  refine ⟨front, _, hfront, hprefix, hfront ▸ hopen.grown h.closed ha hblock, rfl, fun kind => ?_⟩
  rw [← hblock.namesOf block.length]
  exact Tree.names_append (Tree.itemsOf_append rfl rfl rfl)

/-! ### What stands in a file -/

/-- The text and the items of the file come first in another one. -/
structure Extends (before after : Tree) : Prop where
  source : before.source <+: after.source
  children : before.root.children <+: after.root.children

namespace Extends

theorem refl (tree : Tree) : Extends tree tree := ⟨List.prefix_refl _, List.prefix_refl _⟩

theorem trans {a b c : Tree} (h : Extends a b) (h' : Extends b c) : Extends a c :=
  ⟨h.source.trans h'.source, h.children.trans h'.children⟩

theorem topFunctions {before after : Tree} (h : Extends before after) {name : String}
    (hname : name ∈ before.topFunctions) : name ∈ after.topFunctions := by
  obtain ⟨node, hnode, hfunction⟩ := Tree.mem_topFunctions.mp hname
  exact Tree.mem_topFunctions.mpr ⟨node, h.children.subset hnode, hfunction⟩

end Extends

/-- The text stands in the file, and the item that it is read as is among the items of the file. -/
def Contains (tree : Tree) (text : List Char) (node : Node) : Prop :=
  ∃ front behind, tree.source = front ++ (text ++ behind) ∧
    node.move (· + front.length) ∈ tree.root.children

theorem Contains.extends {before after : Tree} {text : List Char} {node : Node} (h : Contains before text node)
    (hafter : Extends before after) : Contains after text node := by
  obtain ⟨front, behind, hsource, hnode⟩ := h
  obtain ⟨more, hmore⟩ := hafter.source
  exact ⟨front, behind ++ more, by rw [← hmore, hsource, List.append_assoc, List.append_assoc],
    hafter.children.subset hnode⟩

theorem Contains.mem_topFunctions {tree : Tree} {text : List Char} {node : Node} {name : String}
    (h : Contains tree text node) (hkind : node.itemKind? = some .function) (hname : node.name? = some name) :
    name ∈ tree.topFunctions := by
  obtain ⟨front, behind, -, hnode⟩ := h
  exact Tree.mem_topFunctions.mpr ⟨_, hnode, node.itemKind?_move.trans hkind, node.name?_move.trans hname⟩

theorem Grown.source_eq {source : List Char} {tree : Tree} (h : Grown source tree) : tree.source = source := by
  obtain ⟨_, _, _, rfl⟩ := Rust.parse_eq_ok_iff.mp h.parsed
  rfl

/-- **An item behind a grown text stands in the file**, behind all that stood there. -/
theorem Grown.append_contains {source block : List Char} {before : Tree} {node : Node} (h : Grown source before)
    (hblock : IsItemText block node) : ∃ after, Grown (appendBlock source block) after ∧ Extends before after ∧
      Contains after block node ∧ ∀ kind, after.namesOf kind = before.namesOf kind ++ node.nameOf kind := by
  obtain ⟨front, after, heq, hkept, hgrown, hchildren, hnames⟩ := h.append hblock
  have hsource : after.source = front ++ block := hgrown.source_eq.trans heq
  refine ⟨after, hgrown, ⟨?_, hchildren ▸ List.prefix_append _ _⟩, ⟨front, [], ?_, ?_⟩, hnames⟩
  · rw [h.source_eq, hsource]
    exact hkept.trans (List.prefix_append _ _)
  · rw [hsource, List.append_nil]
  · rw [hchildren]
    exact List.mem_append_right _ (List.mem_singleton_self _)

/-! ### What a file lacks -/

/-- The names that are asked for and not there, each once. -/
def lacking (there asked : List String) : List String :=
  (asked.filter fun name => !there.contains name).eraseDups

section Lacking

variable {there asked : List String} {name : String}

theorem lacking_cons_of_mem (h : name ∈ there) : lacking there (name :: asked) = lacking there asked := by
  rw [lacking, List.filter_cons_of_neg (by simp [h]), lacking]

theorem lacking_cons_of_notMem (h : name ∉ there) :
    lacking there (name :: asked) = name :: lacking (there ++ [name]) asked := by
  rw [lacking, List.filter_cons_of_pos (by simp [h]), List.eraseDups_cons, List.filter_filter, lacking]
  congr 3
  funext other
  simp [Bool.and_comm, beq_eq_decide]

theorem mem_lacking : name ∈ lacking there asked ↔ name ∉ there ∧ name ∈ asked := by
  simp [lacking, and_comm]

theorem nodup_lacking (there asked : List String) : (lacking there asked).Nodup := by
  induction asked generalizing there with
  | nil => exact .nil
  | cons name asked ih =>
    by_cases h : name ∈ there
    · rw [lacking_cons_of_mem h]
      exact ih there
    · rw [lacking_cons_of_notMem h, List.nodup_cons, mem_lacking]
      exact ⟨fun hmem => hmem.1 (List.mem_append_right _ (List.mem_singleton_self _)), ih _⟩

theorem lacking_nil (there : List String) : lacking there [] = [] := rfl

/-- What is asked for behind other names is lacking behind those. -/
theorem lacking_append (there asked more : List String) :
    lacking there (asked ++ more) = lacking there asked ++ lacking (there ++ lacking there asked) more := by
  induction asked generalizing there with
  | nil => rw [List.nil_append, lacking_nil, List.nil_append, List.append_nil]
  | cons name asked ih =>
    rw [List.cons_append]
    by_cases h : name ∈ there
    · rw [lacking_cons_of_mem h, lacking_cons_of_mem h, ih]
    · rw [lacking_cons_of_notMem h, lacking_cons_of_notMem h, ih, List.cons_append, List.append_assoc,
        List.singleton_append]

theorem lacking_eq_self (h : asked.Nodup) (hnew : ∀ name ∈ asked, name ∉ there) : lacking there asked = asked := by
  induction asked generalizing there with
  | nil => rfl
  | cons name asked ih =>
    obtain ⟨hname, hasked⟩ := List.nodup_cons.mp h
    obtain ⟨hlacks, hnew⟩ := List.forall_mem_cons.mp hnew
    rw [lacking_cons_of_notMem hlacks, ih hasked fun other hother => ?_]
    rw [List.mem_append, List.mem_singleton, not_or]
    exact ⟨hnew other hother, fun heq => hname (heq ▸ hother)⟩

/-- **All names that are asked for are lacking** exactly if none is asked for twice. -/
theorem lacking_eq_self_iff : lacking [] asked = asked ↔ asked.Nodup :=
  ⟨fun h => h ▸ nodup_lacking [] asked, fun h => lacking_eq_self h fun _ _ => List.not_mem_nil⟩

/-- What is asked for is there in the end. -/
theorem mem_append_lacking (h : name ∈ asked) : name ∈ there ++ lacking there asked := by
  rw [List.mem_append, mem_lacking]
  by_cases hold : name ∈ there
  · exact .inl hold
  · exact .inr ⟨hold, h⟩

end Lacking

end ContractSync.Sync
