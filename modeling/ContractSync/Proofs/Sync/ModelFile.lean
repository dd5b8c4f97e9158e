import ContractSync.Proofs.Edit.Keep
import ContractSync.Proofs.Emit.Declaration
import ContractSync.Proofs.Sync.Growth
import ContractSync.Sync.Models

/-!
# Files of models

A new file of models holds its imports and behind them the declarations, one behind the other
(`freshModels_eq`). **Such a file is read as its imports and the items of its models** (`exists_isModelFile`),
so each model is found by name where it is written
(`IsModelFile.find?_eq`).
-/

namespace ContractSync.Rust

/-- Where no item holds further items, declarations are found at the top. -/
theorem Tree.find?_eq_children {tree : Tree} (hfile : tree.root.itemKind? = none)
    (h : ∀ n ∈ tree.root.children, ∀ m ∈ Node.walkAll n.children, m.itemKind? = none) (name : String)
    (kinds : List ItemKind) : tree.find? name kinds =
      tree.root.children.find? fun n => n.itemKind?.any kinds.contains && isNamed name n := by
  rw [find?, findWhere?]
  cases hfound : tree.root.children.find? fun n => n.itemKind?.any kinds.contains && isNamed name n with
  | some n => rfl
  | none =>
    refine List.find?_eq_none.mpr fun m hm => ?_
    have hnone : m.itemKind? = none ∨ m ∈ tree.root.children := by
      rw [nodes] at hm
      cases hroot : tree.root with
      | mk shape start itemStart stop children =>
        rw [hroot] at hm hfile h
        rcases Node.mem_walk_mk.mp hm with rfl | hm
        · exact .inl hfile
        · obtain ⟨n, hn, hm⟩ := Node.mem_walkAll.mp hm
          cases n with
          | mk shape' start' itemStart' stop' children' =>
            rcases Node.mem_walk_mk.mp hm with rfl | hm
            · exact .inr hn
            · exact .inl (h _ hn m hm)
    rcases hnone with hnone | hmem
    · rw [hnone, Option.any_none, Bool.false_and]
      exact Bool.false_ne_true
    · exact List.find?_eq_none.mp hfound m hmem

end ContractSync.Rust

namespace ContractSync.Sync

open Emit (IsModelItem modelDeclaration modelImports)
open Rust (IsItemText ItemKind Node Reads Tree)

/-! ### Lines -/

/-- The text ends with a line that is not blank and has an end. -/
def EndsLine (source : List Char) : Prop := ∃ front c, source = front ++ [c, '\n'] ∧ Text.isBlank c = false

theorem EndsLine.append {source : List Char} (h : EndsLine source) (front : List Char) :
    EndsLine (front ++ source) := by
  obtain ⟨before, c, rfl, hc⟩ := h
  exact ⟨front ++ before, c, (List.append_assoc ..).symm, hc⟩

theorem EndsLine.not_isAllBlank {source : List Char} (h : EndsLine source) :
    Text.isAllBlank source = false := by
  obtain ⟨front, c, rfl, hc⟩ := h
  simp [Text.isAllBlank, hc]

/-- What is appended to such a text stands behind one empty line. -/
theorem EndsLine.appendBlock_eq {source : List Char} (h : EndsLine source) (block : List Char) :
    appendBlock source block = source ++ '\n' :: block := by
  have hblank := h.not_isAllBlank
  obtain ⟨front, c, rfl, hc⟩ := h
  have hne : c ≠ '\n' := by
    rintro rfl
    exact absurd hc (by decide)
  have htwo : endsWith ['\n', '\n'] (front ++ [c, '\n']) = false := by
    simp [endsWith, List.isPrefixOf, Ne.symm hne]
  have hone : endsWith ['\n'] (front ++ [c, '\n']) = true := by
    simp [endsWith]
  rw [appendBlock, hblank, if_neg Bool.false_ne_true, closeLines, htwo, if_neg Bool.false_ne_true, hone,
    if_pos rfl, List.append_assoc, List.singleton_append]

theorem endsLine_modelDeclaration (m : Model) : EndsLine (modelDeclaration m).toList := by
  have hbrace : EndsLine "\x7d\n".toList := ⟨[], '\x7d', by decide, by decide⟩
  have hsemicolon : EndsLine ";\n".toList := ⟨[], ';', by decide, by decide⟩
  rw [modelDeclaration, String.toList_append]
  refine EndsLine.append ?_ _
  cases m.shape with
  | record fields =>
    rw [Emit.shapeText, String.toList_append]
    exact hbrace.append _
  | union variants discriminator | literals variants =>
    rw [Emit.shapeText, Emit.enumText, String.toList_append]
    exact hbrace.append _
  | «alias» target =>
    rw [Emit.shapeText, String.toList_append]
    exact hsemicolon.append _

/-! ### Declarations one behind the other -/

/-- The declarations of models, an empty line before each. -/
def declarations (models : List Model) : List Char :=
  models.flatMap fun m => '\n' :: (modelDeclaration m).toList

theorem declarations_cons (m : Model) (models : List Model) :
    declarations (m :: models) = '\n' :: (modelDeclaration m).toList ++ declarations models := rfl

theorem declarations_append (a b : List Model) : declarations (a ++ b) = declarations a ++ declarations b :=
  List.flatMap_append

theorem appendModels_eq {head : List Char} (h : EndsLine head) (models : List Model) :
    appendModels head models = head ++ declarations models := by
  induction models generalizing head with
  | nil => exact (List.append_nil head).symm
  | cons m models ih =>
    have hm := (endsLine_modelDeclaration m).append (head ++ ['\n'])
    rw [List.append_assoc, List.singleton_append] at hm
    rw [appendModels, List.foldl_cons, h.appendBlock_eq, ← appendModels, ih hm, declarations_cons,
      List.append_assoc]

/-- The items of models that are written one behind the other from a position on. -/
inductive Placed : Nat → List Model → List Node → Prop
  | nil {d : Nat} : Placed d [] []
  | cons {d : Nat} {m : Model} {node : Node} {models : List Model} {nodes : List Node}
      (first : IsModelItem m node) (following : Placed (d + 1 + (modelDeclaration m).toList.length) models nodes) :
      Placed d (m :: models) (node.move (· + (d + 1)) :: nodes)

/-- The text is read as imports, and the items of the models behind them. -/
structure IsModelFile (head : List Char) (models : List Model) (tree : Tree) : Prop where
  grown : Grown (head ++ declarations models) tree
  items : ∃ heads nodes, tree.root.children = heads ++ nodes ∧
    (∀ n ∈ heads, n.itemKind? = some .use ∧ ∀ m ∈ Node.walkAll n.children, m.itemKind? = none) ∧
    Placed head.length models nodes

theorem Placed.of_append {head : List Char} {models : List Model} {tree : Tree} {heads : List Node}
    (hhead : EndsLine head) (hgrown : Grown head tree) (hchildren : tree.root.children = heads)
    (hfits : ∀ m ∈ models, m.FitsDeclaration) :
    ∃ after nodes, Grown (head ++ declarations models) after ∧ after.root.children = heads ++ nodes ∧
      Placed head.length models nodes := by
  induction models generalizing head tree heads with
  | nil => exact ⟨tree, [], (List.append_nil head).symm ▸ hgrown, by rw [hchildren, List.append_nil], .nil⟩
  | cons m models ih =>
    obtain ⟨hm, hmodels⟩ := List.forall_mem_cons.mp hfits
    obtain ⟨node, hnode⟩ := Emit.exists_modelItem hm
    obtain ⟨front, after, hfront, -, hafter, hnodes, -⟩ := hgrown.append hnode.item
    rw [hhead.appendBlock_eq] at hfront hafter
    -- The declaration stands behind the end of the empty line.
    have hlength : front.length = head.length + 1 := by
      have hsum := congrArg List.length hfront
      simp only [List.length_append, List.length_cons] at hsum
      omega
    have hline := (endsLine_modelDeclaration m).append (head ++ ['\n'])
    rw [List.append_assoc, List.singleton_append] at hline
    obtain ⟨last, nodes, hlast, hchildren', hplaced⟩ := ih hline hafter (hnodes.trans (by rw [hchildren]))
      hmodels
    have hend : (head ++ '\n' :: (modelDeclaration m).toList).length =
        head.length + 1 + (modelDeclaration m).toList.length := by
      rw [List.length_append, List.length_cons, Nat.add_assoc, Nat.add_comm 1]
    rw [hend] at hplaced
    rw [declarations_cons, ← List.append_assoc]
    refine ⟨last, _, hlast, ?_, .cons hnode hplaced⟩
    rw [hchildren', hlength, List.append_assoc, List.singleton_append]

/-! ### The imports -/

/-- Lines, each with its end. -/
def withEnds (lines : List String) : List Char := lines.flatMap fun line => line.toList ++ ['\n']

theorem toList_intercalate_newline {lines : List String} (h : lines ≠ []) :
    ("\n".intercalate lines ++ "\n").toList = withEnds lines := by
  have hnewline : "\n".toList = ['\n'] := by decide
  rw [String.toList_append, String.toList_intercalate, hnewline]
  induction lines with
  | nil => exact absurd rfl h
  | cons line lines ih =>
    cases lines with
    | nil => simp [withEnds]
    | cons next lines =>
      rw [List.map_cons, List.map_cons, List.intercalate_cons_cons, List.append_assoc, List.append_assoc,
        ← List.map_cons (f := String.toList), ih (List.cons_ne_nil _ _)]
      simp [withEnds]

/-- The lines that the imports of models are among. -/
def importLines : List String := Emit.importTable.map Prod.fst

theorem mem_importLines {models : List Model} {line : String} (h : line ∈ modelImports models) :
    line ∈ importLines := by
  unfold modelImports at h
  obtain ⟨entry, hentry, rfl⟩ := List.mem_map.mp h
  exact List.mem_map_of_mem (List.mem_filter.mp hentry).1

theorem modelImports_ne_nil (models : List Model) : modelImports models ≠ [] := by
  refine List.ne_nil_of_mem (a := "use utoipa::ToSchema;") ?_
  unfold modelImports
  refine List.mem_map.mpr ⟨("use utoipa::ToSchema;", none), List.mem_filter.mpr ⟨by decide, rfl⟩, rfl⟩

/-- The import that a fixed text is, if it is plain to see what its tokens are. -/
def importOf? (text : List Char) : Option Node :=
  (Rust.tokensOf? text).bind fun tokens =>
    (Rust.TokenTree.ofTokens tokens).toOption.bind fun trees =>
      (Rust.parseItems text.length trees).toOption.bind fun nodes =>
        nodes.head?.filter fun node => nodes = [node] && node.itemKind? = some .use && node.children = [] &&
          (trees.head?.all fun tree => !tree.isPunct ";") && tokens.getLast?.any fun t => t.isPunct ";"

theorem isItemText_of_importOf? {text : List Char} {node : Node} (h : importOf? text = some node) :
    IsItemText text node ∧ node.itemKind? = some .use ∧ node.children = [] := by
  obtain ⟨tokens, htokens, h⟩ := Option.bind_eq_some_iff.mp h
  obtain ⟨trees, htrees, h⟩ := Option.bind_eq_some_iff.mp h
  obtain ⟨nodes, hnodes, h⟩ := Option.bind_eq_some_iff.mp h
  obtain ⟨-, h⟩ := Option.filter_eq_some_iff.mp h
  simp only [Bool.and_eq_true, decide_eq_true_eq] at h
  obtain ⟨⟨⟨⟨rfl, hkind⟩, hchildren⟩, hhead⟩, hlast⟩ := h
  obtain ⟨t, ht, hmark⟩ := (Option.any_eq_true _ _).mp hlast
  obtain ⟨rfl, hnested⟩ := Rust.TokenTree.ofTokens_eq_ok_iff.mp (eq_ok_of_toOption htrees)
  refine ⟨⟨⟨trees, ⟨(Rust.Lexes.of_tokens htokens).tokenize trivial, hnested,
    Rust.parseItems_eq_ok_iff.mp (eq_ok_of_toOption hnodes)⟩, fun tree htree => ?_, t, ht, .inl hmark⟩, ?_⟩,
    hkind, hchildren⟩
  · rw [Option.mem_def.mp htree] at hhead
    simpa using hhead
  · rw [hchildren]
    exact List.forall_mem_nil _

/-- Each of the lines is an import. -/
theorem exists_import {line : String} (h : line ∈ importLines) :
    ∃ node, IsItemText (line.toList ++ ['\n']) node ∧ node.itemKind? = some .use ∧ node.children = [] := by
  have hall : ∀ line ∈ importLines, (importOf? (line.toList ++ ['\n'])).isSome = true := by decide +kernel
  obtain ⟨node, hnode⟩ := Option.isSome_iff_exists.mp (hall line h)
  exact ⟨node, isItemText_of_importOf? hnode⟩

/-- The items at the top are imports. -/
def OnlyImports (tree : Tree) : Prop := ∀ n ∈ tree.root.children, n.itemKind? = some .use ∧ n.children = []

/-- Imports behind a line. -/
theorem exists_imports {head : List Char} {tree : Tree} (h : Grown (head ++ ['\n']) tree)
    (huse : OnlyImports tree) {lines : List String} (hlines : ∀ line ∈ lines, line ∈ importLines) :
    ∃ after, Grown (head ++ '\n' :: withEnds lines) after ∧ OnlyImports after := by
  induction lines generalizing head tree with
  | nil => exact ⟨tree, h, huse⟩
  | cons line lines ih =>
    obtain ⟨hline, hlines⟩ := List.forall_mem_cons.mp hlines
    obtain ⟨node, hitem, hkind, hchildren⟩ := exists_import hline
    obtain ⟨ta, na, ha, rfl⟩ := Rust.parse_eq_ok_iff.mp h.parsed
    have hgrown := (IsOpenEnd.of_newline ha).grown h.closed ha hitem
    rw [← List.append_assoc] at hgrown
    have hmoved : ∀ d, (node.move (· + d)).itemKind? = some .use ∧ (node.move (· + d)).children = [] := fun d => by
      rw [Node.itemKind?_move, hkind, Node.children_move, hchildren]
      exact ⟨rfl, rfl⟩
    obtain ⟨after, hafter, hnodes⟩ := ih hgrown
      (List.forall_mem_append.mpr ⟨huse, List.forall_mem_singleton.mpr (hmoved _)⟩) hlines
    have htext : head ++ '\n' :: withEnds (line :: lines) =
        head ++ ['\n'] ++ line.toList ++ '\n' :: withEnds lines := by
      simp [withEnds]
    exact ⟨after, htext ▸ hafter, hnodes⟩

/-- **The top of a new file is read as its imports.** -/
theorem exists_head {lines : List String} (hne : lines ≠ []) (hlines : ∀ line ∈ lines, line ∈ importLines) :
    EndsLine (withEnds lines) ∧ ∃ tree, Grown (withEnds lines) tree ∧ OnlyImports tree := by
  obtain ⟨line, more, rfl⟩ := List.exists_cons_of_ne_nil hne
  obtain ⟨hline, hmore⟩ := List.forall_mem_cons.mp hlines
  obtain ⟨node, hitem, huse⟩ := exists_import hline
  have htext : withEnds (line :: more) = line.toList ++ '\n' :: withEnds more := by
    simp [withEnds]
  refine ⟨?_, ?_⟩
  · have hends : ∀ line ∈ importLines, line.toList.getLast? = some ';' := by decide
    obtain ⟨front, last, hfront⟩ := (List.eq_nil_or_concat (line :: more)).resolve_left hne
    obtain ⟨before, hbefore⟩ := List.getLast?_eq_some_iff.mp
      (hends last (hlines last (by rw [hfront]; simp)))
    refine ⟨withEnds front ++ before, ';', ?_, by decide⟩
    rw [hfront]
    simp [withEnds, hbefore]
  · obtain ⟨trees, hreads, -, t, hlast, hend⟩ := hitem.reads
    have hgrown : Grown (line.toList ++ ['\n']) _ := ⟨Rust.parse_eq_ok_iff.mpr ⟨_, _, hreads, rfl⟩,
      _, mem_toOption_of_eq_ok hreads.tokens, fun u hu => by
        rw [hlast] at hu
        cases hu
        exact hend⟩
    obtain ⟨after, hafter, hnodes⟩ := exists_imports hgrown (List.forall_mem_singleton.mpr huse) hmore
    exact ⟨after, htext ▸ hafter, hnodes⟩

/-! ### The file -/

/-- The imports of models. -/
def modelHead (models : List Model) : List Char := withEnds (modelImports models)

theorem endsLine_modelHead (models : List Model) : EndsLine (modelHead models) :=
  (exists_head (modelImports_ne_nil models) fun _ h => mem_importLines h).1

/-- **A new file holds the imports and the declarations.** -/
theorem freshModels_eq (models : List Model) : freshModels models = modelHead models ++ declarations models := by
  rw [freshModels, toList_intercalate_newline (modelImports_ne_nil models)]
  exact appendModels_eq (endsLine_modelHead models) models

/-- **Declarations behind the imports of some models are a file of models.** -/
theorem exists_isModelFile (others : List Model) {models : List Model} (h : ∀ m ∈ models, m.FitsDeclaration) :
    ∃ tree, IsModelFile (modelHead others) models tree := by
  obtain ⟨hhead, tree, hgrown, huse⟩ :=
    exists_head (modelImports_ne_nil others) fun _ h => mem_importLines h
  obtain ⟨after, nodes, hafter, hchildren, hplaced⟩ := Placed.of_append hhead hgrown rfl h
  refine ⟨after, hafter, _, nodes, hchildren, fun n hn => ⟨(huse n hn).1, ?_⟩, hplaced⟩
  rw [(huse n hn).2]
  exact List.forall_mem_nil _

/-! ### Finding a model -/

/-- The model is declared under this name, by an item of one of the kinds. -/
def isWanted (name : String) (kinds : List ItemKind) (m : Model) : Bool :=
  kinds.contains m.shape.itemKind && Name.bare m.name == Name.bare name

/-- The item is found under this name among the kinds. -/
def isFound (name : String) (kinds : List ItemKind) (n : Node) : Bool :=
  n.itemKind?.any kinds.contains && Tree.isNamed name n

theorem isFound_move (name : String) (kinds : List ItemKind) (g : Nat → Nat) (n : Node) :
    isFound name kinds (n.move g) = isFound name kinds n := by
  rw [isFound, isFound, Tree.isNamed, Tree.isNamed, Node.itemKind?_move, Node.name?_move]

theorem isFound_modelItem {m : Model} {node : Node} (h : IsModelItem m node) (name : String)
    (kinds : List ItemKind) : isFound name kinds node = isWanted name kinds m := by
  rw [isFound, isWanted, Tree.isNamed, h.kind, h.name]
  rfl

/-- Among items that are placed the first one that is wanted is found. -/
theorem Placed.find?_eq {d : Nat} {before behind : List Model} {m : Model} {nodes : List Node}
    (h : Placed d (before ++ m :: behind) nodes) : ∃ node, IsModelItem m node ∧
      ∀ {name : String} {kinds : List ItemKind}, (∀ x ∈ before, isWanted name kinds x = false) →
        isWanted name kinds m = true →
          nodes.find? (isFound name kinds) = some (node.move (· + (d + (declarations before).length + 1))) := by
  induction before generalizing d nodes with
  | nil =>
    cases h with
    | @cons _ _ node _ nodes first _ =>
      refine ⟨node, first, fun _ hm => ?_⟩
      rw [List.find?_cons, isFound_move, isFound_modelItem first, hm]
      rfl
  | cons x before ih =>
    cases h with
    | @cons _ _ node _ nodes first following =>
      obtain ⟨found, hfound, hfind⟩ := ih following
      refine ⟨found, hfound, fun hbefore hm => ?_⟩
      obtain ⟨hx, hbefore⟩ := List.forall_mem_cons.mp hbefore
      rw [List.find?_cons, isFound_move, isFound_modelItem first, hx]
      show nodes.find? (isFound _ _) = _
      rw [hfind hbefore hm, declarations_cons, List.length_append, List.length_cons]
      congr 3
      funext y
      omega

theorem Placed.find?_eq_none {d : Nat} {models : List Model} {nodes : List Node} (h : Placed d models nodes)
    {name : String} {kinds : List ItemKind} (hnone : ∀ m ∈ models, isWanted name kinds m = false) :
    nodes.find? (isFound name kinds) = none := by
  induction h with
  | nil => rfl
  | cons first _ ih =>
    obtain ⟨hm, hmodels⟩ := List.forall_mem_cons.mp hnone
    rw [List.find?_cons, isFound_move, isFound_modelItem first, hm]
    exact ih hmodels

theorem Placed.isPlain {d : Nat} {models : List Model} {nodes : List Node} (h : Placed d models nodes) :
    ∀ n ∈ nodes, ∀ m ∈ Node.walkAll n.children, m.itemKind? = none := by
  induction h with
  | nil => exact List.forall_mem_nil _
  | cons first _ ih =>
    refine List.forall_mem_cons.mpr ⟨fun m hm => ?_, ih⟩
    rw [Node.children_move, Node.walkAll_map_move] at hm
    obtain ⟨x, hx, rfl⟩ := List.mem_map.mp hm
    rw [Node.itemKind?_move]
    exact first.item.plain x hx

namespace IsModelFile

variable {head : List Char} {models : List Model} {tree : Tree}

/-- Declarations are found among the items of the models. -/
theorem find?_eq_nodes (h : IsModelFile head models tree) : ∃ nodes, Placed head.length models nodes ∧
    ∀ (name : String) {kinds : List ItemKind}, .use ∉ kinds →
      tree.find? name kinds = nodes.find? (isFound name kinds) := by
  obtain ⟨heads, nodes, hchildren, huse, hplaced⟩ := h.items
  refine ⟨nodes, hplaced, fun name kinds hkinds => ?_⟩
  have hfile : tree.root.itemKind? = none := by
    obtain ⟨_, _, _, rfl⟩ := Rust.parse_eq_ok_iff.mp h.grown.parsed
    rfl
  have hheads : heads.find? (isFound name kinds) = none := List.find?_eq_none.mpr fun n hn => by
    have hnot : kinds.contains ItemKind.use = false := by
      rw [← Bool.not_eq_true, List.contains_iff_mem]
      exact hkinds
    rw [isFound, (huse n hn).1, Option.any_some, hnot, Bool.false_and]
    exact Bool.false_ne_true
  have hall : ∀ n ∈ tree.root.children, ∀ m ∈ Node.walkAll n.children, m.itemKind? = none := by
    rw [hchildren]
    exact List.forall_mem_append.mpr ⟨fun n hn => (huse n hn).2, hplaced.isPlain⟩
  rw [Tree.find?_eq_children hfile hall, hchildren, List.find?_append]
  exact congrArg (Option.or · _) hheads

/-- **The first model that is wanted is found where it is written.** -/
theorem find?_eq {before behind : List Model} {m : Model} (h : IsModelFile head (before ++ m :: behind) tree) :
    ∃ node, IsModelItem m node ∧ ∀ {name : String} {kinds : List ItemKind}, .use ∉ kinds →
      (∀ x ∈ before, isWanted name kinds x = false) → isWanted name kinds m = true →
        tree.find? name kinds =
          some (node.move (· + (head.length + (declarations before).length + 1))) := by
  obtain ⟨nodes, hplaced, hfind⟩ := h.find?_eq_nodes
  obtain ⟨node, hnode, heq⟩ := hplaced.find?_eq
  exact ⟨node, hnode, fun hkinds hbefore hm => (hfind _ hkinds).trans (heq hbefore hm)⟩

/-- Nothing else is found. -/
theorem find?_eq_none (h : IsModelFile head models tree) {name : String} {kinds : List ItemKind}
    (hkinds : .use ∉ kinds) (hnone : ∀ m ∈ models, isWanted name kinds m = false) :
    tree.find? name kinds = none := by
  obtain ⟨nodes, hplaced, hfind⟩ := h.find?_eq_nodes
  exact (hfind name hkinds).trans (hplaced.find?_eq_none hnone)

end IsModelFile

end ContractSync.Sync
