import ContractSync.Proofs.Edit.Keep
import ContractSync.Proofs.Emit.Handler
import ContractSync.Proofs.Emit.QueryStruct
import ContractSync.Proofs.Sync.Growth
import ContractSync.Sync.HandlerModule

/-!
# The module of handlers grows

**A module of handlers only grows** (`updateHandlers_grows`): what was there stays in front, each handler
that was missing is one function more, and a second run adds nothing. All that this takes of a route is that
items are written for it (`IsWellFormed`), and where what it says fits, they are. The structure of the query
parameters takes its name from the handler, without the underscores in front: behind them may stand a digit,
and what is written then is not read again (`updateHandlers_fails`).
-/

namespace ContractSync.Sync

open Emit (FitsStub IsPart handlerArguments handlerStub queryStruct queryStructName)
open Rust (IsIdentifier IsItemText Node Tree)

namespace HandlerModule

variable {m : HandlerModule} {tree : Tree} {route : Route} {routes : List Route}

/-- The module is a text with these functions and structures. -/
structure Holds (m : HandlerModule) (tree : Tree) : Prop where
  grown : Grown m.source tree
  functions : ∀ name, name ∈ m.functions ↔ name ∈ tree.functionNames
  structs : ∀ name, name ∈ m.structs ↔ name ∈ tree.structNames

/-- What is written for the route fits where it is written. -/
structure FitsModule (route : Route) : Prop where
  handler : IsIdentifier route.handlerName
  stub : FitsStub route
  params : ∀ p ∈ route.params, '\n' ∉ p.name.toList
  struct : route.paramsIn .query ≠ [] → IsIdentifier (queryStructName route)

/-- The name of the structure of the query parameters, if there are any. -/
def structOf (route : Route) : Option String := (queryStruct route).map Prod.fst

/-- The texts for the route can be made. -/
def Emits (route : Route) : Prop :=
  ∃ arguments stub, handlerArguments route (structOf route) = .ok arguments ∧
    handlerStub route arguments = .ok stub

/-- What is written for the route are items: a structure for its query parameters, if it has any, and a function of
the handler's name. -/
structure IsWellFormed (route : Route) : Prop where
  struct : ∀ name code, queryStruct route = some (name, code) →
    ∃ node, IsItemText code.toList node ∧ node.itemKind? = some .struct_ ∧ node.name? = some name
  handler : ∃ arguments stub node, handlerArguments route (structOf route) = .ok arguments ∧
    handlerStub route arguments = .ok stub ∧ IsItemText stub.toList node ∧ node.itemKind? = some .function ∧
    node.name? = some route.handlerName

theorem queryStruct_eq_some {name code : String} (h : queryStruct route = some (name, code)) :
    route.paramsIn .query ≠ [] ∧ name = queryStructName route := by
  unfold queryStruct at h
  split at h
  · cases h
  · rename_i hne
    cases h
    exact ⟨hne, rfl⟩

theorem isWord_structOf (route : Route) : ∀ name ∈ structOf route, Name.IsWord name := by
  intro name hname
  obtain ⟨⟨name', code⟩, hfound, rfl⟩ := Option.map_eq_some_iff.mp hname
  rw [(queryStruct_eq_some hfound).2]
  exact Name.isWord_append
    (fun c hc => Name.isWordChar_of_isAlphanum (Name.alphanum_of_mem_pascal c hc)) ⟨by decide, by decide⟩

theorem FitsModule.exists_struct (hfits : FitsModule route) (hwords : route.IsWorded) {name code : String}
    (hfound : queryStruct route = some (name, code)) :
    ∃ node, IsItemText code.toList node ∧ node.itemKind? = some .struct_ ∧ node.name? = some name ∧
      ∀ behind, node.fields.map (Node.fieldView (code.toList ++ behind)) = Emit.queryViews route :=
  Emit.exists_queryStruct hfound hwords hfits.params (Rust.newline_notMem_of_isIdentifier hfits.handler)
    (hfits.struct (queryStruct_eq_some hfound).1)

/-- **What fits is well formed.** -/
theorem FitsModule.isWellFormed (hfits : FitsModule route) (hwords : route.IsWorded) (hemits : Emits route) :
    IsWellFormed route := by
  obtain ⟨arguments, stub, harguments, hstub⟩ := hemits
  refine ⟨fun name code hfound => ?_, arguments, stub, ?_⟩
  · obtain ⟨node, hnode, hkind, hname, -⟩ := hfits.exists_struct hwords hfound
    exact ⟨node, hnode, hkind, hname⟩
  · obtain ⟨node, hnode, hkind, hname, -⟩ := Emit.exists_handlerStub hwords hfits.stub hfits.handler
      (Emit.isPart_handlerArguments hwords (isWord_structOf route) harguments) hstub
    exact ⟨node, harguments, hstub, hnode, hkind, hname⟩

/-- The structure of a route's query parameters stands in the file, with the parameters as its fields. -/
def HasStruct (tree : Tree) (route : Route) (name : String) : Prop :=
  ∃ code node, Contains tree code node ∧ node.itemKind? = some .struct_ ∧ node.name? = some name ∧
    ∀ behind, node.fields.map (Node.fieldView (code ++ behind)) = Emit.queryViews route

/-- The handler of a route stands in the file, as a function. -/
def HasHandler (tree : Tree) (route : Route) : Prop :=
  ∃ arguments stub node, handlerArguments route (structOf route) = .ok arguments ∧
    handlerStub route arguments = .ok stub ∧ Contains tree stub.toList node ∧
    node.itemKind? = some .function ∧ node.name? = some route.handlerName

theorem HasStruct.extends {after : Tree} {name : String} (h : HasStruct tree route name)
    (hafter : Extends tree after) : HasStruct after route name := by
  obtain ⟨code, node, hcontains, hnode⟩ := h
  exact ⟨code, node, hcontains.extends hafter, hnode⟩

theorem HasHandler.extends {after : Tree} (h : HasHandler tree route) (hafter : Extends tree after) :
    HasHandler after route := by
  obtain ⟨arguments, stub, node, harguments, hstub, hcontains, hnode⟩ := h
  exact ⟨arguments, stub, node, harguments, hstub, hcontains.extends hafter, hnode⟩

theorem Holds.source_le {m' : HandlerModule} {after : Tree} (h : m.Holds tree) (h' : m'.Holds after)
    (hafter : Extends tree after) : m.source <+: m'.source := by
  rw [← h.grown.source_eq, ← h'.grown.source_eq]
  exact hafter.source

/-- **The structure of the query parameters** is added if none of its name is there. -/
theorem Holds.withQueryStruct (h : m.Holds tree) (hroute : IsWellFormed route) :
    ∃ m' after, m.withQueryStruct route = (m', structOf route) ∧ m'.Holds after ∧ Extends tree after ∧
      after.functionNames = tree.functionNames ∧
      after.structNames = tree.structNames ++ lacking tree.structNames (structOf route).toList ∧
      ∀ name code, queryStruct route = some (name, code) → name ∉ tree.structNames →
        ∃ node, IsItemText code.toList node ∧ Contains after code.toList node := by
  unfold HandlerModule.withQueryStruct structOf
  split
  · rename_i hnone
    rw [hnone]
    exact ⟨m, tree, rfl, h, .refl tree, rfl, (List.append_nil _).symm, nofun⟩
  · rename_i name code hfound
    rw [hfound, Option.map_some, Option.toList_some]
    split
    · rename_i hthere
      have hknown : name ∈ tree.structNames := (h.structs name).mp (List.contains_iff_mem.mp hthere)
      rw [lacking_cons_of_mem hknown, lacking_nil, List.append_nil]
      refine ⟨m, tree, rfl, h, .refl tree, rfl, rfl, fun _ _ hsame hnew => ?_⟩
      cases hsame
      exact absurd hknown hnew
    · rename_i hnew
      have hlacks : name ∉ tree.structNames := fun hmem =>
        hnew (List.contains_iff_mem.mpr ((h.structs name).mpr hmem))
      obtain ⟨node, hnode, hkind, hname⟩ := hroute.struct name code hfound
      obtain ⟨after, hgrown, hextends, hcontains, hnames⟩ := h.grown.append_contains hnode
      have hfunctions := hnames .function
      rw [Node.nameOf_of_ne hkind (by decide), List.append_nil] at hfunctions
      have hstructs := hnames .struct_
      rw [Node.nameOf_self hkind hname] at hstructs
      rw [lacking_cons_of_notMem hlacks, lacking_nil]
      refine ⟨_, after, rfl, ⟨hgrown, fun other => ?_, fun other => ?_⟩, hextends, hfunctions, hstructs,
        fun _ _ hsame _ => ?_⟩
      · rw [Tree.functionNames_eq, hfunctions]
        exact h.functions other
      · rw [Tree.structNames_eq, hstructs, List.mem_cons, List.mem_append, List.mem_singleton, or_comm, h.structs]
        rfl
      · cases hsame
        exact ⟨node, hnode, hcontains⟩

theorem addRoute_of_known (h : route.handlerName ∈ m.functions) : m.addRoute route = .ok m := by
  unfold addRoute
  rw [if_pos (List.contains_iff_mem.mpr h)]
  rfl

/-- What is added for a route whose handler is missing. -/
theorem addRoute_of_new {between : HandlerModule} {arguments : List String} {stub : String}
    (hnew : route.handlerName ∉ m.functions) (hstruct : m.withQueryStruct route = (between, structOf route))
    (harguments : handlerArguments route (structOf route) = .ok arguments)
    (hstub : handlerStub route arguments = .ok stub) :
    m.addRoute route = .ok { between with
      source := appendBlock between.source stub.toList
      functions := route.handlerName :: between.functions } := by
  unfold addRoute
  rw [if_neg fun h => hnew (List.contains_iff_mem.mp h), hstruct]
  simp only [harguments, hstub, bind, Except.bind]
  rfl

/-- **One route**: a handler that is missing is one function more, behind the structure of its query parameters. -/
theorem Holds.addMissing (h : m.Holds tree) (hroute : IsWellFormed route) (hnew : route.handlerName ∉ m.functions) :
    ∃ m' after, m.addRoute route = .ok m' ∧ m'.Holds after ∧ Extends tree after ∧
      after.functionNames = tree.functionNames ++ [route.handlerName] ∧
      after.structNames = tree.structNames ++ lacking tree.structNames (structOf route).toList ∧
      HasHandler after route ∧ ∀ name code, queryStruct route = some (name, code) → name ∉ tree.structNames →
        ∃ node, IsItemText code.toList node ∧ Contains after code.toList node := by
  obtain ⟨between, tree', hstruct, hbetween, hfirst, hfunctions, hstructs, hown⟩ := h.withQueryStruct hroute
  obtain ⟨arguments, stub, node, harguments, hstub, hnode, hkind, hname⟩ := hroute.handler
  obtain ⟨after, hgrown, hextends, hcontains, hnames⟩ := hbetween.grown.append_contains hnode
  have hone := (hnames .function).trans (congrArg _ (Node.nameOf_self hkind hname))
  have hsame := hnames .struct_
  rw [Node.nameOf_of_ne hkind (by decide), List.append_nil] at hsame
  refine ⟨_, after, addRoute_of_new hnew hstruct harguments hstub, ⟨hgrown, fun name => ?_, fun name => ?_⟩,
    hfirst.trans hextends, hfunctions ▸ hone, hsame.trans hstructs,
    ⟨arguments, stub, node, harguments, hstub, hcontains, hkind, hname⟩, fun name code hfound hlacks => ?_⟩
  · rw [Tree.functionNames_eq, hone, List.mem_cons, List.mem_append, List.mem_singleton,
      hbetween.functions, or_comm]
    rfl
  · rw [Tree.structNames_eq, hsame]
    exact hbetween.structs name
  · obtain ⟨struct, hitem, hthere⟩ := hown name code hfound hlacks
    exact ⟨struct, hitem, hthere.extends hextends⟩

/-- One route that fits: the structure of its query parameters has them as its fields. -/
theorem Holds.addRoute (h : m.Holds tree) (hwords : route.IsWorded) (hfits : FitsModule route)
    (hemits : Emits route) (hnew : route.handlerName ∉ m.functions) :
    ∃ m' after, m.addRoute route = .ok m' ∧ m'.Holds after ∧ Extends tree after ∧
      after.functionNames = tree.functionNames ++ [route.handlerName] ∧
      after.structNames = tree.structNames ++ lacking tree.structNames (structOf route).toList ∧
      HasHandler after route ∧ ∀ name ∈ structOf route, name ∉ tree.structNames → HasStruct after route name := by
  obtain ⟨m', after, hadd, hholds, hextends, hfunctions, hstructs, hhandler, hown⟩ :=
    h.addMissing (hfits.isWellFormed hwords hemits) hnew
  refine ⟨m', after, hadd, hholds, hextends, hfunctions, hstructs, hhandler, fun name hname hlacks => ?_⟩
  obtain ⟨⟨name', code⟩, hfound, rfl⟩ := Option.map_eq_some_iff.mp hname
  obtain ⟨node, hnode, hcontains⟩ := hown name' code hfound hlacks
  -- Its text is the text of one item only, so the item in the file is the one with the fields.
  obtain ⟨node', hnode', hkind, hname', hviews⟩ := hfits.exists_struct hwords hfound
  obtain rfl := hnode.unique hnode'
  exact ⟨_, node, hcontains, hkind, hname', hviews⟩

theorem foldlM_addRoute_of_known (h : ∀ route ∈ routes, route.handlerName ∈ m.functions) :
    routes.foldlM addRoute m = .ok m := by
  induction routes with
  | nil => rfl
  | cons route routes ih =>
    obtain ⟨hroute, hroutes⟩ := List.forall_mem_cons.mp h
    rw [List.foldlM_cons, addRoute_of_known hroute]
    exact ih hroutes

/-- **All routes**: what is added is what was missing, and it stands at the top. -/
theorem Holds.foldlM_addMissing (h : m.Holds tree)
    (hroutes : ∀ route ∈ routes, route.handlerName ∉ tree.functionNames → IsWellFormed route) :
    ∃ m' after, routes.foldlM HandlerModule.addRoute m = .ok m' ∧ m'.Holds after ∧ Extends tree after ∧
      after.functionNames =
        tree.functionNames ++ lacking tree.functionNames (routes.map Route.handlerName) ∧
      ∀ name ∈ lacking tree.functionNames (routes.map Route.handlerName), name ∈ after.topFunctions := by
  induction routes generalizing m tree with
  | nil => exact ⟨m, tree, rfl, h, .refl tree, (List.append_nil _).symm, List.forall_mem_nil _⟩
  | cons route routes ih =>
    obtain ⟨hroute, hroutes⟩ := List.forall_mem_cons.mp hroutes
    rw [List.foldlM_cons, List.map_cons]
    by_cases hknown : route.handlerName ∈ tree.functionNames
    · rw [addRoute_of_known ((h.functions _).mpr hknown), lacking_cons_of_mem hknown]
      exact ih h hroutes
    · obtain ⟨between, tree', hadd, hbetween, hextends, hone, -, hhandler, -⟩ :=
        h.addMissing (hroute hknown) (mt (h.functions _).mp hknown)
      obtain ⟨m', after, hrun, hafter, hgoes, hnames, htops⟩ := ih hbetween fun r hr hnew =>
        hroutes r hr fun hold => hnew (hone ▸ List.mem_append_left _ hold)
      obtain ⟨_, _, _, -, -, hcontains, hkind, hname⟩ := hhandler
      -- What lacks behind this route lacks in a file that has its handler.
      rw [hone] at hnames htops
      rw [lacking_cons_of_notMem hknown]
      refine ⟨m', after, by rw [hadd]; exact hrun, hafter, hextends.trans hgoes, ?_, List.forall_mem_cons.mpr
        ⟨hgoes.topFunctions (hcontains.mem_topFunctions hkind hname), htops⟩⟩
      rw [hnames, List.append_assoc, List.singleton_append]

/-- All routes that fit. -/
theorem Holds.foldlM_addRoute (h : m.Holds tree) (hwords : ∀ route ∈ routes, route.IsWorded)
    (hfits : ∀ route ∈ routes, FitsModule route)
    (hemits : ∀ route ∈ routes, route.handlerName ∉ tree.functionNames → Emits route) :
    ∃ m' after, routes.foldlM HandlerModule.addRoute m = .ok m' ∧ m'.Holds after ∧
      m.source <+: m'.source ∧
      after.functionNames =
        tree.functionNames ++ lacking tree.functionNames (routes.map Route.handlerName) := by
  obtain ⟨m', after, hrun, hafter, hextends, hnames, -⟩ := h.foldlM_addMissing fun route hroute hnew =>
    (hfits route hroute).isWellFormed (hwords route hroute) (hemits route hroute hnew)
  exact ⟨m', after, hrun, hafter, h.source_le hafter hextends, hnames⟩

theorem ofSource_of_grown {source : List Char} (h : Grown source tree)
    (hblank : Text.isAllBlank source = false) (path : Option String) :
    ofSource source path = .ok ⟨source, tree.functionNames, tree.structNames⟩ := by
  rw [ofSource, hblank, if_neg Bool.false_ne_true, Edit.readSource_eq_ok.mpr h.parsed]
  rfl

/-- A fresh module, line by line. -/
theorem fresh_source :
    fresh.source = ['\n'].intercalate (Emit.handlerImports.map String.toList) ++ ['\n'] := by
  have hend : "\n".toList = ['\n'] := by decide
  rw [fresh, String.toList_append, String.toList_intercalate, hend]

/-- A fresh module has imports only. -/
theorem exists_fresh : ∃ tree, fresh.Holds tree ∧ tree.functionNames = [] ∧ tree.structNames = [] ∧
    Text.isAllBlank fresh.source = false := by
  have hhead : ∃ tree ∈ grownOf? fresh.source,
      tree.functionNames = [] ∧ tree.structNames = [] ∧ Text.isAllBlank fresh.source = false := by
    rw [fresh_source]
    decide +kernel
  obtain ⟨tree, htree, hfunctions, hstructs, hblank⟩ := hhead
  exact ⟨tree, ⟨.of_grownOf? (Option.mem_def.mp htree), fun name => by rw [hfunctions]; rfl,
    fun name => by rw [hstructs]; rfl⟩, hfunctions, hstructs, hblank⟩

/-- Where a module of handlers starts: at the head, or at the text that is there. -/
theorem exists_ofSource {source : List Char} (path : Option String)
    (h : Text.isAllBlank source = true ∨ ∃ tree, Grown source tree) :
    ∃ start tree, ofSource source path = .ok start ∧ start.Holds tree ∧
      tree.functionNames = functionsOf source ∧ Text.isAllBlank start.source = false ∧
      (Text.isAllBlank source = false → start.source = source) := by
  by_cases hblank : Text.isAllBlank source = true
  · obtain ⟨tree, hholds, hnone, -, hnotBlank⟩ := exists_fresh
    refine ⟨fresh, tree, if_pos hblank, hholds,
      hnone.trans (functionsOf_of_isAllBlank hblank).symm, hnotBlank, fun h => ?_⟩
    rw [hblank] at h
    cases h
  · obtain ⟨tree, htree⟩ := h.resolve_left hblank
    rw [Bool.not_eq_true] at hblank
    exact ⟨_, tree, ofSource_of_grown htree hblank path,
      ⟨htree, fun _ => Iff.rfl, fun _ => Iff.rfl⟩, (functionsOf_eq htree.parsed).symm, hblank, fun _ => rfl⟩

end HandlerModule

theorem updateHandlers_eq_ok {source : List Char} {routes : List Route} {path : Option String}
    {start m : HandlerModule} (hstart : HandlerModule.ofSource source path = .ok start)
    (hadd : routes.foldlM HandlerModule.addRoute start = .ok m) :
    updateHandlers source routes path = .ok m.source := by
  rw [updateHandlers, hstart, mapError_ok]
  simp only [hadd, bind, Except.bind, mapError_ok]
  rfl

/-- **A module of handlers only grows.** What was there stays in front; each handler that was missing is one
function more, no other one is added, and a second run changes nothing. -/
theorem updateHandlers_grows {doc : Contract.Canonical} {all routes : List Route} {source : List Char}
    (path : Option String) (hdoc : (Route.ofDocument doc).collect.1 = .ok all)
    (hroutes : ∀ route ∈ routes, route ∈ all)
    (hsource : Text.isAllBlank source = true ∨ ∃ tree, Grown source tree)
    (hfits : ∀ route ∈ routes, HandlerModule.FitsModule route)
    (hemits : ∀ route ∈ routes, route.handlerName ∉ functionsOf source → HandlerModule.Emits route) :
    ∃ result after added, updateHandlers source routes path = .ok result ∧
      Rust.parse result = .ok after ∧ (Text.isAllBlank source = false → source <+: result) ∧
      after.functionNames = functionsOf source ++ added ∧ added.Nodup ∧
      (∀ name, name ∈ added ↔
        name ∉ functionsOf source ∧ ∃ route ∈ routes, route.handlerName = name) ∧
      (∀ route ∈ routes, route.handlerName ∈ after.functionNames) ∧
      updateHandlers result routes path = .ok result := by
  have hwords : ∀ route ∈ routes, route.IsWorded := fun route hroute =>
    Route.ofDocument_isWorded (Resolving.yields_of_collect hdoc) route (hroutes route hroute)
  obtain ⟨start, tree, hstart, hholds, hnames, hblank, hsame⟩ :=
    HandlerModule.exists_ofSource path hsource
  rw [← hnames] at hemits
  obtain ⟨m, after, hadd, hafter, hkept, hfunctions⟩ := hholds.foldlM_addRoute hwords hfits hemits
  rw [hnames] at hfunctions
  have hall : ∀ route ∈ routes, route.handlerName ∈ after.functionNames := fun route hroute =>
    hfunctions ▸ mem_append_lacking (List.mem_map_of_mem hroute)
  refine ⟨_, after, _, updateHandlers_eq_ok hstart hadd, hafter.grown.parsed, fun h => hsame h ▸ hkept, hfunctions,
    nodup_lacking _ _, fun name => by rw [mem_lacking, List.mem_map], hall, ?_⟩
  -- The second run finds every handler.
  have hagain := HandlerModule.ofSource_of_grown hafter.grown (not_isAllBlank_of_extends hkept hblank) path
  have hrun := updateHandlers_eq_ok hagain (HandlerModule.foldlM_addRoute_of_known hall)
  exact hrun

/-! ### A document with a query parameter -/

/-- The method of the operation is open. -/
def searchDocument (method : String) : Document.Entries :=
  [(.text "openapi", .text "3.2.0"),
   (.text "paths", .object [("/", .object [("additionalOperations", .object [(method, .object [
     ("parameters", .list [.object [("name", .text "q"), ("in", .text "query")]])])])])])]

theorem fitsStub_of_isEmpty {route : Route} (hheaders : route.responseHeaders.isEmpty = true)
    (hlinks : route.responseLinks.isEmpty = true) : FitsStub route := by
  refine ⟨?_, ?_⟩
  · rw [List.isEmpty_iff.mp hheaders]
    exact List.forall_mem_nil _
  · rw [List.isEmpty_iff.mp hlinks]
    exact List.forall_mem_nil _

theorem emits_of_isSome {route : Route}
    (h : (handlerArguments route (HandlerModule.structOf route) >>=
      handlerStub route).toOption.isSome = true) : HandlerModule.Emits route := by
  obtain ⟨stub, hstub⟩ := Option.isSome_iff_exists.mp h
  obtain ⟨arguments, harguments, hstub⟩ := bind_eq_ok.mp (eq_ok_of_toOption hstub)
  exact ⟨arguments, stub, harguments, hstub⟩

/-- A module with a function, behind a comment. -/
def moduleSample : List Char := "// Written by hand.\npub fn a() \x7b\x7d".toList

theorem updateHandlers_grows_search :
    ∃ doc all result after added, Contract.normalize (searchDocument "find") = .ok doc ∧
      (Route.ofDocument doc).collect.1 = .ok all ∧
      updateHandlers moduleSample all = .ok result ∧ Rust.parse result = .ok after ∧
      (Text.isAllBlank moduleSample = false → moduleSample <+: result) ∧
      after.functionNames = functionsOf moduleSample ++ added ∧ added.Nodup ∧
      (∀ name, name ∈ added ↔
        name ∉ functionsOf moduleSample ∧ ∃ route ∈ all, route.handlerName = name) ∧
      (∀ route ∈ all, route.handlerName ∈ after.functionNames) ∧
      updateHandlers result all = .ok result := by
  have htext : moduleSample = _ := Text.toList_const rfl
  have hsample : ∃ tree, grownOf? moduleSample = some tree := by
    rw [htext]
    exact Option.isSome_iff_exists.mp (by decide +kernel)
  obtain ⟨tree, htree⟩ := hsample
  have hfacts : ∃ found ∈ Emit.routesOf? (searchDocument "find"), ∀ route ∈ found.2,
      (IsIdentifier route.handlerName ∧ (∀ p ∈ route.params, '\n' ∉ p.name.toList) ∧
        IsIdentifier (queryStructName route)) ∧
      (route.responseHeaders.isEmpty = true ∧ route.responseLinks.isEmpty = true) ∧
      (handlerArguments route (HandlerModule.structOf route) >>=
        handlerStub route).toOption.isSome = true := by
    decide
  obtain ⟨⟨doc, all⟩, hfound, hall⟩ := hfacts
  obtain ⟨hdoc, hroutes⟩ := Emit.routesOf?_eq_some hfound
  have hfits : ∀ route ∈ all, HandlerModule.FitsModule route := fun route hroute => by
    obtain ⟨⟨hname, hparams, hstruct⟩, ⟨hheaders, hlinks⟩, -⟩ := hall route hroute
    exact ⟨hname, fitsStub_of_isEmpty hheaders hlinks, hparams, fun _ => hstruct⟩
  obtain ⟨result, after, added, hgrows⟩ := updateHandlers_grows none hroutes (fun _ h => h)
    (.inr ⟨tree, .of_grownOf? htree⟩) hfits fun route hroute _ => emits_of_isSome (hall route hroute).2.2
  exact ⟨doc, all, result, after, added, hdoc, hroutes, hgrows⟩

/-- What is written for a digit behind an underscore. -/
def numberedStruct : String :=
  "/// Query parameters for \x60_1\x60.\n#[derive(Debug, Clone, Deserialize)]\npub struct 1Query \x7b\n" ++
    "    /// Query parameter \x60q\x60.\n    pub q: Option<String>,\n\x7d\n"

def numberedStub : String :=
  "pub async fn _1(query: web::Query<1Query>) -> impl Responder \x7b\n    todo!()\n\x7d\n"

def numberedModule : List Char :=
  appendBlock (appendBlock HandlerModule.fresh.source numberedStruct.toList) numberedStub.toList

/-- A structure whose name is a number is not read. -/
theorem parse_numberedModule_ne_ok (tree : Tree) : Rust.parse numberedModule ≠ .ok tree := by
  have hstruct : numberedStruct.toList = _ :=
    Text.toList_append_eq (Text.toList_const rfl) (Text.toList_const rfl)
  have hstub : numberedStub.toList = _ := Text.toList_const rfl
  have hfacts : ∃ tokens ∈ Rust.tokensOf? numberedModule,
      ∃ trees ∈ (Rust.TokenTree.ofTokens tokens).toOption,
        (Rust.parseItems numberedModule.length trees).toOption.isSome = false := by
    rw [numberedModule, HandlerModule.fresh_source, hstruct, hstub]
    decide +kernel
  obtain ⟨tokens, htokens, trees, htrees, hitems⟩ := hfacts
  intro htree
  have hread := (Rust.Lexes.of_tokens (Option.mem_def.mp htokens)).tokenize trivial
  rw [Rust.parse, hread] at htree
  simp only [bind, Except.bind, eq_ok_of_toOption htrees] at htree
  split at htree
  · cases htree
  · rename_i items hread
    rw [hread] at hitems
    cases hitems

set_option synthInstance.maxSize 512 in
/-- **A handler whose name is a digit behind an underscore** is an identifier, and the structure of its query
parameters is named by a number: the module is not read again. -/
theorem updateHandlers_fails :
    ∃ doc all result, Contract.normalize (searchDocument "_1") = .ok doc ∧
      (Route.ofDocument doc).collect.1 = .ok all ∧
      (∀ route ∈ all, IsIdentifier route.handlerName ∧ (∀ p ∈ route.params, '\n' ∉ p.name.toList) ∧
        FitsStub route ∧ HandlerModule.Emits route) ∧
      updateHandlers [] all = .ok result ∧ ∀ tree, Rust.parse result ≠ .ok tree := by
  have hfacts : ∃ found ∈ Emit.routesOf? (searchDocument "_1"), ∃ route ∈ found.2.head?,
      found.2.length = 1 ∧ IsIdentifier route.handlerName ∧ (∀ p ∈ route.params, '\n' ∉ p.name.toList) ∧
      (route.responseHeaders.isEmpty = true ∧ route.responseLinks.isEmpty = true) ∧
      queryStruct route = some ("1Query", numberedStruct) ∧
      ∃ arguments ∈ (handlerArguments route (some "1Query")).toOption,
        (handlerStub route arguments).toOption = some numberedStub := by
    decide +kernel
  obtain ⟨⟨doc, all⟩, hfound, route, hroute, hone, hname, hparams, ⟨hheaders, hlinks⟩, hstruct, arguments,
    harguments, hstub⟩ := hfacts
  obtain ⟨hdoc, hroutes⟩ := Emit.routesOf?_eq_some hfound
  obtain ⟨only, rfl⟩ := List.length_eq_one_iff.mp hone
  obtain rfl := Option.mem_some_iff.mp hroute
  have hquery : HandlerModule.structOf only = some "1Query" := by rw [HandlerModule.structOf, hstruct]; rfl
  have harguments := hquery ▸ eq_ok_of_toOption harguments
  have hstub := eq_ok_of_toOption hstub
  have hwith : HandlerModule.fresh.withQueryStruct only = (⟨appendBlock HandlerModule.fresh.source
      numberedStruct.toList, [], ["1Query"]⟩, HandlerModule.structOf only) := by
    rw [hquery, HandlerModule.withQueryStruct, hstruct]
    rfl
  have hstart : HandlerModule.ofSource [] none = .ok HandlerModule.fresh := if_pos rfl
  have hadd := HandlerModule.addRoute_of_new List.not_mem_nil hwith harguments hstub
  have hall : [only].foldlM HandlerModule.addRoute HandlerModule.fresh =
      .ok ⟨numberedModule, [only.handlerName], ["1Query"]⟩ := by
    rw [List.foldlM_cons, hadd, numberedModule]
    simp only [bind, Except.bind, List.foldlM_nil, pure, Except.pure]
  have hrun := updateHandlers_eq_ok hstart hall
  simp only at hrun
  exact ⟨doc, [only], numberedModule, hdoc, hroutes, List.forall_mem_singleton.mpr ⟨hname, hparams,
    fitsStub_of_isEmpty hheaders hlinks, arguments, _, harguments, hstub⟩,
    hrun, parse_numberedModule_ne_ok⟩

end ContractSync.Sync
