import ContractSync.Proofs.Emit.Registration
import ContractSync.Proofs.Sync.QueryStructs

/-!
# Handlers that registrations reach

A registration names its handler by a path, and the path leads to a function at the top of the group's module
(`LeadsTo`). Whether a handler is missing is decided by all functions of the module, those in nested modules,
implementations and traits among them.

**After an update the path of a route leads to a function exactly if the module had one of the handler's name at
the top, or none at all** (`updateHandlers_reaches`). Where the only function of that name stands further down, the
handler is not written, and its registration leads nowhere (`updateHandlers_hides`).
-/

namespace ContractSync.Emit

/-- The path of a handler tells its name. -/
theorem handlerPath_inj {group a b : String} (h : handlerPath group a = handlerPath group b) : a = b := by
  have hchars := congrArg String.toList h
  rw [handlerPath_toList, handlerPath_toList] at hchars
  exact String.toList_inj.mp (List.append_cancel_left hchars)

end ContractSync.Emit

namespace ContractSync.Sync

open Emit (handlerPath)
open HandlerModule (IsWellFormed)
open Rust (Node Tree)

variable {source : List Char} {tree : Tree} {routes : List Route} {group name : String}

/-! ### Functions at the top -/

/-- The functions at the top of a text. -/
def topFunctionsOf (source : List Char) : List String :=
  ((Rust.parse source).toOption.map Tree.topFunctions).getD []

theorem topFunctionsOf_eq (h : Rust.parse source = .ok tree) : topFunctionsOf source = tree.topFunctions := by
  rw [topFunctionsOf, h]
  rfl

/-- The functions of a file are those among its items and further down. -/
theorem functionNames_of_parse (h : Rust.parse source = .ok tree) : tree.functionNames =
    ((Node.walkAll tree.root.children).filter (·.itemKind? == some .function)).filterMap Node.name? := by
  obtain ⟨_, nodes, _, rfl⟩ := Rust.parse_eq_ok_iff.mp h
  rw [Tree.functionNames, Tree.itemsOf, Tree.nodes, Node.walk, List.filter_cons_of_neg (by
    simp [Node.itemKind?, Node.shape])]
  rfl

/-- An item stands among all that is in the items. -/
theorem mem_names_of_mem {nodes : List Node} {node : Node} (h : node ∈ nodes)
    (hkind : node.itemKind? = some .function) (hname : node.name? = some name) :
    name ∈ ((Node.walkAll nodes).filter (·.itemKind? == some .function)).filterMap Node.name? :=
  List.mem_filterMap.mpr ⟨node, List.mem_filter.mpr ⟨Node.mem_walkAll.mpr ⟨node, h, node.mem_walk_self⟩,
    beq_iff_eq.mpr hkind⟩, hname⟩

theorem topFunctions_subset (h : Rust.parse source = .ok tree) (hname : name ∈ tree.topFunctions) :
    name ∈ tree.functionNames := by
  obtain ⟨node, hnode, hkind, hname⟩ := Tree.mem_topFunctions.mp hname
  rw [functionNames_of_parse h]
  exact mem_names_of_mem hnode hkind hname

/-- Without functions there are none at the top. -/
theorem topFunctionsOf_of_isAllBlank (h : Text.isAllBlank source = true) : name ∉ topFunctionsOf source := by
  intro hname
  obtain ⟨tree, htree, hname⟩ : ∃ tree, Rust.parse source = .ok tree ∧ name ∈ tree.topFunctions := by
    unfold topFunctionsOf at hname
    cases hparse : Rust.parse source with
    | error => rw [hparse] at hname; cases hname
    | ok tree => exact ⟨tree, rfl, by rwa [hparse] at hname⟩
  have hfunction := topFunctions_subset htree hname
  rw [← functionsOf_eq htree, functionsOf_of_isAllBlank h] at hfunction
  cases hfunction

/-- A function at the top of a file that has grown was there, or is one of those that were added. -/
theorem Extends.topFunctions_or {before after : Tree} {result : List Char} {added : List String}
    (h : Extends before after) (hbefore : Grown source before) (hafter : Grown result after)
    (hadded : after.functionNames = before.functionNames ++ added) (hname : name ∈ after.topFunctions) :
    name ∈ before.topFunctions ∨ name ∈ added := by
  obtain ⟨more, hmore⟩ := h.children
  obtain ⟨node, hnode, hkind, hname⟩ := Tree.mem_topFunctions.mp hname
  rw [← hmore, List.mem_append] at hnode
  -- What was there counts the same before and after, so the functions of the items behind it are those added.
  refine hnode.imp (fun hold => Tree.mem_topFunctions.mpr ⟨node, hold, hkind, hname⟩) fun hnew => ?_
  rw [functionNames_of_parse hafter.parsed, functionNames_of_parse hbefore.parsed, ← hmore, Node.walkAll_append, List.filter_append,
    List.filterMap_append, List.append_cancel_left_eq] at hadded
  rw [← hadded]
  exact mem_names_of_mem hnew hkind hname

/-- The functions at the top after an update: those that were there, and those whose name no function had. -/
theorem HandlerModule.Holds.exists_topFunctions {m : HandlerModule} (h : m.Holds tree)
    (hroutes : ∀ route ∈ routes, route.handlerName ∉ tree.functionNames → IsWellFormed route) :
    ∃ m' after, routes.foldlM HandlerModule.addRoute m = .ok m' ∧ m'.Holds after ∧
      ∀ name, name ∈ after.topFunctions ↔
        name ∈ tree.topFunctions ∨ name ∉ tree.functionNames ∧ name ∈ routes.map Route.handlerName := by
  obtain ⟨m', after, hrun, hafter, hextends, hnames, htops⟩ := h.foldlM_addMissing hroutes
  refine ⟨m', after, hrun, hafter, fun name => ⟨fun hname => ?_, fun hname => ?_⟩⟩
  · rw [← mem_lacking]
    exact hextends.topFunctions_or h.grown hafter.grown hnames hname
  · exact hname.elim hextends.topFunctions fun hnew => htops name (mem_lacking.mpr hnew)

/-! ### What a path leads to -/

/-- The path of a handler leads to the item: it is a function at the top of the group's module, and has the last
name of the path. -/
def LeadsTo (module : Tree) (group path : String) (node : Node) : Prop :=
  node ∈ module.root.children ∧ node.itemKind? = some .function ∧ ∃ name ∈ node.name?, path = handlerPath group name

theorem exists_leadsTo_iff : (∃ node, LeadsTo tree group (handlerPath group name) node) ↔ name ∈ tree.topFunctions := by
  rw [Tree.mem_topFunctions]
  refine exists_congr fun node => and_congr_right fun _ => and_congr_right fun _ => ⟨?_, fun h => ⟨name, h, rfl⟩⟩
  rintro ⟨found, hfound, hpath⟩
  rw [Emit.handlerPath_inj hpath]
  exact hfound

/-- **After an update the path of a route leads to its handler** exactly if the text had a function of that name at
the top, or none at any depth. -/
theorem updateHandlers_reaches (path : Option String) (group : String)
    (hsource : Text.isAllBlank source = true ∨ ∃ tree, Grown source tree)
    (hroutes : ∀ route ∈ routes, route.handlerName ∉ functionsOf source → IsWellFormed route) :
    ∃ result after, updateHandlers source routes path = .ok result ∧ Rust.parse result = .ok after ∧
      ∀ route ∈ routes, (∃ node, LeadsTo after group (handlerPath group route.handlerName) node) ↔
        route.handlerName ∈ topFunctionsOf source ∨ route.handlerName ∉ functionsOf source := by
  obtain ⟨start, tree, hstart, hholds, hnames, -, hsame⟩ := HandlerModule.exists_ofSource path hsource
  rw [← hnames] at hroutes
  obtain ⟨m, after, hadd, hafter, htops⟩ := hholds.exists_topFunctions hroutes
  -- Neither a blank text nor the module that it stands for has a function.
  have hbefore : ∀ name, name ∈ tree.topFunctions ↔ name ∈ topFunctionsOf source := by
    by_cases hblank : Text.isAllBlank source = true
    · refine fun name => iff_of_false (fun hname => ?_) (topFunctionsOf_of_isAllBlank hblank)
      have hfunction := topFunctions_subset hholds.grown.parsed hname
      rw [hnames, functionsOf_of_isAllBlank hblank] at hfunction
      cases hfunction
    · have hparsed := hholds.grown.parsed
      rw [hsame (Bool.not_eq_true _ ▸ hblank)] at hparsed
      rw [topFunctionsOf_eq hparsed]
      exact fun _ => Iff.rfl
  refine ⟨m.source, after, updateHandlers_eq_ok hstart hadd, hafter.grown.parsed, fun route hroute => ?_⟩
  rw [exists_leadsTo_iff, htops, hbefore, hnames]
  exact or_congr_right (and_iff_left (List.mem_map_of_mem hroute))

/-! ### A module with a function further down -/

/-- A document with one operation, which is handled by `get_pets`. -/
def petsDocument : Document.Entries :=
  [(.text "openapi", .text "3.1.0"), (.text "paths", .object [("/pets", .object [("get", .object [])])])]

/-- The only route of the document. -/
theorem exists_pets : ∃ doc route, Contract.normalize petsDocument = .ok doc ∧
    (Route.ofDocument doc).collect.1 = .ok [route] ∧ route.handlerName = "get_pets" ∧ IsWellFormed route := by
  have hfacts : ∃ found ∈ Emit.routesOf? petsDocument, (∀ route ∈ found.2, IsPlainRoute route) ∧
      found.2.map Route.handlerName = ["get_pets"] := by
    decide +kernel
  obtain ⟨⟨doc, all⟩, hfound, hplain, hnames⟩ := hfacts
  obtain ⟨hdoc, hall⟩ := Emit.routesOf?_eq_some hfound
  obtain ⟨route, rfl, hname⟩ := List.map_eq_singleton_iff.mp hnames
  have hmem := List.mem_singleton_self route
  obtain ⟨hfits, hemits⟩ := (hplain route hmem).fits
  have hwords := Route.ofDocument_isWorded (Resolving.yields_of_collect hall) route hmem
  exact ⟨doc, route, hdoc, hall, hname, hfits.isWellFormed hwords hemits⟩

/-- An implementation with a function of another name. -/
def listSample : List Char := "impl Pets \x7b\n    fn list() \x7b\x7d\n\x7d\n".toList

theorem updateHandlers_reaches_pets :
    ∃ doc route result after node, Contract.normalize petsDocument = .ok doc ∧
      (Route.ofDocument doc).collect.1 = .ok [route] ∧ updateHandlers listSample [route] = .ok result ∧
      Rust.parse result = .ok after ∧ LeadsTo after "default" "handlers::default::get_pets" node := by
  have htext : listSample = _ := Text.toList_const rfl
  have hsample : ∃ tree, grownOf? listSample = some tree ∧ tree.functionNames = ["list"] := by
    rw [htext]
    decide +kernel
  obtain ⟨tree, htree, hnames⟩ := hsample
  have hgrown := Grown.of_grownOf? htree
  obtain ⟨doc, route, hdoc, hall, hname, hroute⟩ := exists_pets
  obtain ⟨result, after, hresult, hparse, hleads⟩ := updateHandlers_reaches none "default" (.inr ⟨tree, hgrown⟩)
    (List.forall_mem_singleton.mpr fun _ => hroute)
  have hmissing : route.handlerName ∉ functionsOf listSample := by
    rw [functionsOf_eq hgrown.parsed, hnames, hname]
    decide
  obtain ⟨node, hnode⟩ := (hleads route (List.mem_singleton_self route)).mpr (.inr hmissing)
  have hpath : handlerPath "default" "get_pets" = "handlers::default::get_pets" := by decide +kernel
  rw [hname, hpath] at hnode
  exact ⟨doc, route, result, after, node, hdoc, hall, hresult, hparse, hnode⟩

/-- A module with a function of the handler's name in a module of its own. -/
def hiddenSample : List Char := "mod old \x7b\n    pub fn get_pets() \x7b\x7d\n\x7d\n".toList

/-- **A function further down hides the handler**: the text stays as it is, and the path leads to nothing in it. -/
theorem updateHandlers_hides :
    ∃ doc route tree, Contract.normalize petsDocument = .ok doc ∧
      (Route.ofDocument doc).collect.1 = .ok [route] ∧ IsWellFormed route ∧ Grown hiddenSample tree ∧
      updateHandlers hiddenSample [route] = .ok hiddenSample ∧
      ∀ node, ¬LeadsTo tree "default" (handlerPath "default" route.handlerName) node := by
  have htext : hiddenSample = _ := Text.toList_const rfl
  have hsample : ∃ tree, grownOf? hiddenSample = some tree ∧ tree.functionNames = ["get_pets"] ∧
      tree.topFunctions = [] ∧ Text.isAllBlank hiddenSample = false := by
    rw [htext]
    decide +kernel
  obtain ⟨tree, htree, hnames, htops, hblank⟩ := hsample
  have hgrown := Grown.of_grownOf? htree
  obtain ⟨doc, route, hdoc, hall, hname, hroute⟩ := exists_pets
  have hknown : ∀ r ∈ [route], r.handlerName ∈ tree.functionNames := by
    rw [List.forall_mem_singleton, hname, hnames]
    exact List.mem_singleton_self _
  have hrun := updateHandlers_eq_ok (HandlerModule.ofSource_of_grown hgrown hblank none)
    (HandlerModule.foldlM_addRoute_of_known hknown)
  refine ⟨doc, route, tree, hdoc, hall, hroute, hgrown, hrun, fun node hnode => ?_⟩
  have htop := exists_leadsTo_iff.mp ⟨node, hnode⟩
  rw [htops] at htop
  cases htop

end ContractSync.Sync
