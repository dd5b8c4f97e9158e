import ContractSync.Proofs.Emit.Arguments
import ContractSync.Proofs.Sync.Handlers

/-!
# The structures of a module of handlers

The structure of a route's query parameters is named for its handler, but the name is converted, and what is
there already under the name is not written again. **Each handler refers to the structure of its own name, and a
structure has the query parameters of the first route that asks for its name as its fields**
(`queryStructs_own`): no two routes share a structure exactly if no two ask for the same name. The handlers
`a_1` and `a1` have different names, and `A1Query` is the structure of both (`queryStructs_shared`).
-/

namespace ContractSync.Emit

open Rust (IsIdentifier)
open Sync.HandlerModule (structOf)

/-! ### The structure that a stub refers to -/

/-- The argument that reads the query into a structure. -/
def queryText (struct : String) : String := argument "query" ("web::Query<" ++ struct ++ ">")

theorem isIdentifier_query : IsIdentifier "query" := isIdentifier_given (by simp [givenNames])

theorem queryText_ne {name struct type : String} (h : IsIdentifier name)
    (htype : name ≠ "query" ∨ type.toList[5]? ≠ some 'Q') : queryText struct ≠ argument name type := by
  intro heq
  obtain ⟨rfl, rfl⟩ := argument_inj isIdentifier_query h heq
  refine htype.elim (fun hname => hname rfl) fun hchar => hchar ?_
  rw [String.toList_append, String.toList_append]
  rfl

theorem queryText_inj {struct struct' : String} (h : queryText struct = queryText struct') : struct = struct' := by
  have hsplit : ∀ s, ("web::Query<" ++ s ++ ">").toList = "web::Query<".toList ++ s.toList ++ ">".toList :=
    fun s => by rw [String.toList_append, String.toList_append]
  have htypes := congrArg String.toList (argument_inj isIdentifier_query isIdentifier_query h).2
  rw [hsplit, hsplit] at htypes
  exact String.toList_inj.mp (List.append_cancel_left (List.append_cancel_right htypes))

variable {route : Route}

theorem structOf_eq (route : Route) : structOf route =
    if (route.paramsIn .query).isEmpty then none else some (queryStructName route) := by
  unfold structOf queryStruct
  cases route.paramsIn .query <;> rfl

/-- The query argument reads the query into the structure of the route, if nothing else reads the whole query. -/
theorem mem_queryArgument_iff (hnone : route.paramsIn .queryString = []) {struct : String} :
    queryText struct ∈ queryArgument route (structOf route) ↔ structOf route = some struct := by
  rw [structOf_eq, queryArgument, hnone]
  cases route.paramsIn .query with
  | nil => exact ⟨nofun, nofun⟩
  | cons p rest =>
    rw [List.isEmpty_cons, if_neg Bool.false_ne_true, Option.getD_some]
    exact ⟨fun h => congrArg some (queryText_inj (Option.some.inj h)), fun h => by
      rw [← Option.some.inj h]
      rfl⟩

/-- **The stub of a route refers to the structure of the route and to no other one.** -/
theorem queryText_mem_iff {arguments : List String}
    (h : handlerArguments route (structOf route) = .ok arguments) (hnone : route.paramsIn .queryString = [])
    (struct : String) : queryText struct ∈ arguments ↔ structOf route = some struct := by
  obtain ⟨security, hsecurity, hlist⟩ := bind_eq_ok.mp h
  -- No other argument has the name or the type of the one for the query.
  have hpath : queryText struct ∉ (pathArgument route).toList := by
    unfold pathArgument
    split
    · exact List.not_mem_nil
    · have hchar : ∀ types, ("web::Path<" ++ types ++ ">").toList[5]? ≠ some 'Q' := fun types => by
        rw [String.toList_append, String.toList_append]
        exact nofun
      rw [Option.toList_some, List.mem_singleton]
      refine queryText_ne ?_ (.inr (hchar _))
      split
      · exact Name.isIdentifier_fieldName _
      · exact isIdentifier_given (by simp [givenNames])
  have hplace : ∀ place type, type.toList[5]? ≠ some 'Q' →
      queryText struct ∉ (route.paramsIn place).map fun p => argument (Name.fieldName p.name) type := by
    intro place type htype hmem
    obtain ⟨p, -, hp⟩ := List.mem_map.mp hmem
    exact queryText_ne (Name.isIdentifier_fieldName p.name) (.inr htype) hp.symm
  have hbody : queryText struct ∉ (route.body.map fun body => argument "body" (bodyExtractor body)).toList := by
    rw [Option.mem_toList, Option.map_eq_some_iff]
    rintro ⟨body, -, hbody⟩
    exact queryText_ne (isIdentifier_given (by simp [givenNames])) (.inl (by decide)) hbody.symm
  have hauth : queryText struct ∉ security.toList := by
    intro hmem
    have hname := List.mem_map_of_mem (f := argumentName) hmem
    rw [names_securityArgument hsecurity, queryText, argumentName_argument isIdentifier_query, authNames] at hname
    split at hname
    · cases hname
    · exact absurd (List.mem_singleton.mp hname) (by decide)
  rw [pure_eq_ok.mp hlist]
  simp only [List.mem_append, hpath, hplace .header "web::Header<String>" (by decide),
    hplace .cookie "web::Cookie" (by decide), hbody, hauth, or_false, false_or]
  rw [Option.mem_toList]
  exact mem_queryArgument_iff hnone

end ContractSync.Emit

namespace ContractSync.Sync

open Emit (handlerArguments handlerStub queryParams queryStructName queryText queryViews)
open HandlerModule (Emits FitsModule HasHandler HasStruct structOf)
open Rust (FieldView IsIdentifier Node Tree)

variable {route : Route} {routes : List Route}

/-! ### All routes -/

theorem filterMap_structOf_cons (route : Route) (routes : List Route) :
    (route :: routes).filterMap structOf = (structOf route).toList ++ routes.filterMap structOf := by
  rw [List.filterMap_cons]
  cases structOf route <;> rfl

/-- **Routes that are all new**: each has a handler, and each structure is that of the first route that asks for
its name. -/
theorem HandlerModule.Holds.addRoutes {m : HandlerModule} {tree : Tree} (h : m.Holds tree)
    (hwords : ∀ route ∈ routes, route.IsWorded) (hfits : ∀ route ∈ routes, FitsModule route)
    (hemits : ∀ route ∈ routes, Emits route) (hnames : (routes.map Route.handlerName).Nodup)
    (hnew : ∀ route ∈ routes, route.handlerName ∉ tree.functionNames) :
    ∃ m' after, routes.foldlM HandlerModule.addRoute m = .ok m' ∧ m'.Holds after ∧ Extends tree after ∧
      after.functionNames = tree.functionNames ++ routes.map Route.handlerName ∧
      after.structNames = tree.structNames ++ lacking tree.structNames (routes.filterMap structOf) ∧
      (∀ route ∈ routes, HasHandler after route) ∧
      ∀ before route behind, routes = before ++ route :: behind → ∀ name ∈ structOf route,
        name ∉ tree.structNames → name ∉ before.filterMap structOf → HasStruct after route name := by
  induction routes generalizing m tree with
  | nil =>
    refine ⟨m, tree, rfl, h, .refl tree, (List.append_nil _).symm, (List.append_nil _).symm,
      List.forall_mem_nil _, fun before route behind heq => ?_⟩
    exact absurd (congrArg List.length heq) (by simp)
  | cons first routes ih =>
    obtain ⟨hword, hwords⟩ := List.forall_mem_cons.mp hwords
    obtain ⟨hfit, hfits⟩ := List.forall_mem_cons.mp hfits
    obtain ⟨hemit, hemits⟩ := List.forall_mem_cons.mp hemits
    obtain ⟨hfirst, hnew⟩ := List.forall_mem_cons.mp hnew
    obtain ⟨hother, hnames⟩ := List.nodup_cons.mp hnames
    obtain ⟨between, tree', hadd, hbetween, hextends, hfunctions, hstructs, hhandler, hown⟩ :=
      h.addRoute hword hfit hemit (mt (h.functions _).mp hfirst)
    -- The first handler is one more function, of another name than those to come.
    have hstill : ∀ route ∈ routes, route.handlerName ∉ tree'.functionNames := by
      intro route hroute
      rw [hfunctions, List.mem_append, List.mem_singleton, not_or]
      exact ⟨hnew route hroute, fun heq => hother (heq ▸ List.mem_map_of_mem hroute)⟩
    obtain ⟨m', after, hrun, hafter, hgoes, hfunctions', hstructs', hhandlers, howns⟩ :=
      ih hbetween hwords hfits hemits hnames hstill
    refine ⟨m', after, by rw [List.foldlM_cons, hadd]; exact hrun, hafter, hextends.trans hgoes, ?_, ?_,
      List.forall_mem_cons.mpr ⟨hhandler.extends hgoes, hhandlers⟩, ?_⟩
    · rw [hfunctions', hfunctions, List.append_assoc, List.map_cons, List.singleton_append]
    · rw [hstructs', hstructs, filterMap_structOf_cons, lacking_append, List.append_assoc]
    · intro before route behind heq name hname hlacks hfree
      cases before with
      | nil =>
        obtain ⟨rfl, rfl⟩ := List.cons.inj heq
        exact (hown name hname hlacks).extends hgoes
      | cons earlier before =>
        obtain ⟨rfl, rfl⟩ := List.cons.inj heq
        rw [filterMap_structOf_cons, List.mem_append, not_or] at hfree
        refine howns before route behind rfl name hname ?_ hfree.2
        rw [hstructs, List.mem_append, mem_lacking, not_or]
        exact ⟨hlacks, fun hmem => hfree.1 hmem.2⟩

/-- A structure that stands in a file is found there, with its fields. -/
theorem HandlerModule.HasStruct.exists_item {tree : Tree} {name : String} (h : HasStruct tree route name) :
    ∃ item ∈ tree.itemsOf .struct_, item.name? = some name ∧
      item.fields.map (Node.fieldView tree.source) = queryViews route ∧
      item.fields.map (Node.wireName? tree.source) = (queryParams route).map fun p => some p.name := by
  obtain ⟨code, node, ⟨front, behind, hsource, hmem⟩, hkind, hname, hviews⟩ := h
  have hnode : node.move (· + front.length) ∈ tree.nodes := by
    rw [Tree.nodes]
    cases hroot : tree.root with
    | mk shape start itemStart stop children =>
      rw [hroot] at hmem
      exact Node.mem_walk_mk.mpr (.inr (Node.mem_walkAll.mpr ⟨_, hmem, Node.mem_walk_self _⟩))
  have hfields : (node.move (· + front.length)).fields.map (Node.fieldView tree.source) = queryViews route := by
    rw [Node.fields_move, List.map_map, hsource, ← hviews behind]
    exact List.map_congr_left fun f _ => Node.fieldView_behind front _ f
  refine ⟨_, List.mem_filter.mpr ⟨hnode, ?_⟩, node.name?_move.trans hname, hfields, ?_⟩
  · rw [Node.itemKind?_move, hkind]
    rfl
  · rw [← Emit.wireNames_queryViews, ← hfields, List.map_map]
    rfl

/-- What a module is written as from nothing. -/
theorem exists_updateHandlers (path : Option String) (hwords : ∀ route ∈ routes, route.IsWorded)
    (hfits : ∀ route ∈ routes, FitsModule route) (hemits : ∀ route ∈ routes, Emits route)
    (hnames : (routes.map Route.handlerName).Nodup) :
    ∃ result after, updateHandlers [] routes path = .ok result ∧ Rust.parse result = .ok after ∧
      after.functionNames = routes.map Route.handlerName ∧
      after.structNames = lacking [] (routes.filterMap structOf) ∧ (∀ route ∈ routes, HasHandler after route) ∧
      ∀ before route behind, routes = before ++ route :: behind → ∀ name ∈ structOf route,
        name ∉ before.filterMap structOf → HasStruct after route name := by
  obtain ⟨tree, hfresh, hfunctions, hstructs, -⟩ := HandlerModule.exists_fresh
  obtain ⟨m, after, hrun, hafter, -, hfunctions', hstructs', hhandlers, howns⟩ :=
    hfresh.addRoutes hwords hfits hemits hnames fun _ _ => by rw [hfunctions]; exact List.not_mem_nil
  have hstart : HandlerModule.ofSource [] path = .ok HandlerModule.fresh := if_pos rfl
  rw [hfunctions, List.nil_append] at hfunctions'
  rw [hstructs, List.nil_append] at hstructs'
  exact ⟨_, after, updateHandlers_eq_ok hstart hrun, hafter.grown.parsed, hfunctions', hstructs', hhandlers,
    fun before route behind heq name hname => howns before route behind heq name hname
      (hstructs ▸ List.not_mem_nil)⟩

/-- **Each route has a handler that refers to the structure of the route, and a structure of its own, with its
query parameters as the fields, if no route in front of it asks for one of the same name.** No two routes share a
structure exactly if no two ask for the same name. -/
theorem queryStructs_own (path : Option String) (hwords : ∀ route ∈ routes, route.IsWorded)
    (hfits : ∀ route ∈ routes, FitsModule route) (hemits : ∀ route ∈ routes, Emits route)
    (hnames : (routes.map Route.handlerName).Nodup) :
    ∃ result after, updateHandlers [] routes path = .ok result ∧ Rust.parse result = .ok after ∧
      after.functionNames = routes.map Route.handlerName ∧
      after.structNames = lacking [] (routes.filterMap structOf) ∧
      (after.structNames = routes.filterMap structOf ↔ (routes.filterMap structOf).Nodup) ∧
      (∀ route ∈ routes, ∃ arguments stub node, handlerArguments route (structOf route) = .ok arguments ∧
        handlerStub route arguments = .ok stub ∧ Contains after stub.toList node ∧
        node.itemKind? = some .function ∧ node.name? = some route.handlerName ∧
        (route.paramsIn .queryString = [] →
          ∀ struct, queryText struct ∈ arguments ↔ structOf route = some struct)) ∧
      ∀ before route behind, routes = before ++ route :: behind → ∀ name ∈ structOf route,
        name ∉ before.filterMap structOf → ∃ item ∈ after.itemsOf .struct_, item.name? = some name ∧
          item.fields.map (Node.fieldView after.source) = queryViews route ∧
          item.fields.map (Node.wireName? after.source) = (queryParams route).map fun p => some p.name := by
  obtain ⟨result, after, hresult, hparse, hfunctions, hstructs, hhandlers, howns⟩ :=
    exists_updateHandlers path hwords hfits hemits hnames
  refine ⟨result, after, hresult, hparse, hfunctions, hstructs, hstructs ▸ lacking_eq_self_iff,
    fun route hroute => ?_, fun before route behind heq name hname hfree =>
      (howns before route behind heq name hname hfree).exists_item⟩
  obtain ⟨arguments, stub, node, harguments, hstub, hcontains, hkind, hname⟩ := hhandlers route hroute
  exact ⟨arguments, stub, node, harguments, hstub, hcontains, hkind, hname, Emit.queryText_mem_iff harguments⟩

/-! ### Two operations with query parameters -/

/-- The operations are called so; each has one query parameter. -/
def pagesDocument (first second : String) : Document.Entries :=
  [(.text "openapi", .text "3.2.0"),
   (.text "paths", .object [
     ("/first", .object [("get", .object [("operationId", .text first),
       ("parameters", .list [.object [("name", .text "page"), ("in", .text "query")]])])]),
     ("/second", .object [("get", .object [("operationId", .text second),
       ("parameters", .list [.object [("name", .text "size"), ("in", .text "query")]])])])])]

/-- What is plain to see of a route: it can be written. -/
def IsPlainRoute (route : Route) : Prop :=
  (IsIdentifier route.handlerName ∧ (∀ p ∈ route.params, '\n' ∉ p.name.toList) ∧
    IsIdentifier (queryStructName route)) ∧
  (route.responseHeaders.isEmpty = true ∧ route.responseLinks.isEmpty = true) ∧
  (handlerArguments route (structOf route) >>= handlerStub route).toOption.isSome = true

instance : DecidablePred IsPlainRoute := fun _ => inferInstanceAs (Decidable (_ ∧ _ ∧ _))

theorem IsPlainRoute.fits (h : IsPlainRoute route) : FitsModule route ∧ Emits route := by
  obtain ⟨⟨hname, hparams, hstruct⟩, ⟨hheaders, hlinks⟩, hemits⟩ := h
  exact ⟨⟨hname, fitsStub_of_isEmpty hheaders hlinks, hparams, fun _ => hstruct⟩, emits_of_isSome hemits⟩

/-- What the handler and the structure of a route are called, and the parameters in it. -/
def queryOutline (route : Route) : String × Option String × List String :=
  (route.handlerName, structOf route, (queryParams route).map (·.name))

/-- The routes of such a document. -/
theorem exists_pages {first second struct struct' : String}
    (h : ∃ found ∈ Emit.routesOf? (pagesDocument first second), (∀ route ∈ found.2, IsPlainRoute route) ∧
      found.2.map queryOutline = [(first, some struct, ["page"]), (second, some struct', ["size"])]) :
    ∃ doc a b, Contract.normalize (pagesDocument first second) = .ok doc ∧
      (Route.ofDocument doc).collect.1 = .ok [a, b] ∧ (∀ route ∈ [a, b], route.IsWorded) ∧
      (∀ route ∈ [a, b], FitsModule route) ∧ (∀ route ∈ [a, b], Emits route) ∧
      [a, b].map Route.handlerName = [first, second] ∧ structOf a = some struct ∧ structOf b = some struct' ∧
      (queryParams a).map (·.name) = ["page"] ∧ (queryParams b).map (·.name) = ["size"] := by
  obtain ⟨⟨doc, all⟩, hfound, hplain, houtlines⟩ := h
  obtain ⟨hdoc, hall⟩ := Emit.routesOf?_eq_some hfound
  obtain ⟨a, _, rfl, ha, houtlines⟩ := List.map_eq_cons_iff.mp houtlines
  obtain ⟨b, rfl, hb⟩ := List.map_eq_singleton_iff.mp houtlines
  simp only [queryOutline, Prod.mk.injEq] at ha hb
  refine ⟨doc, a, b, hdoc, hall, Route.ofDocument_isWorded (Resolving.yields_of_collect hall),
    fun route hroute => (hplain route hroute).fits.1, fun route hroute => (hplain route hroute).fits.2, ?_,
    ha.2.1, hb.2.1, ha.2.2, hb.2.2⟩
  rw [List.map_cons, List.map_singleton, ha.1, hb.1]

theorem filterMap_structOf_pair {a b : Route} {struct struct' : String} (ha : structOf a = some struct)
    (hb : structOf b = some struct') : [a, b].filterMap structOf = [struct, struct'] := by
  rw [filterMap_structOf_cons, filterMap_structOf_cons, ha, hb]
  rfl

theorem map_some_names {params : List Route.Parameter} {names : List String} (h : params.map (·.name) = names) :
    (params.map fun p => some p.name) = names.map some := by
  rw [← h, List.map_map]
  rfl

theorem queryStructs_own_pages :
    ∃ doc a b result after, Contract.normalize (pagesDocument "pets" "owners") = .ok doc ∧
      (Route.ofDocument doc).collect.1 = .ok [a, b] ∧ updateHandlers [] [a, b] = .ok result ∧
      Rust.parse result = .ok after ∧ after.functionNames = ["pets", "owners"] ∧
      after.structNames = ["PetsQuery", "OwnersQuery"] ∧
      ∃ item ∈ after.itemsOf .struct_, item.name? = some "OwnersQuery" ∧
        item.fields.map (Node.wireName? after.source) = [some "size"] := by
  obtain ⟨doc, a, b, hdoc, hall, hwords, hfits, hemits, hnames, ha, hb, -, hsize⟩ :=
    @exists_pages "pets" "owners" "PetsQuery" "OwnersQuery" (by decide +kernel)
  obtain ⟨result, after, hresult, hparse, hfunctions, -, hown, -, howns⟩ :=
    queryStructs_own none hwords hfits hemits (by rw [hnames]; decide)
  rw [filterMap_structOf_pair ha hb] at hown
  have hfree : "OwnersQuery" ∉ [a].filterMap structOf := by
    rw [filterMap_structOf_cons, ha]
    decide
  obtain ⟨item, hitem, hname, -, hwire⟩ := howns [a] b [] rfl "OwnersQuery" hb hfree
  exact ⟨doc, a, b, result, after, hdoc, hall, hresult, hparse, hfunctions.trans hnames, hown.mpr (by decide),
    item, hitem, hname, hwire.trans (map_some_names hsize)⟩

/-- **Different handlers share a structure**: its fields are the parameters of the first one, and the second one
refers to it too. -/
theorem queryStructs_shared :
    ∃ doc a b result after, Contract.normalize (pagesDocument "a_1" "a1") = .ok doc ∧
      (Route.ofDocument doc).collect.1 = .ok [a, b] ∧ updateHandlers [] [a, b] = .ok result ∧
      Rust.parse result = .ok after ∧ after.functionNames = ["a_1", "a1"] ∧ after.structNames = ["A1Query"] ∧
      (∃ item ∈ after.itemsOf .struct_, item.name? = some "A1Query" ∧
        item.fields.map (Node.wireName? after.source) = [some "page"]) ∧
      structOf b = some "A1Query" ∧ (queryParams b).map (·.name) = ["size"] := by
  obtain ⟨doc, a, b, hdoc, hall, hwords, hfits, hemits, hnames, ha, hb, hpage, hsize⟩ :=
    @exists_pages "a_1" "a1" "A1Query" "A1Query" (by decide +kernel)
  obtain ⟨result, after, hresult, hparse, hfunctions, hstructs, -, howns⟩ :=
    exists_updateHandlers none hwords hfits hemits (by rw [hnames]; decide)
  rw [filterMap_structOf_pair ha hb] at hstructs
  obtain ⟨item, hitem, hname, -, hwire⟩ := (howns [] a [b] rfl "A1Query" ha List.not_mem_nil).exists_item
  exact ⟨doc, a, b, result, after, hdoc, hall, hresult, hparse, hfunctions.trans hnames,
    hstructs.trans (by decide), ⟨item, hitem, hname, hwire.trans (map_some_names hpage)⟩, hb, hsize⟩

end ContractSync.Sync
