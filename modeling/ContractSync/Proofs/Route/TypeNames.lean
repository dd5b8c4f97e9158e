import ContractSync.Proofs.Outcome
import ContractSync.Proofs.Route.Merging
import ContractSync.Proofs.Schema.TypeNames
import ContractSync.Route.Basic

/-!
# The names in the types of a route

A route carries types: those of its parameters, of its body, of its result and of the headers of its
response. **The types of a document's routes mention models of the document and nothing else**
(`ofDocument_onlyModels`), so all names in them are words (`ofDocument_isWorded`).
-/

namespace ContractSync.Route

open ContractSync.Contract (Canonical)
open ContractSync.Document
open ContractSync.Schema (DataType resolve_onlyModels)

/-- The names that the types of the route mention are words. -/
structure IsWorded (r : Route) : Prop where
  params : ∀ p ∈ r.params, p.type.IsWorded
  body : ∀ b ∈ r.body, b.type.IsWorded
  response : ∀ type ∈ r.responseType, type.IsWorded
  headers : ∀ header ∈ r.responseHeaders, header.type.IsWorded

/-- The types of the route: of its parameters, its body, its result and the headers of its response. -/
def types (r : Route) : List DataType :=
  r.params.map (·.type) ++ r.body.toList.map (·.type) ++ r.responseType.toList
    ++ r.responseHeaders.map (·.type)

theorem mem_types {r : Route} {type : DataType} :
    type ∈ r.types ↔ (∃ p ∈ r.params, p.type = type) ∨ (∃ b ∈ r.body, b.type = type) ∨
      type ∈ r.responseType ∨ ∃ header ∈ r.responseHeaders, header.type = type := by
  simp only [types, List.mem_append, List.mem_map, Option.mem_toList, Option.mem_def, or_assoc]

variable {doc : Canonical}

theorem onlyModels_plainString : DataType.plainString.OnlyModels doc :=
  DataType.onlyModels_scalar _ _

/-! ### Parameters -/

namespace Parameter

theorem typeOf_onlyModels {entries : Entries} {found : DataType × Option Scalar}
    (h : (typeOf doc entries).Yields found) : found.1.OnlyModels doc := by
  unfold typeOf at h
  split at h
  · obtain ⟨type, htype, h⟩ := h.bind
    rw [h.pure]
    exact resolve_onlyModels htype
  · obtain ⟨type, htype, h⟩ := h.bind
    rw [h.pure]
    exact resolve_onlyModels htype
  · rw [h.pure]
    exact onlyModels_plainString

theorem ofEntries_onlyModels {entries : Entries} {found : Option Parameter}
    (h : (ofEntries doc entries).Yields found) : ∀ p ∈ found, p.type.OnlyModels doc := by
  unfold ofEntries at h
  simp only at h
  split at h
  · split at h
    · split at h
      · rw [h.pure]
        exact forall_mem_none
      · obtain ⟨⟨type, mediaType⟩, htype, h⟩ := h.bind
        rw [h.pure]
        exact forall_mem_some ((typeOf_onlyModels htype).orNothingIf _)
    · rw [h.pure]
      exact forall_mem_none
  · rw [h.pure]
    exact forall_mem_none

theorem ofValue_onlyModels {v : Value} {found : Option Parameter}
    (h : (ofValue doc v).Yields found) : ∀ p ∈ found, p.type.OnlyModels doc := by
  unfold ofValue at h
  obtain ⟨entries, -, h⟩ := h.bind
  cases entries with
  | some entries => exact ofEntries_onlyModels h
  | none =>
    rw [h.pure]
    exact forall_mem_none

theorem resolveAll_onlyModels {pathLevel operationLevel : Value} {params : List Parameter}
    (h : (resolveAll doc pathLevel operationLevel).Yields params) :
    ∀ p ∈ params, p.type.OnlyModels doc := by
  unfold resolveAll at h
  obtain ⟨found, hfound, h⟩ := h.bind
  rw [h.pure]
  intro p hp
  have hmem := (mem_of_mem_foldl_merge hp).resolve_left List.not_mem_nil
  obtain ⟨result, hresult, hp⟩ := List.mem_filterMap.mp hmem
  obtain ⟨v, -, hv⟩ := hfound.mapM result hresult
  exact ofValue_onlyModels hv p hp

end Parameter

/-! ### Bodies -/

namespace RequestBody

theorem defaultType_onlyModels (format : BodyFormat) : (defaultType format).OnlyModels doc := by
  cases format with
  | json | form | multipart => exact DataType.onlyModels_dynamic
  | text => exact onlyModels_plainString
  | binary => exact DataType.onlyModels_scalar _ _

theorem ofValue_onlyModels {v : Value} {found : Option RequestBody}
    (h : (ofValue doc v).Yields found) : ∀ b ∈ found, b.type.OnlyModels doc := by
  unfold ofValue at h
  obtain ⟨body, -, h⟩ := h.bind
  split at h
  · split at h
    · obtain ⟨candidates, -, h⟩ := h.bind
      simp only at h
      split at h
      · split at h
        · obtain ⟨type, htype, h⟩ := h.bind
          rw [h.pure]
          refine forall_mem_some ?_
          rw [htype.pure]
          exact defaultType_onlyModels _
        · obtain ⟨type, htype, h⟩ := h.bind
          rw [h.pure]
          exact forall_mem_some (resolve_onlyModels htype)
      · rw [h.pure]
        exact forall_mem_none
    · rw [h.pure]
      exact forall_mem_none
  · rw [h.pure]
    exact forall_mem_none

end RequestBody

/-! ### Responses -/

namespace Responses

theorem jsonType_onlyModels {content : Entries} {found : Option DataType}
    (h : (jsonType doc content).Yields found) : ∀ type ∈ found, type.OnlyModels doc := by
  induction content with
  | nil =>
    rw [jsonType] at h
    rw [h.pure]
    exact forall_mem_none
  | cons e rest ih =>
    rw [jsonType] at h
    obtain ⟨mediaType, -, h⟩ := h.bind
    simp only at h
    split at h
    · split at h
      · obtain ⟨type, htype, h⟩ := h.bind
        rw [h.pure]
        exact forall_mem_some (resolve_onlyModels htype)
      · exact ih h
    · exact ih h

theorem bodyTypeOf_onlyModels {responses : ByStatus} {statuses : List String} {found : Option DataType}
    (h : (bodyTypeOf doc responses statuses).Yields found) : ∀ type ∈ found, type.OnlyModels doc := by
  induction statuses with
  | nil =>
    rw [bodyTypeOf] at h
    rw [h.pure]
    exact forall_mem_none
  | cons status rest ih =>
    rw [bodyTypeOf] at h
    obtain ⟨response, -, h⟩ := h.bind
    have hsplit : ∃ first, (∀ type ∈ first, DataType.OnlyModels doc type) ∧
        Resolving.Yields (match first with
          | some type => return some type
          | none => bodyTypeOf doc responses rest) found := by
      cases response with
      | some response =>
        obtain ⟨first, hfirst, h⟩ := h.bind
        exact ⟨first, jsonType_onlyModels hfirst, h⟩
      | none =>
        obtain ⟨first, hfirst, h⟩ := h.bind
        cases hfirst.pure
        exact ⟨none, forall_mem_none, h⟩
    obtain ⟨first, hfirst, h⟩ := hsplit
    cases first with
    | some type =>
      rw [h.pure]
      exact hfirst
    | none => exact ih h

theorem header_onlyModels {entry : Scalar × Value} {found : Option Header}
    (h : (header doc entry).Yields found) : ∀ header ∈ found, header.type.OnlyModels doc := by
  unfold header at h
  obtain ⟨name, -, h⟩ := h.bind
  simp only at h
  split at h
  · rw [h.pure]
    exact forall_mem_none
  · obtain ⟨entries, -, h⟩ := h.bind
    cases entries with
    | some entries =>
      simp only at h
      split at h
      · obtain ⟨type, htype, h⟩ := h.bind
        rw [h.pure]
        exact forall_mem_some (resolve_onlyModels htype)
      · obtain ⟨type, htype, h⟩ := h.bind
        rw [h.pure]
        refine forall_mem_some ?_
        rw [htype.pure]
        exact onlyModels_plainString
    | none =>
      rw [h.pure]
      exact forall_mem_none

theorem headersOf_onlyModels {response : Entries} {found : List Header}
    (h : (headersOf doc response).Yields found) : ∀ header ∈ found, header.type.OnlyModels doc := by
  unfold headersOf at h
  obtain ⟨entries, -, h⟩ := h.bind
  obtain ⟨headers, hheaders, h⟩ := h.bind
  rw [h.pure]
  intro header hmem
  obtain ⟨result, hresult, hmem⟩ := List.mem_filterMap.mp hmem
  obtain ⟨e, -, he⟩ := hheaders.mapM result hresult
  exact header_onlyModels he header hmem

theorem ofValue_onlyModels {v : Value} {found : Responses} (h : (ofValue doc v).Yields found) :
    (∀ type ∈ found.bodyType, type.OnlyModels doc) ∧ ∀ header ∈ found.headers, header.type.OnlyModels doc := by
  unfold ofValue at h
  split at h
  · obtain ⟨bodyType, hbody, h⟩ := h.bind
    split at h
    · obtain ⟨response, -, h⟩ := h.bind
      cases response with
      | some response =>
        obtain ⟨headers, hheaders, h⟩ := h.bind
        obtain ⟨links, -, h⟩ := h.bind
        rw [h.pure]
        exact ⟨bodyTypeOf_onlyModels hbody, headersOf_onlyModels hheaders⟩
      | none =>
        rw [h.pure]
        exact ⟨bodyTypeOf_onlyModels hbody, List.forall_mem_nil _⟩
    · rw [h.pure]
      exact ⟨bodyTypeOf_onlyModels hbody, List.forall_mem_nil _⟩
  · rw [h.pure]
    exact ⟨forall_mem_none, List.forall_mem_nil _⟩

end Responses

/-! ### Routes -/

theorem ofOperation_onlyModels {kind : RouteKind} {path handlerName : String} {item : Entries}
    {operation : Operation} {route : Route}
    (h : (ofOperation doc kind path handlerName item operation).Yields route) :
    ∀ type ∈ route.types, type.OnlyModels doc := by
  unfold ofOperation at h
  obtain ⟨params, hparams, h⟩ := h.bind
  obtain ⟨responses, hresponses, h⟩ := h.bind
  obtain ⟨body, hbody, h⟩ := h.bind
  obtain ⟨security, -, h⟩ := h.bind
  rw [h.pure]
  obtain ⟨htype, hheaders⟩ := Responses.ofValue_onlyModels hresponses
  intro type hmem
  rcases mem_types.mp hmem with ⟨p, hp, rfl⟩ | ⟨b, hb, rfl⟩ | hmem | ⟨header, hheader, rfl⟩
  · exact Parameter.resolveAll_onlyModels hparams p hp
  · exact RequestBody.ofValue_onlyModels hbody b hb
  · exact htype type hmem
  · exact hheaders header hheader

/-- The route is that of some operation. -/
def IsOfOperation (doc : Canonical) (route : Route) : Prop :=
  ∃ kind path handlerName item operation,
    (ofOperation doc kind path handlerName item operation).Yields route

theorem ofOperations_isOfOperation {kind : RouteKind} {path : Scalar} {item : Entries}
    {operations : List Operation} {names : Name.Table} {found : List Route × Name.Table}
    (h : (ofOperations doc kind path item names operations).Yields found) :
    ∀ route ∈ found.1, IsOfOperation doc route := by
  induction operations generalizing names found with
  | nil =>
    rw [ofOperations] at h
    rw [h.pure]
    exact List.forall_mem_nil _
  | cons operation rest ih =>
    rw [ofOperations] at h
    obtain ⟨path', -, h⟩ := h.bind
    obtain ⟨route, hroute, h⟩ := h.bind
    obtain ⟨⟨routes, names'⟩, hrest, h⟩ := h.bind
    rw [h.pure]
    exact List.forall_mem_cons.mpr ⟨⟨_, _, _, _, _, hroute⟩, ih hrest⟩

theorem ofPaths_isOfOperation {kind : RouteKind} {paths : Entries} {names : Name.Table}
    {found : List Route × Name.Table} (h : (ofPaths doc kind names paths).Yields found) :
    ∀ route ∈ found.1, IsOfOperation doc route := by
  induction paths generalizing names found with
  | nil =>
    rw [ofPaths] at h
    rw [h.pure]
    exact List.forall_mem_nil _
  | cons e rest ih =>
    rw [ofPaths] at h
    obtain ⟨item, -, h⟩ := h.bind
    have hsplit : ∃ first : List Route × Name.Table, (∀ route ∈ first.1, IsOfOperation doc route) ∧
        Resolving.Yields (do
          let later ← ofPaths doc kind first.2 rest
          return (first.1 ++ later.1, later.2)) found := by
      cases item with
      | some item =>
        obtain ⟨first, hfirst, h⟩ := h.bind
        exact ⟨first, ofOperations_isOfOperation hfirst, h⟩
      | none =>
        obtain ⟨first, hfirst, h⟩ := h.bind
        rw [hfirst.pure] at h
        exact ⟨([], names), List.forall_mem_nil _, h⟩
    obtain ⟨first, hfirst, h⟩ := hsplit
    obtain ⟨more, hmore, h⟩ := h.bind
    rw [h.pure]
    exact List.forall_mem_append.mpr ⟨hfirst, ih hmore⟩

/-- **Every route of a document is that of an operation.** -/
theorem ofDocument_isOfOperation {routes : List Route} (h : (ofDocument doc).Yields routes) :
    ∀ route ∈ routes, IsOfOperation doc route := by
  unfold ofDocument at h
  obtain ⟨paths, hpaths, h⟩ := h.bind
  obtain ⟨webhooks, hwebhooks, h⟩ := h.bind
  rw [h.pure]
  exact List.forall_mem_append.mpr ⟨ofPaths_isOfOperation hpaths, ofPaths_isOfOperation hwebhooks⟩

/-- **The types of a document's routes mention models of the document and nothing else.** -/
theorem ofDocument_onlyModels {routes : List Route} (h : (ofDocument doc).Yields routes) :
    ∀ route ∈ routes, ∀ type ∈ route.types, type.OnlyModels doc := by
  intro route hroute
  obtain ⟨_, _, _, _, _, hoperation⟩ := ofDocument_isOfOperation h route hroute
  exact ofOperation_onlyModels hoperation

/-- The names in the types of a document's routes are words. -/
theorem ofDocument_isWorded {routes : List Route} (h : (ofDocument doc).Yields routes) :
    ∀ route ∈ routes, route.IsWorded := by
  intro route hroute
  have hwords : ∀ type ∈ route.types, type.IsWorded := fun type hmem =>
    (ofDocument_onlyModels h route hroute type hmem).isWorded
  exact ⟨fun p hp => hwords _ (mem_types.mpr (.inl ⟨p, hp, rfl⟩)),
    fun b hb => hwords _ (mem_types.mpr (.inr (.inl ⟨b, hb, rfl⟩))),
    fun type htype => hwords _ (mem_types.mpr (.inr (.inr (.inl htype)))),
    fun header hheader => hwords _ (mem_types.mpr (.inr (.inr (.inr ⟨header, hheader, rfl⟩))))⟩

end ContractSync.Route
