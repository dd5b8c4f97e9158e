import ContractSync.Proofs.Model.Names
import ContractSync.Proofs.Name.Bare
import ContractSync.Proofs.Name.Component
import ContractSync.Proofs.Name.Distinct
import ContractSync.Proofs.Name.Words
import ContractSync.Proofs.Resolving
import ContractSync.Proofs.Route.TypeNames
import ContractSync.Route.Basic

/-!
# Names that share a scope, and legal names

Handlers of a document, fields of a record, variants of a union and of an enumeration share a scope
each. **In each scope the names are distinct exactly if no base of the scope is the name that a
repeated base is given** (`distinct_names_iff`); for the literals of an enumeration that is always so.
Three operations `a`, `a` and `a_2` are a clash (`clash`): the second and the third are both named
`a_2`.

A handler takes its name from the letters and digits of the operation's identifier, or else of its path. If
neither has any, the method itself becomes the name. **A handler's name is a bare identifier exactly if the
identifier or the path says something, or the method is a word** (`handlerName_isBare_iff`): in the last
case the method is repaired where it begins with a digit or is reserved, but not where it holds other
characters. For the additional method `r#match` at the path `/` the name is `r#match`
(`handlerName_raw`).

Models are named after their components. **Two of them get one name exactly if one component's name is
converted into what the other one is called, and a model's name is a bare identifier exactly if the first
letter or digit of the component is no digit and the name is not `Self`** (`modelNames_iff`). Neither is
repaired: `user-profile` and `UserProfile` are declared under one name, and `3d-model` as `3dModel`
(`modelNames_clash`).

The handlers of a document, those of its webhooks included, are named from one table: **their names
are what the table gives out for the bases of the routes** (`handlerNames_eq`). A route keeps all that
its base is made from (`Route.baseName`).
-/

namespace ContractSync.Route

open ContractSync.Contract (Canonical)
open ContractSync.Document
open ContractSync.Name (Table)

/-- The name that a route asks for. -/
def baseName (r : Route) : String :=
  let derived := derivedName r.method r.path
  Name.functionName <|
    match r.operationId with
    | some identifier =>
      if Text.isBlankString identifier then derived else Name.slug identifier derived
    | none => derived

/-- The routes are named from `names`, which is `names'` afterwards. -/
def NamedFrom (names : Table) (routes : List Route) (names' : Table) : Prop :=
  routes.map (·.handlerName) = names.claimAll (routes.map baseName) ∧
    names' = names.after (routes.map baseName)

theorem NamedFrom.nil (names : Table) : NamedFrom names [] names := ⟨rfl, rfl⟩

theorem NamedFrom.append {names names' names'' : Table} {routes more : List Route}
    (h : NamedFrom names routes names') (hmore : NamedFrom names' more names'') :
    NamedFrom names (routes ++ more) names'' := by
  obtain ⟨hroutes, rfl⟩ := h
  obtain ⟨hmore, rfl⟩ := hmore
  refine ⟨?_, ?_⟩
  · rw [List.map_append, List.map_append, Name.claimAll_append, hroutes, hmore]
  · rw [List.map_append, Name.after_append]

variable {doc : Canonical} {kind : RouteKind}

theorem ofOperation_names {path handlerName : String} {item : Entries} {operation : Operation}
    {route : Route} (h : (ofOperation doc kind path handlerName item operation).Yields route) :
    route.handlerName = handlerName ∧
      route.baseName = baseHandlerName operation.2 operation.1 path := by
  unfold ofOperation at h
  obtain ⟨params, -, h⟩ := h.bind
  obtain ⟨responses, -, h⟩ := h.bind
  obtain ⟨body, -, h⟩ := h.bind
  obtain ⟨security, -, h⟩ := h.bind
  rw [h.pure]
  exact ⟨rfl, rfl⟩

theorem ofOperations_names {path : Scalar} {item : Entries} {operations : List Operation}
    {names names' : Table} {routes : List Route}
    (h : (ofOperations doc kind path item names operations).Yields (routes, names')) :
    NamedFrom names routes names' := by
  induction operations generalizing names names' routes with
  | nil =>
    rw [ofOperations] at h
    obtain ⟨rfl, rfl⟩ := Prod.mk.injEq .. ▸ h.pure
    exact .nil _
  | cons operation rest ih =>
    rw [ofOperations] at h
    obtain ⟨path', -, h⟩ := h.bind
    obtain ⟨route, hroute, h⟩ := h.bind
    obtain ⟨⟨routes', names''⟩, hrest, h⟩ := h.bind
    cases h.pure
    obtain ⟨hname, hbase⟩ := ofOperation_names hroute
    obtain ⟨hnames, hafter⟩ := ih hrest
    refine ⟨?_, ?_⟩
    · rw [List.map_cons, List.map_cons, hname, hnames, hbase]
      rfl
    · rw [List.map_cons, hbase, hafter]
      rfl

theorem ofPaths_names {paths : Entries} {names names' : Table} {routes : List Route}
    (h : (ofPaths doc kind names paths).Yields (routes, names')) :
    NamedFrom names routes names' := by
  induction paths generalizing names names' routes with
  | nil =>
    rw [ofPaths] at h
    obtain ⟨rfl, rfl⟩ := Prod.mk.injEq .. ▸ h.pure
    exact .nil _
  | cons e rest ih =>
    rw [ofPaths] at h
    obtain ⟨item, -, h⟩ := h.bind
    have hsplit : ∃ found names₁ more, NamedFrom names found names₁ ∧
        (ofPaths doc kind names₁ rest).Yields (more, names') ∧ routes = found ++ more := by
      cases item with
      | some item =>
        obtain ⟨⟨found, names₁⟩, hfound, h⟩ := h.bind
        obtain ⟨⟨more, names₂⟩, hmore, h⟩ := h.bind
        cases h.pure
        exact ⟨found, names₁, more, ofOperations_names hfound, hmore, rfl⟩
      | none =>
        obtain ⟨⟨found, names₁⟩, hfound, h⟩ := h.bind
        cases hfound.pure
        obtain ⟨⟨more, names₂⟩, hmore, h⟩ := h.bind
        cases h.pure
        exact ⟨[], names, more, .nil names, hmore, rfl⟩
    obtain ⟨found, names₁, more, hfound, hmore, rfl⟩ := hsplit
    exact hfound.append (ih hmore)

/-- **The names of the handlers are those that one table gives out for the bases of all routes.** -/
theorem handlerNames_eq {routes : List Route} (h : (ofDocument doc).Yields routes) :
    routes.map (·.handlerName) = Table.claimAll {} (routes.map baseName) := by
  unfold ofDocument at h
  obtain ⟨⟨paths, names⟩, hpaths, h⟩ := h.bind
  obtain ⟨⟨webhooks, names'⟩, hwebhooks, h⟩ := h.bind
  rw [h.pure]
  exact ((ofPaths_names hpaths).append (ofPaths_names hwebhooks)).1

end ContractSync.Route

/-! ### Distinct names -/

namespace ContractSync

open ContractSync.Contract (Canonical)
open ContractSync.Document
open ContractSync.Name (NoClash Table)
open ContractSync.Schema (Alternatives memberBases)

/-- In the shape of a schema names are distinct exactly if their bases do not clash. -/
def Model.Shape.DistinctIffNoClash (doc : Canonical) (schema : Value) : Model.Shape → Prop
  | .record fields =>
    (fields.map (·.name)).Nodup ↔ NoClash (fields.map fun f => Name.fieldName f.property)
  | .union variants _ => ∃ alternatives, Alternatives doc schema alternatives ∧
    ((variants.map (·.1.name)).Nodup ↔ NoClash (memberBases 0 alternatives (variants.map (·.2))))
  | .literals variants => (variants.map (·.name)).Nodup
  | .alias _ => True

theorem Model.Shape.IsNamed.distinctIffNoClash {doc : Canonical} {schema : Value}
    {shape : Model.Shape} (h : shape.IsNamed doc schema) :
    shape.DistinctIffNoClash doc schema := by
  cases shape with
  | record fields =>
    rw [DistinctIffNoClash, show _ = _ from h, Name.claimAll_nodup_iff]
  | union variants discriminator =>
    obtain ⟨alternatives, halternatives, hnames⟩ := h
    exact ⟨alternatives, halternatives, by rw [hnames, Name.claimAll_nodup_iff]⟩
  | literals variants =>
    rw [DistinctIffNoClash, show _ = _ from h, Name.claimAll_nodup_iff]
    apply Name.noClash_of_underscore_free
    rw [List.forall_mem_map]
    exact fun v _ => Name.underscore_notMem_variantName _
  | «alias» target => trivial

/-- **In every scope the names are distinct exactly if no base is the name that a repeated base is
given.** -/
theorem distinct_names_iff (doc : Canonical) (bases : List String) :
    ((Table.claimAll {} bases).Nodup ↔ NoClash bases) ∧
    (∀ routes, (Route.ofDocument doc).collect.1 = .ok routes →
      ((routes.map (·.handlerName)).Nodup ↔ NoClash (routes.map Route.baseName))) ∧
    (∀ models, (Model.ofDocument doc).collect.1 = .ok models →
      ∀ model ∈ models, ∃ e ∈ doc.schemas, model.shape.DistinctIffNoClash doc e.2) := by
  refine ⟨Name.claimAll_nodup_iff bases, fun routes h => ?_, fun models h model hmodel => ?_⟩
  · rw [Route.handlerNames_eq (Resolving.yields_of_collect h), Name.claimAll_nodup_iff]
  · obtain ⟨e, he, hnamed⟩ := Model.ofDocument_named (Resolving.yields_of_collect h) model hmodel
    exact ⟨e, he, hnamed.distinctIffNoClash⟩

/-- An operation under a path, with its identifier. -/
def operationSample (path identifier : String) : Scalar × Value :=
  (.text path, .object [("get", .object [("operationId", .text identifier)])])

/-- A document whose operations are called `a`, `a` and `a_2`. -/
def clashSample : Canonical where
  data := [(.text "paths", .mapping
    [operationSample "/first" "a", operationSample "/second" "a", operationSample "/third" "a_2"])]
  dialect := .openApi "3.1.0"

theorem distinct_names_iff_clashSample :
    ∃ routes, (Route.ofDocument clashSample).collect.1 = .ok routes ∧
      ((routes.map (·.handlerName)).Nodup ↔ NoClash (routes.map Route.baseName)) := by
  have h : ∃ routes, (Route.ofDocument clashSample).collect.1 = .ok routes := ⟨_, rfl⟩
  obtain ⟨routes, h⟩ := h
  exact ⟨routes, h, (distinct_names_iff clashSample []).2.1 routes h⟩

/-- The names of a repeated base and of another base meet. -/
theorem clash :
    (∃ routes, (Route.ofDocument clashSample).collect.1 = .ok routes ∧
      routes.map (·.handlerName) = ["a", "a_2", "a_2"]) ∧
    ¬ (Table.claimAll {} ["a", "a", "a_2"]).Nodup := by
  refine ⟨⟨_, rfl, ?_⟩, ?_⟩
  · rfl
  · decide

end ContractSync

/-! ### Handlers -/

namespace ContractSync

open ContractSync.Contract (Canonical)
open ContractSync.Document
open ContractSync.Name (IsBare hasAlphanum)
open ContractSync.Text (isWordChar)

namespace Route

/-- The identifier of the operation or its path has an ASCII letter or digit. -/
def SaysSomething (r : Route) : Prop := r.operationId.any hasAlphanum = true ∨ hasAlphanum r.path = true

/-- The braces of variables are no letters or digits. -/
theorem any_alphanum_withoutBraces (path : String) :
    (path.toList.filter fun c => c != '\x7b' && c != '\x7d').any Char.isAlphanum = hasAlphanum path := by
  have hbrace : ∀ c : Char, c.isAlphanum = true → (c != '\x7b' && c != '\x7d') = true := by
    intro c hc
    rw [Bool.and_eq_true, bne_iff_ne, bne_iff_ne]
    constructor <;> (rintro rfl; revert hc; decide)
  rw [Bool.eq_iff_iff, hasAlphanum, List.any_eq_true, List.any_eq_true]
  constructor
  · rintro ⟨c, hc, halnum⟩
    exact ⟨c, (List.mem_filter.mp hc).1, halnum⟩
  · rintro ⟨c, hc, halnum⟩
    exact ⟨c, List.mem_filter.mpr ⟨hc, hbrace c halnum⟩, halnum⟩

theorem derivedName_of_path {path : String} (h : hasAlphanum path = true) (method : String) :
    ∀ c ∈ (derivedName method path).toList, isWordChar c = true := by
  rw [← any_alphanum_withoutBraces] at h
  unfold derivedName
  dsimp only
  rw [if_pos h]
  exact Name.isWordChar_of_mem_snake

theorem derivedName_of_method {path : String} (h : hasAlphanum path = false) (method : String) :
    derivedName method path = lowerMethod method := by
  rw [← any_alphanum_withoutBraces] at h
  unfold derivedName
  dsimp only
  rw [h]
  rfl

theorem slug_of_alphanum {identifier : String} (h : hasAlphanum identifier = true) (fallback : String) :
    Name.slug identifier fallback = Name.snake identifier := by
  refine if_neg fun hempty => ?_
  rw [Name.snake_isEmpty_iff.mp hempty] at h
  cases h

theorem slug_of_not_alphanum {identifier : String} (h : hasAlphanum identifier = false)
    (fallback : String) : Name.slug identifier fallback = fallback :=
  if_pos (Name.snake_isEmpty_iff.mpr h)

theorem not_isBlankString_of_alphanum {identifier : String} (h : hasAlphanum identifier = true) :
    Text.isBlankString identifier = false := by
  obtain ⟨c, hc, halnum⟩ := List.any_eq_true.mp h
  rw [← Bool.not_eq_true]
  intro hblank
  have hout := Text.not_isAlphanumeric_of_isBlank (List.all_eq_true.mp hblank c hc)
  rw [Text.isAlphanumeric, halnum] at hout
  cases hout

/-- An identifier that says something gives the name. -/
theorem baseName_of_identifier {r : Route} (h : r.operationId.any hasAlphanum = true) :
    IsBare r.baseName := by
  cases hid : r.operationId with
  | none =>
    rw [hid] at h
    cases h
  | some identifier =>
    rw [hid, Option.any_some] at h
    rw [baseName, hid]
    dsimp only
    rw [not_isBlankString_of_alphanum h, if_neg Bool.false_ne_true, slug_of_alphanum h]
    exact Name.isBare_functionName Name.isWordChar_of_mem_snake

/-- Without such an identifier method and path give the name. -/
theorem baseName_of_derived {r : Route} (h : r.operationId.any hasAlphanum = false) :
    r.baseName = Name.functionName (derivedName r.method r.path) := by
  unfold baseName
  dsimp only
  split
  · rename_i identifier hid
    rw [hid, Option.any_some] at h
    split
    · rfl
    · rw [slug_of_not_alphanum h]
  · rfl

/-- The name that a route asks for is bare if the identifier or the path says something, or the method is
a word. -/
theorem baseName_isBare {r : Route}
    (h : r.SaysSomething ∨ ∀ c ∈ (lowerMethod r.method).toList, isWordChar c = true) :
    IsBare r.baseName := by
  by_cases hid : r.operationId.any hasAlphanum = true
  · exact baseName_of_identifier hid
  · rw [baseName_of_derived (Bool.not_eq_true _ ▸ hid)]
    refine Name.isBare_functionName ?_
    by_cases hpath : hasAlphanum r.path = true
    · exact derivedName_of_path hpath r.method
    · rw [derivedName_of_method (Bool.not_eq_true _ ▸ hpath)]
      exact h.resolve_left fun hsays => hsays.elim hid hpath

end Route

/-- **A handler's name is a bare identifier exactly if the identifier or the path of its operation says
something, or its method is a word.** -/
theorem handlerName_isBare_iff {doc : Canonical} {routes : List Route}
    (h : (Route.ofDocument doc).collect.1 = .ok routes) :
    ∀ r ∈ routes, (IsBare r.handlerName ↔
      r.SaysSomething ∨ ∀ c ∈ (Route.lowerMethod r.method).toList, isWordChar c = true) := by
  have hnames := Name.claimAll_forall₂ (routes.map Route.baseName)
  rw [← Route.handlerNames_eq (Resolving.yields_of_collect h), List.forall₂_map_left_iff,
    List.forall₂_map_right_iff, List.forall₂_same] at hnames
  intro r hr
  obtain ⟨n, hname⟩ := hnames r hr
  rw [hname]
  constructor
  · intro hbare
    by_cases hsays : r.SaysSomething
    · exact .inl hsays
    · -- Then the method is the name, and its characters are among those of the name.
      obtain ⟨hid, hpath⟩ := not_or.mp hsays
      refine .inr fun c hc => hbare.chars c (Name.mem_numbered ?_ n)
      rw [Route.baseName_of_derived (Bool.not_eq_true _ ▸ hid),
        Route.derivedName_of_method (Bool.not_eq_true _ ▸ hpath)]
      exact Name.mem_functionName hc
  · exact fun hsays => (Route.baseName_isBare hsays).numbered n

/-- Operations of one path, by method. -/
def methodsSample (path : String) (methods : List String) : Canonical where
  data := [(.text "paths", .object [(path, .object
    [("additionalOperations", .object (methods.map fun method => (method, .mapping [])))])])]
  dialect := .openApi "3.2.0"

theorem handlerName_isBare_iff_copySample :
    ∃ routes, (Route.ofDocument (methodsSample "/{}" ["COPY", "2", "self"])).collect.1 = .ok routes ∧
      routes.map (·.handlerName) = ["copy", "op_2", "self_"] ∧ ∀ r ∈ routes, IsBare r.handlerName := by
  have hsample : (Route.ofDocument (methodsSample "/{}" ["COPY", "2", "self"])).collect.1.toOption.map
      (·.map fun r => (r.handlerName, r.method)) =
        some [("copy", "copy"), ("op_2", "2"), ("self_", "self")] := by decide
  obtain ⟨routes, hroutes, hnames⟩ := Option.map_eq_some_iff.mp hsample
  have hroutes := eq_ok_of_toOption hroutes
  have hmethods : routes.map (·.method) = ["copy", "2", "self"] := by
    have hsecond := congrArg (List.map Prod.snd) hnames
    rwa [List.map_map] at hsecond
  have hwords : ∀ method ∈ ["copy", "2", "self"],
      ∀ c ∈ (Route.lowerMethod method).toList, isWordChar c = true := by decide
  refine ⟨routes, hroutes, ?_, fun r hr => ?_⟩
  · have hfirst := congrArg (List.map Prod.fst) hnames
    rwa [List.map_map] at hfirst
  · refine (handlerName_isBare_iff hroutes r hr).mpr (.inr (hwords r.method ?_))
    rw [← hmethods]
    exact List.mem_map_of_mem hr

/-- **A method that is no word makes a handler's name that is none**: a raw name, here. -/
theorem handlerName_raw :
    ∃ routes, (Route.ofDocument (methodsSample "/" ["r#match"])).collect.1 = .ok routes ∧
      ∃ r ∈ routes, r.handlerName = "r#match" ∧ ¬ IsBare r.handlerName := by
  have hsample : (Route.ofDocument (methodsSample "/" ["r#match"])).collect.1.toOption.map
      (·.map (·.handlerName)) = some ["r#match"] := by decide
  obtain ⟨routes, hroutes, hnames⟩ := Option.map_eq_some_iff.mp hsample
  have hname : "r#match" ∈ routes.map (·.handlerName) := hnames ▸ List.mem_singleton_self _
  obtain ⟨r, hr, hname⟩ := List.mem_map.mp hname
  refine ⟨routes, eq_ok_of_toOption hroutes, r, hr, hname, fun hbare => ?_⟩
  have hhash := hbare.chars '#' (by rw [hname]; decide)
  cases hhash

end ContractSync

/-! ### Models -/

namespace ContractSync

open ContractSync.Contract (Canonical)
open ContractSync.Document
open ContractSync.Name (IsBare Merges digitFirst typeName)

/-- Models are named after the components, in order. -/
theorem Model.exists_components {doc : Canonical} {models : List Model} (h : (ofDocument doc).Yields models) :
    ∃ components : List String, doc.schemas.map (·.1) = components.map Scalar.text ∧
      models.map (·.name) = components.map typeName := by
  have hall := ofDocument_forall₂ h
  clear h
  generalize doc.schemas = schemas at hall
  induction hall with
  | nil => exact ⟨[], rfl, rfl⟩
  | cons hmodel _ ih =>
    obtain ⟨component, hkey, hname⟩ := hmodel
    obtain ⟨components, hkeys, hnames⟩ := ih
    refine ⟨component :: components, ?_, ?_⟩
    · rw [List.map_cons, hkey, hkeys, List.map_cons]
    · rw [List.map_cons, hname, hnames, List.map_cons]

/-- **The models of a document have distinct names exactly if no two components merge, and each has a legal
name exactly if its component begins with no digit and it is not called `Self`.** -/
theorem modelNames_iff {doc : Canonical} {models : List Model}
    (h : (Model.ofDocument doc).collect.1 = .ok models) :
    ∃ components : List String, doc.schemas.map (·.1) = components.map Scalar.text ∧
      models.map (·.name) = components.map typeName ∧
      ((models.map (·.name)).Nodup ↔ components.Pairwise fun a b => a ≠ b ∧ ¬ Merges a b) ∧
      ∀ component ∈ components, (IsBare (typeName component) ↔
        digitFirst component = false ∧ typeName component ≠ "Self") := by
  obtain ⟨components, hkeys, hnames⟩ := Model.exists_components (Resolving.yields_of_collect h)
  refine ⟨components, hkeys, hnames, ?_, fun component _ => Name.isBare_typeName_iff⟩
  rw [hnames, List.Nodup, List.pairwise_map]
  refine List.Pairwise.iff fun a b => ?_
  by_cases hab : a = b
  · rw [hab]
    exact ⟨fun hne => absurd rfl hne, fun hne => absurd rfl hne.1⟩
  · rw [Ne, Name.typeName_eq_iff hab]
    exact ⟨fun hmerge => ⟨hab, hmerge⟩, And.right⟩

/-- Components that are objects without properties, by name. -/
def componentsSample (components : List String) : Canonical where
  data := [(.text "components", .object [("schemas", .object (components.map fun component =>
    (component, .object [("type", .text "object")])))])]
  dialect := .openApi "3.1.0"

theorem modelNames_iff_petSample :
    ∃ models, (Model.ofDocument (componentsSample ["pet", "pet-keeper", "Order_2"])).collect.1 = .ok models ∧
      (models.map (·.name)).Nodup ∧ ∀ model ∈ models, IsBare model.name := by
  have hsample : (Model.ofDocument (componentsSample ["pet", "pet-keeper", "Order_2"])).collect.1.toOption.map
      (·.map (·.name)) = some ["Pet", "PetKeeper", "Order_2"] := by decide
  obtain ⟨models, hmodels, hsampleNames⟩ := Option.map_eq_some_iff.mp hsample
  have hmodels := eq_ok_of_toOption hmodels
  obtain ⟨components, hkeys, hnames, -, hlegal⟩ := modelNames_iff hmodels
  have hcomponents : components = ["pet", "pet-keeper", "Order_2"] :=
    List.map_injective_iff.mpr (fun _ _ => Scalar.text.inj) hkeys.symm
  have hbare : ∀ component ∈ ["pet", "pet-keeper", "Order_2"],
      digitFirst component = false ∧ typeName component ≠ "Self" := by decide
  refine ⟨models, hmodels, hsampleNames ▸ by decide, fun model hmodel => ?_⟩
  have hname : model.name ∈ models.map (·.name) := List.mem_map_of_mem hmodel
  rw [hnames] at hname
  obtain ⟨component, hcomponent, hname⟩ := List.mem_map.mp hname
  rw [← hname]
  exact (hlegal component hcomponent).mpr (hbare component (hcomponents ▸ hcomponent))

/-- **Components whose names differ in their separators become one model**, and one that begins with a digit
no identifier. -/
theorem modelNames_clash :
    ∃ models, (Model.ofDocument (componentsSample ["user-profile", "UserProfile", "3d-model"])).collect.1 =
        .ok models ∧
      models.map (·.name) = ["UserProfile", "UserProfile", "3dModel"] ∧
      ¬ (models.map (·.name)).Nodup ∧ ∃ model ∈ models, ¬ IsBare model.name := by
  have hsample : (Model.ofDocument
      (componentsSample ["user-profile", "UserProfile", "3d-model"])).collect.1.toOption.map
        (·.map (·.name)) = some ["UserProfile", "UserProfile", "3dModel"] := by decide
  obtain ⟨models, hmodels, hnames⟩ := Option.map_eq_some_iff.mp hsample
  have hname : "3dModel" ∈ models.map (·.name) := hnames ▸ by decide
  obtain ⟨model, hmodel, hname⟩ := List.mem_map.mp hname
  refine ⟨models, eq_ok_of_toOption hmodels, hnames, hnames ▸ by decide, model, hmodel, fun hbare => ?_⟩
  rw [hname, Name.isBare_iff] at hbare
  exact absurd hbare.2.1 (by decide)

end ContractSync

/-!
## Mentioned models are declared

Types refer to models by name: in the fields, variants and targets of other models, and in the parameters,
bodies, results and headers of routes. **Each name that is mentioned at any depth of such a type is that of
a model of the same document** (`mentioned_models_declared`), however deep the schemas nest and however
they refer to each other.
-/

namespace ContractSync

open ContractSync.Contract (Canonical)
open ContractSync.Document
open ContractSync.Schema (DataType)

/-- A type that mentions models of the document only mentions declared ones. -/
theorem Schema.DataType.OnlyModels.exists_model {doc : Canonical} {type : DataType}
    (h : type.OnlyModels doc) {models : List Model} (hmodels : (Model.ofDocument doc).Yields models) :
    ∀ name ∈ type.mentioned, ∃ model ∈ models, model.name = name := by
  intro name hname
  obtain ⟨component, hcomponent, rfl⟩ := h name hname
  exact Model.exists_model_of_has hmodels hcomponent

/-- **Every name that the types of a document's models and routes mention is that of one of its
models.** -/
theorem mentioned_models_declared {doc : Canonical} {models : List Model} {routes : List Route}
    (hmodels : (Model.ofDocument doc).collect.1 = .ok models)
    (hroutes : (Route.ofDocument doc).collect.1 = .ok routes) :
    (∀ model ∈ models, ∀ type ∈ model.types, ∀ name ∈ type.mentioned,
      ∃ declared ∈ models, declared.name = name) ∧
    (∀ route ∈ routes, ∀ type ∈ route.types, ∀ name ∈ type.mentioned,
      ∃ declared ∈ models, declared.name = name) := by
  have hall := Resolving.yields_of_collect hmodels
  refine ⟨fun model hmodel type htype => ?_, fun route hroute type htype => ?_⟩
  · exact (Model.ofDocument_onlyModels hall model hmodel type htype).exists_model hall
  · exact (Route.ofDocument_onlyModels (Resolving.yields_of_collect hroutes) route hroute type
      htype).exists_model hall

/-- A reference to a named schema. -/
def schemaReference (name : String) : Value :=
  .object [("$ref", .text ("#/components/schemas/" ++ name))]

/-- Pets and their keepers: schemas that refer to each other, to themselves and to a name that is not kept
as it is written, and an operation that returns a list of alternatives. -/
def keeperSample : Canonical where
  data := [
    (.text "components", .object [("schemas", .object [
      ("pet", .object [("type", .text "object"), ("properties", .object [
        ("keepers", .object [("type", .text "array"), ("items", schemaReference "pet-keeper")]),
        ("parent", schemaReference "pet")])]),
      ("pet-keeper", .object [("oneOf", .list [schemaReference "pet", .object [
        ("type", .text "array"), ("items", schemaReference "pet-keeper")]])])])]),
    (.text "paths", .object [("/keepers", .object [("get", .object [("responses", .object [
      ("200", .object [("content", .object [("application/json", .object [("schema", .object [
        ("type", .text "array"), ("items", .object [("anyOf", .list [schemaReference "pet-keeper",
          .object [("type", .text "string")]])])])])])])])])])])]
  dialect := .openApi "3.1.0"

theorem mentioned_models_declared_keeperSample :
    ∃ models routes, (Model.ofDocument keeperSample).collect.1 = .ok models ∧
      (Route.ofDocument keeperSample).collect.1 = .ok routes ∧
      models.flatMap (fun model => model.types.flatMap (·.mentioned)) =
        ["PetKeeper", "Pet", "Pet", "PetKeeper"] ∧
      routes.flatMap (fun route => route.types.flatMap (·.mentioned)) = ["PetKeeper"] ∧
      (∀ model ∈ models, ∀ type ∈ model.types, ∀ name ∈ type.mentioned,
        ∃ declared ∈ models, declared.name = name) ∧
      (∀ route ∈ routes, ∀ type ∈ route.types, ∀ name ∈ type.mentioned,
        ∃ declared ∈ models, declared.name = name) := by
  have hmodels : (Model.ofDocument keeperSample).collect.1.toOption.map
      (·.flatMap fun model => model.types.flatMap (·.mentioned)) =
        some ["PetKeeper", "Pet", "Pet", "PetKeeper"] := by decide +kernel
  have hroutes : (Route.ofDocument keeperSample).collect.1.toOption.map
      (·.flatMap fun route => route.types.flatMap (·.mentioned)) = some ["PetKeeper"] := by
    decide +kernel
  obtain ⟨models, hall, hnames⟩ := Option.map_eq_some_iff.mp hmodels
  obtain ⟨routes, hroutes, hmentioned⟩ := Option.map_eq_some_iff.mp hroutes
  have hall := eq_ok_of_toOption hall
  have hroutes := eq_ok_of_toOption hroutes
  exact ⟨models, routes, hall, hroutes, hnames, hmentioned, mentioned_models_declared hall hroutes⟩

end ContractSync
