import ContractSync.Model.Basic
import ContractSync.Proofs.Document.Entries
import ContractSync.Proofs.Name.Words
import ContractSync.Proofs.Schema.TypeNames
import ContractSync.Proofs.Schema.Unions

/-!
# The names inside models

A record names its fields, a union its variants and an enumeration its literals from a table of its
own. `ofDocument_named` says what each name is made from (`Shape.IsNamed`).

There is one model for each named schema, and it has the name that types give to that schema
(`ofDocument_forall₂`). **The types inside the models of a document mention models of the document and
nothing else** (`ofDocument_onlyModels`).
-/

namespace ContractSync.Model

open ContractSync.Contract (Canonical)
open ContractSync.Document
open ContractSync.Name (Table)
open ContractSync.Schema (DataType NamedForAlternatives VariantLabel resolve_onlyModels)

/-- The name that the variant of a literal asks for. -/
def literalBase (v : VariantLabel) : String := Name.variantName (v.rename.getD "")

/-- The names inside the shape of a schema are those that an empty table gives out. -/
def Shape.IsNamed (doc : Canonical) (schema : Value) : Shape → Prop
  | .record fields =>
    fields.map (·.name) = Table.claimAll {} (fields.map fun f => Name.fieldName f.property)
  | .union variants _ => NamedForAlternatives doc schema variants
  | .literals variants => variants.map (·.name) = Table.claimAll {} (variants.map literalBase)
  | .alias _ => True

variable {doc : Canonical}

theorem fieldsOf_names {required : List String} {names : Table} {properties : Entries}
    {fields : List Field} (h : (fieldsOf doc required names properties).Yields fields) :
    fields.map (·.name) = names.claimAll (fields.map fun f => Name.fieldName f.property) := by
  induction properties generalizing names fields with
  | nil =>
    rw [fieldsOf] at h
    rw [h.pure]
    rfl
  | cons e rest ih =>
    rw [fieldsOf] at h
    obtain ⟨type, -, h⟩ := h.bind
    obtain ⟨property, -, h⟩ := h.bind
    obtain ⟨more, hmore, h⟩ := h.bind
    rw [h.pure, List.map_cons, List.map_cons, ih hmore]
    rfl

theorem variantsOf_names (names : Table) (literals : List String) :
    (variantsOf names literals).map (·.name) =
      names.claimAll ((variantsOf names literals).map literalBase) := by
  induction literals generalizing names with
  | nil => rfl
  | cons literal rest ih =>
    rw [variantsOf, List.map_cons, List.map_cons, ih]
    rfl

theorem shapeOf_named {name : String} {schema : Entries} {shape : Shape}
    (h : (shapeOf doc name schema).Yields shape) : shape.IsNamed doc (.mapping schema) := by
  unfold shapeOf at h
  obtain ⟨type, htype, h⟩ := h.bind
  split at h
  · rw [h.pure]
    exact Schema.resolve_union htype
  · split at h
    · unfold recordOf at h
      obtain ⟨properties, -, h⟩ := h.bind
      obtain ⟨fields, hfields, h⟩ := h.bind
      rw [h.pure]
      exact fieldsOf_names hfields
    · rw [h.pure]
      trivial

theorem ofSchema_named {key : Scalar} {schema : Value} {model : Model}
    (h : (ofSchema doc key schema).Yields model) : model.shape.IsNamed doc schema := by
  unfold ofSchema at h
  obtain ⟨name, -, h⟩ := h.bind
  split at h
  · split at h
    · obtain ⟨shape, hshape, h⟩ := h.bind
      rw [h.pure]
      exact shapeOf_named hshape
    · obtain ⟨shape, hshape, h⟩ := h.bind
      rw [h.pure, hshape.pure]
      exact variantsOf_names {} _
  · rw [h.pure]
    trivial

/-- Every model of a document is named from tables of its own, for the schema it stands for. -/
theorem ofDocument_named {models : List Model} (h : (ofDocument doc).Yields models) :
    ∀ model ∈ models, ∃ e ∈ doc.schemas, model.shape.IsNamed doc e.2 := by
  intro model hmodel
  obtain ⟨e, he, hmodel⟩ := h.mapM model hmodel
  exact ⟨e, he, ofSchema_named hmodel⟩

/-! ### The names of models -/

theorem ofSchema_name {key : Scalar} {schema : Value} {model : Model}
    (h : (ofSchema doc key schema).Yields model) :
    ∃ component, key = .text component ∧ model.name = Name.typeName component := by
  unfold ofSchema at h
  obtain ⟨component, hcomponent, h⟩ := h.bind
  have hkey : key = .text component := by
    unfold nameText at hcomponent
    split at hcomponent
    · rw [Except.ok.inj hcomponent.lift]
    · cases hcomponent.lift
  refine ⟨component, hkey, ?_⟩
  split at h
  · split at h <;> (obtain ⟨shape, -, h⟩ := h.bind; rw [h.pure])
  · rw [h.pure]

/-- **There is one model for each named schema, in order, with the name that types give to it.** -/
theorem ofDocument_forall₂ {models : List Model} (h : (ofDocument doc).Yields models) :
    List.Forall₂ (fun e model => ∃ component, e.1 = .text component ∧
      model.name = Name.typeName component) doc.schemas models :=
  h.forall₂_mapM.imp fun _ _ hmodel => ofSchema_name hmodel

/-- A named schema has a model. -/
theorem exists_model_of_has {models : List Model} (h : (ofDocument doc).Yields models)
    {component : String} (hcomponent : Entries.has doc.schemas component = true) :
    ∃ model ∈ models, model.name = Name.typeName component := by
  obtain ⟨v, hv⟩ := Option.isSome_iff_exists.mp hcomponent
  obtain ⟨model, hmodel, name, hkey, hname⟩ :=
    Resolving.exists_left_of_forall₂ (ofDocument_forall₂ h) _ (Entries.mem_of_get? hv)
  cases hkey
  exact ⟨model, hmodel, hname⟩

/-! ### The types inside models -/

/-- The types inside the shape: of the fields, of the variants, or of the target. -/
def Shape.types : Shape → List DataType
  | .record fields => fields.map (·.type)
  | .union variants _ => variants.map (·.2)
  | .literals _ => []
  | .alias target => [target]

/-- The types inside the model. -/
def types (m : Model) : List DataType := m.shape.types

theorem fieldsOf_onlyModels {required : List String} {names : Name.Table} {properties : Entries}
    {fields : List Field} (h : (fieldsOf doc required names properties).Yields fields) :
    ∀ f ∈ fields, f.type.OnlyModels doc := by
  induction properties generalizing names fields with
  | nil =>
    rw [fieldsOf] at h
    rw [h.pure]
    exact List.forall_mem_nil _
  | cons e rest ih =>
    rw [fieldsOf] at h
    obtain ⟨type, htype, h⟩ := h.bind
    obtain ⟨property, -, h⟩ := h.bind
    obtain ⟨more, hmore, h⟩ := h.bind
    rw [h.pure]
    exact List.forall_mem_cons.mpr ⟨(resolve_onlyModels htype).orNothingIf _, ih hmore⟩

theorem shapeOf_onlyModels {name : String} {schema : Entries} {shape : Shape}
    (h : (shapeOf doc name schema).Yields shape) : ∀ type ∈ shape.types, type.OnlyModels doc := by
  unfold shapeOf at h
  obtain ⟨type, htype, h⟩ := h.bind
  split at h
  · rw [h.pure]
    exact List.forall_mem_map.mpr (DataType.onlyModels_union.mp (resolve_onlyModels htype))
  · split at h
    · unfold recordOf at h
      obtain ⟨properties, -, h⟩ := h.bind
      obtain ⟨fields, hfields, h⟩ := h.bind
      rw [h.pure]
      exact List.forall_mem_map.mpr (fieldsOf_onlyModels hfields)
    · rw [h.pure]
      exact List.forall_mem_singleton.mpr (resolve_onlyModels htype)

theorem ofSchema_onlyModels {key : Scalar} {schema : Value} {model : Model}
    (h : (ofSchema doc key schema).Yields model) : ∀ type ∈ model.types, type.OnlyModels doc := by
  unfold ofSchema at h
  obtain ⟨name, -, h⟩ := h.bind
  split at h
  · split at h
    · obtain ⟨shape, hshape, h⟩ := h.bind
      rw [h.pure]
      exact shapeOf_onlyModels hshape
    · obtain ⟨shape, hshape, h⟩ := h.bind
      rw [h.pure, hshape.pure]
      exact List.forall_mem_nil _
  · rw [h.pure]
    exact List.forall_mem_singleton.mpr DataType.onlyModels_dynamic

/-- **The types inside the models of a document mention models of the document and nothing else.** -/
theorem ofDocument_onlyModels {models : List Model} (h : (ofDocument doc).Yields models) :
    ∀ model ∈ models, ∀ type ∈ model.types, type.OnlyModels doc := by
  intro model hmodel
  obtain ⟨e, -, he⟩ := h.mapM model hmodel
  exact ofSchema_onlyModels he

end ContractSync.Model
