import ContractSync.Model.Basic
import ContractSync.Proofs.Schema.Forms
import Mathlib

/-!
# What the models of a document note

A reference that leads nowhere is a placeholder in the type (`DataType.unknowns`), and it is noted with what was
looked for (`sought`). A reference to another reference is a placeholder as well, and it is noted nowhere.
**What is noted are the placeholders in the type that do not stand for references to references**
(`resolve_records`), the types of variants included. Nothing else happens to notes (`resolve_onlyNotes`).

For a named schema that lists no literals its own type is resolved, and if it becomes a record those of its
properties (`IsResolvedFor`). The members of an `allOf` are not resolved on the way to the properties.
**What is noted are the placeholders in the types that are resolved** (`noted_iff`), each once: a reference in
an `allOf` that leads nowhere is noted if it is the only member, and else only if some property has it as well.
-/

namespace ContractSync.Schema

open ContractSync.Contract (Canonical)
open ContractSync.Document
open Resolving (Gives OnlyNotes Records Returns)

/-! ### Placeholders -/

namespace DataType

mutual

/-- The references whose placeholders stand in the type, at its top or inside. -/
def unknowns : DataType → List String
  | .unknown ref => [ref]
  | .array inner | .map inner | .optional inner => inner.unknowns
  | .union variants _ => unknownsIn variants
  | .scalar _ _ | .reference _ | .dynamic => []

/-- The references whose placeholders stand in the types of variants. -/
def unknownsIn : List (VariantLabel × DataType) → List String
  | [] => []
  | (_, type) :: rest => type.unknowns ++ unknownsIn rest

end

theorem unknowns_orNothingIf (nullable : Bool) (type : DataType) :
    (type.orNothingIf nullable).unknowns = type.unknowns := by
  cases nullable with
  | false => rfl
  | true => cases type <;> rfl

end DataType

/-! ### Notes -/

variable {doc : Canonical} {within next : Resolver}

/-- What is looked for at the end of a reference. -/
def sought (doc : Canonical) (ref : String) : String :=
  if (doc.componentName ref "schemas").isSome then "schema component" else "schema"

/-- The note is of one of the references, which is no reference to a reference. -/
def IsNoted (doc : Canonical) (refs : List String) (u : Unresolved) : Prop :=
  u.ref ∈ refs ∧ Target.ofReference doc u.ref ≠ .ok .chained ∧ u.context = sought doc u.ref

theorem not_isNoted_nil (u : Unresolved) : ¬ IsNoted doc [] u := fun h => List.not_mem_nil h.1

theorem isNoted_append {refs more : List String} {u : Unresolved} :
    IsNoted doc (refs ++ more) u ↔ IsNoted doc refs u ∨ IsNoted doc more u := by
  simp only [IsNoted, List.mem_append, or_and_right]

theorem sought_of_missing {ref context : String} (h : Target.ofReference doc ref = .ok (.missing context)) :
    context = sought doc ref := by
  unfold Target.ofReference at h
  unfold sought
  cases hname : doc.componentName ref "schemas" with
  | some component =>
    rw [hname] at h
    have hif := Except.ok.inj h
    split at hif
    · cases hif
    · cases hif
      rfl
  | none =>
    rw [hname] at h
    obtain ⟨found, -, h⟩ := map_eq_ok.mp h
    split at h
    · split at h <;> cases h
    · cases h
      rfl

theorem ofReference_records (hnext : ∀ v, Records (next v) fun type => IsNoted doc type.unknowns) (ref : String) :
    Records (ofReference doc next ref) fun type => IsNoted doc type.unknowns := by
  rw [ofReference_eq]
  refine Records.lift_bind fun target htarget => ?_
  cases target with
  | model component => exact .pure not_isNoted_nil
  | schema target => exact hnext _
  | chained =>
    refine .pure fun u hu => ?_
    obtain rfl : u.ref = ref := List.mem_singleton.mp hu.1
    exact hu.2.1 htarget
  | missing context =>
    refine Records.note_bind fun u => ?_
    have hcontext := sought_of_missing htarget
    constructor
    · rintro ⟨hmem, -, hsought⟩
      obtain rfl : u.ref = ref := List.mem_singleton.mp hmem
      rw [hcontext, ← hsought]
    · rintro rfl
      exact ⟨List.mem_singleton_self _, by rw [htarget]; simp, hcontext⟩

theorem ofDynamicReference_records (ref : String) :
    Records (ofDynamicReference doc ref) fun type => IsNoted doc type.unknowns := by
  unfold ofDynamicReference
  refine Records.lift_bind fun name _ => .pure fun u => ?_
  split <;> exact not_isNoted_nil u

section Members

variable (hwithin : ∀ v, Records (within v) fun type => IsNoted doc type.unknowns)
  (hnext : ∀ v, Records (next v) fun type => IsNoted doc type.unknowns)

include hwithin hnext in
theorem members_records {mapping : Entries} {position : Nat} {names : Name.Table} (alternatives : List Value) :
    Records (members doc within next mapping position names alternatives) fun variants =>
      IsNoted doc (DataType.unknownsIn variants) := by
  induction alternatives generalizing position names with
  | nil => exact .pure not_isNoted_nil
  | cons member rest ih =>
    intro before variants after h u
    rw [members] at h
    obtain ⟨⟨label, type⟩, between, hfound, h⟩ := h.bind
    obtain ⟨more, _, hmore, h⟩ := h.bind
    obtain ⟨rfl, rfl⟩ := h.pure
    have hmember : u ∈ between.unresolved ↔ u ∈ before.unresolved ∨ IsNoted doc type.unknowns u := by
      obtain ⟨ref, -, htype⟩ | ⟨-, htype⟩ := memberAt_gives hfound
      · exact ofReference_records hnext ref _ _ _ htype u
      · exact hwithin member _ _ _ htype u
    rw [ih _ _ _ hmore u, hmember, or_assoc, ← isNoted_append]
    rfl

include hwithin hnext in
/-- A form notes what stands in its type. -/
theorem Form.resolve_records (form : Form) :
    Records (form.resolve doc within next) fun type => IsNoted doc type.unknowns := by
  cases form with
  | any | scalar => exact .pure not_isNoted_nil
  | array items =>
    rw [Form.resolve_array]
    refine Records.map ?_ fun _ _ => Iff.rfl
    cases items with
    | none => exact .pure not_isNoted_nil
    | some items => exact hwithin items
  | map values =>
    rw [Form.resolve_map]
    refine Records.map ?_ fun _ _ => Iff.rfl
    cases values with
    | none => exact .pure not_isNoted_nil
    | some values => exact hwithin values
  | inner schema => exact hwithin schema
  | reference ref => exact ofReference_records hwithin ref
  | dynamicReference ref => exact ofDynamicReference_records ref
  | union first others discriminator =>
    rw [Form.resolve_union]
    exact (members_records hwithin hnext _).map fun _ _ => Iff.rfl

end Members

/-- **Exactly the placeholders are noted**, those for references to references apart. -/
theorem resolve_records (budget : Nat) (v : Value) :
    Records (resolve doc budget v) fun type => IsNoted doc type.unknowns := by
  induction budget using Nat.strongRecOn generalizing v with
  | ind budget ih =>
    cases budget with
    | zero => exact .pure not_isNoted_nil
    | succ budget =>
      rw [resolve_succ, ofNode_eq_form]
      refine (Form.resolve_records (ih budget (by omega)) (ih (budget - 1) (by omega)) _).map fun type u => ?_
      rw [DataType.unknowns_orNothingIf]

/-- A reference that leads nowhere becomes a placeholder. -/
theorem resolve_missing {budget : Nat} {v : Value} {ref context : String} (href : v.get "$ref" = .text ref)
    (h : Target.ofReference doc ref = .ok (.missing context)) : Returns (resolve doc (budget + 1) v) (.unknown ref) := by
  rw [resolve_of_reference href, ofReference_eq]
  exact (Returns.lift h).bind ((Returns.note ref context).bind (.pure _))

/-! ### Nothing else happens to notes -/

section OnlyNotes

variable (hwithin : ∀ v, OnlyNotes (within v)) (hnext : ∀ v, OnlyNotes (next v))

theorem ofReference_onlyNotes (hnext : ∀ v, OnlyNotes (next v)) (ref : String) : OnlyNotes (ofReference doc next ref) := by
  rw [ofReference_eq]
  refine .bind (.lift _) fun target => ?_
  cases target with
  | model | chained => exact .pure _
  | schema target => exact hnext _
  | missing context => exact .bind (.note ref context) fun _ => .pure _

include hwithin hnext in
theorem memberAt_onlyNotes (mapping : Entries) (position : Nat) (member : Value) :
    OnlyNotes (memberAt doc within next mapping position member) := by
  unfold memberAt
  split
  · exact .bind (.lift _) fun _ => .bind (ofReference_onlyNotes hnext _) fun _ => .bind (.lift _) fun _ => .pure _
  · exact .bind (hwithin member) fun _ => .pure _

include hwithin hnext in
theorem members_onlyNotes {mapping : Entries} {position : Nat} {names : Name.Table} (alternatives : List Value) :
    OnlyNotes (members doc within next mapping position names alternatives) := by
  induction alternatives generalizing position names with
  | nil => exact .pure _
  | cons member rest ih =>
    rw [members]
    exact .bind (memberAt_onlyNotes hwithin hnext mapping position member) fun _ => .bind ih fun _ => .pure _

include hwithin hnext in
theorem Form.resolve_onlyNotes (form : Form) : OnlyNotes (form.resolve doc within next) := by
  cases form with
  | any | scalar => exact .pure _
  | array items =>
    rw [Form.resolve_array]
    cases items with
    | none => exact OnlyNotes.map (.pure _)
    | some items => exact (hwithin items).map
  | map values =>
    rw [Form.resolve_map]
    cases values with
    | none => exact OnlyNotes.map (.pure _)
    | some values => exact (hwithin values).map
  | inner schema => exact hwithin schema
  | reference ref => exact ofReference_onlyNotes hwithin ref
  | dynamicReference ref => exact .bind (.lift _) fun _ => .pure _
  | union first others discriminator =>
    rw [Form.resolve_union]
    exact (members_onlyNotes hwithin hnext _).map

end OnlyNotes

theorem resolve_onlyNotes (budget : Nat) (v : Value) : OnlyNotes (resolve doc budget v) := by
  induction budget using Nat.strongRecOn generalizing v with
  | ind budget ih =>
    cases budget with
    | zero => exact .pure _
    | succ budget =>
      rw [resolve_succ, ofNode_eq_form]
      exact (Form.resolve_onlyNotes (ih budget (by omega)) (ih (budget - 1) (by omega)) _).map

end ContractSync.Schema

namespace ContractSync.Model

open ContractSync.Contract (Canonical)
open ContractSync.Document
open ContractSync.Schema (DataType IsNoted)
open Resolving (Gives OnlyNotes Records)

variable {doc : Canonical}

/-! ### Resolved schemas -/

/-- A schema with this type becomes a record. -/
def IsRecordOf (type : DataType) (schema : Entries) : Prop :=
  (∀ variants discriminator, type ≠ .union variants discriminator) ∧
    (isObject schema && !(isMap type && !(Entries.get schema "allOf").isPresent)) = true

/-- The schemas whose types are resolved for the model of a named schema. -/
inductive IsResolvedFor (doc : Canonical) : Scalar × Value → Value → Prop
  | own {key : Scalar} {entries : Entries} (hliterals : literalsOf entries = []) :
      IsResolvedFor doc (key, .mapping entries) (.mapping entries)
  | property {name : String} {entries : Entries} {type : DataType} {properties : Properties} {e : Scalar × Value}
      (hliterals : literalsOf entries = [])
      (htype : (Schema.resolve doc Schema.defaultBudget (.mapping entries)).Yields type)
      (hrecord : IsRecordOf type entries) (hproperties : propertiesOf doc name entries = .ok properties)
      (he : e ∈ properties.schemas) : IsResolvedFor doc (.text name, .mapping entries) e.2

/-- Resolving the schema notes the reference. -/
def IsNotedIn (doc : Canonical) (schema : Value) (u : Unresolved) : Prop :=
  ∃ type, (Schema.resolve doc Schema.defaultBudget schema).Yields type ∧ IsNoted doc type.unknowns u

theorem resolve_isNotedIn (schema : Value) :
    Records (Schema.resolve doc Schema.defaultBudget schema) fun _ => IsNotedIn doc schema :=
  (Schema.resolve_onlyNotes _ _).records (Schema.resolve_records _ _)

/-! ### Models -/

theorem fieldsOf_records {required : List String} {names : Name.Table} (properties : Entries) :
    Records (fieldsOf doc required names properties) fun _ u => ∃ e ∈ properties, IsNotedIn doc e.2 u := by
  induction properties generalizing names with
  | nil => exact .pure (by simp)
  | cons e rest ih =>
    obtain ⟨key, schema⟩ := e
    intro before fields after h u
    rw [fieldsOf] at h
    obtain ⟨type, between, htype, h⟩ := h.bind
    obtain ⟨property, _, hproperty, h⟩ := h.bind
    obtain ⟨-, rfl⟩ := hproperty.lift
    obtain ⟨more, _, hmore, h⟩ := h.bind
    obtain ⟨rfl, rfl⟩ := h.pure
    rw [ih _ _ _ hmore u, resolve_isNotedIn schema _ _ _ htype u, or_assoc]
    simp only [List.mem_cons, exists_eq_or_imp]

theorem shapeOf_gives {name : String} {schema : Entries} {shape : Shape} {before after : Diagnostics}
    (h : Gives (shapeOf doc name schema) before shape after) :
    ∃ type between, Gives (Schema.resolve doc Schema.defaultBudget (.mapping schema)) before type between ∧
      (IsRecordOf type schema ∧ Gives (recordOf doc name schema) between shape after ∨
        ¬ IsRecordOf type schema ∧ after = between) := by
  unfold shapeOf at h
  obtain ⟨type, between, htype, h⟩ := h.bind
  refine ⟨type, between, htype, ?_⟩
  split at h
  · exact .inr ⟨fun hrecord => hrecord.1 _ _ rfl, h.pure.2⟩
  · rename_i hunion
    split at h
    · rename_i hrecord
      exact .inl ⟨⟨hunion, hrecord⟩, h⟩
    · rename_i hrecord
      exact .inr ⟨fun h => hrecord h.2, h.pure.2⟩

theorem shapeOf_records (name : String) {entries : Entries} (hliterals : literalsOf entries = []) :
    Records (shapeOf doc name entries) fun _ u =>
      ∃ s, IsResolvedFor doc (.text name, .mapping entries) s ∧ IsNotedIn doc s u := by
  intro before shape after h u
  obtain ⟨type, between, htype, hshape⟩ := shapeOf_gives h
  -- The type of the schema is the same whenever it is resolved.
  have honly : ∀ {other}, (Schema.resolve doc Schema.defaultBudget (.mapping entries)).Yields other → other = type :=
    fun hother => (Schema.resolve_onlyNotes _ _).eq_of_yields hother htype.yields
  have hown := resolve_isNotedIn _ _ _ _ htype u
  obtain ⟨hrecord, hfields⟩ | ⟨hrecord, rfl⟩ := hshape
  · obtain ⟨properties, _, hlift, hfields⟩ := hfields.bind
    obtain ⟨hproperties, rfl⟩ := hlift.lift
    obtain ⟨fields, _, hfields, hpure⟩ := hfields.bind
    obtain ⟨-, rfl⟩ := hpure.pure
    rw [fieldsOf_records _ _ _ _ hfields u, hown, or_assoc]
    refine or_congr_right ⟨?_, ?_⟩
    · rintro (hu | ⟨e, he, hu⟩)
      · exact ⟨_, .own hliterals, hu⟩
      · exact ⟨e.2, .property hliterals htype.yields hrecord hproperties he, hu⟩
    · rintro ⟨s, hs, hu⟩
      cases hs with
      | own => exact .inl hu
      | property _ _ _ hother he =>
        obtain rfl := Except.ok.inj (hother.symm.trans hproperties)
        exact .inr ⟨_, he, hu⟩
  · rw [hown]
    refine or_congr_right ⟨fun hu => ⟨_, .own hliterals, hu⟩, ?_⟩
    rintro ⟨s, hs, hu⟩
    cases hs with
    | own => exact hu
    | property _ hother hrecordOther _ _ => exact absurd (honly hother ▸ hrecordOther) hrecord

/-- The model of a schema, in terms of its shape. -/
theorem ofSchema_mapping (name : String) (entries : Entries) : ofSchema doc (.text name) (.mapping entries) =
    (⟨Name.typeName name, ·, descriptionOf (.mapping entries)⟩) <$>
      if literalsOf entries = [] then shapeOf doc name entries
      else pure (.literals (variantsOf {} (literalsOf entries))) := by
  unfold ofSchema
  dsimp only
  cases literalsOf entries with
  | nil =>
    show (shapeOf doc name entries >>= fun shape => pure _) = _
    exact bind_pure_comp _ _
  | cons => rfl

theorem ofSchema_records (key : Scalar) (schema : Value) :
    Records (ofSchema doc key schema) fun _ u => ∃ s, IsResolvedFor doc (key, schema) s ∧ IsNotedIn doc s u := by
  cases key with
  | text name =>
    cases schema with
    | mapping entries =>
      rw [ofSchema_mapping]
      refine Records.map ?_ fun _ _ => Iff.rfl
      cases hliterals : literalsOf entries with
      | nil => exact shapeOf_records name hliterals
      | cons literal rest =>
        refine .pure fun u ⟨s, hs, _⟩ => ?_
        cases hs with
        | own hnone | property hnone => exact List.cons_ne_nil _ _ (hliterals.symm.trans hnone)
    | scalar | list | set => exact .pure fun u ⟨s, hs, _⟩ => nomatch hs
  | null | bool | int | float | moment | bytes => exact Records.lift_bind fun _ hname => nomatch hname

/-- **What the models of a document note** are the placeholders in the types that are resolved for them. -/
theorem ofDocument_records (doc : Canonical) : Records (ofDocument doc) fun _ u =>
    ∃ e ∈ doc.schemas, ∃ s, IsResolvedFor doc e s ∧ IsNotedIn doc s u :=
  Records.mapM fun e _ => ofSchema_records e.1 e.2

theorem fieldsOf_onlyNotes {required : List String} {names : Name.Table} (properties : Entries) :
    OnlyNotes (fieldsOf doc required names properties) := by
  induction properties generalizing names with
  | nil => exact .pure _
  | cons e rest ih =>
    obtain ⟨key, schema⟩ := e
    rw [fieldsOf]
    exact .bind (Schema.resolve_onlyNotes _ _) fun _ => .bind (.lift _) fun _ => .bind ih fun _ => .pure _

theorem shapeOf_onlyNotes (name : String) (schema : Entries) : OnlyNotes (shapeOf doc name schema) := by
  unfold shapeOf
  refine .bind (Schema.resolve_onlyNotes _ _) fun type => ?_
  split
  · exact .pure _
  · split
    · exact .bind (.lift _) fun _ => .bind (fieldsOf_onlyNotes _) fun _ => .pure _
    · exact .pure _

theorem ofSchema_onlyNotes (key : Scalar) (schema : Value) : OnlyNotes (ofSchema doc key schema) := by
  cases key with
  | text name =>
    cases schema with
    | mapping entries =>
      rw [ofSchema_mapping]
      refine OnlyNotes.map ?_
      split
      · exact shapeOf_onlyNotes name entries
      · exact .pure _
    | scalar | list | set => exact .pure _
  | null | bool | int | float | moment | bytes => exact .lift (.error .unsuited)

theorem ofDocument_onlyNotes (doc : Canonical) : OnlyNotes (ofDocument doc) :=
  .mapM fun e _ => ofSchema_onlyNotes e.1 e.2

/-- A reference that says all that a schema says is noted where it leads nowhere. -/
theorem isNotedIn_of_inner {schema member : Value} {ref context : String}
    (hform : (Schema.Form.ofValue schema).1 = .inner member) (href : member.get "$ref" = .text ref)
    (hmissing : Schema.Target.ofReference doc ref = .ok (.missing context)) : IsNotedIn doc schema ⟨ref, context⟩ := by
  refine ⟨(DataType.unknown ref).orNothingIf (Schema.Form.ofValue schema).2, ?_, ?_⟩
  · show (Schema.resolve doc (7 + 1) schema).Yields _
    rw [Schema.resolve_succ, Schema.ofNode_eq_form, hform]
    exact (Resolving.Returns.map (Schema.resolve_missing href hmissing)).yields
  · rw [DataType.unknowns_orNothingIf]
    exact ⟨List.mem_singleton_self ref, by rw [hmissing]; simp, Schema.sought_of_missing hmissing⟩

/-- **The placeholders in types are what is noted**, each once. In a resolved type, those for references to
references are not noted; for models, those in the types that are resolved on the way are noted and no others, so
that the only member of an `allOf` is, where it leads nowhere. -/
theorem noted_iff (doc : Canonical) :
    (∀ budget v, (Schema.resolve doc budget v).collect.2.unresolved.Nodup) ∧
    (∀ budget v type notes, (Schema.resolve doc budget v).collect = (.ok type, notes) →
      ∀ ref, (∃ context, ⟨ref, context⟩ ∈ notes.unresolved) ↔
        ref ∈ type.unknowns ∧ Schema.Target.ofReference doc ref ≠ .ok .chained) ∧
    (ofDocument doc).collect.2.unresolved.Nodup ∧
    ∀ models notes, (ofDocument doc).collect = (.ok models, notes) →
      (∀ u, u ∈ notes.unresolved ↔ ∃ e ∈ doc.schemas, ∃ s, IsResolvedFor doc e s ∧ IsNotedIn doc s u) ∧
      ∀ key entries member ref context, (key, Value.mapping entries) ∈ doc.schemas → literalsOf entries = [] →
        (Schema.Form.ofValue (.mapping entries)).1 = .inner member → member.get "$ref" = .text ref →
          Schema.Target.ofReference doc ref = .ok (.missing context) → ⟨ref, context⟩ ∈ notes.unresolved := by
  refine ⟨fun budget v => (Schema.resolve_onlyNotes budget v).nodup .nil, ?_,
    (ofDocument_onlyNotes doc).nodup .nil, ?_⟩
  · intro budget v type notes h ref
    have hall : ∀ u, u ∈ notes.unresolved ↔ u ∈ [] ∨ IsNoted doc type.unknowns u :=
      Schema.resolve_records budget v {} type notes h
    simp only [hall, List.not_mem_nil, false_or, IsNoted]
    constructor
    · rintro ⟨context, hmem, hchained, -⟩
      exact ⟨hmem, hchained⟩
    · rintro ⟨hmem, hchained⟩
      exact ⟨_, hmem, hchained, rfl⟩
  · intro models notes h
    have hall : ∀ u, u ∈ notes.unresolved ↔ u ∈ [] ∨ _ := ofDocument_records doc {} models notes h
    simp only [List.not_mem_nil, false_or] at hall
    refine ⟨hall, fun key entries member ref context hmem hliterals hform href hmissing => ?_⟩
    exact (hall _).mpr ⟨_, hmem, _, .own hliterals, isNotedIn_of_inner hform href hmissing⟩

/-- A dog has what an animal has, and there are no animals. -/
def dogSample : Canonical where
  data := [("components", .object [("schemas", .object [("Dog",
    .object [("allOf", .list [.object [("$ref", .text "#/components/schemas/Animal")]])])])])]
  dialect := .openApi "3.1.0"

/-- The reference is noted, for the model and for the schema alone. -/
theorem noted_iff_dogSample :
    ⟨"#/components/schemas/Animal", "schema component"⟩ ∈ (ofDocument dogSample).collect.2.unresolved ∧
    ∃ context, ⟨"#/components/schemas/Animal", context⟩ ∈
      (Schema.resolve dogSample 8 (.object [("$ref", .text "#/components/schemas/Animal")])).collect.2.unresolved := by
  obtain ⟨-, htypes, -, hmodels⟩ := noted_iff dogSample
  have hok : (ofDocument dogSample).collect.1.toOption.isSome = true := by decide +kernel
  obtain ⟨models, hok⟩ := Option.isSome_iff_exists.mp hok
  have htype : (Schema.resolve dogSample 8 (.object [("$ref", .text "#/components/schemas/Animal")])).collect.1 =
      .ok (.unknown "#/components/schemas/Animal") := by cbv
  have hmissing : Schema.Target.ofReference dogSample "#/components/schemas/Animal" =
      .ok (.missing "schema component") := by cbv
  refine ⟨?_, (htypes _ _ _ _ (Prod.ext htype rfl) _).mpr ⟨List.mem_singleton_self _, by rw [hmissing]; simp⟩⟩
  exact (hmodels models _ (Prod.ext (eq_ok_of_toOption hok) rfl)).2 "Dog" _
    (.object [("$ref", .text "#/components/schemas/Animal")]) _ _ (List.mem_singleton_self _) rfl rfl rfl hmissing

/-- A pet has what an animal has and a name of its own; there are no animals. Another schema is a reference. -/
def orphanSample : Canonical where
  data := [("components", .object [("schemas", .object [("Pet", .object [("allOf", .list [
      .object [("$ref", .text "#/components/schemas/Animal")],
      .object [("properties", .object [("name", .object [("type", .text "string")])])]])])])]),
    ("x-pet", .object [("$ref", .text "#/components/schemas/Pet")])]
  dialect := .openApi "3.1.0"

/-- A reference to a reference becomes a placeholder, and a reference beside other members leads to no schema.
Neither is noted. -/
theorem silent_orphanSample :
    (Schema.resolve orphanSample 8 (.object [("$ref", .text "#/x-pet")])).collect = (.ok (.unknown "#/x-pet"), {}) ∧
    Entries.has orphanSample.schemas "Animal" = false ∧ (ofDocument orphanSample).collect.1.toOption.isSome = true ∧
    (ofDocument orphanSample).collect.2 = {} := by
  refine ⟨?_, ?_, ?_, ?_⟩
  · cbv
  · decide
  · decide +kernel
  · decide +kernel

end ContractSync.Model
