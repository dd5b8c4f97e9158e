import ContractSync.Proofs.Contract.Shared
import ContractSync.Proofs.Model.Notes
import ContractSync.Proofs.Resolving
import ContractSync.Proofs.Schema.Bounds
import ContractSync.Proofs.Schema.Faults
import ContractSync.Proofs.Schema.Nullable

/-!
# Which schemas become enumerations

A list of strings becomes an enumeration with one variant for each literal, and alternatives become a union
with one variant for each of them, unless null is allowed besides: by a flag, in the list of types, or as a
literal or an alternative. **The model has the variants exactly if null is allowed in none of these ways**
(`becomesEnum_iff`) and no keyword that comes first decides otherwise.

**The named schemas of a canonical document are those of the document, each in normal form**
(`namedSchemas_of_runPasses`). What is left of a schema without its nullable flags is the same whether it has
flags or not (`unflagged`), and the normal form is that, unless a flag is true and counts (`FoldsNull`).
-/

namespace ContractSync.Contract

open ContractSync.Document

/-! ### The named schemas of a document -/

/-- The named schemas of a document. -/
def namedSchemas (data : Entries) : Entries := (Entries.get (Entries.get data "components").entries "schemas").entries

variable {pass : Pass}

theorem entries_of_rewritePart {v v' : Value} (h : rewritePart pass v = .ok v') (hv : v.isMapping = false) :
    v.entries = [] ∧ v'.entries = [] := by
  cases v with
  | mapping entries => cases hv
  | list items =>
    rw [rewritePart] at h
    obtain ⟨items', -, h⟩ := bind_eq_ok.mp h
    rw [pure_eq_ok.mp h]
    exact ⟨rfl, rfl⟩
  | scalar | set =>
    rw [rewritePart] at h
    cases h
    exact ⟨rfl, rfl⟩

theorem schemas_rewriteComponents {families families' : Entries} (h : rewriteComponents pass families = .ok families') :
    (Entries.get families' "schemas").entries = rewriteNamed pass (Entries.get families "schemas").entries := by
  have hall := pointwise_rewriteComponents h
  cases hget : Entries.get? families "schemas" with
  | none =>
    rw [Entries.get_of_not_has (Entries.get?_eq_none_iff.mp hget),
      Entries.get_of_not_has (Entries.get?_eq_none_iff.mp (hall.get?_eq_none hget))]
    exact (rewriteNamed_eq_map []).symm
  | some v =>
    obtain ⟨v', hv', hrewrite⟩ := hall.get?_eq_some hget
    rw [Entries.get_of_get? hget, Entries.get_of_get? hv']
    obtain ⟨schemas, -, rfl⟩ | hpart := family_cases (.text "schemas") v
    · rw [rewriteFamily] at hrewrite
      cases hrewrite
      rfl
    · rw [rewriteFamily_of_part hpart] at hrewrite
      obtain ⟨hv, hv'⟩ := entries_of_rewritePart hrewrite (hpart rfl)
      rw [hv, hv', rewriteNamed_eq_map, List.map_nil]

theorem namedSchemas_rewriteDocument {data data' : Entries} (h : rewriteDocument pass data = .ok data') :
    namedSchemas data' = (namedSchemas data).map fun e => (e.1, rewriteSchema pass e.2) := by
  have hall := pointwise_rewriteDocument h
  rw [← rewriteNamed_eq_map, namedSchemas, namedSchemas]
  cases hget : Entries.get? data "components" with
  | none =>
    rw [Entries.get_of_not_has (Entries.get?_eq_none_iff.mp hget),
      Entries.get_of_not_has (Entries.get?_eq_none_iff.mp (hall.get?_eq_none hget))]
    exact (rewriteNamed_eq_map []).symm
  | some v =>
    obtain ⟨v', hv', hrewrite⟩ := hall.get?_eq_some hget
    rw [Entries.get_of_get? hget, Entries.get_of_get? hv']
    obtain ⟨families, -, rfl⟩ | ⟨_, hkey, -⟩ | hpart := section_cases (.text "components") v
    · obtain ⟨families', hfamilies, rfl⟩ := map_eq_ok.mp hrewrite
      exact schemas_rewriteComponents hfamilies
    · exact absurd hkey (by decide)
    · rw [rewriteSection_of_part hpart] at hrewrite
      obtain ⟨hv, hv'⟩ := entries_of_rewritePart hrewrite (hpart (.inl rfl))
      rw [hv, hv']
      exact (rewriteNamed_eq_map []).symm

/-- **The named schemas of a document in canonical form are in normal form.** -/
theorem namedSchemas_of_runPasses {data data' : Entries} (h : runPasses data = .ok data') :
    namedSchemas data' = (namedSchemas data).map fun e => (e.1, normalizeSchema e.2) := by
  obtain ⟨expanded, folded, hexpanded, hfolded, hnarrowed⟩ := runPasses_eq_ok h
  rw [namedSchemas_rewriteDocument hnarrowed, namedSchemas_rewriteDocument hfolded,
    namedSchemas_rewriteDocument hexpanded, List.map_map, List.map_map]
  rfl

/-! ### Without flags -/

/-- The entries of a schema in normal form, its nullable flags left out. -/
def unflagged (schema : Entries) : Entries := (normalizeSchema (.mapping (withoutFlags schema))).entries

/-- A flag of the schema is true, and it does not declare null as it is. -/
def FoldsNull (schema : Entries) : Prop := isFlagged schema = true ∧ Entries.get schema "type" ≠ .text "null"

/-- Folding a constant touches the constant, the enumeration and the type. -/
theorem exists_foldConst (schema : Entries) : ∃ folded, foldConst (.mapping schema) = .mapping folded ∧
    ∀ key ∉ ["const", "enum", "type"], Entries.get? folded key = Entries.get? schema key := by
  cases hconst : Entries.get? schema "const" with
  | none => exact ⟨schema, by simp only [foldConst, hconst], fun _ _ => rfl⟩
  | some constant =>
    refine ⟨_, by simp only [foldConst, hconst]; rfl, fun key hkey => ?_⟩
    simp only [List.mem_cons, List.not_mem_nil, or_false, not_or] at hkey
    have herase : Entries.get? (Entries.erase schema "const") key = Entries.get? schema key :=
      Entries.get?_erase_of_ne (Ne.symm hkey.1)
    rw [Entries.get?_putNew_of_ne (Ne.symm hkey.2.2)]
    split
    · split
      · rw [Entries.get?_put_of_ne (Ne.symm hkey.2.1), herase]
      · exact herase
    · rw [Entries.get?_put_of_ne (Ne.symm hkey.2.1), herase]

variable {schema : Entries}

theorem normalizeSchema_withoutFlags_eq (schema : Entries) :
    normalizeSchema (.mapping (withoutFlags schema)) = .mapping (unflagged schema) := by
  rw [unflagged, normalizeSchema_withoutFlags, rewriteSchema]
  obtain ⟨folded, hfolded, -⟩ := exists_foldConst (rewriteKeywords foldConst (withoutFlags (unfolded schema)))
  rw [hfolded]
  rfl

theorem get_bare {key : String} (hkey : key ∉ nullableKeys) (hholds : Holds.ofKey (.text key) = .nothing) :
    Entries.get (withoutFlags (unfolded schema)) key = Entries.get schema key := by
  rw [get_withoutFlags hkey, get_unfolded hholds]

/-- **Where no flag counts, the normal form is what is left without flags.** -/
theorem normalizeSchema_of_not_foldsNull (h : ¬ FoldsNull schema) :
    normalizeSchema (.mapping schema) = .mapping (unflagged schema) := by
  rw [← normalizeSchema_withoutFlags_eq, normalizeSchema_withoutFlags, normalizeSchema_mapping]
  cases hflagged : isFlagged schema with
  | false => rw [if_neg Bool.false_ne_true]
  | true =>
    have htype : Entries.get (withoutFlags (unfolded schema)) "type" = .text "null" := by
      rw [get_bare (by decide) holds_type]
      exact Decidable.byContradiction fun hnull => h ⟨hflagged, hnull⟩
    rw [if_pos rfl, orNull, Schema.get?_of_get (by simp) htype]
    exact congrArg _ (if_pos rfl)

/-- Where a flag counts, the normal form is an alternative to null. -/
theorem normalizeSchema_of_foldsNull (h : FoldsNull schema) : normalizeSchema (.mapping schema) =
    rewriteSchema foldConst (orNull (withoutFlags (unfolded schema))) := by
  rw [normalizeSchema_mapping, if_pos h.1]

theorem get_unflagged {key : String} (hkey : key ∉ nullableKeys) (hholds : Holds.ofKey (.text key) = .nothing)
    (hconst : key ∉ ["const", "enum", "type"]) : Entries.get (unflagged schema) key = Entries.get schema key := by
  obtain ⟨folded, hfolded, hsame⟩ := exists_foldConst (rewriteKeywords foldConst (withoutFlags (unfolded schema)))
  have hunflagged : unflagged schema = folded := by
    rw [unflagged, normalizeSchema_withoutFlags, rewriteSchema, hfolded]
    rfl
  rw [hunflagged, Entries.get_congr (hsame key hconst), get_rewriteKeywords hholds, get_bare hkey hholds]

end ContractSync.Contract

namespace ContractSync.Schema

open ContractSync.Contract
open ContractSync.Document

variable {schema : Entries}

/-- What a schema refers to stays the same in its normal form. -/
theorem isReference_unflagged (h : IsReference (unflagged schema)) : IsReference schema := by
  have hkeys : ∀ key ∈ ["$ref", "$dynamicRef"], key ∉ nullableKeys ∧ Holds.ofKey (.text key) = .nothing ∧
      key ∉ ["const", "enum", "type"] := by decide
  refine h.congr fun key hkey => ?_
  obtain ⟨hflag, hholds, hconst⟩ := hkeys key hkey
  exact get_unflagged hflag hholds hconst

/-- Where a flag counts, the normal form has a list of types, or nothing but alternatives. -/
theorem exists_of_foldsNull (h : FoldsNull schema) : ∃ folded, normalizeSchema (.mapping schema) = .mapping folded ∧
    ((∃ items, Entries.get folded "type" = .list items) ∨ ∃ alternatives, folded = [(.text "anyOf", alternatives)]) := by
  have hnull : Entries.get (withoutFlags (unfolded schema)) "type" ≠ .text "null" := by
    rw [get_bare (by decide) holds_type]
    exact h.2
  rw [normalizeSchema_of_foldsNull h]
  generalize withoutFlags (unfolded schema) = bare at hnull ⊢
  cases hdeclares : declaresType bare with
  | false =>
    rw [orNull_of_undeclared hdeclares]
    exact ⟨_, rfl, .inr ⟨_, rfl⟩⟩
  | true =>
    obtain ⟨folded, hfolded, hsame, hreplace⟩ := rewriteSchema_foldConst_replace (has_type_of_declaresType hdeclares)
    have hhas : Entries.has folded "type" = true := by
      rw [Entries.has, hsame "type" (by decide), ← Entries.has, has_type_of_declaresType hdeclares]
    have hwritten : ∀ items, ∃ folded, rewriteSchema foldConst (.mapping (Entries.replace bare "type" (.list items))) =
        .mapping folded ∧ ((∃ items, Entries.get folded "type" = .list items) ∨
          ∃ alternatives, folded = [(.text "anyOf", alternatives)]) := fun items =>
      ⟨_, hreplace _, .inl ⟨items, Entries.get_of_get? (Entries.get?_replace_self hhas)⟩⟩
    -- A single type becomes a list with null, and a list gets null unless it has it.
    rw [declaresType] at hdeclares
    split at hdeclares
    · rename_i declared hget
      rw [orNull_of_text hget (by rintro rfl; exact hnull hget)]
      exact hwritten _
    · rename_i items hget
      cases hcontains : items.contains (.text "null") with
      | false =>
        rw [orNull_of_list hget hcontains]
        exact hwritten _
      | true =>
        rw [orNull_of_contains hget hcontains]
        exact ⟨folded, hfolded, .inl ⟨items, by rw [Entries.get_congr (hsame "type" (by decide)), hget]⟩⟩
    · cases hdeclares

/-- Where a flag counts, the type is that of something or nothing. -/
theorem resolve_of_foldsNull {doc : Canonical} {budget : Nat} {type : DataType} (h : FoldsNull schema)
    (hreference : ¬ IsReference schema)
    (htype : (resolve doc (budget + 1) (normalizeSchema (.mapping schema))).Yields type) :
    ∃ found : DataType, type = found.orNothing := by
  have hkeys : ∀ key ∈ ["$ref", "$dynamicRef"], key ∉ nullableKeys ∧ Holds.ofKey (.text key) = .nothing := by decide
  have hbare : ¬ IsReference (withoutFlags (unfolded schema)) := fun hbare =>
    hreference (hbare.congr fun key hkey => get_bare (hkeys key hkey).1 (hkeys key hkey).2)
  rw [normalizeSchema_of_foldsNull h,
    resolve_foldConst_orNull (fun _ => hbare) (by rw [get_bare (by decide) holds_type]; exact h.2)] at htype
  obtain ⟨found, -, hfound⟩ := htype.map
  exact ⟨found, hfound⟩

end ContractSync.Schema

namespace ContractSync.Model

open ContractSync.Contract
open ContractSync.Document
open ContractSync.Schema (DataType VariantLabel IsReference isNullSchema concreteTypes)
open Resolving (Gives Returns)

variable {doc : Canonical} {name : String} {schema : Entries}

/-! ### Literals -/

theorem rename_variantsOf (names : Name.Table) (literals : List String) :
    (variantsOf names literals).map (·.rename) = literals.map some := by
  induction literals generalizing names with
  | nil => rfl
  | cons literal rest ih => rw [variantsOf, List.map_cons, List.map_cons, ih]

theorem literalsOf_of_texts {literals : List String} (hvalues : Entries.get schema "enum" = .list (literals.map .text))
    (htype : Entries.get schema "type" = .text "string") : literalsOf schema = literals := by
  have hall : (literals.map Value.text).all (·.text?.isSome) = true := by simp [Value.text?]
  have hfilter : (literals.map Value.text).filterMap Value.text? = literals := by
    rw [List.filterMap_map]
    exact List.filterMap_some
  unfold literalsOf
  rw [hvalues, htype]
  show (if ((Value.text "string").isNull || Value.text "string" == .text "string") &&
    (literals.map Value.text).all (·.text?.isSome) then (literals.map Value.text).filterMap Value.text? else []) = _
  rw [hall, hfilter]
  rfl

/-- Literals are listed by a schema that declares a string, or no type, and lists nothing else. -/
theorem of_literalsOf_ne_nil (h : literalsOf schema ≠ []) :
    (Entries.get schema "type" = .null ∨ Entries.get schema "type" = .text "string") ∧
      ∀ values, Entries.get schema "enum" = .list values → ∀ v ∈ values, v.text?.isSome = true := by
  unfold literalsOf at h
  simp only at h
  split at h
  · rename_i hboth
    rw [Bool.and_eq_true, Bool.or_eq_true, List.all_eq_true] at hboth
    refine ⟨hboth.1.imp (fun hnull => ?_) beq_iff_eq.mp, fun values hvalues v hv => hboth.2 v (by rw [hvalues]; exact hv)⟩
    unfold Value.isNull at hnull
    split at hnull
    · assumption
    · cases hnull
  · exact absurd rfl h

theorem literalsOf_of_list {items : List Value} (h : Entries.get schema "type" = .list items) : literalsOf schema = [] := by
  by_contra hne
  obtain hnull | htext := (of_literalsOf_ne_nil hne).1
  · cases h.symm.trans hnull
  · cases h.symm.trans htext

/-- The shape without literals: a union if that is the type of the schema, else a record or another name. -/
theorem shapeOf_cases {shape : Shape} (h : (shapeOf doc name schema).Yields shape) :
    (∃ variants discriminator, shape = .union variants discriminator ∧
      (Schema.resolve doc Schema.defaultBudget (.mapping schema)).Yields (.union variants discriminator)) ∨
    (∃ fields, shape = .record fields) ∨ ∃ type, shape = .alias type := by
  unfold shapeOf at h
  obtain ⟨type, htype, h⟩ := h.bind
  split at h
  · exact .inl ⟨_, _, h.pure, htype⟩
  · split at h
    · obtain ⟨properties, -, h⟩ := h.bind
      obtain ⟨fields, -, h⟩ := h.bind
      exact .inr (.inl ⟨_, h.pure⟩)
    · exact .inr (.inr ⟨_, h.pure⟩)

theorem shapeOf_ne_literals {variants : List VariantLabel} : ¬ (shapeOf doc name schema).Yields (.literals variants) := by
  intro h
  obtain ⟨_, _, hshape, -⟩ | ⟨_, hshape⟩ | ⟨_, hshape⟩ := shapeOf_cases h <;> cases hshape

theorem resolve_of_shapeOf_union {variants : List (VariantLabel × DataType)} {discriminator : Option String}
    (h : (shapeOf doc name schema).Yields (.union variants discriminator)) :
    (Schema.resolve doc Schema.defaultBudget (.mapping schema)).Yields (.union variants discriminator) := by
  obtain ⟨_, _, hshape, htype⟩ | ⟨_, hshape⟩ | ⟨_, hshape⟩ := shapeOf_cases h <;> cases hshape
  exact htype

theorem shapeOf_returns_union {variants : List (VariantLabel × DataType)} {discriminator : Option String}
    (h : Returns (Schema.resolve doc Schema.defaultBudget (.mapping schema)) (.union variants discriminator)) :
    Returns (shapeOf doc name schema) (.union variants discriminator) := by
  unfold shapeOf
  exact h.bind (.pure _)

/-! ### Where a flag counts -/

/-- A schema with a flag lists no literals. -/
theorem literalsOf_of_foldsNull (h : FoldsNull schema) :
    ∃ folded, normalizeSchema (.mapping schema) = .mapping folded ∧ literalsOf folded = [] := by
  obtain ⟨folded, hfolded, ⟨items, hitems⟩ | ⟨alternatives, rfl⟩⟩ := Schema.exists_of_foldsNull h
  · exact ⟨folded, hfolded, literalsOf_of_list hitems⟩
  · exact ⟨_, hfolded, rfl⟩

/-! ### Enumerations -/

theorem literalsOf_ne_nil_of_yields {model : Model} {variants : List VariantLabel}
    (h : (ofSchema doc (.text name) (.mapping schema)).Yields model) (hshape : model.shape = .literals variants) :
    literalsOf schema ≠ [] := by
  intro hnone
  rw [ofSchema_mapping, if_pos hnone] at h
  obtain ⟨shape, hyields, rfl⟩ := h.map
  obtain rfl : shape = .literals variants := hshape
  exact shapeOf_ne_literals hyields

/-- The model has one variant for each literal, in order. -/
def IsEnumerationOf (literals : List String) (model : Model) : Prop :=
  ∃ variants, model.shape = .literals variants ∧ variants.map (·.rename) = literals.map some

/-- **A list of strings becomes an enumeration exactly if no flag counts, the type is a string alone and null is
not listed.** -/
theorem isEnumerationOf_iff {values : List Value} {literals : List String}
    (hvalues : Entries.get (unflagged schema) "enum" = .list values)
    (hliterals : values.filter (· ≠ .null) = literals.map .text) (hne : literals ≠ [])
    (htype : Entries.get (unflagged schema) "type" = .text "string" ∨
      ∃ items, Entries.get (unflagged schema) "type" = .list items ∧ concreteTypes items = [.text "string"]) :
    (∃ model, Returns (ofSchema doc (.text name) (normalizeSchema (.mapping schema))) model ∧
      IsEnumerationOf literals model) ↔
        ¬ FoldsNull schema ∧ Entries.get (unflagged schema) "type" = .text "string" ∧ Value.null ∉ values := by
  constructor
  · rintro ⟨model, hmodel, variants, hshape, -⟩
    have hfolds : ¬ FoldsNull schema := by
      intro hfolds
      obtain ⟨folded, hfolded, hnone⟩ := literalsOf_of_foldsNull hfolds
      rw [hfolded] at hmodel
      exact literalsOf_ne_nil_of_yields hmodel.yields hshape hnone
    rw [normalizeSchema_of_not_foldsNull hfolds] at hmodel
    have hlisted := literalsOf_ne_nil_of_yields hmodel.yields hshape
    refine ⟨hfolds, htype.resolve_right ?_, fun hnull => ?_⟩
    · rintro ⟨items, hitems, -⟩
      exact hlisted (literalsOf_of_list hitems)
    · exact absurd ((of_literalsOf_ne_nil hlisted).2 values hvalues _ hnull) Bool.false_ne_true
  · rintro ⟨hfolds, hstring, hnull⟩
    have hall : values.filter (· ≠ .null) = values :=
      List.filter_eq_self.mpr fun v hv => decide_eq_true fun heq => hnull (heq ▸ hv)
    rw [← hall, hliterals] at hvalues
    rw [normalizeSchema_of_not_foldsNull hfolds, ofSchema_mapping, literalsOf_of_texts hvalues hstring, if_neg hne]
    exact ⟨_, Returns.map (.pure _), _, rfl, rename_variantsOf {} literals⟩

/-! ### Unions -/

/-- The alternatives of a schema, those of `oneOf` before others. -/
def alternativesOf (schema : Entries) : Option (List Value) :=
  (Schema.items? schema "oneOf").orElse fun _ => Schema.items? schema "anyOf"

/-- The alternatives that are not null. -/
def concreteOf (alternatives : List Value) : List Value := alternatives.filter (!isNullSchema ·)

section Form

variable {alternatives : List Value}

theorem lacks_null_iff : decide ((concreteOf alternatives).length < alternatives.length) = false ↔
    ∀ v ∈ alternatives, isNullSchema v = false := by
  have hle : (concreteOf alternatives).length ≤ alternatives.length := List.length_filter_le _ _
  have heq : (concreteOf alternatives).length = alternatives.length ↔ ∀ v ∈ alternatives, isNullSchema v = false := by
    rw [concreteOf, List.length_filter_eq_length_iff]
    simp
  rw [decide_eq_false_iff_not, ← heq]
  omega

theorem ofKeywords_of_alternatives (halternatives : alternativesOf schema = some alternatives)
    (htwo : 2 ≤ (concreteOf alternatives).length) (declared : Value) : ∃ first others,
      concreteOf alternatives = first :: others ∧ Schema.Form.ofKeywords schema declared =
        (.union first others (Entries.get schema "discriminator"),
          decide ((concreteOf alternatives).length < alternatives.length)) := by
  have hof : Schema.Form.ofKeywords schema declared = Schema.Form.ofAlternatives schema alternatives := by
    unfold alternativesOf at halternatives
    rw [Schema.Form.ofKeywords, halternatives]
  match hconcrete : concreteOf alternatives with
  | [] | [_] => simp [hconcrete] at htwo
  | first :: second :: rest =>
    refine ⟨first, second :: rest, rfl, ?_⟩
    unfold concreteOf at hconcrete
    rw [hof, Schema.Form.ofAlternatives]
    simp only [hconcrete]

end Form

/-- The model has one variant for each member, in order, with the type of the member. -/
def IsUnionOf (doc : Canonical) (members : List Value) (model : Model) : Prop :=
  ∃ variants discriminator, model.shape = .union variants discriminator ∧
    List.Forall₂ (fun member variant => (Schema.resolve doc (Schema.defaultBudget - 1) member).Yields variant.2)
      members variants

theorem resolve_of_yields_union {model : Model} {variants : List (VariantLabel × DataType)}
    {discriminator : Option String} (h : (ofSchema doc (.text name) (.mapping schema)).Yields model)
    (hshape : model.shape = .union variants discriminator) : literalsOf schema = [] ∧
      (Schema.resolve doc Schema.defaultBudget (.mapping schema)).Yields (.union variants discriminator) := by
  rw [ofSchema_mapping] at h
  obtain ⟨shape, hyields, rfl⟩ := h.map
  obtain rfl : shape = .union variants discriminator := hshape
  split at hyields
  · rename_i hnone
    exact ⟨hnone, resolve_of_shapeOf_union hyields⟩
  · cases hyields.pure

theorem union_ne_orNothing {variants : List (VariantLabel × DataType)} {discriminator : Option String}
    (found : DataType) : .union variants discriminator ≠ found.orNothing := by
  cases found <;> simp [DataType.orNothing]

theorem memberAt_yields_type {mapping : Entries} {position budget : Nat} {member : Value}
    {found : VariantLabel × DataType}
    (h : (Schema.memberAt doc (Schema.resolve doc (budget + 1)) (Schema.resolve doc budget) mapping position
      member).Yields found) : (Schema.resolve doc (budget + 1) member).Yields found.2 := by
  obtain ⟨before, after, h⟩ := h
  obtain ⟨ref, href, htype⟩ | ⟨-, htype⟩ := Schema.memberAt_gives h
  · rw [Schema.resolve_of_reference href]
    exact htype.yields
  · exact htype.yields

section Alternatives

variable {alternatives : List Value} {budget : Nat} {type : DataType}
  (halternatives : alternativesOf schema = some alternatives) (htwo : 2 ≤ (concreteOf alternatives).length)
  (hreference : ¬ IsReference schema)

include halternatives htwo hreference in
/-- Where the type is a union, null is neither declared nor an alternative. -/
theorem lacks_null_of_yields_union {variants : List (VariantLabel × DataType)} {discriminator : Option String}
    (h : (Schema.resolve doc (budget + 1) (.mapping schema)).Yields (.union variants discriminator)) :
    (∃ declared, Schema.Declared.ofValue (Entries.get schema "type") = .one declared false) ∧
      ∀ v ∈ alternatives, isNullSchema v = false := by
  rw [Schema.resolve_succ, Schema.ofNode_eq_form] at h
  obtain ⟨found, hfound, heq⟩ := h.map
  have hnullable : (Schema.Form.ofValue (.mapping schema)).2 = false := by
    by_contra hnullable
    rw [Bool.not_eq_false] at hnullable
    rw [hnullable] at heq
    exact union_ne_orNothing found heq
  rw [hnullable] at heq
  obtain rfl : .union variants discriminator = found := heq
  rw [Schema.Form.ofValue_mapping hreference] at hfound hnullable
  cases hdeclared : Schema.Declared.ofValue (Entries.get schema "type") with
  | several nullable =>
    rw [hdeclared] at hfound
    cases hfound.pure
  | one declared nullable =>
    obtain ⟨first, others, -, hkeywords⟩ := ofKeywords_of_alternatives halternatives htwo declared
    rw [hdeclared] at hnullable
    simp only [hkeywords, Bool.or_eq_false_iff] at hnullable
    obtain ⟨hnull, rfl⟩ := hnullable
    exact ⟨⟨declared, rfl⟩, lacks_null_iff.mp hnull⟩

include halternatives htwo hreference in
/-- Where null is neither declared nor an alternative, there is one variant for each alternative. -/
theorem forall₂_of_lacks_null {declared : Value}
    (hdeclared : Schema.Declared.ofValue (Entries.get schema "type") = .one declared false)
    (hnull : ∀ v ∈ alternatives, isNullSchema v = false)
    (h : (Schema.resolve doc (budget + 1 + 1) (.mapping schema)).Yields type) :
    ∃ variants discriminator, type = .union variants discriminator ∧
      List.Forall₂ (fun member variant => (Schema.resolve doc (budget + 1) member).Yields variant.2)
        (concreteOf alternatives) variants := by
  obtain ⟨first, others, hconcrete, hkeywords⟩ := ofKeywords_of_alternatives halternatives htwo declared
  rw [Schema.resolve_succ, Schema.ofNode_eq_form, Schema.Form.ofValue_mapping hreference, hdeclared] at h
  simp only [hkeywords, lacks_null_iff.mpr hnull, Bool.or_false] at h
  obtain ⟨found, hfound, rfl⟩ := h.map
  rw [Schema.Form.resolve_union] at hfound
  obtain ⟨variants, hvariants, rfl⟩ := hfound.map
  rw [hconcrete]
  exact ⟨variants, _, rfl, Schema.members_forall₂ hvariants fun _ _ _ _ hfound => memberAt_yields_type hfound⟩

end Alternatives

/-- **Alternatives become a union exactly if no flag counts, there are no literals, one type is declared at most
and null is no alternative**, and the schema can be resolved. -/
theorem isUnionOf_iff {alternatives : List Value} (halternatives : alternativesOf (unflagged schema) = some alternatives)
    (htwo : 2 ≤ (concreteOf alternatives).length) (hreference : ¬ IsReference schema) :
    (∃ model, Returns (ofSchema doc (.text name) (normalizeSchema (.mapping schema))) model ∧
      IsUnionOf doc (concreteOf alternatives) model) ↔
        ¬ FoldsNull schema ∧ literalsOf (unflagged schema) = [] ∧
          (∃ declared, Schema.Declared.ofValue (Entries.get (unflagged schema) "type") = .one declared false) ∧
          (∀ v ∈ alternatives, isNullSchema v = false) ∧
          Schema.IsReadable doc Schema.defaultBudget (.mapping (unflagged schema)) := by
  have hunflagged := mt Schema.isReference_unflagged hreference
  constructor
  · rintro ⟨model, hmodel, variants, discriminator, hshape, -⟩
    have hfolds : ¬ FoldsNull schema := by
      intro hfolds
      -- A flag that counts leaves an optional type or nothing, and neither is a union.
      obtain ⟨folded, hfolded, -⟩ := Schema.exists_of_foldsNull hfolds
      have hyields := (resolve_of_yields_union (hfolded ▸ hmodel.yields) hshape).2
      rw [← hfolded] at hyields
      obtain ⟨found, heq⟩ := Schema.resolve_of_foldsNull hfolds hreference hyields
      exact union_ne_orNothing found heq
    rw [normalizeSchema_of_not_foldsNull hfolds] at hmodel
    obtain ⟨hnone, hyields⟩ := resolve_of_yields_union hmodel.yields hshape
    obtain ⟨hdeclared, hnull⟩ := lacks_null_of_yields_union halternatives htwo hunflagged hyields
    exact ⟨hfolds, hnone, hdeclared, hnull, Schema.isReadable_of_yields hyields⟩
  · rintro ⟨hfolds, hnone, ⟨declared, hdeclared⟩, hnull, hreadable⟩
    obtain ⟨type, htype⟩ := Schema.exists_returns_of_isReadable hreadable
    obtain ⟨variants, discriminator, rfl, hall⟩ :=
      forall₂_of_lacks_null halternatives htwo hunflagged hdeclared hnull htype.yields
    rw [normalizeSchema_of_not_foldsNull hfolds, ofSchema_mapping, if_pos hnone]
    exact ⟨_, (shapeOf_returns_union htype).map, variants, discriminator, rfl, hall⟩

/-! ### Enumerations and unions -/

/-- **Which named schemas become enumerations.** The named schemas of a canonical document are in normal form. A
list of strings has one variant for each literal exactly if no flag counts, the type is a string alone and null is
not listed; alternatives have one variant each exactly if no flag counts, no literals are listed, null is neither
declared nor an alternative, and they can be resolved. -/
theorem becomesEnum_iff (doc : Canonical) :
    (∀ data, runPasses data = .ok doc.data →
      doc.schemas = (namedSchemas data).map fun e => (e.1, normalizeSchema e.2)) ∧
    ∀ (name : String) (schema : Entries),
      (∀ values literals, Entries.get (unflagged schema) "enum" = .list values →
        values.filter (· ≠ .null) = literals.map .text → literals ≠ [] →
        (Entries.get (unflagged schema) "type" = .text "string" ∨
          ∃ items, Entries.get (unflagged schema) "type" = .list items ∧ concreteTypes items = [.text "string"]) →
        ((∃ model, Returns (ofSchema doc (.text name) (normalizeSchema (.mapping schema))) model ∧
          IsEnumerationOf literals model) ↔
            ¬ FoldsNull schema ∧ Entries.get (unflagged schema) "type" = .text "string" ∧ Value.null ∉ values)) ∧
      ∀ alternatives, alternativesOf (unflagged schema) = some alternatives → 2 ≤ (concreteOf alternatives).length →
        ¬ IsReference schema →
        ((∃ model, Returns (ofSchema doc (.text name) (normalizeSchema (.mapping schema))) model ∧
          IsUnionOf doc (concreteOf alternatives) model) ↔
            ¬ FoldsNull schema ∧ literalsOf (unflagged schema) = [] ∧
              (∃ declared, Schema.Declared.ofValue (Entries.get (unflagged schema) "type") = .one declared false) ∧
              (∀ v ∈ alternatives, isNullSchema v = false) ∧
              Schema.IsReadable doc Schema.defaultBudget (.mapping (unflagged schema))) :=
  ⟨fun _ => namedSchemas_of_runPasses, fun _ _ => ⟨fun _ _ => isEnumerationOf_iff, fun _ => isUnionOf_iff⟩⟩

/-- Two sizes. -/
def sizeSchema : Entries := [(.text "type", .text "string"), (.text "enum", .list [.text "small", .text "large"])]

/-- A string or a number. -/
def idSchema : Entries :=
  [(.text "oneOf", .list [.object [("type", .text "string")], .object [("type", .text "integer")]])]

/-- Both have two variants. -/
theorem becomesEnum_iff_sizes :
    (∃ model, Returns (ofSchema Schema.bareContract (.text "Size") (normalizeSchema (.mapping sizeSchema))) model ∧
      IsEnumerationOf ["small", "large"] model) ∧
    ∃ model, Returns (ofSchema Schema.bareContract (.text "Id") (normalizeSchema (.mapping idSchema))) model ∧
      IsUnionOf Schema.bareContract [.object [("type", .text "string")], .object [("type", .text "integer")]] model := by
  obtain ⟨-, hall⟩ := becomesEnum_iff Schema.bareContract
  refine ⟨((hall "Size" sizeSchema).1 [.text "small", .text "large"] ["small", "large"] rfl (by decide) (by decide)
    (.inl rfl)).mpr ⟨fun h => absurd h.1 (by decide), rfl, by decide⟩, ?_⟩
  have hok : (Schema.resolve Schema.bareContract 8 (.mapping (unflagged idSchema))).collect.1.toOption.isSome = true := by
    decide
  obtain ⟨type, htype⟩ := Option.isSome_iff_exists.mp hok
  have hreference : ¬ IsReference idSchema := by
    rintro ⟨key, hkey, ref, hget⟩
    simp only [List.mem_cons, List.not_mem_nil, or_false] at hkey
    rcases hkey with rfl | rfl <;> cases hget
  exact ((hall "Id" idSchema).2 _ rfl (by decide) hreference).mpr ⟨fun h => absurd h.1 (by decide), rfl, ⟨_, rfl⟩,
    by decide, Schema.isReadable_of_yields (Resolving.yields_of_collect (eq_ok_of_toOption htype))⟩

/-- The shape is another name for an optional type. -/
def Shape.isOptionalAlias : Shape → Bool
  | .alias (.optional _) => true
  | _ => false

/-- The sizes with a flag, and the numbers with null as a third alternative. -/
def nullableSamples : List Value :=
  [.mapping (sizeSchema ++ [(.text "nullable", .bool true)]),
    .object [("oneOf", .list [.object [("type", .text "string")], .object [("type", .text "integer")], nullSchema])]]

/-- Each becomes another name for an optional type. -/
theorem isOptionalAlias_nullableSamples :
    (nullableSamples.map fun v =>
      (ofSchema Schema.bareContract (.text "Sample") (normalizeSchema v)).collect.1.toOption.map
        (·.shape.isOptionalAlias)) = [some true, some true] := by
  decide

end ContractSync.Model
