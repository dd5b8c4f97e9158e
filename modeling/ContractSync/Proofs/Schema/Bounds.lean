import ContractSync.Proofs.Schema.Forms
import Mathlib

/-!
# Resolved types are bounded and well formed

The budget of a resolver bounds how many lists, mappings and unions stand one inside the other in a type,
the types of variants included. An optional type is never that of an optional one, and a union has a variant.
Both hold of whatever one form makes of types that are within the bound (`Form.resolve_isBounded`), so they
hold of all types (`resolve_isBounded`).

A resolver asks for types with less budget, except that a list of types is resolved as the one type in it,
with the same budget: `IsResolver` are these equations. The list gets smaller, so the recursion comes to an
end, and **the equations have one solution, whose types are bounded and well formed** (`resolve_bounded`),
also where references lead back to the schemas they stand in.
-/

namespace ContractSync.Schema

open ContractSync.Contract (Canonical)
open ContractSync.Document

/-! ### Layers -/

namespace DataType

mutual

/-- How many lists, mappings and unions stand one inside the other. -/
def layers : DataType → Nat
  | .array inner | .map inner => inner.layers + 1
  | .union variants _ => layersIn variants + 1
  | .optional inner => inner.layers
  | .scalar _ _ | .reference _ | .dynamic | .unknown _ => 0

/-- The most layers of the type of a variant. -/
def layersIn : List (VariantLabel × DataType) → Nat
  | [] => 0
  | (_, type) :: rest => max type.layers (layersIn rest)

end

mutual

/-- No optional type is that of an optional one, and every union has a variant. That a scalar has a kind, and
that lists, mappings and optional types have a type inside, is in their constructors. -/
def IsWellFormed : DataType → Prop
  | .array inner | .map inner => inner.IsWellFormed
  | .union variants _ => variants ≠ [] ∧ AreWellFormed variants
  | .optional inner => inner.isOptional = false ∧ inner.IsWellFormed
  | .scalar _ _ | .reference _ | .dynamic | .unknown _ => True

/-- The types of all variants are well formed. -/
def AreWellFormed : List (VariantLabel × DataType) → Prop
  | [] => True
  | (_, type) :: rest => type.IsWellFormed ∧ AreWellFormed rest

end

theorem layersIn_le_iff {variants : List (VariantLabel × DataType)} {bound : Nat} :
    layersIn variants ≤ bound ↔ ∀ variant ∈ variants, variant.2.layers ≤ bound := by
  induction variants with
  | nil => simp [layersIn]
  | cons variant rest ih => rw [layersIn, Nat.max_le, ih, List.forall_mem_cons]

theorem areWellFormed_iff {variants : List (VariantLabel × DataType)} :
    AreWellFormed variants ↔ ∀ variant ∈ variants, variant.2.IsWellFormed := by
  induction variants with
  | nil => simp [AreWellFormed]
  | cons variant rest ih => rw [AreWellFormed, ih, List.forall_mem_cons]

/-- The type is well formed, and no more layers than the bound stand in it. -/
structure IsBounded (bound : Nat) (type : DataType) : Prop where
  layers_le : type.layers ≤ bound
  isWellFormed : type.IsWellFormed

section IsBounded

variable {bound : Nat} {type : DataType}

theorem isBounded_dynamic : dynamic.IsBounded bound := ⟨Nat.zero_le _, trivial⟩

theorem isBounded_scalar (kind : ScalarKind) (format : Option String) : (scalar kind format).IsBounded bound :=
  ⟨Nat.zero_le _, trivial⟩

theorem isBounded_reference (name : String) : (reference name).IsBounded bound := ⟨Nat.zero_le _, trivial⟩

theorem isBounded_unknown (ref : String) : (unknown ref).IsBounded bound := ⟨Nat.zero_le _, trivial⟩

theorem IsBounded.mono {more : Nat} (h : type.IsBounded bound) (hle : bound ≤ more) : type.IsBounded more :=
  ⟨Nat.le_trans h.layers_le hle, h.isWellFormed⟩

theorem IsBounded.array (h : type.IsBounded bound) : (array type).IsBounded (bound + 1) :=
  ⟨Nat.succ_le_succ h.layers_le, h.isWellFormed⟩

theorem IsBounded.map (h : type.IsBounded bound) : (map type).IsBounded (bound + 1) :=
  ⟨Nat.succ_le_succ h.layers_le, h.isWellFormed⟩

theorem isBounded_union {variants : List (VariantLabel × DataType)} (discriminator : Option String)
    (hne : variants ≠ []) (h : ∀ variant ∈ variants, variant.2.IsBounded bound) :
    (union variants discriminator).IsBounded (bound + 1) :=
  ⟨Nat.succ_le_succ (layersIn_le_iff.mpr fun variant hvariant => (h variant hvariant).layers_le),
    hne, areWellFormed_iff.mpr fun variant hvariant => (h variant hvariant).isWellFormed⟩

theorem IsBounded.orNothing (h : type.IsBounded bound) : type.orNothing.IsBounded bound := by
  cases type with
  | optional => exact h
  | scalar | array | map | reference | union | dynamic | unknown => exact ⟨h.layers_le, rfl, h.isWellFormed⟩

theorem IsBounded.orNothingIf (h : type.IsBounded bound) (nullable : Bool) :
    (type.orNothingIf nullable).IsBounded bound := by
  cases nullable with
  | true => exact h.orNothing
  | false => exact h

end IsBounded

end DataType

variable {doc : Canonical} {bound : Nat} {type : DataType}

/-! ### The types of forms -/

section Form

variable {within next : Resolver} (hwithin : ∀ v type, (within v).Yields type → type.IsBounded bound)
  (hnext : ∀ v type, (next v).Yields type → type.IsBounded bound)

include hnext in
theorem ofReference_isBounded {ref : String} (h : (ofReference doc next ref).Yields type) : type.IsBounded bound := by
  rw [ofReference_eq] at h
  obtain ⟨target, -, h⟩ := h.bind
  cases target with
  | model component =>
    rw [h.pure]
    exact DataType.isBounded_reference _
  | schema target => exact hnext _ _ h
  | chained =>
    rw [h.pure]
    exact DataType.isBounded_unknown ref
  | missing context =>
    obtain ⟨-, -, h⟩ := h.bind
    rw [h.pure]
    exact DataType.isBounded_unknown ref

theorem ofDynamicReference_isBounded {ref : String} (h : (ofDynamicReference doc ref).Yields type) :
    type.IsBounded bound := by
  unfold ofDynamicReference at h
  obtain ⟨name, -, h⟩ := h.bind
  rw [h.pure]
  split
  · exact DataType.isBounded_reference _
  · exact DataType.isBounded_dynamic

include hwithin hnext in
theorem memberAt_isBounded {mapping : Entries} {position : Nat} {member : Value} {found : VariantLabel × DataType}
    (h : (memberAt doc within next mapping position member).Yields found) : found.2.IsBounded bound := by
  obtain ⟨before, after, h⟩ := h
  obtain ⟨ref, -, htype⟩ | ⟨-, htype⟩ := memberAt_gives h
  · exact ofReference_isBounded hnext htype.yields
  · exact hwithin _ _ htype.yields

include hwithin hnext in
/-- **A form adds one layer at most**, and keeps types well formed. -/
theorem Form.resolve_isBounded {form : Form} (h : (form.resolve doc within next).Yields type) :
    type.IsBounded (bound + 1) := by
  have hle : bound ≤ bound + 1 := Nat.le_succ bound
  cases form with
  | any =>
    rw [h.pure]
    exact DataType.isBounded_dynamic
  | scalar kind format =>
    rw [h.pure]
    exact DataType.isBounded_scalar kind format
  | array items =>
    obtain ⟨inner, hinner, h⟩ := h.bind
    rw [h.pure]
    cases items with
    | none =>
      rw [hinner.pure]
      exact DataType.isBounded_dynamic.array
    | some items => exact (hwithin _ _ hinner).array
  | map values =>
    obtain ⟨inner, hinner, h⟩ := h.bind
    rw [h.pure]
    cases values with
    | none =>
      rw [hinner.pure]
      exact DataType.isBounded_dynamic.map
    | some values => exact (hwithin _ _ hinner).map
  | inner schema => exact (hwithin _ _ h).mono hle
  | union first others discriminator =>
    obtain ⟨variants, hvariants, h⟩ := h.bind
    rw [h.pure]
    have hall := members_forall₂ hvariants (R := fun _ type => type.IsBounded bound) fun _ _ _ _ hfound =>
      memberAt_isBounded hwithin hnext hfound
    refine DataType.isBounded_union _ (by rintro rfl; cases hall) fun variant hvariant => ?_
    obtain ⟨_, -, hbounded⟩ := Resolving.exists_left_of_forall₂ hall.flip variant hvariant
    exact hbounded
  | reference ref => exact (ofReference_isBounded hwithin h).mono hle
  | dynamicReference ref =>
    have hbounded : type.IsBounded bound := ofDynamicReference_isBounded h
    exact hbounded.mono hle

end Form

/-- **No type has more layers than the budget**, and all types are well formed. -/
theorem resolve_isBounded {budget : Nat} {v : Value} (h : (resolve doc budget v).Yields type) :
    type.IsBounded budget := by
  induction budget using Nat.strongRecOn generalizing v type with
  | ind budget ih =>
    cases budget with
    | zero =>
      rw [resolve] at h
      rw [h.pure]
      exact DataType.isBounded_dynamic
    | succ budget =>
      rw [resolve_succ, ofNode_eq_form] at h
      obtain ⟨found, hfound, rfl⟩ := h.map
      have hwithin : ∀ v type, (resolve doc budget v).Yields type → type.IsBounded budget :=
        fun v type h => ih budget (Nat.lt_succ_self budget) h
      have hnext : ∀ v type, (resolve doc (budget - 1) v).Yields type → type.IsBounded budget :=
        fun v type h => (ih (budget - 1) (by omega) h).mono (Nat.sub_le budget 1)
      exact (Form.resolve_isBounded hwithin hnext hfound).orNothingIf _

/-! ### The recursion of a resolver -/

/-- The schema lists its types. -/
def ListsTypes (v : Value) : Prop :=
  ∃ schema items, v = .mapping schema ∧ ¬ IsReference schema ∧ Entries.get schema "type" = .list items

/-- The types that a list declares besides null. -/
def concreteTypes (items : List Value) : List Value := items.filter (· ≠ .text "null")

/-- The equations of a resolver. A list of types comes down to the one type in it that is not null, with the
same budget; all other schemas are resolved by types with less budget. -/
structure IsResolver (doc : Canonical) (r : Nat → Resolver) : Prop where
  spent (v : Value) : r 0 v = return .dynamic
  listed {schema : Entries} {items : List Value} (budget : Nat) (hreference : ¬ IsReference schema)
    (htype : Entries.get schema "type" = .list items) : r (budget + 1) (.mapping schema) =
      (·.orNothingIf (items.contains (.text "null"))) <$>
        match concreteTypes items with
        | [only] => r (budget + 1) (.mapping (Entries.replace schema "type" only))
        | _ => return .dynamic
  other {v : Value} (budget : Nat) (h : ¬ ListsTypes v) : r (budget + 1) v = ofNode doc (r budget) (r (budget - 1)) v

theorem ofItems_eq (items : List Value) : Declared.ofItems items =
    ((concreteTypes items).length, (concreteTypes items).head?.elim (.several false) Declared.ofValue) := by
  induction items with
  | nil => rfl
  | cons v rest ih =>
    rw [Declared.ofItems, ih]
    by_cases hv : v = .text "null"
    · rw [concreteTypes, concreteTypes, List.filter_cons_of_neg (by simpa using hv)]
      exact if_pos hv
    · rw [concreteTypes, concreteTypes, List.filter_cons_of_pos (by simpa using hv)]
      exact if_neg hv

/-- One type in a list counts as if it were declared alone. -/
theorem ofValue_list_of_one {items : List Value} {only : Value} (h : concreteTypes items = [only]) :
    Declared.ofValue (.list items) = (Declared.ofValue only).allowNull (items.contains (.text "null")) := by
  rw [Declared.ofValue, ofItems_eq, h]
  rfl

theorem ofValue_list_of_not_one {items : List Value} (h : ∀ only, concreteTypes items ≠ [only]) :
    Declared.ofValue (.list items) = .several (items.contains (.text "null")) := by
  rw [Declared.ofValue, ofItems_eq]
  split
  · rename_i heq
    rw [Prod.mk.injEq, List.length_eq_one_iff] at heq
    exact absurd heq.1.choose_spec (h _)
  · rfl

theorem has_type_of_get {schema : Entries} {items : List Value} (h : Entries.get schema "type" = .list items) :
    Entries.has schema "type" = true :=
  has_type_of_declaresType (by rw [declaresType, h])

/-- **The equations hold of the resolver.** -/
theorem isResolver_resolve (doc : Canonical) : IsResolver doc (resolve doc) where
  spent _ := rfl
  other budget _ := by rw [resolve_succ]
  listed {schema items} budget hreference htype := by
    have hkeys : ∀ key ∈ ["$ref", "$dynamicRef"], "type" ≠ key := by decide
    have hreplaced : ∀ only, ¬ IsReference (Entries.replace schema "type" only) := fun only h =>
      hreference (h.congr fun key hkey => get_replace_type (hkeys key hkey))
    rw [resolve_succ]
    match hconcrete : concreteTypes items with
    | [only] =>
      show _ = (·.orNothingIf (items.contains (.text "null"))) <$>
        ofNode doc (resolve doc budget) (resolve doc (budget - 1)) (.mapping (Entries.replace schema "type" only))
      rw [ofNode_mapping hreference, htype, ofNode_mapping (hreplaced only),
        Entries.get_of_get? (Entries.get?_replace_self (has_type_of_get htype)), ofValue_list_of_one hconcrete]
      cases Declared.ofValue only with
      | one declared nullable =>
        simp only [Declared.allowNull, ofKeywords_replace_type, bind_pure_comp, Functor.map_map,
          orNothingIf_orNothingIf]
      | several nullable =>
        simp only [Declared.allowNull, map_pure, orNothingIf_orNothingIf]
    | [] | _ :: _ :: _ =>
      rw [ofNode_mapping hreference, htype, ofValue_list_of_not_one (by simp [hconcrete])]
      rfl

section Unique

variable {r s : Nat → Resolver} (hr : IsResolver doc r) (hs : IsResolver doc s)

include hr hs in
/-- Within one budget a list of types gets smaller. -/
theorem IsResolver.eq_mapping {budget : Nat} (hwithin : r budget = s budget) (hnext : r (budget - 1) = s (budget - 1))
    (schema : Entries) : r (budget + 1) (.mapping schema) = s (budget + 1) (.mapping schema) := by
  induction hsize : sizeOf (Entries.get schema "type") using Nat.strongRecOn generalizing schema with
  | ind n ih =>
    by_cases hlisted : ListsTypes (.mapping schema)
    · obtain ⟨_, items, heq, hreference, htype⟩ := hlisted
      cases heq
      rw [hr.listed budget hreference htype, hs.listed budget hreference htype]
      split
      · rename_i only hone
        have hmem : only ∈ items := List.mem_of_mem_filter (hone ▸ List.mem_singleton_self only)
        have hless : sizeOf only < n := by
          have := List.sizeOf_lt_of_mem hmem
          rw [← hsize, htype, Value.list.sizeOf_spec]
          omega
        rw [ih _ hless _ (by rw [Entries.get_of_get? (Entries.get?_replace_self (has_type_of_get htype))])]
      · rfl
    · rw [hr.other budget hlisted, hs.other budget hlisted, hwithin, hnext]

include hr hs in
/-- **No other resolver satisfies the equations.** -/
theorem IsResolver.eq : r = s := by
  funext budget
  induction budget using Nat.strongRecOn with
  | ind budget ih =>
    cases budget with
    | zero => exact funext fun v => (hr.spent v).trans (hs.spent v).symm
    | succ budget =>
      have hwithin := ih budget (by omega)
      have hnext := ih (budget - 1) (by omega)
      funext v
      by_cases hlisted : ListsTypes v
      · obtain ⟨schema, _, rfl, -⟩ := hlisted
        exact hr.eq_mapping hs hwithin hnext schema
      · rw [hr.other budget hlisted, hs.other budget hlisted, hwithin, hnext]

end Unique

/-- **Resolving comes to an end, with bounded and well-formed types.** The equations of the recursion have
exactly one solution, and a type that it yields within a budget has no more layers than that. -/
theorem resolve_bounded (doc : Canonical) : (∀ r, IsResolver doc r ↔ r = resolve doc) ∧
    ∀ (budget : Nat) (v : Value) (type : DataType), (resolve doc budget v).Yields type →
      type.layers ≤ budget ∧ type.IsWellFormed := by
  refine ⟨fun r => ⟨fun h => h.eq (isResolver_resolve doc), ?_⟩, fun budget v type h => ?_⟩
  · rintro rfl
    exact isResolver_resolve doc
  · exact ⟨(resolve_isBounded h).layers_le, (resolve_isBounded h).isWellFormed⟩

/-- A list whose items are such lists. -/
def circularContract : Canonical :=
  ⟨[(.text "x-list", .object [("type", .text "array"), ("items", .object [("$ref", .text "#/x-list")])])],
    .openApi "3.1.0", none⟩

/-- With a budget of five the circle is followed twice. -/
theorem resolve_bounded_circularContract :
    (resolve circularContract 5 (.object [("$ref", .text "#/x-list")])).collect.1 = .ok (.array (.array .dynamic)) ∧
      (DataType.array (.array .dynamic)).layers ≤ 5 ∧ (DataType.array (.array .dynamic)).IsWellFormed := by
  have htype : (resolve circularContract 5 (.object [("$ref", .text "#/x-list")])).collect.1 =
      .ok (.array (.array .dynamic)) := by cbv
  exact ⟨htype, (resolve_bounded circularContract).2 5 _ _ (Resolving.yields_of_collect htype)⟩

end ContractSync.Schema
