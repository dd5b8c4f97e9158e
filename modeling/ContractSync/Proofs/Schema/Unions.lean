import ContractSync.Proofs.Name.Distinct
import ContractSync.Proofs.Outcome
import ContractSync.Proofs.Resolving
import ContractSync.Schema.Resolve
import Mathlib.Data.List.Basic

/-!
# Unions and their discriminators

A union stands for the alternatives of some schema: those of the schema itself, or of the one member
of its `allOf`, or of the place that it refers to (`Alternatives`). **Its variants are the members for
these alternatives, told apart by the discriminator beside them** (`resolve_standFor`), and their names
are what an empty table gives out for the bases of the alternatives (`resolve_union`).

The mapping of a discriminator leads values to schemas, each of which is given as a reference or by its bare
name (`NamesSchema`). A variant that stands for a reference is told from the others by the values that lead to
the name of its target, the first of which is its primary one.

**The values are divided among the variants** (`members_divide`): each variant has the values that lead to its
member and no others, in the order of the mapping, and if no two members refer to one name, every entry of the
mapping that leads to a member counts for exactly one of them.
-/

namespace ContractSync.Schema

open ContractSync.Contract (Canonical)
open ContractSync.Document
open ContractSync.Name (Table)

/-- The name that a member of a union asks for: that of its target, or one that suits its type. -/
def memberBase (position : Nat) (member : Value) (type : DataType) : String :=
  match member.get "$ref" with
  | .scalar (.text ref) => Name.typeName ((Reference.typeName ref).toOption.getD "")
  | _ => (placeholderName type).getD s!"Variant{position}"

/-- The names that members ask for, the first of which stands at `position`. -/
def memberBases (position : Nat) : List Value → List DataType → List String
  | member :: rest, type :: types =>
    memberBase position member type :: memberBases (position + 1) rest types
  | _, _ => []

/-- The schema offers the alternatives, null aside. -/
inductive Alternatives (doc : Canonical) : Value → List Value → Prop where
  | own {schema : Entries} {alternatives : List Value}
      (h : (items? schema "oneOf").orElse (fun _ => items? schema "anyOf") = some alternatives) :
      Alternatives doc (.mapping schema) (alternatives.filter (!isNullSchema ·))
  | onlyMember {schema : Entries} {only : Value} {alternatives : List Value}
      (h : items? schema "allOf" = some [only]) (t : Alternatives doc only alternatives) :
      Alternatives doc (.mapping schema) alternatives
  | target {schema target : Entries} {ref : String} {alternatives : List Value}
      (h : Entries.get schema "$ref" = .text ref)
      (hlocal : doc.resolveReference ref = .ok (some (.mapping target)))
      (t : Alternatives doc (.mapping target) alternatives) :
      Alternatives doc (.mapping schema) alternatives

/-- The schema offers the alternatives, null aside, with what stands under `discriminator` beside them. -/
inductive Offers (doc : Canonical) : Value → List Value → Value → Prop where
  | own {schema : Entries} {alternatives : List Value}
      (h : (items? schema "oneOf").orElse (fun _ => items? schema "anyOf") = some alternatives) :
      Offers doc (.mapping schema) (alternatives.filter (!isNullSchema ·)) (Entries.get schema "discriminator")
  | onlyMember {schema : Entries} {only discriminator : Value} {alternatives : List Value}
      (h : items? schema "allOf" = some [only]) (t : Offers doc only alternatives discriminator) :
      Offers doc (.mapping schema) alternatives discriminator
  | target {schema target : Entries} {ref : String} {discriminator : Value} {alternatives : List Value}
      (h : Entries.get schema "$ref" = .text ref)
      (hlocal : doc.resolveReference ref = .ok (some (.mapping target)))
      (t : Offers doc (.mapping target) alternatives discriminator) :
      Offers doc (.mapping schema) alternatives discriminator

theorem Offers.alternatives {doc : Canonical} {v discriminator : Value} {alternatives : List Value}
    (h : Offers doc v alternatives discriminator) : Alternatives doc v alternatives := by
  induction h with
  | own h => exact .own h
  | onlyMember h _ ih => exact .onlyMember h ih
  | target h hlocal _ ih => exact .target h hlocal ih

/-- The variants are the members for alternatives that the schema offers, `property` that of their
discriminator. -/
def StandFor (doc : Canonical) (v : Value) (variants : List (VariantLabel × DataType))
    (property : Option String) : Prop :=
  ∃ alternatives discriminator resolve next, Offers doc v alternatives discriminator ∧
    property = (discriminator.get "propertyName").text? ∧
    (members doc resolve next (discriminator.get "mapping").entries 0 {} alternatives).Yields variants

/-- The variants are named for alternatives that the schema offers. -/
def NamedForAlternatives (doc : Canonical) (v : Value)
    (variants : List (VariantLabel × DataType)) : Prop :=
  ∃ alternatives, Alternatives doc v alternatives ∧
    variants.map (·.1.name) = Table.claimAll {} (memberBases 0 alternatives (variants.map (·.2)))

variable {doc : Canonical} {resolve next : Resolver}

/-! ### Members -/

theorem referenceMember_name {mapping : Entries} {ref : String} {member : VariantLabel × DataType}
    (h : (referenceMember doc next mapping ref).Yields member) :
    member.1.name = Name.typeName ((Reference.typeName ref).toOption.getD "") := by
  unfold referenceMember at h
  obtain ⟨target, htarget, h⟩ := h.bind
  obtain ⟨type, -, h⟩ := h.bind
  obtain ⟨values, -, h⟩ := h.bind
  rw [h.pure, htarget.lift]
  rfl

theorem inlineMember_name {position : Nat} {member : Value} {found : VariantLabel × DataType}
    (h : (inlineMember resolve position member).Yields found) :
    found.1.name = (placeholderName found.2).getD s!"Variant{position}" := by
  unfold inlineMember at h
  obtain ⟨type, -, h⟩ := h.bind
  rw [h.pure]

theorem memberBase_of_reference {position : Nat} {member : Value} {ref : String}
    (href : member.get "$ref" = .scalar (.text ref)) (type : DataType) :
    memberBase position member type =
      Name.typeName ((Reference.typeName ref).toOption.getD "") := by
  rw [memberBase, href]

theorem memberBase_of_inline {position : Nat} {member : Value}
    (hinline : ∀ ref, member.get "$ref" ≠ .scalar (.text ref)) (type : DataType) :
    memberBase position member type = (placeholderName type).getD s!"Variant{position}" := by
  unfold memberBase
  split
  · rename_i href
    exact absurd href (hinline _)
  · rfl

theorem memberAt_name {mapping : Entries} {position : Nat} {member : Value}
    {found : VariantLabel × DataType}
    (h : (memberAt doc resolve next mapping position member).Yields found) :
    found.1.name = memberBase position member found.2 := by
  by_cases hreference : ∃ ref, member.get "$ref" = .scalar (.text ref)
  · obtain ⟨ref, href⟩ := hreference
    rw [memberAt, href] at h
    rw [memberBase_of_reference href]
    exact referenceMember_name h
  · rw [not_exists] at hreference
    rw [memberBase_of_inline hreference]
    unfold memberAt at h
    split at h
    · rename_i href
      exact absurd href (hreference _)
    · exact inlineMember_name h

theorem members_names {mapping : Entries} {position : Nat} {names : Table}
    {alternatives : List Value} {variants : List (VariantLabel × DataType)}
    (h : (members doc resolve next mapping position names alternatives).Yields variants) :
    variants.map (·.1.name) =
      names.claimAll (memberBases position alternatives (variants.map (·.2))) := by
  induction alternatives generalizing position names variants with
  | nil =>
    rw [members] at h
    rw [h.pure]
    rfl
  | cons member rest ih =>
    rw [members] at h
    obtain ⟨⟨label, type⟩, hmember, h⟩ := h.bind
    obtain ⟨more, hmore, h⟩ := h.bind
    rw [h.pure, List.map_cons, List.map_cons, ih hmore]
    have hname : label.name = memberBase position member type := memberAt_name hmember
    rw [memberBases, ← hname]
    rfl

/-! ### Types that are unions -/

theorem orNothingIf_eq_union {nullable : Bool} {type : DataType}
    {variants : List (VariantLabel × DataType)} {discriminator : Option String}
    (h : .union variants discriminator = type.orNothingIf nullable) :
    type = .union variants discriminator := by
  cases nullable with
  | true =>
    rw [DataType.orNothingIf, if_pos rfl] at h
    cases type <;> cases h
  | false => exact h.symm

theorem ofAlternatives_union {schema : Entries} {alternatives : List Value}
    {variants : List (VariantLabel × DataType)} {property : Option String}
    (h : (ofAlternatives doc resolve next schema alternatives).Yields (.union variants property)) :
    property = ((Entries.get schema "discriminator").get "propertyName").text? ∧
      (members doc resolve next ((Entries.get schema "discriminator").get "mapping").entries 0 {}
        (alternatives.filter (!isNullSchema ·))).Yields variants := by
  unfold ofAlternatives at h
  simp only at h
  split at h
  · cases h.pure
  · obtain ⟨type, -, h⟩ := h.bind
    cases type <;> cases h.pure
  · obtain ⟨found, hfound, h⟩ := h.bind
    cases orNothingIf_eq_union h.pure
    exact ⟨rfl, hfound⟩

theorem ofObject_ne_union {schema : Entries} {variants : List (VariantLabel × DataType)}
    {discriminator : Option String} :
    ¬ (ofObject resolve schema).Yields (.union variants discriminator) := by
  intro h
  unfold ofObject at h
  split at h
  · cases h.pure
  · split at h
    · obtain ⟨type, -, h⟩ := h.bind
      cases h.pure
    · cases h.pure
    · cases h.pure

theorem ofDeclared_ne_union {schema : Entries} {declared : Value}
    {variants : List (VariantLabel × DataType)} {discriminator : Option String} :
    ¬ (ofDeclared resolve schema declared).Yields (.union variants discriminator) := by
  intro h
  unfold ofDeclared at h
  simp only at h
  generalize (if declared.isNull && isStringEnum schema then .text "string" else declared) =
    declared at h
  split at h
  · split at h
    · obtain ⟨type, -, h⟩ := h.bind
      cases h.pure
    · cases h.pure
  · split at h
    · exact ofObject_ne_union h
    · split at h
      · cases h.pure
      · cases h.pure

theorem ofReference_union {ref : String} {variants : List (VariantLabel × DataType)}
    {discriminator : Option String}
    (h : (ofReference doc resolve ref).Yields (.union variants discriminator)) :
    ∃ target, doc.resolveReference ref = .ok (some (.mapping target)) ∧
      (resolve (.mapping target)).Yields (.union variants discriminator) := by
  unfold ofReference at h
  split at h
  · split at h
    · cases h.pure
    · obtain ⟨u, -, h⟩ := h.bind
      cases h.pure
  · obtain ⟨target, htarget, h⟩ := h.bind
    split at h
    · split at h
      · cases h.pure
      · exact ⟨_, htarget.lift, h⟩
    · obtain ⟨u, -, h⟩ := h.bind
      cases h.pure

theorem ofDynamicReference_ne_union {ref : String} {variants : List (VariantLabel × DataType)}
    {discriminator : Option String} :
    ¬ (ofDynamicReference doc ref).Yields (.union variants discriminator) := by
  intro h
  unfold ofDynamicReference at h
  obtain ⟨name, -, h⟩ := h.bind
  have h := h.pure
  split at h <;> cases h

section Resolver

variable (hresolve : ∀ v variants property,
  (resolve v).Yields (.union variants property) → StandFor doc v variants property)

include hresolve

theorem ofKeywords_union {schema : Entries} {declared : Value}
    {variants : List (VariantLabel × DataType)} {property : Option String}
    (h : (ofKeywords doc resolve next schema declared).Yields (.union variants property)) :
    StandFor doc (.mapping schema) variants property := by
  unfold ofKeywords at h
  split at h
  · rename_i alternatives halternatives
    exact ⟨_, _, resolve, next, .own halternatives, ofAlternatives_union h⟩
  · split at h
    · rename_i only honly
      obtain ⟨alternatives, discriminator, within, beyond, t, hmembers⟩ := hresolve _ _ _ h
      exact ⟨alternatives, discriminator, within, beyond, .onlyMember honly t, hmembers⟩
    · cases h.pure
    · exact absurd h ofDeclared_ne_union

theorem ofNode_union {v : Value} {variants : List (VariantLabel × DataType)}
    {property : Option String}
    (h : (ofNode doc resolve next v).Yields (.union variants property)) :
    StandFor doc v variants property := by
  cases v with
  | mapping schema =>
    rw [ofNode] at h
    split at h
    · rename_i ref hdynamic href
      obtain ⟨target, htarget, h⟩ := ofReference_union h
      obtain ⟨alternatives, discriminator, within, beyond, t, hmembers⟩ := hresolve _ _ _ h
      exact ⟨alternatives, discriminator, within, beyond, .target href htarget t, hmembers⟩
    · exact absurd h ofDynamicReference_ne_union
    · split at h
      · obtain ⟨type, htype, h⟩ := h.bind
        cases orNothingIf_eq_union h.pure
        exact ofKeywords_union hresolve htype
      · cases orNothingIf_eq_union h.pure
  | scalar | list | set =>
    rw [ofNode] at h
    · cases h.pure
    · simp

end Resolver

/-- **The variants of a union are the members for the alternatives that it stands for.** -/
theorem resolve_standFor {budget : Nat} {v : Value} {variants : List (VariantLabel × DataType)}
    {property : Option String} (h : (Schema.resolve doc budget v).Yields (.union variants property)) :
    StandFor doc v variants property := by
  induction budget using Nat.strongRecOn generalizing v variants property with
  | ind budget ih =>
    match budget with
    | 0 =>
      rw [Schema.resolve] at h
      cases h.pure
    | 1 =>
      rw [Schema.resolve] at h
      exact ofNode_union (fun v variants property h => by cases h.pure) h
    | budget + 2 =>
      rw [Schema.resolve] at h
      exact ofNode_union (fun v variants property h => ih (budget + 1) (by omega) h) h

/-- **They are named for these alternatives.** -/
theorem resolve_union {budget : Nat} {v : Value} {variants : List (VariantLabel × DataType)}
    {discriminator : Option String}
    (h : (Schema.resolve doc budget v).Yields (.union variants discriminator)) :
    NamedForAlternatives doc v variants := by
  obtain ⟨alternatives, _, _, _, hoffers, -, hmembers⟩ := resolve_standFor h
  exact ⟨alternatives, hoffers.alternatives, members_names hmembers⟩

/-! ### Where values lead -/

/-- The target of a value names the schema: as a reference, or as it is. Only a text with a hash mark or a slash is
a reference. -/
inductive NamesSchema : String → String → Prop where
  | reference {target name : String} (h : '#' ∈ target.toList ∨ '/' ∈ target.toList)
      (hname : Reference.typeName target = .ok name) : NamesSchema target name
  | bare {name : String} (h : ¬ ('#' ∈ name.toList ∨ '/' ∈ name.toList)) : NamesSchema name name

theorem namesSchema_iff {target name : String} : NamesSchema target name ↔ targetName target = .ok name := by
  have hreference : (target.toList.contains '#' || target.toList.contains '/') = true ↔
      '#' ∈ target.toList ∨ '/' ∈ target.toList := by simp
  unfold targetName
  constructor
  · rintro (⟨h, hname⟩ | h)
    · rw [if_pos (hreference.mpr h), hname]
    · exact if_neg fun hcontains => h (hreference.mp hcontains)
  · intro h
    split at h
    · rename_i hcontains
      exact .reference (hreference.mp hcontains) h
    · rename_i hcontains
      cases h
      exact .bare fun hmem => hcontains (hreference.mpr hmem)

/-- The entry of a mapping leads its value to the schema `name`. -/
def leadsTo (name : String) (e : Scalar × Value) : Bool :=
  e.2.text?.any fun target => (targetName target).toOption == some name

theorem leadsTo_iff {name : String} {e : Scalar × Value} :
    leadsTo name e = true ↔ ∃ target, e.2 = .text target ∧ NamesSchema target name := by
  have htext : ∀ target, e.2.text? = some target ↔ e.2 = .text target := by
    intro target
    unfold Value.text?
    split <;> simp_all
  have hname : ∀ target, (targetName target).toOption == some name ↔ NamesSchema target name := by
    intro target
    rw [beq_iff_eq, namesSchema_iff]
    exact ⟨eq_ok_of_toOption, mem_toOption_of_eq_ok⟩
  simp only [leadsTo, Option.any_eq_true, htext, hname]

/-- An entry leads to one schema at most. -/
theorem eq_of_leadsTo {name name' : String} {e : Scalar × Value} (h : leadsTo name e = true)
    (h' : leadsTo name' e = true) : name = name' := by
  obtain ⟨target, htarget, hname⟩ := leadsTo_iff.mp h
  obtain ⟨target', htarget', hname'⟩ := leadsTo_iff.mp h'
  obtain rfl : target = target' := by simpa [htarget] using htarget'
  exact Except.ok.inj ((namesSchema_iff.mp hname).symm.trans (namesSchema_iff.mp hname'))

/-- The name that a member of a union refers to, if it is a reference. -/
def referredName? (member : Value) : Option String :=
  (member.get "$ref").text?.bind fun ref => (Reference.typeName ref).toOption

/-- The entry of a mapping leads its value to the member of a union. -/
def leadsToMember (member : Value) (e : Scalar × Value) : Bool := (referredName? member).any (leadsTo · e)

/-- A member that is no reference has no values. -/
theorem filter_leadsToMember_of_inline {member : Value} (hinline : ∀ ref, member.get "$ref" ≠ .text ref)
    (mapping : Entries) : mapping.filter (leadsToMember member) = [] := by
  have hnone : (member.get "$ref").text? = none := by
    unfold Value.text?
    split
    · rename_i href
      exact absurd href (hinline _)
    · rfl
  refine List.filter_eq_nil_iff.mpr fun e _ => ?_
  rw [leadsToMember, referredName?, hnone]
  exact Bool.false_ne_true

/-- The values that lead to a member, in order. -/
def memberValues (mapping : Entries) (member : Value) : List String :=
  (mapping.filter (leadsToMember member)).map (·.1.display)

/-! ### The values of a variant -/

/-- What a walk keeps is what there is to keep for the items with a property. -/
theorem filterMap_of_mapM {α β : Type} {f : α → Except Fault (Option β)} {p : α → Bool} {g : α → β}
    (hf : ∀ a found, f a = .ok found → found = if p a then some (g a) else none) {items : List α}
    {results : List (Option β)} (h : items.mapM f = .ok results) :
    results.filterMap id = (items.filter p).map g := by
  induction items generalizing results with
  | nil =>
    cases h
    rfl
  | cons a items ih =>
    rw [List.mapM_cons] at h
    obtain ⟨found, hfound, h⟩ := bind_eq_ok.mp h
    obtain ⟨more, hmore, h⟩ := bind_eq_ok.mp h
    rw [pure_eq_ok.mp h, hf a found hfound, List.filter_cons]
    split
    · exact congrArg (g a :: ·) (ih hmore)
    · exact (List.filterMap_cons_none rfl).trans (ih hmore)

/-- The values for a name are those that lead to it. -/
theorem valuesFor_eq {mapping : Entries} {name : String} {values : List String}
    (h : valuesFor mapping name = .ok values) : values = (mapping.filter (leadsTo name)).map (·.1.display) := by
  unfold valuesFor at h
  obtain ⟨results, hresults, h⟩ := bind_eq_ok.mp h
  rw [pure_eq_ok.mp h]
  refine filterMap_of_mapM (fun e found hfound => ?_) hresults
  obtain ⟨value, target⟩ := e
  dsimp only at hfound
  split at hfound
  · rename_i target
    obtain ⟨named, hnamed, hfound⟩ := bind_eq_ok.mp hfound
    have hleads : leadsTo name (value, .text target) = decide (named = name) := by
      show ((targetName target).toOption == some name) = _
      rw [hnamed]
      exact Option.some_beq_some.trans (beq_eq_decide _ _)
    rw [pure_eq_ok.mp hfound, hleads]
    simp only [decide_eq_true_eq]
  · rename_i htext
    have hleads : leadsTo name (value, target) = false :=
      Bool.eq_false_iff.mpr fun hleads => htext _ (leadsTo_iff.mp hleads).choose_spec.1
    rw [pure_eq_ok.mp hfound, hleads]
    rfl

/-- The values that tell a variant from the others: the primary one, then the others. -/
def VariantLabel.HasValues (label : VariantLabel) (values : List String) : Prop :=
  label.rename = values.head? ∧ label.aliases = values.tail

theorem VariantLabel.HasValues.eq {label : VariantLabel} {values : List String} (h : label.HasValues values) :
    label.rename.toList ++ label.aliases = values := by
  rw [h.1, h.2]
  cases values <;> rfl

variable {mapping : Entries}

theorem memberAt_hasValues {position : Nat} {member : Value} {found : VariantLabel × DataType}
    (h : (memberAt doc resolve next mapping position member).Yields found) :
    found.1.HasValues (memberValues mapping member) := by
  unfold memberAt at h
  split at h
  · rename_i ref href
    obtain ⟨target, htarget, h⟩ := h.bind
    obtain ⟨type, -, h⟩ := h.bind
    obtain ⟨values, hvalues, h⟩ := h.bind
    have hname : referredName? member = some target := by
      rw [referredName?, href]
      exact mem_toOption_of_eq_ok htarget.lift
    have hmember : leadsToMember member = leadsTo target := by
      funext e
      rw [leadsToMember, hname]
      rfl
    rw [h.pure, memberValues, hmember, ← valuesFor_eq hvalues.lift]
    exact ⟨rfl, rfl⟩
  · rename_i hinline
    obtain ⟨type, -, h⟩ := h.bind
    rw [h.pure, memberValues, filter_leadsToMember_of_inline hinline]
    exact ⟨rfl, rfl⟩

theorem members_hasValues {position : Nat} {names : Name.Table} {alternatives : List Value}
    {variants : List (VariantLabel × DataType)}
    (h : (members doc resolve next mapping position names alternatives).Yields variants) :
    List.Forall₂ (fun member variant => variant.1.HasValues (memberValues mapping member)) alternatives variants := by
  induction alternatives generalizing position names variants with
  | nil =>
    rw [members] at h
    rw [h.pure]
    exact .nil
  | cons member rest ih =>
    rw [members] at h
    obtain ⟨found, hfound, h⟩ := h.bind
    obtain ⟨more, hmore, h⟩ := h.bind
    rw [h.pure]
    -- The name that the table gives out does not touch the values.
    have hvalues := memberAt_hasValues hfound
    exact .cons hvalues (ih hmore)

/-! ### Each value for one variant -/

/-- Where no item has both properties, the items with either are those with the one and those with the other. -/
theorem perm_filter_or {α : Type} {p q : α → Bool} (h : ∀ a, p a = true → q a = false) (items : List α) :
    (items.filter p ++ items.filter q).Perm (items.filter fun a => p a || q a) := by
  have hp : (items.filter fun a => p a || q a).filter p = items.filter p := by
    rw [List.filter_filter]
    refine List.filter_congr fun a _ => ?_
    cases p a <;> simp
  have hq : (items.filter fun a => p a || q a).filter (fun a => !p a) = items.filter q := by
    rw [List.filter_filter]
    refine List.filter_congr fun a _ => ?_
    cases hpa : p a with
    | true => rw [h a hpa]; rfl
    | false => simp
  have hall := List.filter_append_perm p (items.filter fun a => p a || q a)
  rwa [hp, hq] at hall

/-- The entries that lead to members of different names are divided among them. -/
theorem perm_flatMap_leadsToMember {alternatives : List Value}
    (hdistinct : (alternatives.filterMap referredName?).Nodup) (mapping : Entries) :
    (alternatives.flatMap fun member => mapping.filter (leadsToMember member)).Perm
      (mapping.filter fun e => alternatives.any (leadsToMember · e)) := by
  induction alternatives with
  | nil => simp
  | cons member rest ih =>
    have hrest : (rest.filterMap referredName?).Nodup :=
      hdistinct.sublist ((List.sublist_cons_self member rest).filterMap referredName?)
    simp only [List.flatMap_cons, List.any_cons]
    refine ((ih hrest).append_left _).trans (perm_filter_or (fun e he => ?_) mapping)
    -- An entry for this member and a later one would have both refer to one name.
    refine List.any_eq_false.mpr fun other hother hboth => ?_
    obtain ⟨name, hname, hleads⟩ := (Option.any_eq_true _ _).mp he
    obtain ⟨name', hname', hleads'⟩ := (Option.any_eq_true _ _).mp hboth
    obtain rfl := eq_of_leadsTo hleads hleads'
    rw [List.filterMap_cons_some hname, List.nodup_cons] at hdistinct
    exact hdistinct.1 (List.mem_filterMap.mpr ⟨other, hother, hname'⟩)

/-- **The values of a discriminator are divided among the variants.** There is one variant for each member, in
order, and it has the values that lead to its member, in the order of the mapping; one that is no reference has
none. If the members that are references refer to different names, the values of all variants are those of the
entries that lead to a member, each of which counts once. -/
theorem members_divide {position : Nat} {names : Name.Table} {alternatives : List Value}
    {variants : List (VariantLabel × DataType)} (hdistinct : (alternatives.filterMap referredName?).Nodup)
    (h : (members doc resolve next mapping position names alternatives).Yields variants) :
    List.Forall₂ (fun member variant => variant.1.HasValues (memberValues mapping member) ∧
      ((∀ ref, member.get "$ref" ≠ .text ref) → variant.1.HasValues [])) alternatives variants ∧
    variants.flatMap (fun variant => variant.1.rename.toList ++ variant.1.aliases) =
      (alternatives.flatMap fun member => mapping.filter (leadsToMember member)).map (·.1.display) ∧
    (alternatives.flatMap fun member => mapping.filter (leadsToMember member)).Perm
      (mapping.filter fun e => alternatives.any (leadsToMember · e)) := by
  have hall := members_hasValues h
  refine ⟨hall.imp ?_, ?_, perm_flatMap_leadsToMember hdistinct mapping⟩
  · intro member variant hvalues
    refine ⟨hvalues, fun hinline => ?_⟩
    rwa [memberValues, filter_leadsToMember_of_inline hinline] at hvalues
  · clear h hdistinct
    induction hall with
    | nil => rfl
    | cons hvalues _ ih =>
      rw [List.flatMap_cons, List.flatMap_cons, List.map_append, ih, hvalues.eq]
      rfl

/-- A cat, a dog of another document, and a text. -/
def petMembers : List Value :=
  [.object [("$ref", .text "#/components/schemas/Cat")], .object [("$ref", .text "zoo.yaml#/$defs/sea~1dog")],
    .object [("type", .text "string")]]

/-- Three values for the cat, one of them a number, one for the dog, and two that lead nowhere. -/
def petMapping : Entries :=
  [(.text "kitten", .text "Cat"), (.text "dog", .text "#/$defs/sea%2Fdog"), (.text "bird", .text "Bird"),
    (.int 9, .text "#/components/schemas/Cat"), (.text "none", .null), (.text "cat", .text "cats/Cat.json")]

theorem members_divide_pets :
    ∃ variants, (members ⟨[], .openApi "3.1.0", none⟩ (fun _ => return .plainString) (fun _ => return .dynamic)
      petMapping 0 {} petMembers).Yields variants ∧
      List.Forall₂ (fun values variant => variant.1.HasValues values) [["kitten", "9", "cat"], ["dog"], []] variants ∧
      variants.flatMap (fun variant => variant.1.rename.toList ++ variant.1.aliases) = ["kitten", "9", "cat", "dog"] := by
  have hok : (members ⟨[], .openApi "3.1.0", none⟩ (fun _ => return .plainString) (fun _ => return .dynamic)
      petMapping 0 {} petMembers).collect.1.toOption.isSome = true := by decide +kernel
  obtain ⟨variants, hvariants⟩ := Option.isSome_iff_exists.mp hok
  have hyields := Resolving.yields_of_collect (eq_ok_of_toOption hvariants)
  obtain ⟨hall, hvalues, -⟩ := members_divide (by decide +kernel) hyields
  have hmembers : petMembers.map (memberValues petMapping) = [["kitten", "9", "cat"], ["dog"], []] := by decide +kernel
  refine ⟨variants, hyields, ?_, ?_⟩
  · rw [← hmembers, List.forall₂_map_left_iff]
    exact hall.imp fun _ _ h => h.1
  · rw [hvalues]
    decide +kernel

end ContractSync.Schema
