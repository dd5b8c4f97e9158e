import ContractSync.Proofs.Name.Words
import ContractSync.Proofs.Resolving
import ContractSync.Schema.Resolve

/-!
# The names in types

A type mentions the models that it refers to, at any depth. **A resolved type mentions models of the
document and nothing else** (`resolve_onlyModels`): the name of each of them is made from that of a schema
in the components. It is a word, of ASCII letters, digits and underscores, whatever the schema is called
(`resolve_isWorded`).
-/

namespace ContractSync

namespace Name

open Text (isWordChar)

/-- The name consists of word characters, and has some. -/
structure IsWord (name : String) : Prop where
  nonempty : name.toList ≠ []
  chars : ∀ c ∈ name.toList, isWordChar c = true

theorem isWordChar_of_isAlphanum {c : Char} (h : c.isAlphanum = true) : isWordChar c = true := by
  rw [isWordChar, h]
  rfl

theorem isWord_of_isTypeIdentifier {name : String} (h : isTypeIdentifier name.toList = true) :
    IsWord name := by
  cases hname : name.toList with
  | nil => rw [hname] at h; cases h
  | cons c rest =>
    rw [hname, isTypeIdentifier, Bool.and_eq_true, List.all_eq_true] at h
    refine ⟨hname ▸ List.cons_ne_nil c rest, hname ▸ List.forall_mem_cons.mpr ⟨?_, h.2⟩⟩
    have halpha : c.isAlpha = true := Bool.or_eq_true_iff.mpr (.inl h.1)
    exact isWordChar_of_isAlphanum (by rw [Char.isAlphanum, halpha, Bool.true_or])

theorem isWord_append {name more : String} (h : ∀ c ∈ name.toList, isWordChar c = true)
    (hmore : IsWord more) : IsWord (name ++ more) := by
  refine ⟨?_, ?_⟩
  · rw [String.toList_append]
    exact List.append_ne_nil_of_right_ne_nil _ hmore.nonempty
  · rw [String.toList_append]
    exact List.forall_mem_append.mpr ⟨h, hmore.chars⟩

/-- A name in `PascalCase`, or what stands for an empty one. -/
theorem isWord_pascal {fallback : String} (hfallback : IsWord fallback) (name : String) :
    IsWord (if (pascal name).isEmpty then fallback else pascal name) := by
  split
  · exact hfallback
  · rename_i hne
    refine ⟨fun h => hne ?_, fun c hc => isWordChar_of_isAlphanum (alphanum_of_mem_pascal c hc)⟩
    rw [String.toList_eq_nil_iff.mp h]
    rfl

/-- **The type of a component is named by a word.** -/
theorem isWord_typeName (component : String) : IsWord (typeName component) := by
  unfold typeName
  split
  · rename_i h
    exact isWord_of_isTypeIdentifier h
  · exact isWord_pascal ⟨by decide, by decide⟩ component

end Name

namespace Schema

open ContractSync.Contract (Canonical)
open ContractSync.Document
open ContractSync.Name (IsWord)

namespace DataType

mutual

/-- The names of models that the type refers to, by itself or by a type inside it. -/
def mentioned : DataType → List String
  | .reference name => [name]
  | .array inner | .map inner | .optional inner => inner.mentioned
  | .union variants _ => mentionedIn variants
  | .scalar _ _ | .dynamic | .unknown _ => []

/-- The names of models that the types of variants refer to. -/
def mentionedIn : List (VariantLabel × DataType) → List String
  | [] => []
  | (_, type) :: rest => type.mentioned ++ mentionedIn rest

end

theorem mentionedIn_eq (variants : List (VariantLabel × DataType)) :
    mentionedIn variants = variants.flatMap (·.2.mentioned) := by
  induction variants with
  | nil => rfl
  | cons variant rest ih => rw [mentionedIn, ih, List.flatMap_cons]

/-- Every model that the type mentions is that of a named schema of the document. -/
def OnlyModels (doc : Canonical) (type : DataType) : Prop :=
  ∀ name ∈ type.mentioned, ∃ component, Entries.has doc.schemas component = true ∧
    name = Name.typeName component

section OnlyModels

variable {doc : Canonical} {type : DataType}

theorem onlyModels_scalar (kind : ScalarKind) (format : Option String) :
    (scalar kind format).OnlyModels doc := List.forall_mem_nil _

theorem onlyModels_dynamic : dynamic.OnlyModels doc := List.forall_mem_nil _

theorem onlyModels_unknown (ref : String) : (unknown ref).OnlyModels doc := List.forall_mem_nil _

theorem onlyModels_reference {component : String} (h : Entries.has doc.schemas component = true) :
    (reference (Name.typeName component)).OnlyModels doc :=
  List.forall_mem_singleton.mpr ⟨component, h, rfl⟩

theorem onlyModels_union {variants : List (VariantLabel × DataType)} {discriminator : Option String} :
    (union variants discriminator).OnlyModels doc ↔ ∀ variant ∈ variants, variant.2.OnlyModels doc := by
  rw [OnlyModels, mentioned, mentionedIn_eq, List.forall_mem_flatMap]
  rfl

theorem OnlyModels.orNothing (h : type.OnlyModels doc) : type.orNothing.OnlyModels doc := by
  cases type <;> exact h

theorem OnlyModels.orNothingIf (h : type.OnlyModels doc) (nullable : Bool) :
    (type.orNothingIf nullable).OnlyModels doc := by
  cases nullable with
  | true => exact h.orNothing
  | false => exact h

end OnlyModels

/-- The names that the text of the type mentions are words. -/
def IsWorded : DataType → Prop
  | .reference name => IsWord name
  | .array inner | .map inner | .optional inner => inner.IsWorded
  | .scalar _ _ | .union _ _ | .dynamic | .unknown _ => True

theorem isWorded_of_mentioned : ∀ {type : DataType}, (∀ name ∈ type.mentioned, IsWord name) →
    type.IsWorded
  | .reference name, h => h name (List.mem_singleton_self name)
  | .array inner, h | .map inner, h | .optional inner, h => (isWorded_of_mentioned h : inner.IsWorded)
  | .scalar _ _, _ | .union _ _, _ | .dynamic, _ | .unknown _, _ => trivial

theorem OnlyModels.isWorded {doc : Canonical} {type : DataType} (h : type.OnlyModels doc) :
    type.IsWorded := by
  refine isWorded_of_mentioned fun name hname => ?_
  obtain ⟨component, -, rfl⟩ := h name hname
  exact Name.isWord_typeName component

theorem IsWorded.required {type : DataType} (h : type.IsWorded) : type.required.IsWorded := by
  cases type <;> exact h

end DataType

variable {doc : Canonical} {resolve next : Resolver} {type : DataType}

theorem ofDynamicReference_onlyModels {ref : String} (h : (ofDynamicReference doc ref).Yields type) :
    type.OnlyModels doc := by
  unfold ofDynamicReference at h
  obtain ⟨name, -, h⟩ := h.bind
  rw [h.pure]
  split
  · rename_i hname
    exact DataType.onlyModels_reference hname
  · exact DataType.onlyModels_dynamic

theorem ofReference_onlyModels (hresolve : ∀ v type, (resolve v).Yields type → type.OnlyModels doc)
    {ref : String} (h : (ofReference doc resolve ref).Yields type) : type.OnlyModels doc := by
  unfold ofReference at h
  split at h
  · split at h
    · rename_i hcomponent
      rw [h.pure]
      exact DataType.onlyModels_reference hcomponent
    · obtain ⟨u, -, h⟩ := h.bind
      rw [h.pure]
      exact DataType.onlyModels_unknown ref
  · obtain ⟨target, -, h⟩ := h.bind
    split at h
    · split at h
      · rw [h.pure]
        exact DataType.onlyModels_unknown ref
      · exact hresolve _ _ h
    · obtain ⟨u, -, h⟩ := h.bind
      rw [h.pure]
      exact DataType.onlyModels_unknown ref

section Resolver

variable (hresolve : ∀ v type, (resolve v).Yields type → type.OnlyModels doc)
  (hnext : ∀ v type, (next v).Yields type → type.OnlyModels doc)

include hresolve hnext

/-! ### Unions -/

theorem memberAt_onlyModels {mapping : Entries} {position : Nat} {member : Value}
    {found : VariantLabel × DataType}
    (h : (memberAt doc resolve next mapping position member).Yields found) :
    found.2.OnlyModels doc := by
  unfold memberAt at h
  split at h
  · unfold referenceMember at h
    obtain ⟨target, -, h⟩ := h.bind
    obtain ⟨type, htype, h⟩ := h.bind
    obtain ⟨values, -, h⟩ := h.bind
    rw [h.pure]
    exact ofReference_onlyModels hnext htype
  · unfold inlineMember at h
    obtain ⟨type, htype, h⟩ := h.bind
    rw [h.pure]
    exact hresolve _ _ htype

theorem members_onlyModels {mapping : Entries} {position : Nat} {names : Name.Table}
    {alternatives : List Value} {variants : List (VariantLabel × DataType)}
    (h : (members doc resolve next mapping position names alternatives).Yields variants) :
    ∀ variant ∈ variants, variant.2.OnlyModels doc := by
  induction alternatives generalizing position names variants with
  | nil =>
    rw [members] at h
    rw [h.pure]
    exact List.forall_mem_nil _
  | cons member rest ih =>
    rw [members] at h
    obtain ⟨⟨label, type⟩, hmember, h⟩ := h.bind
    obtain ⟨more, hmore, h⟩ := h.bind
    rw [h.pure]
    have htype : type.OnlyModels doc := memberAt_onlyModels hresolve hnext hmember
    exact List.forall_mem_cons.mpr ⟨htype, ih hmore⟩

theorem ofAlternatives_onlyModels {schema : Entries} {alternatives : List Value}
    (h : (ofAlternatives doc resolve next schema alternatives).Yields type) : type.OnlyModels doc := by
  unfold ofAlternatives at h
  simp only at h
  split at h
  · rw [h.pure]
    exact DataType.onlyModels_dynamic
  · obtain ⟨only, honly, h⟩ := h.bind
    rw [h.pure]
    exact (hresolve _ _ honly).orNothing
  · obtain ⟨variants, hvariants, h⟩ := h.bind
    rw [h.pure]
    exact (DataType.onlyModels_union.mpr (members_onlyModels hresolve hnext hvariants)).orNothingIf _

/-! ### Schemas -/

omit hnext in
theorem ofObject_onlyModels {schema : Entries} (h : (ofObject resolve schema).Yields type) :
    type.OnlyModels doc := by
  unfold ofObject at h
  split at h
  · rw [h.pure]
    exact DataType.onlyModels_dynamic
  · split at h
    · obtain ⟨inner, hinner, h⟩ := h.bind
      rw [h.pure]
      exact (hresolve _ _ hinner : inner.OnlyModels doc)
    · rw [h.pure]
      exact DataType.onlyModels_dynamic
    · rw [h.pure]
      exact DataType.onlyModels_dynamic

omit hnext in
theorem ofDeclared_onlyModels {schema : Entries} {declared : Value}
    (h : (ofDeclared resolve schema declared).Yields type) : type.OnlyModels doc := by
  unfold ofDeclared at h
  simp only at h
  generalize (if declared.isNull && isStringEnum schema then .text "string" else declared) =
    declared at h
  split at h
  · split at h
    · obtain ⟨inner, hinner, h⟩ := h.bind
      rw [h.pure]
      exact (hresolve _ _ hinner : inner.OnlyModels doc)
    · rw [h.pure]
      exact DataType.onlyModels_dynamic
  · split at h
    · exact ofObject_onlyModels hresolve h
    · split at h
      · rw [h.pure]
        exact DataType.onlyModels_scalar _ _
      · rw [h.pure]
        exact DataType.onlyModels_dynamic

theorem ofKeywords_onlyModels {schema : Entries} {declared : Value}
    (h : (ofKeywords doc resolve next schema declared).Yields type) : type.OnlyModels doc := by
  unfold ofKeywords at h
  split at h
  · exact ofAlternatives_onlyModels hresolve hnext h
  · split at h
    · exact hresolve _ _ h
    · rw [h.pure]
      exact DataType.onlyModels_dynamic
    · exact ofDeclared_onlyModels hresolve h

theorem ofNode_onlyModels {v : Value} (h : (ofNode doc resolve next v).Yields type) :
    type.OnlyModels doc := by
  cases v with
  | mapping schema =>
    rw [ofNode] at h
    split at h
    · exact ofReference_onlyModels hresolve h
    · exact ofDynamicReference_onlyModels h
    · split at h
      · obtain ⟨found, hfound, h⟩ := h.bind
        rw [h.pure]
        exact (ofKeywords_onlyModels hresolve hnext hfound).orNothingIf _
      · rw [h.pure]
        exact DataType.onlyModels_dynamic.orNothingIf _
  | scalar | list | set =>
    rw [ofNode] at h
    · rw [h.pure]
      exact DataType.onlyModels_dynamic
    · simp

end Resolver

/-- **A resolved type mentions models of the document and nothing else.** -/
theorem resolve_onlyModels {budget : Nat} {v : Value}
    (h : (Schema.resolve doc budget v).Yields type) : type.OnlyModels doc := by
  have hspent : ∀ (v : Value) type, Resolving.Yields (return DataType.dynamic) type →
      type.OnlyModels doc := by
    intro v type h
    rw [h.pure]
    exact DataType.onlyModels_dynamic
  induction budget using Nat.strongRecOn generalizing v type with
  | ind budget ih =>
    match budget with
    | 0 =>
      rw [Schema.resolve] at h
      exact hspent v type h
    | 1 =>
      rw [Schema.resolve] at h
      exact ofNode_onlyModels hspent hspent h
    | budget + 2 =>
      rw [Schema.resolve] at h
      exact ofNode_onlyModels (fun v type h => ih (budget + 1) (by omega) h)
        (fun v type h => ih budget (by omega) h) h

/-- Every name that a resolved type mentions is a word. -/
theorem resolve_isWorded {budget : Nat} {v : Value} (h : (Schema.resolve doc budget v).Yields type) :
    type.IsWorded :=
  (resolve_onlyModels h).isWorded

end Schema

end ContractSync
