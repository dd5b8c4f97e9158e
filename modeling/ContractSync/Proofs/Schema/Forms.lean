import ContractSync.Proofs.Resolving
import ContractSync.Proofs.Schema.Nullable

/-!
# The form of a schema

One keyword of a schema decides its type, and which one it is depends on the schema alone (`Form.ofValue`).
Where a reference leads depends on the document alone (`Target.ofReference`). **A schema is resolved by its
form** (`ofNode_eq_form`): what is asked of other schemas is asked in one place for each form, and every
property of resolved types is shown form by form.
-/

namespace ContractSync.Schema

open ContractSync.Contract (Canonical)
open ContractSync.Document

/-! ### What decides the type of a schema -/

/-- The keyword that decides the type of a schema, with the schemas that it holds. -/
inductive Form where
  /-- Nothing is said of the values. -/
  | any
  | scalar (kind : ScalarKind) (format : Option String)
  /-- A list, perhaps with a schema for its items. -/
  | array (items : Option Value)
  /-- A mapping, perhaps with a schema for its values. -/
  | map (values : Option Value)
  /-- What another schema says. -/
  | inner (schema : Value)
  /-- What one of its alternatives says, of which there is one at least. -/
  | union (first : Value) (others : List Value) (discriminator : Value)
  | reference (ref : String)
  | dynamicReference (ref : String)

namespace Form

/-- The form of a schema of objects. -/
def ofObject (schema : Entries) : Form :=
  if (Entries.get schema "properties").isPresent then any
  else
    match Entries.get schema "additionalProperties" with
    | .mapping additional => map (some (.mapping additional))
    | .scalar (.bool true) => map none
    | _ => any

/-- The form of a schema that declares one type and has no parts. -/
def ofDeclared (schema : Entries) (declared : Value) : Form :=
  let declared :=
    if declared.isNull && isStringEnum schema then .text "string" else declared
  if declared = .text "array" then
    match Entries.get schema "items" with
    | .mapping items => array (some (.mapping items))
    | _ => array none
  else if declared = .text "object"
      || (declared.isNull && Entries.has schema "additionalProperties") then
    ofObject schema
  else
    match declared.text?.bind ScalarKind.ofWord? with
    | some kind => scalar kind (Entries.get schema "format").text?
    | none => any

/-- The form of a schema with alternatives, and whether null is one of them. -/
def ofAlternatives (schema : Entries) (alternatives : List Value) : Form × Bool :=
  let concrete := alternatives.filter (!isNullSchema ·)
  let nullable := decide (concrete.length < alternatives.length)
  match concrete, nullable with
  | [], _ => (any, false)
  | [only], true => (inner only, true)
  | first :: others, nullable => (union first others (Entries.get schema "discriminator"), nullable)

/-- The form of a schema that declares one type, and whether null is one of its alternatives. -/
def ofKeywords (schema : Entries) (declared : Value) : Form × Bool :=
  match (items? schema "oneOf").orElse fun _ => items? schema "anyOf" with
  | some alternatives => ofAlternatives schema alternatives
  | none =>
    match items? schema "allOf" with
    | some [only] => (inner only, false)
    | some _ => (any, false)
    | none => (ofDeclared schema declared, false)

/-- The form of a schema, and whether null is allowed besides. -/
def ofValue : Value → Form × Bool
  | .mapping schema =>
    match Entries.get schema "$ref", Entries.get schema "$dynamicRef" with
    | .scalar (.text ref), _ => (reference ref, false)
    | _, .scalar (.text ref) => (dynamicReference ref, false)
    | _, _ =>
      match Declared.ofValue (Entries.get schema "type") with
      | .one declared nullable =>
        ((ofKeywords schema declared).1, (ofKeywords schema declared).2 || nullable)
      | .several nullable => (any, nullable)
  | _ => (any, false)

/-- The type of a form. `within` is for the schemas that it holds, `next` for the targets of its members. -/
def resolve (doc : Canonical) (within next : Resolver) : Form → Resolving DataType
  | any => return .dynamic
  | scalar kind format => return .scalar kind format
  | array items => return .array (← items.elim (return .dynamic) within)
  | map values => return .map (← values.elim (return .dynamic) within)
  | inner schema => within schema
  | union first others discriminator => do
    let variants ← members doc within next (discriminator.get "mapping").entries 0 {} (first :: others)
    return .union variants (discriminator.get "propertyName").text?
  | reference ref => ofReference doc within ref
  | dynamicReference ref => ofDynamicReference doc ref

variable {doc : Canonical} {within next : Resolver} {schema : Entries}

theorem resolve_array (items : Option Value) :
    (array items).resolve doc within next = .array <$> items.elim (return .dynamic) within := bind_pure_comp _ _

theorem resolve_map (values : Option Value) :
    (map values).resolve doc within next = .map <$> values.elim (return .dynamic) within := bind_pure_comp _ _

theorem resolve_union (first : Value) (others : List Value) (discriminator : Value) :
    (union first others discriminator).resolve doc within next =
      (DataType.union · (discriminator.get "propertyName").text?) <$>
        members doc within next (discriminator.get "mapping").entries 0 {} (first :: others) := bind_pure_comp _ _

theorem ofObject_eq : Schema.ofObject within schema = (ofObject schema).resolve doc within next := by
  unfold Schema.ofObject ofObject
  split
  · rfl
  · cases Entries.get schema "additionalProperties" with
    | scalar s =>
      cases s with
      | bool b => cases b <;> rfl
      | null | int | float | text | moment | bytes => rfl
    | list | mapping | set => rfl

theorem ofDeclared_eq (declared : Value) :
    Schema.ofDeclared within schema declared = (ofDeclared schema declared).resolve doc within next := by
  unfold Schema.ofDeclared ofDeclared
  simp only
  generalize (if declared.isNull && isStringEnum schema then Value.text "string" else declared) = declared
  split
  · cases Entries.get schema "items" <;> rfl
  · split
    · exact ofObject_eq
    · cases declared.text?.bind ScalarKind.ofWord? <;> rfl

theorem ofAlternatives_eq (alternatives : List Value) :
    Schema.ofAlternatives doc within next schema alternatives =
      (·.orNothingIf (ofAlternatives schema alternatives).2) <$>
        (ofAlternatives schema alternatives).1.resolve doc within next := by
  unfold Schema.ofAlternatives ofAlternatives
  simp only
  generalize decide (List.length _ < alternatives.length) = nullable
  generalize alternatives.filter (!isNullSchema ·) = concrete
  match concrete, nullable with
  | [], _ => rfl
  | [only], true => exact bind_pure_comp _ _
  | [only], false | first :: second :: rest, _ =>
    simp only [resolve, map_bind, map_pure]

theorem ofKeywords_eq (declared : Value) :
    Schema.ofKeywords doc within next schema declared =
      (·.orNothingIf (ofKeywords schema declared).2) <$>
        (ofKeywords schema declared).1.resolve doc within next := by
  unfold Schema.ofKeywords ofKeywords
  cases (items? schema "oneOf").orElse fun _ => items? schema "anyOf" with
  | some alternatives => exact ofAlternatives_eq alternatives
  | none =>
    match items? schema "allOf" with
    | some [only] => exact (id_map _).symm
    | some [] | some (_ :: _ :: _) => rfl
    | none =>
      exact (ofDeclared_eq declared).trans (id_map _).symm

theorem ofValue_reference {ref : String} (h : Entries.get schema "$ref" = .text ref) :
    ofValue (.mapping schema) = (reference ref, false) := by
  rw [ofValue, h]

theorem ofValue_dynamicReference {ref : String} (h : ∀ ref, Entries.get schema "$ref" ≠ .text ref)
    (hdynamic : Entries.get schema "$dynamicRef" = .text ref) :
    ofValue (.mapping schema) = (dynamicReference ref, false) := by
  rw [ofValue, hdynamic]
  split
  · rename_i href
    exact absurd href (h _)
  · rename_i heq _
    cases heq
    rfl
  · rename_i hnot
    exact absurd rfl (hnot ref)

theorem ofValue_mapping (h : ¬ IsReference schema) : ofValue (.mapping schema) =
    match Declared.ofValue (Entries.get schema "type") with
    | .one declared nullable => ((ofKeywords schema declared).1, (ofKeywords schema declared).2 || nullable)
    | .several nullable => (any, nullable) := by
  rw [ofValue]
  split
  · rename_i ref href
    exact absurd ⟨"$ref", by decide, ref, href⟩ h
  · rename_i ref href _
    exact absurd ⟨"$dynamicRef", by decide, ref, href⟩ h
  · rfl

end Form

theorem ofNode_reference {doc : Canonical} {within next : Resolver} {schema : Entries} {ref : String}
    (h : Entries.get schema "$ref" = .text ref) :
    ofNode doc within next (.mapping schema) = ofReference doc within ref := by
  rw [ofNode, h]

theorem resolve_of_reference {doc : Canonical} {budget : Nat} {v : Value} {ref : String} (h : v.get "$ref" = .text ref) :
    resolve doc (budget + 1) v = ofReference doc (resolve doc budget) ref := by
  cases v with
  | mapping schema =>
    rw [resolve_succ]
    exact ofNode_reference h
  | scalar | list | set => cases h

theorem ofNode_dynamicReference {doc : Canonical} {within next : Resolver} {schema : Entries} {ref : String}
    (h : ∀ ref, Entries.get schema "$ref" ≠ .text ref) (hdynamic : Entries.get schema "$dynamicRef" = .text ref) :
    ofNode doc within next (.mapping schema) = ofDynamicReference doc ref := by
  rw [ofNode, hdynamic]
  split
  · rename_i href
    exact absurd href (h _)
  · rename_i heq _
    cases heq
    rfl
  · rename_i hnot
    exact absurd rfl (hnot ref)

theorem orNothingIf_orNothingIf (more nullable : Bool) (type : DataType) :
    (type.orNothingIf more).orNothingIf nullable = type.orNothingIf (more || nullable) := by
  cases nullable with
  | false => rw [Bool.or_false]; rfl
  | true => rw [orNothingIf_or_true]; rfl

/-- **A schema is resolved by its form.** -/
theorem ofNode_eq_form (doc : Canonical) (within next : Resolver) (v : Value) :
    ofNode doc within next v =
      (·.orNothingIf (Form.ofValue v).2) <$> (Form.ofValue v).1.resolve doc within next := by
  cases v with
  | mapping schema =>
    by_cases href : ∃ ref, Entries.get schema "$ref" = .text ref
    · obtain ⟨ref, href⟩ := href
      rw [ofNode_reference href, Form.ofValue_reference href]
      exact (id_map _).symm
    rw [not_exists] at href
    by_cases hdynamic : ∃ ref, Entries.get schema "$dynamicRef" = .text ref
    · obtain ⟨ref, hdynamic⟩ := hdynamic
      rw [ofNode_dynamicReference href hdynamic, Form.ofValue_dynamicReference href hdynamic]
      exact (id_map _).symm
    rw [not_exists] at hdynamic
    have hrefers : ¬ IsReference schema := by
      rintro ⟨key, hkey, ref, hget⟩
      simp only [List.mem_cons, List.not_mem_nil, or_false] at hkey
      rcases hkey with rfl | rfl
      · exact href ref hget
      · exact hdynamic ref hget
    rw [ofNode_mapping hrefers, Form.ofValue_mapping hrefers]
    cases Declared.ofValue (Entries.get schema "type") with
    | one declared nullable =>
      simp only [Form.ofKeywords_eq, bind_pure_comp, Functor.map_map, orNothingIf_orNothingIf]
    | several nullable => rfl
  | scalar | list | set => rfl

/-! ### Where a reference leads -/

/-- What a reference leads to. -/
inductive Target where
  /-- A named schema. -/
  | model (component : String)
  /-- A schema in some other place. -/
  | schema (target : Entries)
  /-- A schema in some other place that is a reference itself. -/
  | chained
  /-- Nothing, or nothing that is a schema; `context` is what was looked for. -/
  | missing (context : String)

namespace Target

/-- Where a reference leads. -/
def ofReference (doc : Canonical) (ref : String) : Except Fault Target :=
  match doc.componentName ref "schemas" with
  | some component =>
    .ok (if Entries.has doc.schemas component then model component else missing "schema component")
  | none =>
    (doc.resolveReference ref).map fun
      | some (.mapping target) => if Entries.has target "$ref" then chained else schema target
      | _ => missing "schema"

/-- The type of what the reference `ref` leads to. -/
def resolve (next : Resolver) (ref : String) : Target → Resolving DataType
  | model component => return .reference (Name.typeName component)
  | schema target => next (.mapping target)
  | chained => return .unknown ref
  | missing context => do
    noteUnresolved ref context
    return .unknown ref

end Target

theorem ofReference_eq (doc : Canonical) (next : Resolver) (ref : String) :
    ofReference doc next ref =
      (liftM (Target.ofReference doc ref) : Resolving Target) >>= fun target => target.resolve next ref := by
  unfold ofReference Target.ofReference
  cases doc.componentName ref "schemas" with
  | some component =>
    show (do if Entries.has doc.schemas component then _ else _) =
      Target.resolve next ref (if Entries.has doc.schemas component then _ else _)
    split <;> rfl
  | none =>
    cases doc.resolveReference ref with
    | error fault => rfl
    | ok found =>
      cases found with
      | none => rfl
      | some v =>
        cases v with
        | mapping target =>
          show (if Entries.has target "$ref" then _ else _) =
            Target.resolve next ref (if Entries.has target "$ref" then _ else _)
          split <;> rfl
        | scalar | list | set => rfl

/-! ### Members of unions -/

/-- The type of a member is that of its target, or if it is no reference its own. -/
theorem memberAt_gives {doc : Canonical} {within next : Resolver} {mapping : Entries} {position : Nat} {member : Value}
    {before after : Diagnostics} {found : VariantLabel × DataType}
    (h : (memberAt doc within next mapping position member).Gives before found after) :
    (∃ ref, member.get "$ref" = .text ref ∧ (ofReference doc next ref).Gives before found.2 after) ∨
      (∀ ref, member.get "$ref" ≠ .text ref) ∧ (within member).Gives before found.2 after := by
  unfold memberAt at h
  split at h
  · rename_i ref href
    unfold referenceMember at h
    obtain ⟨target, _, htarget, h⟩ := h.bind
    obtain ⟨-, rfl⟩ := htarget.lift
    obtain ⟨type, _, htype, h⟩ := h.bind
    obtain ⟨values, _, hvalues, h⟩ := h.bind
    obtain ⟨-, rfl⟩ := hvalues.lift
    obtain ⟨rfl, rfl⟩ := h.pure
    exact .inl ⟨ref, href, htype⟩
  · rename_i href
    unfold inlineMember at h
    obtain ⟨type, _, htype, h⟩ := h.bind
    obtain ⟨rfl, rfl⟩ := h.pure
    exact .inr ⟨href, htype⟩

/-- **There is one variant for each member**, and what is true of whatever a member yields is true of the
variant. -/
theorem members_forall₂ {doc : Canonical} {within next : Resolver} {mapping : Entries} {position : Nat}
    {names : Name.Table} {alternatives : List Value} {variants : List (VariantLabel × DataType)}
    {R : Value → DataType → Prop}
    (h : (members doc within next mapping position names alternatives).Yields variants)
    (hmember : ∀ position, ∀ member ∈ alternatives, ∀ found,
      (memberAt doc within next mapping position member).Yields found → R member found.2) :
    List.Forall₂ (fun member variant => R member variant.2) alternatives variants := by
  induction alternatives generalizing position names variants with
  | nil =>
    rw [members] at h
    rw [h.pure]
    exact .nil
  | cons member rest ih =>
    rw [members] at h
    obtain ⟨found, hfound, h⟩ := h.bind
    obtain ⟨more, hmore, h⟩ := h.bind
    rw [h.pure]
    exact .cons (hmember position member List.mem_cons_self found hfound)
      (ih hmore fun position member hmem => hmember position member (List.mem_cons_of_mem _ hmem))

end ContractSync.Schema
