import ContractSync.Contract.Canonical
import ContractSync.Diagnostics
import ContractSync.Document.Value
import ContractSync.Name.Identifier
import ContractSync.Name.Unique
import ContractSync.Schema.DataType

/-!
# The data type of a schema

`resolve` reads the data type off a schema in canonical form. A reference to a named schema becomes
its name and is not followed, so that schemas may refer to each other in circles; a reference to
another place is followed once. The budget bounds how deep types nest: where it is used up, any value
is allowed.
-/

/-!
## Declared types

The `type` keyword names a type or lists several; `null` in a list makes the type optional. A list in
a list counts like its own items.
-/

namespace ContractSync.Schema

open ContractSync.Document

/-- What the `type` keyword declares. -/
inductive Declared where
  /-- One type, in the form of the value that names it; null if none is declared. -/
  | one (type : Value) (nullable : Bool)
  /-- Several types, or none but null. -/
  | several (nullable : Bool)

namespace Declared

/-- The same, null allowed as well if the flag says so. -/
def allowNull (flag : Bool) : Declared → Declared
  | one type nullable => one type (nullable || flag)
  | several nullable => several (nullable || flag)

mutual

/-- What the value of the `type` keyword declares. -/
def ofValue : Value → Declared
  | .list items =>
    match ofItems items with
    | (1, declared) => declared.allowNull (items.contains (.text "null"))
    | _ => several (items.contains (.text "null"))
  | v => one v false

/-- The number of types in a list, null not counted, and what the first of them declares. -/
def ofItems : List Value → Nat × Declared
  | [] => (0, several false)
  | v :: rest =>
    let declared := ofValue v
    let (count, others) := ofItems rest
    if v = .text "null" then (count, others) else (count + 1, declared)

end

end Declared

end ContractSync.Schema

/-! ## Resolving -/

namespace ContractSync.Schema

open ContractSync.Contract (Canonical)
open ContractSync.Document

/-- The budget that is used unless another one is given. -/
def defaultBudget : Nat := 8

/-- Resolves a schema within some budget. -/
abbrev Resolver := Value → Resolving DataType

/-- The type of what a reference leads to. `next` resolves a target that is no named schema. -/
def ofReference (doc : Canonical) (next : Resolver) (ref : String) : Resolving DataType := do
  match doc.componentName ref "schemas" with
  | some component =>
    if Entries.has doc.schemas component then return .reference (Name.typeName component)
    noteUnresolved ref "schema component"
    return .unknown ref
  | none =>
    match ← doc.resolveReference ref with
    | some (.mapping target) =>
      if Entries.has target "$ref" then return .unknown ref else next (.mapping target)
    | _ =>
      noteUnresolved ref "schema"
      return .unknown ref

/-- The type of a dynamic reference: the model of that name, if there is one. -/
def ofDynamicReference (doc : Canonical) (ref : String) : Resolving DataType := do
  let name := String.ofList ((← Reference.typeName ref).toList.dropWhile (· == '#'))
  return if Entries.has doc.schemas name then .reference (Name.typeName name) else .dynamic

/-! ### Unions -/

/-- The names for strings of certain formats. -/
def formatNames : List (String × String) :=
  [("uuid", "Uuid"), ("date", "Date"), ("date-time", "DateTime")]

/-- The name that a type suggests for a variant. -/
def placeholderName : DataType → Option String
  | .array _ => some "Array"
  | .scalar .string format => some ((formatNames.lookup (format.getD "")).getD "String")
  | .scalar .integer _ => some "Integer"
  | .scalar .number _ => some "Number"
  | .scalar .boolean _ => some "Boolean"
  | _ => none

/-- The schema that the target of a discriminator value names: a reference, or the bare name. -/
def targetName (target : String) : Except Fault String :=
  if target.toList.contains '#' || target.toList.contains '/' then Reference.typeName target
  else .ok target

/-- The discriminator values that lead to the schema `name`, in order. -/
def valuesFor (mapping : Entries) (name : String) : Except Fault (List String) := do
  let values ← mapping.mapM fun (value, target) =>
    match target with
    | .scalar (.text target) => do
      return if (← targetName target) = name then some value.display else none
    | _ => return none
  return values.filterMap id

/-- A member of a union that is a reference. `next` resolves targets that are no named schemas. -/
def referenceMember (doc : Canonical) (next : Resolver) (mapping : Entries) (ref : String) :
    Resolving (VariantLabel × DataType) := do
  let target ← Reference.typeName ref
  let type ← ofReference doc next ref
  let values ← valuesFor mapping target
  return ({ name := Name.typeName target, rename := values.head?, aliases := values.tail }, type)

/-- A member of a union that is a schema itself. -/
def inlineMember (resolve : Resolver) (position : Nat) (member : Value) :
    Resolving (VariantLabel × DataType) := do
  let type ← resolve member
  let name := (placeholderName type).getD s!"Variant{position}"
  return ({ name, deprecated := (member.get "deprecated").isTrue,
            description := (member.get "description").text? }, type)

/-- The member of a union at a position. -/
def memberAt (doc : Canonical) (resolve next : Resolver) (mapping : Entries) (position : Nat)
    (member : Value) : Resolving (VariantLabel × DataType) :=
  match member.get "$ref" with
  | .scalar (.text ref) => referenceMember doc next mapping ref
  | _ => inlineMember resolve position member

/-- The members of a union from a position on, their names made distinct by the table. -/
def members (doc : Canonical) (resolve next : Resolver) (mapping : Entries) (position : Nat)
    (names : Name.Table) : List Value → Resolving (List (VariantLabel × DataType))
  | [] => return []
  | member :: rest => do
    let (label, type) ← memberAt doc resolve next mapping position member
    let (name, names) := names.claim label.name
    return ({ label with name }, type)
      :: (← members doc resolve next mapping (position + 1) names rest)

/-- The schema allows null and nothing else. -/
def isNullSchema (v : Value) : Bool :=
  match v with
  | .mapping [(key, type)] => key == .text "type" && type == .text "null"
  | _ => false

/-- The type of alternatives. -/
def ofAlternatives (doc : Canonical) (resolve next : Resolver) (schema : Entries)
    (alternatives : List Value) : Resolving DataType := do
  let concrete := alternatives.filter (!isNullSchema ·)
  let nullable := decide (concrete.length < alternatives.length)
  match concrete, nullable with
  | [], _ => return .dynamic
  | [only], true => return (← resolve only).orNothing
  | _, _ =>
    let discriminator := Entries.get schema "discriminator"
    let variants ← members doc resolve next (discriminator.get "mapping").entries 0 {} concrete
    let union := DataType.union variants (discriminator.get "propertyName").text?
    return union.orNothingIf nullable

/-! ### Schemas -/

/-- The items of a keyword whose value is a list that is not empty. -/
def items? (schema : Entries) (keyword : String) : Option (List Value) :=
  match Entries.get schema keyword with
  | .list (v :: rest) => some (v :: rest)
  | _ => none

/-- All literals of an enumeration are strings. -/
def isStringEnum (schema : Entries) : Bool :=
  match Entries.get schema "enum" with
  | .list (v :: rest) => (v :: rest).all (·.text?.isSome)
  | _ => false

/-- The type of an object: a mapping if it has no properties of its own. -/
def ofObject (resolve : Resolver) (schema : Entries) : Resolving DataType := do
  if (Entries.get schema "properties").isPresent then return .dynamic
  match Entries.get schema "additionalProperties" with
  | .mapping additional => return .map (← resolve (.mapping additional))
  | .scalar (.bool true) => return .map .dynamic
  | _ => return .dynamic

/-- The type of a schema without alternatives that declares `declared`. -/
def ofDeclared (resolve : Resolver) (schema : Entries) (declared : Value) :
    Resolving DataType := do
  let declared :=
    if declared.isNull && isStringEnum schema then .text "string" else declared
  if declared = .text "array" then
    match Entries.get schema "items" with
    | .mapping items => return .array (← resolve (.mapping items))
    | _ => return .array .dynamic
  else if declared = .text "object"
      || (declared.isNull && Entries.has schema "additionalProperties") then
    ofObject resolve schema
  else
    match declared.text?.bind ScalarKind.ofWord? with
    | some kind => return .scalar kind (Entries.get schema "format").text?
    | none => return .dynamic

/-- The type of a schema whose declared type is the one given. -/
def ofKeywords (doc : Canonical) (resolve next : Resolver) (schema : Entries) (declared : Value) :
    Resolving DataType :=
  match (items? schema "oneOf").orElse fun _ => items? schema "anyOf" with
  | some alternatives => ofAlternatives doc resolve next schema alternatives
  | none =>
    match items? schema "allOf" with
    | some [only] => resolve only
    | some _ => return .dynamic
    | none => ofDeclared resolve schema declared

/-- The type of a schema. `resolve` is for the schemas inside it, `next` for the targets of their
references. -/
def ofNode (doc : Canonical) (resolve next : Resolver) : Resolver
  | .mapping schema =>
    match Entries.get schema "$ref", Entries.get schema "$dynamicRef" with
    | .scalar (.text ref), _ => ofReference doc resolve ref
    | _, .scalar (.text ref) => ofDynamicReference doc ref
    | _, _ =>
      match Declared.ofValue (Entries.get schema "type") with
      | .one declared nullable =>
        return (← ofKeywords doc resolve next schema declared).orNothingIf nullable
      | .several nullable => return DataType.dynamic.orNothingIf nullable
  | _ => return .dynamic

/-- The type of a schema, nested no deeper than the budget allows. -/
def resolve (doc : Canonical) : Nat → Resolver
  | 0 => fun _ => return .dynamic
  | 1 => ofNode doc (fun _ => return .dynamic) (fun _ => return .dynamic)
  | budget + 2 => ofNode doc (resolve doc (budget + 1)) (resolve doc budget)

/-- The type of what a reference leads to. -/
def resolveReference (doc : Canonical) (budget : Nat) (ref : String) : Resolving DataType :=
  ofReference doc (resolve doc (budget - 1)) ref

end ContractSync.Schema
