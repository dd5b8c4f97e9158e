import ContractSync.Document.Alike
import ContractSync.Document.Value

/-!
# Rewriting schemas

A pass rewrites single schema nodes. `rewriteSchema` applies it to a schema and to all schemas inside
it, innermost first; `rewriteDocument` finds the schemas of a whole document. Nothing else of a
document is touched, and examples are never looked into.
-/

/-!
## Examples

Under some keys a document holds literal examples. They are data of the described service, so that
nothing in them is a schema or a reference.
-/

namespace ContractSync.Contract

open ContractSync.Document

/-- The keys whose values are examples. -/
def literalKeys : List String := ["example", "examples"]

/-- The value at this key is an example. -/
def isLiteralKey (key : Scalar) : Bool :=
  match key with
  | .text key => literalKeys.contains key
  | _ => false

end ContractSync.Contract

/-! ## Passes over a document -/

namespace ContractSync.Contract

open ContractSync.Document

/-- A pass: what becomes of a schema node whose inner schemas are already rewritten. -/
abbrev Pass := Value → Value

/-- How the value of a schema's keyword holds further schemas. -/
inductive Holds where
  /-- It is a schema. -/
  | schema
  /-- It is a list of schemas. -/
  | list
  /-- It is a mapping from names to schemas. -/
  | named
  /-- It is a schema unless it is a truth value. -/
  | schemaOrFlag
  /-- It holds no schema. -/
  | nothing
  deriving DecidableEq, Repr

/-- The keywords with a schema. -/
def schemaKeywords : List String :=
  ["items", "not", "contains", "propertyNames", "if", "then", "else"]

/-- The keywords with a list of schemas. -/
def listKeywords : List String := ["prefixItems", "allOf", "anyOf", "oneOf"]

/-- The keywords with a mapping from names to schemas. -/
def namedKeywords : List String :=
  ["properties", "patternProperties", "dependentSchemas", "$defs"]

/-- The keywords with a schema or a plain flag. -/
def flagKeywords : List String :=
  ["additionalProperties", "unevaluatedProperties", "unevaluatedItems"]

/-- How a key of a schema holds further schemas. -/
def Holds.ofKey (key : Scalar) : Holds :=
  match key with
  | .text key =>
    if schemaKeywords.contains key then .schema
    else if listKeywords.contains key then .list
    else if namedKeywords.contains key then .named
    else if flagKeywords.contains key then .schemaOrFlag
    else .nothing
  | _ => .nothing

mutual

/-- Rewrites a schema and all schemas inside it. -/
def rewriteSchema (pass : Pass) : Value → Value
  | .mapping entries => pass (.mapping (rewriteKeywords pass entries))
  | .list items => pass (.list items)
  | .scalar s => pass (.scalar s)
  | .set members => pass (.set members)

/-- Rewrites the schemas that the keywords of a schema hold. -/
def rewriteKeywords (pass : Pass) : List (Scalar × Value) → List (Scalar × Value)
  | [] => []
  | (key, v) :: rest =>
    let rewritten :=
      match Holds.ofKey key, v with
      | .schema, v => rewriteSchema pass v
      | .list, .list items => .list (rewriteSchemas pass items)
      | .named, .mapping entries => .mapping (rewriteNamed pass entries)
      | .schemaOrFlag, .scalar (.bool b) => .scalar (.bool b)
      | .schemaOrFlag, v => rewriteSchema pass v
      | _, v => v
    (key, rewritten) :: rewriteKeywords pass rest

/-- Rewrites the schemas of a list. -/
def rewriteSchemas (pass : Pass) : List Value → List Value
  | [] => []
  | v :: rest => rewriteSchema pass v :: rewriteSchemas pass rest

/-- Rewrites the schemas of a mapping from names to schemas. -/
def rewriteNamed (pass : Pass) : List (Scalar × Value) → List (Scalar × Value)
  | [] => []
  | (name, v) :: rest => (name, rewriteSchema pass v) :: rewriteNamed pass rest

end

/-- The keys outside schemas whose value is a schema. -/
def schemaKeys : List String := ["schema", "itemSchema", "contentSchema"]

/-- The key of a part that is left as it is: examples and dynamic anchors. Every other key has to be
a string. -/
def isOpaqueKey (key : Scalar) : Except Fault Bool :=
  match key with
  | .text key => .ok (literalKeys.contains key || "$dynamic".toList.isPrefixOf key.toList)
  | .bytes _ => .error .unsuited
  | _ => .error .lacking

/-- The value at this key is a schema. -/
def isSchemaKey (key : Scalar) : Bool :=
  match key with
  | .text key => schemaKeys.contains key
  | _ => false

mutual

/-- Rewrites the schemas in a part of a document that is itself no schema. -/
def rewritePart (pass : Pass) : Value → Except Fault Value
  | .mapping entries => do return .mapping (← rewriteParts pass entries)
  | .list items => do return .list (← rewriteItems pass items)
  | .scalar s => .ok (.scalar s)
  | .set members => .ok (.set members)

/-- Rewrites the schemas in the entries of a part. -/
def rewriteParts (pass : Pass) :
    List (Scalar × Value) → Except Fault (List (Scalar × Value))
  | [] => .ok []
  | (key, v) :: rest => do
    let rewritten ←
      if ← isOpaqueKey key then .ok v
      else if isSchemaKey key then .ok (rewriteSchema pass v)
      else rewritePart pass v
    return (key, rewritten) :: (← rewriteParts pass rest)

/-- Rewrites the schemas in the items of a part. -/
def rewriteItems (pass : Pass) : List Value → Except Fault (List Value)
  | [] => .ok []
  | v :: rest => do return (← rewritePart pass v) :: (← rewriteItems pass rest)

end

/-- Rewrites the schemas of one family of components. -/
def rewriteFamily (pass : Pass) : Scalar → Value → Except Fault Value
  | .text "schemas", .mapping schemas => .ok (.mapping (rewriteNamed pass schemas))
  | _, content => rewritePart pass content

/-- Rewrites the schemas of the components, family by family. -/
def rewriteComponents (pass : Pass) : Entries → Except Fault Entries
  | [] => .ok []
  | (family, content) :: rest => do
    return (family, ← rewriteFamily pass family content) :: (← rewriteComponents pass rest)

/-- Rewrites the schemas of one section of a document. -/
def rewriteSection (pass : Pass) : Scalar → Value → Except Fault Value
  | .text "components", .mapping families => (rewriteComponents pass families).map .mapping
  | .text "definitions", .mapping schemas => .ok (.mapping (rewriteNamed pass schemas))
  | _, v => rewritePart pass v

/-- Rewrites the schemas of a document. -/
def rewriteDocument (pass : Pass) : Entries → Except Fault Entries
  | [] => .ok []
  | (key, v) :: rest => do
    return (key, ← rewriteSection pass key v) :: (← rewriteDocument pass rest)

end ContractSync.Contract

/-!
## The canonical form of a schema

Three passes bring schemas to one form: truth values become object schemas, nullable flags go into
the type, and a constant becomes an enumeration of one value.
-/

namespace ContractSync.Contract

open ContractSync.Document

/-- The schema that nothing satisfies. -/
def neverSchema : Value :=
  .object [("type", .text "object"), ("additionalProperties", .bool false),
    ("required", .list [.text "__never__"])]

/-- A schema that is a truth value becomes an object schema. -/
def expandFlag : Pass
  | .scalar (.bool true) => .mapping []
  | .scalar (.bool false) => neverSchema
  | schema => schema

/-- The schema of null. -/
def nullSchema : Value := .object [("type", .text "null")]

/-- The schema, or null. -/
def orNull (schema : Entries) : Value :=
  match Entries.get? schema "type" with
  | some (.scalar (.text declared)) =>
    if declared = "null" then .mapping schema
    else .mapping (Entries.put schema "type" (.list [.text declared, .text "null"]))
  | some (.list declared) =>
    if declared.contains (.text "null") then .mapping schema
    else .mapping (Entries.put schema "type" (.list (declared ++ [.text "null"])))
  | _ => .object [("anyOf", .list [.mapping schema, nullSchema])]

/-- The keys of the nullable flags. -/
def nullableKeys : List String := ["nullable", "x-nullable"]

/-- The nullable flags of a schema go into its type; without a declared type into an alternative. -/
def foldNullable : Pass
  | .mapping schema =>
    let flagged := nullableKeys.any fun key => (Entries.get schema key).isTrue
    let bare := nullableKeys.foldl Entries.erase schema
    if flagged then orNull bare else .mapping bare
  | schema => schema

/-- The type that a literal value has. -/
def literalType : Value → String
  | .scalar (.bool _) => "boolean"
  | .scalar (.int _) => "integer"
  | .scalar (.float _) => "number"
  | .scalar (.text _) => "string"
  | .list _ => "array"
  | .mapping _ => "object"
  | _ => "null"

/-- The enumeration already allows the constant. -/
def allows (existing : List Value) (constant : Value) : Bool :=
  existing.any fun v => v.sameKind constant && v.alike constant

/-- A constant becomes an enumeration of one value, and gives the type where none is declared. An
enumeration that does not allow the constant stays. -/
def foldConst : Pass
  | .mapping schema =>
    match Entries.get? schema "const" with
    | none => .mapping schema
    | some constant =>
      let bare := Entries.erase schema "const"
      let narrowed :=
        match Entries.get? bare "enum" with
        | some (.list existing) =>
          if allows existing constant then Entries.put bare "enum" (.list [constant]) else bare
        | _ => Entries.put bare "enum" (.list [constant])
      .mapping (Entries.putNew narrowed "type" (.text (literalType constant)))
  | schema => schema

/-- The passes in the order in which they are applied. -/
def passes : List Pass := [expandFlag, foldNullable, foldConst]

end ContractSync.Contract
