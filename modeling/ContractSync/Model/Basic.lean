import ContractSync.Contract.Canonical
import ContractSync.Document.Alike
import ContractSync.Schema.Resolve

/-!
# Models

A named schema becomes the declaration of a data type: a record of fields, a union of variants, an
enumeration of literals, or another name for a type. `Model.ofDocument` lists the models of a document
in the order of its schemas.
-/

/-!
## The properties of an object schema

A schema has its own properties and those of the members of its `allOf`, members that are references
to named schemas included. A name that was followed on the way to a member is not followed again, so
schemas that contain each other come to an end. `propertiesOf` gathers all of them; a later property
overrides an earlier one of the same name and keeps its place.
-/

namespace ContractSync.Model

open ContractSync.Contract (Canonical)
open ContractSync.Document

/-- Properties with their schemas, and the names of those that have to be present. -/
structure Properties where
  schemas : Entries := []
  required : List String := []
  deriving DecidableEq, Repr

namespace Properties

/-- The names in the value of the `required` keyword. -/
def requiredNames (v : Value) : Except Fault (List String) :=
  if v.isPresent then v.parts.map fun parts => parts.filterMap Value.text? else .ok []

/-- The properties with those that a schema states itself. -/
def addOwn (ps : Properties) (schema : Entries) : Except Fault Properties := do
  let own ← (Entries.get schema "properties").entriesIfPresent
  let required ← requiredNames (Entries.get schema "required")
  return ⟨own.foldl (fun all e => Entries.putKey all e.1 e.2) ps.schemas, ps.required ++ required⟩

/-- Adds the properties that a reference leads to. -/
abbrev Expand := String → Properties → Except Fault Properties

mutual

/-- Adds the properties of a schema: those of the members of its `allOf`, then its own. -/
def addSchema (expand : Expand) (ps : Properties) : Value → Except Fault Properties
  | .mapping entries => do (← addAllOf expand ps entries).addOwn entries
  | _ => .ok ps

/-- Adds the properties of the members of the first `allOf` among the entries. -/
def addAllOf (expand : Expand) (ps : Properties) :
    List (Scalar × Value) → Except Fault Properties
  | [] => .ok ps
  | (key, v) :: rest => if key = .text "allOf" then addMembers expand ps v else addAllOf expand ps rest

/-- Adds the properties of the members in the value of an `allOf`. -/
def addMembers (expand : Expand) (ps : Properties) : Value → Except Fault Properties
  | .list items => addItems expand ps items
  | v => if v.isPresent then v.parts.map fun _ => ps else .ok ps

/-- Adds the properties of members. -/
def addItems (expand : Expand) (ps : Properties) : List Value → Except Fault Properties
  | [] => .ok ps
  | member :: rest => do
    let ps ←
      match member.get "$ref" with
      | .scalar (.text ref) => expand ref ps
      | _ => addSchema expand ps member
    addItems expand ps rest

end

/-- Adds the properties of the named schema that a reference leads to, unless the name was followed
before. The first argument bounds how many names are followed one inside the other; the number of
named schemas is enough. -/
def addReference (doc : Canonical) : Nat → List String → Expand
  | 0, _ => fun _ ps => .ok ps
  | bound + 1, followed => fun ref ps =>
    match doc.componentName ref "schemas" with
    | none => .ok ps
    | some name =>
      if followed.contains name then .ok ps
      else
        match Entries.get doc.schemas name with
        | .mapping target => addSchema (addReference doc bound (name :: followed)) ps (.mapping target)
        | _ => .ok ps

end Properties

/-- The properties of the named schema `name`. -/
def propertiesOf (doc : Canonical) (name : String) (schema : Entries) : Except Fault Properties :=
  Properties.addSchema (Properties.addReference doc (doc.schemas.length + 1) [name]) {}
    (.mapping schema)

end ContractSync.Model

/-! ## Models of schemas -/

namespace ContractSync

open ContractSync.Contract (Canonical)
open ContractSync.Document
open ContractSync.Schema (DataType VariantLabel)

/-- A field of a record: the property it stands for, and its name in code. -/
structure Model.Field where
  property : String
  name : String
  type : DataType
  description : Option String := none
  deprecated : Bool := false
  deriving Repr

namespace Model.Field

/-- The name in code does not tell the property. -/
def isRenamed (f : Field) : Bool := Name.bare f.name != f.property

end Model.Field

/-- What a model declares. -/
inductive Model.Shape where
  | record (fields : List Model.Field)
  | union (variants : List (VariantLabel × DataType)) (discriminator : Option String)
  /-- One variant for each literal, which is its `rename`. -/
  | literals (variants : List VariantLabel)
  | alias (target : DataType)
  deriving Repr

/-- The declaration of a data type. -/
structure Model where
  name : String
  shape : Model.Shape
  description : Option String := none
  deriving Repr

namespace Model

/-- The description of a schema without blanks around it, if something is left. -/
def descriptionOf (schema : Value) : Option String := do
  let s ← (schema.get "description").text?
  if Text.isBlankString s then none else some (Text.trimmed s)

/-- A string that a name is made from. -/
def nameText : Scalar → Except Fault String
  | .text s => .ok s
  | _ => .error .unsuited

/-! ### Records -/

/-- The fields for properties, their names made distinct by the table. -/
def fieldsOf (doc : Canonical) (required : List String) (names : Name.Table) :
    Entries → Resolving (List Field)
  | [] => return []
  | (key, schema) :: rest => do
    let type ← Schema.resolve doc Schema.defaultBudget schema
    let property ← nameText key
    let (name, names) := names.claim (Name.fieldName property)
    let field : Field := {
      property, name
      type := type.orNothingIf !(required.contains property)
      description := descriptionOf schema
      deprecated := (schema.get "deprecated").isTrue }
    return field :: (← fieldsOf doc required names rest)

/-- The shape of an object schema. -/
def recordOf (doc : Canonical) (name : String) (schema : Entries) : Resolving Shape := do
  let properties ← propertiesOf doc name schema
  return .record (← fieldsOf doc properties.required {} properties.schemas)

/-- The schema describes objects with properties. -/
def isObject (schema : Entries) : Bool :=
  let declared := Entries.get schema "type"
  declared == .text "object" || (declared.items?.getD []).contains (.text "object")
    || Entries.has schema "properties" || Entries.has schema "allOf"

/-! ### Enumerations -/

/-- The literals of a schema that lists strings and nothing else. -/
def literalsOf (schema : Entries) : List String :=
  let declared := Entries.get schema "type"
  let literals := (Entries.get schema "enum").items?.getD []
  if (declared.isNull || declared == .text "string") && literals.all (·.text?.isSome) then
    literals.filterMap Value.text?
  else []

/-- The variants for literals, their names made distinct by the table. -/
def variantsOf (names : Name.Table) : List String → List VariantLabel
  | [] => []
  | literal :: rest =>
    let (name, names) := names.claim (Name.variantName literal)
    { name, rename := some literal } :: variantsOf names rest

/-! ### Declarations -/

/-- The type is a mapping. -/
def isMap : DataType → Bool
  | .map _ => true
  | _ => false

/-- The shape of a schema that lists no literals. -/
def shapeOf (doc : Canonical) (name : String) (schema : Entries) : Resolving Shape := do
  let type ← Schema.resolve doc Schema.defaultBudget (.mapping schema)
  match type with
  | .union variants discriminator => return .union variants discriminator
  | _ =>
    if isObject schema && !(isMap type && !(Entries.get schema "allOf").isPresent) then
      recordOf doc name schema
    else return .alias type

/-- The model of a named schema. -/
def ofSchema (doc : Canonical) (key : Scalar) (schema : Value) : Resolving Model := do
  let key ← nameText key
  let name := Name.typeName key
  match schema with
  | .mapping entries =>
    let shape ←
      match literalsOf entries with
      | [] => shapeOf doc key entries
      | literals => pure (.literals (variantsOf {} literals))
    return ⟨name, shape, descriptionOf schema⟩
  | _ => return ⟨name, .alias .dynamic, none⟩

/-- The models of a document. -/
def ofDocument (doc : Canonical) : Resolving (List Model) :=
  doc.schemas.mapM fun (key, schema) => ofSchema doc key schema

end Model

end ContractSync
