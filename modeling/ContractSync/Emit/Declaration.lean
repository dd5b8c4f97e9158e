import ContractSync.Emit.QueryStruct
import ContractSync.Emit.Text
import ContractSync.Model.Basic

/-!
# Declarations of models

A record becomes a structure, a union or an enumeration of literals an enumeration, and another name
for a type an alias.
-/

namespace ContractSync.Emit

open ContractSync.Schema (DataType VariantLabel)

/-- The traits that models derive. -/
def modelDerives : List String := ["Debug", "Clone", "Serialize", "Deserialize", "ToSchema"]

/-! ### Imports -/

/-- The types that a model mentions. -/
def mentionedTypes (model : Model) : List String :=
  match model.shape with
  | .record fields => fields.map (typeText ·.type)
  | .union variants _ => variants.map (typeText ·.2)
  | .literals _ => []
  | .alias target => [typeText target]

/-- Imports and the part of a type's text that calls for them; in alphabetical order. -/
def importTable : List (String × Option String) :=
  [("use chrono::NaiveDate;", some "NaiveDate"),
   ("use chrono::\x7bDateTime, Utc\x7d;", some "DateTime<"),
   ("use serde::\x7bDeserialize, Serialize\x7d;", none),
   ("use std::collections::HashMap;", some "HashMap<"),
   ("use utoipa::ToSchema;", none),
   ("use uuid::Uuid;", some "Uuid")]

/-- The imports that models need, in alphabetical order. -/
def modelImports (models : List Model) : List String :=
  let types := models.flatMap mentionedTypes
  (importTable.filter fun (_, part) =>
    match part with
    | some part => types.any fun type => Text.occursIn part.toList type.toList
    | none => true).map (·.1)

/-! ### Fields and variants -/

/-- A field of a structure. -/
structure FieldText where
  name : String
  type : String
  attributes : List String

/-- The name, type and attributes of a field. -/
def fieldText (f : Model.Field) : FieldText where
  name := f.name
  type := typeText f.type
  attributes :=
    (if f.isRenamed then ["#[serde(rename = " ++ quoted f.property ++ ")]"] else [])
      ++ (if f.deprecated then ["#[deprecated]"] else [])

/-- The lines of a field. -/
def fieldLines (f : Model.Field) : String :=
  let text := fieldText f
  docComment "    " (docLines [f.description])
    ++ String.join (text.attributes.map fun a => "    " ++ a ++ "\n")
    ++ "    pub " ++ text.name ++ ": " ++ text.type ++ ",\n"

/-- The lines of a variant; `type` is the type of its content. -/
def variantLines (label : VariantLabel) (type : Option DataType) : String :=
  let content :=
    match type.map typeText with
    | some text => if text.isEmpty then "" else "(" ++ text ++ ")"
    | none => ""
  docComment "    " (docLines [label.description])
    ++ (if label.deprecated then "    #[deprecated]\n" else "")
    ++ ((label.rename.map (renameLine "    ")).getD "")
    ++ String.join (label.aliases.map fun a => "    #[serde(alias = " ++ quoted a ++ ")]\n")
    ++ "    " ++ label.name ++ content ++ ",\n"

/-! ### Declarations -/

/-- The attribute that derives the traits of models. -/
def derivesLine : String := "#[derive(" ++ ", ".intercalate modelDerives ++ ")]\n"

/-- The attribute that says how the variants of a union are told apart. -/
def taggingLine : Option String → String
  | some discriminator => "#[serde(tag = " ++ quoted discriminator ++ ")]\n"
  | none => "#[serde(untagged)]\n"

/-- An enumeration. -/
def enumText (name tagging variants : String) : String :=
  derivesLine ++ tagging ++ "pub enum " ++ name ++ " \x7b\n" ++ variants ++ "\x7d\n"

/-- The declaration of a model without its comment. -/
def shapeText (name : String) : Model.Shape → String
  | .record fields =>
    derivesLine ++ "pub struct " ++ name ++ " \x7b\n" ++ String.join (fields.map fieldLines)
      ++ "\x7d\n"
  | .union variants discriminator =>
    enumText name (taggingLine discriminator)
      (String.join (variants.map fun (label, type) => variantLines label (some type)))
  | .literals variants =>
    enumText name "" (String.join (variants.map (variantLines · none)))
  | .alias target => "pub type " ++ name ++ " = " ++ typeText target ++ ";\n"

/-- The declaration of a model. -/
def modelDeclaration (model : Model) : String :=
  docComment "" (docLines [model.description]) ++ shapeText model.name model.shape

end ContractSync.Emit
