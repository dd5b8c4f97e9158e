import ContractSync.Route.Follow
import ContractSync.Schema.Resolve

/-!
# Parameters

A parameter has a place in the request, a type and a style. An operation's own parameters override
those of its path that have the same name and place.
-/

namespace ContractSync.Route

open ContractSync.Contract (Canonical)
open ContractSync.Document
open ContractSync.Schema (DataType)

/-- The place of a parameter in a request. -/
inductive Place where
  | path
  | query
  /-- The whole query string. -/
  | queryString
  | header
  | cookie
  deriving DecidableEq, Repr

namespace Place

/-- The word for the place. -/
def word : Place → String
  | path => "path"
  | query => "query"
  | queryString => "querystring"
  | header => "header"
  | cookie => "cookie"

/-- The place that a word names. -/
def ofWord? (word : String) : Option Place :=
  [path, query, queryString, header, cookie].find? (·.word == word)

end Place

/-- How the parts of a parameter's value are written. -/
inductive Style where
  | matrix
  | label
  | form
  | simple
  | spaceDelimited
  | pipeDelimited
  | deepObject
  deriving DecidableEq, Repr

namespace Style

/-- The word for the style. -/
def word : Style → String
  | matrix => "matrix"
  | label => "label"
  | form => "form"
  | simple => "simple"
  | spaceDelimited => "spaceDelimited"
  | pipeDelimited => "pipeDelimited"
  | deepObject => "deepObject"

/-- The style that a word names. -/
def ofWord? (word : String) : Option Style :=
  [matrix, label, form, simple, spaceDelimited, pipeDelimited, deepObject].find? (·.word == word)

/-- The style of parameters that name none. -/
def ofPlace : Place → Style
  | .path | .header => simple
  | .query | .queryString | .cookie => form

/-- The style that a collection format stands for, none if it is that of the place, and whether each
item becomes a parameter of its own. -/
def ofCollectionFormat? (format : String) : Option (Option Style × Bool) :=
  [("csv", (none, false)), ("ssv", (some spaceDelimited, false)),
   ("tsv", (some spaceDelimited, false)), ("pipes", (some pipeDelimited, false)),
   ("multi", (some form, true))].lookup format

/-- The style of a parameter, and whether each item becomes a parameter of its own: as stated, else
by the collection format, else by the place, where only forms explode. -/
def resolve (place : Place) (style explode collectionFormat : Value) : Style × Bool :=
  let stated := style.text?.bind ofWord?
  let mapped := if stated.isSome then none else collectionFormat.text?.bind ofCollectionFormat?
  let effective := (stated.or (mapped.bind (·.1))).getD (ofPlace place)
  match explode with
  | .scalar (.bool explode) => (effective, explode)
  | _ => (effective, (mapped.map (·.2)).getD (effective == form))

end Style

/-- A parameter of an operation. -/
structure Parameter where
  name : String
  place : Place
  type : DataType
  required : Bool
  style : Style
  explode : Bool
  allowReserved : Bool
  deprecated : Bool
  description : Option String
  /-- The media type, if the value is written in one. -/
  mediaType : Option Scalar
  deriving Repr

namespace Parameter

/-- The type of a parameter, and the media type it is written in. -/
def typeOf (doc : Canonical) (entries : Entries) : Resolving (DataType × Option Scalar) := do
  match Entries.get entries "schema", Entries.get entries "content" with
  | .mapping schema, _ =>
    return (← Schema.resolve doc Schema.defaultBudget (.mapping schema), none)
  | _, .mapping ((mediaType, media) :: _) =>
    return (← Schema.resolve doc Schema.defaultBudget (media.get "schema"), some mediaType)
  | _, _ => return (.plainString, none)

/-- The parameter that an object describes; none without a name or a known place. -/
def ofEntries (doc : Canonical) (entries : Entries) : Resolving (Option Parameter) := do
  let some place := (Entries.get entries "in").text?.bind Place.ofWord? | return none
  let some name := (Entries.get entries "name").text? | return none
  if name.isEmpty then return none
  let (style, explode) := Style.resolve place (Entries.get entries "style")
    (Entries.get entries "explode") (Entries.get entries "collectionFormat")
  let (type, mediaType) ← typeOf doc entries
  let required := place == .path || (Entries.get entries "required").isTrue
  return some {
    name, place, required, style, explode, mediaType
    type := type.orNothingIf !required
    allowReserved := (Entries.get entries "allowReserved").isTrue
    deprecated := (Entries.get entries "deprecated").isTrue
    description := (Entries.get entries "description").text? }

/-- The parameter that a value describes or refers to. -/
def ofValue (doc : Canonical) (v : Value) : Resolving (Option Parameter) := do
  match ← follow doc "parameters" "parameter" v with
  | some entries => ofEntries doc entries
  | none => return none

/-- The two are the same parameter: one overrides the other. -/
def sameKey (p q : Parameter) : Bool := p.name == q.name && p.place == q.place

/-- The parameters with one more, which takes the place of the one it overrides. -/
def merge (ps : List Parameter) (p : Parameter) : List Parameter :=
  if ps.any (·.sameKey p) then ps.map fun q => if q.sameKey p then p else q else ps ++ [p]

/-- The parameters of a path and of an operation on it. -/
def resolveAll (doc : Canonical) (pathLevel operationLevel : Value) :
    Resolving (List Parameter) := do
  let raw := pathLevel.items?.getD [] ++ operationLevel.items?.getD []
  let found ← raw.mapM (ofValue doc)
  return (found.filterMap id).foldl merge []

end Parameter

end ContractSync.Route
