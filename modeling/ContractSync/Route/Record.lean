import ContractSync.Route.Basic

/-!
# Routes as values

A route can be shown as a value with an entry for each thing that is known of it.
-/

namespace ContractSync

open ContractSync.Document
open ContractSync.Schema (DataType VariantLabel)

/-- The text, or null. -/
def Document.Value.ofText? (s : Option String) : Value := (s.map Value.text).getD .null

/-- A list of texts. -/
def Document.Value.texts (ss : List String) : Value := .list (ss.map .text)

/-- What `f` makes of a value, or null. -/
def Document.Value.orNull (f : α → Value) (a : Option α) : Value := (a.map f).getD .null

namespace Schema

/-- The record of a member of a union; `type` is the record of its type. -/
def VariantLabel.record (label : VariantLabel) (type : Value) : Value :=
  .object [("name", .text label.name), ("type", type), ("rename", .ofText? label.rename),
    ("aliases", .texts label.aliases), ("deprecated", .bool label.deprecated),
    ("description", .ofText? label.description)]

/-- The record of a type of some kind. -/
structure TypeRecord where
  kind : String
  scalar : Option String := none
  format : Option String := none
  name : Option String := none
  inner : Value := .null
  variants : List Value := []
  discriminator : Option String := none

/-- The record as a value. -/
def TypeRecord.toValue (r : TypeRecord) : Value :=
  .object [("kind", .text r.kind), ("scalar", .ofText? r.scalar), ("format", .ofText? r.format),
    ("name", .ofText? r.name), ("inner", r.inner), ("variants", .list r.variants),
    ("discriminator", .ofText? r.discriminator)]

namespace DataType

mutual

/-- The record of a type. -/
def record : DataType → Value
  | .scalar kind format => { kind := "scalar", scalar := kind.word, format : TypeRecord }.toValue
  | .array inner => { kind := "array", inner := record inner : TypeRecord }.toValue
  | .map inner => { kind := "map", inner := record inner : TypeRecord }.toValue
  | .optional inner => { kind := "optional", inner := record inner : TypeRecord }.toValue
  | .reference name => { kind := "reference", name : TypeRecord }.toValue
  | .union variants discriminator =>
    { kind := "union", variants := recordVariants variants, discriminator : TypeRecord }.toValue
  | .dynamic => { kind := "dynamic" : TypeRecord }.toValue
  | .unknown ref => { kind := "unknown_reference", name := ref : TypeRecord }.toValue

/-- The records of the members of a union. -/
def recordVariants : List (VariantLabel × DataType) → List Value
  | [] => []
  | (label, type) :: rest => label.record (record type) :: recordVariants rest

end

end DataType

end Schema

namespace Route

/-- The record of a parameter. -/
def Parameter.record (p : Parameter) : Value :=
  .object [("name", .text p.name), ("source", .text p.place.word), ("type", p.type.record),
    ("required", .bool p.required), ("style", .text p.style.word), ("explode", .bool p.explode),
    ("allow_reserved", .bool p.allowReserved), ("deprecated", .bool p.deprecated),
    ("description", .ofText? p.description), ("content_media_type", .orNull .scalar p.mediaType)]

/-- The record of a body. -/
def RequestBody.record (b : RequestBody) : Value :=
  .object [("type", b.type.record), ("media_type", .text b.mediaType),
    ("format", .text b.format.word), ("required", .bool b.required),
    ("description", .ofText? b.description)]

/-- The record of a header. -/
def Header.record (h : Header) : Value :=
  .object [("name", .text h.name), ("type", h.type.record),
    ("description", .ofText? h.description)]

/-- The record of a link. -/
def Link.record (l : Link) : Value :=
  .object [("name", .scalar l.name), ("operation_id", l.operationId),
    ("operation_ref", l.operationRef),
    ("parameters", .list (l.parameters.map fun p => .texts [p.1, p.2])),
    ("description", l.description)]

/-- The record of a scheme. -/
def Scheme.record (s : Scheme) : Value :=
  .object [("kind", .text s.kind.word), ("parameter_name", s.parameterName),
    ("location", s.location), ("scheme", s.scheme), ("bearer_format", s.bearerFormat),
    ("description", s.description)]

/-- The record of a requirement. -/
def Requirement.record (q : Requirement) : Value :=
  .object [("scheme_name", .scalar q.schemeName), ("scopes", .texts q.scopes),
    ("scheme", .orNull Scheme.record q.scheme)]

end Route

/-- The word for a kind of routes. -/
def RouteKind.word : RouteKind → String
  | standard => "standard"
  | webhook => "webhook"

/-- The record of a route. -/
def Route.record (r : Route) : Value :=
  .object [("path", .text r.path), ("method", .text r.method),
    ("handler_name", .text r.handlerName), ("params", .list (r.params.map Parameter.record)),
    ("request_body", .orNull RequestBody.record r.body),
    ("security", .list (r.security.map Requirement.record)),
    ("response_type", .orNull DataType.record r.responseType),
    ("response_headers", .list (r.responseHeaders.map Header.record)),
    ("response_links", .list (r.responseLinks.map Link.record)), ("kind", .text r.kind.word),
    ("tags", .texts r.tags), ("operation_id", .ofText? r.operationId),
    ("summary", .ofText? r.summary), ("description", .ofText? r.description),
    ("deprecated", .bool r.deprecated)]

end ContractSync
