import ContractSync.Route.Follow
import ContractSync.Schema.Resolve
import ContractSync.Text.CaseMap

/-!
# Request bodies

Of the representations that an operation accepts one is chosen: by the format of its media type, and
among those of one format the first.
-/

namespace ContractSync.Route

open ContractSync.Contract (Canonical)
open ContractSync.Document
open ContractSync.Schema (DataType)

/-- The formats of bodies, in the order of preference. -/
inductive BodyFormat where
  | json
  | form
  | multipart
  | text
  | binary
  deriving DecidableEq, Repr

namespace BodyFormat

/-- The word for the format. -/
def word : BodyFormat → String
  | json => "json"
  | form => "form"
  | multipart => "multipart"
  | text => "text"
  | binary => "binary"

/-- The rank of the format; the lowest is preferred. -/
def rank : BodyFormat → Nat
  | json => 0
  | form => 1
  | multipart => 2
  | text => 3
  | binary => 4

end BodyFormat

namespace MediaType

/-- The media type without its parameters, in small letters. -/
def base (mediaType : String) : List Char :=
  Text.lower (Text.trim (Text.cutAt ';' mediaType.toList).1)

/-- Content of the media type is JSON. -/
def isJsonBase (base : List Char) : Bool :=
  base == "application/json".toList || "+json".toList.reverse.isPrefixOf base.reverse

/-- Content of the media type is JSON. -/
def isJson (mediaType : String) : Bool := isJsonBase (base mediaType)

/-- The format of content of a media type. -/
def format (mediaType : String) : BodyFormat :=
  let base := base mediaType
  if isJsonBase base then .json
  else if base == "application/x-www-form-urlencoded".toList then .form
  else if "multipart/".toList.isPrefixOf base then .multipart
  else if "text/".toList.isPrefixOf base then .text
  else .binary

end MediaType

/-- The chosen representation of a request body. -/
structure RequestBody where
  type : DataType
  mediaType : String
  format : BodyFormat
  required : Bool
  description : Option String
  deriving Repr

namespace RequestBody

/-- One way to represent a body. -/
structure Candidate where
  format : BodyFormat
  mediaType : String
  media : Value

/-- The ways that a mapping of media types offers. -/
def candidates (content : Entries) : Except Fault (List Candidate) :=
  content.mapM fun (mediaType, media) => do
    let mediaType ← mediaType.asText
    return ⟨MediaType.format mediaType, mediaType, media⟩

/-- The most preferred candidate, the first of several. -/
def choose : List Candidate → Option Candidate
  | [] => none
  | c :: rest =>
    match choose rest with
    | some d => if d.format.rank < c.format.rank then some d else some c
    | none => some c

/-- The type of content without a schema. -/
def defaultType : BodyFormat → DataType
  | .text => .plainString
  | .binary => .scalar .string (some "binary")
  | _ => .dynamic

/-- The body that a value describes or refers to. -/
def ofValue (doc : Canonical) (v : Value) : Resolving (Option RequestBody) := do
  let some body ← follow doc "requestBodies" "requestBodies" v | return none
  let .mapping content := Entries.get body "content" | return none
  let some chosen := choose (← candidates content) | return none
  let schema := chosen.media.get "schema"
  let type ←
    if schema.isNull then pure (defaultType chosen.format)
    else Schema.resolve doc Schema.defaultBudget schema
  return some {
    type, mediaType := chosen.mediaType, format := chosen.format
    required := (Entries.get body "required").isTrue
    description := (Entries.get body "description").text? }

end RequestBody

end ContractSync.Route
