import ContractSync.Route.Body
import ContractSync.Text.Digit

/-!
# Responses

Of the responses of an operation the first successful one with JSON content gives the type of the
result; headers and links come from the first one in an order of its own.
-/

namespace ContractSync.Route

open ContractSync.Contract (Canonical)
open ContractSync.Document
open ContractSync.Schema (DataType)

/-- A header of a response. -/
structure Header where
  name : String
  type : DataType
  description : Option String
  deriving Repr

/-- A link from a response to another operation; its parameters are expressions kept as text. -/
structure Link where
  name : Scalar
  operationId : Value
  operationRef : Value
  parameters : List (String × String)
  description : Value
  deriving Repr

/-- What an operation's responses come to. -/
structure Responses where
  status : Option String := none
  bodyType : Option DataType := none
  headers : List Header := []
  links : List Link := []
  deriving Repr

namespace Responses

/-- Responses by status, as text. -/
abbrev ByStatus := List (String × Value)

/-- The responses by status; of equal texts the last counts, at the place of the first. -/
def byStatus (entries : Entries) : ByStatus :=
  (Entries.ofWrites (entries.map fun e => (.text e.1.display, e.2))).map fun e =>
    (e.1.display, e.2)

/-- The status is a three-digit success that has no rank of its own. -/
def isOtherSuccess (status : String) : Bool :=
  let cs := status.toList
  cs.length == 3 && cs.all Text.isDigit && cs.head? == some '2' && status != "200"
    && status != "201"

/-- The statuses of success, in the order in which a result is looked for. -/
def successes (responses : ByStatus) : List String :=
  let has := fun status => responses.any (·.1 == status)
  let others := (responses.map (·.1)).filter isOtherSuccess
  ["200", "201"].filter has ++ others.mergeSort (· ≤ ·) ++ ["2XX", "2xx"].filter has

/-- The order in which headers and links are looked for. -/
def priority : List String := ["200", "201", "2XX", "2xx", "default", "3XX", "3xx"]

/-- The status of the response that gives headers and links. -/
def primary (responses : ByStatus) : Option String :=
  (priority.find? fun status => responses.any (·.1 == status)).or (successes responses).head?

/-- The response of a status. -/
def get (responses : ByStatus) (status : String) : Value :=
  (responses.lookup status).getD .null

/-- The type of the first JSON content with a schema. -/
def jsonType (doc : Canonical) : Entries → Resolving (Option DataType)
  | [] => return none
  | (mediaType, media) :: rest => do
    if MediaType.isJson (← mediaType.asText) then
      if let some schema := media.get? "schema" then
        return some (← Schema.resolve doc Schema.defaultBudget schema)
    jsonType doc rest

/-- The type of the result: that of the first of the statuses that has one. -/
def bodyTypeOf (doc : Canonical) (responses : ByStatus) :
    List String → Resolving (Option DataType)
  | [] => return none
  | status :: rest => do
    let found ←
      match ← follow doc "responses" "responses" (get responses status) with
      | some response => jsonType doc (Entries.get response "content").entries
      | none => pure none
    match found with
    | some type => return some type
    | none => bodyTypeOf doc responses rest

/-- The header that an entry describes; the content type is no header of its own. -/
def header (doc : Canonical) (entry : Scalar × Value) : Resolving (Option Header) := do
  let name ← entry.1.asText
  if String.ofList (Text.lower name.toList) = "content-type" then return none
  let some found ← follow doc "headers" "headers" entry.2 | return none
  let type ←
    match Entries.get found "schema" with
    | .mapping schema => Schema.resolve doc Schema.defaultBudget (.mapping schema)
    | _ => pure .plainString
  return some ⟨name, type, (Entries.get found "description").text?⟩

/-- The link that an entry describes. -/
def link (doc : Canonical) (entry : Scalar × Value) : Resolving (Option Link) := do
  let some found ← follow doc "links" "links" entry.2 | return none
  let parameters ← (Entries.get found "parameters").entriesIfPresent
  return some {
    name := entry.1
    operationId := Entries.get found "operationId"
    operationRef := Entries.get found "operationRef"
    parameters := parameters.map fun (key, v) => (key.display, v.display)
    description := Entries.get found "description" }

/-- The headers of a response. -/
def headersOf (doc : Canonical) (response : Entries) : Resolving (List Header) := do
  let entries ← (Entries.get response "headers").entriesIfPresent
  return (← entries.mapM (header doc)).filterMap id

/-- The links of a response. -/
def linksOf (doc : Canonical) (response : Entries) : Resolving (List Link) := do
  let entries ← (Entries.get response "links").entriesIfPresent
  return (← entries.mapM (link doc)).filterMap id

/-- What the responses of an operation come to. -/
def ofValue (doc : Canonical) (v : Value) : Resolving Responses := do
  let .mapping entries := v | return {}
  let responses := byStatus entries
  let bodyType ← bodyTypeOf doc responses (successes responses)
  let some status := primary responses | return { bodyType }
  match ← follow doc "responses" "responses" (get responses status) with
  | none => return { status, bodyType }
  | some response =>
    let headers ← headersOf doc response
    let links ← linksOf doc response
    return { status, bodyType, headers, links }

end Responses

end ContractSync.Route
