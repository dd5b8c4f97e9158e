import ContractSync.Emit.Text
import ContractSync.Name.Identifier
import ContractSync.Reference.Pointer
import ContractSync.Route.Basic
import ContractSync.Route.Response

/-!
# Handler stubs

A stub is an asynchronous function whose body is left to do. Its comments tell what the response has
to carry.
-/

/-!
## Links of responses

A link is built from the path of the operation that it leads to; the parameters that occur in the path
are filled in from the request.
-/

namespace ContractSync.Emit

open ContractSync.Document
open ContractSync.Route (Link)

/-- The path that a link leads to: the one that its reference names, else the identifier of its
operation. -/
def linkTarget (link : Link) : Except Fault Value :=
  match link.operationRef with
  | .scalar (.text ref) =>
    if ref.isEmpty then .ok (if link.operationId.isPresent then link.operationId else .text "")
    else if ref.startsWith "#" then
      match Reference.Pointer.segments ref with
      | "paths" :: path :: _ => .ok (.text path)
      | _ => .ok (.text ref)
    else .ok (.text ref)
  | .scalar (.bytes (_ :: _)) => .error .unsuited
  | v =>
    if v.isPresent then .error .lacking
    else .ok (if link.operationId.isPresent then link.operationId else .text "")

/-- The text behind `lead`, if it starts so. -/
def after? (lead text : String) : Option String :=
  if lead.toList.isPrefixOf text.toList then some (String.ofList (text.toList.drop lead.length))
  else none

/-- Where the places of a request are found in a handler. -/
def runtimeText (expression : String) : String :=
  match after? "$request.path." expression with
  | some name => Name.snake name
  | none =>
    match after? "$request.query." expression with
    | some name => "query." ++ Name.fieldName name
    | none =>
      match after? "$request.body#/" expression with
      | some name => "body." ++ Name.snake name
      | none => quoted expression

/-- A link as it is built in a handler: its name, the variable that holds it and the statement that
builds it. -/
structure BuiltLink where
  name : String
  holder : String
  statement : String

/-- The arguments for the parameters that occur in a target. -/
def linkArguments (target : Value) (parameters : List (String × String)) :
    Except Fault (List String) := do
  let arguments ← parameters.mapM fun (name, expression) => do
    return if ← target.holdsText ("\x7b" ++ name ++ "\x7d") then
      some (name ++ " = " ++ runtimeText expression)
    else none
  return arguments.filterMap id

/-- The link as it is built in a handler. -/
def buildLink (link : Link) : Except Fault BuiltLink := do
  let .text name := link.name | throw .unsuited
  let name' := Name.snake name
  let holder := "link_" ++ if name'.isEmpty then "target" else name'
  let target ← linkTarget link
  let arguments ← linkArguments target link.parameters
  let text := quoted target.display
  let value :=
    if arguments.isEmpty then text
    else "format!(" ++ text ++ ", " ++ ", ".intercalate arguments ++ ")"
  return ⟨escape name, holder, "let " ++ holder ++ " = " ++ value ++ ";"⟩

end ContractSync.Emit

/-! ## Stubs -/

namespace ContractSync.Emit

open ContractSync.Route (Header)

/-- The imports that stubs need. -/
def handlerImports : List String :=
  ["use actix_web::\x7bweb, HttpResponse, Responder\x7d;",
   "use actix_multipart::Multipart;",
   "use serde::Deserialize;",
   "use serde_json::Value;",
   "use uuid::Uuid;",
   "use chrono::\x7bDateTime, NaiveDate, NaiveDateTime, Utc\x7d;"]

/-- The type of a handler's result. -/
def returnText (route : Route) : String :=
  if !route.responseHeaders.isEmpty || !route.responseLinks.isEmpty then
    "actix_web::Result<HttpResponse>"
  else
    match route.responseType with
    | some type => "actix_web::Result<web::Json<" ++ typeText type ++ ">>"
    | none => "impl Responder"

/-- The lines that build a link and show how to send it. -/
def linkLines (link : BuiltLink) : String :=
  "    " ++ link.statement ++ "\n"
    ++ "    // .append_header((\"Link\", format!(\"<\x7b\x7d>; rel=\\\"" ++ link.name ++ "\\\"\", "
    ++ link.holder ++ ")))\n"

/-- The lines that build the links. -/
def linksBlock (links : List BuiltLink) : String :=
  if links.isEmpty then ""
  else "    // -- Generated Links --\n" ++ String.join (links.map linkLines)
    ++ "    // ---------------------\n\n"

/-- The line that names a header. -/
def headerLine (header : Header) : String :=
  let description := header.description.getD ""
  "    // - " ++ header.name ++ ": " ++ typeText header.type ++ " ("
    ++ (if description.isEmpty then "No description" else description) ++ ")\n"

/-- The lines that name the headers. -/
def headersBlock (headers : List Header) : String :=
  if headers.isEmpty then ""
  else "    // Required Response Headers:\n" ++ String.join (headers.map headerLine)

/-- The lines that show how a response is built. -/
def exampleBlock (route : Route) : String :=
  if route.responseHeaders.isEmpty && route.responseLinks.isEmpty then ""
  else "    // Example:\n    // HttpResponse::[Status]()\n"
    ++ (if route.responseLinks.isEmpty then "" else "    //     .append_header((\"Link\", ...))\n")
    ++ (if route.responseType.isSome then "    //     .json(body)\n" else "    //     .finish()\n")

/-- The stub of a route with the given arguments. -/
def handlerStub (route : Route) (arguments : List String) : Except Fault String := do
  let links ← route.responseLinks.mapM buildLink
  return docComment "" (docLines [route.summary, route.description])
    ++ (if route.deprecated then "#[deprecated]\n" else "")
    ++ "pub async fn " ++ route.handlerName ++ "(" ++ ", ".intercalate arguments ++ ") -> "
    ++ returnText route ++ " \x7b\n"
    ++ linksBlock links ++ headersBlock route.responseHeaders ++ exampleBlock route
    ++ "    todo!()\n\x7d\n"

end ContractSync.Emit
