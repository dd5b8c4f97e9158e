import ContractSync.Emit.Text
import ContractSync.Name.Identifier
import ContractSync.Route.Basic
import ContractSync.Route.Template

/-!
# Arguments of handlers

A handler takes the parts of a request as arguments, each through an extractor type: path, query,
headers, cookies, body and authentication, in this order.
-/

namespace ContractSync.Emit

open ContractSync.Document (Scalar)
open ContractSync.Route (Place RequestBody Requirement)

/-- An argument with its type. -/
def argument (name type : String) : String := name ++ ": " ++ type

/-- Several types as one. -/
def tupleText : List String → String
  | [type] => type
  | types => "(" ++ ", ".intercalate types ++ ")"

/-- The type of each variable of the path; without a parameter of its name it is a string. -/
def pathTypes (route : Route) : List String :=
  let params := route.paramsIn .path
  (Route.variableNames route.path).map fun name =>
    match params.find? (·.name == name) with
    | some p => typeText p.type.required
    | none => "String"

/-- The argument for the variables of the path. -/
def pathArgument (route : Route) : Option String :=
  match Route.variableNames route.path with
  | [] => none
  | names =>
    let name :=
      match names with
      | [name] => Name.fieldName name
      | _ => "path"
    some (argument name ("web::Path<" ++ tupleText (pathTypes route) ++ ">"))

/-- The argument for the query: a parameter that is the whole query string, or a structure for all
query parameters. -/
def queryArgument (route : Route) (queryStruct : Option String) : Option String :=
  match route.paramsIn .queryString, route.paramsIn .query with
  | p :: _, _ =>
    some (argument (Name.fieldName p.name) ("web::Query<" ++ typeText p.type.required ++ ">"))
  | [], _ :: _ => some (argument "query" ("web::Query<" ++ queryStruct.getD "Value" ++ ">"))
  | [], [] => none

/-- The type that extracts a body. -/
def bodyExtractor (body : RequestBody) : String :=
  let extractor :=
    match body.format with
    | .json => "web::Json<" ++ typeText body.type ++ ">"
    | .form => "web::Form<" ++ typeText body.type ++ ">"
    | .multipart => "Multipart"
    | .text => "String"
    | .binary => "web::Bytes"
  if body.required then extractor else "Option<" ++ extractor ++ ">"

/-- The type that stands for a security scheme. -/
def schemeText (name : String) : String :=
  let name := Name.pascal name
  "security::" ++ if name.isEmpty then "Auth" else name

/-- The argument that guards a handler by the first of its requirements. -/
def securityArgument : List Requirement → Except Fault (Option String)
  | [] => .ok none
  | r :: _ =>
    match r.schemeName with
    | .text name =>
      let scheme := schemeText name
      let scopes := r.scopes.map fun scope => "security::scopes::" ++ Name.pascal scope
      let inner :=
        if scopes.isEmpty then scheme
        else "security::Authenticated<" ++ scheme ++ ", " ++ tupleText scopes ++ ">"
      .ok (some (argument "_auth" ("web::ReqData<" ++ inner ++ ">")))
    | _ => .error .unsuited

/-- The arguments of a handler; `queryStruct` is the structure of its query parameters. -/
def handlerArguments (route : Route) (queryStruct : Option String) :
    Except Fault (List String) := do
  let security ← securityArgument route.security
  let headers := (route.paramsIn .header).map fun p =>
    argument (Name.fieldName p.name) "web::Header<String>"
  let cookies := (route.paramsIn .cookie).map fun p => argument (Name.fieldName p.name) "web::Cookie"
  let body := route.body.map fun body => argument "body" (bodyExtractor body)
  return (pathArgument route).toList ++ (queryArgument route queryStruct).toList ++ headers
    ++ cookies ++ body.toList ++ security.toList

end ContractSync.Emit
