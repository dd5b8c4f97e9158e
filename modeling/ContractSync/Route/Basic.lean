import ContractSync.Name.Unique
import ContractSync.Route.HandlerName
import ContractSync.Route.Parameter
import ContractSync.Route.Response
import ContractSync.Route.Security

/-!
# Routes

A route is one operation of a document with all that is known about it. `Route.ofDocument` lists the
operations under paths and webhooks, in the order of the document; no two get the same handler name
from equal names.
-/

namespace ContractSync

open ContractSync.Contract (Canonical)
open ContractSync.Document
open ContractSync.Schema (DataType)

/-- Where an operation is offered. -/
inductive RouteKind where
  /-- Under a path of the service. -/
  | standard
  /-- By the client, for the service to call. -/
  | webhook
  deriving DecidableEq, Repr

/-- One operation. -/
structure Route where
  path : String
  method : String
  handlerName : String
  params : List Route.Parameter := []
  body : Option Route.RequestBody := none
  security : List Route.Requirement := []
  responseType : Option DataType := none
  responseHeaders : List Route.Header := []
  responseLinks : List Route.Link := []
  kind : RouteKind := .standard
  tags : List String := []
  operationId : Option String := none
  summary : Option String := none
  description : Option String := none
  deprecated : Bool := false
  deriving Repr

namespace Route

/-- The parameters in one place of the request. -/
def paramsIn (r : Route) (place : Place) : List Parameter := r.params.filter (·.place == place)

/-- The string without blank characters around it, if something is left. -/
def textOf (v : Value) : Option String := do
  let s ← v.text?
  if Text.isBlankString s then none else some (Text.trimmed s)

/-- An operation of a path item: its method, in small letters, and its object. -/
abbrev Operation := String × Entries

/-- The operations of a path item: those of the known methods, then additional ones. -/
def operations (item : Entries) : List Operation :=
  let known := Contract.httpMethods.filterMap fun method =>
    (Entries.get item method).entries?.map fun operation => (method, operation)
  let additional := (Entries.get item "additionalOperations").entries.filterMap fun e =>
    e.2.entries?.map fun operation => (lowerMethod e.1.display, operation)
  known ++ additional

/-- The path item that a value describes or refers to. What stands beside a reference overrides what
it refers to. -/
def pathItem (doc : Canonical) (v : Value) : Resolving (Option Entries) := do
  let .mapping entries := v | return none
  match Entries.get entries "$ref" with
  | .scalar (.text ref) =>
    match ← target? doc "pathItems" ref with
    | some (.mapping target) =>
      let beside := Entries.erase entries "$ref"
      return some (beside.foldl (fun item e => Entries.putKey item e.1 e.2) target)
    | _ =>
      noteUnresolved ref "path item"
      return none
  | _ => return some entries

/-- The route of an operation with a given handler name. -/
def ofOperation (doc : Canonical) (kind : RouteKind) (path handlerName : String)
    (item : Entries) (operation : Operation) : Resolving Route := do
  let (method, entries) := operation
  let params ← Parameter.resolveAll doc (Entries.get item "parameters")
    (Entries.get entries "parameters")
  let responses ← Responses.ofValue doc (Entries.get entries "responses")
  let body ← RequestBody.ofValue doc (Entries.get entries "requestBody")
  let security ← Requirement.ofOperation doc entries
  let textAt := fun key => (textOf (Entries.get entries key)).or (textOf (Entries.get item key))
  return {
    path, method, handlerName, params, body, security, kind
    responseType := responses.bodyType
    responseHeaders := responses.headers
    responseLinks := responses.links
    tags := ((Entries.get entries "tags").items?.getD []).map Value.display
    operationId := (Entries.get entries "operationId").text?
    summary := textAt "summary"
    description := textAt "description"
    deprecated := (Entries.get entries "deprecated").isTrue }

/-- The routes of the operations of a path item, their names made distinct by the table. -/
def ofOperations (doc : Canonical) (kind : RouteKind) (path : Scalar) (item : Entries)
    (names : Name.Table) : List Operation → Resolving (List Route × Name.Table)
  | [] => return ([], names)
  | operation :: rest => do
    let path' ← path.asText
    let (name, names) := names.claim (baseHandlerName operation.2 operation.1 path')
    let route ← ofOperation doc kind path' name item operation
    let (routes, names) ← ofOperations doc kind path item names rest
    return (route :: routes, names)

/-- The routes of the paths of a section. -/
def ofPaths (doc : Canonical) (kind : RouteKind) (names : Name.Table) :
    Entries → Resolving (List Route × Name.Table)
  | [] => return ([], names)
  | (path, v) :: rest => do
    let (routes, names) ←
      match ← pathItem doc v with
      | some item => ofOperations doc kind path item names (operations item)
      | none => pure ([], names)
    let (more, names) ← ofPaths doc kind names rest
    return (routes ++ more, names)

/-- The routes of a document. -/
def ofDocument (doc : Canonical) : Resolving (List Route) := do
  let (paths, names) ← ofPaths doc .standard {} (Entries.get doc.data "paths").entries
  let (webhooks, _) ← ofPaths doc .webhook names (Entries.get doc.data "webhooks").entries
  return paths ++ webhooks

end Route

end ContractSync
