import ContractSync.Contract.SchemaPass
import ContractSync.Document.Alike
import ContractSync.Document.Display
import ContractSync.Error
import ContractSync.Reference.Basic

/-!
# Lifting Swagger documents

A Swagger 2.0 document is brought into the layout of OpenAPI 3: definitions, parameters and responses
become components, body and form parameters become request bodies, and references follow their
targets.
-/

namespace ContractSync.Contract

open ContractSync.Document

/-- The methods of a path that can hold an operation, in the order in which they are visited. -/
def httpMethods : List String :=
  ["get", "put", "post", "delete", "options", "head", "patch", "trace", "query"]

namespace Lift

/-! ### References -/

/-- Where the targets of references move. -/
def moves : List (String × String) :=
  [("#/definitions/", "#/components/schemas/"), ("#/parameters/", "#/components/parameters/"),
   ("#/responses/", "#/components/responses/")]

/-- The reference to where its target has moved. -/
def moveReference (ref : String) : String :=
  match moves.find? fun move => move.1.toList.isPrefixOf ref.toList with
  | some (old, new) => new ++ String.ofList (ref.toList.drop old.length)
  | none => ref

mutual

/-- Moves all references in a value, examples aside. -/
def moveReferences : Value → Value
  | .mapping entries => .mapping (moveInEntries entries)
  | .list items => .list (moveInItems items)
  | .scalar s => .scalar s
  | .set members => .set members

/-- Moves all references in the entries of a mapping. -/
def moveInEntries : List (Scalar × Value) → List (Scalar × Value)
  | [] => []
  | (key, v) :: rest =>
    let moved :=
      match v with
      | .scalar (.text ref) => if key = .text "$ref" then .text (moveReference ref) else .text ref
      | v => if isLiteralKey key then v else moveReferences v
    (key, moved) :: moveInEntries rest

/-- Moves all references in the items of a list. -/
def moveInItems : List Value → List Value
  | [] => []
  | v :: rest => moveReferences v :: moveInItems rest

end

/-! ### Parameters -/

/-- The keywords of a parameter that describe its type. -/
def typeKeywords : List String :=
  ["type", "format", "items", "enum", "default", "maximum", "minimum", "exclusiveMaximum",
   "exclusiveMinimum", "maxLength", "minLength", "pattern", "maxItems", "minItems", "uniqueItems",
   "multipleOf", "x-nullable"]

/-- The schema of a file. -/
def fileSchema : Value := .object [("type", .text "string"), ("format", .text "binary")]

/-- The schema that the type keywords of a parameter make up. -/
def typeSchema (param : Entries) : Entries :=
  let schema : Entries :=
    typeKeywords.filterMap fun key => (Entries.get? param key).map fun v => (.text key, v)
  let schema :=
    if Entries.get schema "type" = .text "file" then
      Entries.put (Entries.put schema "type" (.text "string")) "format" (.text "binary")
    else schema
  if (Entries.get schema "items").get "type" = .text "file" then
    Entries.put schema "items" fileSchema
  else schema

/-- The parameter without its type keywords. -/
def withoutType (param : Entries) : Entries := typeKeywords.foldl Entries.erase param

/-- A parameter or a header with its type keywords gathered in a schema. -/
def param (v : Value) : Value :=
  match v with
  | .mapping entries =>
    if Entries.has entries "$ref" || Entries.has entries "schema" then v
    else .mapping (Entries.put (withoutType entries) "schema" (.mapping (typeSchema entries)))
  | _ => v

/-- A mapping from each media type to the same content. -/
def content (mediaTypes : Value) (schema : Value) : Except Fault Value := do
  let keys ← (← mediaTypes.parts).mapM Value.asKey
  return .mapping (Entries.ofWrites (keys.map fun key => (key, .object [("schema", schema)])))

/-- An entry, if the value is present. -/
def present (key : String) (v : Value) : Entries := if v.isPresent then [(.text key, v)] else []

/-- A `required` entry, if the value is present. -/
def requiredIf (v : Bool) : Entries := if v then [(.text "required", .bool true)] else []

/-- The request body that a body parameter describes. -/
def bodyParam (entries : Entries) (consumes : Value) : Except Fault Value := do
  let schema := (Entries.get? entries "schema").getD (.mapping [])
  return .mapping ([(.text "content", ← content consumes schema)]
    ++ present "description" (Entries.get entries "description")
    ++ requiredIf (Entries.get entries "required").isPresent)

/-- What form parameters add up to. -/
structure Form where
  properties : Entries := []
  required : List Value := []
  hasFile : Bool := false

/-- The form with one more parameter. -/
def Form.add (form : Form) (entries : Entries) : Except Fault Form := do
  let schema := typeSchema entries
  let hasFile := form.hasFile || Entries.get schema "format" == .text "binary"
  let description := Entries.get entries "description"
  let schema := if description.isPresent then Entries.put schema "description" description else schema
  let some name := Entries.get? entries "name" | throw .missing
  let properties := Entries.putKey form.properties (← name.asKey) (.mapping schema)
  let required :=
    if (Entries.get entries "required").isPresent then form.required ++ [name] else form.required
  return ⟨properties, required, hasFile⟩

/-- The request body that form parameters describe. -/
def formParams (params : List Entries) (consumes : Value) : Except Fault Value := do
  let form ← params.foldlM Form.add {}
  let multipart ← if form.hasFile then pure true else consumes.holdsText "multipart/form-data"
  let mediaType := if multipart then "multipart/form-data" else "application/x-www-form-urlencoded"
  let isRequired := !form.required.isEmpty
  let schema : Value := .mapping ([(.text "type", .text "object"),
      (.text "properties", .mapping form.properties)]
    ++ if isRequired then [(.text "required", .list form.required)] else [])
  return .mapping ([(.text "content", .object [(mediaType, .object [("schema", schema)])])]
    ++ requiredIf isRequired)

/-- The parameters that stay parameters, and the request body that the others describe. -/
structure Params where
  kept : List Value := []
  body : Option Value := none
  form : List Entries := []

/-- Takes up one parameter. `bodies` are the names of components that became request bodies. -/
def Params.add (consumes : Value) (bodies : List Scalar) (params : Params) (v : Value) :
    Except Fault Params :=
  match v with
  | .mapping entries =>
    match Entries.get entries "$ref" with
    | .scalar (.text ref) =>
      let name := Reference.componentName ref none "parameters"
      let key := (name.map Scalar.text).getD .null
      if bodies.any key.sameKey then
        .ok { params with
          body := some (.object [("$ref", .text ("#/components/requestBodies/" ++ key.display))]) }
      else .ok { params with kept := params.kept ++ [v] }
    | _ =>
      let location := Entries.get entries "in"
      if location = .text "body" then do
        return { params with body := some (← bodyParam entries consumes) }
      else if location = .text "formData" then
        .ok { params with form := params.form ++ [entries] }
      else .ok { params with kept := params.kept ++ [param v] }
  | _ => .ok params

/-- Divides the parameters of an operation or a path into those that stay and a request body. Form
parameters count only if nothing else describes the body. -/
def params (vs : List Value) (consumes : Value) (bodies : List Scalar) :
    Except Fault (List Value × Option Value) := do
  let found ← vs.foldlM (Params.add consumes bodies) {}
  match found.body with
  | some body => return (found.kept, some body)
  | none =>
    if found.form.isEmpty then return (found.kept, none)
    else return (found.kept, some (← formParams found.form consumes))

/-! ### Responses and security -/

/-- A response with its schema under each media type it can have. -/
def response (v : Value) (produces : Value) : Except Fault Value := do
  let .mapping entries := v | return v
  if Entries.has entries "$ref" then return v
  let withContent ←
    match Entries.get? entries "schema" with
    | some schema => do
      pure (Entries.put (Entries.erase entries "schema") "content" (← content produces schema))
    | none => pure entries
  let bare := Entries.erase withContent "examples"
  match Entries.get bare "headers" with
  | .mapping headers =>
    return .mapping (Entries.put bare "headers" (.mapping (headers.map fun h => (h.1, param h.2))))
  | _ => return .mapping bare

/-- All responses of a mapping. -/
def responses (entries : Entries) (produces : Value) : Except Fault Entries :=
  entries.mapM fun e => do return (e.1, ← response e.2 produces)

/-- The names of the authorization flows. -/
def flowNames : List (String × String) :=
  [("implicit", "implicit"), ("password", "password"), ("application", "clientCredentials"),
   ("accessCode", "authorizationCode")]

/-- The new name of an authorization flow. -/
def flowName (flow : Value) : Except Fault String := do
  match ← flow.asKey with
  | .text s => return (flowNames.lookup s).getD "implicit"
  | _ => return "implicit"

/-- An entry of the scheme under the same key, if there is one. -/
def copied (entries : Entries) (key : String) : Entries :=
  ((Entries.get? entries key).map fun v => (Scalar.text key, v)).toList

/-- A security scheme; `basic` becomes an HTTP scheme, the one flow of `oauth2` one of several. -/
def securityScheme (v : Value) : Except Fault Value := do
  let .mapping entries := v | return v
  let kind := Entries.get entries "type"
  let lifted ←
    if kind = .text "basic" then
      pure [(Scalar.text "type", Value.text "http"), (.text "scheme", .text "basic")]
    else if kind = .text "oauth2" then do
      let flow : Entries := (.text "scopes", (Entries.get? entries "scopes").getD (.mapping []))
        :: (copied entries "authorizationUrl" ++ copied entries "tokenUrl")
      let name ← flowName ((Entries.get? entries "flow").getD (.text ""))
      pure [(Scalar.text "type", Value.text "oauth2"), (.text "flows", .object [(name, .mapping flow)])]
    else pure (Entries.erase entries "description")
  return .mapping (lifted ++ present "description" (Entries.get entries "description"))

/-! ### Paths -/

/-- The value, or another one in its place if it is not present. -/
def orElse (v fallback : Value) : Value := if v.isPresent then v else fallback

/-- An operation with its parameters divided and its responses lifted. -/
def operation (entries : Entries) (consumes produces : Value) (bodies : List Scalar)
    (shared : Option Value) : Except Fault Entries := do
  let consumes := orElse (Entries.get entries "consumes") consumes
  let produces := orElse (Entries.get entries "produces") produces
  let entries := Entries.erase (Entries.erase entries "consumes") "produces"
  let entries ←
    match Entries.get entries "parameters" with
    | .list vs => do
      let (kept, body) ← params vs consumes bodies
      let entries := Entries.put entries "parameters" (.list kept)
      pure (match body with
        | some body => Entries.put entries "requestBody" body
        | none => entries)
    | _ => pure entries
  let entries :=
    match shared with
    | some body => Entries.putNew entries "requestBody" body
    | none => entries
  match Entries.get entries "responses" with
  | .mapping found =>
    return Entries.put entries "responses" (.mapping (← responses found produces))
  | _ => return entries

/-- A path item with the operation of one method lifted. -/
def method (consumes produces : Value) (bodies : List Scalar) (shared : Option Value)
    (item : Entries) (name : String) : Except Fault Entries := do
  match Entries.get item name with
  | .mapping entries =>
    return Entries.put item name (.mapping (← operation entries consumes produces bodies shared))
  | _ => return item

/-- A path item with its parameters divided and its operations lifted. A request body that the path
describes goes to every operation without one. -/
def pathItem (consumes produces : Value) (bodies : List Scalar) (item : Entries) :
    Except Fault Entries := do
  let (item, shared) ←
    match Entries.get item "parameters" with
    | .list vs => do
      let (kept, body) ← params vs consumes bodies
      pure (Entries.put item "parameters" (.list kept), body)
    | _ => pure (item, none)
  httpMethods.foldlM (method consumes produces bodies shared) item

/-- All path items of a mapping. -/
def pathItems (consumes produces : Value) (bodies : List Scalar) (v : Value) :
    Except Fault Value := do
  match v with
  | .mapping entries =>
    let lifted ← entries.mapM fun e =>
      match e.2 with
      | .mapping item => do
        return (e.1, Value.mapping (← pathItem consumes produces bodies item))
      | other => pure (e.1, other)
    return .mapping lifted
  | _ => return v

/-! ### The document -/

/-- The components with one family set; only a mapping can take it. -/
def setFamily (components : Value) (family : String) (content : Value) : Except Fault Value :=
  match components with
  | .mapping entries => .ok (.mapping (Entries.put entries family content))
  | _ => .error .unsuited

/-- A document part way through: what is left of it, its components, and the names of the parameters
that became request bodies. -/
structure Progress where
  rest : Entries
  components : Value
  bodies : List Scalar := []

/-- Takes an entry out of the document if it is a mapping. -/
def takeMapping (document : Entries) (key : String) : Option (Entries × Entries) :=
  match Entries.get? document key with
  | some (.mapping found) => some (found, Entries.erase document key)
  | _ => none

/-- The definitions become components. -/
def definitions (p : Progress) : Except Fault Progress := do
  match Entries.get? p.rest "definitions" with
  | some found =>
    return { p with
      rest := Entries.erase p.rest "definitions"
      components := ← setFamily p.components "schemas" found }
  | none => return p

/-- The entry is a body parameter. -/
def isBodyParam (v : Value) : Bool := v.get "in" == .text "body"

/-- A family of components, unless it is empty. -/
def setUnlessEmpty (components : Value) (family : String) (content : Entries) :
    Except Fault Value :=
  if content.isEmpty then .ok components else setFamily components family (.mapping content)

/-- The parameters become components, those of the body as request bodies. -/
def parameters (consumes : Value) (p : Progress) : Except Fault Progress := do
  match takeMapping p.rest "parameters" with
  | some (found, rest) =>
    let (bodies, others) := found.partition fun e => isBodyParam e.2
    let requestBodies ← bodies.mapM fun e => do return (e.1, ← bodyParam e.2.entries consumes)
    let components ← setUnlessEmpty p.components "parameters" (others.map fun e => (e.1, param e.2))
    let components ← setUnlessEmpty components "requestBodies" requestBodies
    return ⟨rest, components, bodies.map (·.1)⟩
  | none => return p

/-- The responses become components. -/
def sharedResponses (produces : Value) (p : Progress) : Except Fault Progress := do
  match takeMapping p.rest "responses" with
  | some (found, rest) =>
    let lifted ← responses found produces
    return { p with rest, components := ← setFamily p.components "responses" (.mapping lifted) }
  | none => return p

/-- The security definitions become components. -/
def securityDefinitions (p : Progress) : Except Fault Progress := do
  match takeMapping p.rest "securityDefinitions" with
  | some (found, rest) =>
    let lifted ← found.mapM fun e => do return (e.1, ← securityScheme e.2)
    return { p with rest, components := ← setFamily p.components "securitySchemes" (.mapping lifted) }
  | none => return p

/-- The server addresses that host, base path and schemes make up. -/
def servers (host basePath schemes : Value) : Except Fault (Option Value) := do
  if host.isPresent then
    let path := if basePath.isPresent then basePath.display else ""
    let urls := (← schemes.parts).map fun scheme =>
      Value.object [("url", .text (scheme.display ++ "://" ++ host.display ++ path))]
    return some (.list urls)
  else if basePath.isPresent then return some (.list [.object [("url", basePath)]])
  else return none

/-- The document with its paths lifted. -/
def withPaths (consumes produces : Value) (bodies : List Scalar) (entries : Entries) :
    Except Fault Entries := do
  match Entries.get? entries "paths" with
  | some paths => return Entries.put entries "paths" (← pathItems consumes produces bodies paths)
  | none => return entries

/-- The JSON media type, as a list of its own. -/
def jsonOnly : Value := .list [.text "application/json"]

/-- The document in the layout of OpenAPI 3. -/
def document (entries : Entries) : Except Fault Entries := do
  let entries := moveInEntries entries
  let consumes := orElse (Entries.get entries "consumes") jsonOnly
  let produces := orElse (Entries.get entries "produces") jsonOnly
  let entries := Entries.erase (Entries.erase entries "consumes") "produces"
  let entries := Entries.putNew entries "components" (.mapping [])
  let p ← definitions ⟨entries, Entries.get entries "components", []⟩
  let p ← parameters consumes p
  let p ← sharedResponses produces p
  let p ← securityDefinitions p
  let entries := Entries.put p.rest "components" p.components
  let schemes := orElse (Entries.get entries "schemes") (.list [.text "https"])
  let addresses ← servers (Entries.get entries "host") (Entries.get entries "basePath") schemes
  let entries := ["host", "basePath", "schemes"].foldl Entries.erase entries
  let entries :=
    match addresses with
    | some addresses => Entries.put entries "servers" addresses
    | none => entries
  let entries ← withPaths consumes produces p.bodies entries
  return (.text "openapi", .text "3.0.3") :: Entries.erase entries "swagger"

end Lift

end ContractSync.Contract
