import ContractSync.Document.Display
import ContractSync.Route.Follow

/-!
# Security requirements

An operation's own requirements replace those of the document, even if there are none. Groups of
requirements are taken one after another.
-/

namespace ContractSync.Route

open ContractSync.Contract (Canonical)
open ContractSync.Document

/-- The kinds of security schemes. -/
inductive SchemeKind where
  | apiKey
  | http
  | oauth2
  | openIdConnect
  | mutualTls
  deriving DecidableEq, Repr

namespace SchemeKind

/-- The word for the kind. -/
def word : SchemeKind → String
  | apiKey => "apiKey"
  | http => "http"
  | oauth2 => "oauth2"
  | openIdConnect => "openIdConnect"
  | mutualTls => "mutualTLS"

/-- The kind that a word names. -/
def ofWord? (word : String) : Option SchemeKind :=
  [apiKey, http, oauth2, openIdConnect, mutualTls].find? (·.word == word)

end SchemeKind

/-- What a document says about a security scheme, as it says it. -/
structure Scheme where
  kind : SchemeKind
  parameterName : Value
  location : Value
  scheme : Value
  bearerFormat : Value
  description : Value
  deriving Repr

/-- One scheme that a request has to satisfy. -/
structure Requirement where
  schemeName : Scalar
  scopes : List String
  scheme : Option Scheme
  deriving Repr

namespace Requirement

/-- The scheme that an object describes. -/
def schemeOf (entries : Entries) : Option Scheme := do
  let kind ← (Entries.get entries "type").text?.bind SchemeKind.ofWord?
  return {
    kind, parameterName := Entries.get entries "name", location := Entries.get entries "in"
    scheme := Entries.get entries "scheme", bearerFormat := Entries.get entries "bearerFormat"
    description := Entries.get entries "description" }

/-- The requirement that an entry of a group states. -/
def ofEntry (doc : Canonical) (entry : Scalar × Value) : Resolving Requirement := do
  let raw := (Entries.getKey? (doc.family "securitySchemes") entry.1).getD .null
  let found ← follow doc "securitySchemes" "securitySchemes" raw
  let scopes ← if entry.2.isPresent then entry.2.parts else pure []
  return ⟨entry.1, scopes.map Value.display, found.bind schemeOf⟩

/-- The requirements of an operation. -/
def ofOperation (doc : Canonical) (operation : Entries) : Resolving (List Requirement) := do
  let stated := (Entries.get? operation "security").getD (Entries.get doc.data "security")
  let groups := (stated.items?.getD []).flatMap Value.entries
  groups.mapM (ofEntry doc)

end Requirement

end ContractSync.Route
