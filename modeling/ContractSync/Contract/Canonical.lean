import ContractSync.Contract.Lift
import ContractSync.Contract.SchemaPass
import ContractSync.Document.Display
import ContractSync.Error

/-!
# Canonical documents

`normalize` brings a document of any dialect into one form: Swagger documents are lifted into the
layout of OpenAPI 3, then the passes run over all schemas. A canonical document answers questions
about its components and follows references inside itself.
-/

/-!
## Dialects

A document says in its version field which dialect it is written in.
-/

namespace ContractSync.Contract

open ContractSync.Document

/-- The dialects that are understood. -/
inductive Dialect where
  /-- OpenAPI 3, with the version as written. -/
  | openApi (version : String)
  /-- Swagger 2.0. -/
  | swagger
  deriving DecidableEq, Repr

namespace Dialect

/-- The dialect's name and version. -/
def name : Dialect → String
  | openApi version => "openapi-" ++ version
  | swagger => "swagger-2.0"

/-- The dialect of a document. -/
def detect (document : Entries) : Except DialectProblem Dialect :=
  match Entries.get? document "openapi" with
  | some v =>
    let version := v.display
    if "3.".toList.isPrefixOf version.toList then .ok (.openApi version)
    else .error (.unsupported "openapi" version)
  | none =>
    match Entries.get? document "swagger" with
    | some v =>
      let version := v.display
      if version = "2.0" then .ok .swagger else .error (.unsupported "swagger" version)
    | none => .error .missing

end Dialect

end ContractSync.Contract

/-! ## The canonical form -/

namespace ContractSync.Contract

open ContractSync.Document

/-- A document in canonical form. -/
structure Canonical where
  data : Entries
  dialect : Dialect
  /-- What the document calls itself. -/
  self : Option String := none

/-- Why a document has no canonical form. -/
inductive Unusable where
  | dialect (problem : DialectProblem)
  | fault (fault : Fault)
  deriving DecidableEq, Repr

/-- The document after all passes. -/
def runPasses (data : Entries) : Except Fault Entries :=
  passes.foldlM (fun data pass => rewriteDocument pass data) data

/-- The document in the layout of OpenAPI 3. -/
def toOpenApi (dialect : Dialect) (document : Entries) : Except Fault Entries :=
  match dialect with
  | .swagger => Lift.document document
  | .openApi _ => .ok document

/-- The canonical form of a document. -/
def normalize (document : Entries) : Except Unusable Canonical := do
  let dialect ← (Dialect.detect document).mapError .dialect
  let lifted ← (toOpenApi dialect document).mapError .fault
  let data ← (runPasses lifted).mapError .fault
  return ⟨data, dialect, (Entries.get data "$self").text?⟩

namespace Canonical

/-- The components of the document. -/
def components (c : Canonical) : Entries := (Entries.get c.data "components").entries

/-- One family of components. -/
def family (c : Canonical) (name : String) : Entries := (Entries.get c.components name).entries

/-- The named schemas. -/
def schemas (c : Canonical) : Entries := c.family "schemas"

/-- The value that a reference leads to inside the document. -/
def resolveReference (c : Canonical) (ref : String) : Except Fault (Option Value) :=
  match Reference.toLocal ref c.self with
  | some pointer => Reference.Pointer.resolve (.mapping c.data) pointer
  | none => .ok none

/-- The name of the component of a family that a reference leads to. -/
def componentName (c : Canonical) (ref family : String) : Option String :=
  Reference.componentName ref c.self family

end Canonical

end ContractSync.Contract
