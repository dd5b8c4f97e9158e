import ContractSync.Document.Json.Reader
import ContractSync.Document.Yaml.Reader
import ContractSync.Error

/-!
# Loading documents

A document is written in YAML or in JSON, and its root is a mapping.
-/

namespace ContractSync.Document

/-- The languages in which documents are written. -/
inductive Notation where
  | yaml
  | json
  deriving DecidableEq, Repr

/-- The value that a text writes. -/
def Notation.read (n : Notation) (text : List Char) : Except Yaml.Refusal Value :=
  match n with
  | yaml => Yaml.read text
  | json =>
    match Json.read text with
    | some v => .ok v
    | none => .error .malformed

/-- The document that a text writes. `path` names its file in errors. -/
def load (n : Notation) (text : List Char) (path : Option String := none) : Except Halt Entries :=
  match n.read text with
  | .ok (.mapping entries) => .ok entries
  | .ok _ => .error (.error ⟨.rootNotMapping, path⟩)
  | .error .malformed => .error (.error ⟨.malformedDocument, path⟩)
  | .error (.fault f) => .error (.fault f)

end ContractSync.Document
