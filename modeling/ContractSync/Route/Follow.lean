import ContractSync.Contract.Canonical
import ContractSync.Diagnostics

/-!
# Following references to components

Where an object may be given by reference, the reference is followed once. A target that is no object
or a further reference counts as unresolved.
-/

namespace ContractSync.Route

open ContractSync.Contract (Canonical)
open ContractSync.Document

/-- The value that a reference to a component of a family leads to. -/
def target? (doc : Canonical) (family ref : String) : Except Fault (Option Value) :=
  match doc.componentName ref family with
  | some name => .ok (Entries.get? (doc.family family) name)
  | none => doc.resolveReference ref

/-- The object that a value is or refers to; an unresolved reference is noted as `context`. -/
def follow (doc : Canonical) (family context : String) (v : Value) :
    Resolving (Option Entries) := do
  let .mapping entries := v | return none
  match Entries.get entries "$ref" with
  | .scalar (.text ref) =>
    match ← target? doc family ref with
    | some (.mapping target) =>
      if Entries.has target "$ref" then
        noteUnresolved ref context
        return none
      return some target
    | _ =>
      noteUnresolved ref context
      return none
  | _ => return some entries

end ContractSync.Route
