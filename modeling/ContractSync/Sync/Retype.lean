import ContractSync.Edit.Apply

/-!
# Field type overrides

A table gives other types for some fields. The overrides are applied one after another; one whose
target is missing is skipped with a warning, and a text that is no source text stops the pass.
-/

namespace ContractSync.Sync

/-- Types by declaration and field. -/
abbrev Overrides := List (String × List (String × String))

/-- A single override. -/
structure Override where
  declaration : String
  field : String
  type : String
  deriving DecidableEq, Repr

/-- The overrides of a table, in order. -/
def overridesOf (table : Overrides) : List Override :=
  table.flatMap fun (declaration, fields) =>
    fields.map fun (field, type) => ⟨declaration, field, type⟩

/-- A text and the warnings met on the way to it. -/
structure Retyped where
  source : List Char
  warnings : List String
  deriving DecidableEq, Repr

/-- The error concerns a target that is missing, not the text as a whole. -/
def isMissingTarget (e : SyncError) : Bool :=
  match e.cause with
  | .declarationNotFound _ | .fieldNotFound _ _ => true
  | _ => false

/-- Applies overrides one after another. -/
def retypeAll (path : Option String) (source : List Char) : List Override → Retyped
  | [] => ⟨source, []⟩
  | o :: rest =>
    match Edit.retypeField source o.declaration o.field o.type path with
    | .ok source => retypeAll path source rest
    | .error e =>
      if isMissingTarget e then
        let more := retypeAll path source rest
        let warning :=
          "Skipping retype of " ++ o.declaration ++ "." ++ o.field ++ ": " ++ e.message
        { more with warnings := warning :: more.warnings }
      else ⟨source, ["Stopping field retype: " ++ e.message]⟩

/-- The text with all overrides of a table applied. -/
def retypeFields (source : List Char) (table : Overrides) (path : Option String := none) :
    Retyped :=
  retypeAll path source (overridesOf table)

end ContractSync.Sync
