import ContractSync.Document.Value
import ContractSync.Name.Identifier
import ContractSync.Text.CaseMap

/-!
# Names of handlers

A handler is named for the operation's own identifier or, if that says nothing, for its method and
path.
-/

namespace ContractSync.Route

open ContractSync.Document

/-- A method in small letters. -/
def lowerMethod (method : String) : String := String.ofList (Text.lower method.toList)

/-- The handler name that method and path suggest: their words, braces of variables left out. -/
def derivedName (method path : String) : String :=
  let path := path.toList.filter fun c => c != '\x7b' && c != '\x7d'
  if path.any Char.isAlphanum then Name.snake (lowerMethod method ++ "_" ++ String.ofList path)
  else lowerMethod method

/-- The handler name of an operation, not yet made unique. -/
def baseHandlerName (operation : Entries) (method path : String) : String :=
  let derived := derivedName method path
  Name.functionName <|
    match (Entries.get operation "operationId").text? with
    | some identifier =>
      if Text.isBlankString identifier then derived else Name.slug identifier derived
    | none => derived

end ContractSync.Route
