import ContractSync.Edit.Apply
import ContractSync.Emit.Extractor
import ContractSync.Emit.Handler
import ContractSync.Emit.QueryStruct
import ContractSync.Error
import ContractSync.Sync.Block

/-!
# Modules of handlers

A module of handlers only grows: a stub is appended for each route whose handler is not there yet,
with the structure of its query parameters in front of it. What stands in the module stays.
-/

namespace ContractSync.Sync

/-- A module in the making: its text, and the names of the functions and structures in it. -/
structure HandlerModule where
  source : List Char
  functions : List String
  structs : List String

namespace HandlerModule

/-- A module without handlers. -/
def fresh : HandlerModule :=
  ⟨("\n".intercalate Emit.handlerImports ++ "\n").toList, [], []⟩

/-- The module that a text holds; a blank text stands for a fresh one. -/
def ofSource (source : List Char) (path : Option String) : Except SyncError HandlerModule :=
  if Text.isAllBlank source then .ok fresh
  else do
    let tree ← Edit.readSource source path
    return ⟨source, tree.functionNames, tree.structNames⟩

/-- The module with the structure of a route's query parameters, and the name of the structure. -/
def withQueryStruct (m : HandlerModule) (route : Route) : HandlerModule × Option String :=
  match Emit.queryStruct route with
  | none => (m, none)
  | some (name, code) =>
    if m.structs.contains name then (m, some name)
    else
      ({ m with source := appendBlock m.source code.toList, structs := name :: m.structs }, some name)

/-- The module with a handler for a route. -/
def addRoute (m : HandlerModule) (route : Route) : Except Fault HandlerModule := do
  if m.functions.contains route.handlerName then return m
  let (m, query) := m.withQueryStruct route
  let stub ← Emit.handlerStub route (← Emit.handlerArguments route query)
  return { m with
    source := appendBlock m.source stub.toList, functions := route.handlerName :: m.functions }

end HandlerModule

/-- The text of a module with handlers for all routes. -/
def updateHandlers (source : List Char) (routes : List Route) (path : Option String := none) :
    Except Halt (List Char) := do
  let start ← (HandlerModule.ofSource source path).mapError .error
  let result ← (routes.foldlM HandlerModule.addRoute start).mapError .fault
  return result.source

end ContractSync.Sync
