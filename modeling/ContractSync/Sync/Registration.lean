import ContractSync.Edit.Apply
import ContractSync.Emit.Registration

/-!
# Registering routes

The configuration function registers each route of the service once; a handler whose path occurs in
its body counts as registered.
-/

namespace ContractSync.Sync

/-- The text with a route registered. -/
def registerRoute (group : String) (path : Option String) (source : List Char) (route : Route) :
    Except SyncError (List Char) :=
  match route.kind with
  | .webhook => .ok source
  | .standard =>
    let handler := Emit.handlerPath group route.handlerName
    Edit.insertRegistration source Emit.configFunction (Emit.registration route handler) handler path

/-- The text with the routes of a group registered; `handlers` is the module of handlers. -/
def registerRoutes (source : List Char) (group : String) (routes : List Route)
    (path : Option String := none) (handlers : String := Emit.defaultHandlers) :
    Except SyncError (List Char) :=
  let start := if Text.isAllBlank source then (Emit.configScaffold handlers).toList else source
  routes.foldlM (registerRoute group path) start

end ContractSync.Sync
