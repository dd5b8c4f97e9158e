import ContractSync.Sync.File
import ContractSync.Sync.HandlerModule
import ContractSync.Sync.Index
import ContractSync.Sync.Models
import ContractSync.Sync.Registration
import ContractSync.Sync.Retype
import ContractSync.Sync.Tests

/-!
# Scaffolding

The routes of a document are grouped by their first tag. Each group has a module of handlers; an index
declares the modules, and a configuration file registers the routes.
-/

namespace ContractSync.Sync

open ContractSync.Contract (Canonical)

/-- The module that a route's handler goes to. -/
def groupOf (route : Route) : String := Name.moduleName (route.tags.head?.getD "")

/-- The names of the groups, in alphabetical order. -/
def groupNames (routes : List Route) : List String :=
  ((routes.map groupOf).eraseDups).mergeSort fun a b => decide (a ≤ b)

/-- The routes of a group, in order. -/
def inGroup (routes : List Route) (group : String) : List Route :=
  routes.filter (groupOf · == group)

/-- The text of the configuration file with the routes of all groups registered. -/
def registerGroups (source : List Char) (routes : List Route) (path : Option String := none) :
    Except SyncError (List Char) :=
  (groupNames routes).foldlM
    (fun source group => registerRoutes source group (inGroup routes group) path) source

variable {m : Type → Type} [Monad m] [Workspace m]

/-- Brings the module of a group up to date. -/
def syncGroup (directory : PathName) (routes : List Route) (group : String) :
    ExceptT Fault m Report := do
  let path := directory.append (Emit.groupFile group)
  let routes := inGroup routes group
  Workspace.sayLine (m := m) s!"  -> Processing module: {path.name} ({routes.length} routes)"
  syncFile path fun source =>
    (updateHandlers source routes (some path.toString)).map fun source => { source }

/-- Brings the index of modules up to date. -/
def syncIndex (directory : PathName) (routes : List Route) : ExceptT Fault m Report :=
  syncFile (directory.append Emit.indexFile) fun source =>
    .ok { source := updateIndex source (groupNames routes) }

/-- Brings the configuration file up to date. -/
def syncRegistrations (path : PathName) (routes : List Route) : ExceptT Fault m Report := do
  Workspace.sayLine (m := m) ("  -> Injecting route registrations into " ++ path.toString)
  syncFile path fun source =>
    ((registerGroups source routes (some path.toString)).mapError .error).map fun source =>
      { source }

/-- Brings the files for the routes up to date. -/
def syncRoutes (routes : List Route) (directory : PathName) (config : Option PathName) :
    ExceptT Fault m Report := do
  if routes.isEmpty then return .warning "No routes found in document"
  let modules ← (groupNames routes).mapM (syncGroup directory routes)
  let index ← syncIndex directory routes
  let registrations ←
    match config with
    | some path => syncRegistrations path routes
    | none => pure {}
  return modules.foldl Report.append {} ++ index ++ registrations

/-- Brings the files for the routes of a document up to date: modules of handlers in a directory, and
the configuration file if there is one. -/
def scaffold (doc : Canonical) (directory : PathName) (config : Option PathName) :
    ExceptT Fault m Report := do
  match (Route.ofDocument doc).collect with
  | (.error fault, _) => throw fault
  | (.ok routes, d) => return { warnings := d.messages } ++ (← syncRoutes routes directory config)

end ContractSync.Sync

/-!
## Generating models and tests

The models of a document are kept in one file, and so are the tests of its routes.
-/

namespace ContractSync.Sync

open ContractSync.Contract (Canonical)

/-- The text of a file of models brought up to date, with overrides applied. -/
def updateModelFile (models : List Model) (overrides : Overrides) (path : String)
    (source : List Char) : Except Halt Updated := do
  let source ← (updateModels source models (some path)).mapError .error
  let retyped := retypeFields source overrides (some path)
  return ⟨retyped.source, retyped.warnings⟩

variable {m : Type → Type} [Monad m] [Workspace m]

/-- Brings the file of models of a document up to date. -/
def syncModels (doc : Canonical) (path : PathName) (overrides : Overrides) :
    ExceptT Fault m Report := do
  match (Model.ofDocument doc).collect with
  | (.error fault, _) => throw fault
  | (.ok models, d) =>
    Workspace.sayLine (m := m) s!"  -> Syncing {models.length} models into {path}"
    let report ← syncFile path (updateModelFile models overrides path.toString)
    return { warnings := d.messages } ++ report

/-- Brings the file of tests of a document up to date; `app` configures the service. -/
def syncTests (doc : Canonical) (path : PathName) (app : String) : ExceptT Fault m Report := do
  match (Route.ofDocument doc).collect with
  | (.error fault, _) => throw fault
  | (.ok routes, d) =>
    let report ← syncFile path fun source =>
      ((updateTests source routes app (some path.toString)).mapError .error).map fun source =>
        { source }
    if report.isOk then
      Workspace.sayLine (m := m) ("Generated integration tests at " ++ path.toString)
    return { warnings := d.messages } ++ report

end ContractSync.Sync
