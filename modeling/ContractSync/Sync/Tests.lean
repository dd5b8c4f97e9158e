import ContractSync.Edit.Apply
import ContractSync.Emit.Testing
import ContractSync.Sync.Block

/-!
# The file of tests

A file of tests only grows: a test is appended for each route of the service that has none.
-/

namespace ContractSync.Sync

/-- A file of tests in the making: its text and the names of the functions in it. -/
structure TestFile where
  source : List Char
  functions : List String

namespace TestFile

/-- The file that a text holds; a blank text stands for a file without tests. -/
def ofSource (source : List Char) (path : Option String) : Except SyncError TestFile :=
  if Text.isAllBlank source then .ok ⟨Emit.testHeader.toList, []⟩
  else (Edit.readSource source path).map fun tree => ⟨source, tree.functionNames⟩

/-- The file with a test for a route. -/
def addRoute (app : String) (file : TestFile) (route : Route) : TestFile :=
  match route.kind with
  | .webhook => file
  | .standard =>
    let name := Emit.testName route
    if file.functions.contains name then file
    else ⟨appendBlock file.source (Emit.testFunction route app).toList, name :: file.functions⟩

end TestFile

/-- The configuration function that tests use unless another one is given. -/
def defaultApp : String := "crate::http::routes::config"

/-- The text of a file of tests with a test for every route of the service. -/
def updateTests (source : List Char) (routes : List Route) (app : String := defaultApp)
    (path : Option String := none) : Except SyncError (List Char) := do
  let start ← TestFile.ofSource source path
  return (routes.foldl (TestFile.addRoute app) start).source

end ContractSync.Sync
