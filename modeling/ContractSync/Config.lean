import ContractSync.Document.Alike
import ContractSync.Document.Display
import ContractSync.Error
import ContractSync.PathName
import ContractSync.Sync.Retype
import ContractSync.Sync.Tests

/-!
# Configuration

A configuration says where the document and the generated files are. Settings from a file and from
the command line each state a part of it; `Settings.overlay` lays one part over another, and
`Settings.toConfig` fills in what no part states.
-/

namespace ContractSync

open ContractSync.Document

/-- The frameworks that code can be generated for. -/
inductive Framework where
  | actix
  deriving DecidableEq, Repr

namespace Framework

/-- The word for the framework. -/
def word : Framework → String
  | actix => "actix"

/-- All frameworks, in alphabetical order. -/
def all : List Framework := [actix]

/-- The framework that a word names. -/
def ofWord (word : String) : Except SyncError Framework :=
  match all.find? (·.word == word) with
  | some f => .ok f
  | none => .error ⟨.config (.unknownStrategy word (all.map (·.word))), none⟩

end Framework

/-- Where the document is and which files to keep in step with it. -/
structure Config where
  openapiPath : PathName
  handlersDir : PathName
  routeConfigPath : Option PathName
  modelsPath : Option PathName
  testsPath : Option PathName
  appFactory : String
  typeOverrides : Sync.Overrides
  strategy : String
  deriving DecidableEq, Repr

/-- A part of a configuration. -/
structure Settings where
  openapiPath : Option PathName := none
  handlersDir : Option PathName := none
  routeConfigPath : Option PathName := none
  modelsPath : Option PathName := none
  testsPath : Option PathName := none
  appFactory : Option String := none
  typeOverrides : Option Sync.Overrides := none
  strategy : Option String := none
  deriving DecidableEq, Repr

namespace Settings

/-- The settings of `s`, and for what `s` leaves open those of `t`. -/
def overlay (s t : Settings) : Settings where
  openapiPath := s.openapiPath.or t.openapiPath
  handlersDir := s.handlersDir.or t.handlersDir
  routeConfigPath := s.routeConfigPath.or t.routeConfigPath
  modelsPath := s.modelsPath.or t.modelsPath
  testsPath := s.testsPath.or t.testsPath
  appFactory := s.appFactory.or t.appFactory
  typeOverrides := s.typeOverrides.or t.typeOverrides
  strategy := s.strategy.or t.strategy

/-- The configuration with defaults for what the settings leave open. -/
def toConfig (s : Settings) : Config where
  openapiPath := s.openapiPath.getD (.ofString "docs/openapi.yaml")
  handlersDir := s.handlersDir.getD (.ofString "src/handlers")
  routeConfigPath := s.routeConfigPath
  modelsPath := s.modelsPath
  testsPath := s.testsPath
  appFactory := s.appFactory.getD Sync.defaultApp
  typeOverrides := s.typeOverrides.getD []
  strategy := s.strategy.getD Framework.actix.word

/-! ### Reading settings -/

/-- The keys of settings. -/
def keys : List String :=
  ["openapi_path", "handlers_dir", "route_config_path", "models_path", "tests_path",
   "app_factory", "type_overrides", "strategy"]

/-- The keys of a mapping that are none of settings, in alphabetical order. -/
def unknownKeys (entries : Entries) : Except Fault (List String) := do
  let unknown ← entries.filterMapM fun (key, _) =>
    match key with
    | .text key => .ok (if keys.contains key then none else some key)
    | _ => .error .unsuited
  return unknown.mergeSort fun a b => decide (a ≤ b)

/-- The types by field that a value states. -/
def fieldTypes (v : Value) : Option (List (String × String)) := do
  (← v.entries?).mapM fun (field, type) => do return (← field.text?, ← type.text?)

/-- The table of overrides with the types for one more declaration. -/
def putOverride (table : Sync.Overrides) (declaration : String) (types : List (String × String)) :
    Sync.Overrides :=
  if table.any (·.1 == declaration) then
    table.map fun e => if e.1 == declaration then (declaration, types) else e
  else table ++ [(declaration, types)]

/-- The table of overrides that a value states. -/
def readOverrides (v : Value) : Except ConfigProblem Sync.Overrides := do
  let .mapping entries := v | throw .overridesExpected
  entries.foldlM (fun table (declaration, types) =>
    match fieldTypes types with
    | some types => .ok (putOverride table declaration.display types)
    | none => .error (.fieldTypesExpected declaration.display)) []

/-- A path that a value states. -/
def readPath (key : String) (v : Value) : Except ConfigProblem PathName :=
  match v.text? with
  | some s => .ok (.ofString s)
  | none => .error (.pathExpected key)

/-- A string that a value states. -/
def readString (key : String) (v : Value) : Except ConfigProblem String :=
  match v.text? with
  | some s => .ok s
  | none => .error (.stringExpected key)

/-- The settings with one more of them, as an entry states it; null states nothing. -/
def readEntry (s : Settings) (entry : Scalar × Value) : Except ConfigProblem Settings := do
  let (key, v) := entry
  if v.isNull then return s
  match key.text? with
  | some "openapi_path" => return { s with openapiPath := ← readPath "openapi_path" v }
  | some "handlers_dir" => return { s with handlersDir := ← readPath "handlers_dir" v }
  | some "route_config_path" =>
    return { s with routeConfigPath := ← readPath "route_config_path" v }
  | some "models_path" => return { s with modelsPath := ← readPath "models_path" v }
  | some "tests_path" => return { s with testsPath := ← readPath "tests_path" v }
  | some "app_factory" => return { s with appFactory := ← readString "app_factory" v }
  | some "type_overrides" => return { s with typeOverrides := ← readOverrides v }
  | some "strategy" => return { s with strategy := ← readString "strategy" v }
  | _ => return s

/-- The settings that a mapping states. `path` names the file in errors. -/
def ofEntries (entries : Entries) (path : Option String) : Except Halt Settings := do
  let refuse := fun problem => Halt.error ⟨.config problem, path⟩
  match ← (unknownKeys entries).mapError .fault with
  | [] => (entries.foldlM readEntry {}).mapError refuse
  | unknown => throw (refuse (.unknownKeys unknown))

end Settings

end ContractSync
