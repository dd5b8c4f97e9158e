import ContractSync.Command.Line
import ContractSync.Config
import ContractSync.Contract.Canonical
import ContractSync.Document.Json.Writer
import ContractSync.Document.Load
import ContractSync.Document.Yaml.Writer
import ContractSync.Route.Record
import ContractSync.Sync.Scaffold
import ContractSync.Text.CaseMap
import ContractSync.Workspace.Basic

/-!
# Running commands

`run` carries out a command line in a workspace and gives the exit code: zero if all went well, one if
something failed, two if the words make no sense.
-/

/-!
## Opening configurations and documents

Commands work on a document at a path that a configuration gives. The configuration file may be
missing unless it is asked for by name.
-/

namespace ContractSync.Command

open ContractSync.Contract (Canonical)
open ContractSync.Document

variable {m : Type → Type} [Monad m] [Workspace m]

/-- The configuration file unless another one is given. -/
def defaultConfig : PathName := .ofString "cdd.yaml"

/-- The settings that the value of a configuration file states, at the root or under a key of their
own. -/
def settingsOf (v : Value) (path : String) : Except Halt Settings :=
  match v with
  | .scalar .null => .ok {}
  | .mapping [(.text "cdd", .mapping entries)] => Settings.ofEntries entries (some path)
  | .mapping entries => Settings.ofEntries entries (some path)
  | _ => .error (.error ⟨.config .rootNotMapping, some path⟩)

/-- The settings that the text of a configuration file states. -/
def readSettings (text : List Char) (path : String) : Except Halt Settings :=
  match Yaml.read text with
  | .ok v => settingsOf v path
  | .error .malformed => .error (.error ⟨.config .unreadable, some path⟩)
  | .error (.fault f) => .error (.fault f)

/-- The settings of a configuration file. -/
def openSettings (stated : Option PathName) : ExceptT Halt m Settings := do
  let path := stated.getD defaultConfig
  let fail := fun problem => Halt.error ⟨.config problem, some path.toString⟩
  if ← Workspace.isPresent (m := m) path then
    match ← Workspace.readText (m := m) path with
    | .ok text => readSettings text path.toString
    | .error (.file _ _) => throw (fail .unreadable)
    | .error (.encoding _) => throw (.fault .undecodable)
  else if stated.isSome then throw (fail .notFound)
  else return {}

/-- The language that the name of a file says its text is written in. -/
def notationOf (path : PathName) : Notation :=
  if Text.lower path.suffix.toList = ".json".toList then .json else .yaml

/-- The canonical form of a document. `path` names its file in errors. -/
def canonical (document : Entries) (path : Option String) : Except Halt Canonical :=
  (Contract.normalize document).mapError fun
    | .dialect problem => .error ⟨.dialect problem, path⟩
    | .fault f => .fault f

/-- The canonical form of the document in a file. -/
def openDocument (path : PathName) : ExceptT Halt m Canonical := do
  let name := path.toString
  match ← Workspace.readText (m := m) path with
  | .ok text => canonical (← Document.load (notationOf path) text (some name)) (some name)
  | .error (.file fault at_) => throw (.error ⟨.unreachableDocument fault at_, some name⟩)
  | .error (.encoding _) => throw (.fault .undecodable)

end ContractSync.Command

/-! ## Carrying out commands -/

namespace ContractSync.Command

open ContractSync.Contract (Canonical)
open ContractSync.Document
open ContractSync.Sync (Report)

variable {m : Type → Type} [Monad m] [Workspace m]

/-- The settings that a command line states. -/
def Line.settings (line : Line) : Settings where
  openapiPath := (line.value? .openapi).map .ofString
  handlersDir := (line.value? .handlersDir).map .ofString
  routeConfigPath := (line.value? .routeConfigPath).map .ofString
  modelsPath := (line.value? .modelsPath).map .ofString
  testsPath := (line.value? .testsPath).map .ofString
  appFactory := line.value? .appFactory

/-- Prints a report and gives the exit code. -/
def finish (r : Report) : m Nat := do
  Workspace.sayLine ("Done: " ++ r.summary)
  r.failed.forM fun (path, message) =>
    Workspace.complain s!"  failed: {path}: {message}\n"
  return if r.isOk then 0 else 1

/-- A framework, or the error that there is none of the name. -/
def framework (c : Config) : ExceptT Halt m Framework :=
  ExceptT.mk (pure ((Framework.ofWord c.strategy).mapError .error))

/-- A path that the configuration has to give. -/
def required (path : Option PathName) (problem : ConfigProblem) : ExceptT Halt m PathName :=
  match path with
  | some path => return path
  | none => throw (.error ⟨.config problem, none⟩)

/-- Prints the routes of a document. -/
def printRoutes (doc : Canonical) : ExceptT Halt m Nat := do
  let routes ← ExceptT.mk (pure ((Route.ofDocument doc).collect.1.mapError .fault))
  let plain ← ExceptT.mk (pure ((Value.list (routes.map Route.record)).plain.mapError .fault))
  Workspace.sayLine (m := m) (Json.writeIndented plain)
  return 0

/-- Work whose faults end it. -/
def orFault (work : ExceptT Fault m α) : ExceptT Halt m α := ExceptT.adapt .fault work

/-- Carries out a command on a document. -/
def execute (command : Command) (config : Config) (doc : Canonical) : ExceptT Halt m Nat := do
  match command with
  | .scaffold =>
    Workspace.sayLine (m := m) s!"Scaffolding handlers from {config.openapiPath}..."
    let .actix ← framework config
    finish (m := m) (← orFault (Sync.scaffold doc config.handlersDir config.routeConfigPath))
  | .models =>
    let path ← required config.modelsPath .noModelsPath
    let .actix ← framework config
    finish (m := m) (← orFault (Sync.syncModels doc path config.typeOverrides))
  | .tests =>
    let path ← required config.testsPath .noTestsPath
    let .actix ← framework config
    finish (m := m) (← orFault (Sync.syncTests doc path config.appFactory))
  | .routes => printRoutes doc
  | .normalize =>
    Workspace.say (m := m) (Yaml.Writer.document doc.data)
    return 0

/-- Opens configuration and document and carries out a command. -/
def start (command : Command) (line : Line) : ExceptT Halt m Nat := do
  let settings ← openSettings ((line.value? .config).map .ofString)
  let config := (line.settings.overlay settings).toConfig
  execute command config (← openDocument config.openapiPath)

/-- Carries out a command with the words behind it. -/
def runCommand (command : Command) (words : List String) : ExceptT Fault m Nat := do
  match parseLine command words with
  | .error problem =>
    Workspace.complain (m := m) (command.refusal problem)
    return 2
  | .ok line =>
    if line.help then
      Workspace.say (m := m) command.help
      return 0
    match ← (start (m := m) command line).run with
    | .ok code => return code
    | .error (.fault f) => throw f
    | .error (.error e) =>
      Workspace.complain (m := m) ("Error: " ++ e.message ++ "\n")
      return 1

/-- Carries out a command line. -/
def run (words : List String) : ExceptT Fault m Nat := do
  match words with
  | [] => help
  | name :: rest =>
    if name = "-h" ∨ name = "--help" then help
    else
      match ofName? name with
      | some command => runCommand command rest
      | none =>
        Workspace.say (m := m) (unknownCommand name)
        return 1
where
  help : ExceptT Fault m Nat := do
    Workspace.say (m := m) programHelp
    return 0

end ContractSync.Command
