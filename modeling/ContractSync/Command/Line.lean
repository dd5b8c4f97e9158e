import ContractSync.Document.Display
import ContractSync.Text.Basic

/-!
# Command lines

The words behind a command are flags and their values. The value of a flag stands behind an equals
sign or in the next word. A long flag may be shortened as long as only one flag starts so, and flags of
one letter may share a dash.
-/

/-!
## Commands and their flags

A command is followed by flags. A flag has one or two spellings; most take a value.
-/

namespace ContractSync

/-- The commands. -/
inductive Command where
  | scaffold
  | models
  | tests
  | routes
  | normalize
  deriving DecidableEq, Repr

namespace Command

/-- The flags of all commands. -/
inductive Flag where
  | help
  | config
  | openapi
  | verbose
  | handlersDir
  | routeConfigPath
  | modelsPath
  | testsPath
  | appFactory
  deriving DecidableEq, Repr

namespace Flag

/-- The spellings of a flag. -/
def spellings : Flag → List String
  | help => ["-h", "--help"]
  | config => ["--config"]
  | openapi => ["--openapi"]
  | verbose => ["-v", "--verbose"]
  | handlersDir => ["--handlers-dir"]
  | routeConfigPath => ["--route-config-path"]
  | modelsPath => ["--models-path"]
  | testsPath => ["--tests-path"]
  | appFactory => ["--app-factory"]

/-- What stands for the value of a flag in help texts; nothing if it takes none. -/
def placeholder : Flag → Option String
  | help | verbose => none
  | config => some "CONFIG"
  | openapi => some "OPENAPI"
  | handlersDir => some "HANDLERS_DIR"
  | routeConfigPath => some "ROUTE_CONFIG_PATH"
  | modelsPath => some "MODELS_PATH"
  | testsPath => some "TESTS_PATH"
  | appFactory => some "APP_FACTORY"

/-- The flag takes a value. -/
def takesValue (f : Flag) : Bool := f.placeholder.isSome

/-- What a flag is for. -/
def purpose : Flag → String
  | help => "show this help message and exit"
  | config => "Config file (default: cdd.yaml if present)"
  | openapi => "OpenAPI or Swagger document (YAML or JSON)"
  | verbose => "Enable debug logging"
  | handlersDir => "Directory of handler modules"
  | routeConfigPath => "File holding the route config function"
  | modelsPath => "Models source file"
  | testsPath => "Integration test file"
  | appFactory => "Path of the route config function used by tests"

end Flag

/-- All commands, in the order in which they are listed. -/
def all : List Command := [scaffold, models, tests, routes, normalize]

/-- The name of a command. -/
def name : Command → String
  | scaffold => "scaffold"
  | models => "models"
  | tests => "tests"
  | routes => "routes"
  | normalize => "normalize"

/-- What a command does, as the list of commands says it. -/
def purpose : Command → String
  | scaffold => "Create or patch handler modules and route registrations"
  | models => "Sync data-model declarations and apply field type overrides"
  | tests => "Create or patch integration-test stubs"
  | routes => "Print resolved routes as JSON"
  | normalize => "Print the canonical document as YAML"

/-- What a command does, as its own help says it. -/
def description : Command → String
  | scaffold => "Scaffold handler stubs grouped by tag"
  | models => "Sync model declarations from components.schemas"
  | tests => "Generate one integration test per route"
  | routes => "Print resolved routes as JSON"
  | normalize => "Print the normalized document as YAML"

/-- The flags of a command. -/
def flags (c : Command) : List Flag :=
  [.help, .config, .openapi, .verbose] ++
    match c with
    | scaffold => [.handlersDir, .routeConfigPath]
    | models => [.modelsPath]
    | tests => [.testsPath, .appFactory]
    | routes | normalize => []

/-- The spellings of a command's flags, in order. -/
def spellings (c : Command) : List (String × Flag) :=
  c.flags.flatMap fun f => f.spellings.map (·, f)

/-- The command with a name. -/
def ofName? (name : String) : Option Command := all.find? (·.name == name)

end Command

end ContractSync

/-! ## Reading a command line -/

namespace ContractSync.Command

open ContractSync.Document (Quoted.string)

/-- What is wrong with the words behind a command. -/
inductive LineProblem where
  | ambiguous (word : String) (candidates : List String)
  | valueExpected (flag : Flag)
  | valueIgnored (flag : Flag) (value : String)
  | unrecognized (words : List String)
  deriving DecidableEq, Repr

namespace LineProblem

/-- A problem of one flag in words. -/
def ofFlag (flag : Flag) (problem : String) : String :=
  "argument " ++ "/".intercalate flag.spellings ++ ": " ++ problem

/-- The problem in words. -/
def message : LineProblem → String
  | ambiguous word candidates =>
    "ambiguous option: " ++ word ++ " could match " ++ ", ".intercalate candidates
  | valueExpected flag => ofFlag flag "expected one argument"
  | valueIgnored flag value => ofFlag flag ("ignored explicit argument " ++ Quoted.string value)
  | unrecognized words => "unrecognized arguments: " ++ " ".intercalate words

end LineProblem

/-! ### Words -/

/-- What a word is. -/
inductive Word where
  | plain
  /-- The word behind which no flags follow. -/
  | stop
  /-- A flag, with the value behind an equals sign. -/
  | flag (flag : Flag) (value : Option String)
  /-- A flag of one letter, with further letters behind it. -/
  | letters (flag : Flag) (rest : List Char)
  /-- It looks like a flag. -/
  | unknown
  deriving DecidableEq, Repr

/-- The word is a negative number. -/
def isNegativeNumber (cs : List Char) : Bool :=
  match cs with
  | '-' :: rest =>
    match Text.cutAt '.' rest with
    | (whole, none) => !whole.isEmpty && whole.all Char.isDigit
    | (whole, some places) => whole.all Char.isDigit && !places.isEmpty && places.all Char.isDigit
  | _ => false

/-- The text before the first equals sign, and the text behind it if there is one. -/
def cutValue (word : String) : String × Option String :=
  let (start, value) := Text.cutAt '=' word.toList
  (String.ofList start, value.map String.ofList)

/-- The flags that a shortened word may stand for, with their spellings. -/
def candidates (spellings : List (String × Flag)) (word : String) : List (String × Word) :=
  match word.toList with
  | '-' :: '-' :: _ =>
    let (start, value) := cutValue word
    (spellings.filter fun s => start.toList.isPrefixOf s.1.toList).map fun s =>
      (s.1, .flag s.2 value)
  | '-' :: letter :: rest =>
    (spellings.filter fun s => s.1.toList == ['-', letter]).map fun s =>
      (s.1, .letters s.2 rest)
  | _ => []

/-- What a word is, given the spellings of flags. -/
def classify (spellings : List (String × Flag)) (word : String) : Except LineProblem Word := do
  if word.toList.head? ≠ some '-' then return .plain
  if let some flag := spellings.lookup word then return .flag flag none
  if word = "-" then return .plain
  let (start, value) := cutValue word
  if let some flag := spellings.lookup start then return .flag flag value
  match candidates spellings word with
  | [(_, found)] => return found
  | [] =>
    return if isNegativeNumber word.toList || word.toList.contains ' ' then .plain else .unknown
  | several => throw (.ambiguous word (several.map (·.1)))

/-- What the words are; behind a word of two dashes all are plain. -/
def classifyAll (spellings : List (String × Flag)) :
    List String → Except LineProblem (List (String × Word))
  | [] => .ok []
  | word :: rest =>
    if word = "--" then .ok ((word, .stop) :: rest.map (·, .plain))
    else do
      let kind ← classify spellings word
      return (word, kind) :: (← classifyAll spellings rest)

/-! ### Flags and their values -/

/-- What the words ask for. -/
structure Line where
  values : List (Flag × String) := []
  verbose : Bool := false
  /-- Help is asked for; nothing behind that matters. -/
  help : Bool := false
  /-- The words that are no flags and no values. -/
  extra : List String := []
  deriving DecidableEq, Repr

/-- Adds a flag without a value. -/
def Line.add (line : Line) (flag : Flag) : Line :=
  if flag = .help then { line with help := true } else { line with verbose := true }

/-- Adds flags that share a dash: `flag`, and those of the letters behind it. From a letter on that is no
flag, the letters are a word that is not understood. -/
def addLetters (spellings : List (String × Flag)) (line : Line) (flag : Flag) :
    List Char → Except LineProblem Line
  | [] => .ok (line.add flag)
  | letter :: rest =>
    if letter = '-' then .error (.valueIgnored flag (String.ofList (letter :: rest)))
    else
      match spellings.lookup (String.ofList ['-', letter]), rest with
      | none, rest =>
        let line := line.add flag
        .ok { line with extra := line.extra ++ [String.ofList ('-' :: letter :: rest)] }
      | some next, '=' :: value => .error (.valueIgnored next (String.ofList value))
      | some next, rest => addLetters spellings (line.add flag) next rest

/-- Goes through the words. -/
def collect (spellings : List (String × Flag)) (line : Line) :
    List (String × Word) → Except LineProblem Line
  | [] => .ok line
  | (word, kind) :: rest =>
    if line.help then .ok line
    else
      match kind with
      | .plain | .stop | .unknown =>
        collect spellings { line with extra := line.extra ++ [word] } rest
      | .letters flag letters => do
        collect spellings (← addLetters spellings line flag letters) rest
      | .flag flag value =>
        match flag.takesValue, value, rest with
        | true, some value, rest =>
          collect spellings { line with values := (flag, value) :: line.values } rest
        | true, none, (next, .plain) :: rest =>
          collect spellings { line with values := (flag, next) :: line.values } rest
        | true, none, _ => .error (.valueExpected flag)
        | false, none, rest => collect spellings (line.add flag) rest
        | false, some value, _ => .error (.valueIgnored flag value)

/-- What the words behind a command ask for. -/
def parseLine (command : Command) (words : List String) : Except LineProblem Line := do
  let line ← collect command.spellings {} (← classifyAll command.spellings words)
  if line.help || line.extra.isEmpty then return line
  throw (.unrecognized line.extra)

/-- The value of a flag; of several the last counts. -/
def Line.value? (line : Line) (flag : Flag) : Option String := line.values.lookup flag

end ContractSync.Command

/-! ## Help texts -/

namespace ContractSync.Command

/-- The name of the program. -/
def program : String := "cdd_tools"

/-- A text with blanks behind it up to a width. -/
def padEnd (width : Nat) (s : String) : String :=
  s ++ String.ofList (List.replicate (width - s.length) ' ')

/-- What the program is for and how it is used. -/
def overview : String :=
  "
Contract sync CLI: keeps generated Rust sources in step with an OpenAPI document.

Usage:
    python -m cdd_tools <command> [options]

Commands:
    scaffold    Create or patch handler modules and route registrations
    models      Sync data-model declarations and apply field type overrides
    tests       Create or patch integration-test stubs
    routes      Print resolved routes as JSON
    normalize   Print the canonical document as YAML

Examples:
    python -m cdd_tools scaffold --openapi docs/openapi.yaml --handlers-dir src/handlers
    python -m cdd_tools models --models-path src/models.rs -v
    python -m cdd_tools routes --openapi docs/openapi.yaml

"

/-- The help of the program. -/
def programHelp : String :=
  overview ++ "Available commands:\n"
    ++ String.join (all.map fun c => "  " ++ padEnd 12 c.name ++ " " ++ c.purpose ++ "\n")
    ++ "\nUse '<command> --help' for command-specific options.\n"

/-- The answer to a command that there is none of. -/
def unknownCommand (name : String) : String :=
  "Unknown command: " ++ name ++ "\nAvailable commands: "
    ++ ", ".intercalate (all.map Command.name) ++ "\n"

/-- The title of a command. -/
def title (c : Command) : String := program ++ " " ++ c.name

/-- How a flag is used. -/
def usageOf (spelled : String) (f : Flag) : String :=
  match f.placeholder with
  | some placeholder => spelled ++ " " ++ placeholder
  | none => spelled

/-- How a command is used, in one line. -/
def usage (c : Command) : String :=
  let parts := c.flags.map fun f => "[" ++ usageOf (f.spellings.headD "") f ++ "]"
  "usage: " ++ c.title ++ " " ++ " ".intercalate parts ++ "\n"

/-- The help of a command. -/
def help (c : Command) : String :=
  let lines := c.flags.map fun f =>
    "  " ++ padEnd 21 (", ".intercalate (f.spellings.map (usageOf · f))) ++ " " ++ f.purpose ++ "\n"
  c.usage ++ "\n" ++ c.description ++ "\n\noptions:\n" ++ String.join lines

/-- The answer to words that a command does not understand. -/
def refusal (c : Command) (problem : LineProblem) : String :=
  c.usage ++ c.title ++ ": error: " ++ problem.message ++ "\n"

end ContractSync.Command
