import ContractSync.Document.Display
import ContractSync.Fault
import ContractSync.Rust.Failure
import ContractSync.Text.Utf8

/-!
# Errors

Everything that a command reports instead of a result. An error has a cause and, where one is known,
the path of the file that it concerns.
-/

namespace ContractSync

open ContractSync.Document (Quoted.string hex)

/-- Why a file could not be reached. -/
inductive FileFault where
  | notFound
  | isDirectory
  | notDirectory
  | alreadyThere
  /-- Any other fault, with the number and the words that the system has for it. -/
  | other (code : Nat) (text : String)
  deriving DecidableEq, Repr

namespace FileFault

/-- The number of the fault. -/
def number : FileFault → Nat
  | notFound => 2
  | alreadyThere => 17
  | notDirectory => 20
  | isDirectory => 21
  | other code _ => code

/-- The fault in words. -/
def words : FileFault → String
  | notFound => "No such file or directory"
  | alreadyThere => "File exists"
  | notDirectory => "Not a directory"
  | isDirectory => "Is a directory"
  | other _ text => text

/-- The fault with the path it was met at. -/
def message (fault : FileFault) (path : String) : String :=
  s!"[Errno {fault.number}] " ++ fault.words ++ ": " ++ Quoted.string path

end FileFault

/-- Why a file could not be read as text. -/
inductive ReadFault where
  | file (fault : FileFault) (path : String)
  | encoding (failure : Text.Utf8.Failure)
  deriving DecidableEq, Repr

/-- What is wrong with ill-formed bytes, in words. -/
def Text.Utf8.Fault.words : Text.Utf8.Fault → String
  | .start => "invalid start byte"
  | .continuation => "invalid continuation byte"
  | .truncated => "unexpected end of data"

namespace ReadFault

/-- The fault in words. -/
def message : ReadFault → String
  | file fault path => fault.message path
  | encoding failure =>
    let place :=
      if failure.length = 1 then
        "byte 0x" ++ hex 2 failure.byte.toNat ++ s!" in position {failure.position}"
      else s!"bytes in position {failure.position}-{failure.position + failure.length - 1}"
    "'utf-8' codec can't decode " ++ place ++ ": " ++ failure.fault.words

end ReadFault

/-- What is wrong with a configuration. -/
inductive ConfigProblem where
  | unknownKeys (keys : List String)
  | pathExpected (key : String)
  | stringExpected (key : String)
  | overridesExpected
  | fieldTypesExpected (declaration : String)
  | notFound
  | unreadable
  | rootNotMapping
  | unknownStrategy (name : String) (known : List String)
  | noModelsPath
  | noTestsPath
  deriving DecidableEq, Repr

namespace ConfigProblem

/-- The problem in words. -/
def message : ConfigProblem → String
  | unknownKeys keys => "Unknown config keys: " ++ ", ".intercalate keys
  | pathExpected key => "'" ++ key ++ "' must be a path string"
  | stringExpected key => "'" ++ key ++ "' must be a string"
  | overridesExpected => "'type_overrides' must map declaration names to field mappings"
  | fieldTypesExpected declaration =>
    "'type_overrides." ++ declaration ++ "' must map field names to type strings"
  | notFound => "Config file not found"
  | unreadable => "Cannot load config"
  | rootNotMapping => "Config root must be a mapping"
  | unknownStrategy name known =>
    "Unknown strategy '" ++ name ++ "' (available: " ++ ", ".intercalate known ++ ")"
  | noModelsPath => "No models path configured (use --models-path or 'models_path')"
  | noTestsPath => "No tests path configured (use --tests-path or 'tests_path')"

end ConfigProblem

/-- What is wrong with the version field of a document. -/
inductive DialectProblem where
  | unsupported (dialect version : String)
  | missing
  deriving DecidableEq, Repr

namespace DialectProblem

/-- The problem in words. -/
def message : DialectProblem → String
  | unsupported dialect version =>
    "Dialect '" ++ dialect ++ "': unsupported version '" ++ version ++ "'"
  | missing => "Dialect 'unknown': missing 'openapi' or 'swagger' version field"

end DialectProblem

/-- The cause of an error. -/
inductive Cause where
  /-- The text is neither YAML nor JSON. -/
  | malformedDocument
  | rootNotMapping
  | unreachableDocument (fault : FileFault) (path : String)
  | dialect (problem : DialectProblem)
  | source (problem : Rust.Problem) (offset line : Nat)
  | declarationNotFound (name : String)
  | fieldNotFound (declaration field : String)
  | staleHandle (name : String)
  | readFailed (fault : ReadFault)
  | writeFailed (fault : FileFault) (path : String)
  | config (problem : ConfigProblem)
  deriving DecidableEq, Repr

namespace Cause

/-- The cause in words. -/
def message : Cause → String
  | malformedDocument => "Parse error"
  | rootNotMapping => "Document root must be a mapping"
  | unreachableDocument fault path => "Cannot read document: " ++ fault.message path
  | dialect problem => problem.message
  | source problem _ line => s!"line {line}: " ++ problem.message
  | declarationNotFound name => "Declaration '" ++ name ++ "' not found"
  | fieldNotFound declaration field => "Field '" ++ field ++ "' not found in '" ++ declaration ++ "'"
  | staleHandle name => "Handle for '" ++ name ++ "' belongs to another parse"
  | readFailed fault => "Failed to read file: " ++ fault.message
  | writeFailed fault path => "Failed to write file: " ++ fault.message path
  | config problem => problem.message

end Cause

/-- An error and the path of the file that it concerns. -/
structure SyncError where
  cause : Cause
  path : Option String := none
  deriving DecidableEq, Repr

namespace SyncError

/-- The error in words, the path in brackets in front unless it is empty. -/
def message (e : SyncError) : String :=
  match e.path with
  | none => e.cause.message
  | some path => if path.isEmpty then e.cause.message else "[" ++ path ++ "] " ++ e.cause.message

/-- The error of an unreadable source text. -/
def ofFailure (source : List Char) (path : Option String) (failure : Rust.Failure) : SyncError :=
  ⟨.source failure.problem failure.offset (failure.line source), path⟩

end SyncError

end ContractSync

/-!
## Why work stops

An error concerns one file and is reported; where several files are worked on, the others go on. A
fault concerns the document and ends all work on it.
-/

namespace ContractSync

/-- Why work stops. -/
inductive Halt where
  | error (e : SyncError)
  | fault (f : Fault)
  deriving DecidableEq, Repr

end ContractSync
