import ContractSync.Error
import ContractSync.PathName
import ContractSync.Text.Utf8

/-!
# Workspaces

A workspace is what a command sees of the world: files at paths, and a terminal. Commands are written
for any workspace; `FileTree` and `Session` give one that is a value.
-/

namespace ContractSync

/-- What may be found at a path. -/
inductive FileKind where
  | file
  | directory
  deriving DecidableEq, Repr

/-- Files and a terminal. -/
class Workspace (m : Type → Type) where
  /-- What is at a path. -/
  kindOf : PathName → m (Option FileKind)
  /-- The bytes of a file. -/
  read : PathName → m (Except FileFault (List UInt8))
  /-- Replaces the bytes of a file; a new one is made if there is none. -/
  write : PathName → List UInt8 → m (Except FileFault Unit)
  /-- Makes a directory in one that is there. -/
  makeDirectory : PathName → m (Except FileFault Unit)
  /-- Prints a text. -/
  say : String → m Unit
  /-- Prints a text where errors are printed. -/
  complain : String → m Unit

namespace Workspace

variable {m : Type → Type} [Monad m] [Workspace m]

/-- Something is at a path. -/
def isPresent (p : PathName) : m Bool := do return (← kindOf p).isSome

/-- Prints a line. -/
def sayLine (line : String) : m Unit := say (line ++ "\n")

/-- The text of a file, its ends of lines as line feeds. -/
def readText (p : PathName) : m (Except ReadFault (List Char)) := do
  match ← read p with
  | .error fault => return .error (.file fault p.toString)
  | .ok bytes =>
    match Text.Utf8.decode bytes with
    | .error failure => return .error (.encoding failure)
    | .ok text => return .ok (Text.unifyLineEnds text)

/-- Makes a directory and those around it where they are missing; `depth` bounds how many are made.
The path in the result is the one that could not be made. -/
def ensureDirectory : Nat → PathName → m (Except (FileFault × PathName) Unit)
  | depth, p => do
    match ← makeDirectory p with
    | .ok () => return .ok ()
    | .error .notFound =>
      match depth with
      | 0 => return .error (.notFound, p)
      | depth + 1 =>
        match ← ensureDirectory depth p.parent with
        | .error e => return .error e
        | .ok () =>
          match ← makeDirectory p with
          | .ok () => return .ok ()
          | .error fault =>
            if fault ≠ .notFound ∧ (← kindOf p) = some .directory then return .ok ()
            else return .error (fault, p)
    | .error fault =>
      if (← kindOf p) = some .directory then return .ok () else return .error (fault, p)

/-- Writes a text to a file, in a directory that is made if it is missing. -/
def writeText (p : PathName) (text : List Char) : m (Except Cause Unit) := do
  let directory := p.parent
  match ← ensureDirectory directory.steps.length directory with
  | .error (fault, at_) => return .error (.writeFailed fault at_.toString)
  | .ok () =>
    match ← write p (Text.Utf8.encode text) with
    | .error fault => return .error (.writeFailed fault p.toString)
    | .ok () => return .ok ()

end Workspace

end ContractSync
