import ContractSync.Error
import ContractSync.PathName
import ContractSync.Workspace.Basic

/-!
# Keeping a file in step

A file is read, brought up to date and written if that changed it. An error on the way concerns this
file alone and goes into the report.
-/

/-!
## Reports

A report says what became of each file that a command worked on.
-/

namespace ContractSync.Sync

/-- What became of the files, and warnings. -/
structure Report where
  written : List PathName := []
  unchanged : List PathName := []
  /-- The files that could not be worked on, and why. -/
  failed : List (PathName × String) := []
  warnings : List String := []
  deriving DecidableEq, Repr

namespace Report

/-- All files could be worked on. -/
def isOk (r : Report) : Bool := r.failed.isEmpty

/-- The report of two pieces of work, one after the other. -/
def append (r s : Report) : Report where
  written := r.written ++ s.written
  unchanged := r.unchanged ++ s.unchanged
  failed := r.failed ++ s.failed
  warnings := r.warnings ++ s.warnings

instance : Append Report := ⟨append⟩

/-- A warning. -/
def warning (message : String) : Report := { warnings := [message] }

/-- A file that could not be worked on. -/
def failure (p : PathName) (e : SyncError) : Report := { failed := [(p, e.message)] }

/-- The report in one line. -/
def summary (r : Report) : String :=
  s!"{r.written.length} written, {r.unchanged.length} unchanged, {r.failed.length} failed, "
    ++ s!"{r.warnings.length} warnings"

end Report

end ContractSync.Sync

/-! ## Files -/

namespace ContractSync.Sync

/-- A text brought up to date, and warnings met on the way. -/
structure Updated where
  source : List Char
  warnings : List String := []

variable {m : Type → Type} [Monad m] [Workspace m]

/-- The text of a file; a missing file counts as empty. -/
def readSource (p : PathName) : m (Except SyncError (List Char)) := do
  if ← Workspace.isPresent p then
    match ← Workspace.readText p with
    | .ok text => return .ok text
    | .error fault => return .error ⟨.readFailed fault, some p.toString⟩
  else return .ok []

/-- Writes a text unless the file is there and held it before. -/
def writeSource (p : PathName) (old new : List Char) : m Report := do
  if old == new then
    if ← Workspace.isPresent p then return { unchanged := [p] }
  match ← Workspace.writeText p new with
  | .ok () => return { written := [p] }
  | .error cause => return .failure p ⟨cause, some p.toString⟩

/-- Brings a file up to date. -/
def syncFile (p : PathName) (update : List Char → Except Halt Updated) :
    ExceptT Fault m Report := do
  match ← readSource (m := m) p with
  | .error e => return .failure p e
  | .ok old =>
    match update old with
    | .error (.error e) => return .failure p e
    | .error (.fault f) => throw f
    | .ok new => return { warnings := new.warnings } ++ (← writeSource (m := m) p old new.source)

end ContractSync.Sync
