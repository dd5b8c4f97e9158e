import ContractSync.Command.Run

/-!
# The program

Carries out a command line on the files of the system.
-/

namespace ContractSync.Disk

/-- The fault that an error of the system is. -/
def faultOf (e : IO.Error) : FileFault :=
  match e with
  | .noFileOrDirectory .. => .notFound
  | .alreadyExists .. => .alreadyThere
  | .inappropriateType _ code _ => if code = 20 then .notDirectory else .isDirectory
  | .permissionDenied _ code text => .other code.toNat text
  | e => .other 0 (toString e)

/-- The result of an action, or the fault that stopped it. -/
def attempt (action : IO α) : IO (Except FileFault α) := do
  match ← action.toBaseIO with
  | .ok a => return .ok a
  | .error e => return .error (faultOf e)

/-- Opens what is at a path and reads a byte of it; only the bytes of files can be read. -/
def probe (p : PathName) : IO (Option FileKind) := do
  match ← attempt (IO.FS.Handle.mk p.toString .read) with
  | .error _ => return none
  | .ok handle =>
    match ← attempt (handle.read 1) with
    | .ok _ => return some .file
    | .error _ => return some .directory

instance : Workspace IO where
  kindOf := probe
  read p := attempt do return (← IO.FS.readBinFile p.toString).toList
  write p bytes := attempt (IO.FS.writeBinFile p.toString ⟨bytes.toArray⟩)
  makeDirectory p := attempt (IO.FS.createDir p.toString)
  say text := IO.print text
  complain text := IO.eprint text

end ContractSync.Disk

open ContractSync

/-- The program: a command line for an exit code. -/
def main (words : List String) : IO UInt32 := do
  match ← (Command.run (m := IO) words).run with
  | .ok code => return code.toUInt32
  | .error fault =>
    IO.eprintln ("Error: " ++ fault.message)
    return 1
