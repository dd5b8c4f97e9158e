import ContractSync.Workspace.Basic

/-!
# Trees of files

A tree of files as a value. A path is followed step by step from the directory in which one works;
every step but the last has to lead to a directory.
-/

namespace ContractSync

/-- A place in the tree: the names on the way to it. Places outside the directory in which one works
start with `..` or `/`. -/
abbrev Location := List String

/-- What the tree holds at a place. -/
inductive FileNode where
  | file (bytes : List UInt8)
  | directory
  deriving DecidableEq, Repr

/-- The files and directories, in the order in which they were made. -/
structure FileTree where
  nodes : List (Location × FileNode) := []
  deriving DecidableEq, Repr

namespace FileTree

/-- The steps that lead to directories which are always there. -/
def isOutside (step : String) : Bool := step == ".." || step == "/" || step == "//"

/-- What is at a place. -/
def get? (t : FileTree) (l : Location) : Option FileNode :=
  if l.all isOutside then some .directory else t.nodes.lookup l

/-- The place that one step further leads to. -/
def next (l : Location) (step : String) : Location :=
  if step = ".." then
    match l.getLast? with
    | none => [".."]
    | some ".." => l ++ [".."]
    | some last => if isOutside last then l else l.dropLast
  else l ++ [step]

/-- The place that further steps lead to. -/
def follow (t : FileTree) : Location → List String → Except FileFault Location
  | l, [] => .ok l
  | l, step :: rest =>
    match t.get? l with
    | some .directory => follow t (next l step) rest
    | some (.file _) => .error .notDirectory
    | none => .error .notFound

/-- The place where a path starts. -/
def start : PathRoot → Location
  | .relative => []
  | .absolute => ["/"]
  | .double => ["//"]

/-- The place that a path leads to. -/
def locate (t : FileTree) (p : PathName) : Except FileFault Location := t.follow (start p.root) p.steps

/-- The tree with something at a place. -/
def put (t : FileTree) (l : Location) (n : FileNode) : FileTree :=
  if t.nodes.any (·.1 == l) then
    ⟨t.nodes.map fun e => if e.1 == l then (l, n) else e⟩
  else ⟨t.nodes ++ [(l, n)]⟩

/-- The tree without what is at a place or inside it. -/
def remove (t : FileTree) (l : Location) : FileTree :=
  ⟨t.nodes.filter fun e => !l.isPrefixOf e.1⟩

/-! ### Access by path -/

/-- What is at a path. -/
def kindOf (t : FileTree) (p : PathName) : Option FileKind :=
  match t.locate p with
  | .error _ => none
  | .ok l =>
    (t.get? l).map fun
      | .file _ => .file
      | .directory => .directory

/-- The bytes of a file. -/
def read (t : FileTree) (p : PathName) : Except FileFault (List UInt8) := do
  match t.get? (← t.locate p) with
  | some (.file bytes) => return bytes
  | some .directory => throw .isDirectory
  | none => throw .notFound

/-- The tree with other bytes in a file. -/
def write (t : FileTree) (p : PathName) (bytes : List UInt8) : Except FileFault FileTree := do
  let l ← t.locate p
  match t.get? l with
  | some .directory => throw .isDirectory
  | _ => return t.put l (.file bytes)

/-- The tree with one more directory. -/
def makeDirectory (t : FileTree) (p : PathName) : Except FileFault FileTree := do
  let l ← t.locate p
  match t.get? l with
  | some _ => throw .alreadyThere
  | none => return t.put l .directory

end FileTree

/-- A tree of files, and what was printed. -/
structure Session where
  files : FileTree := {}
  said : String := ""
  complained : String := ""

namespace Session

/-- Changes the tree if that is possible. -/
def change (f : FileTree → Except FileFault FileTree) : StateM Session (Except FileFault Unit) :=
  modifyGet fun s =>
    match f s.files with
    | .ok files => (.ok (), { s with files })
    | .error fault => (.error fault, s)

instance : Workspace (StateM Session) where
  kindOf p := do return (← get).files.kindOf p
  read p := do return (← get).files.read p
  write p bytes := change (·.write p bytes)
  makeDirectory p := change (·.makeDirectory p)
  say text := modify fun s => { s with said := s.said ++ text }
  complain text := modify fun s => { s with complained := s.complained ++ text }

end Session

end ContractSync
