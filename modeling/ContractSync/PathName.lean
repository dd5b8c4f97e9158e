import ContractSync.Text.Basic

/-!
# Path names

A path name is a root and a sequence of steps. Empty steps and `.` vanish; `..` stays. Two leading
slashes are a root of their own.
-/

namespace ContractSync

/-- Where a path name starts. -/
inductive PathRoot where
  | relative
  | absolute
  /-- Exactly two leading slashes. -/
  | double
  deriving DecidableEq, Repr

/-- A path name: where it starts and the steps it takes from there. -/
structure PathName where
  root : PathRoot
  steps : List String
  deriving DecidableEq, Repr

namespace PathName

/-- The root of a path name. -/
def rootOf : List Char → PathRoot
  | '/' :: '/' :: '/' :: _ => .absolute
  | '/' :: '/' :: _ => .double
  | '/' :: _ => .absolute
  | _ => .relative

/-- A step that leads somewhere else. -/
def isStep (step : List Char) : Bool := step != [] && step != ['.']

/-- Reads a path name. -/
def ofString (s : String) : PathName :=
  ⟨rootOf s.toList, ((Text.splitAt '/' s.toList).filter isStep).map String.ofList⟩

/-- The path name as text; an empty one is `.`. -/
def toString (p : PathName) : String :=
  let steps := "/".intercalate p.steps
  match p.root with
  | .relative => if p.steps.isEmpty then "." else steps
  | .absolute => "/" ++ steps
  | .double => "//" ++ steps

instance : ToString PathName := ⟨toString⟩

/-- The last step, empty if there is none. -/
def name (p : PathName) : String := p.steps.getLast?.getD ""

/-- The last dot of a name divides it into stem and suffix unless it stands at an end. -/
def splitName (name : List Char) : List Char × List Char :=
  match Text.cutAt '.' name.reverse with
  | (_, none) => (name, [])
  | (back, some front) =>
    if back.isEmpty || front.isEmpty then (name, [])
    else (front.reverse, '.' :: back.reverse)

/-- The last step without its suffix. -/
def stem (p : PathName) : String := String.ofList (splitName p.name.toList).1

/-- The suffix of the last step, with its dot. -/
def suffix (p : PathName) : String := String.ofList (splitName p.name.toList).2

/-- The path name without its last step. -/
def parent (p : PathName) : PathName := ⟨p.root, p.steps.dropLast⟩

/-- The path name that goes on from `p` along `rest`. -/
def append (p : PathName) (rest : String) : PathName :=
  let tail := ofString rest
  if tail.root = .relative then ⟨p.root, p.steps ++ tail.steps⟩ else tail

end PathName

end ContractSync
