import ContractSync.Text.Basic

/-!
# Path templates

A path holds variables in braces. `Piece.ofPath` divides it into literal text and variables;
writing the pieces out again gives the path back.
-/

namespace ContractSync.Route

/-- A part of a path: literal text or a variable. -/
inductive Piece where
  | char (c : Char)
  | variable (name : List Char)
  deriving DecidableEq, Repr

/-- The name of the variable that an opening brace starts, and the text behind it: everything up to
the next closing brace, if that is something. -/
def variableAt (rest : List Char) : Option (List Char × List Char) :=
  match Text.cutAt '\x7d' rest with
  | (name, some rest) => if name.isEmpty then none else some (name, rest)
  | (_, none) => none

theorem length_variableAt {cs name rest : List Char} (h : variableAt cs = some (name, rest)) :
    rest.length < cs.length := by
  unfold variableAt Text.cutAt at h
  cases hd : cs.dropWhile (· != '\x7d') with
  | nil => simp [hd] at h
  | cons d tail =>
    simp only [hd] at h
    split at h
    · simp at h
    · have hle := (List.dropWhile_sublist (l := cs) (p := (· != '\x7d'))).length_le
      rw [hd, List.length_cons] at hle
      simp only [Option.some.injEq, Prod.mk.injEq] at h
      rw [← h.2]
      omega

/-- The pieces of a path. -/
def pieces : List Char → List Piece
  | [] => []
  | c :: rest =>
    if c = '\x7b' then
      match h : variableAt rest with
      | some (name, more) =>
        have := length_variableAt h
        .variable name :: pieces more
      | none => .char c :: pieces rest
    else .char c :: pieces rest
termination_by cs => cs.length
decreasing_by all_goals simp <;> omega

/-- The names of the variables of a path, in order. -/
def variableNames (path : String) : List String :=
  (pieces path.toList).filterMap fun
    | .variable name => some (String.ofList name)
    | .char _ => none

/-- The path with every variable replaced by `value` of its name. -/
def fill (value : String → String) (path : String) : String :=
  String.ofList <| (pieces path.toList).flatMap fun
    | .variable name => (value (String.ofList name)).toList
    | .char c => [c]

end ContractSync.Route
