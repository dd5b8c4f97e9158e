import ContractSync.Document.Alike
import ContractSync.Document.Yaml.Node
import ContractSync.Document.Yaml.Scalars

/-!
# Reading YAML

The value of a text is that of its document. In a mapping the last value of a key counts, at the place
of the first; the entries of a mapping that is merged come before the mapping's own.
-/

namespace ContractSync.Document.Yaml

namespace Node

/-- Writes to a mapping, in order. -/
abbrev Writes := List (Scalar × Value)

mutual

/-- The text of a scalar, or of a mapping that has one as its own value. -/
def text : Node → Except Refusal String
  | scalar _ text => .ok text
  | mapping _ entries => ownText entries
  | sequence _ _ => .error .malformed

/-- The text of the first entry that is the mapping's own value. -/
def ownText : List (Node × Node) → Except Refusal String
  | [] => .error .malformed
  | (key, v) :: rest => if key.type = .value then text v else ownText rest

end

mutual

/-- The value of a node. -/
def value : Node → Except Refusal Value
  | scalar type text => (scalarOf type text).map .scalar
  | sequence type items =>
    match type with
    | .seq => (values items).map .list
    | .omap | .pairs => (pairs items).map .list
    | _ => .error .malformed
  | mapping type entries =>
    match type with
    | .map => do
      let (merged, own) ← writes entries
      return .mapping (Entries.ofWrites (merged ++ own))
    | .set => do
      let (merged, own) ← writes entries
      return .set ((Entries.ofWrites (merged ++ own)).map (·.1))
    | _ => do
      let text ← ownText entries
      return .scalar (← scalarOf type text)

/-- The values of nodes. -/
def values : List Node → Except Refusal (List Value)
  | [] => .ok []
  | n :: rest => do return (← value n) :: (← values rest)

/-- The entries of mappings that have one each, as lists of two. -/
def pairs : List Node → Except Refusal (List Value)
  | [] => .ok []
  | mapping _ [(key, v)] :: rest => do
    return .list [← value key, ← value v] :: (← pairs rest)
  | _ => .error .malformed

/-- The key that a node stands for. -/
def keyOf : Node → Except Refusal Scalar
  | scalar .value text => .ok (.text text)
  | scalar type text => scalarOf type text
  | sequence _ _ => .error .malformed
  | mapping type entries => do scalarOf type (← ownText entries)

/-- The writes of entries: those of mappings that are merged, and their own. -/
def writes : List (Node × Node) → Except Refusal (Writes × Writes)
  | [] => .ok ([], [])
  | (key, v) :: rest => do
    if key.type = .merge then
      let first ← mergedWrites v
      let (merged, own) ← writes rest
      return (first ++ merged, own)
    else
      let key ← keyOf key
      let v ← value v
      let (merged, own) ← writes rest
      return (merged, (key, v) :: own)

/-- The writes of a mapping, or of a list of mappings, the last of them first. -/
def mergedWrites : Node → Except Refusal Writes
  | mapping _ entries => do
    let (merged, own) ← writes entries
    return merged ++ own
  | sequence _ items => listedWrites items
  | scalar _ _ => .error .malformed

/-- The writes of mappings, the last of them first. -/
def listedWrites : List Node → Except Refusal Writes
  | [] => .ok []
  | mapping _ entries :: rest => do
    let (merged, own) ← writes entries
    return (← listedWrites rest) ++ merged ++ own
  | _ => .error .malformed

end

end Node

/-- The value that a YAML text writes. -/
def read (text : List Char) : Except Refusal Value := do (← Node.ofTokens (← tokens text)).value

end ContractSync.Document.Yaml
