import ContractSync.Document.Yaml.Implicit
import ContractSync.Document.Yaml.Layout

/-!
# Nodes

A document is a tree of nodes: scalars, sequences and mappings. A node may be given a name and be used
again elsewhere by it, but not inside itself.
-/

namespace ContractSync.Document.Yaml

/-- A node with its type. -/
inductive Node where
  | scalar (type : NodeType) (text : String)
  | sequence (type : NodeType) (items : List Node)
  | mapping (type : NodeType) (entries : List (Node × Node))

namespace Node

/-- The type of the node. -/
def type : Node → NodeType
  | scalar type _ | sequence type _ | mapping type _ => type

/-- A node that is left out. -/
def absent : Node := .scalar .null ""

end Node

/-- The state of putting nodes together. -/
structure Assembly where
  tokens : List Token
  /-- What the handles of tags stand for. -/
  handles : List (String × String) := []
  /-- The named nodes; a node has no value yet while its parts are put together. -/
  anchors : List (String × Option Node) := []

/-- A step that puts nodes together. -/
abbrev Assemble := StateT Assembly (Except Refusal)

namespace Assemble

/-- The tokens are no document. -/
def refuse : Assemble α := throw .malformed

/-- The next token. -/
def peek : Assemble (Option Token) := do return (← get).tokens.head?

/-- Goes on behind the next token. -/
def drop : Assemble Unit := modify fun s => { s with tokens := s.tokens.tail }

/-- The next token is one of some tokens. -/
def isNext (ts : List Token) : Assemble Bool := do return (← peek).any ts.contains

/-- Goes on behind a token that has to be next. -/
def expect (t : Token) : Assemble Unit := do
  if (← peek) = some t then drop else refuse

/-! ### Properties -/

/-- What the handles of tags stand for unless a directive says otherwise. -/
def defaultHandles : List (String × String) := [("!", "!"), ("!!", NodeType.lead)]

/-- The address of a tag. -/
def address (t : WrittenTag) : Assemble String := do
  match t.handle with
  | none => return t.suffix
  | some handle =>
    match ((← get).handles ++ defaultHandles).lookup handle with
    | some lead => return lead ++ t.suffix
    | none => refuse

/-- The tag that is next, if one is. -/
def tag? : Assemble (Option WrittenTag) := do
  match ← peek with
  | some (.tag t) =>
    drop
    return some t
  | _ => return none

/-- The anchor that is next, if one is. -/
def anchor? : Assemble (Option String) := do
  match ← peek with
  | some (.anchor name) =>
    drop
    return some name
  | _ => return none

/-- The anchor and the address of the tag in front of a node, in any order. -/
def properties : Assemble (Option String × Option String) := do
  match ← anchor? with
  | some name =>
    let tag ← tag?
    return (some name, ← tag.mapM address)
  | none =>
    match ← tag? with
    | some tag =>
      let name ← anchor?
      return (name, some (← address tag))
    | none => return (none, none)

/-- Starts a named node. No name is given twice. -/
def openAnchor (name : Option String) : Assemble Unit :=
  match name with
  | none => return
  | some name => do
    if (← get).anchors.any (·.1 == name) then refuse
    modify fun s => { s with anchors := (name, none) :: s.anchors }

/-- Gives a named node its value. -/
def closeAnchor (name : Option String) (n : Node) : Assemble Node :=
  match name with
  | none => return n
  | some name => do
    modify fun s => { s with
      anchors := s.anchors.map fun a => if a.1 == name then (name, some n) else a }
    return n

/-- The node with a name. -/
def named (name : String) : Assemble Node := do
  match (← get).anchors.lookup name with
  | some (some n) => return n
  | _ => refuse

/-- The type of a scalar. -/
def scalarType (tag : Option String) (text : String) (plain : Bool) : NodeType :=
  match tag with
  | none => if plain then .ofPlain text else .str
  | some tag => if tag = "!" then .ofPlain text else .ofAddress tag

/-- The type of a collection. -/
def collectionType (tag : Option String) (kind : NodeType) : NodeType :=
  match tag with
  | none => kind
  | some tag => if tag = "!" then kind else .ofAddress tag

/-! ### Nodes -/

/-- Where a node stands. -/
inductive Place where
  /-- In brackets or braces: blocks are not allowed. -/
  | flow
  | block
  /-- In a mapping made by indentation: the dashes of items need no further indentation. -/
  | blockMapping
  deriving DecidableEq

mutual

/-- A node. Every second step takes a token, so that the number of steps is bounded. -/
def node : Nat → Place → Assemble Node
  | 0, _ => refuse
  | fuel + 1, place => do
    match ← peek with
    | some (.alias name) =>
      drop
      named name
    | _ =>
      let (anchor, tag) ← properties
      openAnchor anchor
      let n ←
        match ← peek with
        | some (.scalar text plain) =>
          drop
          pure (.scalar (scalarType tag text plain) text)
        | some (.flowStart .sequence) =>
          drop
          pure (.sequence (collectionType tag .seq) (← flowItems fuel true))
        | some (.flowStart .mapping) =>
          drop
          pure (.mapping (collectionType tag .map) (← flowEntries fuel true))
        | some (.blockStart .sequence) =>
          if place = .flow then refuse
          drop
          pure (.sequence (collectionType tag .seq) (← blockItems fuel))
        | some (.blockStart .mapping) =>
          if place = .flow then refuse
          drop
          pure (.mapping (collectionType tag .map) (← blockEntries fuel))
        | next =>
          if place = .blockMapping ∧ next = some .blockEntry then
            pure (.sequence (collectionType tag .seq) (← looseItems fuel))
          else if anchor.isSome ∨ tag.isSome then pure (.scalar (scalarType tag "" true) "")
          else refuse
      closeAnchor anchor n

/-- The items of a block. -/
def blockItems : Nat → Assemble (List Node)
  | 0 => refuse
  | fuel + 1 => do
    if ← isNext [.blockEnd] then
      drop
      return []
    expect .blockEntry
    let item ← if ← isNext [.blockEntry, .blockEnd] then pure .absent else node fuel .block
    return item :: (← blockItems fuel)

/-- Items without a block of their own. -/
def looseItems : Nat → Assemble (List Node)
  | 0 => refuse
  | fuel + 1 => do
    if ← isNext [.blockEntry] then
      drop
      let item ←
        if ← isNext [.blockEntry, .key, .value, .blockEnd] then pure .absent else node fuel .block
      return item :: (← looseItems fuel)
    return []

/-- The entries of a block. -/
def blockEntries : Nat → Assemble (List (Node × Node))
  | 0 => refuse
  | fuel + 1 => do
    if ← isNext [.blockEnd] then
      drop
      return []
    expect .key
    let key ← blockPart fuel
    let value ←
      if ← isNext [.value] then
        drop
        blockPart fuel
      else pure .absent
    return (key, value) :: (← blockEntries fuel)

/-- The key or the value of an entry of a block. -/
def blockPart : Nat → Assemble Node
  | 0 => refuse
  | fuel + 1 => do
    if ← isNext [.key, .value, .blockEnd] then return .absent
    node fuel .blockMapping

/-- The items in brackets, the first one or further ones. -/
def flowItems : Nat → Bool → Assemble (List Node)
  | 0, _ => refuse
  | fuel + 1, first => do
    if ← isNext [.flowEnd .sequence] then
      drop
      return []
    if !first then expect .flowEntry
    match ← peek with
    | some (.flowEnd .sequence) =>
      drop
      return []
    | some .key =>
      drop
      let entry ← flowEntry fuel (.flowEnd .sequence)
      return .mapping .map [entry] :: (← flowItems fuel false)
    | _ =>
      let item ← node fuel .flow
      return item :: (← flowItems fuel false)

/-- The entries in braces, the first one or further ones. -/
def flowEntries : Nat → Bool → Assemble (List (Node × Node))
  | 0, _ => refuse
  | fuel + 1, first => do
    if ← isNext [.flowEnd .mapping] then
      drop
      return []
    if !first then expect .flowEntry
    match ← peek with
    | some (.flowEnd .mapping) =>
      drop
      return []
    | some .key =>
      drop
      let entry ← flowEntry fuel (.flowEnd .mapping)
      return entry :: (← flowEntries fuel false)
    | _ =>
      let key ← node fuel .flow
      return (key, .absent) :: (← flowEntries fuel false)

/-- An entry, its mark being read, in brackets or braces that end with a token. -/
def flowEntry : Nat → Token → Assemble (Node × Node)
  | 0, _ => refuse
  | fuel + 1, last => do
    let key ← if ← isNext [.value, .flowEntry, last] then pure .absent else node fuel .flow
    if ← isNext [.value] then
      drop
      let value ← if ← isNext [.flowEntry, last] then pure .absent else node fuel .flow
      return (key, value)
    return (key, .absent)

end

/-! ### Documents -/

/-- The directives in front of a document: what they say about handles, and whether one of them stated
the version. -/
def directives : Nat → Bool → Assemble Unit
  | 0, _ => return
  | fuel + 1, versioned => do
    match ← peek with
    | some (.directive d) =>
      drop
      match d with
      | .version major =>
        if versioned || major != 1 then refuse
        directives fuel true
      | .tag handle lead =>
        if (← get).handles.any (·.1 == handle) then refuse
        modify fun s => { s with handles := (handle, lead) :: s.handles }
        directives fuel versioned
      | .other => directives fuel versioned
    | _ => return

/-- Goes on behind marks of the end of a document. -/
def dropEnds : Nat → Assemble Unit
  | 0 => return
  | fuel + 1 => do
    if ← isNext [.documentEnd] then
      drop
      dropEnds fuel

/-- The only document. -/
def document (fuel : Nat) : Assemble Node := do
  let n ←
    match ← peek with
    | none => pure .absent
    | some (.directive _) | some .documentStart =>
      directives fuel false
      expect .documentStart
      match ← peek with
      | none | some (.directive _) | some .documentStart | some .documentEnd => pure .absent
      | _ => node fuel .block
    | _ => node fuel .block
  dropEnds fuel
  if (← peek).isSome then refuse
  return n

end Assemble

/-- The node that the tokens of a text make. -/
def Node.ofTokens (ts : List Token) : Except Refusal Node :=
  ((Assemble.document (2 * ts.length + 4)).run { tokens := ts }).map (·.1)

end ContractSync.Document.Yaml
