import ContractSync.Rust.Tree

/-!
# Reading by positions

The same structure, read from the positions of tokens and from the table of delimiters, with one node after
the other put into an arena. Nodes name their parent and their children by their places in the arena; a
child is added to its parent when it is met, attributes are attached to what follows them, and the end of a
node may be written when its parts are read.

Every lookup may find nothing, and every loop may come to no later position: both are outcomes of their own
(`Halt`).
-/

namespace ContractSync.Rust

/-! ### The arena -/

/-- A node of the arena: its parent and its children are places in the arena. -/
structure Slot where
  shape : Shape
  start : Nat
  itemStart : Nat
  stop : Nat
  parent : Option Nat := none
  children : List Nat := []
  deriving DecidableEq, Repr

/-- How reading by positions may end without a result. -/
inductive Halt where
  /-- The text cannot be read. -/
  | failure (failure : Failure)
  /-- A position has no token, a delimiter has no partner, or a place of the arena has no node. -/
  | missing
  /-- A loop comes to no later position. -/
  | stuck
  deriving DecidableEq, Repr

/-- The nodes in the order in which they were met. -/
abbrev Arena := List Slot

namespace Arena

/-- Changes the node in a place. -/
def update (arena : Arena) (place : Nat) (f : Slot → Slot) : Except Halt Arena :=
  if place < arena.length then .ok (arena.modify place f) else .error .missing

/-- The node in a place. -/
def get (arena : Arena) (place : Nat) : Except Halt Slot :=
  match arena[place]? with
  | some slot => .ok slot
  | none => .error .missing

/-- Adds a node and tells its parent; the result is its place. -/
def add (arena : Arena) (slot : Slot) (parent : Option Nat) : Except Halt (Nat × Arena) := do
  let place := arena.length
  let arena := arena ++ [{ slot with parent }]
  match parent with
  | none => return (place, arena)
  | some owner =>
    return (place, ← arena.update owner fun s => { s with children := s.children ++ [place] })

/-- Tells the nodes in some places their parent. -/
def adopt (owner : Nat) : List Nat → Arena → Except Halt Arena
  | [], arena => .ok arena
  | place :: rest, arena => do
    adopt owner rest (← arena.update place fun s => { s with parent := some owner })

/-- Puts attributes in front of the children of a node, which starts with them from now on. -/
def attach (arena : Arena) (place : Nat) (attributes : List Nat) : Except Halt Arena := do
  let arena ← adopt place attributes arena
  let arena ← arena.update place fun s => { s with children := attributes ++ s.children }
  match attributes with
  | [] => return arena
  | first :: _ =>
    let slot ← arena.get first
    arena.update place fun s => { s with start := slot.start }

/-- Puts attributes that nothing follows behind the children of a node. -/
def trail (owner : Nat) : List Nat → Arena → Except Halt Arena
  | [], arena => .ok arena
  | place :: rest, arena => do
    let arena ← arena.update place fun s => { s with parent := some owner }
    trail owner rest (← arena.update owner fun s => { s with children := s.children ++ [place] })

end Arena

/-! ### Tokens and delimiters -/

namespace Reader

/-- What is read: a text with its tokens and the positions of matching delimiters. -/
structure Input where
  source : List Char
  tokens : List Token
  pairs : List (Nat × Nat)

namespace Input

variable (input : Input)

/-- Where the token starts, or where the text ends. -/
def offset (index : Nat) : Nat := (input.tokens[index]?.map Token.start).getD input.source.length

/-- The text cannot be read from the token on. -/
def fail {α : Type} (problem : Problem) (index : Nat) : Except Halt α :=
  .error (.failure ⟨problem, input.offset index⟩)

/-- The token in a position. -/
def token (index : Nat) : Except Halt Token :=
  match input.tokens[index]? with
  | some t => .ok t
  | none => .error .missing

/-- The position of the delimiter that belongs to the one in the position. -/
def partner (index : Nat) : Except Halt Nat :=
  match (input.pairs ++ input.pairs.map Prod.swap).lookup index with
  | some other => .ok other
  | none => .error .missing

/-- The token in a position of an item, which must not be at its end. -/
def tok (index limit : Nat) : Except Halt Token :=
  if limit ≤ index then input.fail .unexpectedEnd index else input.token index

def isPunct (index limit : Nat) (text : String) : Except Halt Bool := do
  if index < limit then return (← input.token index).isPunct text else return false

def isWord (index limit : Nat) (word : String) : Except Halt Bool := do
  if index < limit then return (← input.token index).isWord word else return false

/-- The position behind a group. -/
def skipGroup (index : Nat) : Except Halt Nat := return (← input.partner index) + 1

/-! ### Scanning -/

/-- Behind generic parameters whose brackets are open to the depth given. -/
def closeAngles (limit index depth : Nat) : Except Halt Nat :=
  if _h : index < limit then do
    let t ← input.token index
    if t.isOpener then
      let next ← input.skipGroup index
      if _h' : index < next then closeAngles limit next depth else .error .stuck
    else if t.isPunct "<" then closeAngles limit (index + 1) (depth + 1)
    else if t.isPunct ">" then
      if depth = 1 then return index + 1 else closeAngles limit (index + 1) (depth - 1)
    else closeAngles limit (index + 1) depth
  else input.fail .unterminatedGenerics index
termination_by limit - index

/-- Behind generic parameters, if there are any. -/
def skipGenerics (index limit : Nat) : Except Halt Nat := do
  if ← input.isPunct index limit "<" then input.closeAngles limit index 0 else return index

/-- At the first of the marks outside of groups. -/
def scanTo (index limit : Nat) (marks : List String) : Except Halt Nat :=
  if _h : index < limit then do
    let t ← input.token index
    if marks.any t.isPunct then return index
    else if t.isOpener then
      let next ← input.skipGroup index
      if _h' : index < next then scanTo next limit marks else .error .stuck
    else scanTo (index + 1) limit marks
  else input.fail (.expectedOneOf marks) index
termination_by limit - index

/-- At the comma that ends a field or a variant, or at the limit. -/
def scanListEntry (index limit angle : Nat) : Except Halt Nat :=
  if _h : index < limit then do
    let t ← input.token index
    if t.isOpener then
      let next ← input.skipGroup index
      if _h' : index < next then scanListEntry next limit angle else .error .stuck
    else if t.isPunct "<" then scanListEntry (index + 1) limit (angle + 1)
    else if t.isPunct ">" && 0 < angle then scanListEntry (index + 1) limit (angle - 1)
    else if t.isPunct "," && angle == 0 then return index
    else scanListEntry (index + 1) limit angle
  else return limit
termination_by limit - index

/-- Behind an item that is not described: behind a semicolon, or behind a group in braces and the
semicolon that follows it. -/
def skipOther (index limit : Nat) : Except Halt Nat :=
  if _h : index < limit then do
    let t ← input.token index
    if t.isPunct ";" then return index + 1
    else if t.isPunct "\x7b" then
      let behind ← input.skipGroup index
      if ← input.isPunct behind limit ";" then return behind + 1 else return behind
    else if t.isPunct "(" || t.isPunct "[" then
      let next ← input.skipGroup index
      if _h' : index < next then skipOther next limit else .error .stuck
    else skipOther (index + 1) limit
  else return limit
termination_by limit - index

/-- The word in the position is a qualifier, and no item of its own. -/
def isQualifier (index limit : Nat) : Except Halt Bool := do
  if limit ≤ index then return false
  let t ← input.token index
  if t.kind ≠ .ident then return false
  if !Item.qualifiers.contains t.text then return false
  if (t.text = "const" ∨ t.text = "default") ∧ index + 1 < limit then
    return Item.qualified.contains (← input.token (index + 1)).text
  return true

/-- Behind the qualifiers. -/
def skipQualifiers (index limit : Nat) : Except Halt Nat := do
  if ← input.isQualifier index limit then
    let t ← input.token index
    if _h : index < limit then
      if t.text = "extern" ∧ index + 1 < limit then
        if (← input.token (index + 1)).kind = .literal then skipQualifiers (index + 2) limit
        else skipQualifiers (index + 1) limit
      else skipQualifiers (index + 1) limit
    else .error .stuck
  else return index
termination_by limit - index

/-- Behind the visibility, if there is one. -/
def skipVisibility (index limit : Nat) : Except Halt Nat := do
  if ← input.isWord index limit "pub" then
    if ← input.isPunct (index + 1) limit "(" then input.skipGroup (index + 1) else return index + 1
  else return index

/-- The name in the position. -/
def ident (index limit : Nat) (what : Named) : Except Halt String := do
  let t ← input.tok index limit
  if t.kind = .ident then return t.text else input.fail (.expectedName what) index

/-! ### Attributes -/

/-- The path of an attribute and its arguments. -/
def attributeContent (index limit : Nat) : Except Halt (List String × Option Span) :=
  if _h : index < limit then do
    let t ← input.token index
    if t.kind = .ident ∨ t.text = "::" then
      let (path, args) ← attributeContent (index + 1) limit
      return (t.text :: path, args)
    else if t.text = "(" then
      return ([], some ⟨t.start, (← input.token (← input.partner index)).start⟩)
    else return ([], none)
  else return ([], none)
termination_by limit - index

def attributeSlot (hash opener closer : Nat) (inner : Bool) : Except Halt Slot := do
  let (path, args) ← input.attributeContent (opener + 1) closer
  let path := if path.isEmpty then none else some (String.join path)
  let start := (← input.token hash).start
  return {
    shape := .attribute path args inner, start, itemStart := start
    stop := (← input.token closer).stop }

/-- Reads attributes. Inner ones are added to `owner`, the places of outer ones are handed on. -/
def parseAttributes (index limit : Nat) (owner : Option Nat) (arena : Arena) :
    Except Halt (Nat × List Nat × Arena) := do
  if ← input.isPunct index limit "#" then
    let inner ← input.isPunct (index + 1) limit "!"
    let opener := index + (if inner then 2 else 1)
    if ← input.isPunct opener limit "[" then
      let closer ← input.partner opener
      let slot ← input.attributeSlot index opener closer inner
      let (place, arena) ← arena.add slot (if inner then owner else none)
      if _h : index < limit ∧ index < closer + 1 then
        let (next, outer, arena) ← parseAttributes (closer + 1) limit owner arena
        return (next, if inner then outer else place :: outer, arena)
      else .error .stuck
    else return (index, [], arena)
  else return (index, [], arena)
termination_by limit - index

/-! ### Fields and variants -/

/-- Reads the entries of a list from a position up to the closing delimiter, and adds them to the node in a
place. `read` reads one from behind its attributes on: what it is, where it ends, and the position of the
comma behind it. -/
def parseEntries (read : Nat → Nat → Except Halt (Shape × Nat × Nat)) (index closer owner position : Nat)
    (arena : Arena) : Except Halt Arena :=
  if _h : index < closer then do
    let (first, attributes, arena) ← input.parseAttributes index closer none arena
    if closer ≤ first then return arena
    let start := (← input.token first).start
    let (shape, stop, comma) ← read position first
    let (place, arena) ← arena.add { shape, start, itemStart := start, stop } (some owner)
    let arena ← arena.attach place attributes
    if _h' : index < comma + 1 then parseEntries read (comma + 1) closer owner (position + 1) arena
    else .error .stuck
  else return arena
termination_by closer - index

/-- Reads the field of a struct in braces. -/
def readRecordField (closer _position first : Nat) : Except Halt (Shape × Nat × Nat) := do
  let cursor ← input.skipVisibility first closer
  let name ← input.ident cursor closer .field
  if !(← input.isPunct (cursor + 1) closer ":") then input.fail .expectedColon (cursor + 1)
  else
    let comma ← input.scanListEntry (cursor + 2) closer 0
    if comma ≤ cursor + 2 then input.fail .expectedType (cursor + 2)
    else
      let stop := (← input.token (comma - 1)).stop
      return (.field name ⟨(← input.token (cursor + 2)).start, stop⟩, stop, comma)

/-- Reads the field of a struct in parentheses; it is named for its position. -/
def readTupleField (closer position first : Nat) : Except Halt (Shape × Nat × Nat) := do
  let cursor ← input.skipVisibility first closer
  let comma ← input.scanListEntry cursor closer 0
  let stop := (← input.token (comma - 1)).stop
  return (.field (toString position) ⟨(← input.token cursor).start, stop⟩, stop, comma)

/-- Reads the variant of an enum. -/
def readVariant (closer _position first : Nat) : Except Halt (Shape × Nat × Nat) := do
  let name ← input.ident first closer .variant
  let comma ← input.scanListEntry first closer 0
  return (.variant name, (← input.token (comma - 1)).stop, comma)

/-! ### Items -/

/-- The positions of the delimiters in the text. -/
def bodySpan (opener closer : Nat) : Except Halt Span :=
  return ⟨(← input.token opener).start, (← input.token closer).start⟩

/-- Writes down the body of a struct in a place. -/
def openBody (place : Nat) (name : String) (opener closer : Nat) (arena : Arena) : Except Halt Arena := do
  let span ← input.bodySpan opener closer
  arena.update place fun s => { s with shape := .item .struct_ (some name) (some span) }

/-- Writes down the end of a struct in a place: it ends in front of a position. -/
def finish (behind place : Nat) (arena : Arena) : Except Halt (Nat × Nat × Arena) := do
  let stop := (← input.token (behind - 1)).stop
  return (behind, place, ← arena.update place fun s => { s with stop })

/-- Reads a struct from its keyword on: the position behind it, and its place in the arena. -/
def parseStruct (index limit itemStart owner : Nat) (arena : Arena) :
    Except Halt (Nat × Nat × Arena) := do
  let name ← input.ident (index + 1) limit .struct_
  let cursor ← input.skipGenerics (index + 2) limit
  let (place, arena) ← arena.add
    { shape := .item .struct_ (some name) none, start := itemStart, itemStart, stop := 0 } (some owner)
  if ← input.isPunct cursor limit "(" then
    let closer ← input.partner cursor
    let arena ← input.openBody place name cursor closer arena
    let arena ← input.parseEntries (input.readTupleField closer) (cursor + 1) closer place 0 arena
    input.finish ((← input.scanTo (closer + 1) limit [";"]) + 1) place arena
  else
    let cursor ← input.scanTo cursor limit ["\x7b", ";"]
    if (← input.token cursor).text = ";" then input.finish (cursor + 1) place arena
    else
      let closer ← input.partner cursor
      let arena ← input.openBody place name cursor closer arena
      let arena ← input.parseEntries (input.readRecordField closer) (cursor + 1) closer place 0 arena
      input.finish (closer + 1) place arena

/-- Reads an enum from its keyword on. -/
def parseEnum (index limit itemStart owner : Nat) (arena : Arena) :
    Except Halt (Nat × Nat × Arena) := do
  let name ← input.ident (index + 1) limit .enum_
  let cursor ← input.scanTo (← input.skipGenerics (index + 2) limit) limit ["\x7b"]
  let closer ← input.partner cursor
  let (place, arena) ← arena.add
    { shape := .item .enum_ (some name) (some (← input.bodySpan cursor closer)), start := itemStart
      itemStart, stop := (← input.token closer).stop } (some owner)
  return (closer + 1, place,
    ← input.parseEntries (input.readVariant closer) (cursor + 1) closer place 0 arena)

/-- Reads a function from its keyword on; what its body holds is not read. -/
def parseFunction (index limit itemStart owner : Nat) (arena : Arena) :
    Except Halt (Nat × Nat × Arena) := do
  let name ← input.ident (index + 1) limit .function
  let cursor ← input.scanTo (index + 2) limit ["\x7b", ";"]
  let last ← input.token cursor
  if last.text = "\x7b" then
    let closer ← input.partner cursor
    let (place, arena) ← arena.add
      { shape := .item .function (some name) (some (← input.bodySpan cursor closer))
        start := itemStart, itemStart, stop := (← input.token closer).stop } (some owner)
    return (closer + 1, place, arena)
  else
    let (place, arena) ← arena.add
      { shape := .item .function (some name) none, start := itemStart, itemStart, stop := last.stop }
      (some owner)
    return (cursor + 1, place, arena)

/-- Reads a module, a trait or an implementation block from its keyword on. `held` reads the items from a
position up to another one and adds them to the node in a place. -/
def parseBlock (held : Nat → Nat → Nat → Arena → Except Halt Arena) (index limit itemStart owner : Nat)
    (kind : ItemKind) (what : Option Named) (arena : Arena) : Except Halt (Nat × Nat × Arena) := do
  let name ← what.mapM (input.ident (index + 1) limit)
  let cursor ← input.scanTo (index + 1) limit ["\x7b", ";"]
  let last ← input.token cursor
  let (place, arena) ← arena.add
    { shape := .item kind name none, start := itemStart, itemStart, stop := last.stop } (some owner)
  if last.text = ";" then return (cursor + 1, place, arena)
  else
    let closer ← input.partner cursor
    let span ← input.bodySpan cursor closer
    let stop := (← input.token closer).stop
    let arena ← arena.update place fun s => { s with shape := .item kind name (some span), stop }
    return (closer + 1, place, ← held (cursor + 1) closer place arena)

/-- Reads an item that ends at a position that is found. -/
def parseLine (behind itemStart owner : Nat) (kind : ItemKind) (name : Option String) (arena : Arena) :
    Except Halt (Nat × Nat × Arena) := do
  let stop := (← input.token (behind - 1)).stop
  let (place, arena) ← arena.add
    { shape := .item kind name none, start := itemStart, itemStart, stop } (some owner)
  return (behind, place, arena)

/-- The word that says what kind of item stands in the position. -/
def keyword (index limit : Nat) : Except Halt String := do
  if index < limit then return (← input.token index).text else return ""

/-- The name of a type alias whose keyword stands in the position. -/
def aliasName (index limit : Nat) : Except Halt (Option String) := do
  if index + 1 < limit then
    let t ← input.token (index + 1)
    if t.kind = .ident then return some t.text else return none
  else return none

/-- Reads an item whose visibility and qualifiers are read. -/
def parseKeyword (held : Nat → Nat → Nat → Arena → Except Halt Arena) (index limit itemStart owner : Nat)
    (arena : Arena) : Except Halt (Nat × Nat × Arena) := do
  let word ← input.keyword index limit
  if word = "struct" ∨ word = "union" then input.parseStruct index limit itemStart owner arena
  else if word = "enum" then input.parseEnum index limit itemStart owner arena
  else if word = "fn" then input.parseFunction index limit itemStart owner arena
  else if word = "mod" then
    input.parseBlock held index limit itemStart owner .module (some .module) arena
  else if word = "trait" then
    input.parseBlock held index limit itemStart owner .trait_ (some .trait_) arena
  else if word = "impl" then input.parseBlock held index limit itemStart owner .impl none arena
  else
    let name ← if word = "type" then input.aliasName index limit else pure none
    if word = "type" ∧ name.isSome then
      input.parseLine ((← input.scanTo index limit [";"]) + 1) itemStart owner .typeAlias name arena
    else if word = "use" then
      input.parseLine ((← input.scanTo index limit [";"]) + 1) itemStart owner .use none arena
    else input.parseLine (← input.skipOther index limit) itemStart owner .other none arena

/-- Reads the attributes in a position and what follows them. -/
def parseItem (held : Nat → Nat → Nat → Arena → Except Halt Arena) (index limit owner : Nat)
    (arena : Arena) : Except Halt (Nat × Arena) := do
  let (first, attributes, arena) ← input.parseAttributes index limit (some owner) arena
  if limit ≤ first then return (first, ← Arena.trail owner attributes arena)
  let t ← input.token first
  if t.isPunct ";" then return (first + 1, arena)
  let cursor ← input.skipQualifiers (← input.skipVisibility first limit) limit
  let (behind, place, arena) ← input.parseKeyword held cursor limit t.start owner arena
  return (behind, ← arena.attach place attributes)

/-- Reads items from a position up to another one, and adds them to the node in a place. -/
def parseItems (index limit owner : Nat) (arena : Arena) : Except Halt Arena :=
  if _h : index < limit then do
    let held (first last place : Nat) (arena : Arena) : Except Halt Arena :=
      if _h' : index < first ∧ last ≤ limit then parseItems first last place arena
      else .error .stuck
    let (behind, arena) ← input.parseItem held index limit owner arena
    if _h' : index < behind then parseItems behind limit owner arena else .error .stuck
  else return arena
termination_by limit - index

end Input

end Reader

open Reader (Input)

/-- Reads a source text by positions: the nodes in an arena, where the file comes first. -/
def parseArena (source : List Char) : Except Halt Arena := do
  let tokens ← (tokenize source).mapError .failure
  let pairs ← (matchDelimiters tokens).mapError .failure
  let root : Slot := { shape := .file, start := 0, itemStart := 0, stop := source.length }
  (Input.mk source tokens pairs).parseItems 0 tokens.length 0 [root]

end ContractSync.Rust
