import ContractSync.Document.Yaml.Block
import ContractSync.Document.Yaml.Plain
import ContractSync.Document.Yaml.Tag

/-!
# The tokens of a text

Tokens are taken one after another; indentation opens and closes blocks. What stands in front of a
colon in the same line is a key, which shows only when the colon is met: the token that says so is put
in afterwards.
-/

/-!
## Tokens of YAML

The tokens of a text are its marks and scalars, and besides them the starts and ends of blocks that
indentation makes.
-/

namespace ContractSync.Document.Yaml

/-- The two kinds of collections. -/
inductive Collection where
  | sequence
  | mapping
  deriving DecidableEq, Repr

/-- A token. -/
inductive Token where
  | blockStart (kind : Collection)
  | blockEnd
  | flowStart (kind : Collection)
  | flowEnd (kind : Collection)
  /-- A comma in brackets or braces. -/
  | flowEntry
  /-- The dash of an item. -/
  | blockEntry
  /-- What follows is a key. -/
  | key
  /-- What follows is the value of a key. -/
  | value
  | documentStart
  | documentEnd
  | directive (d : Directive)
  | alias (name : String)
  | anchor (name : String)
  | tag (t : WrittenTag)
  | scalar (text : String) (plain : Bool)
  deriving DecidableEq, Repr

end ContractSync.Document.Yaml

/-! ## Taking tokens -/

namespace ContractSync.Document.Yaml

/-- A place where a key may have started. -/
structure SimpleKey where
  /-- The number of tokens in front of it. -/
  position : Nat
  /-- Nothing but a key can stand there. -/
  required : Bool
  cursor : Cursor

/-- The state of taking tokens. -/
structure Layout where
  cursor : Cursor
  /-- The tokens so far in reverse, and their number. -/
  tokens : List Token := []
  count : Nat := 0
  /-- The number of open brackets and braces. -/
  flow : Nat := 0
  /-- The column of the innermost block, and of those around it. -/
  indent : Int := -1
  indents : List Int := []
  /-- A key may start here. -/
  allowKey : Bool := true
  /-- The places where a key may have started, by the number of open brackets and braces. -/
  keys : List (Nat × SimpleKey) := []

/-- A step that takes tokens. -/
abbrev Take := StateT Layout (Except Refusal)

namespace Layout

/-- The text is not YAML. -/
def refuse : Take α := throw .malformed

/-- Adds a token. -/
def push (t : Token) : Take Unit :=
  modify fun s => { s with tokens := t :: s.tokens, count := s.count + 1 }

/-- Puts a token in front of those from a position on. -/
def insert (position : Nat) (t : Token) : Take Unit :=
  modify fun s =>
    let behind := s.count - position
    { s with tokens := s.tokens.take behind ++ t :: s.tokens.drop behind, count := s.count + 1 }

/-- Goes on behind some characters. -/
def advance (n : Nat) : Take Unit := modify fun s => { s with cursor := s.cursor.skip n }

/-- Says whether a key may start here. -/
def setAllowKey (allow : Bool) : Take Unit := modify fun s => { s with allowKey := allow }

/-! ### Blocks -/

/-- Closes the blocks that are indented further than a column. -/
def unwind (column : Int) : List Int → Int → Take Unit
  | outer, indent => do
    if indent ≤ column then modify fun s => { s with indent, indents := outer }
    else
      push .blockEnd
      match outer with
      | [] => modify fun s => { s with indent := -1, indents := [] }
      | next :: outer => unwind column outer next

/-- Closes the blocks that end where the text goes on in a column; none inside brackets. -/
def closeBlocks (column : Int) : Take Unit := do
  let s ← get
  if s.flow = 0 then unwind column s.indents s.indent

/-- Opens a block in a column unless it is open already. -/
def openBlock (column : Nat) (kind : Collection) (position : Option Nat) : Take Unit := do
  let s ← get
  if s.indent < column then
    set { s with indents := s.indent :: s.indents, indent := (column : Int) }
    match position with
    | some position => insert position (.blockStart kind)
    | none => push (.blockStart kind)

/-! ### Keys -/

/-- Forgets the places for keys that lie in an earlier line or too far back. -/
def forgetStale : Take Unit := do
  let s ← get
  let isStale := fun (key : SimpleKey) =>
    key.cursor.line != s.cursor.line || s.cursor.index - key.cursor.index > 1024
  if s.keys.any fun k => isStale k.2 && k.2.required then refuse
  set { s with keys := s.keys.filter fun k => !isStale k.2 }

/-- Forgets the place for a key between the innermost brackets. -/
def forgetKey : Take Unit := do
  let s ← get
  if s.keys.any fun k => k.1 == s.flow && k.2.required then refuse
  set { s with keys := s.keys.filter fun k => k.1 != s.flow }

/-- Keeps this place in mind as one where a key may have started. -/
def noteKey : Take Unit := do
  if (← get).allowKey then
    forgetKey
    modify fun s =>
      let required := s.flow == 0 && s.indent == s.cursor.column
      { s with keys := (s.flow, ⟨s.count, required, s.cursor⟩) :: s.keys }

/-! ### Tokens -/

/-- A mark between documents, or a directive. -/
def documentMark (t : Token) (behind : Cursor) : Take Unit := do
  closeBlocks (-1)
  forgetKey
  setAllowKey false
  modify fun s => { s with cursor := behind }
  push t

/-- An opening bracket or brace. -/
def flowStart (kind : Collection) : Take Unit := do
  noteKey
  modify fun s => { s with flow := s.flow + 1, allowKey := true }
  advance 1
  push (.flowStart kind)

/-- A closing bracket or brace. -/
def flowEnd (kind : Collection) : Take Unit := do
  forgetKey
  if (← get).flow = 0 then refuse
  modify fun s => { s with flow := s.flow - 1, allowKey := false }
  advance 1
  push (.flowEnd kind)

/-- A comma. -/
def flowEntry : Take Unit := do
  setAllowKey true
  forgetKey
  advance 1
  push .flowEntry

/-- Opens a block for a mark that stands here, where blocks are made by indentation. -/
def openHere (kind : Collection) : Take Unit := do
  let s ← get
  if s.flow = 0 then
    if !s.allowKey then refuse
    openBlock s.cursor.column kind none

/-- The dash of an item. -/
def blockEntry : Take Unit := do
  openHere .sequence
  setAllowKey true
  forgetKey
  advance 1
  push .blockEntry

/-- The mark of a key. -/
def key : Take Unit := do
  openHere .mapping
  setAllowKey ((← get).flow == 0)
  forgetKey
  advance 1
  push .key

/-- The colon behind a key. -/
def value : Take Unit := do
  let s ← get
  match s.keys.find? (·.1 == s.flow) with
  | some (_, found) =>
    set { s with keys := s.keys.filter fun k => k.1 != s.flow }
    insert found.position .key
    if s.flow = 0 then openBlock found.cursor.column .mapping (some found.position)
    setAllowKey false
  | none =>
    openHere .mapping
    setAllowKey (s.flow == 0)
    forgetKey
  advance 1
  push .value

/-- A name behind the mark of an anchor or an alias. -/
def name (make : String → Token) : Take Unit := do
  noteKey
  setAllowKey false
  let s ← get
  let name := (s.cursor.rest.drop 1).takeWhile Tag.isNameChar
  let behind := s.cursor.skip (name.length + 1)
  let ends := endsWord behind.peek || behind.peek.any "?:,]\x7d%@\x60".toList.contains
  if name.isEmpty || !ends then refuse
  set { s with cursor := behind }
  push (make (String.ofList name))

/-- A tag. -/
def tag : Take Unit := do
  noteKey
  setAllowKey false
  let s ← get
  let (t, behind) ← Tag.read s.cursor
  set { s with cursor := behind }
  push (.tag t)

/-- A block scalar. -/
def blockScalar (foldLines : Bool) : Take Unit := do
  setAllowKey true
  forgetKey
  let s ← get
  let (text, behind) ← Block.read foldLines s.indent s.cursor.step
  set { s with cursor := behind }
  push (.scalar (String.ofList text) false)

/-- A scalar in quotes. -/
def quotedScalar (quote : Char) : Take Unit := do
  noteKey
  setAllowKey false
  let s ← get
  let (text, behind) ← Quoted.read quote s.cursor
  set { s with cursor := behind }
  push (.scalar (String.ofList text) false)

/-- A plain scalar. -/
def plainScalar : Take Unit := do
  noteKey
  let s ← get
  let found := Plain.read (s.flow != 0) (s.indent + 1).toNat s.cursor
  set { s with cursor := found.cursor, allowKey := found.broke }
  push (.scalar (String.ofList found.text) true)

/-- A plain scalar may start here. -/
def startsPlain (s : Layout) (ch : Char) : Bool :=
  if endsWord (some ch) then false
  else if "-?:,[]\x7b\x7d#&*!|>'\"%@\x60".toList.contains ch then
    !endsWord (s.cursor.peek 1) && (ch == '-' || (s.flow == 0 && (ch == '?' || ch == ':')))
  else true

/-- The place of the next token, behind blank lines and comments; and whether a line ended. -/
def nextPlace : Nat → Cursor → Bool → Cursor × Bool
  | 0, c, broke => (c, broke)
  | fuel + 1, c, broke =>
    let c := c.skipSpaces.skipComment
    match c.lineBreak? with
    | some (_, c) => nextPlace fuel c true
    | none => (c, broke)

/-- Goes to the next token. -/
def toNext : Take Unit :=
  modify fun s =>
    let start := if s.cursor.index = 0 ∧ s.cursor.peek = some '\uFEFF' then s.cursor.step else s.cursor
    let (place, broke) := nextPlace (start.rest.length + 1) start false
    { s with cursor := place, allowKey := s.allowKey || (broke && s.flow == 0) }

/-- Takes the token that starts with a character. -/
def takeToken (ch : Char) : Take Unit := do
  let s ← get
  let c := s.cursor
  let block := s.flow == 0
  let wordEnds := endsWord (c.peek 1)
  if ch = '%' ∧ c.column = 0 then
    let (d, behind) ← Directive.read c
    documentMark (.directive d) behind
  else if c.column = 0 ∧ c.hasMarks '-' then documentMark .documentStart (c.skip 3)
  else if c.column = 0 ∧ c.hasMarks '.' then documentMark .documentEnd (c.skip 3)
  else if ch = '[' then flowStart .sequence
  else if ch = '\x7b' then flowStart .mapping
  else if ch = ']' then flowEnd .sequence
  else if ch = '\x7d' then flowEnd .mapping
  else if ch = ',' then flowEntry
  else if ch = '-' ∧ wordEnds then blockEntry
  else if ch = '?' ∧ (!block || wordEnds) then key
  else if ch = ':' ∧ (!block || wordEnds) then value
  else if ch = '*' then name .alias
  else if ch = '&' then name .anchor
  else if ch = '!' then tag
  else if ch = '|' ∧ block then blockScalar false
  else if ch = '>' ∧ block then blockScalar true
  else if ch = '\'' ∨ ch = '"' then quotedScalar ch
  else if startsPlain s ch then plainScalar
  else refuse

/-- Takes all tokens. Each takes at least one character of the text. -/
def takeAll : Nat → Take Unit
  | 0 => refuse
  | fuel + 1 => do
    toNext
    forgetStale
    let s ← get
    closeBlocks s.cursor.column
    match s.cursor.peek with
    | some ch =>
      takeToken ch
      takeAll fuel
    | none =>
      closeBlocks (-1)
      forgetKey

end Layout

/-- The characters that a YAML text may hold. -/
def isAllowed (c : Char) : Bool :=
  let n := c.toNat
  n == 9 || n == 10 || n == 13 || (0x20 ≤ n && n ≤ 0x7E) || n == 0x85
    || (0xA0 ≤ n && n ≤ 0xD7FF) || (0xE000 ≤ n && n ≤ 0xFFFD) || 0x10000 ≤ n

/-- The tokens of a text. -/
def tokens (text : List Char) : Except Refusal (List Token) := do
  if !text.all isAllowed then throw .malformed
  let (_, last) ← (Layout.takeAll (text.length + 1)).run ({ cursor := ⟨text, 0, 0, 0⟩ } : Layout)
  return last.tokens.reverse

end ContractSync.Document.Yaml
