import ContractSync.Document.Yaml.Cursor

/-!
# Block scalars

A block scalar takes whole lines, without their common indentation. A folded one joins lines into
paragraphs. Marks behind its indicator say how it is indented and what becomes of the ends of lines
behind it.
-/

namespace ContractSync.Document.Yaml.Block

/-- What stands behind the indicator of a block scalar. -/
structure Header where
  /-- Keep all ends of lines behind the text, or none; otherwise one is kept. -/
  keep : Option Bool := none
  indent : Option Nat := none

/-- The sign that says what is kept. -/
def keepSign? : Option Char → Option Bool
  | some '+' => some true
  | some '-' => some false
  | _ => none

/-- The digit that says how far the text is indented. -/
def indentDigit? (c : Option Char) : Option Nat :=
  c.bind fun c => if c.isDigit then some (c.toNat - '0'.toNat) else none

/-- The header of a block scalar. -/
def header (c : Cursor) : Except Refusal (Header × Cursor) := do
  let (found, c) : Header × Cursor :=
    match keepSign? c.peek with
    | some keep =>
      match indentDigit? (c.peek 1) with
      | some n => (⟨some keep, some n⟩, c.skip 2)
      | none => (⟨some keep, none⟩, c.step)
    | none =>
      match indentDigit? c.peek with
      | some n =>
        match keepSign? (c.peek 1) with
        | some keep => (⟨some keep, some n⟩, c.skip 2)
        | none => (⟨none, some n⟩, c.step)
      | none => ({}, c)
  if found.indent = some 0 ∨ !endsName c.peek then throw .malformed
  return (found, c)

/-- The place behind the rest of the header's line. -/
def endOfLine (c : Cursor) : Except Refusal Cursor :=
  let c := c.skipSpaces.skipComment
  match c.lineBreak? with
  | some (_, c) => .ok c
  | none => if c.rest.isEmpty then .ok c else .error .malformed

/-- The place behind spaces, up to a column. -/
def skipIndent (indent : Nat) (c : Cursor) : Cursor :=
  c.skip (min (indent - c.column) (c.rest.takeWhile (· == ' ')).length)

/-- The ends of empty lines, and the place where the next line's text starts. -/
def breaks (indent : Nat) : Nat → Cursor → List Char × Cursor
  | 0, c => ([], c)
  | fuel + 1, c =>
    let c := skipIndent indent c
    match c.lineBreak? with
    | some (b, c) =>
      let (more, c) := breaks indent fuel c
      (b :: more, c)
    | none => ([], c)

/-- The ends of empty lines, the greatest column that spaces reach in front of the text, and the place
where the text starts. -/
def leading : Nat → Cursor → List Char × Nat × Cursor
  | 0, c => ([], 0, c)
  | fuel + 1, c =>
    let c := c.skipSpaces
    match c.lineBreak? with
    | some (b, next) =>
      let (more, column, next) := leading fuel next
      (b :: more, max c.column column, next)
    | none => ([], c.column, c)

/-- The text of a block scalar up to its last line, the end of that line and those behind it. -/
structure Found where
  text : List Char
  lineEnd : List Char
  trailing : List Char
  cursor : Cursor

/-- A line that starts with a blank. -/
def startsBlank (c : Cursor) : Bool := c.peek.any isBlank

/-- What the end of a line inside the text counts as. -/
def joint (foldLines : Bool) (before after : Cursor) (lineEnd empty : List Char) : List Char :=
  if foldLines && lineEnd == ['\n'] && !startsBlank before && !startsBlank after then
    if empty.isEmpty then [' '] else []
  else lineEnd

/-- The lines of a block scalar; `empty` are the ends of the empty lines in front. -/
def lines (foldLines : Bool) (indent : Nat) : Nat → List Char → Cursor → Found
  | 0, empty, c => ⟨[], [], empty, c⟩
  | fuel + 1, empty, c =>
    if c.column ≠ indent ∨ c.rest.isEmpty then ⟨[], [], empty, c⟩
    else
      let line := c.rest.takeWhile (!isBreak ·)
      let behind := c.skip line.length
      let (lineEnd, behind) : List Char × Cursor :=
        match behind.lineBreak? with
        | some (b, behind) => ([b], behind)
        | none => ([], behind)
      let (more, next) := breaks indent (behind.rest.length + 1) behind
      if next.column = indent ∧ !next.rest.isEmpty then
        let found := lines foldLines indent fuel more next
        { found with text := empty ++ line ++ joint foldLines c next lineEnd more ++ found.text }
      else ⟨empty ++ line, lineEnd, more, next⟩

/-- The block scalar behind its indicator; `parent` is the indentation that it has to exceed. -/
def read (foldLines : Bool) (parent : Int) (c : Cursor) :
    Except Refusal (List Char × Cursor) := do
  let (header, c) ← header c
  let c ← endOfLine c
  let least := max (parent + 1).toNat 1
  let fuel := c.rest.length + 1
  let (indent, empty, c) : Nat × List Char × Cursor :=
    match header.indent with
    | some n => (least + n - 1, breaks (least + n - 1) fuel c)
    | none =>
      let (empty, column, c) := leading fuel c
      (max least column, empty, c)
  let found := lines foldLines indent fuel empty c
  let lineEnd := if header.keep = some false then [] else found.lineEnd
  let trailing := if header.keep = some true then found.trailing else []
  return (found.text ++ lineEnd ++ trailing, found.cursor)

end ContractSync.Document.Yaml.Block
