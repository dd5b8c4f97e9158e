import ContractSync.Fault

/-!
# A place in a text

A cursor holds the text that is still to be read and knows the line and the column it stands in;
indentation gives YAML its structure.
-/

namespace ContractSync.Document.Yaml

/-- Why a text has no value. -/
inductive Refusal where
  /-- The text is not YAML. -/
  | malformed
  /-- A scalar is not what its tag says. -/
  | fault (f : Fault)
  deriving DecidableEq, Repr

/-- A character that ends a line. -/
def isBreak (c : Char) : Bool :=
  c == '\n' || c == '\r' || c == '\u0085' || c == '\u2028' || c == '\u2029'

/-- A character between words. -/
def isBlank (c : Char) : Bool := c == ' ' || c == '\t'

/-- The end of the text, a blank or the end of a line. -/
def endsWord : Option Char → Bool
  | none => true
  | some c => isBlank c || isBreak c

/-- The end of the text, a space or the end of a line. -/
def endsName : Option Char → Bool
  | none => true
  | some c => c == ' ' || isBreak c

/-- A place in a text. -/
structure Cursor where
  rest : List Char
  index : Nat := 0
  line : Nat := 0
  column : Nat := 0

namespace Cursor

/-- The next character, or one behind it. -/
def peek (c : Cursor) (n : Nat := 0) : Option Char := c.rest[n]?

/-- The place behind the next character. A byte order mark takes no column. -/
def step (c : Cursor) : Cursor :=
  match c.rest with
  | [] => c
  | ch :: rest =>
    if isBreak ch && !(ch == '\r' && rest.head? == some '\n') then
      { rest, index := c.index + 1, line := c.line + 1, column := 0 }
    else
      { rest, index := c.index + 1, line := c.line
        column := if ch == '\uFEFF' then c.column else c.column + 1 }

/-- The place behind some characters. -/
def skip : Nat → Cursor → Cursor
  | 0, c => c
  | n + 1, c => skip n c.step

/-- The place behind the characters in `p`. -/
def skipWhile (p : Char → Bool) (c : Cursor) : Cursor := c.skip (c.rest.takeWhile p).length

/-- The place behind spaces. -/
def skipSpaces (c : Cursor) : Cursor := c.skipWhile (· == ' ')

/-- The place behind a comment, if there is one. -/
def skipComment (c : Cursor) : Cursor :=
  if c.peek = some '#' then c.skipWhile (!isBreak ·) else c

/-- The end of a line: the character it counts as, and the place behind it. Most ends of lines count
as line feeds. -/
def lineBreak? (c : Cursor) : Option (Char × Cursor) :=
  match c.rest with
  | '\r' :: '\n' :: _ => some ('\n', c.skip 2)
  | ch :: _ =>
    if ch == '\u2028' || ch == '\u2029' then some (ch, c.step)
    else if isBreak ch then some ('\n', c.step)
    else none
  | [] => none

/-- Three marks stand here as a word. -/
def hasMarks (c : Cursor) (mark : Char) : Bool :=
  c.rest.take 3 == [mark, mark, mark] && endsWord (c.peek 3)

/-- The mark of the start or the end of a document stands here. -/
def atSeparator (c : Cursor) : Bool := c.hasMarks '-' || c.hasMarks '.'

end Cursor

/-- What the ends of lines between two words count as: one line feed is a space, further ones are
kept. -/
def folded (first : Char) (further : List Char) : List Char :=
  (if first ≠ '\n' then [first] else if further.isEmpty then [' '] else []) ++ further

end ContractSync.Document.Yaml
