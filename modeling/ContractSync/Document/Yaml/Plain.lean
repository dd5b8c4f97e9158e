import ContractSync.Document.Yaml.Cursor

/-!
# Plain scalars

A scalar without quotes ends at a mark that has a meaning of its own. It may go on in the next line if
that is indented.
-/

namespace ContractSync.Document.Yaml.Plain

/-- The marks that end a plain scalar inside brackets or braces. -/
def isFlowMark (c : Char) : Bool :=
  c == ',' || c == '?' || c == '[' || c == ']' || c == '\x7b' || c == '\x7d'

/-- A colon ends the scalar if this follows. -/
def followsColon (inFlow : Bool) (next : Option Char) : Bool :=
  endsWord next || (inFlow && next.any fun c => c != '?' && isFlowMark c)

/-- The number of characters of the scalar's next word. -/
def wordLength (inFlow : Bool) : List Char → Nat
  | [] => 0
  | c :: rest =>
    if endsWord (some c) || (c == ':' && followsColon inFlow rest.head?)
        || (inFlow && isFlowMark c) then 0
    else wordLength inFlow rest + 1

/-- What stands between two words of the scalar. -/
structure Gap where
  /-- What it counts as; nothing if the scalar ends here. -/
  text : List Char
  /-- A line ended. -/
  broke : Bool
  cursor : Cursor

/-- The further ends of lines between two words; none if a document ends there. -/
def breaks : Nat → Cursor → Option (List Char) × Cursor
  | 0, c => (none, c)
  | fuel + 1, c =>
    let c := c.skipSpaces
    match c.lineBreak? with
    | some (b, c) =>
      if c.atSeparator then (none, c)
      else
        let (more, c) := breaks fuel c
        (more.map (b :: ·), c)
    | none => (some [], c)

/-- The gap at a place. -/
def gapAt (c : Cursor) : Gap :=
  let blanks := c.rest.takeWhile (· == ' ')
  let c := c.skip blanks.length
  match c.lineBreak? with
  | none => ⟨blanks, false, c⟩
  | some (b, c) =>
    if c.atSeparator then ⟨[], true, c⟩
    else
      match breaks (c.rest.length + 1) c with
      | (some more, c) => ⟨folded b more, true, c⟩
      | (none, c) => ⟨[], true, c⟩

/-- The gap ends the scalar. -/
def Gap.isLast (g : Gap) (inFlow : Bool) (indent : Nat) : Bool :=
  g.text.isEmpty || g.cursor.peek == some '#' || (!inFlow && g.cursor.column < indent)

/-- A plain scalar: its text, and whether a line ended behind it. -/
structure Found where
  text : List Char
  broke : Bool
  cursor : Cursor

/-- The words of the scalar behind a gap. -/
def words (inFlow : Bool) (indent : Nat) : Nat → Gap → Found
  | 0, g => ⟨[], g.broke, g.cursor⟩
  | fuel + 1, g =>
    let n := wordLength inFlow g.cursor.rest
    if n = 0 then ⟨[], g.broke, g.cursor⟩
    else
      let next := gapAt (g.cursor.skip n)
      let found : Found :=
        if next.isLast inFlow indent then ⟨[], next.broke, next.cursor⟩
        else words inFlow indent fuel next
      { found with text := g.text ++ g.cursor.rest.take n ++ found.text }

/-- The scalar at a place; lines that belong to it are indented by `indent` or more. -/
def read (inFlow : Bool) (indent : Nat) (c : Cursor) : Found :=
  words inFlow indent (c.rest.length + 1) ⟨[], false, c⟩

end ContractSync.Document.Yaml.Plain
