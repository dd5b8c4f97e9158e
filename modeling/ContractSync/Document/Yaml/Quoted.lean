import ContractSync.Document.Json.Token
import ContractSync.Document.Yaml.Cursor

/-!
# Quoted scalars

A scalar in quotes may run over several lines. In single quotes only the quote itself is written
twice; in double quotes a backslash starts an escape.
-/

namespace ContractSync.Document.Yaml.Quoted

/-- The characters that one-letter escapes stand for. -/
def simpleEscapes : List (Char × Char) :=
  [('0', '\x00'), ('a', '\x07'), ('b', '\x08'), ('t', '\t'), ('\t', '\t'), ('n', '\n'),
   ('v', '\x0b'), ('f', '\x0c'), ('r', '\r'), ('e', '\x1b'), (' ', ' '), ('"', '"'),
   ('\\', '\\'), ('/', '/'), ('N', '\u0085'), ('_', '\u00a0'), ('L', '\u2028'), ('P', '\u2029')]

/-- The number of hexadecimal digits that follow the letter of an escape. -/
def escapeLengths : List (Char × Nat) := [('x', 2), ('u', 4), ('U', 8)]

/-- The number that hexadecimal digits at the start of a text write. -/
def hexNumber (length : Nat) (cs : List Char) : Except Refusal Nat :=
  match Json.hexNumber? (cs.take length) with
  | some n => if cs.length < length then .error .malformed else .ok n
  | none => .error .malformed

/-- The character with a number. -/
def character (n : Nat) : Except Refusal Char :=
  if n < 0x110000 then .ok (Json.unitChar n)
  else .error (.fault (if n < 0x80000000 then .unreadable else .excessive))

/-- The second half of a pair of surrogates, written as an escape. -/
def lowSurrogate? (cs : List Char) : Option Nat :=
  match cs with
  | '\\' :: 'u' :: rest =>
    match hexNumber 4 rest with
    | .ok n => if 0xDC00 ≤ n ∧ n < 0xE000 then some n else none
    | .error _ => none
  | _ => none

/-- The character that an escape with digits stands for. -/
def numberEscape (length : Nat) (c : Cursor) : Except Refusal (Char × Cursor) := do
  let n ← hexNumber length c.rest
  let behind := c.skip length
  match lowSurrogate? behind.rest with
  | some low =>
    if 0xD800 ≤ n ∧ n < 0xDC00 then return (Json.pairChar n low, behind.skip 6)
    else return (← character n, behind)
  | none => return (← character n, behind)

/-- The further ends of lines between two words, with the blanks around them. -/
def breaks : Nat → Cursor → Except Refusal (List Char × Cursor)
  | 0, _ => .error .malformed
  | fuel + 1, c =>
    if c.atSeparator then .error .malformed
    else
      let c := c.skipWhile isBlank
      match c.lineBreak? with
      | some (b, c) => do
        let (more, c) ← breaks fuel c
        return (b :: more, c)
      | none => .ok ([], c)

/-- The blanks and ends of lines between two words, as they count. -/
def gap (c : Cursor) : Except Refusal (List Char × Cursor) :=
  let blanks := c.rest.takeWhile isBlank
  let c := c.skip blanks.length
  match c.lineBreak? with
  | some (b, c) => do
    let (more, c) ← breaks (c.rest.length + 1) c
    return (folded b more, c)
  | none => .ok (blanks, c)

/-- What an escape stands for, the backslash being read. An escaped end of a line is nothing. -/
def escape (c : Cursor) : Except Refusal (List Char × Cursor) := do
  let some ch := c.peek | throw .malformed
  match simpleEscapes.lookup ch with
  | some plain => return ([plain], c.step)
  | none =>
    match escapeLengths.lookup ch with
    | some length =>
      let (ch, c) ← numberEscape length c.step
      return ([ch], c)
    | none =>
      match c.lineBreak? with
      | some (_, c) => breaks (c.rest.length + 1) c
      | none => throw .malformed

/-- The text up to the closing quote. -/
def body (quote : Char) : Nat → Cursor → Except Refusal (List Char × Cursor)
  | 0, _ => .error .malformed
  | fuel + 1, c => do
    let some ch := c.peek | throw .malformed
    if ch = quote then
      if quote = '\'' ∧ c.peek 1 = some '\'' then
        let (more, c) ← body quote fuel (c.skip 2)
        return (quote :: more, c)
      else return ([], c.step)
    else
      let (part, c) ←
        if quote = '"' ∧ ch = '\\' then escape c.step
        else if endsWord (some ch) then gap c
        else pure ([ch], c.step)
      let (more, c) ← body quote fuel c
      return (part ++ more, c)

/-- The scalar that starts with a quote. -/
def read (quote : Char) (c : Cursor) : Except Refusal (List Char × Cursor) :=
  body quote (c.rest.length + 1) c.step

end ContractSync.Document.Yaml.Quoted
