import ContractSync.Document.Yaml.Quoted
import ContractSync.Text.Utf8

/-!
# Tags and directives

A tag says of what type a node is. It is written in full between angle brackets, or as a handle and a
suffix; directives say what handles stand for.
-/

namespace ContractSync.Document.Yaml

/-- A tag as it is written. -/
structure WrittenTag where
  handle : Option String
  suffix : String
  deriving DecidableEq, Repr

/-- A directive. -/
inductive Directive where
  | version (major : Nat)
  | tag (handle lead : String)
  /-- A directive without a known meaning. -/
  | other
  deriving DecidableEq, Repr

namespace Tag

/-- A character of names and handles. -/
def isNameChar (c : Char) : Bool := c.isAlphanum || c == '-' || c == '_'

/-- A character of an address, the percent sign aside. -/
def isAddressChar (c : Char) : Bool :=
  c.isAlphanum || "-;/?:@&=+$,_.!~*'()[]".toList.contains c

/-- The bytes that a run of escapes stands for. -/
def escapedBytes : Nat → Cursor → Except Refusal (List UInt8 × Cursor)
  | 0, c => .ok ([], c)
  | fuel + 1, c =>
    if c.peek = some '%' then do
      let n ← Quoted.hexNumber 2 c.step.rest
      let (more, c) ← escapedBytes fuel (c.skip 3)
      return (n.toUInt8 :: more, c)
    else .ok ([], c)

/-- An address, which may be empty. -/
def addressPart : Nat → Cursor → Except Refusal (List Char × Cursor)
  | 0, c => .ok ([], c)
  | fuel + 1, c =>
    match c.peek with
    | some ch =>
      if ch = '%' then do
        let (bytes, c) ← escapedBytes (c.rest.length + 1) c
        match Text.Utf8.decode bytes with
        | .ok text =>
          let (more, c) ← addressPart fuel c
          return (text ++ more, c)
        | .error _ => throw .malformed
      else if isAddressChar ch then do
        let (more, c) ← addressPart fuel c.step
        return (ch :: more, c)
      else .ok ([], c)
    | none => .ok ([], c)

/-- An address. -/
def address (c : Cursor) : Except Refusal (String × Cursor) := do
  let (cs, behind) ← addressPart (c.rest.length + 1) c
  if behind.index = c.index then throw .malformed
  return (String.ofList cs, behind)

/-- A handle: a name between exclamation marks, or the mark alone if a space follows. -/
def handle (c : Cursor) : Except Refusal (String × Cursor) := do
  if c.peek ≠ some '!' then throw .malformed
  if c.peek 1 = some ' ' then return ("!", c.step)
  let name := (c.rest.drop 1).takeWhile isNameChar
  if c.peek (name.length + 1) ≠ some '!' then throw .malformed
  return ("!" ++ String.ofList name ++ "!", c.skip (name.length + 2))

/-- The tag that starts with an exclamation mark. -/
def read (c : Cursor) : Except Refusal (WrittenTag × Cursor) := do
  let (tag, c) ←
    match c.peek 1 with
    | some '<' =>
      let (suffix, c) ← address (c.skip 2)
      if c.peek ≠ some '>' then throw .malformed
      pure ((⟨none, suffix⟩ : WrittenTag), c.step)
    | next =>
      if endsWord next then pure ((⟨none, "!"⟩ : WrittenTag), c.step)
      else
        let word := (c.rest.drop 1).takeWhile fun ch => !endsName (some ch)
        let (handle, c) ← if word.contains '!' then handle c else pure ("!", c.step)
        let (suffix, c) ← address c
        pure ((⟨some handle, suffix⟩ : WrittenTag), c)
  if !endsName c.peek then throw .malformed
  return (tag, c)

end Tag

namespace Directive

/-- A number, none of its digits missing. -/
def readNumber (c : Cursor) : Except Refusal (Nat × Cursor) := do
  let digits := c.rest.takeWhile Char.isDigit
  if digits.isEmpty then throw .malformed
  return (Json.number digits, c.skip digits.length)

/-- The version behind the name of its directive. -/
def readVersion (c : Cursor) : Except Refusal (Directive × Cursor) := do
  let (major, c) ← readNumber c.skipSpaces
  if c.peek ≠ some '.' then throw .malformed
  let (_, c) ← readNumber c.step
  if !endsName c.peek then throw .malformed
  return (.version major, c)

/-- The handle and what it stands for behind the name of the directive. -/
def readTag (c : Cursor) : Except Refusal (Directive × Cursor) := do
  let (handle, c) ← Tag.handle c.skipSpaces
  if c.peek ≠ some ' ' then throw .malformed
  let (lead, c) ← Tag.address c.skipSpaces
  if !endsName c.peek then throw .malformed
  return (.tag handle lead, c)

/-- The directive that starts with a percent sign. -/
def read (c : Cursor) : Except Refusal (Directive × Cursor) := do
  let name := (c.rest.drop 1).takeWhile Tag.isNameChar
  let c := c.skip (name.length + 1)
  if name.isEmpty ∨ !endsName c.peek then throw .malformed
  let (found, c) ←
    match String.ofList name with
    | "YAML" => readVersion c
    | "TAG" => readTag c
    | _ => pure (.other, c.skipWhile (!isBreak ·))
  let c := c.skipSpaces.skipComment
  match c.lineBreak? with
  | some (_, c) => return (found, c)
  | none => if c.rest.isEmpty then return (found, c) else throw .malformed

end Directive

end ContractSync.Document.Yaml
