import ContractSync.Document.Display
import ContractSync.Fault

/-!
# Writing JSON

Every character outside ASCII is written as an escape, so that the written text is ASCII. `write`
puts all on one line; `writeIndented` gives every item and entry a line of its own.
-/

namespace ContractSync.Document.Json

/-- One code unit as an escape. -/
def unitEscape (n : Nat) : String := "\\u" ++ hex 4 n

/-- One character of a string. -/
def writeChar (c : Char) : String :=
  if c = '"' then "\\\""
  else if c = '\\' then "\\\\"
  else if c = '\n' then "\\n"
  else if c = '\r' then "\\r"
  else if c = '\t' then "\\t"
  else if c = '\x08' then "\\b"
  else if c = '\x0c' then "\\f"
  else if 32 ≤ c.toNat ∧ c.toNat < 127 then String.singleton c
  else if c.toNat < 0x10000 then unitEscape c.toNat
  else
    let n := c.toNat - 0x10000
    unitEscape (0xD800 + n / 0x400) ++ unitEscape (0xDC00 + n % 0x400)

/-- A string in quotes. -/
def writeString (s : String) : String :=
  "\"" ++ String.join (s.toList.map writeChar) ++ "\""

/-- A float; what is no finite number is written as a word. -/
def writeFloat (bits : UInt64) : String :=
  match Decimal.Reading.ofBits bits with
  | .finite _ => Decimal.plain.write bits
  | .infinite negative => if negative then "-Infinity" else "Infinity"
  | .notANumber => "NaN"

/-- A scalar; moments and bytes are written as their text. -/
def writeScalar : Scalar → String
  | .null => "null"
  | .bool b => if b then "true" else "false"
  | .int n => toString n
  | .float bits => writeFloat bits
  | .text s => writeString s
  | .moment m => writeString m.iso
  | .bytes data => writeString (Quoted.bytes data)

/-- A key: truth values, numbers and null as their words. -/
def writeKey : Scalar → String
  | .text s => writeString s
  | .null => writeString "null"
  | .bool b => writeString (if b then "true" else "false")
  | k => writeString k.display

mutual

/-- A value on one line. -/
def write : Value → String
  | .scalar s => writeScalar s
  | .list items => "[" ++ ",".intercalate (writeItems items) ++ "]"
  | .mapping entries => "\x7b" ++ ",".intercalate (writeEntries entries) ++ "\x7d"
  | .set members => "[" ++ ",".intercalate (members.map writeScalar) ++ "]"

/-- The items of a list. -/
def writeItems : List Value → List String
  | [] => []
  | v :: rest => write v :: writeItems rest

/-- The entries of a mapping. -/
def writeEntries : List (Scalar × Value) → List String
  | [] => []
  | (k, v) :: rest => (writeKey k ++ ":" ++ write v) :: writeEntries rest

end

/-- Lines between an opening and a closing mark, each indented; none if there are no parts. -/
def block (depth : Nat) (opening closing : String) (parts : List String) : String :=
  if parts.isEmpty then opening ++ closing
  else
    let line := "\n" ++ String.ofList (List.replicate (2 * (depth + 1)) ' ')
    opening ++ line ++ ("," ++ line).intercalate parts ++ "\n"
      ++ String.ofList (List.replicate (2 * depth) ' ') ++ closing

mutual

/-- A value at a depth of nesting, with two blanks per level. -/
def writeAt (depth : Nat) : Value → String
  | .scalar s => writeScalar s
  | .list items => block depth "[" "]" (writeItemsAt depth items)
  | .mapping entries => block depth "\x7b" "\x7d" (writeEntriesAt depth entries)
  | .set members => block depth "[" "]" (members.map writeScalar)

/-- The items of a list at a depth of nesting. -/
def writeItemsAt (depth : Nat) : List Value → List String
  | [] => []
  | v :: rest => writeAt (depth + 1) v :: writeItemsAt depth rest

/-- The entries of a mapping at a depth of nesting. -/
def writeEntriesAt (depth : Nat) : List (Scalar × Value) → List String
  | [] => []
  | (k, v) :: rest => (writeKey k ++ ": " ++ writeAt (depth + 1) v) :: writeEntriesAt depth rest

end

/-- A value with one line per item and entry. -/
def writeIndented (v : Value) : String := writeAt 0 v

end ContractSync.Document.Json

/-!
## Values that JSON can write

JSON has no dates, bytes and sets, and its keys are strings. `Value.plain` turns other keys into text
and refuses values that JSON has no form for.
-/

namespace ContractSync.Document

/-- The scalar, if JSON has a form for it. -/
def Scalar.plain : Scalar → Except Fault Scalar
  | .moment _ | .bytes _ => .error .unsuited
  | s => .ok s

namespace Value

mutual

/-- The value with strings for keys. -/
def plain : Value → Except Fault Value
  | .scalar s => s.plain.map .scalar
  | .list items => (plainItems items).map .list
  | .mapping entries => (plainEntries entries).map fun ws => .mapping (Entries.ofWrites ws)
  | .set _ => .error .unsuited

/-- The items with strings for keys. -/
def plainItems : List Value → Except Fault (List Value)
  | [] => .ok []
  | v :: rest => do return (← plain v) :: (← plainItems rest)

/-- The entries with strings for keys. -/
def plainEntries : List (Scalar × Value) → Except Fault (List (Scalar × Value))
  | [] => .ok []
  | (k, v) :: rest => do return (.text k.display, ← plain v) :: (← plainEntries rest)

end

end Value

end ContractSync.Document
