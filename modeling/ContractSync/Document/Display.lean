import ContractSync.Document.Value
import ContractSync.Text.Printable

/-!
# Values as text

Where a document gives another value in the place of a string, its text is used: `display` writes a
string as it is and other values as a literal, `literal` writes strings in quotes, as they appear
inside lists and mappings.
-/

namespace ContractSync.Document

/-- The last `width` hexadecimal digits of a number. -/
def hex (width n : Nat) : String :=
  let digits := Nat.toDigits 16 n
  String.ofList (List.replicate (width - digits.length) '0' ++ digits)

namespace Quoted

/-- A quoted text is enclosed in single quotes unless only those occur in it. -/
def mark (single double : Bool) : Char := if single && !double then '"' else '\''

/-- One character between two `quote` marks. -/
def character (quote c : Char) : String :=
  if c = quote ∨ c = '\\' then String.ofList ['\\', c]
  else if c = '\t' then "\\t"
  else if c = '\n' then "\\n"
  else if c = '\r' then "\\r"
  else if Text.isPrintable c then String.singleton c
  else if c.toNat < 0x100 then "\\x" ++ hex 2 c.toNat
  else if c.toNat < 0x10000 then "\\u" ++ hex 4 c.toNat
  else "\\U" ++ hex 8 c.toNat

/-- A string in quotes, with escapes for what has no visible form. -/
def string (s : String) : String :=
  let quote := mark (s.toList.contains '\'') (s.toList.contains '"')
  String.singleton quote ++ String.join (s.toList.map (character quote))
    ++ String.singleton quote

/-- One byte between two `quote` marks. -/
def byte (quote : Char) (b : UInt8) : String :=
  if 32 ≤ b.toNat && b.toNat < 127 || b == 9 || b == 10 || b == 13 then
    character quote (Char.ofNat b.toNat)
  else "\\x" ++ hex 2 b.toNat

/-- Bytes in quotes. -/
def bytes (data : List UInt8) : String :=
  let quote := mark (data.contains 39) (data.contains 34)
  "b" ++ String.singleton quote ++ String.join (data.map (byte quote))
    ++ String.singleton quote

end Quoted

/-- A scalar as it appears inside other values. -/
def Scalar.literal : Scalar → String
  | .null => "None"
  | .bool b => if b then "True" else "False"
  | .int n => toString n
  | .float bits => Decimal.plain.write bits
  | .text s => Quoted.string s
  | .moment m => m.literal
  | .bytes data => Quoted.bytes data

/-- A scalar as text. -/
def Scalar.display : Scalar → String
  | .text s => s
  | .moment m => m.spaced
  | s => s.literal

namespace Value

mutual

/-- A value as it appears inside other values. -/
def literal : Value → String
  | .scalar s => s.literal
  | .list items => "[" ++ ", ".intercalate (literals items) ++ "]"
  | .mapping entries => "\x7b" ++ ", ".intercalate (literalEntries entries) ++ "\x7d"
  | .set [] => "set()"
  | .set members => "\x7b" ++ ", ".intercalate (members.map Scalar.literal) ++ "\x7d"

/-- The items of a list as they appear inside it. -/
def literals : List Value → List String
  | [] => []
  | v :: rest => v.literal :: literals rest

/-- The entries of a mapping as they appear inside it. -/
def literalEntries : List (Scalar × Value) → List String
  | [] => []
  | (k, v) :: rest => (k.literal ++ ": " ++ v.literal) :: literalEntries rest

end

/-- A value as text: strings stand for themselves. -/
def display : Value → String
  | .scalar s => s.display
  | v => v.literal

end Value

end ContractSync.Document
