import ContractSync.Document.Display
import ContractSync.Document.Yaml.Layout
import ContractSync.Text.Basic

/-!
# Writing YAML

Lists and mappings are written as blocks, strings in double quotes. Reading what was written gives the
value back.
-/

namespace ContractSync.Document.Yaml.Writer

/-- The character stands for itself between quotes. -/
def isVerbatim (c : Char) : Bool :=
  isAllowed c && !isBreak c && c != '\t' && c != '"' && c != '\\' && c != '\uFEFF'

/-- A character between quotes. -/
def character (c : Char) : String :=
  if isVerbatim c then String.singleton c
  else if c = '"' then "\\\""
  else if c = '\\' then "\\\\"
  else if c = '\n' then "\\n"
  else if c.toNat < 0x100 then "\\x" ++ hex 2 c.toNat
  else if c.toNat < 0x10000 then "\\u" ++ hex 4 c.toNat
  else "\\U" ++ hex 8 c.toNat

/-- A string. -/
def string (s : String) : String := "\"" ++ String.join (s.toList.map character) ++ "\""

/-- How a number is written whose exponent is in `cs`: its digits have a point. -/
def withPoint (cs : List Char) : List Char :=
  if cs.contains '.' then cs
  else
    match Text.cutAt 'e' cs with
    | (_, none) => cs
    | (digits, some power) => digits ++ ['.', '0', 'e'] ++ power

/-- A number with places. -/
def float (bits : UInt64) : String :=
  match Decimal.Reading.ofBits bits with
  | .finite _ => String.ofList (withPoint (Decimal.plain.write bits).toList)
  | .infinite negative => if negative then "-.inf" else ".inf"
  | .notANumber => ".nan"

/-- The character for six bits. -/
def sixBits (n : Nat) : Char :=
  if n < 26 then Char.ofNat (n + 65)
  else if n < 52 then Char.ofNat (n + 71)
  else if n < 62 then Char.ofNat (n - 4)
  else if n = 62 then '+'
  else '/'

/-- Bytes in base 64. -/
def base64 : List UInt8 → List Char
  | [] => []
  | [a] => [sixBits (a.toNat / 4), sixBits (a.toNat % 4 * 16), '=', '=']
  | [a, b] =>
    [sixBits (a.toNat / 4), sixBits (a.toNat % 4 * 16 + b.toNat / 16),
      sixBits (b.toNat % 16 * 4), '=']
  | a :: b :: c :: rest =>
    [sixBits (a.toNat / 4), sixBits (a.toNat % 4 * 16 + b.toNat / 16),
      sixBits (b.toNat % 16 * 4 + c.toNat / 64), sixBits (c.toNat % 64)] ++ base64 rest

/-- A scalar. -/
def scalar : Scalar → String
  | .null => "null"
  | .bool b => if b then "true" else "false"
  | .int n => toString n
  | .float bits => float bits
  | .text s => string s
  | .moment m => m.spaced
  | .bytes data => "!!binary \"" ++ String.ofList (base64 data) ++ "\""

/-- A set. -/
def set (members : List Scalar) : String :=
  "!!set \x7b" ++ ", ".intercalate (members.map fun s => "? " ++ scalar s) ++ "\x7d"

/-- Blanks in front of a line. -/
def indentation (depth : Nat) : String := String.ofList (List.replicate (2 * depth) ' ')

/-- A key with the mark in front of its value. Long keys have a mark of their own. -/
def key (depth : Nat) (k : Scalar) : String :=
  let text := scalar k
  if text.length < 128 then text ++ ":" else "? " ++ text ++ "\n" ++ indentation depth ++ ":"

mutual

/-- The text of a value behind a mark: on the same line, or as a block of lines. -/
def behind (depth : Nat) : Value → String
  | .scalar s => " " ++ scalar s ++ "\n"
  | .set members => " " ++ set members ++ "\n"
  | .list [] => " []\n"
  | .mapping [] => " \x7b\x7d\n"
  | .list (v :: rest) => "\n" ++ items depth (v :: rest)
  | .mapping (e :: rest) => "\n" ++ entries depth (e :: rest)

/-- The lines of the items of a list. -/
def items (depth : Nat) : List Value → String
  | [] => ""
  | v :: rest => indentation depth ++ "-" ++ behind (depth + 1) v ++ items depth rest

/-- The lines of the entries of a mapping. -/
def entries (depth : Nat) : List (Scalar × Value) → String
  | [] => ""
  | (k, v) :: rest =>
    indentation depth ++ key depth k ++ behind (depth + 1) v ++ entries depth rest

end

/-- A document whose root is a mapping. -/
def document (es : Entries) : String :=
  match es with
  | [] => "\x7b\x7d\n"
  | _ => entries 0 es

end ContractSync.Document.Yaml.Writer
