import ContractSync.Text.Utf8

/-!
# Percent escapes

`%` and two hexadecimal digits stand for a byte. The bytes of an ASCII stretch are read together as
UTF-8; a malformed escape stands for itself.
-/

namespace ContractSync.Reference.Percent

/-- The value of a hexadecimal digit. -/
def digitValue? (c : Char) : Option Nat :=
  if c.isDigit then some (c.toNat - '0'.toNat)
  else if 'a' ≤ c ∧ c ≤ 'f' then some (c.toNat - 'a'.toNat + 10)
  else if 'A' ≤ c ∧ c ≤ 'F' then some (c.toNat - 'A'.toNat + 10)
  else none

/-- The byte that two hexadecimal digits write. -/
def byte? (high low : Char) : Option UInt8 := do
  let h ← digitValue? high
  let l ← digitValue? low
  return UInt8.ofNat (16 * h + l)

/-- The bytes of an ASCII text with its escapes undone. -/
def bytes : List Char → List UInt8
  | '%' :: high :: low :: rest =>
    match byte? high low with
    | some b => b :: bytes rest
    | none => 37 :: bytes (high :: low :: rest)
  | c :: rest => UInt8.ofNat c.toNat :: bytes rest
  | [] => []

/-- The text with its escapes undone. `stretch` holds the ASCII characters before, reversed. -/
def decodeAfter (stretch : List Char) : List Char → List Char
  | [] => Text.Utf8.decodeLossy (bytes stretch.reverse)
  | c :: rest =>
    if c.toNat < 128 then decodeAfter (c :: stretch) rest
    else Text.Utf8.decodeLossy (bytes stretch.reverse) ++ c :: decodeAfter [] rest

/-- The text with its escapes undone. -/
def decode (cs : List Char) : List Char := decodeAfter [] cs

end ContractSync.Reference.Percent
