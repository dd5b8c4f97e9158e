import ContractSync.Document.Yaml.Cursor
import ContractSync.Document.Yaml.Implicit
import ContractSync.Text.CaseMap
import ContractSync.Text.Digit

/-!
# Values of scalars

A scalar of a given type has a value if its text is one of that type. Where the type comes from the
look of the text, all but a few dates have one; a tag may state any type.
-/

namespace ContractSync.Document.Yaml

/-! ### Whole numbers -/

/-- The value of a digit of a base, in any script for decimal digits. -/
def baseDigit? (base : Nat) (c : Char) : Option Nat := do
  let n ← (Text.decimalValue? c).or (Reference.Percent.digitValue? c)
  if n < base then some n else none

/-- The number that digits of a base write. -/
def ofDigits (base : Nat) (cs : List Char) : Except Refusal Nat :=
  if cs.isEmpty then .error (.fault .unreadable)
  else
    cs.foldlM (fun n c =>
      match baseDigit? base c with
      | some d => .ok (base * n + d)
      | none => .error (.fault .unreadable)) 0

/-- The text without the mark of a base. -/
def withoutMark (base : Nat) (cs : List Char) : List Char :=
  match cs with
  | '0' :: mark :: rest =>
    let small := mark.toLower
    if (base = 2 ∧ small = 'b') ∨ (base = 8 ∧ small = 'o') ∨ (base = 16 ∧ small = 'x') then rest
    else cs
  | _ => cs

/-- The whole number of a base that a text writes, with blanks around it and a sign allowed. -/
def ofBase (base : Nat) (cs : List Char) : Except Refusal Int := do
  let cs := Text.trim cs
  let n ← ofDigits base (withoutMark base (NodeType.unsigned cs))
  return if cs.head? = some '-' then -n else n

/-- The value of parts that each count sixty times the next one. -/
def sixties (parts : List Int) : Int := parts.foldl (fun n part => 60 * n + part) 0

/-- The value of a whole number. A leading zero stands for base eight. -/
def intOf (text : String) : Except Refusal Int := do
  let written := text.toList.filter (· != '_')
  let some first := written.head? | throw (.fault .empty)
  let cs := NodeType.unsigned written
  let n ←
    match cs with
    | [] => throw (.fault .empty)
    | ['0'] => pure 0
    | '0' :: 'b' :: rest => ofBase 2 rest
    | '0' :: 'x' :: rest => ofBase 16 rest
    | '0' :: _ => ofBase 8 cs
    | _ =>
      if cs.contains ':' then do
        let parts ← (Text.splitAt ':' cs).mapM (ofBase 10)
        pure (sixties parts)
      else ofBase 10 cs
  return if first = '-' then -n else n

/-! ### Numbers with places -/

/-- The bits of infinity. -/
def infinityBits (negative : Bool) : UInt64 :=
  if negative then 0xFFF0000000000000 else 0x7FF0000000000000

/-- The bits that stand for no number. -/
def notANumberBits : UInt64 := 0x7FF8000000000000

/-- Decimal digits of any script as plain ones. -/
def plainDigits (cs : List Char) : List Char :=
  cs.map fun c =>
    match Text.decimalValue? c with
    | some d => Char.ofNat ('0'.toNat + d)
    | none => c

/-- The bits of a decimal number without a sign. -/
def decimalBits (negative : Bool) (cs : List Char) : Except Refusal UInt64 := do
  let (mantissa, power) :=
    match Text.cutAt 'e' cs with
    | (mantissa, none) => (mantissa, none)
    | (mantissa, some power) => (mantissa, some power)
  let (whole, places) :=
    match Text.cutAt '.' mantissa with
    | (whole, none) => (whole, [])
    | (whole, some places) => (whole, places)
  let power : Int ←
    match power with
    | none => pure 0
    | some power =>
      let digits := NodeType.unsigned power
      let n ← if digits.all Char.isDigit then ofDigits 10 digits else throw (.fault .unreadable)
      pure (if power.head? = some '-' then -(n : Int) else n)
  let digits := whole ++ places
  if digits.isEmpty ∨ !digits.all Char.isDigit then throw (.fault .unreadable)
  return Decimal.bitsOfDecimal negative (Json.number digits) (power - places.length)

/-- The bits of a number in small letters, with blanks around it and a sign allowed. -/
def numberBits (cs : List Char) : Except Refusal UInt64 :=
  let cs := plainDigits (Text.trim cs)
  let negative := cs.head? == some '-'
  let rest := NodeType.unsigned cs
  let word := String.ofList rest
  if word == "inf" || word == "infinity" then .ok (infinityBits negative)
  else if word == "nan" then .ok notANumberBits
  else decimalBits negative rest

/-- The bits of the opposite number. -/
def negate (bits : UInt64) : UInt64 := bits ^^^ 0x8000000000000000

/-- The value of parts, from the last to the first, each counting `unit` and sixty times the one
before. -/
def sixtiesFloat (unit : Float) : List UInt64 → Float → Float
  | [], total => total
  | part :: rest, total => sixtiesFloat (unit * 60) rest (total + Float.ofBits part * unit)

/-- The bits of the value of a number with places. -/
def floatOf (text : String) : Except Refusal UInt64 := do
  let written := Text.lower (text.toList.filter (· != '_'))
  let some first := written.head? | throw (.fault .empty)
  let cs := NodeType.unsigned written
  let word := String.ofList cs
  if word = ".inf" then return infinityBits (first == '-')
  if word = ".nan" then return notANumberBits
  let bits ←
    if cs.contains ':' then do
      let parts ← (Text.splitAt ':' cs).mapM numberBits
      pure (sixtiesFloat 1.0 parts.reverse 0.0).toBits
    else numberBits cs
  return if first = '-' then negate bits else bits

/-! ### Other scalars -/

/-- The value of a word for a truth value. -/
def boolOf (text : String) : Except Refusal Bool :=
  let word := String.ofList (Text.lower text.toList)
  if ["yes", "true", "on"].contains word then .ok true
  else if ["no", "false", "off"].contains word then .ok false
  else .error (.fault .missing)

/-- The offset is less than a day. -/
def isOffset (offset : Int) : Bool := offset.natAbs < 86400

/-- The moment that a text writes. -/
def momentOf (text : String) : Except Refusal Moment :=
  match NodeType.moment text.toList with
  | none => .error (.fault .lacking)
  | some (m, _) =>
    if m.day.isValid && m.clock.all fun c => c.isValid && c.offset.all isOffset then .ok m
    else .error (.fault .unreadable)

/-- The six bits of a character in base 64. -/
def sixBits? (c : Char) : Option Nat :=
  let n := c.toNat
  if c.isUpper then some (n - 65)
  else if c.isLower then some (n - 71)
  else if c.isDigit then some (n + 4)
  else if c = '+' then some 62
  else if c = '/' then some 63
  else none

/-- The bytes of a text in base 64. `position` counts characters in the group of four, `carry` are the
bits of the last character that are still to be used, `pads` the signs that fill the group. Other
characters do not count. -/
def bytesFrom (position carry pads : Nat) : List Char → Except Refusal (List UInt8)
  | [] => if position = 0 then .ok [] else .error .malformed
  | c :: rest =>
    if c = '=' then
      if 2 ≤ position ∧ 4 ≤ position + pads + 1 then .ok []
      else bytesFrom position carry (if 2 ≤ position then pads + 1 else pads) rest
    else
      match sixBits? c with
      | none => bytesFrom position carry pads rest
      | some n =>
        match position with
        | 0 => bytesFrom 1 n 0 rest
        | 1 => (bytesFrom 2 (n % 16) 0 rest).map ((carry * 4 + n / 16).toUInt8 :: ·)
        | 2 => (bytesFrom 3 (n % 4) 0 rest).map ((carry * 16 + n / 4).toUInt8 :: ·)
        | _ => (bytesFrom 0 0 0 rest).map ((carry * 64 + n).toUInt8 :: ·)

/-- The bytes that a text writes. -/
def bytesOf (text : String) : Except Refusal (List UInt8) :=
  if text.toList.all fun c => c.toNat < 128 then bytesFrom 0 0 0 text.toList
  else .error .malformed

/-- The value of a scalar of some type. -/
def scalarOf (type : NodeType) (text : String) : Except Refusal Scalar :=
  match type with
  | .null => .ok .null
  | .bool => (boolOf text).map .bool
  | .int => (intOf text).map .int
  | .float => (floatOf text).map .float
  | .binary => (bytesOf text).map .bytes
  | .timestamp => (momentOf text).map .moment
  | .str => .ok (.text text)
  | _ => .error .malformed

end ContractSync.Document.Yaml
