import ContractSync.Document.Value
import ContractSync.Reference.Percent

/-!
# Tokens of JSON

A JSON text is a sequence of marks (brackets, braces, commas and colons) and scalars. Numbers
without a fraction or an exponent are whole numbers of any size.
-/

namespace ContractSync.Document.Json

open ContractSync.Reference.Percent (digitValue?)

/-- A token: one of the marks `[]{},:`, or a scalar. -/
inductive Token where
  | mark (c : Char)
  | scalar (s : Scalar)
  deriving DecidableEq, Repr

/-- The marks. -/
def isMark (c : Char) : Bool :=
  c == '[' || c == ']' || c == '\x7b' || c == '\x7d' || c == ',' || c == ':'

/-- The blank characters between tokens. -/
def isSpace (c : Char) : Bool := c == ' ' || c == '\t' || c == '\n' || c == '\r'

/-- The number that hexadecimal digits write. -/
def hexNumber? (cs : List Char) : Option Nat :=
  cs.foldl (fun n c => n.bind fun n => (digitValue? c).map (16 * n + ·)) (some 0)

/-- The character of a pair of surrogates. -/
def pairChar (high low : Nat) : Char :=
  Char.ofNat (0x10000 + (high - 0xD800) * 0x400 + (low - 0xDC00))

/-- The character that a one-letter escape stands for. -/
def simpleEscape? (c : Char) : Option Char :=
  match c with
  | '"' => some '"'
  | '\\' => some '\\'
  | '/' => some '/'
  | 'b' => some '\x08'
  | 'f' => some '\x0c'
  | 'n' => some '\n'
  | 'r' => some '\r'
  | 't' => some '\t'
  | _ => none

/-- A code unit as a character; a surrogate without its partner is no character. -/
def unitChar (n : Nat) : Char := if 0xD800 ≤ n ∧ n < 0xE000 then '\uFFFD' else Char.ofNat n

/-- The characters of a string up to its closing quote, and the text behind it. -/
def readString (taken : List Char) : List Char → Option (String × List Char)
  | [] => none
  | '"' :: rest => some (String.ofList taken.reverse, rest)
  | '\\' :: 'u' :: a :: b :: c :: d :: '\\' :: 'u' :: e :: f :: g :: h :: rest => do
    let high ← hexNumber? [a, b, c, d]
    match hexNumber? [e, f, g, h] with
    | some low =>
      if 0xD800 ≤ high ∧ high < 0xDC00 ∧ 0xDC00 ≤ low ∧ low < 0xE000 then
        readString (pairChar high low :: taken) rest
      else readString (unitChar high :: taken) ('\\' :: 'u' :: e :: f :: g :: h :: rest)
    | none => none
  | '\\' :: 'u' :: a :: b :: c :: d :: rest => do
    readString (unitChar (← hexNumber? [a, b, c, d]) :: taken) rest
  | '\\' :: c :: rest => do readString ((← simpleEscape? c) :: taken) rest
  | c :: rest => if c.toNat < 32 then none else readString (c :: taken) rest
termination_by cs => cs.length
decreasing_by all_goals simp <;> omega

/-- The number that decimal digits write. -/
def number (digits : List Char) : Nat :=
  digits.foldl (fun n c => 10 * n + (c.toNat - '0'.toNat)) 0

/-- The whole part of a number: no zero in front of further digits. -/
def wholePart (cs : List Char) : List Char × List Char :=
  match cs with
  | '0' :: rest => (['0'], rest)
  | _ => cs.span Char.isDigit

/-- The places behind a point, if there are any. -/
def fraction (cs : List Char) : Option (List Char) × List Char :=
  match cs with
  | '.' :: rest =>
    match rest.span Char.isDigit with
    | ([], _) => (none, cs)
    | (places, rest) => (some places, rest)
  | _ => (none, cs)

/-- An exponent, if there is one. -/
def exponent (cs : List Char) : Option Int × List Char :=
  match cs with
  | e :: rest =>
    if e = 'e' ∨ e = 'E' then
      let (sign, rest) : Int × List Char :=
        match rest with
        | '-' :: rest => (-1, rest)
        | '+' :: rest => (1, rest)
        | _ => (1, rest)
      match rest.span Char.isDigit with
      | ([], _) => (none, cs)
      | (digits, rest) => (some (sign * number digits), rest)
    else (none, cs)
  | [] => (none, cs)

/-- A number, whose sign has been read, and the text behind it. -/
def readNumber (negative : Bool) (cs : List Char) : Option (Scalar × List Char) :=
  match wholePart cs with
  | ([], _) => none
  | (whole, rest) =>
    let (places, rest) := fraction rest
    let (power, rest) := exponent rest
    match places, power with
    | none, none =>
      let n : Int := number whole
      some (.int (if negative then -n else n), rest)
    | _, _ =>
      let places := places.getD []
      let digits := number (whole ++ places)
      let power := power.getD 0 - places.length
      some (.float (Decimal.bitsOfDecimal negative digits power), rest)

/-- The words that stand for scalars. -/
def words : List (String × Scalar) :=
  [("null", .null), ("true", .bool true), ("false", .bool false),
   ("NaN", .float 0x7FF8000000000000), ("Infinity", .float 0x7FF0000000000000),
   ("-Infinity", .float 0xFFF0000000000000)]

/-- A word, and the text behind it. -/
def readWord (cs : List Char) : Option (Scalar × List Char) :=
  words.findSome? fun (word, scalar) =>
    if word.toList.isPrefixOf cs then some (scalar, cs.drop word.length) else none

/-- The scalar at the start of a text, and the text behind it. -/
def readScalar (cs : List Char) : Option (Scalar × List Char) :=
  match readWord cs with
  | some found => some found
  | none =>
    match cs with
    | '"' :: rest => (readString [] rest).map fun (s, rest) => (.text s, rest)
    | '-' :: rest => readNumber true rest
    | _ => readNumber false cs

/-- The tokens of a text, at most `fuel` of them. -/
def tokensWithin : Nat → List Char → Option (List Token)
  | _, [] => some []
  | 0, _ => none
  | fuel + 1, c :: rest =>
    if isSpace c then tokensWithin fuel rest
    else if isMark c then (tokensWithin fuel rest).map (.mark c :: ·)
    else do
      let (scalar, rest) ← readScalar (c :: rest)
      return .scalar scalar :: (← tokensWithin fuel rest)

/-- The tokens of a text. Each takes at least one character, so that their number is bounded. -/
def tokens (cs : List Char) : Option (List Token) := tokensWithin cs.length cs

end ContractSync.Document.Json
