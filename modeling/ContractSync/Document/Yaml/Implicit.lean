import ContractSync.Document.Json.Token
import ContractSync.Document.Moment
import ContractSync.Text.Basic

/-!
# The types of nodes

A node is of the type that its tag names. A plain scalar without a tag is of the type that its text
looks like: a word for a truth value, a number, a date, or else a string.
-/

namespace ContractSync.Document.Yaml

/-- The types that tags name. -/
inductive NodeType where
  | null
  | bool
  | int
  | float
  | binary
  | timestamp
  | str
  | seq
  | map
  | set
  | omap
  | pairs
  /-- The key whose value is merged into the mapping. -/
  | merge
  /-- The key whose value stands for the mapping. -/
  | value
  | unknown
  deriving DecidableEq, Repr

namespace NodeType

/-- The types by the last part of their addresses. -/
def names : List (String × NodeType) :=
  [("null", null), ("bool", bool), ("int", int), ("float", float), ("binary", binary),
   ("timestamp", timestamp), ("str", str), ("seq", seq), ("map", map), ("set", set), ("omap", omap),
   ("pairs", pairs), ("merge", merge), ("value", value)]

/-- What the addresses of types start with. -/
def lead : String := "tag:yaml.org,2002:"

/-- The type that an address names. -/
def ofAddress (address : String) : NodeType :=
  ((names.find? fun n => lead ++ n.1 == address).map (·.2)).getD unknown

/-! ### Words -/

/-- The words for truth values. -/
def boolWords : List String :=
  ["yes", "Yes", "YES", "no", "No", "NO", "true", "True", "TRUE", "false", "False", "FALSE",
   "on", "On", "ON", "off", "Off", "OFF"]

/-- The words for null. -/
def nullWords : List String := ["~", "null", "Null", "NULL", ""]

/-! ### Numbers -/

/-- A digit or an underscore. -/
def isDigitOrBar (c : Char) : Bool := c.isDigit || c == '_'

/-- The text without a sign at its start. -/
def unsigned (cs : List Char) : List Char :=
  match cs with
  | '+' :: rest | '-' :: rest => rest
  | _ => cs

/-- Digits, and underscores behind the first. -/
def isDigits (cs : List Char) : Bool :=
  match cs with
  | [] => false
  | c :: rest => c.isDigit && rest.all isDigitOrBar

/-- Digits and underscores, the first a digit other than zero. -/
def isCount (cs : List Char) : Bool := isDigits cs && cs.head? != some '0'

/-- A number below sixty. -/
def isSixtieth (cs : List Char) : Bool :=
  match cs with
  | [a] => a.isDigit
  | [a, b] => a.isDigit && a.toNat < '6'.toNat && b.isDigit
  | _ => false

/-- Colons divide the text into a first part in `p` and further parts, at least one, below sixty. -/
def isSexagesimal (p : List Char → Bool) (cs : List Char) : Bool :=
  match Text.splitAt ':' cs with
  | first :: second :: rest => p first && (second :: rest).all isSixtieth
  | _ => false

/-- Digits of a base, at least one, which may be an underscore. -/
def isOfBase (p : Char → Bool) (cs : List Char) : Bool :=
  !cs.isEmpty && cs.all fun c => p c || c == '_'

/-- The text looks like a whole number. -/
def isInt (cs : List Char) : Bool :=
  match unsigned cs with
  | '0' :: 'b' :: rest => isOfBase (fun c => c == '0' || c == '1') rest
  | '0' :: 'x' :: rest => isOfBase (fun c => (Reference.Percent.digitValue? c).isSome) rest
  | ['0'] => true
  | '0' :: rest => isOfBase (fun c => c.isDigit && c.toNat < '8'.toNat) rest
  | cs => isCount cs || isSexagesimal isCount cs

/-- Digits and underscores, and an exponent with a sign or nothing behind them. -/
def isPlaces (cs : List Char) : Bool :=
  match cs.dropWhile isDigitOrBar with
  | [] => true
  | e :: sign :: rest =>
    (e == 'e' || e == 'E') && (sign == '-' || sign == '+') && !rest.isEmpty && rest.all Char.isDigit
  | _ => false

/-- The text looks like a number with places behind a point. -/
def isFloat (cs : List Char) : Bool :=
  let word := String.ofList cs
  if [".nan", ".NaN", ".NAN"].contains word then true
  else if [".inf", ".Inf", ".INF"].contains (String.ofList (unsigned cs)) then true
  else
    match Text.cutAt '.' (unsigned cs) with
    | (_, none) => false
    | ([], some places) => cs.head? == some '.' && places.head?.any Char.isDigit && isPlaces places
    | (whole, some places) =>
      (isDigits whole && isPlaces places)
        || (isSexagesimal isDigits whole && places.all isDigitOrBar)

/-! ### Dates -/

/-- A number of one digit up to `most`, and the text behind it. -/
def digitsUpTo (most : Nat) (cs : List Char) : Option (List Char × List Char) :=
  let digits := (cs.take most).takeWhile Char.isDigit
  if digits.isEmpty then none else some (digits, cs.drop digits.length)

/-- A number of exactly `count` digits, and the text behind it. -/
def digitsOf (count : Nat) (cs : List Char) : Option (Nat × List Char) := do
  let (digits, rest) ← digitsUpTo count cs
  if digits.length = count then some (Json.number digits, rest) else none

/-- The text behind a character. -/
def past (c : Char) (cs : List Char) : Option (List Char) :=
  match cs with
  | d :: rest => if d = c then some rest else none
  | [] => none

/-- A blank in dates. -/
def isDateBlank (c : Char) : Bool := c == ' ' || c == '\t'

/-- Digits of a fraction as millionths. -/
def micro (digits : List Char) : Nat :=
  let digits := digits.take 6
  Json.number digits * Nat.pow 10 (6 - digits.length)

/-- An offset from universal time, in seconds. -/
def offset (cs : List Char) : Option Int :=
  match cs with
  | ['Z'] => some 0
  | sign :: rest =>
    if sign = '-' ∨ sign = '+' then do
      let (hours, rest) ← digitsUpTo 2 rest
      let minutes ←
        match rest with
        | [] => some 0
        | _ => do
          let (minutes, rest) ← digitsOf 2 (← past ':' rest)
          if rest.isEmpty then some minutes else none
      let size : Int := Json.number hours * 3600 + minutes * 60
      return if sign = '-' then -size else size
    else none
  | [] => none

/-- A time of day. -/
def clock (cs : List Char) : Option Clock := do
  let (hour, rest) ← digitsUpTo 2 cs
  let (minute, rest) ← digitsOf 2 (← past ':' rest)
  let (second, rest) ← digitsOf 2 (← past ':' rest)
  let (places, rest) :=
    match rest with
    | '.' :: rest => (rest.takeWhile Char.isDigit, rest.dropWhile Char.isDigit)
    | _ => ([], rest)
  let c : Clock := ⟨Json.number hour, minute, second, micro places, none⟩
  if rest.isEmpty then return c
  return { c with offset := some (← offset (rest.dropWhile isDateBlank)) }

/-- A moment, and whether its day is written with two digits for the month and for the day. -/
def moment (cs : List Char) : Option (Moment × Bool) := do
  let (year, rest) ← digitsOf 4 cs
  let (month, rest) ← digitsUpTo 2 (← past '-' rest)
  let (day, rest) ← digitsUpTo 2 (← past '-' rest)
  let date : Day := ⟨year, Json.number month, Json.number day⟩
  let full := month.length == 2 && day.length == 2
  match rest with
  | [] => return (⟨date, none⟩, full)
  | c :: behind =>
    if c = 'T' ∨ c = 't' then return (⟨date, some (← clock behind)⟩, full)
    else if isDateBlank c then return (⟨date, some (← clock (behind.dropWhile isDateBlank))⟩, full)
    else none

/-- The text looks like a date. -/
def isTimestamp (cs : List Char) : Bool :=
  match moment cs with
  | some (m, full) => m.clock.isSome || full
  | none => false

/-! ### Plain scalars -/

/-- The type that a plain scalar looks like. -/
def ofPlain (text : String) : NodeType :=
  let cs := text.toList
  if boolWords.contains text then bool
  else if isFloat cs then float
  else if isInt cs then int
  else if text == "<<" then merge
  else if nullWords.contains text then null
  else if isTimestamp cs then timestamp
  else if text == "=" then value
  else if ["!", "&", "*"].contains text then unknown
  else str

end NodeType

end ContractSync.Document.Yaml
