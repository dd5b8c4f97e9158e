import ContractSync.Document.Value
import ContractSync.Fault
import ContractSync.Text.Basic

/-!
# Comparing and going through values

`Value.alike` compares values by content: numbers by value, mappings without regard to order.
`Value.parts` lists what a value is made of, for places where a list is expected and something else
may stand.
-/

namespace ContractSync.Document

namespace Value

mutual

/-- The values have the same content. -/
def alike : Value → Value → Bool
  | .scalar a, .scalar b => a.sameKey b
  | .list a, .list b => alikeItems a b
  | .mapping a, .mapping b => a.length == b.length && alikeEntries a b
  | .set a, .set b => a.length == b.length && a.all fun x => b.any x.sameKey
  | _, _ => false

/-- The lists have the same content. -/
def alikeItems : List Value → List Value → Bool
  | [], [] => true
  | a :: as, b :: bs => alike a b && alikeItems as bs
  | _, _ => false

/-- Every entry has its like in the second mapping. -/
def alikeEntries : List (Scalar × Value) → List (Scalar × Value) → Bool
  | [], _ => true
  | (k, a) :: rest, b =>
    (match b.find? fun e => k.sameKey e.1 with
    | some e => alike a e.2
    | none => false) && alikeEntries rest b

end

/-- The values are of the same kind: a truth value is no number, a whole number no float, a day no
point in time. -/
def sameKind : Value → Value → Bool
  | .scalar .null, .scalar .null => true
  | .scalar (.bool _), .scalar (.bool _) => true
  | .scalar (.int _), .scalar (.int _) => true
  | .scalar (.float _), .scalar (.float _) => true
  | .scalar (.text _), .scalar (.text _) => true
  | .scalar (.bytes _), .scalar (.bytes _) => true
  | .scalar (.moment m), .scalar (.moment n) => m.clock.isSome == n.clock.isSome
  | .list _, .list _ => true
  | .mapping _, .mapping _ => true
  | .set _, .set _ => true
  | _, _ => false

/-- What a value is made of: the items of a list, the keys of a mapping, the characters of a string.
Other scalars have no parts. -/
def parts : Value → Except Fault (List Value)
  | .list items => .ok items
  | .mapping entries => .ok (entries.map fun e => .scalar e.1)
  | .set members => .ok (members.map .scalar)
  | .scalar (.text s) => .ok (s.toList.map fun c => .text (String.singleton c))
  | .scalar (.bytes data) => .ok (data.map fun b => .scalar (.int b.toNat))
  | .scalar _ => .error .unsuited

/-- The value as a key; only scalars are keys. -/
def asKey : Value → Except Fault Scalar
  | .scalar s => .ok s
  | _ => .error .unsuited

/-- The value holds a string: a list or a mapping as a member, a string as a part. -/
def holdsText (v : Value) (word : String) : Except Fault Bool :=
  match v with
  | .scalar (.text s) => .ok (Text.occursIn word.toList s.toList)
  | .scalar _ => .error .unsuited
  | v => v.parts.map (·.contains (.text word))

/-- The entries of a mapping; none of a value that is not present. Nothing else has entries. -/
def entriesIfPresent (v : Value) : Except Fault Entries :=
  match v with
  | .mapping entries => .ok entries
  | v => if v.isPresent then .error .lacking else .ok []

end Value

namespace Scalar

/-- The string that a key has to be. -/
def asText : Scalar → Except Fault String
  | .text s => .ok s
  | .bytes _ => .error .unsuited
  | _ => .error .lacking

end Scalar

namespace Entries

/-- The value at a key. -/
def getKey? (entries : Entries) (key : Scalar) : Option Value :=
  (entries.find? fun e => e.1.sameKey key).map (·.2)

end Entries

end ContractSync.Document
