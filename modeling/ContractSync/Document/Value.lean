import ContractSync.Document.Moment

/-!
# Documents

A document is a tree of lists and mappings over scalars. A mapping is the list of its entries in
the order in which they were written; the order decides the order of everything derived from it.
-/

/-!
## Scalars

The values without parts. They are also the keys of mappings; `Scalar.sameKey` says when two keys
are one, and there numbers and truth values compare by value.
-/

namespace ContractSync.Document

/-- A value without parts. A float is held by its bits. -/
inductive Scalar where
  | null
  | bool (b : Bool)
  | int (n : Int)
  | float (bits : UInt64)
  | text (s : String)
  | moment (m : Moment)
  | bytes (data : List UInt8)
  deriving DecidableEq, Repr, Inhabited

namespace Scalar

/-- The exact number a scalar stands for; a truth value counts as one or zero. -/
def number? : Scalar → Option Decimal.Binary
  | .bool b => some (.ofInt b.toInt)
  | .int n => some (.ofInt n)
  | .float bits =>
    match Decimal.Reading.ofBits bits with
    | .finite x => some x
    | _ => none
  | _ => none

/-- The two infinite numbers agree. -/
def sameInfinite (a b : Scalar) : Bool :=
  match a, b with
  | .float x, .float y =>
    match Decimal.Reading.ofBits x, Decimal.Reading.ofBits y with
    | .infinite m, .infinite n => m == n
    | _, _ => false
  | _, _ => false

/-- The two are equal as keys and as values: numbers by their value, moments by the point in time,
other scalars only if they are identical. What is not a number equals nothing. -/
def sameKey (a b : Scalar) : Bool :=
  match a, b with
  | .null, .null => true
  | .text s, .text t => s == t
  | .bytes x, .bytes y => x == y
  | .moment m, .moment n => m.same n
  | a, b =>
    match a.number?, b.number? with
    | some x, some y => x.sameNumber y
    | _, _ => sameInfinite a b

/-- The string, if the scalar is one. -/
def text? : Scalar → Option String
  | .text s => some s
  | _ => none

/-- The scalar is a string. -/
def isText (s : Scalar) : Bool := s.text?.isSome

end Scalar

instance : Coe String Scalar := ⟨.text⟩

end ContractSync.Document

/-! ## Values -/

namespace ContractSync.Document

/-- A node of a document. -/
inductive Value where
  | scalar (s : Scalar)
  | list (items : List Value)
  | mapping (entries : List (Scalar × Value))
  | set (members : List Scalar)
  deriving Repr, Inhabited

/-- The entries of a mapping, in order. -/
abbrev Entries := List (Scalar × Value)

namespace Value

/-- No value. -/
abbrev null : Value := .scalar .null

/-- A truth value. -/
abbrev bool (b : Bool) : Value := .scalar (.bool b)

/-- A string. -/
abbrev text (s : String) : Value := .scalar (.text s)

/-- A mapping with string keys. -/
def object (entries : List (String × Value)) : Value :=
  .mapping (entries.map fun e => (.text e.1, e.2))

/-! ### Equality -/

mutual

/-- Decides equality of values. -/
def decideEq : (a b : Value) → Decidable (a = b)
  | .scalar s, .scalar t => decidable_of_iff (s = t) (by simp)
  | .set s, .set t => decidable_of_iff (s = t) (by simp)
  | .list a, .list b =>
    match decideEqList a b with
    | isTrue h => isTrue (by rw [h])
    | isFalse h => isFalse (by simp [h])
  | .mapping a, .mapping b =>
    match decideEqEntries a b with
    | isTrue h => isTrue (by rw [h])
    | isFalse h => isFalse (by simp [h])
  | .scalar _, .list _ => isFalse nofun
  | .scalar _, .mapping _ => isFalse nofun
  | .scalar _, .set _ => isFalse nofun
  | .list _, .scalar _ => isFalse nofun
  | .list _, .mapping _ => isFalse nofun
  | .list _, .set _ => isFalse nofun
  | .mapping _, .scalar _ => isFalse nofun
  | .mapping _, .list _ => isFalse nofun
  | .mapping _, .set _ => isFalse nofun
  | .set _, .scalar _ => isFalse nofun
  | .set _, .list _ => isFalse nofun
  | .set _, .mapping _ => isFalse nofun

/-- Decides equality of lists of values. -/
def decideEqList : (a b : List Value) → Decidable (a = b)
  | [], [] => isTrue rfl
  | [], _ :: _ => isFalse nofun
  | _ :: _, [] => isFalse nofun
  | a :: as, b :: bs =>
    match decideEq a b, decideEqList as bs with
    | isTrue h, isTrue g => isTrue (by rw [h, g])
    | isFalse h, _ => isFalse (by simp [h])
    | _, isFalse h => isFalse (by simp [h])

/-- Decides equality of entries. -/
def decideEqEntries : (a b : List (Scalar × Value)) → Decidable (a = b)
  | [], [] => isTrue rfl
  | [], _ :: _ => isFalse nofun
  | _ :: _, [] => isFalse nofun
  | (k, a) :: as, (l, b) :: bs =>
    match decEq k l, decideEq a b, decideEqEntries as bs with
    | isTrue e, isTrue h, isTrue g => isTrue (by rw [e, h, g])
    | isFalse h, _, _ => isFalse (by simp [h])
    | _, isFalse h, _ => isFalse (by simp [h])
    | _, _, isFalse h => isFalse (by simp [h])

end

instance : DecidableEq Value := decideEq

/-! ### Views -/

/-- The string, if the value is one. -/
def text? : Value → Option String
  | .scalar (.text s) => some s
  | _ => none

/-- The items, if the value is a list. -/
def items? : Value → Option (List Value)
  | .list items => some items
  | _ => none

/-- The entries, if the value is a mapping. -/
def entries? : Value → Option Entries
  | .mapping entries => some entries
  | _ => none

/-- The entries of a mapping, none of anything else. -/
def entries (v : Value) : Entries := v.entries?.getD []

/-- The value is a mapping. -/
def isMapping (v : Value) : Bool := v.entries?.isSome

/-- The value is `true` itself. -/
def isTrue : Value → Bool
  | .scalar (.bool b) => b
  | _ => false

/-- The value is `null`. -/
def isNull : Value → Bool
  | .scalar .null => true
  | _ => false

/-- The value counts as present: it is not null, false, zero or empty. -/
def isPresent : Value → Bool
  | .scalar .null => false
  | .scalar (.bool b) => b
  | .scalar (.int n) => n != 0
  | .scalar (.float bits) =>
    match Decimal.Reading.ofBits bits with
    | .finite x => x.mantissa != 0
    | _ => true
  | .scalar (.text s) => !s.isEmpty
  | .scalar (.moment _) => true
  | .scalar (.bytes data) => !data.isEmpty
  | .list items => !items.isEmpty
  | .mapping entries => !entries.isEmpty
  | .set members => !members.isEmpty

end Value

namespace Entries

/-- The value at a string key. -/
def get? (entries : Entries) (key : String) : Option Value :=
  (entries.find? fun e => e.1 == .text key).map (·.2)

/-- The value at a string key, null if there is none. -/
def get (entries : Entries) (key : String) : Value := (entries.get? key).getD .null

/-- The key is present. -/
def has (entries : Entries) (key : String) : Bool := (entries.get? key).isSome

/-- Sets the value at a key: in place if the key is present, at the end otherwise. -/
def putKey (entries : Entries) (key : Scalar) (value : Value) : Entries :=
  if entries.any (·.1.sameKey key) then
    entries.map fun e => if e.1.sameKey key then (e.1, value) else e
  else entries ++ [(key, value)]

/-- Sets the value at a string key. -/
def put (entries : Entries) (key : String) (value : Value) : Entries :=
  if entries.has key then entries.map fun e => if e.1 == .text key then (e.1, value) else e
  else entries ++ [(.text key, value)]

/-- Sets the value at a string key unless the key is present. -/
def putNew (entries : Entries) (key : String) (value : Value) : Entries :=
  if entries.has key then entries else entries ++ [(.text key, value)]

/-- Removes a string key. -/
def erase (entries : Entries) (key : String) : Entries :=
  entries.filter fun e => e.1 != .text key

/-- The entries of a sequence of writes, each key at the place of its first write. -/
def ofWrites (writes : List (Scalar × Value)) : Entries :=
  writes.foldl (fun entries w => putKey entries w.1 w.2) []

end Entries

namespace Value

/-- The value at a string key of a mapping. -/
def get? (v : Value) (key : String) : Option Value := v.entries.get? key

/-- The value at a string key of a mapping, null if there is none. -/
def get (v : Value) (key : String) : Value := v.entries.get key

end Value

end ContractSync.Document
