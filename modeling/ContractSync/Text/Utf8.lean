/-!
# Characters from bytes

Reads UTF-8. `next` takes one character, or the bytes of an ill-formed sequence up to the first one
that cannot continue it; `decode` refuses ill-formed sequences and `decodeLossy` puts `�` in the
place of each.
-/

namespace ContractSync.Text.Utf8

/-- What is wrong with a sequence of bytes. -/
inductive Fault where
  /-- No character starts with this byte. -/
  | start
  /-- A byte that should continue a character does not. -/
  | continuation
  /-- The bytes end inside a character. -/
  | truncated
  deriving DecidableEq, Repr

/-- A byte that continues a character. -/
def isContinuation (b : UInt8) : Bool := 0x80 ≤ b && b < 0xC0

/-- The byte may follow the first byte of a character: no overlong forms, no surrogates, nothing
beyond the last character. -/
def isSecond (first second : UInt8) : Bool :=
  isContinuation second
    && (first != 0xE0 || 0xA0 ≤ second) && (first != 0xED || second < 0xA0)
    && (first != 0xF0 || 0x90 ≤ second) && (first != 0xF4 || second < 0x90)

/-- The number of bytes that have to follow the first byte of a character. -/
def tailLength (first : UInt8) : Option Nat :=
  if first < 0x80 then some 0
  else if 0xC2 ≤ first ∧ first < 0xE0 then some 1
  else if 0xE0 ≤ first ∧ first < 0xF0 then some 2
  else if 0xF0 ≤ first ∧ first < 0xF5 then some 3
  else none

/-- The bits that the first byte of a character contributes. -/
def leadBits (first : UInt8) (tail : Nat) : Nat :=
  match tail with
  | 0 => first.toNat
  | 1 => first.toNat % 32
  | 2 => first.toNat % 16
  | _ => first.toNat % 8

/-- The bytes after `first` that continue its character, at most `tail` of them. -/
def continuation (first : UInt8) (tail : Nat) (rest : List UInt8) : List UInt8 :=
  match tail, rest with
  | tail + 1, second :: more =>
    if isSecond first second then second :: (more.take tail).takeWhile isContinuation else []
  | _, _ => []

/-- The character that starts with `first`, or what is wrong; with the number of further bytes it
takes. -/
def next (first : UInt8) (rest : List UInt8) : Except Fault Char × Nat :=
  match tailLength first with
  | none => (.error .start, 0)
  | some tail =>
    let taken := continuation first tail rest
    if taken.length = tail then
      (.ok (Char.ofNat (taken.foldl (fun n b => n * 64 + b.toNat % 64) (leadBits first tail))),
        tail)
    else if taken.length = rest.length then (.error .truncated, taken.length)
    else (.error .continuation, taken.length)

/-- An ill-formed sequence: where it starts, how long it is and its first byte. -/
structure Failure where
  fault : Fault
  position : Nat
  length : Nat
  byte : UInt8
  deriving DecidableEq, Repr

/-- The characters of the bytes that start at `position`. -/
def decodeFrom (position : Nat) : List UInt8 → Except Failure (List Char)
  | [] => .ok []
  | first :: rest =>
    match next first rest with
    | (.ok c, used) => (decodeFrom (position + 1 + used) (rest.drop used)).map (c :: ·)
    | (.error fault, used) => .error ⟨fault, position, used + 1, first⟩
termination_by bytes => bytes.length
decreasing_by
  rw [List.length_drop, List.length_cons]
  exact Nat.lt_succ_of_le (Nat.sub_le _ _)

/-- The characters of well-formed bytes. -/
def decode (bytes : List UInt8) : Except Failure (List Char) := decodeFrom 0 bytes

/-- The characters of bytes, each ill-formed sequence read as `�`. -/
def decodeLossy : List UInt8 → List Char
  | [] => []
  | first :: rest =>
    match next first rest with
    | (.ok c, used) => c :: decodeLossy (rest.drop used)
    | (.error _, used) => '\uFFFD' :: decodeLossy (rest.drop used)
termination_by bytes => bytes.length
decreasing_by
  all_goals
    rw [List.length_drop, List.length_cons]
    exact Nat.lt_succ_of_le (Nat.sub_le _ _)

/-- The bytes of a text. -/
def encode (cs : List Char) : List UInt8 := (String.ofList cs).toUTF8.toList

end ContractSync.Text.Utf8
