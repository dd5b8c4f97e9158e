import ContractSync.Document.Value
import ContractSync.Fault
import ContractSync.Reference.Percent
import ContractSync.Text.Basic
import ContractSync.Text.Digit

/-!
# Pointers into a document

A pointer is a sequence of segments: keys of mappings and positions in lists. In its written form
`~1` stands for `/`, `~0` for `~`, and percent escapes are undone last.
-/

namespace ContractSync.Reference.Pointer

open ContractSync.Document

/-- The segment with `~1` read as `/`. -/
def unescapeSlash : List Char → List Char
  | '~' :: '1' :: rest => '/' :: unescapeSlash rest
  | c :: rest => c :: unescapeSlash rest
  | [] => []

/-- The segment with `~0` read as `~`. -/
def unescapeTilde : List Char → List Char
  | '~' :: '0' :: rest => '~' :: unescapeTilde rest
  | c :: rest => c :: unescapeTilde rest
  | [] => []

/-- The key that a written segment stands for. -/
def decodeSegment (cs : List Char) : String :=
  String.ofList (Percent.decode (unescapeTilde (unescapeSlash cs)))

/-- The written segments of a local reference; none if nothing follows its `#`. -/
def writtenSegments (cs : List Char) : List (List Char) :=
  match cs.dropWhile (· == '#') with
  | [] => []
  | pointer => Text.splitAt '/' (pointer.dropWhile (· == '/'))

/-- The keys that a local reference names, from the root on. -/
def segments (localRef : String) : List String :=
  (writtenSegments localRef.toList).map decodeSegment

/-- The most digits that a position may have. -/
def positionDigits : Nat := 4300

/-- The position that a segment writes; none if it does not look like one. The digits may be of any
script; superscripts and the like look like digits but write no number. -/
def position (segment : List Char) : Except Fault (Option Nat) :=
  if segment.isEmpty || !segment.all Text.isDigit then .ok none
  else if positionDigits < segment.length then .error .unreadable
  else
    match Text.decimalNumber? segment with
    | some n => .ok (some n)
    | none => .error .unreadable

/-- The value one step further; none if there is no such step. -/
def step (node : Value) (segment : String) : Except Fault (Option Value) :=
  match node with
  | .mapping entries => .ok (Entries.get? entries segment)
  | .list items => (position segment.toList).map fun n => n.bind fun n => items[n]?
  | _ => .ok none

/-- The value at the end of a path; none if it leads nowhere. -/
def follow (node : Value) : List String → Except Fault (Option Value)
  | [] => .ok (some node)
  | segment :: rest => do
    match ← step node segment with
    | some next => follow next rest
    | none => return none

/-- The value that a local reference points at. -/
def resolve (root : Value) (localRef : String) : Except Fault (Option Value) :=
  follow root (segments localRef)

end ContractSync.Reference.Pointer
