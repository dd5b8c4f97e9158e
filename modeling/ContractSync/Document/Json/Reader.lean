import ContractSync.Document.Json.Token

/-!
# Reading JSON

Documents are put together token by token on a stack of open lists and mappings. Of entries with the
same key the last value counts, at the place of the first.
-/

namespace ContractSync.Document.Json

/-- An open list or mapping, what it holds so far in reverse. -/
inductive Frame where
  | list (items : List Value)
  | mapping (entries : List (Scalar × Value)) (key : String)

/-- What may come next. -/
inductive Expected where
  | value
  /-- The first item of a list, or its end. -/
  | firstItem
  | key
  /-- The first key of a mapping, or its end. -/
  | firstKey
  | colon
  /-- A comma, or the end of the open list or mapping. -/
  | more
  /-- Nothing: the document is complete. -/
  | nothing (document : Value)

/-- A document under construction. -/
structure Progress where
  stack : List Frame
  expected : Expected

namespace Progress

/-- The state after a complete value. -/
def accept (stack : List Frame) (v : Value) : Progress :=
  match stack with
  | [] => ⟨[], .nothing v⟩
  | .list items :: rest => ⟨.list (v :: items) :: rest, .more⟩
  | .mapping entries key :: rest => ⟨.mapping ((.text key, v) :: entries) key :: rest, .more⟩

/-- The state after the first token of a value. -/
def startValue (stack : List Frame) : Token → Option Progress
  | .scalar s => some (accept stack (.scalar s))
  | .mark '[' => some ⟨.list [] :: stack, .firstItem⟩
  | .mark '\x7b' => some ⟨.mapping [] "" :: stack, .firstKey⟩
  | .mark _ => none

/-- The state after a key. -/
def startEntry (stack : List Frame) (token : Token) : Option Progress :=
  match stack, token with
  | .mapping entries _ :: rest, .scalar (.text key) => some ⟨.mapping entries key :: rest, .colon⟩
  | _, _ => none

/-- The state after the end of the innermost list or mapping. -/
def close (stack : List Frame) (token : Token) : Option Progress :=
  match stack, token with
  | .list items :: rest, .mark ']' => some (accept rest (.list items.reverse))
  | .mapping entries _ :: rest, .mark '\x7d' =>
    some (accept rest (.mapping (Entries.ofWrites entries.reverse)))
  | _, _ => none

/-- The state after a comma. -/
def next (stack : List Frame) : Option Progress :=
  match stack with
  | .list _ :: _ => some ⟨stack, .value⟩
  | .mapping _ _ :: _ => some ⟨stack, .key⟩
  | [] => none

/-- The state after one more token. -/
def step (state : Progress) (token : Token) : Option Progress :=
  match state.expected with
  | .value => startValue state.stack token
  | .firstItem => (close state.stack token).orElse fun _ => startValue state.stack token
  | .key => startEntry state.stack token
  | .firstKey => (close state.stack token).orElse fun _ => startEntry state.stack token
  | .colon => if token = .mark ':' then some ⟨state.stack, .value⟩ else none
  | .more => if token = .mark ',' then next state.stack else close state.stack token
  | .nothing _ => none

end Progress

/-- The document that a JSON text writes. -/
def read (cs : List Char) : Option Value := do
  let last ← (← tokens cs).foldlM Progress.step ⟨[], .value⟩
  match last.expected with
  | .nothing document => some document
  | _ => none

end ContractSync.Document.Json
