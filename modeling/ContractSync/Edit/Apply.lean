import ContractSync.Error
import ContractSync.Rust.Tree
import ContractSync.Text.Basic

/-!
# Edits of source text

An edit names its target in the text and the state it asks for. Where that state is already there,
the text stays as it is.
-/

namespace ContractSync.Edit

/-- A change that a source text is asked to show. -/
inductive Request where
  /-- An attribute on a struct or an enum; with a group, one entry of the group's list. -/
  | addAttribute (declaration attr : String) (group : Option String)
  /-- A named field of a struct. -/
  | addField (declaration name type visibility : String) (attributes : List String)
  /-- Another type for a field. -/
  | retypeField (declaration field type : String)
  /-- A line near the top. -/
  | addImport (text : String)
  /-- A statement at the end of a function's body, unless the key occurs in the body. -/
  | insertRegistration (function statement key : String)
  deriving DecidableEq, Repr

/-- The text in the form of a tree, or the error that it is none. -/
def readSource (source : List Char) (path : Option String) : Except SyncError Rust.Tree :=
  (Rust.parse source).mapError (SyncError.ofFailure source path)

/-- The declaration that an edit is about. -/
def target (tree : Rust.Tree) (name : String) (kinds : List Rust.ItemKind)
    (path : Option String) : Except SyncError Rust.Node :=
  match tree.find? name kinds with
  | some n => .ok n
  | none => .error ⟨.declarationNotFound name, path⟩

/-- One level of indentation. -/
def indentUnit : List Char := [' ', ' ', ' ', ' ']

end ContractSync.Edit

/-!
## Adding attributes

An entry goes to the end of the last attribute of its group; without such an attribute, and for
attributes outside groups, a line of its own is put in front of the declaration.
-/

namespace ContractSync.Edit

open ContractSync.Rust (Span Node Tree)

/-- The last step of a path of identifiers. -/
def lastSegment (cs : List Char) : List Char :=
  (upTo cs.reverse).reverse
where
  /-- The text up to the first pair of colons. -/
  upTo : List Char → List Char
    | ':' :: ':' :: _ => []
    | c :: rest => c :: upTo rest
    | [] => []

/-- The text without blank characters. -/
def compact (cs : List Char) : List Char := cs.filter (!Text.isBlank ·)

/-- The arguments of the attributes of a group. -/
def groupArgs (declaration : Node) (group : String) : List Span :=
  declaration.attributes.filterMap fun n =>
    match n.shape with
    | .attribute path args _ => if path = some group then args else none
    | _ => none

/-- The part of a text between two delimiters. -/
def between (source : List Char) (s : Span) : List Char := Text.slice source (s.start + 1) s.stop

/-- The text with one more entry between the parentheses of a list. -/
def addEntry (source : List Char) (args : Span) (entry : List Char) : List Char :=
  let content := between source args
  let kept := Text.trimEnd content
  if Text.isAllBlank content then Text.splice source (args.start + 1) args.stop entry
  else
    let stop := args.start + 1 + kept.length
    let separator := if kept.getLast? == some ',' then [' '] else [',', ' ']
    Text.splice source stop stop (separator ++ entry)

/-- The text with an attribute in front of the item that starts at `itemStart`. -/
def addInFront (source : List Char) (itemStart : Nat) (attr : List Char) : List Char :=
  let lineStart := Text.lineStart source itemStart
  let indent := Text.slice source lineStart itemStart
  if Text.isAllBlank indent then
    Text.splice source lineStart lineStart (indent ++ attr ++ ['\n'])
  else Text.splice source itemStart itemStart (attr ++ [' '])

/-- The attribute with its hash mark and brackets. -/
def bracketed (attr : List Char) : List Char :=
  if attr.head? == some '#' then attr else "#[".toList ++ attr ++ [']']

/-- Adds an entry to a group of a declaration. -/
def addToGroup (source : List Char) (declaration : Node) (group attr : String) :
    List Char :=
  let groups := groupArgs declaration group
  let key := lastSegment attr.toList
  if groups.any fun args => Text.occursBounded key (between source args) then source
  else
    match groups.getLast? with
    | some args => addEntry source args attr.toList
    | none =>
      addInFront source declaration.itemStart
        ("#[".toList ++ group.toList ++ ['('] ++ attr.toList ++ [')', ']'])

/-- Adds an attribute outside groups to a declaration. -/
def addPlain (source : List Char) (declaration : Node) (attr : String) : List Char :=
  let attr := bracketed (Text.trim attr.toList)
  let present := compact (Text.slice source declaration.start declaration.itemStart)
  if Text.occursIn (compact attr) present then source
  else addInFront source declaration.itemStart attr

/-- Adds an attribute to a struct or an enum. -/
def addAttribute (source : List Char) (declaration attr : String) (group : Option String)
    (path : Option String) : Except SyncError (List Char) := do
  let tree ← readSource source path
  let found ← target tree declaration [.struct_, .enum_] path
  return match group with
    | some group => addToGroup source found group attr
    | none => addPlain source found attr

end ContractSync.Edit

/-!
## Adding and retyping fields

A new field goes behind the last one. A body on a single line is opened up for it; in a body of
several lines the field gets the lines before the closing brace, and the field before it a comma if
it has none.
-/

namespace ContractSync.Edit

open ContractSync.Rust (Span Node Tree)

/-- The lines of a new field, attributes first. -/
def fieldLines (indent : List Char) (name type visibility : String) (attributes : List String) :
    List Char :=
  let lead := if visibility.isEmpty then "" else visibility ++ " "
  let lines := attributes ++ [lead ++ name ++ ": " ++ type ++ ","]
  ['\n'].intercalate (lines.map fun line => indent ++ line.toList)

/-- The closing brace of the body stands on a line of its own, below the opening one. -/
def isMultiline (source : List Char) (body : Span) : Bool :=
  let closeLine := Text.lineStart source body.stop
  Text.isAllBlank (Text.slice source closeLine body.stop) && body.start < closeLine

/-- The text behind the last field starts with a comma, blank characters aside. -/
def hasComma (tail : List Char) : Bool := (Text.trimStart tail).head? == some ','

/-- A body on one line, opened up for one more field. -/
def addToSingleLine (source : List Char) (declaration : Node) (body : Span)
    (lines : List Char → List Char) : List Char :=
  let outer := Text.indentAt source declaration.itemStart
  let added := ['\n'] ++ lines (outer ++ indentUnit) ++ ['\n'] ++ outer ++ source.drop body.stop
  match declaration.fields.getLast? with
  | some last =>
    let tail := Text.slice source last.stop body.stop
    source.take last.stop ++ (if hasComma tail then [] else [',']) ++ Text.trimEnd tail ++ added
  | none => source.take (body.start + 1) ++ added

/-- A body of several lines with one more field before its closing brace. -/
def addToLines (source : List Char) (declaration : Node) (body : Span)
    (lines : List Char → List Char) : List Char :=
  let closeLine := Text.lineStart source body.stop
  match declaration.fields.getLast? with
  | some last =>
    let indent := Text.indentAt source last.start
    let result := Text.splice source closeLine closeLine (lines indent ++ ['\n'])
    if hasComma (Text.slice source last.stop body.stop) then result
    else Text.splice result last.stop last.stop [',']
  | none =>
    let indent := Text.indentAt source body.stop ++ indentUnit
    Text.splice source closeLine closeLine (lines indent ++ ['\n'])

/-- Adds a field to a struct with named fields. -/
def addField (source : List Char) (declaration name type visibility : String)
    (attributes : List String) (path : Option String) : Except SyncError (List Char) := do
  let tree ← readSource source path
  let found ← target tree declaration [.struct_] path
  if (found.field? name).isSome then return source
  let missing : SyncError := ⟨.declarationNotFound (declaration ++ " (record struct)"), path⟩
  let some body := found.body? | throw missing
  if source[body.start]? ≠ some '\x7b' then throw missing
  let lines := fun indent => fieldLines indent name type visibility attributes
  return if isMultiline source body then addToLines source found body lines
    else addToSingleLine source found body lines

/-- Gives a field of a struct another type. -/
def retypeField (source : List Char) (declaration field type : String) (path : Option String) :
    Except SyncError (List Char) := do
  let tree ← readSource source path
  let found ← target tree declaration [.struct_] path
  match (found.field? field).bind Node.type? with
  | none => throw ⟨.fieldNotFound declaration field, path⟩
  | some span =>
    return if tree.spanText span = type.toList then source
      else Text.splice source span.start span.stop type.toList

end ContractSync.Edit

/-!
## Adding lines near the top

An import is present if some line of the text equals it, semicolons at the end and blank characters
around aside. A new one goes behind the first line.
-/

namespace ContractSync.Edit

/-- The text without blank characters around it and without semicolons at its end. -/
def importKey (cs : List Char) : List Char :=
  Text.trim (Text.dropEndWhile (· == ';') (Text.trim cs))

/-- A line of the text says the same; a text of several lines has to occur as it is. -/
def hasImport (source key : List Char) : Bool :=
  if key.contains '\n' then Text.occursIn key source
  else (Text.lines source).any fun line => importKey line == key

/-- Adds a line behind the first one. -/
def addImport (source : List Char) (text : String) : List Char :=
  let line := Text.trim text.toList
  if hasImport source (importKey line) then source
  else
    match Text.cutAt '\n' source with
    | ([], none) => line ++ ['\n']
    | (first, none) => first ++ ['\n'] ++ line ++ ['\n']
    | (first, some rest) => first ++ ['\n'] ++ line ++ ['\n'] ++ rest

end ContractSync.Edit

/-!
## Inserting registrations

A statement goes to the end of a function's body. If the closing brace stands on a line of its own,
the statement's lines go before it, indented as the last line of the body; otherwise the body is
opened up.
-/

namespace ContractSync.Edit

open ContractSync.Rust (Span Node Tree)

/-- The lines of a statement, line feeds around it aside. -/
def statementLines (statement : List Char) : List (List Char) :=
  Text.lines (Text.dropEndWhile (· == '\n') (statement.dropWhile (· == '\n')))

/-- The indentation of the last line that is not blank. -/
def lastIndent? (body : List Char) : Option (List Char) :=
  ((Text.lines body).reverse.find? (!Text.isAllBlank ·)).map (·.takeWhile Text.isBlank)

/-- The text with a statement at the end of a body. -/
def insertInBody (source : List Char) (function : Node) (body : Span) (statement : List Char) :
    List Char :=
  let lines := (statementLines statement).map Text.trim
  let closeLine := Text.lineStart source body.stop
  let closing := Text.slice source closeLine body.stop
  if body.start < closeLine ∧ Text.isAllBlank closing then
    let indent := (lastIndent? (Text.slice source (body.start + 1) closeLine)).getD
      (closing ++ indentUnit)
    Text.splice source closeLine closeLine (lines.flatMap fun line => indent ++ line ++ ['\n'])
  else
    let outer := Text.indentAt source function.itemStart
    let kept := Text.trimEnd (Text.slice source (body.start + 1) body.stop)
    source.take (body.start + 1 + kept.length)
      ++ (lines.flatMap fun line => ['\n'] ++ outer ++ indentUnit ++ line)
      ++ ['\n'] ++ outer ++ source.drop body.stop

/-- Inserts a statement into the body of a function unless the key occurs there. -/
def insertRegistration (source : List Char) (function statement key : String)
    (path : Option String) : Except SyncError (List Char) := do
  let tree ← readSource source path
  let found ← target tree function [.function] path
  match found.body? with
  | none => throw ⟨.declarationNotFound (function ++ " (function body)"), path⟩
  | some body =>
    let content := Text.slice source (body.start + 1) body.stop
    return if Text.occursBounded key.toList content then source
      else insertInBody source found body statement.toList

end ContractSync.Edit

/-! ## Applying edits -/

namespace ContractSync.Edit

/-- The text after an edit. `path` names the file in errors. -/
def apply (source : List Char) (request : Request) (path : Option String := none) :
    Except SyncError (List Char) :=
  match request with
  | .addAttribute declaration attr group => addAttribute source declaration attr group path
  | .addField declaration name type visibility attributes =>
    addField source declaration name type visibility attributes path
  | .retypeField declaration field type => retypeField source declaration field type path
  | .addImport text => .ok (addImport source text)
  | .insertRegistration function statement key =>
    insertRegistration source function statement key path

end ContractSync.Edit
