import ContractSync.Text.Basic
import ContractSync.Text.Digit

/-!
# Identifiers from free text

Tags become module names, property and parameter names become field names, operation identifiers
become function names. Each conversion repairs what the case conversion leaves: an empty name, a
digit in front, a reserved word.
-/

/-!
## Words of a name

A name is read as a sequence of words: maximal runs of ASCII letters and digits, divided further
where a small letter or digit meets a capital (`userId`) and before the last capital of an acronym
that a small letter follows (`HTTPServer`). `snake` and `pascal` write the words in the two
common cases.
-/

namespace ContractSync.Name

open ContractSync.Text (pushFront)

/-- Marks the boundary between a small letter or digit and the capital after it. -/
def breakCamel : List Char → List Char
  | c :: d :: rest =>
    if (c.isLower || c.isDigit) && d.isUpper then c :: '_' :: breakCamel (d :: rest)
    else c :: breakCamel (d :: rest)
  | cs => cs

/-- Marks the boundary before a capital that a capital precedes and a small letter follows. -/
def breakAcronym : List Char → List Char
  | c :: d :: e :: rest =>
    if c.isUpper && d.isUpper && e.isLower then c :: '_' :: breakAcronym (d :: e :: rest)
    else c :: breakAcronym (d :: e :: rest)
  | cs => cs

/-- The maximal runs of ASCII letters and digits. -/
def runs : List Char → List (List Char)
  | [] => []
  | [c] => if c.isAlphanum then [[c]] else []
  | c :: d :: rest =>
    if c.isAlphanum then
      if d.isAlphanum then pushFront c (runs (d :: rest)) else [c] :: runs (d :: rest)
    else runs (d :: rest)

/-- The words of `cs`, in small letters, joined by underscores. -/
def snakeChars (cs : List Char) : List Char :=
  ['_'].intercalate ((runs (breakAcronym (breakCamel cs))).map (·.map Char.toLower))

/-- A run without small letters that has a capital is an acronym. -/
def isAcronym (word : List Char) : Bool := word.any Char.isUpper && !word.any Char.isLower

/-- The word with its first letter as a capital; of an acronym the rest becomes small. -/
def capitalize : List Char → List Char
  | [] => []
  | c :: rest => c.toUpper :: if isAcronym (c :: rest) then rest.map Char.toLower else rest

/-- The words of `cs`, each starting with a capital, joined without separator. -/
def pascalChars (cs : List Char) : List Char := (runs (breakCamel cs)).flatMap capitalize

/-- A name in `snake_case`; empty if it has no ASCII letter or digit. -/
def snake (name : String) : String := String.ofList (snakeChars name.toList)

/-- A name in `PascalCase`; empty if it has no ASCII letter or digit. -/
def pascal (name : String) : String := String.ofList (pascalChars name.toList)

end ContractSync.Name

/-!
## Reserved words

The words that cannot name a module, a function or a field of generated code as they stand.
-/

namespace ContractSync.Name

/-- The reserved words of the generated language that names are checked against. -/
def keywords : List String :=
  ["as", "async", "await", "break", "const", "continue", "crate", "dyn", "else", "enum",
   "extern", "false", "fn", "for", "if", "impl", "in", "let", "loop", "match", "mod", "move",
   "mut", "pub", "ref", "return", "self", "Self", "static", "struct", "super", "trait", "true",
   "type", "union", "unsafe", "use", "where", "while"]

/-- The reserved words that have no raw form `r#…`. -/
def rawlessKeywords : List String := ["crate", "self", "Self", "super"]

/-- The name is a reserved word. -/
def isKeyword (name : String) : Bool := keywords.contains name

theorem isKeyword_of_mem_rawless {name : String} (h : name ∈ rawlessKeywords) :
    isKeyword name = true := by
  simp only [rawlessKeywords, List.mem_cons, List.not_mem_nil, or_false] at h
  rcases h with rfl | rfl | rfl | rfl <;> decide

end ContractSync.Name

/-! ## Conversions -/

namespace ContractSync.Name

/-- The name starts with a digit. -/
def startsWithDigit (name : String) : Bool :=
  match name.toList with
  | [] => false
  | c :: _ => Text.isDigit c

/-- The name in `snake_case`, or `fallback` if nothing of it is left. -/
def slug (name : String) (fallback : String := "operation") : String :=
  let cleaned := snake name
  if cleaned.isEmpty then fallback else cleaned

/-- The name with `lead` in front if it starts with a digit. -/
def guardDigit (lead name : String) : String :=
  if startsWithDigit name then lead ++ name else name

/-- The name with an underscore behind it if it is a reserved word. -/
def guardKeyword (name : String) : String :=
  if isKeyword name then name ++ "_" else name

/-- The module name of a tag. -/
def moduleName (tag : String) : String := guardKeyword (guardDigit "m_" (slug tag "default"))

/-- The field name of a property: reserved words are written raw where the language allows it. -/
def fieldName (property : String) : String :=
  let name := guardDigit "field_" (slug property "field")
  if rawlessKeywords.contains name then name ++ "_"
  else if isKeyword name then "r#" ++ name
  else name

/-- A function name that can be part of other names: never raw and never reserved. -/
def functionName (name : String) : String :=
  if name.isEmpty then "handler" else guardKeyword (guardDigit "op_" name)

/-- The text is an ASCII identifier that starts with a capital. -/
def isTypeIdentifier : List Char → Bool
  | [] => false
  | c :: rest => c.isUpper && rest.all fun d => d.isAlphanum || d == '_'

/-- The type name of a component: kept as written if it can be. -/
def typeName (component : String) : String :=
  if isTypeIdentifier component.toList then component
  else
    let name := pascal component
    if name.isEmpty then "Unknown" else name

/-- The variant name of a literal. -/
def variantName (literal : String) : String :=
  let name := pascal literal
  if name.isEmpty then "Empty" else if startsWithDigit name then "Value" ++ name else name

/-- The identifier without its raw marker. -/
def bare (name : String) : String :=
  match name.toList with
  | 'r' :: '#' :: rest => String.ofList rest
  | _ => name

end ContractSync.Name
