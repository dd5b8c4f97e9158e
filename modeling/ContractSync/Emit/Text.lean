import ContractSync.Schema.DataType
import ContractSync.Text.Basic

/-!
# Texts in generated code

Texts of a document stand in generated code as documentation comments and in string literals. A
documentation comment has a line for each line of its text; several texts are parted by an empty
line. Data types stand there as types.
-/

/-!
## String literals

Text in a string literal has a backslash before each backslash and each quote.
-/

namespace ContractSync.Emit

/-- The characters of a text as they stand between quotes. -/
def escapeChars (cs : List Char) : List Char :=
  cs.flatMap fun c => if c = '\\' ∨ c = '"' then ['\\', c] else [c]

/-- A text as it stands between quotes. -/
def escape (s : String) : String := String.ofList (escapeChars s.toList)

/-- A text as a string literal. -/
def quoted (s : String) : String := "\"" ++ escape s ++ "\""

end ContractSync.Emit

/-! ## Comments -/

namespace ContractSync.Emit

/-- The lines of a text without the blanks around it and at the ends of its lines. -/
def docLinesOf (text : String) : List String :=
  (Text.lines (Text.trim text.toList)).map fun line => String.ofList (Text.trimEnd line)

/-- The lines of several texts, an empty line between them; blank texts do not count. -/
def docLines (texts : List (Option String)) : List String :=
  let texts := (texts.filterMap id).filter (!Text.isBlankString ·)
  [""].intercalate (texts.map docLinesOf)

/-- A line of a comment. -/
def docLine (indent line : String) : String :=
  indent ++ "///" ++ (if line.isEmpty then "" else " " ++ line) ++ "\n"

/-- A comment. -/
def docComment (indent : String) (lines : List String) : String :=
  String.join (lines.map (docLine indent))

end ContractSync.Emit

/-!
## Types as Rust text

Each data type has a Rust type. Unions without a name of their own, and whatever nothing is known of,
become JSON values.
-/

namespace ContractSync.Emit

open ContractSync.Schema (DataType ScalarKind)

/-- The type of values about which nothing is known. -/
def dynamicText : String := "serde_json::Value"

/-- The types of strings in certain formats. -/
def stringTexts : List (String × String) :=
  [("uuid", "Uuid"), ("date-time", "DateTime<Utc>"), ("date", "NaiveDate"), ("binary", "Vec<u8>")]

/-- The type of a scalar in a format. -/
def scalarText (kind : ScalarKind) (format : Option String) : String :=
  match kind with
  | .integer => if format = some "int64" then "i64" else "i32"
  | .number => if format = some "float" then "f32" else "f64"
  | .boolean => "bool"
  | .string => (format.bind fun f => stringTexts.lookup f).getD "String"

/-- The text of a type. -/
def typeText : DataType → String
  | .scalar kind format => scalarText kind format
  | .array inner => "Vec<" ++ typeText inner ++ ">"
  | .map inner => "HashMap<String, " ++ typeText inner ++ ">"
  | .optional inner => "Option<" ++ typeText inner ++ ">"
  | .reference name => name
  | .union _ _ | .dynamic | .unknown _ => dynamicText

end ContractSync.Emit
