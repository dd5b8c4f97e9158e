/-!
# Data types

What a schema says about the values it describes, without regard to the language that code is
generated in.
-/

namespace ContractSync.Schema

/-- The kinds of scalars that schemas declare. -/
inductive ScalarKind where
  | string
  | integer
  | number
  | boolean
  deriving DecidableEq, Repr

namespace ScalarKind

/-- The word that declares the kind. -/
def word : ScalarKind → String
  | string => "string"
  | integer => "integer"
  | number => "number"
  | boolean => "boolean"

/-- The kind that a word declares. -/
def ofWord? (word : String) : Option ScalarKind :=
  [string, integer, number, boolean].find? (·.word == word)

end ScalarKind

/-- The name of a member of a union and how it is told from the others: `rename` is the first
discriminator value that leads to it, `aliases` are the further ones. -/
structure VariantLabel where
  name : String
  rename : Option String := none
  aliases : List String := []
  deprecated : Bool := false
  description : Option String := none
  deriving DecidableEq, Repr

/-- The type of the values that a schema describes. -/
inductive DataType where
  | scalar (kind : ScalarKind) (format : Option String)
  | array (inner : DataType)
  | map (inner : DataType)
  | optional (inner : DataType)
  /-- A named model. -/
  | reference (name : String)
  | union (variants : List (VariantLabel × DataType)) (discriminator : Option String)
  /-- Any value. -/
  | dynamic
  /-- A reference that leads nowhere. -/
  | unknown (ref : String)
  deriving Repr, Inhabited

namespace DataType

/-- The type, or nothing; a type with nothing stays as it is. -/
def orNothing : DataType → DataType
  | optional inner => optional inner
  | type => optional type

/-- The type with nothing allowed if the flag says so. -/
def orNothingIf (nullable : Bool) (type : DataType) : DataType :=
  if nullable then type.orNothing else type

/-- The value may be missing. -/
def isOptional : DataType → Bool
  | optional _ => true
  | _ => false

/-- The type without the permission to be missing. -/
def required : DataType → DataType
  | optional inner => inner
  | type => type

/-- A string without a format. -/
def plainString : DataType := .scalar .string none

end DataType

end ContractSync.Schema
