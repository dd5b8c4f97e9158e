import ContractSync.Text.Basic

/-!
# Unreadable source text

Why a source text has no tokens, or no items, and where that shows.
-/

namespace ContractSync.Rust

/-- The kinds of names that an item or a part of one has to carry. -/
inductive Named where
  | struct_
  | enum_
  | function
  | module
  | trait_
  | field
  | variant
  deriving DecidableEq, Repr

namespace Named

/-- The word for the kind of thing that is named. -/
def word : Named → String
  | struct_ => "struct"
  | enum_ => "enum"
  | function => "function"
  | module => "module"
  | trait_ => "trait"
  | field => "field"
  | variant => "variant"

end Named

/-- What is wrong with a source text. -/
inductive Problem where
  | unterminatedComment
  | unterminatedRawString
  | unterminatedString
  | malformedCharacter
  | unexpectedCloser (closer : String)
  | unclosed (opener : String)
  | unexpectedEnd
  | unterminatedGenerics
  | expectedOneOf (marks : List String)
  | expectedName (what : Named)
  | expectedColon
  | expectedType
  deriving DecidableEq, Repr

namespace Problem

/-- The problem in words. -/
def message : Problem → String
  | unterminatedComment => "unterminated block comment"
  | unterminatedRawString => "unterminated raw string literal"
  | unterminatedString => "unterminated string literal"
  | malformedCharacter => "malformed character literal"
  | unexpectedCloser closer => "unexpected '" ++ closer ++ "'"
  | unclosed opener => "unclosed '" ++ opener ++ "'"
  | unexpectedEnd => "unexpected end of item"
  | unterminatedGenerics => "unterminated generic parameter list"
  | expectedOneOf marks => "expected one of " ++ ", ".intercalate marks
  | expectedName what => "expected " ++ what.word ++ " name"
  | expectedColon => "expected ':' after field name"
  | expectedType => "expected field type"

end Problem

/-- A problem and the position where it shows. -/
structure Failure where
  problem : Problem
  offset : Nat
  deriving DecidableEq, Repr

namespace Failure

/-- The number of the line of the source where the failure shows. -/
def line (source : List Char) (failure : Failure) : Nat := Text.lineOf source failure.offset

/-- The failure one text further on. -/
def shift (n : Nat) (failure : Failure) : Failure := { failure with offset := failure.offset + n }

end Failure

end ContractSync.Rust
