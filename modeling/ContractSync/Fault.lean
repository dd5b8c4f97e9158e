/-!
# Faults

A document may hold, in some place, a value that the place does not provide for. Where nothing says
what such a value means, the work on the document stops with a fault.
-/

namespace ContractSync

/-- Why a value cannot be used in its place. -/
inductive Fault where
  /-- The value has no entries or letters to take. -/
  | lacking
  /-- The value is of a kind that cannot be gone through, joined, ordered or written to. -/
  | unsuited
  /-- A mapping lacks an entry that it has to have. -/
  | missing
  /-- A text is not the number, address or word that it has to be. -/
  | unreadable
  /-- A number is too large for its place. -/
  | excessive
  /-- A text is empty. -/
  | empty
  /-- Bytes are not a text. -/
  | undecodable
  deriving DecidableEq, Repr

namespace Fault

/-- The fault in words. -/
def message : Fault → String
  | lacking => "a value has no entries or letters where some are needed"
  | unsuited => "a value is of a kind that its place does not provide for"
  | missing => "an entry is missing"
  | unreadable => "a text is not of the form that its place asks for"
  | excessive => "a number is too large for its place"
  | empty => "a text is empty where a letter is needed"
  | undecodable => "the bytes of a file are not a text"

end Fault

end ContractSync
