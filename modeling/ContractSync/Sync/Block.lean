import ContractSync.Text.Basic

/-!
# Appending declarations

A new declaration goes to the end of a file, with one blank line before it.
-/

namespace ContractSync.Sync

/-- The text ends with the characters of `tail`. -/
def endsWith (tail source : List Char) : Bool := tail.reverse.isPrefixOf source.reverse

/-- The text with line feeds at its end so that what comes next stands behind a blank line. -/
def closeLines (source : List Char) : List Char :=
  if endsWith ['\n', '\n'] source then source
  else if endsWith ['\n'] source then source ++ ['\n']
  else source ++ ['\n', '\n']

/-- The text with a declaration at its end. -/
def appendBlock (source block : List Char) : List Char :=
  if Text.isAllBlank source then source ++ block else closeLines source ++ block

end ContractSync.Sync
