/-!
# Texts as lists of characters

Trimming, lines and searching. A position in a text is the number of characters before it, so
that `cs.take n` and `cs.drop n` cut at position `n`.
-/

/-!
## Character tables

A class of characters is given as a list of inclusive ranges of code points.
-/

namespace ContractSync.Text

/-- The character lies in one of the ranges. -/
def inRanges (table : List (Nat × Nat)) (c : Char) : Bool :=
  table.any fun r => r.1 ≤ c.toNat && c.toNat ≤ r.2

end ContractSync.Text

/-!
## Blank characters and line boundaries

Blank characters separate words and are trimmed from both ends of a text; line boundaries end
a line. Every line boundary is blank.
-/

namespace ContractSync.Text

/-- The blank characters of all scripts. -/
def blankRanges : List (Nat × Nat) :=
  [(9, 13), (28, 32), (133, 133), (160, 160), (5760, 5760), (8192, 8202), (8232, 8233),
   (8239, 8239), (8287, 8287), (12288, 12288)]

/-- The characters that end a line. -/
def lineBoundaryRanges : List (Nat × Nat) :=
  [(10, 13), (28, 30), (133, 133), (8232, 8233)]

/-- A blank character: space, tabulator, line boundary or another separator. -/
def isBlank (c : Char) : Bool := inRanges blankRanges c

/-- A character that ends a line. -/
def isLineBoundary (c : Char) : Bool := inRanges lineBoundaryRanges c

theorem isBlank_of_isWhitespace {c : Char} (h : c.isWhitespace = true) : isBlank c = true := by
  simp only [Char.isWhitespace, Bool.or_eq_true, decide_eq_true_eq] at h
  rcases h with ((h | h) | h) | h <;> subst h <;> decide

theorem isBlank_of_isLineBoundary {c : Char} (h : isLineBoundary c = true) :
    isBlank c = true := by
  simp [isLineBoundary, isBlank, inRanges, lineBoundaryRanges, blankRanges] at h ⊢
  omega

end ContractSync.Text

namespace ContractSync.Text

/-! ### Trimming -/

/-- The text without the blank characters at its start. -/
def trimStart (cs : List Char) : List Char := cs.dropWhile isBlank

/-- The text without the characters in `p` at its end. -/
def dropEndWhile (p : Char → Bool) (cs : List Char) : List Char :=
  (cs.reverse.dropWhile p).reverse

/-- The text without the blank characters at its end. -/
def trimEnd (cs : List Char) : List Char := dropEndWhile isBlank cs

/-- The text without the blank characters at both ends. -/
def trim (cs : List Char) : List Char := trimEnd (trimStart cs)

/-- The text holds blank characters only. -/
def isAllBlank (cs : List Char) : Bool := cs.all isBlank

/-- The characters between two positions. -/
def slice (cs : List Char) (start stop : Nat) : List Char := (cs.take stop).drop start

/-- The text with the characters between two positions replaced by `insert`. -/
def splice (cs : List Char) (start stop : Nat) (insert : List Char) : List Char :=
  cs.take start ++ insert ++ cs.drop stop

/-! ### Lines -/

/-- Puts a character at the start of the first line. -/
def pushFront (c : Char) : List (List Char) → List (List Char)
  | [] => [[c]]
  | line :: rest => (c :: line) :: rest

/-- The lines of a text without their boundaries; a boundary at the end opens no further line, and
a carriage return with the line feed after it is one boundary. -/
def lines : List Char → List (List Char)
  | [] => []
  | '\r' :: '\n' :: rest => [] :: lines rest
  | c :: rest => if isLineBoundary c then [] :: lines rest else pushFront c (lines rest)

/-- The number of the line that holds a position, counting line feeds from one. -/
def lineOf (cs : List Char) (position : Nat) : Nat := (cs.take position).count '\n' + 1

/-- The position where the line of a position starts, lines ending at line feeds. -/
def lineStart (cs : List Char) (position : Nat) : Nat :=
  (dropEndWhile (· != '\n') (cs.take position)).length

/-- The blank characters from the start of a line up to a position in it. -/
def indentAt (cs : List Char) (position : Nat) : List Char :=
  (slice cs (lineStart cs position) position).takeWhile isBlank

/-! ### Searching and splitting -/

/-- The pieces of a text between the occurrences of a character. -/
def splitAt (sep : Char) : List Char → List (List Char)
  | [] => [[]]
  | c :: rest => if c = sep then [] :: splitAt sep rest else pushFront c (splitAt sep rest)

/-- The text before the first occurrence of a character and, if it occurs, the text after it. -/
def cutAt (sep : Char) (cs : List Char) : List Char × Option (List Char) :=
  match cs.dropWhile (· != sep) with
  | [] => (cs, none)
  | _ :: rest => (cs.takeWhile (· != sep), some rest)

/-- The text after the last occurrence of a character, or all of it. -/
def afterLast (sep : Char) (cs : List Char) : List Char :=
  (cs.reverse.takeWhile (· != sep)).reverse

/-- Some part of the text is `word`. -/
def occursIn (word : List Char) : List Char → Bool
  | [] => word.isEmpty
  | c :: rest => word.isPrefixOf (c :: rest) || occursIn word rest

/-- The text with every line-end mark (`\r\n` or `\r`) written as a line feed. -/
def unifyLineEnds : List Char → List Char
  | [] => []
  | '\r' :: '\n' :: rest => '\n' :: unifyLineEnds rest
  | c :: rest => (if c = '\r' then '\n' else c) :: unifyLineEnds rest

/-- The texts one after another with `sep` between them. -/
def joinWith (sep : String) (parts : List String) : String := sep.intercalate parts

/-! ### The same on strings -/

/-- The string without the blank characters at both ends. -/
def trimmed (s : String) : String := String.ofList (trim s.toList)

/-- The string holds blank characters only. -/
def isBlankString (s : String) : Bool := isAllBlank s.toList

end ContractSync.Text

/-!
## Bounded occurrences

A key occurs bounded in a text if it stands there with no ASCII letter, digit or underscore directly
before or behind it.
-/

namespace ContractSync.Text

/-- An ASCII letter, a digit or an underscore. -/
def isWordChar (c : Char) : Bool := c.isAlphanum || c == '_'

/-- A word character comes first. -/
def startsInWord : List Char → Bool
  | [] => false
  | c :: _ => isWordChar c

/-- The text starts with the key, and no word character goes on from there. -/
def boundedHere (key cs : List Char) : Bool :=
  key.isPrefixOf cs && !startsInWord (cs.drop key.length)

/-- The key occurs bounded in the text; `inWord` tells that a word character stands before it. -/
def boundedAfter (inWord : Bool) (key : List Char) : List Char → Bool
  | [] => !inWord && boundedHere key []
  | c :: rest =>
    (!inWord && boundedHere key (c :: rest)) || boundedAfter (isWordChar c) key rest

/-- The key occurs bounded in the text. -/
def occursBounded (key cs : List Char) : Bool := boundedAfter false key cs

end ContractSync.Text
