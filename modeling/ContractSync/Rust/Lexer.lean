import ContractSync.Rust.Failure
import ContractSync.Text.Digit
import ContractSync.Text.Letter

/-!
# Dividing source text into tokens

`step` looks at the text from its first character on and says what it starts with: a token of some
kind, or something to pass over, and how many further characters belong to it. `lexFrom` repeats
this until the text is used up; every step takes at least one character.
-/

/-!
## Tokens of source text

A token is an identifier, a lifetime, a literal or punctuation, with the part of the source that it
covers. Blank characters and comments are no tokens.
-/

namespace ContractSync.Rust

/-- The kinds of tokens that are told apart. -/
inductive TokenKind where
  | ident
  | lifetime
  | literal
  | punct
  deriving DecidableEq, Repr

/-- A token and where it stands: from `start` up to `stop`. -/
structure Token where
  kind : TokenKind
  text : String
  start : Nat
  stop : Nat
  deriving DecidableEq, Repr

namespace Token

/-- The token is this punctuation. -/
def isPunct (t : Token) (text : String) : Bool := t.kind == .punct && t.text == text

/-- The token is this word. -/
def isWord (t : Token) (word : String) : Bool := t.kind == .ident && t.text == word

/-- The token opens a group. -/
def isOpener (t : Token) : Bool := t.isPunct "(" || t.isPunct "[" || t.isPunct "\x7b"

/-- The token closes a group. -/
def isCloser (t : Token) : Bool := t.isPunct ")" || t.isPunct "]" || t.isPunct "\x7d"

/-- The second token closes the group that the first one opens. -/
def closes (opener closer : Token) : Bool :=
  (opener.isPunct "(" && closer.isPunct ")") || (opener.isPunct "[" && closer.isPunct "]")
    || (opener.isPunct "\x7b" && closer.isPunct "\x7d")

/-- The token one text further on. -/
def shift (n : Nat) (t : Token) : Token := { t with start := t.start + n, stop := t.stop + n }

end Token

end ContractSync.Rust

/-! ## The lexer -/

namespace ContractSync.Rust.Lexer

open ContractSync.Text (isBlank isLetter isAlphanumeric isDigit)

/-- A character that may start an identifier. -/
def isIdentStart (c : Char) : Bool := c == '_' || isLetter c

/-- A character that may go on an identifier. -/
def isIdentChar (c : Char) : Bool := c == '_' || isAlphanumeric c

/-- The first character of a text has the property. -/
def startsWith (p : Char → Bool) : List Char → Bool
  | [] => false
  | c :: _ => p c

/-! ### The parts of a text that end somewhere -/

/-- The length of a block comment from inside `depth` openings on; comments nest. -/
def commentLength (depth : Nat) : List Char → Option Nat
  | '/' :: '*' :: rest => (commentLength (depth + 1) rest).map (· + 2)
  | '*' :: '/' :: rest =>
    if depth ≤ 1 then some 2 else (commentLength (depth - 1) rest).map (· + 2)
  | _ :: rest => (commentLength depth rest).map (· + 1)
  | [] => none

/-- The length of a quoted literal from behind its opening quote on, the closing quote counted. A
backslash takes the character behind it along. -/
def quotedLength (quote : Char) : List Char → Option Nat
  | [] => none
  | '\\' :: rest =>
    match rest with
    | [] => none
    | _ :: rest => (quotedLength quote rest).map (· + 2)
  | c :: rest => if c = quote then some 1 else (quotedLength quote rest).map (· + 1)

/-- The length of a text up to and with a quote that `hashes` hash marks follow. -/
def rawLength (hashes : Nat) : List Char → Option Nat
  | [] => none
  | c :: rest =>
    if c = '"' ∧ (List.replicate hashes '#').isPrefixOf rest then some (1 + hashes)
    else (rawLength hashes rest).map (· + 1)

/-- The number of hash marks in front of a raw string's opening quote, if the text starts so. -/
def rawHashes (cs : List Char) : Option Nat :=
  if startsWith (· == '"') (cs.dropWhile (· == '#')) then some (cs.takeWhile (· == '#')).length
  else none

/-- The number of hash marks of a raw string whose marker starts with `c`, and the length of the
marker behind `c`. -/
def rawMarker (c : Char) (rest : List Char) : Option (Nat × Nat) :=
  if c = 'r' then (rawHashes rest).map fun n => (n, n + 1)
  else
    match c, rest with
    | 'b', 'r' :: rest => (rawHashes rest).map fun n => (n, n + 2)
    | _, _ => none

/-- The length of a number from behind its first digit on: a point belongs to it if a digit
follows. -/
def numberLength : List Char → Nat
  | [] => 0
  | c :: rest =>
    if isIdentChar c || (c == '.' && startsWith isDigit rest) then numberLength rest + 1 else 0

/-- The number of characters that go on an identifier. -/
def identLength (cs : List Char) : Nat := (cs.takeWhile isIdentChar).length

/-! ### One step -/

/-- What a text starts with: a token of a kind, or nothing of interest, and the number of characters
that belong to it behind the first. -/
structure Step where
  kind : Option TokenKind
  further : Nat
  deriving DecidableEq, Repr

/-- A literal of the given further length; without an end, the problem at `skip` characters behind
the start. -/
def literal (skip : Nat) (problem : Problem) : Option Nat → Except Failure Step
  | some n => .ok ⟨some .literal, skip + n⟩
  | none => .error ⟨problem, skip⟩

/-- A character literal or a lifetime, from behind the quote on. -/
def quoteOrLifetime (rest : List Char) : Except Failure Step :=
  if startsWith (· == '\\') rest || startsWith (· == '\'') (rest.drop 1) then
    literal 0 .unterminatedString (quotedLength '\'' rest)
  else if startsWith isIdentStart rest then .ok ⟨some .lifetime, identLength rest⟩
  else .error ⟨.malformedCharacter, 0⟩

/-- The two characters make one punctuation mark. -/
def isPair (c d : Char) : Bool :=
  (c == ':' && d == ':') || (c == '-' && d == '>') || (c == '=' && d == '>')

/-- The token that the text `c :: rest` starts with. -/
def tokenStep (c : Char) (rest : List Char) : Except Failure Step :=
  match rawMarker c rest with
  | some (hashes, marker) =>
    match rawLength hashes (rest.drop marker) with
    | some n => .ok ⟨some .literal, marker + n⟩
    | none => .error ⟨.unterminatedRawString, 0⟩
  | none =>
    if c = 'b' ∧ startsWith (· == '"') rest then
      (literal 1 .unterminatedString (quotedLength '"' (rest.drop 1)))
    else if c = 'b' ∧ startsWith (· == '\'') rest then
      (literal 1 .unterminatedString (quotedLength '\'' (rest.drop 1)))
    else if c = 'r' ∧ startsWith (· == '#') rest ∧ startsWith isIdentStart (rest.drop 1) then
      .ok ⟨some .ident, 1 + identLength (rest.drop 1)⟩
    else if isIdentStart c then .ok ⟨some .ident, identLength rest⟩
    else if c = '"' then literal 0 .unterminatedString (quotedLength '"' rest)
    else if c = '\'' then quoteOrLifetime rest
    else if isDigit c then .ok ⟨some .literal, numberLength rest⟩
    else .ok ⟨some .punct, if startsWith (isPair c) rest then 1 else 0⟩

/-- What the text `c :: rest` starts with. Failures give their distance from `c`. -/
def step (c : Char) (rest : List Char) : Except Failure Step :=
  if isBlank c then .ok ⟨none, 0⟩
  else if c = '/' ∧ startsWith (· == '/') rest then
    .ok ⟨none, (rest.takeWhile (· != '\n')).length⟩
  else if c = '/' ∧ startsWith (· == '*') rest then
    match commentLength 1 (rest.drop 1) with
    | some n => .ok ⟨none, n + 1⟩
    | none => .error ⟨.unterminatedComment, 0⟩
  else tokenStep c rest

/-- The tokens of a text that starts at `position`. -/
def lexFrom (position : Nat) : List Char → Except Failure (List Token)
  | [] => .ok []
  | c :: rest =>
    match step c rest with
    | .error failure => .error (failure.shift position)
    | .ok ⟨kind, further⟩ =>
      let next := position + further + 1
      match kind with
      | none => lexFrom next (rest.drop further)
      | some kind =>
        (lexFrom next (rest.drop further)).map
          (⟨kind, String.ofList (c :: rest.take further), position, next⟩ :: ·)
termination_by cs => cs.length
decreasing_by
  all_goals
    rw [List.length_drop, List.length_cons]
    exact Nat.lt_succ_of_le (Nat.sub_le _ _)

end Lexer

/-- The tokens of a source text. -/
def tokenize (source : List Char) : Except Failure (List Token) := Lexer.lexFrom 0 source

end ContractSync.Rust
