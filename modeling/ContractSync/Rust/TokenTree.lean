import ContractSync.Rust.Failure
import ContractSync.Rust.Lexer

/-!
# Token trees

Parentheses, brackets and braces divide a sequence of tokens into groups. `TokenTree.ofTokens` finds
the groups or the delimiter that has no partner; `TokenTree.flatten` gives the tokens back.
-/

namespace ContractSync.Rust

/-- A token, or a group between an opening and a closing delimiter. -/
inductive TokenTree where
  | leaf (token : Token)
  | group (opener : Token) (inner : List TokenTree) (closer : Token)
  deriving Repr

namespace TokenTree

/-- The position where the tree starts. -/
def start : TokenTree → Nat
  | leaf t => t.start
  | group opener _ _ => opener.start

/-- The position where the tree ends. -/
def stop : TokenTree → Nat
  | leaf t => t.stop
  | group _ _ closer => closer.stop

/-- The first token of the tree. -/
def head : TokenTree → Token
  | leaf t => t
  | group opener _ _ => opener

/-- The tree is this punctuation, or a group that it opens. -/
def isPunct (tree : TokenTree) (text : String) : Bool := tree.head.isPunct text

/-- The tree is this word. -/
def isWord (tree : TokenTree) (word : String) : Bool := tree.head.isWord word

mutual

/-- The tokens of a tree. -/
def flatten : TokenTree → List Token
  | leaf t => [t]
  | group opener inner closer => opener :: (flattenAll inner ++ [closer])

/-- The tokens of a sequence of trees. -/
def flattenAll : List TokenTree → List Token
  | [] => []
  | tree :: rest => flatten tree ++ flattenAll rest

end

mutual

/-- Whether two trees are the same. -/
def decEq : (a b : TokenTree) → Decidable (a = b)
  | leaf t, leaf u => decidable_of_iff (t = u) (by rw [leaf.injEq])
  | leaf _, group .. => isFalse nofun
  | group .., leaf _ => isFalse nofun
  | group opener inner closer, group opener' inner' closer' =>
    have := decEqAll inner inner'
    decidable_of_iff (opener = opener' ∧ inner = inner' ∧ closer = closer') (by rw [group.injEq])

/-- Whether two sequences of trees are the same. -/
def decEqAll : (as bs : List TokenTree) → Decidable (as = bs)
  | [], [] => isTrue rfl
  | [], _ :: _ => isFalse nofun
  | _ :: _, [] => isFalse nofun
  | a :: as, b :: bs =>
    have := decEq a b
    have := decEqAll as bs
    decidable_of_iff (a = b ∧ as = bs) (by rw [List.cons.injEq])

end

instance : DecidableEq TokenTree := decEq

mutual

/-- The number of tokens of a tree. -/
def size : TokenTree → Nat
  | leaf _ => 1
  | group _ inner _ => sizeAll inner + 2

/-- The number of tokens of a sequence of trees. -/
def sizeAll : List TokenTree → Nat
  | [] => 0
  | tree :: rest => size tree + sizeAll rest

end

/-- Groups the tokens ahead. `stack` holds the open delimiters with the trees before each, and
`current` the trees since the innermost, both in reverse. -/
def build (stack : List (Token × List TokenTree)) (current : List TokenTree) :
    List Token → Except Failure (List TokenTree)
  | [] =>
    match stack with
    | [] => .ok current.reverse
    | (opener, _) :: _ => .error ⟨.unclosed opener.text, opener.start⟩
  | t :: rest =>
    if t.isOpener then build ((t, current) :: stack) [] rest
    else if t.isCloser then
      match stack with
      | [] => .error ⟨.unexpectedCloser t.text, t.start⟩
      | (opener, before) :: stack =>
        if opener.closes t then build stack (group opener current.reverse t :: before) rest
        else .error ⟨.unexpectedCloser t.text, t.start⟩
    else build stack (leaf t :: current) rest

/-- The trees of a sequence of tokens. -/
def ofTokens (tokens : List Token) : Except Failure (List TokenTree) := build [] [] tokens

mutual

/-- The positions of a tree's delimiters among the tokens, counted from `index`. -/
def pairs (index : Nat) : TokenTree → List (Nat × Nat)
  | leaf _ => []
  | group _ inner _ => (index, index + 1 + sizeAll inner) :: pairsAll (index + 1) inner

/-- The positions of the delimiters in a sequence of trees, counted from `index`. -/
def pairsAll (index : Nat) : List TokenTree → List (Nat × Nat)
  | [] => []
  | tree :: rest => pairs index tree ++ pairsAll (index + size tree) rest

end

end TokenTree

/-- The positions of matching delimiters among the tokens, in the order of the opening ones. -/
def matchDelimiters (tokens : List Token) : Except Failure (List (Nat × Nat)) :=
  (TokenTree.ofTokens tokens).map (TokenTree.pairsAll 0)

end ContractSync.Rust
