import ContractSync.Name.Identifier
import ContractSync.Rust.Item
import ContractSync.Rust.Lexer

/-!
# Syntax trees

`parse` reads a source text into a tree of its items. Declarations are found by name: an item at the
top wins over one inside another item, and within each level the first one in the source.
-/

namespace ContractSync.Rust

/-- The node of an item with the attributes in front of it and what it holds. -/
def Item.toNode (item : Item) (attributes : List Node) (itemStart : Nat)
    (members inside : List Node) : Node :=
  .mk (.item item.kind item.name (item.body.map Group.span))
    ((attributes.head?.map Node.start).getD itemStart) itemStart item.stop
    (attributes ++ members ++ inside)

/-- The nodes of the items of a file or a block that ends at `stop`. Inner attributes stand where
they were met; attributes that nothing follows stand at the end. -/
def parseItems (stop : Nat) (trees : List TokenTree) : Except Failure (List Node) :=
  let lead := Attribute.lead trees
  have _hlead := Item.sizeAll_le_of_suffix (Attribute.rest_lead_suffix trees)
  match _hrest : lead.rest with
  | [] => .ok (lead.inner ++ lead.outer)
  | tree :: rest =>
    if tree.isPunct ";" then
      (parseItems stop rest).map (lead.inner ++ ·)
    else
      match _hread : Item.read stop (tree :: rest) with
      | .error failure => .error failure
      | .ok item => do
        let members ← item.members
        let inside ← parseItems item.insideStop item.inside
        let following ← parseItems stop item.rest
        return lead.inner ++ item.toNode lead.outer tree.start members inside :: following
termination_by TokenTree.sizeAll trees
decreasing_by
  · have hle : TokenTree.sizeAll (tree :: rest) ≤ TokenTree.sizeAll trees := _hrest ▸ _hlead
    have := Item.size_pos tree
    simp only [TokenTree.sizeAll] at hle
    omega
  · exact Nat.lt_of_lt_of_le (Item.read_isTaken _hread (by simp)).sizeAll_inside_lt
      (_hrest ▸ _hlead)
  · exact Nat.lt_of_lt_of_le (Item.read_isTaken _hread (by simp)).sizeAll_rest_lt
      (_hrest ▸ _hlead)

/-- A source text and its structure. Trees of one text read at different times are told apart by
their revision. -/
structure Tree where
  source : List Char
  root : Node
  revision : Nat := 0
  deriving DecidableEq

/-- Reads a source text. -/
def parse (source : List Char) (revision : Nat := 0) : Except Failure Tree := do
  let trees ← TokenTree.ofTokens (← tokenize source)
  let items ← parseItems source.length trees
  return ⟨source, .mk .file 0 0 source.length items, revision⟩

/-- A declaration that was found in one reading of a text. -/
structure Handle where
  revision : Nat
  node : Node

namespace Tree

/-- The text that a node covers. -/
def text (tree : Tree) (n : Node) : List Char := Text.slice tree.source n.start n.stop

/-- The characters in a part of the source. -/
def spanText (tree : Tree) (s : Span) : List Char := Text.slice tree.source s.start s.stop

/-- All nodes, in the order of the source. -/
def nodes (tree : Tree) : List Node := tree.root.walk

/-- The items of some kind, at any depth. -/
def itemsOf (tree : Tree) (kind : ItemKind) : List Node :=
  tree.nodes.filter (·.itemKind? == some kind)

/-- The names of all functions. -/
def functionNames (tree : Tree) : List String := (tree.itemsOf .function).filterMap Node.name?

/-- The names of all structs. -/
def structNames (tree : Tree) : List String := (tree.itemsOf .struct_).filterMap Node.name?

/-- The texts of all imports. -/
def imports (tree : Tree) : List (List Char) := (tree.itemsOf .use).map tree.text

/-- The kinds of items that are declarations. -/
def declarationKinds : List ItemKind := [.struct_, .enum_, .function]

/-- The node has this name; raw markers do not matter. -/
def isNamed (name : String) (n : Node) : Bool :=
  n.name?.any fun found => Name.bare found == Name.bare name

/-- The node with a name among those that are wanted: the first one at the top, else the first one at
any depth. -/
def findWhere? (tree : Tree) (isWanted : Node → Bool) (name : String) : Option Node :=
  let isFound := fun n => isWanted n && isNamed name n
  (tree.root.children.find? isFound).orElse fun _ => tree.nodes.find? isFound

/-- The declaration with a name, of one of the kinds. -/
def find? (tree : Tree) (name : String) (kinds : List ItemKind := declarationKinds) :
    Option Node :=
  tree.findWhere? (fun n => n.itemKind?.any kinds.contains) name

/-- The handle of a declaration. -/
def handle (tree : Tree) (n : Node) : Handle := ⟨tree.revision, n⟩

/-- The declaration behind a handle, none if the handle belongs to another reading. -/
def ofHandle? (tree : Tree) (h : Handle) : Option Node :=
  if h.revision = tree.revision then some h.node else none

end Tree

namespace Node

/-- The attributes of a declaration. -/
def attributes (n : Node) : List Node := n.children.filter isAttribute

/-- The fields of a struct. -/
def fields (n : Node) : List Node := n.children.filter isField

/-- The variants of an enum. -/
def variants (n : Node) : List Node := n.children.filter isVariant

/-- The field with a name; raw markers do not matter. -/
def field? (n : Node) (name : String) : Option Node :=
  n.fields.find? fun f => f.name?.any fun found => Name.bare found == Name.bare name

end Node

end ContractSync.Rust
