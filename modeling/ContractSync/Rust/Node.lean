/-!
# Syntax nodes

The structure of a source file as far as it is modelled: items with their attributes, the fields of
structs, the variants of enums, the items of modules, traits and implementation blocks. Bodies of
functions stay text.
-/

namespace ContractSync.Rust

/-- The part of a text from `start` up to `stop`. -/
structure Span where
  start : Nat
  stop : Nat
  deriving DecidableEq, Repr

/-- The kinds of items. -/
inductive ItemKind where
  | struct_
  | enum_
  | function
  | use
  | module
  | impl
  | trait_
  | typeAlias
  | other
  deriving DecidableEq, Repr

/-- What a node is. The body of an item is given by the positions of its two delimiters, the
arguments of an attribute by those of its parentheses. -/
inductive Shape where
  | file
  | item (kind : ItemKind) (name : Option String) (body : Option Span)
  | attribute (path : Option String) (args : Option Span) (inner : Bool)
  | field (name : String) (type : Span)
  | variant (name : String)
  deriving DecidableEq, Repr

/-- A node: `start` counts the attributes in front, `itemStart` does not. -/
inductive Node where
  | mk (shape : Shape) (start itemStart stop : Nat) (children : List Node)
  deriving Repr

namespace Node

/-- What the node is. -/
def shape : Node → Shape
  | mk shape _ _ _ _ => shape

/-- Where the node starts, attributes in front counted. -/
def start : Node → Nat
  | mk _ start _ _ _ => start

/-- Where the node starts behind its attributes. -/
def itemStart : Node → Nat
  | mk _ _ itemStart _ _ => itemStart

/-- Where the node ends. -/
def stop : Node → Nat
  | mk _ _ _ stop _ => stop

/-- The parts of the node. -/
def children : Node → List Node
  | mk _ _ _ _ children => children

/-- The kind of the item, if the node is one. -/
def itemKind? (n : Node) : Option ItemKind :=
  match n.shape with
  | .item kind _ _ => some kind
  | _ => none

/-- The name of the node. -/
def name? (n : Node) : Option String :=
  match n.shape with
  | .file => none
  | .item _ name _ => name
  | .attribute path _ _ => path
  | .field name _ => some name
  | .variant name => some name

/-- The positions of the delimiters of an item's body. -/
def body? (n : Node) : Option Span :=
  match n.shape with
  | .item _ _ body => body
  | _ => none

/-- The type of a field. -/
def type? (n : Node) : Option Span :=
  match n.shape with
  | .field _ type => some type
  | _ => none

/-- The node is an attribute. -/
def isAttribute (n : Node) : Bool :=
  match n.shape with
  | .attribute .. => true
  | _ => false

/-- The node is a field. -/
def isField (n : Node) : Bool :=
  match n.shape with
  | .field .. => true
  | _ => false

/-- The node is a variant. -/
def isVariant (n : Node) : Bool :=
  match n.shape with
  | .variant .. => true
  | _ => false

mutual

/-- The node and everything in it, in the order of the source. -/
def walk (n : Node) : List Node :=
  match n with
  | mk shape start itemStart stop children =>
    mk shape start itemStart stop children :: walkAll children

/-- The nodes and everything in them, in the order of the source. -/
def walkAll : List Node → List Node
  | [] => []
  | n :: rest => walk n ++ walkAll rest

end

mutual

/-- Whether two nodes are the same. -/
def decEq : (m n : Node) → Decidable (m = n)
  | mk shape start itemStart stop children, mk shape' start' itemStart' stop' children' =>
    have := decEqAll children children'
    decidable_of_iff (shape = shape' ∧ start = start' ∧ itemStart = itemStart' ∧ stop = stop' ∧
      children = children') (by rw [mk.injEq])

/-- Whether two sequences of nodes are the same. -/
def decEqAll : (ms ns : List Node) → Decidable (ms = ns)
  | [], [] => isTrue rfl
  | [], _ :: _ => isFalse nofun
  | _ :: _, [] => isFalse nofun
  | m :: ms, n :: ns =>
    have := decEq m n
    have := decEqAll ms ns
    decidable_of_iff (m = n ∧ ms = ns) (by rw [List.cons.injEq])

end

instance : DecidableEq Node := decEq

end Node

end ContractSync.Rust
