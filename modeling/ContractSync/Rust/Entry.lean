import ContractSync.Rust.Node
import ContractSync.Rust.TokenTree

/-!
# Fields and variants

The content of a struct or an enum is divided into entries at the commas that stand outside angle
brackets. Each entry is read on its own as a named field, a numbered field or a variant.
-/

/-!
## Attributes

An attribute is a hash mark with a group in brackets. Outer attributes belong to what follows them,
inner ones, which carry an exclamation mark, to what holds them.
-/

namespace ContractSync.Rust.Attribute

/-- The token is part of an attribute's path. -/
def isPathToken (t : Token) : Bool := t.kind == .ident || t.text == "::"

/-- The path at the start of an attribute's content, and the arguments behind it. -/
def content : List TokenTree → List String × Option Span
  | .leaf t :: rest =>
    if isPathToken t then
      let (path, args) := content rest
      (t.text :: path, args)
    else ([], none)
  | .group opener _ closer :: _ =>
    ([], if opener.text == "(" then some ⟨opener.start, closer.start⟩ else none)
  | [] => ([], none)

/-- The node of an attribute that starts at `start` and has its content between two brackets. -/
def node (start : Nat) (inner : Bool) (trees : List TokenTree) (closer : Token) : Node :=
  let (path, args) := content trees
  let path := if path.isEmpty then none else some (String.join path)
  .mk (.attribute path args inner) start start closer.stop []

/-- The attributes in front of an item, a field or a variant. -/
structure Lead where
  inner : List Node := []
  outer : List Node := []
  rest : List TokenTree
  deriving Repr

/-- The attributes at the start of a sequence of trees, and what follows them. -/
def lead : List TokenTree → Lead
  | .leaf hash :: .group opener trees closer :: rest =>
    if hash.isPunct "#" && opener.isPunct "[" then
      let more := lead rest
      { more with outer := node hash.start false trees closer :: more.outer }
    else { rest := .leaf hash :: .group opener trees closer :: rest }
  | .leaf hash :: .leaf bang :: .group opener trees closer :: rest =>
    if hash.isPunct "#" && bang.isPunct "!" && opener.isPunct "[" then
      let more := lead rest
      { more with inner := node hash.start true trees closer :: more.inner }
    else { rest := .leaf hash :: .leaf bang :: .group opener trees closer :: rest }
  | trees => { rest := trees }

/-- What follows the attributes ends the sequence. -/
theorem rest_lead_suffix (trees : List TokenTree) : (lead trees).rest <:+ trees := by
  fun_induction lead trees with
  | case1 hash opener trees closer rest _ more ih =>
    exact ih.trans ⟨[.leaf hash, .group opener trees closer], rfl⟩
  | case3 hash bang opener trees closer rest _ more ih =>
    exact ih.trans ⟨[.leaf hash, .leaf bang, .group opener trees closer], rfl⟩
  | case2 | case4 | case5 => exact List.suffix_refl _

end ContractSync.Rust.Attribute

/-! ## Entries -/

namespace ContractSync.Rust

/-- A part of a list: its trees, the end of the token before it, and the comma or the end of the list
behind it. -/
structure Entry where
  before : Nat
  trees : List TokenTree
  stop : Nat
  comma : Bool
  deriving Repr

namespace Entry

/-- The depth of angle brackets behind a tree; a closing one without an opening one is ignored. -/
def angleAfter (angle : Nat) (tree : TokenTree) : Nat :=
  if tree.isPunct "<" then angle + 1 else if tree.isPunct ">" then angle - 1 else angle

/-- The entries of a list that ends at `stop`. The current one starts behind `before` and holds the
trees `taken`, in reverse. -/
def divide (before stop angle : Nat) (taken : List TokenTree) : List TokenTree → List Entry
  | [] => if taken.isEmpty then [] else [⟨before, taken.reverse, stop, false⟩]
  | tree :: rest =>
    if tree.isPunct "," && angle == 0 then
      ⟨before, taken.reverse, tree.start, true⟩ :: divide tree.stop stop 0 [] rest
    else divide before stop (angleAfter angle tree) (tree :: taken) rest

/-- The entries between two delimiters. -/
def ofGroup (opener : Token) (inner : List TokenTree) (closer : Token) : List Entry :=
  divide opener.stop closer.start 0 [] inner

/-- The position of a part of the entry: where its first tree starts, or where the entry ends. -/
def offsetOf (entry : Entry) : List TokenTree → Nat
  | [] => entry.stop
  | tree :: _ => tree.start

/-- The end of the last token up to the end of the entry. -/
def lastStop (entry : Entry) : Nat := (entry.trees.getLast?.map TokenTree.stop).getD entry.before

/-- The trees without the visibility in front. -/
def dropVisibility : List TokenTree → List TokenTree
  | .leaf t :: .group opener inner closer :: rest =>
    if t.isWord "pub" then
      if opener.isPunct "(" then rest else .group opener inner closer :: rest
    else .leaf t :: .group opener inner closer :: rest
  | .leaf t :: rest => if t.isWord "pub" then rest else .leaf t :: rest
  | trees => trees

/-- The name at the start of a part of the entry. -/
def name (entry : Entry) (what : Named) : List TokenTree → Except Failure String
  | .leaf t :: _ =>
    if t.kind = .ident then .ok t.text else .error ⟨.expectedName what, t.start⟩
  | .group opener _ _ :: _ => .error ⟨.expectedName what, opener.start⟩
  | [] =>
    .error ⟨if entry.comma then .expectedName what else .unexpectedEnd, entry.stop⟩

/-- The node of a field or a variant with the attributes in front of it. -/
def node (shape : Shape) (attributes : List Node) (itemStart stop : Nat) : Node :=
  .mk shape ((attributes.head?.map Node.start).getD itemStart) itemStart stop attributes

/-- Attributes that nothing follows are no field and no variant. -/
def isTrailing (entry : Entry) (trees : List TokenTree) : Bool := trees.isEmpty && !entry.comma

/-- The field of a struct with names: visibility, name, colon and type. -/
def recordField (entry : Entry) : Except Failure (Option Node) := do
  let lead := Attribute.lead entry.trees
  if entry.isTrailing lead.rest then return none
  let trees := dropVisibility lead.rest
  let name ← entry.name .field trees
  let colon := trees.tail
  if !(colon.head?.any (·.isPunct ":")) then
    throw ⟨.expectedColon, entry.offsetOf colon⟩
  let type := colon.tail
  if type.isEmpty then throw ⟨.expectedType, entry.stop⟩
  let span : Span := ⟨entry.offsetOf type, entry.lastStop⟩
  return some (node (.field name span) lead.outer (entry.offsetOf lead.rest) span.stop)

/-- The field of a struct without names: visibility and type; it is named for its position. -/
def tupleField (position : Nat) (entry : Entry) : Option Node :=
  let lead := Attribute.lead entry.trees
  if entry.isTrailing lead.rest then none
  else
    let span : Span := ⟨entry.offsetOf (dropVisibility lead.rest), entry.lastStop⟩
    some (node (.field (toString position) span) lead.outer (entry.offsetOf lead.rest) span.stop)

/-- The fields of a struct without names. -/
def tupleFields (position : Nat) : List Entry → List Node
  | [] => []
  | entry :: rest =>
    match tupleField position entry with
    | some field => field :: tupleFields (position + 1) rest
    | none => []

/-- The variant of an enum. -/
def variant (entry : Entry) : Except Failure (Option Node) := do
  let lead := Attribute.lead entry.trees
  if entry.isTrailing lead.rest then return none
  let name ← entry.name .variant lead.rest
  return some (node (.variant name) lead.outer (entry.offsetOf lead.rest) entry.lastStop)

/-- The nodes of all entries. -/
def nodes (read : Entry → Except Failure (Option Node)) (entries : List Entry) :
    Except Failure (List Node) := do
  return (← entries.mapM read).filterMap id

end Entry

end ContractSync.Rust
