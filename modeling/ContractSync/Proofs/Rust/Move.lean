import ContractSync.Proofs.Rust.Grouping
import ContractSync.Rust.Entry
import ContractSync.Rust.Item

/-!
# Moving positions

`move g` replaces every position `x` in a token, a tree or a node by `g x`. `carry e` does the same with two
maps, one for the places where tokens start and one for those where they stop: a token that ends where
another one begins is parted from it when a text comes between them. The structure of a text does not
depend on where it stands, so the functions that read it commute with `carry`; this module has that for
attributes.

`recast e content` carries a tree likewise but gives every group the inner trees that `content` says.
What looks at trees from outside cannot tell the two apart, and an attribute can tell them apart by its
brackets only (`Attribute.lead_recast`).
-/

namespace ContractSync.Rust

/-- Where the places go at which tokens start and at which they stop. -/
structure Edges where
  start : Nat → Nat
  stop : Nat → Nat

/-- The same for both. -/
def Edges.same (g : Nat → Nat) : Edges := ⟨g, g⟩

variable {g : Nat → Nat} {e : Edges} {content : Token → List TokenTree → List TokenTree}

/-! ### Tokens -/

/-- The token with its positions moved. -/
def Token.move (g : Nat → Nat) (t : Token) : Token :=
  { t with start := g t.start, stop := g t.stop }

/-- The token with its two ends carried. -/
def Token.carry (e : Edges) (t : Token) : Token :=
  { t with start := e.start t.start, stop := e.stop t.stop }

namespace Token

@[simp] theorem carry_kind (t : Token) : (t.carry e).kind = t.kind := rfl

@[simp] theorem carry_text (t : Token) : (t.carry e).text = t.text := rfl

@[simp] theorem carry_start (t : Token) : (t.carry e).start = e.start t.start := rfl

@[simp] theorem isPunct_carry (t : Token) (text : String) :
    (t.carry e).isPunct text = t.isPunct text := rfl

@[simp] theorem isWord_carry (t : Token) (word : String) :
    (t.carry e).isWord word = t.isWord word := rfl

@[simp] theorem closes_carry (opener closer : Token) :
    (opener.carry e).closes (closer.carry e) = opener.closes closer := rfl

/-- A token is one punctuation mark only. -/
theorem isPunct_of_ne {t : Token} {mark text : String} (h : t.isPunct mark = true)
    (hne : mark ≠ text) : t.isPunct text = false := by
  rw [isPunct, Bool.and_eq_true, beq_iff_eq, beq_iff_eq] at h
  rw [isPunct, h.2, beq_false_of_ne hne, Bool.and_false]

theorem move_eq_self {t : Token} (hstart : g t.start = t.start) (hstop : g t.stop = t.stop) :
    t.move g = t := by
  rw [move, hstart, hstop]

theorem carry_eq_self {t : Token} (hstart : e.start t.start = t.start)
    (hstop : e.stop t.stop = t.stop) : t.carry e = t := by
  rw [carry, hstart, hstop]

end Token

/-! ### Trees -/

namespace TokenTree

mutual

/-- The tree with all its positions moved. -/
def move (g : Nat → Nat) : TokenTree → TokenTree
  | leaf t => leaf (t.move g)
  | group opener inner closer => group (opener.move g) (moveAll g inner) (closer.move g)

/-- The trees with all their positions moved. -/
def moveAll (g : Nat → Nat) : List TokenTree → List TokenTree
  | [] => []
  | tree :: rest => move g tree :: moveAll g rest

end

mutual

/-- The tree with the ends of all its tokens carried. -/
def carry (e : Edges) : TokenTree → TokenTree
  | leaf t => leaf (t.carry e)
  | group opener inner closer => group (opener.carry e) (carryAll e inner) (closer.carry e)

/-- The trees with the ends of all their tokens carried. -/
def carryAll (e : Edges) : List TokenTree → List TokenTree
  | [] => []
  | tree :: rest => carry e tree :: carryAll e rest

end

/-- The tree carried, with other trees inside if it is a group. -/
def recast (e : Edges) (content : Token → List TokenTree → List TokenTree) :
    TokenTree → TokenTree
  | leaf t => leaf (t.carry e)
  | group opener inner closer => group (opener.carry e) (content opener inner) (closer.carry e)

theorem carryAll_eq_map (trees : List TokenTree) : carryAll e trees = trees.map (carry e) := by
  induction trees with
  | nil => rfl
  | cons tree rest ih => rw [carryAll, ih, List.map_cons]

theorem carry_group (opener : Token) (inner : List TokenTree) (closer : Token) :
    carry e (group opener inner closer) =
      group (opener.carry e) (inner.map (carry e)) (closer.carry e) := by
  rw [carry, carryAll_eq_map]

mutual

theorem carry_same (tree : TokenTree) : carry (.same g) tree = move g tree := by
  cases tree with
  | leaf t => rfl
  | group opener inner closer => rw [carry, move, carryAll_same]; rfl

theorem carryAll_same (trees : List TokenTree) : carryAll (.same g) trees = moveAll g trees := by
  cases trees with
  | nil => rfl
  | cons tree rest => rw [carryAll, moveAll, carry_same, carryAll_same]

end

theorem map_carry_same (trees : List TokenTree) :
    trees.map (carry (.same g)) = trees.map (move g) :=
  List.map_congr_left fun tree _ => carry_same tree

/-- Only a delimiter opens a group. -/
theorem leaf_of_isPunct {tree : TokenTree} {mark : String} (hnested : isNested tree = true)
    (h : tree.isPunct mark = true) (hmark : mark ∉ ["(", "[", "\x7b"]) : ∃ t, tree = .leaf t := by
  cases tree with
  | leaf t => exact ⟨t, rfl⟩
  | group opener inner closer =>
    rw [isNested, Bool.and_eq_true] at hnested
    have hopener := Token.isOpener_of_closes hnested.1
    rw [Token.isOpener, Bool.or_eq_true, Bool.or_eq_true] at hopener
    have hne : ∀ text ∈ ["(", "[", "\x7b"], opener.isPunct text = false := fun text htext =>
      Token.isPunct_of_ne h (fun heq => hmark (heq ▸ htext))
    rw [hne "(" (by decide), hne "[" (by decide), hne "\x7b" (by decide)] at hopener
    simp at hopener

/-- Another mark than a delimiter stands for itself. -/
theorem isNested_leaf {t : Token} {mark : String} (h : t.isPunct mark = true)
    (hmark : mark ∉ ["(", "[", "\x7b", ")", "]", "\x7d"]) : isNested (.leaf t) = true := by
  have hne : ∀ text ∈ ["(", "[", "\x7b", ")", "]", "\x7d"], t.isPunct text = false :=
    fun text htext => Token.isPunct_of_ne h fun heq => hmark (heq ▸ htext)
  simp [isNested, Token.isOpener, Token.isCloser, hne]

/-- A tree that is carried is recast with the inner trees carried. -/
theorem recast_carryAll : recast e (fun _ => carryAll e) = carry e := by
  funext tree
  cases tree <;> rfl

@[simp] theorem stop_recast (tree : TokenTree) :
    (recast e content tree).stop = e.stop tree.stop := by
  cases tree <;> rfl

@[simp] theorem start_recast (tree : TokenTree) :
    (recast e content tree).start = e.start tree.start := by
  cases tree <;> rfl

@[simp] theorem head_recast (tree : TokenTree) :
    (recast e content tree).head = tree.head.carry e := by
  cases tree <;> rfl

@[simp] theorem isPunct_recast (tree : TokenTree) (text : String) :
    (recast e content tree).isPunct text = tree.isPunct text := by
  cases tree <;> rfl

@[simp] theorem start_carry (tree : TokenTree) : (carry e tree).start = e.start tree.start := by
  cases tree <;> rfl

@[simp] theorem stop_carry (tree : TokenTree) : (carry e tree).stop = e.stop tree.stop := by
  cases tree <;> rfl

@[simp] theorem isPunct_carry (tree : TokenTree) (text : String) :
    (carry e tree).isPunct text = tree.isPunct text := by
  cases tree <;> rfl

@[simp] theorem start_move (tree : TokenTree) : (move g tree).start = g tree.start := by
  cases tree <;> rfl

@[simp] theorem stop_move (tree : TokenTree) : (move g tree).stop = g tree.stop := by
  cases tree <;> rfl

@[simp] theorem isPunct_move (tree : TokenTree) (text : String) :
    (move g tree).isPunct text = tree.isPunct text := by
  cases tree <;> rfl

mutual

/-- Trees whose tokens stay where they are stay as they are. -/
theorem carry_eq_self {tree : TokenTree} (h : ∀ t ∈ flatten tree, t.carry e = t) :
    carry e tree = tree := by
  cases tree with
  | leaf t => rw [carry, h t (List.mem_singleton_self t)]
  | group opener inner closer =>
    simp only [flatten, List.mem_cons, List.mem_append, List.not_mem_nil, or_false] at h
    rw [carry, h opener (.inl rfl), h closer (.inr (.inr rfl)),
      carryAll_eq_self fun t ht => h t (.inr (.inl ht))]

theorem carryAll_eq_self {trees : List TokenTree} (h : ∀ t ∈ flattenAll trees, t.carry e = t) :
    carryAll e trees = trees := by
  cases trees with
  | nil => rfl
  | cons tree rest =>
    simp only [flattenAll, List.mem_append] at h
    rw [carryAll, carry_eq_self fun t ht => h t (.inl ht),
      carryAll_eq_self fun t ht => h t (.inr ht)]

end

mutual

theorem flatten_carry (tree : TokenTree) :
    flatten (carry e tree) = (flatten tree).map (·.carry e) := by
  cases tree with
  | leaf t => rfl
  | group opener inner closer =>
    rw [carry, flatten, flatten, flattenAll_carryAll, List.map_cons, List.map_append, List.map_cons,
      List.map_nil]

theorem flattenAll_carryAll (trees : List TokenTree) :
    flattenAll (carryAll e trees) = (flattenAll trees).map (·.carry e) := by
  cases trees with
  | nil => rfl
  | cons tree rest =>
    rw [carryAll, flattenAll, flattenAll, flatten_carry, flattenAll_carryAll, List.map_append]

end

theorem flattenAll_map_carry (trees : List TokenTree) :
    flattenAll (trees.map (carry e)) = (flattenAll trees).map (·.carry e) := by
  rw [← carryAll_eq_map, flattenAll_carryAll]

theorem flattenAll_map_move (trees : List TokenTree) :
    flattenAll (trees.map (move g)) = (flattenAll trees).map (·.move g) := by
  rw [← map_carry_same, flattenAll_map_carry]
  rfl

mutual

theorem isNested_carry (tree : TokenTree) : isNested (tree.carry e) = isNested tree := by
  cases tree with
  | leaf t => rfl
  | group opener inner closer => rw [carry, isNested, isNested, isNestedAll_carryAll]; rfl

theorem isNestedAll_carryAll (trees : List TokenTree) :
    isNestedAll (carryAll e trees) = isNestedAll trees := by
  cases trees with
  | nil => rfl
  | cons tree rest =>
    rw [carryAll, isNestedAll, isNestedAll, isNested_carry, isNestedAll_carryAll]

end

theorem isNestedAll_map_carry (trees : List TokenTree) :
    isNestedAll (trees.map (carry e)) = isNestedAll trees := by
  rw [← carryAll_eq_map, isNestedAll_carryAll]

theorem isNestedAll_map_move (trees : List TokenTree) :
    isNestedAll (trees.map (move g)) = isNestedAll trees := by
  rw [← map_carry_same, isNestedAll_map_carry]

end TokenTree

/-! ### Nodes -/

/-- The part of the text between the positions moved. -/
def Span.move (g : Nat → Nat) (s : Span) : Span := ⟨g s.start, g s.stop⟩

/-- The part of the text from where its first token starts to where its last one stops, carried. -/
def Span.carry (e : Edges) (s : Span) : Span := ⟨e.start s.start, e.stop s.stop⟩

/-- The shape with its positions moved. -/
def Shape.move (g : Nat → Nat) : Shape → Shape
  | .file => .file
  | .item kind name body => .item kind name (body.map (Span.move g))
  | .attribute path args inner => .attribute path (args.map (Span.move g)) inner
  | .field name type => .field name (type.move g)
  | .variant name => .variant name

/-- The shape carried; delimiters are found where they start. -/
def Shape.carry (e : Edges) : Shape → Shape
  | .file => .file
  | .item kind name body => .item kind name (body.map (Span.move e.start))
  | .attribute path args inner => .attribute path (args.map (Span.move e.start)) inner
  | .field name type => .field name (type.carry e)
  | .variant name => .variant name

theorem Shape.carry_same (shape : Shape) : shape.carry (.same g) = shape.move g := by
  cases shape <;> rfl

theorem Shape.move_id (shape : Shape) : shape.move id = shape := by
  match shape with
  | .item _ _ none | .item _ _ (some _) | .attribute _ none _ | .attribute _ (some _) _ => rfl
  | .file | .field .. | .variant .. => rfl

namespace Node

mutual

/-- The node with all its positions moved: what it is, how it is called and what it holds stays. -/
def move (g : Nat → Nat) : Node → Node
  | mk shape start itemStart stop children =>
    mk (shape.move g) (g start) (g itemStart) (g stop) (moveAll g children)

/-- The nodes with all their positions moved. -/
def moveAll (g : Nat → Nat) : List Node → List Node
  | [] => []
  | n :: rest => move g n :: moveAll g rest

end

mutual

/-- The node with the ends of its tokens carried. -/
def carry (e : Edges) : Node → Node
  | mk shape start itemStart stop children =>
    mk (shape.carry e) (e.start start) (e.start itemStart) (e.stop stop) (carryAll e children)

/-- The nodes with the ends of their tokens carried. -/
def carryAll (e : Edges) : List Node → List Node
  | [] => []
  | n :: rest => carry e n :: carryAll e rest

end

theorem moveAll_eq_map (nodes : List Node) : moveAll g nodes = nodes.map (move g) := by
  induction nodes with
  | nil => rfl
  | cons n rest ih => rw [moveAll, ih, List.map_cons]

theorem carryAll_eq_map (nodes : List Node) : carryAll e nodes = nodes.map (carry e) := by
  induction nodes with
  | nil => rfl
  | cons n rest ih => rw [carryAll, ih, List.map_cons]

theorem carry_mk (shape : Shape) (start itemStart stop : Nat) (children : List Node) :
    carry e (mk shape start itemStart stop children) =
      mk (shape.carry e) (e.start start) (e.start itemStart) (e.stop stop)
        (children.map (carry e)) := by
  rw [carry, carryAll_eq_map]

mutual

theorem carry_same (n : Node) : n.carry (.same g) = n.move g := by
  cases n with
  | mk shape start itemStart stop children =>
    rw [carry, move, shape.carry_same, carryAll_same]
    rfl

theorem carryAll_same (nodes : List Node) : carryAll (.same g) nodes = moveAll g nodes := by
  cases nodes with
  | nil => rfl
  | cons n rest => rw [carryAll, moveAll, carry_same, carryAll_same]

end

theorem map_carry_same (nodes : List Node) : nodes.map (carry (.same g)) = nodes.map (move g) :=
  List.map_congr_left fun n _ => carry_same n

@[simp] theorem start_carry (n : Node) : (n.carry e).start = e.start n.start := by cases n; rfl

@[simp] theorem stop_carry (n : Node) : (n.carry e).stop = e.stop n.stop := by cases n; rfl

@[simp] theorem shape_carry (n : Node) : (n.carry e).shape = n.shape.carry e := by cases n; rfl

@[simp] theorem children_carry (n : Node) :
    (n.carry e).children = n.children.map (carry e) := by
  cases n
  rw [carry_mk]
  rfl

theorem move_mk (shape : Shape) (start itemStart stop : Nat) (children : List Node) :
    move g (mk shape start itemStart stop children) =
      mk (shape.move g) (g start) (g itemStart) (g stop) (children.map (move g)) := by
  rw [move, moveAll_eq_map]

@[simp] theorem start_move (n : Node) : (n.move g).start = g n.start := by cases n; rfl

@[simp] theorem stop_move (n : Node) : (n.move g).stop = g n.stop := by cases n; rfl

@[simp] theorem shape_move (n : Node) : (n.move g).shape = n.shape.move g := by cases n; rfl

@[simp] theorem children_move (n : Node) : (n.move g).children = n.children.map (move g) := by
  cases n
  rw [move_mk]
  rfl

@[simp] theorem itemKind?_move (n : Node) : (n.move g).itemKind? = n.itemKind? := by
  rw [itemKind?, itemKind?, shape_move]
  cases n.shape <;> rfl

@[simp] theorem name?_move (n : Node) : (n.move g).name? = n.name? := by
  rw [name?, name?, shape_move]
  cases n.shape <;> rfl

@[simp] theorem isField_move (n : Node) : (n.move g).isField = n.isField := by
  rw [isField, isField, shape_move]
  cases n.shape <;> rfl

@[simp] theorem type?_move (n : Node) : (n.move g).type? = n.type?.map (Span.move g) := by
  rw [type?, type?, shape_move]
  cases n.shape <;> rfl

mutual

theorem move_id (n : Node) : n.move id = n := by
  cases n with
  | mk shape start itemStart stop children =>
    rw [move, shape.move_id, moveAll_id]
    rfl

theorem moveAll_id (nodes : List Node) : moveAll id nodes = nodes := by
  cases nodes with
  | nil => rfl
  | cons n rest => rw [moveAll, move_id, moveAll_id]

end

mutual

theorem walk_carry (n : Node) : (n.carry e).walk = n.walk.map (carry e) := by
  cases n with
  | mk shape start itemStart stop children =>
    rw [carry, walk, walk, walkAll_carryAll, List.map_cons, carry]

theorem walkAll_carryAll (nodes : List Node) :
    walkAll (carryAll e nodes) = (walkAll nodes).map (carry e) := by
  cases nodes with
  | nil => rfl
  | cons n rest => rw [carryAll, walkAll, walkAll, walk_carry, walkAll_carryAll, List.map_append]

end

theorem walkAll_moveAll (nodes : List Node) :
    walkAll (moveAll g nodes) = (walkAll nodes).map (move g) := by
  rw [← carryAll_same, walkAll_carryAll, map_carry_same]

theorem walkAll_append (a b : List Node) : walkAll (a ++ b) = walkAll a ++ walkAll b := by
  induction a with
  | nil => rfl
  | cons n a ih => rw [List.cons_append, walkAll, walkAll, ih, List.append_assoc]

theorem mem_walkAll {nodes : List Node} {n : Node} :
    n ∈ walkAll nodes ↔ ∃ m ∈ nodes, n ∈ m.walk := by
  induction nodes with
  | nil => simp [walkAll]
  | cons m rest ih => simp [walkAll, ih]

theorem mem_walk_mk {shape : Shape} {start itemStart stop : Nat} {children : List Node} {n : Node} :
    n ∈ walk (mk shape start itemStart stop children) ↔
      n = mk shape start itemStart stop children ∨ n ∈ walkAll children := by
  rw [walk, List.mem_cons]

theorem mem_walk_self (n : Node) : n ∈ n.walk := by
  cases n
  exact List.mem_cons_self

end Node

/-! ### Attributes -/

namespace Attribute

open TokenTree (recast)

/-- The groups in brackets keep what they hold, carried. -/
def KeepsBrackets (e : Edges) (content : Token → List TokenTree → List TokenTree) : Prop :=
  ∀ opener inner, opener.isPunct "[" = true →
    content opener inner = inner.map (TokenTree.carry e)

theorem keepsBrackets_carryAll : KeepsBrackets e fun _ => TokenTree.carryAll e :=
  fun _ inner _ => TokenTree.carryAll_eq_map inner

/-- The attributes carried, with what follows them recast. -/
protected def Lead.recast (e : Edges) (content : Token → List TokenTree → List TokenTree)
    (lead : Lead) : Lead :=
  ⟨lead.inner.map (Node.carry e), lead.outer.map (Node.carry e),
    lead.rest.map (TokenTree.recast e content)⟩

theorem content_carry (trees : List TokenTree) :
    Attribute.content (trees.map (TokenTree.carry e)) =
      ((Attribute.content trees).1, (Attribute.content trees).2.map (Span.move e.start)) := by
  induction trees with
  | nil => rfl
  | cons tree rest ih =>
    cases tree with
    | leaf t =>
      rw [List.map_cons, TokenTree.carry, Attribute.content, Attribute.content, ih]
      have hpath : isPathToken (t.carry e) = isPathToken t := rfl
      rw [hpath]
      split <;> rfl
    | group opener inner closer =>
      rw [List.map_cons, TokenTree.carry, Attribute.content, Attribute.content]
      by_cases hopen : (opener.text == "(") = true
      · simp only [Token.carry_text, hopen, if_true]
        rfl
      · simp only [Token.carry_text, hopen]
        rfl

theorem node_carry (start : Nat) (inner : Bool) (trees : List TokenTree) (closer : Token) :
    node (e.start start) inner (trees.map (TokenTree.carry e)) (closer.carry e) =
      (node start inner trees closer).carry e := by
  rw [node, node, content_carry, Node.carry_mk]
  rfl

/-- The attributes when `more` follows the trees. -/
def Lead.append (lead : Lead) (more : List TokenTree) : Lead :=
  match lead.rest with
  | [] =>
    let behind := Attribute.lead more
    ⟨lead.inner ++ behind.inner, lead.outer ++ behind.outer, behind.rest⟩
  | tree :: rest => { lead with rest := tree :: rest ++ more }

theorem Lead.append_nil (lead : Lead) : lead.append [] = lead := by
  obtain ⟨inner, outer, rest⟩ := lead
  cases rest with
  | nil =>
    show (⟨inner ++ [], outer ++ [], []⟩ : Lead) = _
    rw [List.append_nil, List.append_nil]
  | cons tree rest =>
    show (⟨inner, outer, tree :: rest ++ []⟩ : Lead) = _
    rw [List.append_nil]

theorem Lead.append_outer (lead : Lead) (n : Node) (more : List TokenTree) :
    ({ lead with outer := n :: lead.outer } : Lead).append more =
      { lead.append more with outer := n :: (lead.append more).outer } := by
  obtain ⟨inner, outer, rest⟩ := lead
  cases rest <;> rfl

theorem Lead.append_inner (lead : Lead) (n : Node) (more : List TokenTree) :
    ({ lead with inner := n :: lead.inner } : Lead).append more =
      { lead.append more with inner := n :: (lead.append more).inner } := by
  obtain ⟨inner, outer, rest⟩ := lead
  cases rest <;> rfl

/-- The trees are the beginning of an attribute whose brackets are missing. -/
def IsCut (trees : List TokenTree) : Prop :=
  ∃ hash : Token, hash.isPunct "#" = true ∧
    (trees = [.leaf hash] ∨ ∃ bang : Token, bang.isPunct "!" = true ∧ trees = [.leaf hash, .leaf bang])

theorem lead_of_not_hash {t : Token} (h : t.isPunct "#" = false) (rest : List TokenTree) :
    lead (.leaf t :: rest) = { rest := .leaf t :: rest } := by
  match rest with
  | [] | [.leaf _] | .leaf _ :: .leaf _ :: _ => rfl
  | .group .. :: _ | .leaf _ :: .group .. :: _ =>
    simp only [lead, h, Bool.false_and, Bool.false_eq_true, if_false]

theorem lead_of_not_bang {hash bang : Token} (h : bang.isPunct "!" = false)
    (rest : List TokenTree) :
    lead (.leaf hash :: .leaf bang :: rest) = { rest := .leaf hash :: .leaf bang :: rest } := by
  match rest with
  | [] | .leaf _ :: _ => rfl
  | .group .. :: _ =>
    simp only [lead, h, Bool.and_false, Bool.false_and, Bool.false_eq_true, if_false]

/-- The attributes in front of trees are found in the same places when the trees are recast and others
follow them. -/
theorem lead_recast (hkeeps : KeepsBrackets e content) {trees more : List TokenTree}
    (hcut : more = [] ∨ ¬ IsCut (lead trees).rest) :
    lead (trees.map (recast e content) ++ more) = ((lead trees).recast e content).append more := by
  fun_induction lead trees with
  | case1 hash opener trees closer rest hmark following ih =>
    have hbracket : opener.isPunct "[" = true := (Bool.and_eq_true _ _ ▸ hmark).2
    rw [List.map_cons, List.map_cons, List.cons_append, List.cons_append, recast, recast, lead,
      hkeeps opener trees hbracket]
    simp only [Token.isPunct_carry, hmark, if_true, Token.carry_start, node_carry, ih hcut]
    exact (Lead.append_outer ..).symm
  | case2 hash opener trees closer rest hmark =>
    rw [List.map_cons, List.map_cons, List.cons_append, List.cons_append, recast, recast, lead]
    simp only [Token.isPunct_carry, hmark]
    rfl
  | case3 hash bang opener trees closer rest hmark following ih =>
    have hbracket : opener.isPunct "[" = true := (Bool.and_eq_true _ _ ▸ hmark).2
    rw [List.map_cons, List.map_cons, List.map_cons, List.cons_append, List.cons_append,
      List.cons_append, recast, recast, recast, lead, hkeeps opener trees hbracket]
    simp only [Token.isPunct_carry, hmark, if_true, Token.carry_start, node_carry, ih hcut]
    exact (Lead.append_inner ..).symm
  | case4 hash bang opener trees closer rest hmark =>
    rw [List.map_cons, List.map_cons, List.map_cons, List.cons_append, List.cons_append,
      List.cons_append, recast, recast, recast, lead]
    simp only [Token.isPunct_carry, hmark]
    rfl
  | case5 trees hgroup hinner =>
    match trees, hgroup, hinner, hcut with
    | [], _, _, _ | .group .. :: _, _, _, _ | .leaf _ :: .leaf _ :: .leaf _ :: _, _, _, _ => rfl
    | .leaf _ :: .group .. :: _, hgroup, _, _ => exact absurd rfl (hgroup _ _ _ _ _)
    | .leaf _ :: .leaf _ :: .group .. :: _, _, hinner, _ => exact absurd rfl (hinner _ _ _ _ _ _)
    | [.leaf t], _, _, hcut =>
      by_cases hhash : t.isPunct "#" = true
      · obtain rfl : more = [] := hcut.resolve_right fun h => h ⟨t, hhash, .inl rfl⟩
        rfl
      · exact lead_of_not_hash (t := t.carry e) (Bool.eq_false_iff.mpr hhash) more
    | [.leaf t, .leaf u], _, _, hcut =>
      by_cases hhash : t.isPunct "#" = true
      · by_cases hbang : u.isPunct "!" = true
        · obtain rfl : more = [] :=
            hcut.resolve_right fun h => h ⟨t, hhash, .inr ⟨u, hbang, rfl⟩⟩
          rfl
        · have hbang' : (u.carry e).isPunct "!" = false := Bool.eq_false_iff.mpr hbang
          exact lead_of_not_bang hbang' more
      · exact lead_of_not_hash (t := t.carry e) (Bool.eq_false_iff.mpr hhash) _

/-- What stands in front of trees are attributes. -/
theorem mem_lead {trees : List TokenTree} {n : Node}
    (h : n ∈ (lead trees).inner ∨ n ∈ (lead trees).outer) :
    ∃ start inner content closer, n = node start inner content closer := by
  fun_induction lead trees with
  | case1 hash opener inner closer rest _ following ih =>
    rcases h with h | h
    · exact ih (.inl h)
    · rcases List.mem_cons.mp h with rfl | h
      · exact ⟨_, _, _, _, rfl⟩
      · exact ih (.inr h)
  | case3 hash bang opener inner closer rest _ following ih =>
    rcases h with h | h
    · rcases List.mem_cons.mp h with rfl | h
      · exact ⟨_, _, _, _, rfl⟩
      · exact ih (.inl h)
    · exact ih (.inr h)
  | case2 | case4 | case5 => rcases h with h | h <;> cases h

theorem itemKind?_of_mem_lead {trees : List TokenTree} {n : Node}
    (h : n ∈ (lead trees).inner ∨ n ∈ (lead trees).outer) : n.itemKind? = none := by
  obtain ⟨_, _, _, _, rfl⟩ := mem_lead h
  rfl

end Attribute

end ContractSync.Rust
