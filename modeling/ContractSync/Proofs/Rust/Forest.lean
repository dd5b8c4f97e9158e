import ContractSync.Proofs.Rust.RetypeField
import ContractSync.Proofs.Rust.Row

/-!
# Where nodes stand

A node is placed well if its parts stand in it, one behind the other, and its delimiters in the text that
it covers (`Node.IsPlaced`). The fields of a struct in parentheses are left out: a field without a type
stops before it starts. Nodes side by side form a forest (`Forest`): **whatever is read from a row of trees
is one** (`Items.forest`), and no two nodes of it start their own text in the same place.
-/

namespace ContractSync.Rust

open Attribute (lead)
open TokenTree (Row flatten flattenAll row_append)

namespace Node

/-- The node is an inner attribute. -/
def isInner (n : Node) : Bool :=
  match n.shape with
  | .attribute _ _ inner => inner
  | _ => false

/-- The node is a struct whose fields stand in parentheses. -/
def isTupleStruct (source : List Char) (n : Node) : Bool :=
  n.itemKind? == some .struct_ && n.body?.any fun body => source[body.start]? == some '('

/-- The node has its place in the order of the nodes beside it. Inner attributes have none, and the fields
of a struct in parentheses. -/
def isOrdered (tuple : Bool) (n : Node) : Bool := !n.isInner && !(tuple && n.isField)

/-- The first node ends before the second one starts. -/
def Before (m n : Node) : Prop := m.start < n.start ∧ m.stop ≤ n.start

/-- The parts of the node stand in it, one behind the other, and its delimiters behind its first token. -/
structure IsPlaced (source : List Char) (n : Node) : Prop where
  start_le : n.start ≤ n.itemStart
  itemStart_le : n.itemStart ≤ n.stop
  body : ∀ body ∈ n.body?, n.itemStart < body.start ∧ body.start < body.stop ∧ body.stop < n.stop
  inside : ∀ c ∈ n.children, n.start ≤ c.start ∧ c.stop ≤ n.stop
  order : (n.children.filter (isOrdered (n.isTupleStruct source))).Pairwise Before

theorem walkAll_of_leaves {nodes : List Node} (h : ∀ n ∈ nodes, n.children = []) :
    walkAll nodes = nodes := by
  induction nodes with
  | nil => rfl
  | cons n rest ih =>
    obtain ⟨hn, hrest⟩ := List.forall_mem_cons.mp h
    obtain ⟨shape, start, itemStart, stop, children⟩ := n
    cases hn
    rw [walkAll, walk, ih hrest]
    rfl

end Node

/-- The node is a field of a struct in parentheses among the nodes. -/
def IsTupleField (source : List Char) (nodes : List Node) (n : Node) : Prop :=
  ∃ p ∈ Node.walkAll nodes, p.isTupleStruct source = true ∧ n ∈ p.children ∧ n.isField = true

theorem IsTupleField.mono {source : List Char} {nodes more : List Node} {n : Node}
    (h : IsTupleField source nodes n) (hs : Node.walkAll nodes ⊆ Node.walkAll more) :
    IsTupleField source more n := by
  obtain ⟨p, hp, hfield⟩ := h
  exact ⟨p, hs hp, hfield⟩

/-- Nodes side by side between two positions, perhaps the fields of a struct in parentheses. -/
structure Forest (source : List Char) (tuple : Bool) (nodes : List Node) (low high : Nat) : Prop where
  inside : ∀ n ∈ nodes, low ≤ n.start ∧ n.stop ≤ high
  solid : ∀ n ∈ nodes, n.isOrdered tuple = true → n.start < n.stop
  order : (nodes.filter (Node.isOrdered tuple)).Pairwise Node.Before
  placed : ∀ n ∈ Node.walkAll nodes,
    n.IsPlaced source ∨ (tuple = true ∧ n ∈ nodes ∧ n.isField = true) ∨ IsTupleField source nodes n
  bounds : ∀ n ∈ Node.walkAll nodes, low ≤ n.itemStart ∧ n.itemStart < high
  nodup : ((Node.walkAll nodes).map Node.itemStart).Nodup

namespace Forest

variable {source : List Char} {tuple : Bool} {a b nodes : List Node} {low mid high : Nat}

theorem nil : Forest source tuple [] low high :=
  ⟨List.forall_mem_nil _, List.forall_mem_nil _, .nil, List.forall_mem_nil _, List.forall_mem_nil _,
    List.nodup_nil⟩

theorem mono {low' high' : Nat} (h : Forest source tuple nodes low high) (hlow : low' ≤ low)
    (hhigh : high ≤ high') : Forest source tuple nodes low' high' := by
  refine ⟨fun n hn => ?_, h.solid, h.order, h.placed, fun n hn => ?_, h.nodup⟩
  · have := h.inside n hn
    omega
  · have := h.bounds n hn
    omega

/-- A forest in front of another one. -/
theorem append (ha : Forest source tuple a low mid) (hb : Forest source tuple b mid high)
    (hlow : low ≤ mid) (hhigh : mid ≤ high) : Forest source tuple (a ++ b) low high := by
  have ha' := ha.mono (Nat.le_refl low) hhigh
  have hb' := hb.mono hlow (Nat.le_refl high)
  refine ⟨List.forall_mem_append.mpr ⟨ha'.inside, hb'.inside⟩,
    List.forall_mem_append.mpr ⟨ha.solid, hb.solid⟩, ?_, ?_, ?_, ?_⟩
  · rw [List.filter_append]
    refine List.pairwise_append.mpr ⟨ha.order, hb.order, fun m hm n hn => ?_⟩
    obtain ⟨hm, hordered⟩ := List.mem_filter.mp hm
    have hlt := ha.solid m hm hordered
    have hstop := (ha.inside m hm).2
    have hstart := (hb.inside n (List.mem_filter.mp hn).1).1
    exact ⟨by omega, by omega⟩
  · rw [Node.walkAll_append]
    refine List.forall_mem_append.mpr ⟨fun n hn => ?_, fun n hn => ?_⟩
    · refine (ha.placed n hn).imp_right (Or.imp ?_ fun h => h.mono ?_)
      · exact fun ⟨htuple, hmem, hfield⟩ => ⟨htuple, List.mem_append_left _ hmem, hfield⟩
      · exact Node.walkAll_append a b ▸ List.subset_append_left _ _
    · refine (hb.placed n hn).imp_right (Or.imp ?_ fun h => h.mono ?_)
      · exact fun ⟨htuple, hmem, hfield⟩ => ⟨htuple, List.mem_append_right _ hmem, hfield⟩
      · exact Node.walkAll_append a b ▸ List.subset_append_right _ _
  · rw [Node.walkAll_append]
    exact List.forall_mem_append.mpr ⟨ha'.bounds, hb'.bounds⟩
  · rw [Node.walkAll_append, List.map_append]
    refine List.nodup_append.mpr ⟨ha.nodup, hb.nodup, fun x hx y hy => ?_⟩
    obtain ⟨m, hm, rfl⟩ := List.mem_map.mp hx
    obtain ⟨n, hn, rfl⟩ := List.mem_map.mp hy
    have := (ha.bounds m hm).2
    have := (hb.bounds n hn).1
    omega

end Forest

/-! ### Attributes -/

namespace Attribute

theorem isInner_of_mem_inner {trees : List TokenTree} :
    ∀ n ∈ (lead trees).inner, n.isInner = true := by
  fun_induction lead trees with
  | case1 hash opener inner closer rest _ following ih => exact ih
  | case3 hash bang opener inner closer rest _ following ih =>
    exact List.forall_mem_cons.mpr ⟨rfl, ih⟩
  | case2 | case4 | case5 => exact List.forall_mem_nil _

theorem children_of_mem_lead (trees : List TokenTree) :
    ∀ n ∈ (lead trees).inner ++ (lead trees).outer, n.children = [] := by
  intro n hn
  obtain ⟨_, _, _, _, rfl⟩ := mem_lead (List.mem_append.mp hn)
  rfl

theorem itemStart_of_mem_lead {trees : List TokenTree} :
    ∀ n ∈ (lead trees).inner ++ (lead trees).outer, n.itemStart = n.start := by
  intro n hn
  obtain ⟨_, _, _, _, rfl⟩ := mem_lead (List.mem_append.mp hn)
  rfl

/-- An attribute that covers some text is placed well. -/
theorem isPlaced_of_mem_lead {source : List Char} {trees : List TokenTree} {n : Node}
    (hn : n ∈ (lead trees).inner ++ (lead trees).outer) (hlt : n.start < n.stop) :
    n.IsPlaced source := by
  obtain ⟨_, _, _, _, rfl⟩ := mem_lead (List.mem_append.mp hn)
  exact ⟨Nat.le_refl _, Nat.le_of_lt hlt, forall_mem_none, List.forall_mem_nil _, .nil⟩

namespace Lead.Standing

variable {source : List Char} {tuple : Bool} {trees : List TokenTree} {low mid high : Nat}

/-- Outer attributes stand in their order. -/
theorem pairwise_outer (h : (lead trees).Standing low mid high) :
    (lead trees).outer.Pairwise Node.Before := by
  refine h.apart.imp_of_mem fun {m n} hm _ hle => ⟨?_, hle⟩
  exact Nat.lt_of_lt_of_le (h.between m (List.mem_append_right _ hm)).2.1 hle

/-- Attributes in front of trees are a forest, also if some are left out. -/
theorem forest {nodes : List Node} (h : (lead trees).Standing low mid high)
    (hnodes : nodes.Sublist ((lead trees).inner ++ (lead trees).outer)) :
    Forest source tuple nodes low mid := by
  have hbetween := fun n hn => h.between n (hnodes.subset hn)
  have hstart := fun n hn => itemStart_of_mem_lead n (hnodes.subset hn)
  have hwalk : Node.walkAll nodes = nodes :=
    Node.walkAll_of_leaves fun n hn => children_of_mem_lead _ n (hnodes.subset hn)
  refine ⟨fun n hn => ⟨(hbetween n hn).1, (hbetween n hn).2.2⟩, fun n hn _ => (hbetween n hn).2.1,
    ?_, ?_, ?_, ?_⟩
  · refine List.Pairwise.sublist (hnodes.filter _) ?_
    rw [List.filter_append, List.filter_eq_nil_iff.mpr fun n hn => ?_, List.nil_append]
    · exact h.pairwise_outer.filter _
    · rw [Node.isOrdered, isInner_of_mem_inner n hn]
      exact nofun
  · rw [hwalk]
    exact fun n hn => .inl (isPlaced_of_mem_lead (hnodes.subset hn) (hbetween n hn).2.1)
  · rw [hwalk]
    intro n hn
    obtain ⟨hlow, hlt, hhigh⟩ := hbetween n hn
    rw [hstart n hn]
    exact ⟨hlow, Nat.lt_of_lt_of_le hlt hhigh⟩
  · rw [hwalk, List.map_congr_left hstart]
    exact h.nodup.sublist (hnodes.map Node.start)

end Lead.Standing

end Attribute

/-! ### A node behind its attributes -/

namespace Forest

variable {source : List Char} {tuple : Bool} {trees : List TokenTree} {beside parts : List Node}
  {low mid high place stop : Nat} {shape : Shape}

/-- The node of something with the attributes in front of it and its parts. -/
def behindLead (trees : List TokenTree) (shape : Shape) (place stop : Nat) (parts : List Node) : Node :=
  .mk shape (((lead trees).outer.head?.map Node.start).getD place) place stop
    ((lead trees).outer ++ parts)

/-- The parts of a node stand behind its first token and in front of its end. -/
structure Holds (source : List Char) (n : Node) (place stop : Nat) (parts : List Node) : Prop where
  lt : place < stop
  body : ∀ body ∈ n.body?, place < body.start ∧ body.start < body.stop ∧ body.stop < stop
  forest : Forest source (n.isTupleStruct source) parts (place + 1) stop

theorem walkAll_behindLead (hbeside : beside.Sublist (lead trees).inner) :
    Node.walkAll (beside ++ [behindLead trees shape place stop parts]) =
      beside ++ behindLead trees shape place stop parts ::
        ((lead trees).outer ++ Node.walkAll parts) := by
  have hleaves := List.forall_mem_append.mp (Attribute.children_of_mem_lead trees)
  rw [Node.walkAll_append, Node.walkAll_of_leaves fun n hn => hleaves.1 n (hbeside.subset hn),
    Node.walkAll, Node.walkAll, List.append_nil, behindLead, Node.walk, Node.walkAll_append,
    Node.walkAll_of_leaves hleaves.2]

/-- The node itself is placed well. -/
theorem isPlaced_behindLead (h : (lead trees).Standing low mid high) (hmid : mid ≤ place)
    (hholds : Holds source (behindLead trees shape place stop parts) place stop parts) :
    (behindLead trees shape place stop parts).IsPlaced source := by
  obtain ⟨-, hplace, houter⟩ := h.start hmid
  have hlt := hholds.lt
  refine ⟨hplace, Nat.le_of_lt hlt, hholds.body,
    List.forall_mem_append.mpr ⟨fun m hm => ⟨houter m hm, ?_⟩, fun c hc => ?_⟩, ?_⟩
  · have := (h.between m (List.mem_append_right _ hm)).2.2
    show m.stop ≤ stop
    omega
  · obtain ⟨hstart, hstop⟩ := hholds.forest.inside c hc
    exact ⟨Nat.le_trans hplace (by omega), hstop⟩
  · rw [behindLead, Node.children, List.filter_append]
    refine List.pairwise_append.mpr ⟨h.pairwise_outer.filter _, hholds.forest.order,
      fun m hm c hc => ?_⟩
    have hm := h.between m (List.mem_append_right _ (List.mem_filter.mp hm).1)
    have hc := hholds.forest.inside c (List.mem_filter.mp hc).1
    unfold Node.Between at hm
    exact ⟨by omega, by omega⟩

/-- An attribute is placed well, in front of the node. -/
theorem isPlaced_attribute (source : List Char) (h : (lead trees).Standing low mid high) :
    ∀ m ∈ (lead trees).inner ++ (lead trees).outer,
      m.IsPlaced source ∧ low ≤ m.itemStart ∧ m.itemStart < mid := by
  intro m hm
  obtain ⟨hstart, hlt, hstop⟩ := h.between m hm
  rw [Attribute.itemStart_of_mem_lead m hm]
  exact ⟨Attribute.isPlaced_of_mem_lead hm hlt, hstart, Nat.lt_of_lt_of_le hlt hstop⟩

/-- The attributes start in front of the node, and its parts behind it. -/
theorem nodup_behindLead (h : (lead trees).Standing low mid high) (hmid : mid ≤ place)
    (hbeside : beside.Sublist (lead trees).inner)
    (hparts : Forest source tuple parts (place + 1) stop) :
    ((Node.walkAll (beside ++ [behindLead trees shape place stop parts])).map
      Node.itemStart).Nodup := by
  have hperm : (beside ++ behindLead trees shape place stop parts ::
      ((lead trees).outer ++ Node.walkAll parts)).Perm (behindLead trees shape place stop parts ::
        ((beside ++ (lead trees).outer) ++ Node.walkAll parts)) := by
    rw [List.append_assoc]
    exact List.perm_middle
  have hsub : (beside ++ (lead trees).outer).Sublist ((lead trees).inner ++ (lead trees).outer) :=
    hbeside.append (List.Sublist.refl _)
  rw [walkAll_behindLead hbeside, (hperm.map Node.itemStart).nodup_iff, List.map_cons,
    List.map_append, List.nodup_cons, List.nodup_append]
  have hbefore : ∀ x ∈ (beside ++ (lead trees).outer).map Node.itemStart, x < place := by
    intro x hx
    obtain ⟨m, hm, rfl⟩ := List.mem_map.mp hx
    have := isPlaced_attribute source h m (hsub.subset hm)
    exact Nat.lt_of_lt_of_le this.2.2 hmid
  have hbehind : ∀ x ∈ (Node.walkAll parts).map Node.itemStart, place < x := by
    intro x hx
    obtain ⟨c, hc, rfl⟩ := List.mem_map.mp hx
    exact (hparts.bounds c hc).1
  refine ⟨fun hmem => ?_, ?_, hparts.nodup, fun x hx y hy => ?_⟩
  · rcases List.mem_append.mp hmem with hmem | hmem
    · exact Nat.lt_irrefl _ (hbefore _ hmem)
    · exact Nat.lt_irrefl _ (hbehind _ hmem)
  · rw [List.map_congr_left fun m hm => Attribute.itemStart_of_mem_lead m (hsub.subset hm)]
    exact h.nodup.sublist (hsub.map Node.start)
  · exact Nat.ne_of_lt (Nat.lt_trans (hbefore x hx) (hbehind y hy))

/-- **A node behind its attributes**, the outer ones in it and inner ones perhaps beside it. -/
theorem behind (h : (lead trees).Standing low mid high) (hmid : mid ≤ place)
    (hbeside : beside.Sublist (lead trees).inner)
    (hholds : Holds source (behindLead trees shape place stop parts) place stop parts) :
    Forest source false (beside ++ [behindLead trees shape place stop parts]) low stop := by
  obtain ⟨hlow, hplace, -⟩ := h.start hmid
  obtain ⟨hinner, houter⟩ := List.forall_mem_append.mp (isPlaced_attribute source h)
  have hbetween := (List.forall_mem_append.mp h.between).1
  have hlt := hholds.lt
  have hle := h.le
  refine ⟨?_, ?_, ?_, ?_, ?_, nodup_behindLead h hmid hbeside hholds.forest⟩
  · refine List.forall_mem_append.mpr ⟨fun m hm => ?_,
      List.forall_mem_singleton.mpr ⟨hlow, Nat.le_refl _⟩⟩
    obtain ⟨hstart, -, hstop⟩ := hbetween m (hbeside.subset hm)
    exact ⟨hstart, by omega⟩
  · exact List.forall_mem_append.mpr ⟨fun m hm _ => (hbetween m (hbeside.subset hm)).2.1,
      List.forall_mem_singleton.mpr fun _ => Nat.lt_of_le_of_lt hplace hlt⟩
  · rw [List.filter_append, List.filter_eq_nil_iff.mpr fun n hn => ?_, List.nil_append]
    · exact (List.pairwise_singleton _ _).filter _
    · rw [Node.isOrdered, Attribute.isInner_of_mem_inner n (hbeside.subset hn)]
      exact nofun
  · rw [walkAll_behindLead hbeside]
    refine List.forall_mem_append.mpr ⟨fun m hm => .inl (hinner m (hbeside.subset hm)).1,
      List.forall_mem_cons.mpr ⟨.inl (isPlaced_behindLead h hmid hholds),
        List.forall_mem_append.mpr ⟨fun m hm => .inl (houter m hm).1, fun c hc => ?_⟩⟩⟩
    rw [IsTupleField, walkAll_behindLead hbeside]
    rcases hholds.forest.placed c hc with hc | ⟨htuple, hmem, hfield⟩ | ⟨p, hp, hfield⟩
    · exact .inl hc
    · exact .inr (.inr ⟨_, List.mem_append_right _ List.mem_cons_self, htuple,
        List.mem_append_right _ hmem, hfield⟩)
    · exact .inr (.inr ⟨p, List.mem_append_right _ (List.mem_cons_of_mem _
        (List.mem_append_right _ hp)), hfield⟩)
  · rw [walkAll_behindLead hbeside]
    refine List.forall_mem_append.mpr ⟨fun m hm => ?_, List.forall_mem_cons.mpr
      ⟨⟨Nat.le_trans hle hmid, hlt⟩, List.forall_mem_append.mpr ⟨fun m hm => ?_, fun c hc => ?_⟩⟩⟩
    · have := (hinner m (hbeside.subset hm)).2
      omega
    · have := (houter m hm).2
      omega
    · have := hholds.forest.bounds c hc
      omega

/-- A field of a struct in parentheses behind its attributes, wherever it ends. -/
theorem tupleField {high' : Nat} (h : (lead trees).Standing low mid high') (hmid : mid ≤ place)
    (hplace : place < high) (hstop : stop ≤ high)
    (hfield : (behindLead trees shape place stop []).isField = true) :
    Forest source true [behindLead trees shape place stop []] low high := by
  have hordered : ∀ n ∈ [behindLead trees shape place stop []], n.isOrdered true = false := by
    refine List.forall_mem_singleton.mpr ?_
    rw [Node.isOrdered, hfield]
    exact Bool.and_false _
  have hwalk : Node.walkAll ([] ++ [behindLead trees shape place stop []]) = _ :=
    walkAll_behindLead (List.nil_sublist _)
  have hattribute := isPlaced_attribute source h
  have hnodup : ((Node.walkAll ([] ++ [behindLead trees shape place stop []])).map Node.itemStart).Nodup :=
    nodup_behindLead h hmid (List.nil_sublist _) (.nil : Forest source true [] (place + 1) stop)
  rw [List.nil_append] at hwalk hnodup
  have hle := h.le
  refine ⟨List.forall_mem_singleton.mpr ⟨(h.start hmid).1, hstop⟩, fun n hn hn' => ?_, ?_, ?_, ?_,
    hnodup⟩
  · rw [hordered n hn] at hn'
    cases hn'
  · rw [List.filter_eq_nil_iff.mpr fun n hn => by rw [hordered n hn]; exact nofun]
    exact .nil
  · rw [hwalk, List.nil_append, Node.walkAll, List.append_nil]
    exact List.forall_mem_cons.mpr ⟨.inr (.inl ⟨rfl, List.mem_singleton_self _, hfield⟩),
      fun m hm => .inl (hattribute m (List.mem_append_right _ hm)).1⟩
  · rw [hwalk, List.nil_append, Node.walkAll, List.append_nil]
    refine List.forall_mem_cons.mpr ⟨⟨Nat.le_trans hle hmid, hplace⟩, fun m hm => ?_⟩
    have := (hattribute m (List.mem_append_right _ hm)).2
    omega

end Forest

/-! ### Fields and variants -/

namespace Entry

open Forest (behindLead Holds)

variable {source : List Char} {tuple : Bool} {entry : Entry} {f : Node} {low high : Nat}

/-- The last token of an entry ends in it. -/
theorem lastStop_bounds (hrow : Row entry.trees entry.before entry.stop) :
    entry.before ≤ entry.lastStop ∧ entry.lastStop ≤ entry.stop := by
  rw [lastStop]
  cases hlast : entry.trees.getLast? with
  | none => exact ⟨Nat.le_refl _, hrow.le⟩
  | some last => exact ⟨(hrow.upto hlast).1.le, (hrow.upto hlast).2⟩

/-- The trees at the end of an entry start in front of where it ends. -/
theorem offsetOf_bounds {trees : List TokenTree} {mid : Nat} (hs : trees <:+ entry.trees)
    (hne : trees ≠ []) (hrow : Row trees mid entry.stop) :
    mid ≤ entry.offsetOf trees ∧ entry.offsetOf trees < entry.lastStop := by
  obtain ⟨last, hlast, hstop⟩ := Option.map_eq_some_iff.mp (lastStop_of_suffix hs hne)
  have hupto := (hrow.upto hlast).1
  cases trees with
  | nil => exact absurd rfl hne
  | cons tree rest => exact ⟨hupto.1, hstop ▸ Nat.lt_of_lt_of_le hupto.2.1.lt hupto.2.2.le⟩

theorem node_eq_behindLead (shape : Shape) (place stop : Nat) :
    node shape (lead entry.trees).outer place stop = behindLead entry.trees shape place stop [] := by
  rw [behindLead, List.append_nil]
  rfl

/-- A field or a variant with some text of its own. -/
theorem forest_node {shape : Shape} (hrow : Row entry.trees entry.before entry.stop)
    (hrest : (lead entry.trees).rest ≠ [])
    (hbody : ∀ place stop, (node shape (lead entry.trees).outer place stop).body? = none) :
    Forest source false
      [node shape (lead entry.trees).outer (entry.offsetOf (lead entry.trees).rest) entry.lastStop]
      entry.before entry.stop := by
  obtain ⟨mid, hlead⟩ := Attribute.standing_lead hrow
  obtain ⟨hmid, hlt⟩ := offsetOf_bounds (Attribute.rest_lead_suffix _) hrest hlead.rest
  have hholds : Holds source (behindLead entry.trees shape (entry.offsetOf (lead entry.trees).rest)
      entry.lastStop []) (entry.offsetOf (lead entry.trees).rest) entry.lastStop [] :=
    ⟨hlt, by rw [← node_eq_behindLead, hbody]; exact forall_mem_none, .nil⟩
  have hforest := Forest.behind hlead hmid (List.nil_sublist _) hholds
  rw [List.nil_append] at hforest
  rw [node_eq_behindLead]
  exact hforest.mono (Nat.le_refl _) (lastStop_bounds hrow).2

theorem forest_recordField (h : recordField entry = .ok (some f))
    (hrow : Row entry.trees entry.before entry.stop) :
    Forest source false [f] entry.before entry.stop := by
  rcases recordField_eq_ok.mp h with ⟨-, h⟩ | ⟨name, colon, type, hfield, h⟩
  · cases h
  · cases h
    refine forest_node hrow (fun hnil => ?_) fun _ _ => rfl
    have := hfield.1
    rw [hnil] at this
    cases this

theorem forest_variant (h : variant entry = .ok (some f))
    (hrow : Row entry.trees entry.before entry.stop) :
    Forest source false [f] entry.before entry.stop := by
  rw [variant] at h
  split at h
  · cases h
  · obtain ⟨name, hname, h⟩ := bind_eq_ok.mp h
    cases h
    obtain ⟨t, rest, htrees, -⟩ := name_eq_ok.mp hname
    exact forest_node hrow (htrees ▸ List.cons_ne_nil _ _) fun _ _ => rfl

/-- A field in parentheses may start at the comma behind it, if it has no type. -/
theorem forest_tupleField {position : Nat} (h : tupleField position entry = some f)
    (hrow : Row entry.trees entry.before entry.stop) (hstop : entry.stop ≤ high)
    (hcomma : entry.comma = true → entry.stop < high) :
    Forest source true [f] entry.before high := by
  obtain ⟨mid, hlead⟩ := Attribute.standing_lead hrow
  simp only [tupleField] at h
  split at h
  · cases h
  rename_i htrailing
  cases h
  obtain ⟨hlow, hle⟩ := lastStop_bounds hrow
  have hplace : mid ≤ entry.offsetOf (lead entry.trees).rest ∧
      entry.offsetOf (lead entry.trees).rest < high := by
    by_cases hrest : (lead entry.trees).rest = []
    · have hrow' := hlead.rest
      rw [hrest] at htrailing hrow' ⊢
      exact ⟨hrow', hcomma (by simpa [isTrailing] using htrailing)⟩
    · have := offsetOf_bounds (Attribute.rest_lead_suffix _) hrest hlead.rest
      omega
  rw [node_eq_behindLead]
  exact Forest.tupleField hlead hplace.1 hplace.2 (Nat.le_trans hle hstop) rfl

/-! ### Lists of fields and variants -/

/-- Between the first entry of a list and the other ones. -/
theorem exists_between {rest : List Entry} (hfirst : entry.Standing low high)
    (hrest : ∀ e ∈ rest, e.Standing low high ∧ entry.stop < e.before) :
    ∃ mid, low ≤ mid ∧ mid ≤ high ∧ entry.stop ≤ mid ∧ (entry.comma = true → entry.stop < mid) ∧
      ∀ e ∈ rest, e.Standing mid high := by
  have hle := hfirst.row.le
  have hlow := hfirst.le_before
  have hhigh := hfirst.stop_le
  cases rest with
  | nil => exact ⟨high, by omega, Nat.le_refl _, hhigh, hfirst.comma, List.forall_mem_nil _⟩
  | cons next more =>
    obtain ⟨hnext, hlt⟩ := hrest next List.mem_cons_self
    have := hnext.row.le
    have := hnext.stop_le
    refine ⟨entry.stop + 1, by omega, by omega, Nat.le_succ _, fun _ => Nat.lt_succ_self _,
      fun e he => ?_⟩
    obtain ⟨he, hlt⟩ := hrest e he
    exact ⟨hlt, he.row, he.stop_le, he.comma⟩

/-- **The nodes of the entries of a row are a forest.** -/
theorem forest_nodes {read : Entry → Except Failure (Option Node)}
    (hread : ∀ {entry : Entry} {f : Node}, read entry = .ok (some f) →
      Row entry.trees entry.before entry.stop → Forest source false [f] entry.before entry.stop)
    {entries : List Entry} {found : List Node} (h : nodes read entries = .ok found)
    (hstanding : ∀ e ∈ entries, e.Standing low high)
    (hpair : entries.Pairwise fun a b => a.stop < b.before) :
    Forest source false found low high := by
  induction entries generalizing found low with
  | nil =>
    cases h
    exact .nil
  | cons entry rest ih =>
    obtain ⟨o, more, ho, hmore, rfl⟩ := nodes_cons_eq_ok.mp h
    obtain ⟨hentry, hrest⟩ := List.forall_mem_cons.mp hstanding
    obtain ⟨hbehind, hpair⟩ := List.pairwise_cons.mp hpair
    obtain ⟨mid, hlow, hhigh, hstop, -, hstanding⟩ :=
      exists_between hentry fun e he => ⟨hrest e he, hbehind e he⟩
    refine Forest.append ?_ (ih hmore hstanding hpair) hlow hhigh
    cases o with
    | none => exact .nil
    | some f => exact (hread ho hentry.row).mono hentry.le_before hstop

theorem forest_tupleFields {position : Nat} {entries : List Entry}
    (hstanding : ∀ e ∈ entries, e.Standing low high)
    (hpair : entries.Pairwise fun a b => a.stop < b.before) :
    Forest source true (tupleFields position entries) low high := by
  induction entries generalizing position low with
  | nil => exact .nil
  | cons entry rest ih =>
    obtain ⟨hentry, hrest⟩ := List.forall_mem_cons.mp hstanding
    obtain ⟨hbehind, hpair⟩ := List.pairwise_cons.mp hpair
    obtain ⟨mid, hlow, hhigh, hstop, hcomma, hstanding⟩ :=
      exists_between hentry fun e he => ⟨hrest e he, hbehind e he⟩
    rw [tupleFields]
    cases hfield : tupleField position entry with
    | none => exact .nil
    | some f =>
      refine Forest.append (?_ : Forest source true [f] low mid) (ih hstanding hpair) hlow hhigh
      exact (forest_tupleField hfield hentry.row hstop hcomma).mono hentry.le_before (Nat.le_refl _)

end Entry

/-! ### Items -/

namespace Item

variable {source : List Char} {item : Item}

/-- The item is a struct whose fields stand in parentheses. -/
def isTuple (item : Item) : Bool := item.kind == .struct_ && item.body.any Group.isTuple

/-- **The members of an item are a forest in its body.** -/
theorem forest_members {found : List Node} (h : item.members = .ok found) {b : Group}
    (hbody : item.body = some b) (hsolid : b.tree.IsSolid) :
    Forest source item.isTuple found b.opener.stop b.closer.start := by
  obtain ⟨-, hrow, -⟩ := hsolid
  obtain ⟨hstanding, hpair⟩ := Entry.standing_divide 0 [] hrow
  obtain ⟨kind, name, body, stop, rest⟩ := item
  cases hbody
  cases kind with
  | struct_ =>
    have hisTuple : isTuple ⟨.struct_, name, some b, stop, rest⟩ = b.isTuple := Bool.true_and _
    rw [hisTuple]
    simp only [members] at h
    split at h
    · rename_i htuple
      cases h
      rw [htuple]
      exact Entry.forest_tupleFields hstanding hpair
    · rename_i htuple
      rw [Bool.eq_false_iff.mpr htuple]
      exact Entry.forest_nodes Entry.forest_recordField h hstanding hpair
  | enum_ => exact Entry.forest_nodes Entry.forest_variant h hstanding hpair
  | function | use | module | impl | trait_ | typeAlias | other =>
    cases h
    exact .nil

/-- An item without a body has no members. -/
theorem members_of_none {found : List Node} (h : item.members = .ok found) (hbody : item.body = none) :
    found = [] := by
  obtain ⟨kind, name, body, stop, rest⟩ := item
  cases hbody
  cases kind <;> (cases h; rfl)

/-- Which delimiter opens a body is seen in the text. -/
theorem isTupleStruct_toNode {b : Group} (hbody : item.body = some b) (hmark : b.isBody = true)
    (hchar : source[b.opener.start]? = b.opener.text.toList.head?)
    (attributes members inside : List Node) (place : Nat) :
    (item.toNode attributes place members inside).isTupleStruct source = item.isTuple := by
  have hopen : (source[b.opener.start]? == some '(') = b.isTuple := by
    simp only [Group.isBody, List.any_cons, List.any_nil, Bool.or_false, Bool.or_eq_true] at hmark
    have htext : ∀ {mark : String}, b.opener.isPunct mark = true → b.opener.text = mark := by
      intro mark h
      rw [Token.isPunct, Bool.and_eq_true, beq_iff_eq, beq_iff_eq] at h
      exact h.2
    rcases hmark with h | h | h
    · rw [hchar, htext h, Group.isTuple, h]
      decide
    · rw [hchar, htext h, Group.isTuple, Token.isPunct_of_ne h (by decide)]
      decide
    · rw [hchar, htext h, Group.isTuple, Token.isPunct_of_ne h (by decide)]
      decide
  show (some item.kind == some .struct_ &&
    (item.body.map Group.span).any fun body => source[body.start]? == some '(') = _
  rw [isTuple, hbody]
  exact congrArg (_ && ·) hopen

theorem toNode_eq_behindLead (trees : List TokenTree) (place : Nat) (members inside : List Node) :
    item.toNode (lead trees).outer place members inside =
      Forest.behindLead trees (.item item.kind item.name (item.body.map Group.span)) place item.stop
        (members ++ inside) := by
  rw [toNode, List.append_assoc]
  rfl

/-- What an item holds is a forest in its body. -/
theorem holds_toNode {trees : List TokenTree} {place high : Nat} {attributes members inside : List Node}
    (hmembers : item.members = .ok members) (held : Items item.inside inside)
    (hstanding : item.Standing trees place high)
    (hflag : ∀ b ∈ item.body,
      (item.toNode attributes place members inside).isTupleStruct source = item.isTuple)
    (hinside : ∀ b ∈ item.body, Forest source false inside b.opener.stop b.closer.start) :
    Forest.Holds source (item.toNode attributes place members inside) place item.stop
      (members ++ inside) := by
  have hbody? : (item.toNode attributes place members inside).body? = item.body.map Group.span := rfl
  cases hbody : item.body with
  | none =>
    have hinside : item.inside = [] := by
      rw [Item.inside, hbody]
      exact ite_self _
    rw [hinside] at held
    obtain rfl := held.eq_nil
    obtain rfl := members_of_none hmembers hbody
    exact ⟨hstanding.lt, by rw [hbody?, hbody]; exact forall_mem_none, .nil⟩
  | some b =>
    obtain ⟨hopener, hsolid, hcloser⟩ := hstanding.body b hbody
    obtain ⟨hlt, hrow, hlt'⟩ := id hsolid
    have hle := hrow.le
    refine ⟨hstanding.lt, ?_, ?_⟩
    · rw [hbody?, hbody]
      refine forall_mem_some ?_
      show place < b.opener.start ∧ b.opener.start < b.closer.start ∧ b.closer.start < item.stop
      omega
    · rw [hflag b hbody]
      suffices Forest source item.isTuple (members ++ inside) b.opener.stop b.closer.start from
        this.mono (by omega) (by omega)
      cases hblock : item.isBlock with
      | true =>
        have htuple : item.isTuple = false := by
          rw [isBlock] at hblock
          rw [isTuple]
          cases hkind : item.kind <;> simp_all
        cases (members_of_isBlock hblock).symm.trans hmembers
        rw [htuple]
        exact hinside b hbody
      | false =>
        rw [inside_of_not_isBlock hblock] at held
        obtain rfl := held.eq_nil
        rw [List.append_nil]
        exact forest_members hmembers hbody hsolid

end Item

/-- **Whatever is read from a row of trees is a forest.** -/
theorem Items.forest {source : List Char} {trees : List TokenTree} {nodes : List Node}
    {low high : Nat} (h : Items trees nodes) (hrow : Row trees low high)
    (hchar : ∀ t ∈ flattenAll trees, source[t.start]? = t.text.toList.head?) :
    Forest source false nodes low high := by
  induction h generalizing low high with
  | done hrest =>
    obtain ⟨mid, hlead⟩ := Attribute.standing_lead hrow
    exact (hlead.forest (List.Sublist.refl _)).mono (Nat.le_refl _) hlead.rest.le
  | @semicolon trees rest tree nodes hrest hsemi following ih =>
    obtain ⟨mid, hlead⟩ := Attribute.standing_lead hrow
    have hbehind := hlead.rest
    rw [hrest] at hbehind
    obtain ⟨hmid, hsolid, hrow'⟩ := hbehind
    have hsuffix : rest <:+ trees :=
      (List.suffix_cons ..).trans (hrest ▸ Attribute.rest_lead_suffix trees)
    have hfollowing := ih (hrow'.mono (Nat.le_trans hmid (Nat.le_of_lt hsolid.lt)) (Nat.le_refl _))
      fun t ht => hchar t (TokenTree.flattenAll_subset hsuffix.subset ht)
    exact (hlead.forest (List.sublist_append_left _ _)).append hfollowing hlead.le hlead.rest.le
  | @item stop trees rest tree item members inside nodes hrest hsemi hread hmembers held following
      ihheld ihfollowing =>
    obtain ⟨mid, hlead⟩ := Attribute.standing_lead hrow
    have hbehind := hlead.rest
    rw [hrest] at hbehind
    have hstanding := Item.standing_of_read hread hbehind
    have hsuffix : tree :: rest <:+ trees := hrest ▸ Attribute.rest_lead_suffix trees
    have htaken := Item.read_isTaken hread (List.cons_ne_nil _ _)
    have hfollowing := ihfollowing hstanding.rest fun t ht =>
      hchar t (TokenTree.flattenAll_subset (htaken.rest_suffix.trans hsuffix).subset ht)
    have hmem : ∀ b ∈ item.body, b.isBody = true ∧ flatten b.tree ⊆ flattenAll trees := by
      intro b hb
      obtain ⟨front, -, hfront, hbody⟩ := htaken
      refine ⟨(hbody b hb).2, fun t ht => TokenTree.mem_flattenAll.mpr ⟨b.tree, ?_, ht⟩⟩
      exact hsuffix.subset (hfront ▸ List.mem_append_left _ (hbody b hb).1)
    have hholds : Forest.Holds source (item.toNode (lead trees).outer tree.start members inside)
        tree.start item.stop (members ++ inside) := by
      refine Item.holds_toNode hmembers held hstanding (fun b hb => ?_) fun b hb => ?_
      · exact Item.isTupleStruct_toNode hb (hmem b hb).1
          (hchar _ ((hmem b hb).2 (TokenTree.head_mem_flatten b.tree))) ..
      · cases hblock : item.isBlock with
        | false =>
          rw [Item.inside_of_not_isBlock hblock] at held
          obtain rfl := held.eq_nil
          exact .nil
        | true =>
          have hinside : item.inside = b.inner := by
            rw [Item.inside, hblock, hb]
            rfl
          rw [hinside] at ihheld
          refine ihheld (hstanding.body b hb).2.1.2.1 fun t ht => hchar t ((hmem b hb).2 ?_)
          exact List.mem_cons_of_mem _ (List.mem_append_left _ ht)
    rw [List.append_cons]
    refine Forest.append ?_ hfollowing ?_ hstanding.rest.le
    · rw [Item.toNode_eq_behindLead] at hholds ⊢
      exact .behind hlead hbehind.1 (List.Sublist.refl _) hholds
    · exact Nat.le_trans hlead.le (Nat.le_trans hbehind.1 (Nat.le_of_lt hstanding.lt))

end ContractSync.Rust
