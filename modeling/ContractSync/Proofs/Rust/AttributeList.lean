import ContractSync.Proofs.Rust.Grow
import ContractSync.Proofs.Rust.VariantList
import ContractSync.Proofs.Rust.Writing

/-!
# Attributes in front of trees

`Attributes trees inner outer` says that the trees are attributes and nothing else, read as these inner and
outer nodes. Every sequence of trees begins with such a part (`Attributes.exists_front`), and what stands
behind it can be anything (`Attributes.lead_append`). **An attribute with arguments is read alike with
other trees between its parentheses** (`Attributes.exists_arguments`): its node tells where they stand and
not what they hold.

A path is lexed to tokens that give it back when they are joined (`IsPath.exists_tokens`). So **an attribute
that is written with a path and one entry in parentheses is read as an attribute of that path**, with the
parentheses as its arguments (`spells_groupText`, `shape_groupAttribute`).
-/

namespace ContractSync.Rust

open Attribute (lead)
open TokenTree (flatten flattenAll isNested isNestedAll)

variable {e : Edges}

theorem Attribute.Lead.eq_rest {found : Lead} {trees : List TokenTree} (hinner : found.inner = [])
    (houter : found.outer = []) (hrest : found.rest = trees) : found = ⟨[], [], trees⟩ := by
  cases found
  cases hinner
  cases houter
  cases hrest
  rfl

/-- The trees are attributes, read as these inner and outer ones. -/
inductive Attributes : List TokenTree → List Node → List Node → Prop
  | nil : Attributes [] [] []
  | outer {hash opener closer : Token} {content trees : List TokenTree} {inner outer : List Node}
      (hhash : hash.isPunct "#" = true) (hopener : opener.isPunct "[" = true)
      (following : Attributes trees inner outer) :
      Attributes (.leaf hash :: .group opener content closer :: trees) inner
        (Attribute.node hash.start false content closer :: outer)
  | inner {hash bang opener closer : Token} {content trees : List TokenTree} {inner outer : List Node}
      (hhash : hash.isPunct "#" = true) (hbang : bang.isPunct "!" = true)
      (hopener : opener.isPunct "[" = true) (following : Attributes trees inner outer) :
      Attributes (.leaf hash :: .leaf bang :: .group opener content closer :: trees)
        (Attribute.node hash.start true content closer :: inner) outer

namespace Attributes

variable {trees more : List TokenTree} {inner outer inner' outer' : List Node}

/-! ### What is read -/

/-- Attributes are read in front of anything. -/
theorem lead_append (h : Attributes trees inner outer) (more : List TokenTree) :
    lead (trees ++ more) =
      ⟨inner ++ (lead more).inner, outer ++ (lead more).outer, (lead more).rest⟩ := by
  induction h with
  | nil => rfl
  | outer hhash hopener _ ih =>
    rw [List.cons_append, List.cons_append, lead, hhash, hopener, ih]
    rfl
  | inner hhash hbang hopener _ ih =>
    rw [List.cons_append, List.cons_append, List.cons_append, lead, hhash, hbang, hopener, ih]
    rfl

/-- The attributes at the start of trees. -/
theorem exists_front (trees : List TokenTree) :
    ∃ front, trees = front ++ (lead trees).rest ∧ Attributes front (lead trees).inner (lead trees).outer := by
  fun_induction lead trees with
  | case1 hash opener content closer trees hmark following ih =>
    obtain ⟨front, htrees, hfront⟩ := ih
    obtain ⟨hhash, hopener⟩ := Bool.and_eq_true _ _ ▸ hmark
    refine ⟨.leaf hash :: .group opener content closer :: front, ?_, .outer hhash hopener hfront⟩
    rw [List.cons_append, List.cons_append, ← htrees]
  | case3 hash bang opener content closer trees hmark following ih =>
    obtain ⟨front, htrees, hfront⟩ := ih
    obtain ⟨hmark, hopener⟩ := Bool.and_eq_true _ _ ▸ hmark
    obtain ⟨hhash, hbang⟩ := Bool.and_eq_true _ _ ▸ hmark
    refine ⟨.leaf hash :: .leaf bang :: .group opener content closer :: front, ?_,
      .inner hhash hbang hopener hfront⟩
    rw [List.cons_append, List.cons_append, List.cons_append, ← htrees]
  | case2 | case4 | case5 => exact ⟨[], rfl, .nil⟩

/-- Nothing more is read behind the attributes. -/
theorem lead_rest (trees : List TokenTree) :
    lead (lead trees).rest = ⟨[], [], (lead trees).rest⟩ := by
  obtain ⟨front, htrees, hfront⟩ := exists_front trees
  have hlead := hfront.lead_append (lead trees).rest
  rw [← htrees] at hlead
  obtain ⟨hinner, houter, hrest⟩ := Attribute.Lead.mk.injEq .. ▸ hlead
  rw [List.self_eq_append_right] at hinner houter
  exact Attribute.Lead.eq_rest hinner houter hrest.symm

theorem eq_nil (h : Attributes trees [] []) : trees = [] := by
  cases h
  rfl

/-- Where no attributes begin, none do so with less behind. -/
theorem lead_cut {a b : List TokenTree} (h : lead (a ++ b) = ⟨[], [], a ++ b⟩) :
    lead a = ⟨[], [], a⟩ := by
  obtain ⟨front, ha, hfront⟩ := exists_front a
  have hlead := hfront.lead_append ((lead a).rest ++ b)
  rw [← List.append_assoc, ← ha, h] at hlead
  obtain ⟨hinner, houter, -⟩ := Attribute.Lead.mk.injEq .. ▸ hlead
  rw [List.nil_eq_append_iff] at hinner houter
  rw [hinner.1, houter.1] at hfront
  rw [hfront.eq_nil, List.nil_append] at ha
  exact Attribute.Lead.eq_rest hinner.1 houter.1 ha.symm

theorem append (h : Attributes trees inner outer) (h' : Attributes more inner' outer') :
    Attributes (trees ++ more) (inner ++ inner') (outer ++ outer') := by
  induction h with
  | nil => exact h'
  | outer hhash hopener _ ih => exact .outer hhash hopener ih
  | inner hhash hbang hopener _ ih => exact .inner hhash hbang hopener ih

theorem carry (h : Attributes trees inner outer) (e : Edges) :
    Attributes (trees.map (TokenTree.carry e)) (inner.map (Node.carry e)) (outer.map (Node.carry e)) := by
  induction h with
  | nil => exact .nil
  | outer hhash hopener _ ih =>
    rw [List.map_cons, List.map_cons, List.map_cons, TokenTree.carry, TokenTree.carry_group,
      ← Attribute.node_carry]
    exact .outer hhash hopener ih
  | inner hhash hbang hopener _ ih =>
    rw [List.map_cons, List.map_cons, List.map_cons, List.map_cons, TokenTree.carry, TokenTree.carry,
      TokenTree.carry_group, ← Attribute.node_carry]
    exact .inner hhash hbang hopener ih

theorem isPlain (h : Attributes trees inner outer) : ∀ n ∈ inner ++ outer, n.IsPlain := by
  have hlead := h.lead_append []
  rw [List.append_nil] at hlead
  have hnil : lead ([] : List TokenTree) = ⟨[], [], []⟩ := rfl
  rw [hnil, List.append_nil, List.append_nil] at hlead
  intro n hn
  have hmem : n ∈ (lead trees).inner ∨ n ∈ (lead trees).outer := by
    rw [hlead]
    exact List.mem_append.mp hn
  exact Attribute.isPlain_of_mem_lead hmem

theorem isAttribute (h : Attributes trees inner outer) : ∀ n ∈ outer, n.isAttribute = true := by
  induction h with
  | nil => nofun
  | outer _ _ _ ih => exact List.forall_mem_cons.mpr ⟨rfl, ih⟩
  | inner _ _ _ _ ih => exact ih

/-- An outer attribute starts with one of the tokens. -/
theorem exists_start (h : Attributes trees inner outer) {n : Node} (hn : n ∈ outer) :
    ∃ t ∈ flattenAll trees, t.start = n.start := by
  have hbehind : ∀ {front : List TokenTree} (tree : TokenTree),
      (∃ t ∈ flattenAll front, t.start = n.start) →
        ∃ t ∈ flattenAll (tree :: front), t.start = n.start := fun _ ⟨t, ht, hstart⟩ =>
    ⟨t, List.mem_append_right _ ht, hstart⟩
  induction h with
  | nil => cases hn
  | outer _ _ _ ih =>
    rcases List.mem_cons.mp hn with rfl | hn
    · exact ⟨_, List.mem_cons_self, rfl⟩
    · exact hbehind _ (hbehind _ (ih hn))
  | inner _ _ _ _ ih => exact hbehind _ (hbehind _ (hbehind _ (ih hn)))

/-! ### The ends of attributes -/

/-- Attributes begin with a hash mark. -/
theorem head (h : Attributes trees inner outer) {tree : TokenTree} (htree : tree ∈ trees.head?) :
    tree.isPunct "#" = true := by
  cases h with
  | nil => cases htree
  | outer hhash => cases htree; exact hhash
  | inner hhash => cases htree; exact hhash

/-- Attributes end with a bracket. -/
theorem getLast (h : Attributes trees inner outer) (hnested : isNestedAll trees = true) {t : Token}
    (ht : t ∈ (flattenAll trees).getLast?) : t.isCloser = true := by
  have hgroup : ∀ {opener closer : Token} {content rest : List TokenTree},
      opener.closes closer = true → (t ∈ (flattenAll rest).getLast? → t.isCloser = true) →
      t ∈ (flatten (.group opener content closer) ++ flattenAll rest).getLast? → t.isCloser = true := by
    intro opener closer content rest hcloses ih ht
    rw [List.getLast?_append, flatten, ← List.cons_append, List.getLast?_concat] at ht
    cases hlast : (flattenAll rest).getLast? with
    | none =>
      rw [hlast] at ht
      cases ht
      exact Token.isCloser_of_closes hcloses
    | some u =>
      rw [hlast] at ht
      cases ht
      exact ih hlast
  have hleaf : ∀ (hash : Token) {opener closer : Token} {content rest : List TokenTree},
      ([hash] ++ (flatten (.group opener content closer) ++ flattenAll rest)).getLast? =
        (flatten (.group opener content closer) ++ flattenAll rest).getLast? := by
    intros
    rw [flatten, List.cons_append, List.cons_append, List.nil_append, List.getLast?_cons_cons]
  induction h with
  | nil => cases ht
  | outer hhash hopener _ ih =>
    simp only [isNestedAll, isNested, Bool.and_eq_true] at hnested
    rw [flattenAll, flattenAll, flatten, hleaf] at ht
    exact hgroup hnested.2.1.1 (ih hnested.2.2) ht
  | inner hhash hbang hopener _ ih =>
    simp only [isNestedAll, isNested, Bool.and_eq_true] at hnested
    rw [flattenAll, flattenAll, flattenAll, flatten, flatten, List.singleton_append,
      List.singleton_append, List.getLast?_cons_cons, ← List.singleton_append, hleaf] at ht
    exact hgroup hnested.2.2.1.1 (ih hnested.2.2.2) ht

end Attributes

/-! ### Other arguments -/

/-- The arguments of an attribute are what stands in its first group, if that has parentheses. -/
theorem Attribute.exists_arguments {content : List TokenTree} {args : Span}
    (h : (Attribute.content content).2 = some args) :
    ∃ front opener held closer back, content = front ++ .group opener held closer :: back ∧
      opener.text = "(" ∧ args = ⟨opener.start, closer.start⟩ ∧
      ∀ e held', Attribute.content (front.map (TokenTree.carry e) ++
          .group (opener.carry e) held' (closer.carry e) :: back.map (TokenTree.carry e)) =
        Attribute.content (content.map (TokenTree.carry e)) := by
  induction content with
  | nil => cases h
  | cons tree content ih =>
    cases tree with
    | group opener held closer =>
      rw [Attribute.content] at h
      by_cases hopen : opener.text = "("
      · simp only [hopen, beq_self_eq_true, if_true, Option.some.injEq] at h
        refine ⟨[], opener, held, closer, content, rfl, hopen, h.symm, fun e held' => ?_⟩
        rw [List.map_cons, TokenTree.carry_group]
        rfl
      · simp only [beq_false_of_ne hopen, Bool.false_eq_true, if_false] at h
        cases h
    | leaf t =>
      rw [Attribute.content] at h
      split at h
      · rename_i hpath
        obtain ⟨front, opener, held, closer, back, rfl, hopen, hargs, hcontent⟩ := ih h
        refine ⟨.leaf t :: front, opener, held, closer, back, rfl, hopen, hargs, fun e held' => ?_⟩
        have hpath' : isPathToken (t.carry e) = true := hpath
        rw [List.map_cons, List.cons_append, List.map_cons, TokenTree.carry, Attribute.content,
          Attribute.content, if_pos hpath', if_pos hpath', hcontent]
      · cases h

namespace Attributes

variable {trees : List TokenTree} {inner outer : List Node}

/-- An outer attribute can have other content that is read alike. -/
theorem exists_content (h : Attributes trees inner outer) {n : Node} (hn : n ∈ outer) :
    ∃ front hash opener content closer back,
      trees = front ++ .leaf hash :: .group opener content closer :: back ∧
      n = Attribute.node hash.start false content closer ∧
      ∀ e content', Attribute.content content' = Attribute.content (content.map (TokenTree.carry e)) →
        Attributes (front.map (TokenTree.carry e) ++ .leaf (hash.carry e) ::
            .group (opener.carry e) content' (closer.carry e) :: back.map (TokenTree.carry e))
          (inner.map (Node.carry e)) (outer.map (Node.carry e)) := by
  induction h with
  | nil => cases hn
  | @outer hash opener closer content trees inner outer hhash hopener following ih =>
    rcases List.mem_cons.mp hn with rfl | hn
    · refine ⟨[], hash, opener, content, closer, trees, rfl, rfl, fun e content' hcontent => ?_⟩
      have hnode : (Attribute.node hash.start false content closer).carry e =
          Attribute.node (hash.carry e).start false content' (closer.carry e) := by
        rw [← Attribute.node_carry, Attribute.node, Attribute.node, hcontent]
        rfl
      rw [List.map_cons, hnode]
      exact .outer hhash hopener (following.carry e)
    · obtain ⟨front, hash', opener', content', closer', back, rfl, hnode, hcontent⟩ := ih hn
      refine ⟨.leaf hash :: .group opener content closer :: front, hash', opener', content', closer', back,
        rfl, hnode, fun e content'' hsame => ?_⟩
      rw [List.map_cons, List.map_cons, List.map_cons, TokenTree.carry_group, ← Attribute.node_carry]
      exact .outer hhash hopener (hcontent e content'' hsame)
  | @inner hash bang opener closer content trees inner outer hhash hbang hopener following ih =>
    obtain ⟨front, hash', opener', content', closer', back, rfl, hnode, hcontent⟩ := ih hn
    refine ⟨.leaf hash :: .leaf bang :: .group opener content closer :: front, hash', opener', content',
      closer', back, rfl, hnode, fun e content'' hsame => ?_⟩
    rw [List.map_cons, List.map_cons, List.map_cons, List.map_cons, TokenTree.carry_group,
      ← Attribute.node_carry]
    exact .inner hhash hbang hopener (hcontent e content'' hsame)

/-- **An attribute is read alike with other arguments.** -/
theorem exists_arguments (h : Attributes trees inner outer) (hnested : isNestedAll trees = true)
    {n : Node} (hn : n ∈ outer) {path : Option String} {args : Span} {isInner : Bool}
    (hshape : n.shape = .attribute path (some args) isInner) :
    ∃ front opener held closer back,
      flattenAll trees = front ++ opener :: (flattenAll held ++ closer :: back) ∧
      opener.text = "(" ∧ opener.closes closer = true ∧ isNestedAll held = true ∧
      args = ⟨opener.start, closer.start⟩ ∧
      ∀ e held', isNestedAll held' = true → ∃ trees',
        Attributes trees' (inner.map (Node.carry e)) (outer.map (Node.carry e)) ∧
        isNestedAll trees' = true ∧
        flattenAll trees' = front.map (·.carry e) ++ opener.carry e ::
          (flattenAll held' ++ closer.carry e :: back.map (·.carry e)) := by
  obtain ⟨front, hash, bracket, content, last, back, rfl, rfl, hcontent⟩ := h.exists_content hn
  have hargs : (Attribute.content content).2 = some args := by
    rw [Attribute.node, Node.shape, Shape.attribute.injEq] at hshape
    exact hshape.2.1
  obtain ⟨front', opener, held, closer, back', rfl, hopen, hspan, harguments⟩ :=
    Attribute.exists_arguments hargs
  simp only [TokenTree.isNestedAll_append, isNestedAll, isNested, Bool.and_eq_true] at hnested
  obtain ⟨hfront, hhash, ⟨hbracket, hfront', ⟨hcloses, hheld⟩, hback'⟩, hback⟩ := hnested
  refine ⟨flattenAll front ++ hash :: bracket :: flattenAll front', opener, held, closer,
    flattenAll back' ++ last :: flattenAll back, ?_, hopen, hcloses, hheld, hspan, fun e held' hheld' => ?_⟩
  · simp only [TokenTree.flattenAll_append, flattenAll, flatten, List.append_assoc, List.cons_append,
      List.nil_append]
  · refine ⟨_, hcontent e _ (harguments e held'), ?_, ?_⟩
    · simp only [TokenTree.isNestedAll_append, isNestedAll, isNested, Bool.and_eq_true,
        TokenTree.isNestedAll_map_carry, Token.closes_carry]
      exact ⟨hfront, hhash, ⟨hbracket, hfront', ⟨hcloses, hheld'⟩, hback'⟩, hback⟩
    · simp only [TokenTree.flattenAll_append, flattenAll, flatten, List.append_assoc, List.cons_append,
        List.nil_append, TokenTree.flattenAll_map_carry, List.map_append, List.map_cons]

end Attributes

/-! ### Paths -/

open Lexer

/-- The text is made of identifiers, with pairs of colons between them. -/
def IsPath (text : String) : Prop :=
  ∃ names, names ≠ [] ∧ (∀ name ∈ names, IsIdentifier name) ∧ text.toList = pathText names

theorem isPath_of_isIdentifier {name : String} (h : IsIdentifier name) : IsPath name :=
  ⟨[name], List.cons_ne_nil _ _, List.forall_mem_singleton.mpr h, List.intercalate_singleton.symm⟩

theorem text_pathMarks (names : List String) :
    (pathMarks names).flatMap (fun t => t.text.toList) = pathText names := by
  induction names with
  | nil => rfl
  | cons name names ih =>
    cases names with
    | nil => rw [pathMarks, List.flatMap_singleton]; exact List.intercalate_singleton.symm
    | cons next names =>
      rw [pathMarks, List.flatMap_cons, List.flatMap_cons, ih, pathText_cons]
      · rfl
      · nofun

theorem isPathToken_of_mem_pathMarks {names : List String} :
    ∀ t ∈ pathMarks names, (t.isOpener = false ∧ t.isCloser = false) ∧ Attribute.isPathToken t = true := by
  induction names with
  | nil => exact List.forall_mem_nil _
  | cons name names ih =>
    have hname : ∀ name : String, ((⟨.ident, name, 0, 0⟩ : Token).isOpener = false ∧
        (⟨.ident, name, 0, 0⟩ : Token).isCloser = false) ∧
          Attribute.isPathToken ⟨.ident, name, 0, 0⟩ = true := fun _ => ⟨⟨rfl, rfl⟩, rfl⟩
    cases names with
    | nil => exact List.forall_mem_singleton.mpr (hname name)
    | cons next names =>
      rw [pathMarks]
      · exact List.forall_mem_cons.mpr ⟨hname name, List.forall_mem_cons.mpr ⟨by decide, ih⟩⟩
      · nofun

theorem getLast?_pathMarks {names : List String} {name : String} (h : names.getLast? = some name) :
    (⟨.ident, name, 0, 0⟩ : Token) ∈ pathMarks names := by
  induction names with
  | nil => cases h
  | cons first names ih =>
    cases names with
    | nil =>
      cases h
      exact List.mem_singleton_self _
    | cons next names =>
      rw [pathMarks]
      · exact List.mem_cons_of_mem _ (List.mem_cons_of_mem _ (ih h))
      · nofun

/-- The last name of a path, with what stands in front of it. -/
theorem exists_pathText_eq {names : List String} {name : String} (h : names.getLast? = some name) :
    ∃ lead, pathText names = lead ++ name.toList ∧ (lead = [] ∨ ∃ more, lead = more ++ [':', ':']) := by
  induction names with
  | nil => cases h
  | cons first names ih =>
    cases names with
    | nil =>
      cases h
      exact ⟨[], List.intercalate_singleton, .inl rfl⟩
    | cons next names =>
      obtain ⟨lead, hlead, hcolons⟩ := ih h
      refine ⟨first.toList ++ ':' :: ':' :: lead, by rw [pathText_cons, hlead]; simp, .inr ?_⟩
      rcases hcolons with rfl | ⟨more, rfl⟩
      · exact ⟨first.toList, rfl⟩
      · exact ⟨first.toList ++ ':' :: ':' :: more, by simp⟩

/-- The tokens of a path. -/
structure PathTokens (path : String) (ts : List Token) : Prop where
  lexes : Lexes IsGap path.toList ts
  chain : IsChain ts path.toList.length
  isPath : ∀ t ∈ ts, Attribute.isPathToken t = true
  join : String.join (ts.map Token.text) = path
  line : '\n' ∉ path.toList
  exists_name : ∃ lead, ∃ t ∈ ts, t.kind = .ident ∧ path.toList = lead ++ t.text.toList ∧
    isIdentifier t.text.toList = true ∧ (lead = [] ∨ ∃ more, lead = more ++ [':', ':'])

/-- **A path is lexed to tokens that give it back.** -/
theorem IsPath.exists_tokens {path : String} (h : IsPath path) : ∃ ts, PathTokens path ts := by
  obtain ⟨names, hne, hnames, htext⟩ := h
  obtain ⟨ts, hts, hchain, hmarks⟩ := exists_lexes_path hne hnames
  rw [← htext] at hts hchain
  have hline : ∀ c ∈ path.toList, c ≠ '\n' := by
    rw [htext]
    refine Text.forall_mem_intercalate (by decide) fun cs hcs c hc => ?_
    obtain ⟨name, hname, rfl⟩ := List.mem_map.mp hcs
    rintro rfl
    have hident := isIdentChar_of_mem_identifier (hnames name hname) hc (by decide)
    rw [not_isIdentChar_of_isBlank (by decide)] at hident
    cases hident
  refine ⟨ts, hts, hchain, fun t ht => ?_, ?_, fun hmem => hline _ hmem rfl, ?_⟩
  · exact (isPathToken_of_mem_pathMarks t.bare (hmarks ▸ List.mem_map_of_mem ht)).2
  · refine String.toList_injective ?_
    rw [String.toList_join, htext, ← text_pathMarks, ← hmarks, List.flatMap_map, List.flatMap_map]
    rfl
  · have hlast := List.getLast?_eq_some_getLast hne
    obtain ⟨lead, hlead, hcolons⟩ := exists_pathText_eq hlast
    have hmem := getLast?_pathMarks hlast
    rw [← hmarks] at hmem
    obtain ⟨t, ht, hbare⟩ := List.mem_map.mp hmem
    have htext' : t.text = names.getLast hne := congrArg Token.text hbare
    refine ⟨lead, t, ht, congrArg Token.kind hbare, ?_, ?_, hcolons⟩
    · rw [htext', htext, hlead]
    · rw [htext']
      exact hnames _ (List.getLast_mem hne)

/-! ### An attribute with one entry -/

theorem Attribute.content_path {ts : List Token} (h : ∀ t ∈ ts, isPathToken t = true) (more : List TokenTree) :
    Attribute.content (ts.map TokenTree.leaf ++ more) =
      (ts.map Token.text ++ (Attribute.content more).1, (Attribute.content more).2) := by
  induction ts with
  | nil => rfl
  | cons t ts ih =>
    obtain ⟨ht, hts⟩ := List.forall_mem_cons.mp h
    rw [List.map_cons, List.cons_append, Attribute.content, if_pos ht, ih hts]
    rfl

/-- The text of an attribute with one entry in parentheses. -/
def groupText (group attr : List Char) : List Char :=
  '#' :: '[' :: (group ++ '(' :: (attr ++ [')', ']']))

/-- The attribute that this text is, from the tokens of the path and of the entry. -/
def groupAttribute (group attr : List Char) (gs as : List Token) : OuterAttribute where
  hash := ⟨.punct, "#", 0, 1⟩
  group :=
    { opener := ⟨.punct, "[", 1, 2⟩
      inner := (gs.map (Token.shift 2)).map .leaf ++
        [.group ⟨.punct, "(", group.length + 2, group.length + 3⟩
          ((as.map (Token.shift (group.length + 3))).map .leaf)
          ⟨.punct, ")", group.length + 3 + attr.length, group.length + 4 + attr.length⟩]
      closer := ⟨.punct, "]", group.length + 4 + attr.length, group.length + 5 + attr.length⟩ }
  isHash := rfl
  isBracket := rfl

/-- The tokens of the attribute. -/
def groupTokens (group attr : List Char) (gs as : List Token) : List Token :=
  ⟨.punct, "#", 0, 1⟩ :: ⟨.punct, "[", 1, 2⟩ :: (gs.map (Token.shift 2) ++
    ⟨.punct, "(", group.length + 2, group.length + 3⟩ :: (as.map (Token.shift (group.length + 3)) ++
      [⟨.punct, ")", group.length + 3 + attr.length, group.length + 4 + attr.length⟩,
        ⟨.punct, "]", group.length + 4 + attr.length, group.length + 5 + attr.length⟩]))

theorem flattenAll_groupAttribute (group attr : List Char) {gs as : List Token}
    (hgs : ∀ t ∈ gs, t.isOpener = false ∧ t.isCloser = false)
    (has : ∀ t ∈ as, t.isOpener = false ∧ t.isCloser = false) :
    flattenAll (groupAttribute group attr gs as).trees = groupTokens group attr gs as ∧
      isNestedAll (groupAttribute group attr gs as).trees = true := by
  have hleaves : ∀ (n : Nat) {ts : List Token}, (∀ t ∈ ts, t.isOpener = false ∧ t.isCloser = false) →
      flattenAll ((ts.map (Token.shift n)).map .leaf) = ts.map (Token.shift n) ∧
        isNestedAll ((ts.map (Token.shift n)).map .leaf) = true :=
    fun n _ h => nested_leaves (List.forall_mem_map.mpr h)
  obtain ⟨hgroup, hgroupNested⟩ := hleaves 2 hgs
  obtain ⟨hattr, hattrNested⟩ := hleaves (group.length + 3) has
  constructor
  · simp only [OuterAttribute.trees, groupAttribute, Group.tree, flattenAll, TokenTree.flatten,
      TokenTree.flattenAll_append, hgroup, hattr, groupTokens]
    simp
  · simp only [OuterAttribute.trees, groupAttribute, Group.tree, isNestedAll, TokenTree.isNested,
      TokenTree.isNestedAll_append, hgroupNested, hattrNested]
    rfl

/-- The text is lexed to these tokens. -/
theorem lexes_groupText {group attr : String} {gs as : List Token} (hgroup : PathTokens group gs)
    (hattr : PathTokens attr as) :
    Lexes Anything (groupText group.toList attr.toList) (groupTokens group.toList attr.toList gs as) := by
  have hgap : ∀ {c : Char} (rest : List Char), c ∈ ['(', ')'] → IsGap (c :: rest) := by
    intro c rest hc
    have hmarks : ∀ c ∈ ['(', ')'], IsGap [c] := by decide +kernel
    exact (hmarks c hc).append (List.cons_ne_nil _ _) rest
  have hfront : Lexes Anything ['#', '['] [⟨.punct, "#", 0, 1⟩, ⟨.punct, "[", 1, 2⟩] :=
    .of_tokens (by decide)
  have hopen : Lexes Anything ['('] [⟨.punct, "(", 0, 1⟩] := .of_tokens (by decide)
  have hback : Lexes Anything [')', ']'] [⟨.punct, ")", 0, 1⟩, ⟨.punct, "]", 1, 2⟩] :=
    .of_tokens (by decide)
  have hall := hfront.and (hgroup.lexes.append
    (hopen.and (hattr.lexes.append hback fun rest _ => hgap _ (by simp))) fun rest _ => hgap _ (by simp))
  have hshift : ∀ (m n : Nat) (t : Token), (t.shift m).shift n = t.shift (m + n) := fun m n t => by
    rw [Token.shift, Token.shift, Token.shift, Nat.add_assoc, Nat.add_assoc]
  have hmark : ∀ (text : String) (start stop n start' stop' : Nat), start + n = start' → stop + n = stop' →
      Token.shift n ⟨.punct, text, start, stop⟩ = ⟨.punct, text, start', stop'⟩ := by
    rintro text start stop n _ _ rfl rfl
    rfl
  have hopen' : group.toList.length + ['#', '['].length = group.toList.length + 2 := rfl
  have hentry : ['('].length + group.toList.length + ['#', '['].length = group.toList.length + 3 := by
    simp only [List.length_cons, List.length_nil]
    omega
  have hclose : attr.toList.length + ['('].length + group.toList.length + ['#', '['].length =
      group.toList.length + 3 + attr.toList.length := by
    simp only [List.length_cons, List.length_nil]
    omega
  simp only [List.map_append, List.map_map, Function.comp_def, hshift] at hall
  rw [hentry, hclose, hopen'] at hall
  simp only [List.map_cons, List.map_nil] at hall
  rw [hmark "(" 0 1 _ (group.toList.length + 2) (group.toList.length + 3) (by omega) (by omega),
    hmark ")" 0 1 _ (group.toList.length + 3 + attr.toList.length)
      (group.toList.length + 4 + attr.toList.length) (by omega) (by omega),
    hmark "]" 1 2 _ (group.toList.length + 4 + attr.toList.length)
      (group.toList.length + 5 + attr.toList.length) (by omega) (by omega)] at hall
  exact hall

/-- **An attribute that is written with a path and an entry is read as one of that path.** -/
theorem spells_groupText {group attr : String} {gs as : List Token} (hgroup : PathTokens group gs)
    (hattr : PathTokens attr as) :
    Spells (groupText group.toList attr.toList) (groupAttribute group.toList attr.toList gs as).trees := by
  obtain ⟨htokens, hnested⟩ :=
    flattenAll_groupAttribute group.toList attr.toList hgroup.chain.plain hattr.chain.plain
  refine ⟨htokens ▸ (lexes_groupText hgroup hattr).tokenize trivial, hnested, rfl, congrArg some ?_⟩
  show group.toList.length + 5 + attr.toList.length = _
  rw [groupText]
  simp
  omega

/-- Its arguments are the entry. -/
theorem shape_groupAttribute {group attr : String} {gs as : List Token} (hgroup : PathTokens group gs) :
    (groupAttribute group.toList attr.toList gs as).node.shape = .attribute (some group)
      (some ⟨group.toList.length + 2, group.toList.length + 3 + attr.toList.length⟩) false := by
  have hpath : ∀ t ∈ gs.map (Token.shift 2), Attribute.isPathToken t = true :=
    List.forall_mem_map.mpr hgroup.isPath
  have htexts : (gs.map (Token.shift 2)).map Token.text = gs.map Token.text := by
    rw [List.map_map]
    rfl
  have hne : (gs.map Token.text).isEmpty = false := by
    obtain ⟨-, t, ht, -⟩ := hgroup.exists_name
    cases gs with
    | nil => cases ht
    | cons => rfl
  rw [OuterAttribute.node, groupAttribute, Attribute.node, Attribute.content_path hpath, htexts]
  simp only [Attribute.content, List.append_nil, hne, hgroup.join]
  rfl

/-- The tokens of the entry are tokens of the attribute. -/
theorem shift_mem_groupTokens {group attr : List Char} {gs as : List Token} {t : Token} (ht : t ∈ as) :
    t.shift (group.length + 3) ∈ groupTokens group attr gs as := by
  have hmem := List.mem_map_of_mem (f := Token.shift (group.length + 3)) ht
  simp only [groupTokens, List.mem_append, List.mem_cons]
  tauto

end ContractSync.Rust
