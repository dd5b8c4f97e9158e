import ContractSync.Proofs.Rust.Line
import ContractSync.Proofs.Rust.MoveTree

/-!
# Texts one behind the other

Where the last item of some trees is complete (`Closed`), other trees can follow: **the nodes are those
of the trees and those of what follows, one behind the other** (`Items.append_iff`).

Where the lexer comes to the end of a first text, a second one is lexed as it is on its own. **The nodes are
those of both texts, the second ones moved**, if the last item of the first text is complete
(`Reads.append`). The end of a line is such a place (`Reads.line_append`), and a text is taken apart there
again (`Reads.line_split`).
-/

namespace ContractSync.Rust

open Attribute (lead)

/-- Nothing goes on the node: it is an inner attribute, or an item that says where it ends. -/
def Node.isClosed (n : Node) : Bool :=
  match n.shape with
  | .attribute _ _ inner => inner
  | .item kind _ _ => kind != .other
  | _ => false

/-- Nothing that follows the trees has a part in the nodes that are read from them: nothing was read, or
the last item or attribute is complete. -/
def Closed (trees : List TokenTree) (nodes : List Node) (more : List TokenTree) : Prop :=
  nodes = [] ∨ EndsItem trees more ∨ ∃ n, nodes.getLast? = some n ∧ n.isClosed = true

/-! ### Complete items -/

theorem Attribute.lead_rest_ne_nil {trees more : List TokenTree} (h : EndsItem trees more) :
    (lead trees).rest ≠ [] := by
  have hgroup : ∀ {opener inner closer}, opener.isPunct "[" = true →
      ¬ EndsItem [.group opener inner closer] more := by
    rintro opener inner closer hopen ⟨last, hlast, hend⟩
    obtain rfl : TokenTree.group opener inner closer = last := by simpa using hlast
    simp only [Token.isPunct, Bool.and_eq_true, beq_iff_eq] at hopen
    simp [TokenTree.isPunct, TokenTree.head, Token.isPunct, hopen] at hend
  fun_induction lead trees with
  | case1 hash opener trees closer rest hmark following ih =>
    cases rest with
    | nil => exact absurd h.of_cons (hgroup (Bool.and_eq_true _ _ ▸ hmark).2)
    | cons tree rest => exact ih h.of_cons.of_cons
  | case3 hash bang opener trees closer rest hmark following ih =>
    cases rest with
    | nil => exact absurd h.of_cons.of_cons (hgroup (Bool.and_eq_true _ _ ▸ hmark).2)
    | cons tree rest => exact ih h.of_cons.of_cons.of_cons
  | case2 | case4 => exact List.cons_ne_nil _ _
  | case5 => exact h.ne_nil

theorem Attribute.not_isClosed_of_mem_outer {trees : List TokenTree} {n : Node}
    (h : n ∈ (lead trees).outer) : n.isClosed = false := by
  fun_induction lead trees with
  | case1 hash opener trees closer rest hmark following ih =>
    rcases List.mem_cons.mp h with rfl | h
    · rfl
    · exact ih h
  | case3 hash bang opener trees closer rest hmark following ih => exact ih h
  | case2 | case4 | case5 => cases h

/-- A hash mark begins an item of no kind in particular. -/
theorem Item.read_hash {stop : Nat} {t : Token} {trees : List TokenTree} {item : Item}
    (h : read stop (.leaf t :: trees) = .ok item) (hhash : t.isPunct "#" = true) :
    item.kind = .other ∧ ∃ last, item.rest = (skipOther last (.leaf t :: trees)).2 := by
  simp only [Token.isPunct, Bool.and_eq_true, beq_iff_eq] at hhash
  have hpub : t.isWord "pub" = false := by rw [Token.isWord, hhash.1, hhash.2]; rfl
  have hqualifier : isQualifier t trees = false := by rw [isQualifier, hhash.1]; rfl
  have hkeyword : keyword (.leaf t :: trees) = "#" := hhash.2
  rw [read, Entry.dropVisibility_of_not_pub hpub, skipQualifiers_of_not hqualifier, readKeyword,
    hkeyword] at h
  simp only [String.reduceEq, false_or, if_false, false_and] at h
  cases h
  exact ⟨rfl, _, rfl⟩

theorem Item.skipOther_of_no_mark {trees : List TokenTree}
    (h : ∀ tree ∈ trees, tree.isPunct ";" = false ∧ tree.isPunct "\x7b" = false) (last : Nat) :
    skipOther last trees = (last, []) := by
  induction trees with
  | nil => rfl
  | cons tree rest ih =>
    obtain ⟨⟨hsemi, hbrace⟩, hrest⟩ := List.forall_mem_cons.mp h
    rw [skipOther.eq_def]
    simp only [hsemi, hbrace, Bool.false_eq_true, if_false]
    exact ih hrest

/-- A semicolon begins no attribute. -/
theorem Attribute.not_isCut_of_semicolon {tree : TokenTree} {rest : List TokenTree}
    (hsemi : tree.isPunct ";" = true) : ¬ IsCut (tree :: rest) := by
  rintro ⟨hash, hhash, h⟩
  obtain rfl : tree = .leaf hash := by rcases h with h | ⟨_, _, h⟩ <;> cases h <;> rfl
  have := Token.isPunct_of_ne hhash (by decide : "#" ≠ ";")
  rw [TokenTree.isPunct, TokenTree.head, this] at hsemi
  cases hsemi

/-- A cut-off attribute is an item without an end. -/
theorem Item.not_isCut {stop : Nat} {trees more : List TokenTree} {item : Item}
    (h : read stop trees = .ok item) (hsettled : item.Settled trees more) :
    more = [] ∨ ¬ Attribute.IsCut trees := by
  by_cases hcut : Attribute.IsCut trees
  · obtain ⟨hash, hhash, htrees⟩ := hcut
    have hnone : ∀ tree ∈ trees, tree.isPunct ";" = false ∧ tree.isPunct "\x7b" = false := by
      have hmarks : ∀ {t : Token}, t.isPunct "#" = true ∨ t.isPunct "!" = true →
          t.isPunct ";" = false ∧ t.isPunct "\x7b" = false := by
        rintro t (h | h)
        · exact ⟨Token.isPunct_of_ne h (by decide), Token.isPunct_of_ne h (by decide)⟩
        · exact ⟨Token.isPunct_of_ne h (by decide), Token.isPunct_of_ne h (by decide)⟩
      rcases htrees with rfl | ⟨bang, hbang, rfl⟩
      · exact List.forall_mem_cons.mpr ⟨hmarks (.inl hhash), nofun⟩
      · exact List.forall_mem_cons.mpr ⟨hmarks (.inl hhash),
          List.forall_mem_cons.mpr ⟨hmarks (.inr hbang), nofun⟩⟩
    obtain ⟨more', rfl⟩ : ∃ more', trees = .leaf hash :: more' := by
      rcases htrees with rfl | ⟨bang, -, rfl⟩
      · exact ⟨_, rfl⟩
      · exact ⟨_, rfl⟩
    obtain ⟨hkind, last, hitem⟩ := read_hash h hhash
    rcases hsettled with hmore | hother | hrest | ⟨last, hlast, hend⟩
    · exact .inl hmore
    · exact absurd hkind hother
    · rw [hitem, skipOther_of_no_mark hnone] at hrest
      exact absurd rfl hrest
    · -- No mark stands in what is cut off.
      have := hnone last (List.mem_of_getLast? hlast)
      simp [this] at hend
  · exact .inr hcut

/-- The last token ends an item. -/
theorem EndsItem.of_getLast? {trees more : List TokenTree} {t : Token}
    (hnested : TokenTree.isNestedAll trees = true)
    (hlast : (TokenTree.flattenAll trees).getLast? = some t)
    (hmark : t.isPunct ";" = true ∨
      t.isPunct "\x7d" = true ∧ (more.head?.any fun tree => tree.isPunct ";") = false) :
    EndsItem trees more := by
  rcases trees.eq_nil_or_concat with rfl | ⟨front, last, rfl⟩
  · cases hlast
  rw [List.concat_eq_append] at hnested hlast ⊢
  have hnested' := TokenTree.isNestedAll_eq_true_iff.mp hnested last (by simp)
  rw [TokenTree.flattenAll_concat] at hlast
  refine ⟨last, List.getLast?_concat, ?_⟩
  cases last with
  | leaf u =>
    rw [TokenTree.flatten, List.getLast?_concat] at hlast
    cases hlast
    refine hmark.imp_right fun h => ?_
    rw [TokenTree.isNested, Token.isCloser, h.1, Bool.or_true, Bool.not_true, Bool.and_false]
      at hnested'
    cases hnested'
  | group opener inner closer =>
    rw [TokenTree.flatten, ← List.cons_append, ← List.append_assoc, List.getLast?_concat] at hlast
    cases hlast
    rw [TokenTree.isNested, Bool.and_eq_true] at hnested'
    rcases hmark with hsemi | ⟨hbrace, hmore⟩
    · have hcloser := Token.isCloser_of_closes hnested'.1
      simp only [Token.isCloser, Token.isPunct_of_ne hsemi (by decide : ";" ≠ ")"),
        Token.isPunct_of_ne hsemi (by decide : ";" ≠ "]"),
        Token.isPunct_of_ne hsemi (by decide : ";" ≠ "\x7d"), Bool.or_false] at hcloser
      cases hcloser
    · have hopener : opener.isPunct "\x7b" = true := by
        have hcloses := hnested'.1
        simp only [Token.closes, Token.isPunct_of_ne hbrace (by decide : "\x7d" ≠ ")"),
          Token.isPunct_of_ne hbrace (by decide : "\x7d" ≠ "]"), Bool.and_false,
          Bool.false_or, Bool.and_eq_true] at hcloses
        exact hcloses.1
      exact .inr ⟨hopener, hmore⟩

namespace Closed

/-- What is closed stays so without the first items. -/
theorem of_suffix {trees rest more : List TokenTree} {front nodes : List Node}
    (h : Closed trees (front ++ nodes) more) (hs : rest <:+ trees) (hnodes : Items rest nodes) :
    Closed rest nodes more := by
  by_cases hnil : nodes = []
  · exact .inl hnil
  rcases h with h | h | ⟨n, hlast, hend⟩
  · exact absurd (List.append_eq_nil_iff.mp h).2 hnil
  · refine .inr (.inl (h.of_suffix hs ?_))
    rintro rfl
    exact hnil hnodes.eq_nil
  · rw [List.getLast?_append_of_ne_nil _ hnil] at hlast
    exact .inr (.inr ⟨n, hlast, hend⟩)

/-- The first of items that are closed is settled. -/
theorem settled {trees rest more : List TokenTree} {front nodes : List Node} {item : Item}
    {n : Node} (h : Closed trees (front ++ n :: nodes) more) (hs : rest <:+ trees)
    (hne : rest ≠ []) (hn : n.isClosed = true → item.kind ≠ .other)
    (hnodes : Items item.rest nodes) : item.Settled rest more := by
  rcases h with h | h | ⟨last, hlast, hend⟩
  · simp at h
  · exact .inr (.inr (.inr (h.of_suffix hs hne)))
  · by_cases hrest : item.rest = []
    · rw [hrest] at hnodes
      rw [hnodes.eq_nil, List.getLast?_concat] at hlast
      cases hlast
      exact .inr (.inl (hn hend))
    · exact .inr (.inr (.inl hrest))

/-- Attributes that are closed are inner ones. -/
theorem outer_eq_nil {trees more : List TokenTree} (hrest : (lead trees).rest = [])
    (h : Closed trees ((lead trees).inner ++ (lead trees).outer) more) :
    (lead trees).outer = [] := by
  rcases h with h | h | ⟨n, hlast, hend⟩
  · exact (List.append_eq_nil_iff.mp h).2
  · exact absurd hrest (Attribute.lead_rest_ne_nil h)
  · refine Classical.byContradiction fun houter => ?_
    rw [List.getLast?_append_of_ne_nil _ houter] at hlast
    have hmem := List.mem_of_getLast? hlast
    rw [Attribute.not_isClosed_of_mem_outer hmem] at hend
    cases hend

end Closed

/-! ### Sequences of items -/

/-- The attributes in front of trees are found when others follow, unless one is cut off. -/
theorem Attribute.lead_append {trees more : List TokenTree}
    (hcut : more = [] ∨ ¬ IsCut (lead trees).rest) :
    lead (trees ++ more) = (lead trees).append more := by
  have hid : TokenTree.recast (.same id) (fun _ inner => inner) = id := by
    funext tree
    cases tree <;> rfl
  have hkeeps : KeepsBrackets (.same id) fun _ inner => inner := fun _ inner _ => by
    rw [← TokenTree.carryAll_eq_map, TokenTree.carryAll_eq_self fun _ _ => rfl]
  have hnode : Node.carry (.same id) = id := funext fun n => n.carry_same.trans n.move_id
  have h := lead_recast hkeeps hcut
  rwa [Lead.recast, hid, hnode, List.map_id, List.map_id, List.map_id, List.map_id] at h

theorem Attribute.lead_append_of_rest {trees rest more : List TokenTree} {tree : TokenTree}
    (hrest : (lead trees).rest = tree :: rest) (hcut : more = [] ∨ ¬ IsCut (tree :: rest)) :
    lead (trees ++ more) = ⟨(lead trees).inner, (lead trees).outer, tree :: (rest ++ more)⟩ := by
  rw [lead_append (by rwa [hrest]), Lead.append, hrest]
  rfl

/-- What is read behind inner attributes. -/
theorem items_lead_iff {trees more : List TokenTree} {inner all : List Node}
    (hlead : lead trees = ⟨inner ++ (lead more).inner, (lead more).outer, (lead more).rest⟩) :
    Items trees all ↔ ∃ behind, Items more behind ∧ all = inner ++ behind := by
  constructor
  · intro h
    cases h with
    | done hrest =>
      rw [hlead] at hrest
      refine ⟨_, .done hrest, ?_⟩
      rw [hlead, List.append_assoc]
    | semicolon hrest hsemi following =>
      rw [hlead] at hrest
      refine ⟨_, .semicolon hrest hsemi following, ?_⟩
      rw [hlead, List.append_assoc]
    | item hrest hsemi hread hmembers held following =>
      rw [hlead] at hrest
      refine ⟨_, .item hrest hsemi hread hmembers held following, ?_⟩
      rw [hlead, List.append_assoc]
  · rintro ⟨behind, h, rfl⟩
    cases h with
    | done hrest =>
      have h : Items trees _ := .done (by rw [hlead, hrest])
      simp only [hlead] at h
      rwa [List.append_assoc] at h
    | semicolon hrest hsemi following =>
      have h : Items trees _ := .semicolon (by rw [hlead, hrest]) hsemi following
      simp only [hlead] at h
      rwa [List.append_assoc] at h
    | item hrest hsemi hread hmembers held following =>
      have h : Items trees _ := .item (by rw [hlead, hrest]) hsemi hread hmembers held following
      simp only [hlead] at h
      rwa [List.append_assoc] at h

/-- **What is read from trees with others behind them**: the nodes of both. -/
theorem Items.append_iff {trees more : List TokenTree} {nodes all : List Node}
    (h : Items trees nodes) (hclosed : Closed trees nodes more) :
    Items (trees ++ more) all ↔ ∃ behind, Items more behind ∧ all = nodes ++ behind := by
  induction h generalizing all with
  | @done trees hrest =>
    have hcut : more = [] ∨ ¬ Attribute.IsCut (lead trees).rest := by
      rw [hrest]
      exact .inr fun ⟨_, _, h⟩ => by rcases h with h | ⟨_, _, h⟩ <;> cases h
    have hlead := Attribute.lead_append hcut
    have houter := hclosed.outer_eq_nil hrest
    rw [houter, List.append_nil]
    refine items_lead_iff ?_
    rw [hlead, Attribute.Lead.append, hrest, houter]
    rfl
  | @semicolon trees rest tree nodes hrest hsemi following ih =>
    have hsuffix : rest <:+ trees :=
      (List.suffix_cons ..).trans (hrest ▸ Attribute.rest_lead_suffix trees)
    have hlead := Attribute.lead_append_of_rest hrest
      (.inr (Attribute.not_isCut_of_semicolon hsemi) : more = [] ∨ _)
    rw [items_semicolon_iff (congrArg Attribute.Lead.rest hlead) hsemi, hlead]
    simp only [ih (hclosed.of_suffix hsuffix following)]
    constructor
    · rintro ⟨_, ⟨behind, hbehind, rfl⟩, rfl⟩
      exact ⟨behind, hbehind, (List.append_assoc ..).symm⟩
    · rintro ⟨behind, hbehind, rfl⟩
      exact ⟨_, ⟨behind, hbehind, rfl⟩, List.append_assoc ..⟩
  | @item stop trees rest tree item members inside nodes hrest hsemi hread hmembers held following
      ihheld ihfollowing =>
    have hsuffix : tree :: rest <:+ trees := hrest ▸ Attribute.rest_lead_suffix trees
    have hsettled : item.Settled (tree :: rest) more :=
      hclosed.settled hsuffix (List.cons_ne_nil _ _) bne_iff_ne.mp following
    have hsuffix' : item.rest <:+ trees :=
      (Item.read_isTaken hread (List.cons_ne_nil _ _)).rest_suffix.trans hsuffix
    have hclosed' : Closed item.rest nodes more := by
      rw [List.append_cons] at hclosed
      exact hclosed.of_suffix hsuffix' following
    have hlead := Attribute.lead_append_of_rest hrest (Item.not_isCut hread hsettled)
    have hread' := Item.read_append hread (List.cons_ne_nil _ _) hsettled stop
    rw [List.cons_append] at hread'
    rw [items_item_iff (congrArg Attribute.Lead.rest hlead) hsemi hread' hmembers held, hlead]
    simp only [ihfollowing hclosed']
    constructor
    · rintro ⟨_, ⟨behind, hbehind, rfl⟩, rfl⟩
      exact ⟨behind, hbehind, by rw [List.append_assoc]; rfl⟩
    · rintro ⟨behind, hbehind, rfl⟩
      exact ⟨_, ⟨behind, hbehind, rfl⟩, by rw [List.append_assoc]; rfl⟩

/-! ### Texts one behind the other -/

open Lexer
open TokenTree (flattenAll flattenAll_map_move isNestedAll_map_move)

theorem Closed.move_behind {g : Nat → Nat} {trees more : List TokenTree} {nodes : List Node} :
    Closed trees nodes (more.map (TokenTree.move g)) ↔ Closed trees nodes more := by
  have hhead : ((more.map (TokenTree.move g)).head?.any fun tree => tree.isPunct ";") =
      more.head?.any fun tree => tree.isPunct ";" := by
    cases more with
    | nil => rfl
    | cons tree rest => exact TokenTree.isPunct_move tree ";"
  rw [Closed, Closed, EndsItem, EndsItem, hhead]

theorem Reads.nil : Reads [] [] [] := by
  refine ⟨?_, rfl, .nil⟩
  rw [tokenize, lexFrom]
  rfl

/-- The nodes of a text end inside it. -/
theorem Reads.stop_le {source : List Char} {trees : List TokenTree} {nodes : List Node}
    (h : Reads source trees nodes) : ∀ n ∈ Node.walkAll nodes, n.stop ≤ source.length := by
  obtain ⟨-, hall, -⟩ := (run_of_lexFrom h.tokens).ordered
  refine h.items.stop_le fun t ht => ?_
  have := hall t ht
  omega

/-- **Two texts that are read, one behind the other**: the lexer has to come to the end of the first one
whatever follows, and the last item of it has to be complete. -/
theorem Reads.append {a b : List Char} {ta tb : List TokenTree} {na nb : List Node}
    (ha : Reads a ta na) (hb : Reads b tb nb) (hclosed : Closed ta na tb)
    (hrun : Run 0 (a ++ b) (flattenAll ta) a.length b) :
    Reads (a ++ b) (ta ++ tb.map (TokenTree.move (· + a.length)))
      (na ++ nb.map (Node.move (· + a.length))) := by
  refine ⟨?_, ?_, ?_⟩
  · have h := (run_of_lexFrom hb.tokens).shift a.length
    rw [Nat.zero_add] at h
    rw [TokenTree.flattenAll_append, flattenAll_map_move]
    exact lexFrom_of_run (hrun.trans h)
  · rw [TokenTree.isNestedAll_append, isNestedAll_map_move, ha.nested, hb.nested]
    rfl
  · exact (ha.items.append_iff (Closed.move_behind.mpr hclosed)).mpr ⟨_, hb.items.move, rfl⟩

/-- The end of the last line changes nothing. -/
theorem Reads.newline {a : List Char} {trees : List TokenTree} {nodes : List Node}
    (h : Reads a trees nodes) : Reads (a ++ ['\n']) trees nodes :=
  ⟨lexFrom_of_run (run_line h.tokens []), h.nested, h.items⟩

end ContractSync.Rust
