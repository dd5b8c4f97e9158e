import ContractSync.Proofs.Outcome
import ContractSync.Proofs.Rust.Move
import Mathlib.Data.List.Basic

/-!
# The head of an item, carried

**An item is read in the same way from the trees recast, whatever follows them**
(`Item.read_recast`): the same kind and name, the body and what follows recast, the end carried. Reading
looks into no group, so it does not matter what the groups hold. It may look past the end of the trees,
though, if nothing there has settled where the item ends (`Item.Settled`).
-/

namespace ContractSync.Rust

open TokenTree (recast)

variable {e : Edges} {content : Token → List TokenTree → List TokenTree}
  {more : List TokenTree}

/-- The group carried, with other trees inside. -/
protected def Group.recast (e : Edges) (content : Token → List TokenTree → List TokenTree)
    (b : Group) : Group :=
  ⟨b.opener.carry e, content b.opener b.inner, b.closer.carry e⟩

/-- The item with its end carried and its body recast; what follows is recast too and has `more`
behind it. -/
protected def Item.recast (e : Edges) (content : Token → List TokenTree → List TokenTree)
    (more : List TokenTree) (item : Item) : Item :=
  ⟨item.kind, item.name, item.body.map (Group.recast e content), e.stop item.stop,
    item.rest.map (TokenTree.recast e content) ++ more⟩

/-- The last of the trees is a semicolon, or a group in braces that no semicolon follows. -/
def EndsItem (trees more : List TokenTree) : Prop :=
  ∃ last, trees.getLast? = some last ∧
    (last.isPunct ";" = true ∨ last.isPunct "\x7b" = true ∧ (more.head?.any (·.isPunct ";")) = false)

/-- What follows the trees has no part in the item that is read from them. -/
def Item.Settled (trees more : List TokenTree) (item : Item) : Prop :=
  more = [] ∨ item.kind ≠ .other ∨ item.rest ≠ [] ∨ EndsItem trees more

/-! ### Ends of items -/

namespace EndsItem

theorem ne_nil {trees : List TokenTree} (h : EndsItem trees more) : trees ≠ [] := by
  rintro rfl
  obtain ⟨last, hlast, -⟩ := h
  cases hlast

theorem of_suffix {trees rest : List TokenTree} (h : EndsItem trees more) (hs : rest <:+ trees)
    (hne : rest ≠ []) : EndsItem rest more := by
  obtain ⟨front, rfl⟩ := hs
  obtain ⟨last, hlast, hend⟩ := h
  rw [List.getLast?_append_of_ne_nil _ hne] at hlast
  exact ⟨last, hlast, hend⟩

theorem of_cons {tree next : TokenTree} {rest : List TokenTree}
    (h : EndsItem (tree :: next :: rest) more) : EndsItem (next :: rest) more :=
  h.of_suffix (List.suffix_cons ..) (List.cons_ne_nil _ _)

/-- No word and no literal ends an item. -/
theorem not_singleton {t : Token} (hkind : t.kind ≠ .punct) : ¬ EndsItem [.leaf t] more := by
  rintro ⟨last, hlast, hend⟩
  obtain rfl : TokenTree.leaf t = last := by simpa using hlast
  have hpunct : ∀ text, (TokenTree.leaf t).isPunct text = false := by
    intro text
    show (t.kind == .punct && t.text == text) = false
    rw [beq_false_of_ne hkind, Bool.false_and]
  rw [hpunct, hpunct] at hend
  simp at hend

end EndsItem

/-! ### What is passed over in front of an item -/

theorem Token.kind_of_isWord {t : Token} {word : String} (h : t.isWord word = true) :
    t.kind = .ident := by
  rw [isWord, Bool.and_eq_true, beq_iff_eq] at h
  exact h.1

theorem Entry.dropVisibility_of_not_pub {t : Token} (h : t.isWord "pub" = false)
    (rest : List TokenTree) : dropVisibility (.leaf t :: rest) = .leaf t :: rest := by
  match rest with
  | [] | .leaf _ :: _ | .group .. :: _ => simp only [dropVisibility, h, Bool.false_eq_true, if_false]

theorem Entry.dropVisibility_recast {trees : List TokenTree}
    (h : more = [] ∨ dropVisibility trees ≠ []) :
    dropVisibility (trees.map (recast e content) ++ more) =
      (dropVisibility trees).map (recast e content) ++ more := by
  match trees with
  | [] =>
    obtain rfl : more = [] := h.resolve_right fun hne => hne rfl
    rfl
  | .group .. :: _ => rfl
  | .leaf t :: rest =>
    by_cases hpub : t.isWord "pub" = true
    · match rest with
      | [] =>
        obtain rfl : more = [] := by
          refine h.resolve_right fun hne => hne ?_
          simp only [dropVisibility, hpub, if_true]
        simp only [List.map_cons, List.map_nil, List.append_nil, recast, dropVisibility,
          Token.isWord_carry, hpub, if_true]
      | .leaf u :: rest =>
        simp only [List.map_cons, List.cons_append, recast, dropVisibility, Token.isWord_carry, hpub,
          if_true]
      | .group opener inner closer :: rest =>
        by_cases hopen : opener.isPunct "(" = true
        · simp only [List.map_cons, List.cons_append, recast, dropVisibility, Token.isWord_carry,
            Token.isPunct_carry, hpub, hopen, if_true]
        · simp only [List.map_cons, List.cons_append, recast, dropVisibility, Token.isWord_carry,
            Token.isPunct_carry, hpub, hopen, Bool.false_eq_true, if_true, if_false]
    · rw [Bool.not_eq_true] at hpub
      rw [dropVisibility_of_not_pub hpub, List.map_cons, List.cons_append, recast,
        dropVisibility_of_not_pub (by rwa [Token.isWord_carry])]

namespace Item

theorem isQualifier_recast (t : Token) {rest : List TokenTree} (h : more = [] ∨ rest ≠ []) :
    isQualifier (t.carry e) (rest.map (recast e content) ++ more) = isQualifier t rest := by
  cases rest with
  | nil =>
    obtain rfl : more = [] := h.resolve_right fun hne => hne rfl
    rfl
  | cons tree rest => simp [isQualifier]

/-- A word that qualifies nothing at the end of the trees qualifies nothing else. -/
theorem isQualifier_of_nil {t : Token} (h : isQualifier t [] = false) (rest : List TokenTree) :
    isQualifier t rest = false := by
  simp only [isQualifier, List.isEmpty_nil, Bool.or_true, Bool.true_or, Bool.and_true] at h
  rw [isQualifier, h, Bool.false_and]

theorem skipQualifiers_of_not {t : Token} {rest : List TokenTree} (h : isQualifier t rest = false) :
    skipQualifiers (.leaf t :: rest) = .leaf t :: rest := by
  match rest with
  | [] | .leaf _ :: _ | .group .. :: _ =>
    simp only [skipQualifiers, h, Bool.false_eq_true, if_false]

theorem skipQualifiers_recast {trees : List TokenTree} (h : more = [] ∨ skipQualifiers trees ≠ []) :
    skipQualifiers (trees.map (recast e content) ++ more) =
      (skipQualifiers trees).map (recast e content) ++ more := by
  fun_induction skipQualifiers trees with
  | case1 t u rest hq hlit ih =>
    have hq' : isQualifier (t.carry e) (.leaf (u.carry e) :: (rest.map (recast e content) ++ more)) =
        true := (isQualifier_recast t (.inr (List.cons_ne_nil _ _))).trans hq
    rw [List.map_cons, List.map_cons, recast, recast, List.cons_append, List.cons_append,
      skipQualifiers, if_pos hq', Token.carry_text, Token.carry_kind, if_pos hlit, ih h]
  | case2 t u rest hq hlit ih =>
    have hq' : isQualifier (t.carry e) (.leaf (u.carry e) :: (rest.map (recast e content) ++ more)) =
        true := (isQualifier_recast t (.inr (List.cons_ne_nil _ _))).trans hq
    rw [List.map_cons, List.map_cons, recast, recast, List.cons_append, List.cons_append,
      skipQualifiers, if_pos hq', Token.carry_text, Token.carry_kind, if_neg hlit]
    exact ih h
  | case3 t u rest hq =>
    rw [List.map_cons, recast, List.cons_append]
    exact skipQualifiers_of_not ((isQualifier_recast t (.inr (List.cons_ne_nil _ _))).trans
      (Bool.eq_false_iff.mpr hq))
  | case4 t rest hleaf hq =>
    have hmore : more = [] ∨ rest ≠ [] := h
    rcases rest with _ | ⟨⟨u⟩ | ⟨opener, inner, closer⟩, rest⟩
    · obtain rfl : more = [] := hmore.resolve_right fun hne => hne rfl
      exact if_pos hq
    · exact absurd rfl (hleaf u rest)
    · exact if_pos ((isQualifier_recast t (.inr (List.cons_ne_nil _ _))).trans hq)
  | case5 t rest hleaf hq =>
    rw [List.map_cons, recast, List.cons_append]
    refine skipQualifiers_of_not ?_
    rw [Bool.not_eq_true] at hq
    cases rest with
    | nil => exact isQualifier_of_nil (t := t.carry e) hq _
    | cons tree rest => exact (isQualifier_recast t (.inr (List.cons_ne_nil _ _))).trans hq
  | case6 trees hleaf hcons =>
    rcases trees with _ | ⟨⟨t⟩ | ⟨opener, inner, closer⟩, rest⟩
    · obtain rfl : more = [] := h.resolve_right fun hne => hne rfl
      rfl
    · exact absurd rfl (hcons t rest)
    · rfl

/-! ### Scanning -/

theorem skipOther_recast {last last' : Nat} {trees : List TokenTree}
    (hlast : more = [] → last' = e.stop last)
    (h : more = [] ∨ (skipOther last trees).2 ≠ [] ∨ EndsItem trees more) :
    skipOther last' (trees.map (recast e content) ++ more) =
      (e.stop (skipOther last trees).1, (skipOther last trees).2.map (recast e content) ++ more) := by
  fun_induction skipOther last trees with
  | case1 =>
    rcases h with rfl | h | ⟨_, h, _⟩
    · rw [hlast rfl]
      rfl
    · exact absurd rfl h
    · cases h
  | case2 tree rest hsemi =>
    rw [List.map_cons, List.cons_append, skipOther.eq_def]
    simp only [TokenTree.isPunct_recast, hsemi, if_true, TokenTree.stop_recast]
  | case3 tree hsemi hbrace next rest hnext =>
    rw [List.map_cons, List.map_cons, List.cons_append, List.cons_append, skipOther.eq_def]
    simp only [TokenTree.isPunct_recast, hsemi, hbrace, hnext, if_true, TokenTree.stop_recast,
      Bool.false_eq_true, if_false]
  | case4 tree hsemi hbrace next rest hnext =>
    rw [List.map_cons, List.map_cons, List.cons_append, List.cons_append, skipOther.eq_def]
    simp only [TokenTree.isPunct_recast, hsemi, hbrace, hnext, if_true, TokenTree.stop_recast,
      Bool.false_eq_true, if_false]
  | case5 tree hsemi hbrace =>
    have hmore : more.head?.any (·.isPunct ";") = false := by
      rcases h with rfl | h | ⟨end_, h, hend⟩
      · rfl
      · exact absurd rfl h
      · obtain rfl : tree = end_ := by simpa using h
        exact (hend.resolve_left hsemi).2
    rw [List.map_cons, List.cons_append, skipOther.eq_def]
    simp only [TokenTree.isPunct_recast, hsemi, hbrace, if_true, TokenTree.stop_recast,
      Bool.false_eq_true, if_false, List.map_nil, List.nil_append]
    cases more with
    | nil => rfl
    | cons next more =>
      have hnext : next.isPunct ";" = false := by simpa using hmore
      simp only [hnext, Bool.false_eq_true, if_false]
  | case6 tree rest hsemi hbrace ih =>
    rw [List.map_cons, List.cons_append, skipOther.eq_def]
    simp only [TokenTree.isPunct_recast, hsemi, hbrace, Bool.false_eq_true, if_false]
    refine ih (h.imp id (Or.imp id fun hend => ?_))
    cases rest with
    | cons next rest => exact hend.of_cons
    | nil =>
      obtain ⟨end_, hlast, hend⟩ := hend
      obtain rfl : tree = end_ := by simpa using hlast
      exact absurd hend (not_or.mpr ⟨hsemi, fun h => hbrace h.1⟩)

/-- A name is a token, whatever stands behind it. -/
theorem nameAt_eq_ok {stop : Nat} {what : Named} {trees : List TokenTree} {name : String}
    (h : nameAt stop what trees = .ok name) :
    ∃ t rest, trees = .leaf t :: rest ∧ ∀ more, nameAt stop what (.leaf t :: more) = .ok name := by
  match trees, h with
  | .leaf t :: rest, h => exact ⟨t, rest, rfl, fun _ => h⟩

theorem nameAt_recast {stop : Nat} {what : Named} {trees : List TokenTree} {name : String}
    (h : nameAt stop what trees = .ok name) (stop' : Nat) :
    trees ≠ [] ∧ nameAt stop' what (trees.map (recast e content) ++ more) = .ok name := by
  match trees, h with
  | .leaf t :: _, h =>
    refine ⟨List.cons_ne_nil _ _, ?_⟩
    rw [nameAt] at h
    split at h
    · rename_i hident
      simp only [List.map_cons, List.cons_append, recast, nameAt, Token.carry_kind, Token.carry_text,
        hident, if_true, h]
    · cases h

theorem closeAngles_recast {stop depth : Nat} {trees rest : List TokenTree}
    (h : closeAngles stop depth trees = .ok rest) (stop' : Nat) :
    closeAngles stop' depth (trees.map (recast e content) ++ more) =
      .ok (rest.map (recast e content) ++ more) := by
  fun_induction closeAngles stop depth trees with
  | case1 => cases h
  | case2 depth tree trees hopen ih =>
    rw [List.map_cons, List.cons_append, closeAngles, TokenTree.isPunct_recast, if_pos hopen, ih h]
  | case3 depth tree trees hopen hclose hdepth =>
    cases h
    rw [List.map_cons, List.cons_append, closeAngles, TokenTree.isPunct_recast,
      TokenTree.isPunct_recast, if_neg hopen, if_pos hclose, if_pos hdepth]
  | case4 depth tree trees hopen hclose hdepth ih =>
    rw [List.map_cons, List.cons_append, closeAngles, TokenTree.isPunct_recast,
      TokenTree.isPunct_recast, if_neg hopen, if_pos hclose, if_neg hdepth, ih h]
  | case5 depth tree trees hopen hclose ih =>
    rw [List.map_cons, List.cons_append, closeAngles, TokenTree.isPunct_recast,
      TokenTree.isPunct_recast, if_neg hopen, if_neg hclose, ih h]

theorem skipGenerics_recast {stop : Nat} {trees rest : List TokenTree}
    (h : skipGenerics stop trees = .ok rest) (hne : rest ≠ []) (stop' : Nat) :
    skipGenerics stop' (trees.map (recast e content) ++ more) =
      .ok (rest.map (recast e content) ++ more) := by
  cases trees with
  | nil =>
    cases h
    exact absurd rfl hne
  | cons tree trees =>
    rw [skipGenerics] at h
    rw [List.map_cons, List.cons_append, skipGenerics, TokenTree.isPunct_recast]
    split at h
    · rename_i hopen
      rw [if_pos hopen, closeAngles_recast h]
    · rename_i hopen
      cases h
      rw [if_neg hopen, List.map_cons, List.cons_append]

theorem scanTo_recast {stop : Nat} {marks : List String} {trees : List TokenTree}
    {found : TokenTree × List TokenTree} (h : scanTo stop marks trees = .ok found) (stop' : Nat) :
    trees ≠ [] ∧ scanTo stop' marks (trees.map (recast e content) ++ more) =
      .ok (recast e content found.1, found.2.map (recast e content) ++ more) := by
  have hmark : ∀ tree, marks.any (recast e content tree).isPunct = marks.any tree.isPunct :=
    fun tree => congrArg marks.any (funext fun text => TokenTree.isPunct_recast tree text)
  fun_induction scanTo stop marks trees with
  | case1 => cases h
  | case2 tree rest hany =>
    cases h
    refine ⟨List.cons_ne_nil _ _, ?_⟩
    rw [List.map_cons, List.cons_append, scanTo, hmark, if_pos hany]
  | case3 tree rest hany ih =>
    refine ⟨List.cons_ne_nil _ _, ?_⟩
    rw [List.map_cons, List.cons_append, scanTo, hmark, if_neg hany, (ih h).2]

theorem tail_recast {trees : List TokenTree} (h : trees ≠ []) :
    (trees.map (recast e content) ++ more).tail = trees.tail.map (recast e content) ++ more := by
  cases trees with
  | nil => exact absurd rfl h
  | cons tree trees => rfl

theorem tupleBody?_recast {trees : List TokenTree} (h : trees ≠ []) :
    tupleBody? (trees.map (recast e content) ++ more) =
      (tupleBody? trees).map (Group.recast e content) := by
  match trees, h with
  | .leaf _ :: _, _ => rfl
  | .group opener inner closer :: rest, _ =>
    by_cases hopen : opener.isPunct "(" = true
    · simp only [List.map_cons, List.cons_append, recast, tupleBody?, Token.isPunct_carry, hopen,
        if_true]
      rfl
    · simp only [List.map_cons, List.cons_append, recast, tupleBody?, Token.isPunct_carry, hopen]
      rfl

theorem aliasName?_recast {trees : List TokenTree} (h : more = [] ∨ trees.tail ≠ []) :
    aliasName? (trees.map (recast e content) ++ more) = aliasName? trees := by
  match trees, h with
  | _ :: .leaf t :: _, _ | _ :: .group .. :: _, _ => rfl
  | [], h | [_], h =>
    obtain rfl : more = [] := h.resolve_right fun hne => hne rfl
    rfl

/-! ### Items by keyword -/

theorem ofScan_recast (kind : ItemKind) (name : Option String)
    (found : TokenTree × List TokenTree) :
    ofScan kind name (recast e content found.1, found.2.map (recast e content) ++ more) =
      (ofScan kind name found).recast e content more := by
  obtain ⟨tree, rest⟩ := found
  cases tree <;> rfl

theorem readStruct_recast {stop : Nat} {trees : List TokenTree} {item : Item} (hne : trees ≠ [])
    (h : readStruct stop trees = .ok item) (stop' : Nat) :
    readStruct stop' (trees.map (recast e content) ++ more) = .ok (item.recast e content more) := by
  obtain ⟨name, hname, h⟩ := bind_eq_ok.mp h
  obtain ⟨rest, hgen, h⟩ := bind_eq_ok.mp h
  obtain ⟨hne', hname'⟩ := nameAt_recast hname stop'
  rw [readStruct, tail_recast hne, tail_recast hne']
  refine bind_eq_ok.mpr ⟨name, hname', ?_⟩
  cases htuple : tupleBody? rest with
  | some body =>
    simp only [htuple] at h
    obtain ⟨⟨last, behind⟩, hscan, h⟩ := bind_eq_ok.mp h
    rw [pure_eq_ok] at h
    subst h
    have hrest : rest ≠ [] := by
      rintro rfl
      cases htuple
    refine bind_eq_ok.mpr ⟨_, skipGenerics_recast hgen hrest stop', ?_⟩
    simp only [tupleBody?_recast hrest, htuple, Option.map_some, tail_recast hrest]
    refine bind_eq_ok.mpr ⟨_, (scanTo_recast hscan stop').2, ?_⟩
    rw [pure_eq_ok, TokenTree.stop_recast]
    rfl
  | none =>
    simp only [htuple] at h
    obtain ⟨found, hscan, h⟩ := bind_eq_ok.mp h
    rw [pure_eq_ok] at h
    subst h
    obtain ⟨hrest, hscan'⟩ := scanTo_recast hscan stop'
    refine bind_eq_ok.mpr ⟨_, skipGenerics_recast hgen hrest stop', ?_⟩
    simp only [tupleBody?_recast hrest, htuple, Option.map_none]
    refine bind_eq_ok.mpr ⟨_, hscan', ?_⟩
    rw [pure_eq_ok, ofScan_recast]

theorem readEnum_recast {stop : Nat} {trees : List TokenTree} {item : Item} (hne : trees ≠ [])
    (h : readEnum stop trees = .ok item) (stop' : Nat) :
    readEnum stop' (trees.map (recast e content) ++ more) = .ok (item.recast e content more) := by
  obtain ⟨name, hname, h⟩ := bind_eq_ok.mp h
  obtain ⟨rest, hgen, h⟩ := bind_eq_ok.mp h
  obtain ⟨found, hscan, h⟩ := bind_eq_ok.mp h
  rw [pure_eq_ok] at h
  subst h
  obtain ⟨hne', hname'⟩ := nameAt_recast hname stop'
  obtain ⟨hrest, hscan'⟩ := scanTo_recast hscan stop'
  rw [readEnum, tail_recast hne, tail_recast hne']
  refine bind_eq_ok.mpr ⟨name, hname', ?_⟩
  refine bind_eq_ok.mpr ⟨_, skipGenerics_recast hgen hrest stop', ?_⟩
  refine bind_eq_ok.mpr ⟨_, hscan', ?_⟩
  rw [pure_eq_ok, ofScan_recast]

theorem readFunction_recast {stop : Nat} {trees : List TokenTree} {item : Item} (hne : trees ≠ [])
    (h : readFunction stop trees = .ok item) (stop' : Nat) :
    readFunction stop' (trees.map (recast e content) ++ more) =
      .ok (item.recast e content more) := by
  obtain ⟨name, hname, h⟩ := bind_eq_ok.mp h
  obtain ⟨found, hscan, h⟩ := bind_eq_ok.mp h
  rw [pure_eq_ok] at h
  subst h
  obtain ⟨hne', hname'⟩ := nameAt_recast hname stop'
  rw [readFunction, tail_recast hne, tail_recast hne']
  refine bind_eq_ok.mpr ⟨name, hname', ?_⟩
  refine bind_eq_ok.mpr ⟨_, (scanTo_recast hscan stop').2, ?_⟩
  rw [pure_eq_ok, ofScan_recast]

theorem readBlock_recast {stop : Nat} {kind : ItemKind} {name : Option String}
    {trees : List TokenTree} {item : Item} (h : readBlock stop kind name trees = .ok item)
    (stop' : Nat) :
    readBlock stop' kind name (trees.map (recast e content) ++ more) =
      .ok (item.recast e content more) := by
  obtain ⟨found, hscan, h⟩ := bind_eq_ok.mp h
  rw [pure_eq_ok] at h
  subst h
  refine bind_eq_ok.mpr ⟨_, (scanTo_recast hscan stop').2, ?_⟩
  rw [pure_eq_ok, ofScan_recast]

theorem readLine_recast {stop : Nat} {kind : ItemKind} {name : Option String}
    {trees : List TokenTree} {item : Item} (h : readLine stop kind name trees = .ok item)
    (stop' : Nat) :
    readLine stop' kind name (trees.map (recast e content) ++ more) =
      .ok (item.recast e content more) := by
  obtain ⟨⟨last, rest⟩, hscan, h⟩ := bind_eq_ok.mp h
  rw [pure_eq_ok] at h
  subst h
  refine bind_eq_ok.mpr ⟨_, (scanTo_recast hscan stop').2, ?_⟩
  rw [pure_eq_ok, TokenTree.stop_recast]
  rfl

theorem keyword_recast {trees : List TokenTree} (h : trees ≠ []) :
    keyword (trees.map (recast e content) ++ more) = keyword trees := by
  cases trees with
  | nil => exact absurd rfl h
  | cons tree trees => simp [keyword]

/-- Where the trees are one word only, nothing but their end says that it is no alias. -/
theorem aliasName?_recast_of_settled {stop last : Nat} {trees : List TokenTree} {item : Item}
    (h : readKeyword stop last trees = .ok item) (hsettled : item.Settled trees more)
    (htype : keyword trees = "type") :
    aliasName? (trees.map (recast e content) ++ more) = aliasName? trees := by
  match trees, h, hsettled, htype with
  | [], _, _, htype => exact absurd htype (by decide)
  | _ :: next :: rest, _, _, _ => exact aliasName?_recast (.inr (List.cons_ne_nil next rest))
  | [tree], h, hsettled, htype =>
    have hmark : ∀ mark, mark ≠ "type" → tree.isPunct mark = false := by
      intro mark hne
      have htext : tree.head.text = "type" := htype
      rw [TokenTree.isPunct, Token.isPunct, htext, beq_false_of_ne hne.symm, Bool.and_false]
    have hsemi := hmark ";" (by decide)
    have hbrace := hmark "\x7b" (by decide)
    obtain ⟨hkind, hitem⟩ : item.kind = .other ∧ item.rest = [] := by
      have halias : aliasName? [tree] = none := by
        cases tree <;> rfl
      simp [readKeyword, htype, halias, skipOther, hsemi, hbrace] at h
      rw [← h]
      exact ⟨rfl, rfl⟩
    have hend : ¬ EndsItem [tree] more := by
      rintro ⟨last, hlast, hend⟩
      obtain rfl : tree = last := by simpa using hlast
      simp [hsemi, hbrace] at hend
    refine aliasName?_recast (.inl ?_)
    exact hsettled.resolve_right
      (not_or.mpr ⟨fun h => h hkind, not_or.mpr ⟨fun h => h hitem, hend⟩⟩)

theorem readKeyword_recast {stop last last' : Nat} {trees : List TokenTree} {item : Item}
    (h : readKeyword stop last trees = .ok item) (hne : trees ≠ [])
    (hsettled : item.Settled trees more) (hlast : more = [] → last' = e.stop last) (stop' : Nat) :
    readKeyword stop' last' (trees.map (recast e content) ++ more) =
      .ok (item.recast e content more) := by
  have halias : keyword trees = "type" →
      aliasName? (trees.map (recast e content) ++ more) = aliasName? trees :=
    aliasName?_recast_of_settled h hsettled
  rw [readKeyword] at h
  rw [readKeyword, keyword_recast hne, tail_recast hne]
  split at h
  · rename_i hstruct
    rw [if_pos hstruct, readStruct_recast hne h]
  rename_i hstruct
  rw [if_neg hstruct]
  split at h
  · rename_i henum
    rw [if_pos henum, readEnum_recast hne h]
  rename_i henum
  rw [if_neg henum]
  split at h
  · rename_i hfn
    rw [if_pos hfn, readFunction_recast hne h]
  rename_i hfn
  rw [if_neg hfn]
  split at h
  · rename_i hmod
    obtain ⟨name, hname, h⟩ := bind_eq_ok.mp h
    rw [if_pos hmod]
    exact bind_eq_ok.mpr ⟨name, (nameAt_recast hname stop').2, readBlock_recast h stop'⟩
  rename_i hmod
  rw [if_neg hmod]
  split at h
  · rename_i htrait
    obtain ⟨name, hname, h⟩ := bind_eq_ok.mp h
    rw [if_pos htrait]
    exact bind_eq_ok.mpr ⟨name, (nameAt_recast hname stop').2, readBlock_recast h stop'⟩
  rename_i htrait
  rw [if_neg htrait]
  split at h
  · rename_i himpl
    rw [if_pos himpl, readBlock_recast h]
  rename_i himpl
  rw [if_neg himpl]
  split at h
  · rename_i htype
    rw [halias htype.1, if_pos htype, readLine_recast h]
  rename_i htype
  have htype' : ¬ (keyword trees = "type" ∧
      (aliasName? (trees.map (recast e content) ++ more)).isSome = true) := by
    rintro ⟨hword, hsome⟩
    exact htype ⟨hword, halias hword ▸ hsome⟩
  rw [if_neg htype']
  split at h
  · rename_i huse
    rw [if_pos huse, readLine_recast h]
  rename_i huse
  rw [if_neg huse]
  cases h
  rw [skipOther_recast hlast (hsettled.imp_right fun h => h.resolve_left fun h => h rfl)]
  rfl

theorem dropVisibility_ne_nil {trees : List TokenTree} (h : EndsItem trees more) :
    Entry.dropVisibility trees ≠ [] := by
  match trees, h with
  | [], h => exact absurd rfl h.ne_nil
  | .group .. :: _, _ => exact List.cons_ne_nil _ _
  | .leaf t :: rest, h =>
    by_cases hpub : t.isWord "pub" = true
    · match rest, h with
      | [], h =>
        refine absurd h (EndsItem.not_singleton ?_)
        rw [Token.kind_of_isWord hpub]
        decide
      | .leaf u :: rest, _ =>
        simp only [Entry.dropVisibility, hpub, if_true]
        exact List.cons_ne_nil _ _
      | .group opener inner closer :: rest, h =>
        simp only [Entry.dropVisibility, hpub, if_true]
        split
        · rename_i hopen
          rintro rfl
          obtain ⟨last, hlast, hend⟩ := h.of_cons
          obtain rfl : TokenTree.group opener inner closer = last := by simpa using hlast
          simp only [Token.isPunct, Bool.and_eq_true, beq_iff_eq] at hopen
          simp [TokenTree.isPunct, TokenTree.head, Token.isPunct, hopen] at hend
        · exact List.cons_ne_nil _ _
    · rw [Bool.not_eq_true] at hpub
      rw [Entry.dropVisibility_of_not_pub hpub]
      exact List.cons_ne_nil _ _

theorem skipQualifiers_ne_nil {trees : List TokenTree} (h : EndsItem trees more) :
    skipQualifiers trees ≠ [] := by
  fun_induction skipQualifiers trees with
  | case1 t u rest _ hlit ih =>
    cases rest with
    | nil => exact absurd h.of_cons (EndsItem.not_singleton (by rw [hlit.2]; decide))
    | cons tree rest => exact ih h.of_cons.of_cons
  | case2 t u rest _ _ ih => exact ih h.of_cons
  | case3 => exact List.cons_ne_nil _ _
  | case4 t rest hleaf hq =>
    rintro rfl
    refine absurd h (EndsItem.not_singleton ?_)
    have hkind : t.kind = .ident := by
      simp only [isQualifier, Bool.and_eq_true, beq_iff_eq] at hq
      exact hq.1.1
    rw [hkind]
    decide
  | case5 => exact List.cons_ne_nil _ _
  | case6 => exact h.ne_nil

/-- **An item is read in the same way from the trees recast**, whatever follows them. -/
theorem read_recast {stop : Nat} {trees : List TokenTree} {item : Item}
    (h : read stop trees = .ok item) (hne : trees ≠ []) (hsettled : item.Settled trees more)
    (stop' : Nat) :
    read stop' (trees.map (recast e content) ++ more) = .ok (item.recast e content more) := by
  have hlast : more = [] →
      (((trees.map (recast e content) ++ more).getLast?.map TokenTree.stop).getD stop') =
        e.stop ((trees.getLast?.map TokenTree.stop).getD stop) := by
    rintro rfl
    rw [List.append_nil, List.getLast?_map, List.getLast?_eq_some_getLast hne]
    exact TokenTree.stop_recast _
  by_cases hnil : skipQualifiers (Entry.dropVisibility trees) = []
  · -- Nothing is left that the item could begin with, so it takes up everything.
    have hmore : more = [] := by
      rcases hsettled with hmore | hkind | hrest | hend
      · exact hmore
      · rw [read, hnil] at h
        cases h
        exact absurd rfl hkind
      · rw [read, hnil] at h
        cases h
        exact absurd rfl hrest
      · have hdrop := dropVisibility_ne_nil hend
        exact absurd hnil (skipQualifiers_ne_nil (hend.of_suffix (dropVisibility_suffix _) hdrop))
    rw [read, Entry.dropVisibility_recast (.inl hmore), skipQualifiers_recast (.inl hmore),
      hlast hmore, hnil, hmore]
    rw [read, hnil] at h
    cases h
    rfl
  · have hdrop : Entry.dropVisibility trees ≠ [] := by
      intro h'
      rw [h'] at hnil
      exact hnil rfl
    have hsettled' : item.Settled (skipQualifiers (Entry.dropVisibility trees)) more := by
      refine hsettled.imp_right (Or.imp_right (Or.imp_right fun hend => ?_))
      exact hend.of_suffix ((skipQualifiers_suffix _).trans (dropVisibility_suffix _)) hnil
    rw [read, Entry.dropVisibility_recast (.inr hdrop), skipQualifiers_recast (.inr hnil)]
    exact readKeyword_recast h hnil hsettled' hlast stop'

end Item

end ContractSync.Rust
