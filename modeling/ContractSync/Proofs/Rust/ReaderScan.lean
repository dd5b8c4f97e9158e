import ContractSync.Proofs.Rust.ReaderLayout
import ContractSync.Proofs.Rust.RetypeField

/-!
# Scanning by positions

**Where trees are laid out, every scan by positions comes to the position where the trees begin that the
scan of the trees leaves**, or both fail alike: no lookup fails, and every step comes further.
-/

namespace ContractSync.Rust.Reader

variable {input : Input} {trees rest a b : List TokenTree} {tree : TokenTree} {i j k limit : Nat}

/-! ### Scans -/

/-- The first mark is found. -/
theorem scanTo_agrees (hsound : input.IsSound) (marks : List String)
    (h : LaidAll input trees i limit) :
    Agrees input (fun found k => LaidAll input (found.1 :: found.2) k limit)
      (Item.scanTo (input.offset limit) marks trees) (input.scanTo i limit marks) := by
  induction trees generalizing i with
  | nil =>
    rw [Input.scanTo, dif_neg (Nat.not_lt.mpr (Nat.le_of_eq h.symm)), Item.scanTo]
    exact .fail hsound (by rw [show i = limit from h])
  | cons tree rest ih =>
    obtain ⟨k, htree, hrest⟩ := id h
    rw [Input.scanTo, dif_pos h.lt, htree.token, Item.scanTo]
    show Agrees input _ _ (if marks.any tree.isPunct = true then _ else _)
    split
    · exact .ok h
    · rcases htree.step with ⟨hopener, hskip⟩ | ⟨hopener, rfl⟩
      · rw [if_pos hopener, hskip]
        show Agrees input _ _ (dite _ _ _)
        rw [dif_pos htree.lt]
        exact ih hrest
      · rw [if_neg (by rw [hopener]; exact Bool.false_ne_true)]
        exact ih hrest

/-- Generic parameters are passed over. -/
theorem closeAngles_agrees (hsound : input.IsSound) {depth : Nat} (hdepth : 1 ≤ depth)
    (h : LaidAll input trees i limit) :
    Agrees input (fun rest k => LaidAll input rest k limit)
      (Item.closeAngles (input.offset limit) depth trees) (input.closeAngles limit i depth) := by
  induction trees generalizing i depth with
  | nil =>
    rw [Input.closeAngles, dif_neg (Nat.not_lt.mpr (Nat.le_of_eq h.symm)), Item.closeAngles]
    exact .fail hsound (by rw [show i = limit from h])
  | cons tree rest ih =>
    obtain ⟨k, htree, hrest⟩ := id h
    rw [Input.closeAngles, dif_pos h.lt, htree.token, bind_ok, Item.closeAngles]
    rcases htree.step with ⟨hopener, hskip⟩ | ⟨hopener, rfl⟩
    · have hmark : ∀ mark ∉ ["(", "[", "\x7b"], tree.isPunct mark = false := fun _ =>
        Token.isPunct_of_isOpener hopener
      simp only [hmark "<" (by decide), hmark ">" (by decide), hopener, hskip, bind_ok, htree.lt,
        Bool.false_eq_true, if_false, if_true, dite_true]
      exact ih hdepth hrest
    · simp only [hopener, Bool.false_eq_true, if_false]
      by_cases hopen : tree.isPunct "<" = true
      · have hopen' : tree.head.isPunct "<" = true := hopen
        rw [if_pos hopen, if_pos hopen']
        exact ih (Nat.le_add_left 1 depth) hrest
      have hopen' : ¬ tree.head.isPunct "<" = true := hopen
      rw [if_neg hopen, if_neg hopen']
      by_cases hclose : tree.isPunct ">" = true
      · have hclose' : tree.head.isPunct ">" = true := hclose
        rw [if_pos hclose, if_pos hclose']
        by_cases hone : depth = 1
        · rw [if_pos (Nat.le_of_eq hone), if_pos hone]
          exact .ok hrest
        · rw [if_neg (by omega), if_neg hone]
          exact ih (by omega) hrest
      · have hclose' : ¬ tree.head.isPunct ">" = true := hclose
        rw [if_neg hclose, if_neg hclose']
        exact ih hdepth hrest

theorem skipGenerics_agrees (hsound : input.IsSound) (h : LaidAll input trees i limit) :
    Agrees input (fun rest k => LaidAll input rest k limit)
      (Item.skipGenerics (input.offset limit) trees) (input.skipGenerics i limit) := by
  cases trees with
  | nil =>
    rw [Input.skipGenerics, h.isPunct_nil, bind_ok]
    exact .ok h
  | cons tree rest =>
    obtain ⟨k, htree, hrest⟩ := id h
    rw [Input.skipGenerics, h.isPunct_cons, bind_ok, Item.skipGenerics]
    cases hmark : tree.isPunct "<" with
    | false => exact .ok h
    | true =>
      rw [TokenTree.isPunct] at hmark
      rcases htree.step with ⟨hopener, -⟩ | ⟨hopener, rfl⟩
      · rw [Token.isPunct_of_isOpener hopener (by decide)] at hmark
        cases hmark
      rw [if_pos rfl, if_pos rfl, Input.closeAngles, dif_pos h.lt, htree.token, bind_ok]
      simp only [hopener, hmark, Bool.false_eq_true, if_false, if_true]
      exact closeAngles_agrees hsound (Nat.le_refl 1) hrest

/-- The comma behind the first part is found. -/
theorem scanListEntry_eq {angle depth : Nat} (hdepth : Entry.depthBehind angle a = some depth)
    (hb : b = [] ∨ depth = 0 ∧ ∃ comma more, b = .leaf comma :: more ∧ comma.isPunct "," = true)
    (h : LaidAll input (a ++ b) i limit) :
    ∃ k, input.scanListEntry i limit angle = .ok k ∧ LaidAll input a i k ∧
      LaidAll input b k limit := by
  induction a generalizing i angle with
  | nil =>
    cases hdepth
    refine ⟨i, ?_, rfl, h⟩
    rcases hb with rfl | ⟨rfl, comma, more, rfl, hcomma⟩
    · rw [Input.scanListEntry, dif_neg (Nat.not_lt.mpr (Nat.le_of_eq h.symm)), show i = limit from h]
      rfl
    · obtain ⟨k, hlaid, hmore⟩ := id h
      have hne : ∀ mark, "," ≠ mark → comma.isPunct mark = false := fun _ => Token.isPunct_of_ne hcomma
      rw [Input.scanListEntry, dif_pos h.lt, hlaid.token, bind_ok]
      simp only [TokenTree.head, hlaid.2.1, hne "<" (by decide), hne ">" (by decide), hcomma,
        Bool.false_eq_true, Bool.false_and, if_false]
      rfl
  | cons tree a ih =>
    rw [Entry.depthBehind] at hdepth
    split at hdepth
    · cases hdepth
    rename_i hcomma
    obtain ⟨m, htree, hrest⟩ := id h
    obtain ⟨k, hk, ha, hb'⟩ := ih hdepth hrest
    refine ⟨k, ?_, ⟨m, htree, ha⟩, hb'⟩
    rw [Input.scanListEntry, dif_pos h.lt, htree.token, bind_ok]
    rw [Entry.angleAfter] at hk
    simp only [TokenTree.isPunct] at hcomma hk
    rcases htree.step with ⟨hopener, hskip⟩ | ⟨hopener, rfl⟩
    · have hmark : ∀ mark ∉ ["(", "[", "\x7b"], tree.head.isPunct mark = false := fun _ =>
        Token.isPunct_of_isOpener hopener
      simp only [hmark "<" (by decide), hmark ">" (by decide), Bool.false_eq_true, if_false] at hk
      simp only [hopener, hskip, bind_ok, htree.lt, if_true, dite_true]
      exact hk
    · simp only [hopener, Bool.false_eq_true, if_false]
      cases hopen : tree.head.isPunct "<" with
      | true =>
        simp only [hopen, if_true] at hk ⊢
        exact hk
      | false =>
        cases hclose : tree.head.isPunct ">" with
        | false =>
          simp only [hopen, hclose, hcomma, Bool.false_and, Bool.false_eq_true, if_false] at hk ⊢
          exact hk
        | true =>
          have hcomma' : tree.head.isPunct "," = false := Token.isPunct_of_ne hclose (by decide)
          simp only [hopen, hclose, hcomma', Bool.false_and, Bool.true_and, decide_eq_true_eq,
            Bool.false_eq_true, if_false, if_true] at hk ⊢
          by_cases hzero : 0 < angle
          · rw [if_pos hzero]
            exact hk
          · rw [if_neg hzero]
            rwa [show angle - 1 = angle by omega] at hk

/-- What is not described is passed over. -/
theorem skipOther_eq {last : Nat} (hlast : EndsAt input limit last) (h : LaidAll input trees i limit) :
    ∃ k, input.skipOther i limit = .ok k ∧ LaidAll input (Item.skipOther last trees).2 k limit ∧
      EndsAt input k (Item.skipOther last trees).1 := by
  induction trees generalizing i with
  | nil =>
    rw [Input.skipOther, dif_neg (Nat.not_lt.mpr (Nat.le_of_eq h.symm))]
    exact ⟨limit, rfl, rfl, hlast⟩
  | cons tree rest ih =>
    obtain ⟨k, htree, hrest⟩ := id h
    rw [Input.skipOther, dif_pos h.lt, htree.token, bind_ok, Item.skipOther.eq_def]
    dsimp only
    rcases htree.step with ⟨hopener, hskip⟩ | ⟨hopener, rfl⟩
    · have hsemi : tree.head.isPunct ";" = false := Token.isPunct_of_isOpener hopener (by decide)
      rw [if_neg (Bool.eq_false_iff.mp hsemi),
        if_neg (show ¬ tree.isPunct ";" = true from Bool.eq_false_iff.mp hsemi)]
      by_cases hbrace : tree.head.isPunct "\x7b" = true
      · rw [if_pos hbrace, if_pos (show tree.isPunct "\x7b" = true from hbrace), hskip, bind_ok]
        cases rest with
        | nil =>
          rw [hrest.isPunct_nil, bind_ok]
          exact ⟨k, rfl, hrest, htree.last⟩
        | cons next more =>
          obtain ⟨m, hnext, hmore⟩ := id hrest
          rw [hrest.isPunct_cons, bind_ok]
          by_cases hnextSemi : next.isPunct ";" = true
          · rcases hnext.step with ⟨hopener', -⟩ | ⟨-, rfl⟩
            · rw [TokenTree.isPunct, Token.isPunct_of_isOpener hopener' (by decide)] at hnextSemi
              cases hnextSemi
            simp only [if_pos hnextSemi]
            exact ⟨k + 1, rfl, hmore, hnext.last⟩
          · simp only [if_neg hnextSemi]
            exact ⟨k, rfl, hrest, htree.last⟩
      · have hround : (tree.head.isPunct "(" || tree.head.isPunct "[") = true := by
          rw [Token.isOpener, Bool.or_eq_true] at hopener
          exact hopener.resolve_right hbrace
        rw [if_neg hbrace, if_neg (show ¬ tree.isPunct "\x7b" = true from hbrace), if_pos hround, hskip,
          bind_ok, dif_pos htree.lt]
        exact ih hrest
    · by_cases hsemi : tree.head.isPunct ";" = true
      · rw [if_pos hsemi, if_pos (show tree.isPunct ";" = true from hsemi)]
        exact ⟨i + 1, rfl, hrest, htree.last⟩
      rw [Token.isOpener, Bool.or_eq_false_iff] at hopener
      have hbrace : ¬ tree.head.isPunct "\x7b" = true := Bool.eq_false_iff.mp hopener.2
      rw [if_neg hsemi, if_neg (show ¬ tree.isPunct ";" = true from hsemi), if_neg hbrace,
        if_neg (show ¬ tree.isPunct "\x7b" = true from hbrace), if_neg (Bool.eq_false_iff.mp hopener.1)]
      exact ih hrest

theorem ident_agrees (hsound : input.IsSound) (what : Named) (h : LaidAll input trees i limit) :
    Agrees input (· = ·) (Item.nameAt (input.offset limit) what trees) (input.ident i limit what) := by
  rw [Input.ident, Input.tok]
  rcases trees with _ | ⟨t | ⟨opener, inner, closer⟩, rest⟩
  · rw [if_pos (Nat.le_of_eq h.symm)]
    exact .fail hsound (by rw [show i = limit from h])
  · obtain ⟨k, htree, -⟩ := id h
    rw [if_neg (Nat.not_le.mpr h.lt), htree.token_leaf, bind_ok, Item.nameAt]
    split
    · exact .ok rfl
    · exact .fail hsound htree.offset.symm
  · obtain ⟨k, htree, -⟩ := id h
    rw [if_neg (Nat.not_le.mpr h.lt), htree.token_group, bind_ok, Item.nameAt,
      if_neg (by rw [htree.kind_opener]; decide)]
    exact .fail hsound htree.offset.symm

theorem skipVisibility_eq (h : LaidAll input trees i limit) :
    ∃ k, input.skipVisibility i limit = .ok k ∧
      LaidAll input (Entry.dropVisibility trees) k limit := by
  rw [Input.skipVisibility]
  rcases trees with _ | ⟨t | ⟨opener, inner, closer⟩, rest⟩
  · rw [h.isWord_nil]
    exact ⟨i, rfl, h⟩
  · have hrest := h.tail_leaf
    rw [h.isWord_leaf, bind_ok]
    by_cases hpub : t.isWord "pub" = true
    · rw [if_pos hpub]
      rcases rest with _ | ⟨u | ⟨opener, inner, closer⟩, rest⟩
      · rw [hrest.isPunct_nil, show Entry.dropVisibility [.leaf t] = [] from if_pos hpub]
        exact ⟨i + 1, rfl, hrest⟩
      · have hopen : u.isPunct "(" = false := by
          obtain ⟨k, hleaf, -⟩ := hrest
          have := hleaf.2.1
          rw [Token.isOpener, Bool.or_eq_false_iff, Bool.or_eq_false_iff] at this
          exact this.1.1
        rw [hrest.isPunct_leaf, hopen,
          show Entry.dropVisibility (.leaf t :: .leaf u :: rest) = .leaf u :: rest from if_pos hpub]
        exact ⟨i + 1, rfl, hrest⟩
      · rw [hrest.isPunct_group, bind_ok, Entry.dropVisibility, if_pos hpub]
        split
        · obtain ⟨k, hk, hbehind⟩ := hrest.skipGroup
          exact ⟨k, hk, hbehind⟩
        · exact ⟨i + 1, rfl, hrest⟩
    · rw [if_neg hpub, Entry.dropVisibility_of_not_pub (Bool.eq_false_iff.mpr hpub)]
      exact ⟨i, rfl, h⟩
  · rw [h.isWord_group]
    exact ⟨i, rfl, h⟩

theorem isQualifier_leaf {t : Token} (h : LaidAll input (.leaf t :: rest) i limit) :
    input.isQualifier i limit = .ok (Item.isQualifier t rest) := by
  obtain ⟨k, htree, -⟩ := id h
  rw [Input.isQualifier, if_neg (Nat.not_le.mpr h.lt), htree.token_leaf, bind_ok, Item.isQualifier]
  by_cases hident : t.kind = .ident
  · rw [if_neg (not_not_intro hident), hident]
    cases hcontains : Item.qualifiers.contains t.text with
    | false => rfl
    | true =>
      by_cases hword : t.text = "const" ∨ t.text = "default"
      · have hword' : (t.text == "const" || t.text == "default") = true := by simpa using hword
        cases rest with
        | nil =>
          have hend : ¬ i + 1 < limit := Nat.not_lt.mpr (Nat.le_of_eq h.tail_leaf.symm)
          simp only [hword', hend, and_false, if_false, List.isEmpty_nil]
          rfl
        | cons next rest =>
          obtain ⟨m, hnext, -⟩ := h.tail_leaf
          simp only [hword', hword, h.tail_leaf.lt, and_true, if_true, hnext.token, bind_ok,
            List.isEmpty_cons, List.head?_cons, Option.any_some]
          simp
          rfl
      · have hword' : (t.text == "const" || t.text == "default") = false := by simpa using hword
        simp only [hword', hword, false_and, if_false]
        rfl
  · rw [if_pos hident]
    have : (t.kind == .ident) = false := beq_false_of_ne hident
    rw [this]
    rfl

theorem isQualifier_group {opener closer : Token} {inner : List TokenTree}
    (h : LaidAll input (.group opener inner closer :: rest) i limit) :
    input.isQualifier i limit = .ok false := by
  obtain ⟨k, htree, -⟩ := id h
  rw [Input.isQualifier, if_neg (Nat.not_le.mpr h.lt), htree.token_group, bind_ok,
    if_pos (by rw [htree.kind_opener]; exact nofun)]
  rfl

theorem isQualifier_nil (h : LaidAll input [] i limit) : input.isQualifier i limit = .ok false := by
  rw [Input.isQualifier, if_pos (Nat.le_of_eq h.symm)]
  rfl

/-- Only a single token is a qualifier. -/
theorem skipQualifiers_of_not_leaf (h : LaidAll input trees i limit)
    (hleaf : ∀ t rest, trees ≠ .leaf t :: rest) : input.skipQualifiers i limit = .ok i := by
  rw [Input.skipQualifiers]
  match trees with
  | [] =>
    rw [isQualifier_nil h]
    rfl
  | .leaf t :: rest => exact absurd rfl (hleaf t rest)
  | .group opener inner closer :: rest =>
    rw [isQualifier_group h]
    rfl

theorem skipQualifiers_eq (h : LaidAll input trees i limit) :
    ∃ k, input.skipQualifiers i limit = .ok k ∧
      LaidAll input (Item.skipQualifiers trees) k limit := by
  fun_induction Item.skipQualifiers trees generalizing i with
  | case1 t u rest hqualifier habi ih =>
    obtain ⟨_, ht, -⟩ := id h
    obtain ⟨_, hu, -⟩ := id h.tail_leaf
    obtain ⟨k, hk, hrest⟩ := ih h.tail_leaf.tail_leaf
    rw [Input.skipQualifiers, isQualifier_leaf h, hqualifier, bind_ok, if_pos rfl, ht.token_leaf, bind_ok,
      dif_pos h.lt, if_pos ⟨habi.1, h.tail_leaf.lt⟩, hu.token_leaf, bind_ok, if_pos habi.2]
    exact ⟨k, hk, hrest⟩
  | case2 t u rest hqualifier habi ih =>
    obtain ⟨_, ht, -⟩ := id h
    obtain ⟨_, hu, -⟩ := id h.tail_leaf
    obtain ⟨k, hk, hrest⟩ := ih h.tail_leaf
    rw [Input.skipQualifiers, isQualifier_leaf h, hqualifier, bind_ok, if_pos rfl, ht.token_leaf, bind_ok,
      dif_pos h.lt]
    refine ⟨k, ?_, hrest⟩
    split
    · rename_i hword
      rw [hu.token_leaf, bind_ok, if_neg fun hkind => habi ⟨hword.1, hkind⟩]
      exact hk
    · exact hk
  | case3 t u rest hqualifier =>
    rw [Input.skipQualifiers, isQualifier_leaf h, Bool.eq_false_iff.mpr hqualifier]
    exact ⟨i, rfl, h⟩
  | case4 t rest hleaf hqualifier =>
    obtain ⟨_, ht, -⟩ := id h
    have hbehind := skipQualifiers_of_not_leaf h.tail_leaf hleaf
    rw [Input.skipQualifiers, isQualifier_leaf h, hqualifier, bind_ok, if_pos rfl, ht.token_leaf, bind_ok,
      dif_pos h.lt]
    refine ⟨i + 1, ?_, h.tail_leaf⟩
    split
    · rename_i hword
      rcases rest with _ | ⟨u | ⟨opener, inner, closer⟩, rest⟩
      · exact absurd hword.2 (Nat.not_lt.mpr (Nat.le_of_eq h.tail_leaf.symm))
      · exact absurd rfl (hleaf u rest)
      · obtain ⟨_, hgroup, -⟩ := id h.tail_leaf
        rw [hgroup.token_group, bind_ok, if_neg (by rw [hgroup.kind_opener]; decide)]
        exact hbehind
    · exact hbehind
  | case5 t rest hrest hqualifier =>
    rw [Input.skipQualifiers, isQualifier_leaf h, Bool.eq_false_iff.mpr hqualifier]
    exact ⟨i, rfl, h⟩
  | case6 trees hleaf hleaves => exact ⟨i, skipQualifiers_of_not_leaf h hleaves, h⟩

theorem attributeContent_eq (hsound : input.IsSound) (h : LaidAll input trees i limit) :
    input.attributeContent i limit = .ok (Attribute.content trees) := by
  induction trees generalizing i with
  | nil =>
    rw [Input.attributeContent, dif_neg (Nat.not_lt.mpr (Nat.le_of_eq h.symm))]
    rfl
  | cons tree rest ih =>
    cases tree with
    | leaf t =>
      obtain ⟨k, htree, -⟩ := id h
      rw [Input.attributeContent, dif_pos h.lt, htree.token_leaf, bind_ok, Attribute.content,
        Attribute.isPathToken]
      by_cases hpath : t.kind = .ident ∨ t.text = "::"
      · rw [if_pos hpath, if_pos (by simpa using hpath), ih h.tail_leaf]
        rfl
      · have hparen : t.text ≠ "(" := fun htext => by
          have hkind := hsound.paren t (List.mem_of_getElem? htree.1) htext
          have hopener := htree.2.1
          have hopen : t.isPunct "(" = true := by rw [Token.isPunct, hkind, htext]; rfl
          rw [Token.isOpener, hopen] at hopener
          cases hopener
        rw [if_neg hpath, if_neg hparen, if_neg (by simpa using hpath)]
        rfl
    | group opener inner closer =>
      obtain ⟨k, htree, -⟩ := id h
      obtain ⟨m, hpartner, -, hcloser, -⟩ := h.tail_group
      have hpath : ¬ (opener.kind = .ident ∨ opener.text = "::") := by
        have hopener := htree.opener
        simp only [Token.isOpener, Token.isPunct, Bool.or_eq_true, Bool.and_eq_true, beq_iff_eq]
          at hopener
        rcases hopener with (⟨hkind, htext⟩ | ⟨hkind, htext⟩) | ⟨hkind, htext⟩ <;>
          rw [hkind, htext] <;> decide
      rw [Input.attributeContent, dif_pos h.lt, htree.token_group, bind_ok, Attribute.content, if_neg hpath]
      by_cases htext : opener.text = "("
      · rw [if_pos htext, if_pos (beq_iff_eq.mpr htext), hpartner, bind_ok, hcloser]
        rfl
      · rw [if_neg htext, if_neg (mt beq_iff_eq.mp htext)]
        rfl

theorem keyword_eq (h : LaidAll input trees i limit) :
    input.keyword i limit = .ok (Item.keyword trees) := by
  cases trees with
  | nil =>
    rw [Input.keyword, if_neg (Nat.not_lt.mpr (Nat.le_of_eq h.symm))]
    rfl
  | cons tree rest =>
    obtain ⟨k, htree, -⟩ := id h
    rw [Input.keyword, if_pos h.lt, htree.token]
    rfl

theorem aliasName_eq (h : LaidAll input trees.tail (i + 1) limit) :
    input.aliasName i limit = .ok (Item.aliasName? trees) := by
  match trees with
  | [] =>
    rw [Input.aliasName, if_neg (Nat.not_lt.mpr (Nat.le_of_eq h.symm))]
    rfl
  | [tree] =>
    rw [Input.aliasName, if_neg (Nat.not_lt.mpr (Nat.le_of_eq h.symm))]
    rfl
  | tree :: .leaf t :: rest =>
    obtain ⟨m, hleaf, -⟩ := id h
    rw [Input.aliasName, if_pos h.lt, hleaf.token_leaf, bind_ok, Item.aliasName?]
    split <;> rfl
  | tree :: .group opener inner closer :: rest =>
    obtain ⟨m, hgroup, -⟩ := id h
    rw [Input.aliasName, if_pos h.lt, hgroup.token_group, bind_ok,
      if_neg (by rw [hgroup.kind_opener]; exact nofun)]
    rfl

end ContractSync.Rust.Reader
