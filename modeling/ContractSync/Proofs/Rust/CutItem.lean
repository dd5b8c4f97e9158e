import ContractSync.Proofs.Rust.Append

/-!
# Where an item ends

An item that others follow ends with a semicolon or with a group in braces, and reading it does not look
further, but for a semicolon behind an item of no kind in particular. **So an item can be read from its own
trees alone** (`Item.read_cut`): what stands behind can be replaced.

The functions that find the end of an item have a lemma each: what they pass over, `front`, is passed over
likewise before other trees.
-/

namespace ContractSync.Rust.Item

variable {stop : Nat} {trees rest : List TokenTree} {tree : TokenTree} {item : Item}

/-! ### What is passed over -/

theorem head?_append_cons (front : List TokenTree) (tree : TokenTree) (more more' : List TokenTree) :
    (front ++ tree :: more).head? = (front ++ tree :: more').head? := by
  cases front <;> rfl

theorem scanTo_cut {marks : List String} (h : scanTo stop marks trees = .ok (tree, rest)) :
    ∃ front, trees = front ++ tree :: rest ∧
      ∀ more, scanTo stop marks (front ++ tree :: more) = .ok (tree, more) := by
  induction trees with
  | nil => cases h
  | cons first trees ih =>
    rw [scanTo] at h
    split at h
    · rename_i hmark
      cases h
      exact ⟨[], rfl, fun more => if_pos hmark⟩
    · rename_i hmark
      obtain ⟨front, rfl, hscan⟩ := ih h
      refine ⟨first :: front, rfl, fun more => ?_⟩
      rw [List.cons_append, scanTo, if_neg hmark, hscan]

theorem closeAngles_cut {depth : Nat} (h : closeAngles stop depth trees = .ok rest) :
    ∃ front, trees = front ++ rest ∧ ∀ more, closeAngles stop depth (front ++ more) = .ok more := by
  fun_induction closeAngles stop depth trees with
  | case1 => cases h
  | case2 depth tree trees hopen ih =>
    obtain ⟨front, rfl, hclose⟩ := ih h
    exact ⟨tree :: front, rfl, fun more => by rw [List.cons_append, closeAngles, if_pos hopen, hclose]⟩
  | case3 depth tree trees hopen hclose hdepth =>
    cases h
    refine ⟨[tree], rfl, fun more => ?_⟩
    rw [List.singleton_append, closeAngles, if_neg hopen, if_pos hclose, if_pos hdepth]
  | case4 depth tree trees hopen hclose hdepth ih =>
    obtain ⟨front, rfl, hrest⟩ := ih h
    refine ⟨tree :: front, rfl, fun more => ?_⟩
    rw [List.cons_append, closeAngles, if_neg hopen, if_pos hclose, if_neg hdepth, hrest]
  | case5 depth tree trees hopen hclose ih =>
    obtain ⟨front, rfl, hrest⟩ := ih h
    refine ⟨tree :: front, rfl, fun more => ?_⟩
    rw [List.cons_append, closeAngles, if_neg hopen, if_neg hclose, hrest]

/-- Generic parameters are passed over before trees that begin alike. -/
theorem skipGenerics_cut (h : skipGenerics stop trees = .ok rest) :
    ∃ front, trees = front ++ rest ∧
      ∀ more, more.head? = rest.head? → skipGenerics stop (front ++ more) = .ok more := by
  cases trees with
  | nil =>
    cases h
    refine ⟨[], rfl, fun more hmore => ?_⟩
    obtain rfl := List.head?_eq_none_iff.mp hmore
    rfl
  | cons tree trees =>
    rw [skipGenerics] at h
    split at h
    · rename_i hopen
      obtain ⟨front, rfl, hclose⟩ := closeAngles_cut h
      refine ⟨tree :: front, rfl, fun more _ => ?_⟩
      rw [List.cons_append, skipGenerics, if_pos hopen, hclose]
    · rename_i hopen
      cases h
      refine ⟨[], rfl, fun more hmore => ?_⟩
      obtain ⟨more, rfl⟩ := List.head?_eq_some_iff.mp hmore
      exact if_neg hopen

theorem dropVisibility_cut (h : Entry.dropVisibility trees = tree :: rest) :
    ∃ front, trees = front ++ tree :: rest ∧
      ∀ more, Entry.dropVisibility (front ++ tree :: more) = tree :: more := by
  rcases trees with _ | ⟨t | ⟨opener, inner, closer⟩, trees⟩
  · cases h
  · by_cases hpub : t.isWord "pub" = true
    · rcases trees with _ | ⟨u | ⟨opener, inner, closer⟩, trees⟩
      · cases (show Entry.dropVisibility [.leaf t] = [] from if_pos hpub).symm.trans h
      · simp only [Entry.dropVisibility, hpub, if_true] at h
        cases h
        exact ⟨[.leaf t], rfl, fun more => by
          simp only [List.singleton_append, Entry.dropVisibility, hpub, if_true]⟩
      · by_cases hopen : opener.isPunct "(" = true
        · simp only [Entry.dropVisibility, hpub, hopen, if_true] at h
          cases h
          exact ⟨[.leaf t, .group opener inner closer], rfl, fun more => by
            simp only [List.cons_append, List.nil_append, Entry.dropVisibility, hpub, hopen, if_true]⟩
        · simp only [Entry.dropVisibility, hpub, hopen, if_true] at h
          cases h
          exact ⟨[.leaf t], rfl, fun more => by
            simp only [List.singleton_append, Entry.dropVisibility, hpub, hopen, if_true,
              Bool.false_eq_true, if_false]⟩
    · rw [Bool.not_eq_true] at hpub
      rw [Entry.dropVisibility_of_not_pub hpub] at h
      cases h
      exact ⟨[], rfl, fun more => Entry.dropVisibility_of_not_pub hpub more⟩
  · cases h
    exact ⟨[], rfl, fun _ => rfl⟩

/-- Whether a word is a qualifier is seen from the next tree. -/
theorem isQualifier_congr (t : Token) {more : List TokenTree} (h : more.head? = rest.head?) :
    isQualifier t more = isQualifier t rest := by
  cases more <;> cases rest <;> cases h <;> rfl

theorem skipQualifiers_cut (h : skipQualifiers trees = tree :: rest) {more : List TokenTree}
    (hmore : more.head? = rest.head? ∨ tree.head.kind ≠ .ident) :
    ∃ front, trees = front ++ tree :: rest ∧ skipQualifiers (front ++ tree :: more) = tree :: more := by
  have hstays : ∀ t, isQualifier t rest = false → tree = .leaf t → isQualifier t more = false := by
    rintro t hq rfl
    rcases hmore with hmore | hkind
    · exact (isQualifier_congr t hmore).trans hq
    · have hkind' : (t.kind == .ident) = false := beq_false_of_ne hkind
      rw [isQualifier, hkind', Bool.false_and, Bool.false_and]
  fun_induction skipQualifiers trees with
  | case1 t u trees hq hlit ih =>
    obtain ⟨front, rfl, hskip⟩ := ih h
    refine ⟨.leaf t :: .leaf u :: front, rfl, ?_⟩
    have hq' : isQualifier t (.leaf u :: (front ++ tree :: more)) = true := hq
    rw [List.cons_append, List.cons_append, skipQualifiers, if_pos hq', if_pos hlit, hskip]
  | case2 t u trees hq hlit ih =>
    obtain ⟨front, htrees, hskip⟩ := ih h
    have hhead := head?_append_cons front tree more rest
    rw [← htrees] at hhead
    obtain ⟨behind, hbehind⟩ := List.head?_eq_some_iff.mp hhead
    refine ⟨.leaf t :: front, by rw [htrees, List.cons_append], ?_⟩
    have hq' : isQualifier t (.leaf u :: behind) = true := hq
    rw [List.cons_append, hbehind, skipQualifiers, if_pos hq', if_neg hlit, ← hbehind, hskip]
  | case3 t u trees hq =>
    cases h
    exact ⟨[], rfl, skipQualifiers_of_not (hstays t (Bool.eq_false_iff.mpr hq) rfl)⟩
  | case4 t trees hleaf hq =>
    subst h
    have hq' : isQualifier t (tree :: more) = true := hq
    cases tree with
    | leaf u => exact absurd rfl (hleaf u rest)
    | group opener inner closer => exact ⟨[.leaf t], rfl, if_pos hq'⟩
  | case5 t trees hleaf hq =>
    cases h
    exact ⟨[], rfl, skipQualifiers_of_not (hstays t (Bool.eq_false_iff.mpr hq) rfl)⟩
  | case6 trees hleaf hcons =>
    subst h
    cases tree with
    | leaf t => exact absurd rfl (hcons t rest)
    | group opener inner closer => exact ⟨[], rfl, rfl⟩

/-! ### Items by keyword -/

/-- The item ends with the tree: a semicolon, or a group in braces. Behind the group of an item of no kind
in particular there is no semicolon. -/
def EndsWith (item : Item) (last : TokenTree) : Prop :=
  last.isPunct ";" = true ∨ last.isPunct "\x7b" = true ∧
    (item.kind = .other → (item.rest.head?.any (·.isPunct ";")) = false)

/-- The item that is read from the trees is read from the first of them alone, up to where it ends. -/
def IsCutOff (read : List TokenTree → Except Failure Item) (trees : List TokenTree) (item : Item) : Prop :=
  ∃ front last, trees = front ++ last :: item.rest ∧ item.EndsWith last ∧
    read (front ++ [last]) = .ok { item with rest := [] }

theorem endsWith_of_marks {last : TokenTree} {marks : List String} (hkind : item.kind ≠ .other)
    (hmarks : marks ⊆ ["\x7b", ";"]) (h : marks.any last.isPunct = true) : item.EndsWith last := by
  obtain ⟨mark, hmem, hmark⟩ := List.any_eq_true.mp h
  have hmem' := hmarks hmem
  simp only [List.mem_cons, List.not_mem_nil, or_false] at hmem'
  rcases hmem' with rfl | rfl
  · exact .inr ⟨hmark, fun h => absurd h hkind⟩
  · exact .inl hmark

/-- An item that ends where a scan stops. -/
theorem ofScan_cut (kind : ItemKind) (name : Option String) {marks : List String}
    {found : TokenTree × List TokenTree} (h : scanTo stop marks trees = .ok found)
    (hkind : kind ≠ .other) (hmarks : marks ⊆ ["\x7b", ";"]) :
    ∃ front last, trees = front ++ last :: (ofScan kind name found).rest ∧
      (ofScan kind name found).EndsWith last ∧ scanTo stop marks (front ++ [last]) = .ok (last, []) ∧
      ofScan kind name (last, []) = { ofScan kind name found with rest := [] } := by
  obtain ⟨last, rest⟩ := found
  obtain ⟨front, rfl, hscan⟩ := scanTo_cut h
  refine ⟨front, last, ?_, endsWith_of_marks ?_ hmarks (scanTo_mark h), hscan [], ?_⟩
  · cases last <;> rfl
  · cases last <;> exact hkind
  · cases last <;> rfl

theorem tupleBody?_congr {more : List TokenTree} (h : more.head? = rest.head?) :
    tupleBody? more = tupleBody? rest := by
  cases rest with
  | nil => rw [List.head?_eq_none_iff.mp h]
  | cons tree rest =>
    obtain ⟨more, rfl⟩ := List.head?_eq_some_iff.mp h
    cases tree <;> rfl

theorem readStruct_cut (h : readStruct stop trees = .ok item) (hne : trees ≠ []) :
    IsCutOff (readStruct stop) trees item := by
  obtain ⟨keyword, trees, rfl⟩ := List.exists_cons_of_ne_nil hne
  obtain ⟨name, hname, hbehind⟩ := bind_eq_ok.mp h
  obtain ⟨rest, hgen, hbody⟩ := bind_eq_ok.mp hbehind
  clear h hbehind
  obtain ⟨t, trees, rfl, hname'⟩ := nameAt_eq_ok (show nameAt stop _ trees = _ from hname)
  obtain ⟨generics, rfl, hgen'⟩ := skipGenerics_cut (show skipGenerics stop trees = _ from hgen)
  cases htuple : tupleBody? rest with
  | some body =>
    simp only [htuple] at hbody
    obtain ⟨⟨last, behind⟩, hscan, hitem⟩ := bind_eq_ok.mp hbody
    clear hbody
    rw [pure_eq_ok] at hitem
    subst hitem
    obtain ⟨rest, rfl, -⟩ := tupleBody?_eq_some htuple
    obtain ⟨front, rfl, hscan'⟩ := scanTo_cut (show scanTo stop _ rest = _ from hscan)
    have hlast : last.isPunct ";" = true := by simpa using scanTo_mark hscan
    refine ⟨keyword :: .leaf t :: (generics ++ body.tree :: front), last, by simp, .inl hlast, ?_⟩
    have htrees : (keyword :: .leaf t :: (generics ++ body.tree :: front)) ++ [last] =
        keyword :: .leaf t :: (generics ++ body.tree :: (front ++ [last])) := by simp
    rw [htrees]
    refine bind_eq_ok.mpr ⟨name, hname' _, bind_eq_ok.mpr ⟨_, hgen' _ rfl, ?_⟩⟩
    have htuple' : tupleBody? (body.tree :: (front ++ [last])) = some body :=
      (tupleBody?_congr rfl).trans htuple
    simp only [htuple']
    exact bind_eq_ok.mpr ⟨_, hscan' [], rfl⟩
  | none =>
    simp only [htuple] at hbody
    obtain ⟨found, hscan, hitem⟩ := bind_eq_ok.mp hbody
    clear hbody
    rw [pure_eq_ok] at hitem
    subst hitem
    obtain ⟨front, last, rfl, hends, hscan', hitem⟩ :=
      ofScan_cut .struct_ (some name) hscan nofun (by decide)
    refine ⟨keyword :: .leaf t :: (generics ++ front), last, by simp, hends, ?_⟩
    have htrees : (keyword :: .leaf t :: (generics ++ front)) ++ [last] =
        keyword :: .leaf t :: (generics ++ (front ++ [last])) := by simp
    rw [htrees]
    have hhead := head?_append_cons front last [] (ofScan .struct_ (some name) found).rest
    refine bind_eq_ok.mpr ⟨name, hname' _, bind_eq_ok.mpr ⟨_, hgen' _ hhead, ?_⟩⟩
    simp only [tupleBody?_congr hhead, htuple]
    exact bind_eq_ok.mpr ⟨_, hscan', pure_eq_ok.mpr hitem.symm⟩

theorem readEnum_cut (h : readEnum stop trees = .ok item) (hne : trees ≠ []) :
    IsCutOff (readEnum stop) trees item := by
  obtain ⟨keyword, trees, rfl⟩ := List.exists_cons_of_ne_nil hne
  obtain ⟨name, hname, h⟩ := bind_eq_ok.mp h
  obtain ⟨rest, hgen, h⟩ := bind_eq_ok.mp h
  obtain ⟨found, hscan, h⟩ := bind_eq_ok.mp h
  rw [pure_eq_ok] at h
  subst h
  obtain ⟨t, trees, rfl, hname'⟩ := nameAt_eq_ok (show nameAt stop _ trees = _ from hname)
  obtain ⟨generics, rfl, hgen'⟩ := skipGenerics_cut (show skipGenerics stop trees = _ from hgen)
  obtain ⟨front, last, rfl, hends, hscan', hitem⟩ :=
    ofScan_cut .enum_ (some name) hscan nofun (by decide)
  refine ⟨keyword :: .leaf t :: (generics ++ front), last, by simp, hends, ?_⟩
  have htrees : (keyword :: .leaf t :: (generics ++ front)) ++ [last] =
      keyword :: .leaf t :: (generics ++ (front ++ [last])) := by simp
  rw [htrees]
  have hhead := head?_append_cons front last [] (ofScan .enum_ (some name) found).rest
  refine bind_eq_ok.mpr ⟨name, hname' _, bind_eq_ok.mpr ⟨_, hgen' _ hhead, ?_⟩⟩
  exact bind_eq_ok.mpr ⟨_, hscan', pure_eq_ok.mpr hitem.symm⟩

theorem readFunction_cut (h : readFunction stop trees = .ok item) (hne : trees ≠ []) :
    IsCutOff (readFunction stop) trees item := by
  obtain ⟨keyword, trees, rfl⟩ := List.exists_cons_of_ne_nil hne
  obtain ⟨name, hname, h⟩ := bind_eq_ok.mp h
  obtain ⟨found, hscan, h⟩ := bind_eq_ok.mp h
  rw [pure_eq_ok] at h
  subst h
  obtain ⟨t, trees, rfl, hname'⟩ := nameAt_eq_ok (show nameAt stop _ trees = _ from hname)
  obtain ⟨front, last, rfl, hends, hscan', hitem⟩ :=
    ofScan_cut .function (some name) (show scanTo stop _ trees = _ from hscan) nofun (by decide)
  refine ⟨keyword :: .leaf t :: front, last, rfl, hends, ?_⟩
  refine bind_eq_ok.mpr ⟨name, hname' _, ?_⟩
  exact bind_eq_ok.mpr ⟨_, hscan', pure_eq_ok.mpr hitem.symm⟩

theorem readBlock_cut {kind : ItemKind} {name : Option String}
    (h : readBlock stop kind name trees = .ok item) (hkind : kind ≠ .other) :
    IsCutOff (readBlock stop kind name) trees item := by
  obtain ⟨found, hscan, h⟩ := bind_eq_ok.mp h
  rw [pure_eq_ok] at h
  subst h
  obtain ⟨front, last, htrees, hends, hscan', hitem⟩ :=
    ofScan_cut kind name hscan hkind (by decide)
  exact ⟨front, last, htrees, hends, bind_eq_ok.mpr ⟨_, hscan', pure_eq_ok.mpr hitem.symm⟩⟩

/-- A block from its keyword on. -/
theorem readBlock_tail_cut {kind : ItemKind} {name : Option String}
    (h : readBlock stop kind name trees.tail = .ok item) (hkind : kind ≠ .other) (hne : trees ≠ []) :
    IsCutOff (fun trees => readBlock stop kind name trees.tail) trees item := by
  obtain ⟨keyword, trees, rfl⟩ := List.exists_cons_of_ne_nil hne
  obtain ⟨front, last, htrees, hends, hread⟩ := readBlock_cut h hkind
  exact ⟨keyword :: front, last, congrArg (keyword :: ·) htrees, hends, hread⟩

/-- A block with a name behind its keyword. -/
theorem readNamed_cut {kind : ItemKind} {what : Named}
    (h : (do readBlock stop kind (some (← nameAt stop what trees.tail)) trees.tail) = .ok item)
    (hkind : kind ≠ .other) (hne : trees ≠ []) :
    IsCutOff (fun trees => do readBlock stop kind (some (← nameAt stop what trees.tail)) trees.tail)
      trees item := by
  obtain ⟨keyword, trees, rfl⟩ := List.exists_cons_of_ne_nil hne
  obtain ⟨name, hname, h⟩ := bind_eq_ok.mp h
  obtain ⟨front, last, htrees, hends, hread⟩ := readBlock_cut h hkind
  rw [List.tail_cons] at htrees hname
  obtain ⟨t, rest, ht, hname'⟩ := nameAt_eq_ok hname
  have hhead := head?_append_cons front last [] item.rest
  rw [← htrees, ht] at hhead
  obtain ⟨more, hmore⟩ := List.head?_eq_some_iff.mp hhead
  refine ⟨keyword :: front, last, by rw [htrees]; rfl, hends, bind_eq_ok.mpr ⟨name, ?_, hread⟩⟩
  rw [List.cons_append, List.tail_cons, hmore]
  exact hname' more

theorem readLine_cut {kind : ItemKind} {name : Option String}
    (h : readLine stop kind name trees = .ok item) : IsCutOff (readLine stop kind name) trees item := by
  obtain ⟨⟨last, rest⟩, hscan, h⟩ := bind_eq_ok.mp h
  rw [pure_eq_ok] at h
  subst h
  obtain ⟨front, rfl, hscan'⟩ := scanTo_cut hscan
  have hlast : last.isPunct ";" = true := by simpa using scanTo_mark hscan
  exact ⟨front, last, rfl, .inl hlast, bind_eq_ok.mpr ⟨_, hscan' [], rfl⟩⟩

theorem skipOther_cut {last itemStop : Nat} (h : skipOther last trees = (itemStop, rest))
    (hrest : rest ≠ []) :
    ∃ front tree, trees = front ++ tree :: rest ∧
      (tree.isPunct ";" = true ∨
        tree.isPunct "\x7b" = true ∧ (rest.head?.any (·.isPunct ";")) = false) ∧
      ∀ last, skipOther last (front ++ [tree]) = (itemStop, []) := by
  fun_induction skipOther last trees with
  | case1 =>
    cases h
    exact absurd rfl hrest
  | case2 tree trees hsemi =>
    cases h
    refine ⟨[], tree, rfl, .inl hsemi, fun last => ?_⟩
    rw [List.nil_append, skipOther.eq_def]
    simp only [hsemi, if_true]
  | case3 tree hsemi hbrace next trees hnext =>
    cases h
    refine ⟨[tree], next, rfl, .inl hnext, fun last => ?_⟩
    rw [List.singleton_append, skipOther.eq_def]
    simp only [hsemi, hbrace, hnext, Bool.false_eq_true, if_true, if_false]
  | case4 tree hsemi hbrace next trees hnext =>
    cases h
    refine ⟨[], tree, rfl, .inr ⟨hbrace, Bool.eq_false_iff.mpr hnext⟩, fun last => ?_⟩
    rw [List.nil_append, skipOther.eq_def]
    simp only [hsemi, hbrace, Bool.false_eq_true, if_true, if_false]
  | case5 tree hsemi hbrace =>
    cases h
    exact absurd rfl hrest
  | case6 tree trees hsemi hbrace ih =>
    obtain ⟨front, found, rfl, hends, hskip⟩ := ih h
    refine ⟨tree :: front, found, rfl, hends, fun last => ?_⟩
    rw [List.cons_append, skipOther.eq_def]
    simp only [hsemi, hbrace, Bool.false_eq_true, if_false]
    exact hskip last

theorem skipOther_item_cut {last : Nat}
    (h : .ok { kind := .other, stop := (skipOther last trees).1, rest := (skipOther last trees).2 } =
      (.ok item : Except Failure Item)) (hrest : item.rest ≠ []) (last' : Nat) :
    IsCutOff (fun trees =>
      .ok { kind := .other, stop := (skipOther last' trees).1, rest := (skipOther last' trees).2 })
      trees item := by
  cases h
  obtain ⟨front, tree, htrees, hends, hskip⟩ := skipOther_cut (Prod.eta (skipOther last trees)).symm hrest
  refine ⟨front, tree, htrees, hends.imp_right fun h => ⟨h.1, fun _ => h.2⟩, ?_⟩
  simp only [hskip]

theorem EndsWith.kind_ne {last : TokenTree} (h : item.EndsWith last) : last.head.kind ≠ .ident := by
  have hmark : ∀ mark, last.isPunct mark = true → last.head.kind ≠ .ident := by
    intro mark h
    rw [TokenTree.isPunct, Token.isPunct, Bool.and_eq_true, beq_iff_eq] at h
    rw [h.1]
    decide
  exact h.elim (hmark _) fun h => hmark _ h.1

/-- The word that says what an item is, and the name of an alias, stand in front of its end. -/
theorem keyword_cut {front more : List TokenTree} (last : TokenTree) :
    keyword (front ++ last :: more) = keyword (front ++ [last]) := by
  rw [keyword, keyword, head?_append_cons front last more []]

theorem aliasName?_cut {front more : List TokenTree} (last : TokenTree) (hne : front ≠ []) :
    aliasName? (front ++ last :: more) = aliasName? (front ++ [last]) := by
  match front, hne with
  | [_], _ => cases last <;> rfl
  | _ :: .leaf _ :: _, _ | _ :: .group .. :: _, _ => rfl

theorem EndsWith.text_ne {last : TokenTree} (h : item.EndsWith last) : last.head.text ≠ "type" := by
  have hmark : ∀ mark, mark ≠ "type" → last.isPunct mark = true → last.head.text ≠ "type" := by
    intro mark hne h
    rw [TokenTree.isPunct, Token.isPunct, Bool.and_eq_true, beq_iff_eq, beq_iff_eq] at h
    rwa [h.2]
  exact h.elim (hmark _ (by decide)) fun h => hmark _ (by decide) h.1

/-- How an item is read depends on its keyword, and on the name of an alias. -/
theorem readKeyword_eq {last : Nat} {more : List TokenTree} (hkeyword : keyword more = keyword trees)
    (halias : keyword trees = "type" → aliasName? more = aliasName? trees) :
    readKeyword stop last more =
      if keyword trees = "struct" ∨ keyword trees = "union" then readStruct stop more
      else if keyword trees = "enum" then readEnum stop more
      else if keyword trees = "fn" then readFunction stop more
      else if keyword trees = "mod" then do
        readBlock stop .module (some (← nameAt stop .module more.tail)) more.tail
      else if keyword trees = "trait" then do
        readBlock stop .trait_ (some (← nameAt stop .trait_ more.tail)) more.tail
      else if keyword trees = "impl" then readBlock stop .impl none more.tail
      else if keyword trees = "type" ∧ (aliasName? trees).isSome then
        readLine stop .typeAlias (aliasName? trees) more
      else if keyword trees = "use" then readLine stop .use none more
      else .ok { kind := .other, stop := (skipOther last more).1, rest := (skipOther last more).2 } := by
  rw [readKeyword, hkeyword]
  by_cases htype : keyword trees = "type"
  · rw [halias htype]
  · simp only [htype, false_and, if_false]

theorem readKeyword_cut {last : Nat} (h : readKeyword stop last trees = .ok item) (hne : trees ≠ [])
    (hrest : item.rest ≠ []) (last' : Nat) : IsCutOff (readKeyword stop last') trees item := by
  have hcut : ∀ {read : List TokenTree → Except Failure Item}, IsCutOff read trees item →
      (∀ more, keyword more = keyword trees →
        (keyword trees = "type" → aliasName? more = aliasName? trees) →
          readKeyword stop last' more = read more) →
      IsCutOff (readKeyword stop last') trees item := by
    rintro read ⟨front, last, rfl, hends, hread⟩ heq
    refine ⟨front, last, rfl, hends, (heq _ (keyword_cut last).symm fun htype => ?_).trans hread⟩
    refine (aliasName?_cut last ?_).symm
    rintro rfl
    exact hends.text_ne htype
  rw [readKeyword] at h
  split at h
  · rename_i hstruct
    refine hcut (readStruct_cut h hne) fun more hkeyword halias => ?_
    rw [readKeyword_eq hkeyword halias, if_pos hstruct]
  rename_i hstruct
  split at h
  · rename_i henum
    refine hcut (readEnum_cut h hne) fun more hkeyword halias => ?_
    rw [readKeyword_eq hkeyword halias, if_neg hstruct, if_pos henum]
  rename_i henum
  split at h
  · rename_i hfn
    refine hcut (readFunction_cut h hne) fun more hkeyword halias => ?_
    rw [readKeyword_eq hkeyword halias, if_neg hstruct, if_neg henum, if_pos hfn]
  rename_i hfn
  split at h
  · rename_i hmod
    refine hcut (readNamed_cut h (by decide) hne) fun more hkeyword halias => ?_
    rw [readKeyword_eq hkeyword halias, if_neg hstruct, if_neg henum, if_neg hfn, if_pos hmod]
  rename_i hmod
  split at h
  · rename_i htrait
    refine hcut (readNamed_cut h (by decide) hne) fun more hkeyword halias => ?_
    rw [readKeyword_eq hkeyword halias, if_neg hstruct, if_neg henum, if_neg hfn, if_neg hmod,
      if_pos htrait]
  rename_i htrait
  split at h
  · rename_i himpl
    refine hcut (readBlock_tail_cut h (by decide) hne) fun more hkeyword halias => ?_
    rw [readKeyword_eq hkeyword halias, if_neg hstruct, if_neg henum, if_neg hfn, if_neg hmod,
      if_neg htrait, if_pos himpl]
  rename_i himpl
  split at h
  · rename_i htype
    refine hcut (readLine_cut h) fun more hkeyword halias => ?_
    rw [readKeyword_eq hkeyword halias, if_neg hstruct, if_neg henum, if_neg hfn, if_neg hmod,
      if_neg htrait, if_neg himpl, if_pos htype]
  rename_i htype
  split at h
  · rename_i huse
    refine hcut (readLine_cut h) fun more hkeyword halias => ?_
    rw [readKeyword_eq hkeyword halias, if_neg hstruct, if_neg henum, if_neg hfn, if_neg hmod,
      if_neg htrait, if_neg himpl, if_neg htype, if_pos huse]
  rename_i huse
  refine hcut (skipOther_item_cut h hrest last') fun more hkeyword halias => ?_
  rw [readKeyword_eq hkeyword halias, if_neg hstruct, if_neg henum, if_neg hfn, if_neg hmod,
    if_neg htrait, if_neg himpl, if_neg htype, if_neg huse]

/-- Visibility and qualifiers are passed over likewise before the trees up to the end. -/
theorem skipFront_cut {front : List TokenTree} {last : TokenTree}
    (h : skipQualifiers (Entry.dropVisibility trees) = front ++ last :: rest)
    (hlast : last.head.kind ≠ .ident) :
    ∃ skipped, trees = skipped ++ (front ++ last :: rest) ∧
      skipQualifiers (Entry.dropVisibility (skipped ++ (front ++ [last]))) = front ++ [last] := by
  obtain ⟨first, more, behind, hmore, hbehind, hhead⟩ : ∃ first more behind,
      front ++ [last] = first :: more ∧ front ++ last :: rest = first :: behind ∧
        (more.head? = behind.head? ∨ first.head.kind ≠ .ident) := by
    cases front with
    | nil => exact ⟨last, [], rest, rfl, rfl, .inr hlast⟩
    | cons first front => exact ⟨first, _, _, rfl, rfl, .inl (head?_append_cons front last [] rest)⟩
  rw [hbehind] at h
  obtain ⟨words, hwords, hskip⟩ := skipQualifiers_cut h hhead
  -- What is left behind the visibility begins alike as well.
  obtain ⟨next, behind', hnext⟩ := List.exists_cons_of_ne_nil
    (List.append_ne_nil_of_right_ne_nil words (List.cons_ne_nil first behind))
  have hnext' := head?_append_cons words first more behind
  rw [hnext] at hnext'
  obtain ⟨more', hmore'⟩ := List.head?_eq_some_iff.mp hnext'
  obtain ⟨visibility, rfl, hdrop⟩ := dropVisibility_cut (hwords.trans hnext)
  refine ⟨visibility ++ words, ?_, ?_⟩
  · rw [hbehind, List.append_assoc, hnext]
  · rw [hmore, List.append_assoc, hmore', hdrop, ← hmore', hskip]

/-- **An item that others follow is read from its own trees alone.** -/
theorem read_cut (h : read stop trees = .ok item) (hrest : item.rest ≠ []) :
    IsCutOff (read stop) trees item := by
  have hne : skipQualifiers (Entry.dropVisibility trees) ≠ [] := by
    intro hnil
    rw [read, hnil] at h
    cases h
    exact hrest rfl
  have hkeyword := @readKeyword_cut _ _ _ _ h hne hrest
  obtain ⟨front, last, hskip, hends, -⟩ := hkeyword 0
  obtain ⟨skipped, htrees, hskip'⟩ := skipFront_cut hskip hends.kind_ne
  refine ⟨skipped ++ front, last, by rw [htrees, List.append_assoc], hends, ?_⟩
  rw [List.append_assoc, read, hskip']
  obtain ⟨front', last', hsame, -, hread⟩ :=
    hkeyword (((skipped ++ (front ++ [last])).getLast?.map TokenTree.stop).getD stop)
  have hcut : front ++ [last] = front' ++ [last'] := by
    rw [hskip, List.append_cons, List.append_cons front'] at hsame
    exact List.append_cancel_right hsame
  rw [hcut] at hread ⊢
  exact hread

end ContractSync.Rust.Item
