import ContractSync.Proofs.Rust.ReaderEntry

/-!
# Items by positions

An item is read from its keyword on, and put into the arena with what it holds. **Where trees are laid out,
the items are read by positions as they are read from the trees** (`parseItems_agrees`): the nodes are hung
on the one that holds them, or both ways to read fail alike. No lookup fails and every item takes at least
one token, so that no loop is stuck.
-/

namespace ContractSync.Rust

/-- What an item holds: its fields or variants, and the items inside. -/
def Item.filled (item : Item) : Except Failure (List Node × List Node) := do
  let members ← item.members
  let inside ← parseItems item.insideStop item.inside
  return (members, inside)

theorem Item.filled_of_not_isBlock {item : Item} (h : item.isBlock = false) :
    item.filled = do return (← item.members, []) := by
  rw [filled, inside_of_not_isBlock h, parseItems_of_done rfl]
  rfl

theorem Item.filled_of_isBlock {item : Item} (h : item.isBlock = true) :
    item.filled = do return ([], ← parseItems item.insideStop item.inside) := by
  rw [filled, members_of_isBlock h]
  rfl

namespace Reader

open Arena (Hung Placed)
open Attribute (lead)
open TokenTree (sizeAll)

variable {input : Input} {trees rest : List TokenTree} {tree : TokenTree} {i k limit owner itemStart : Nat}
  {arena : Arena}

/-! ### Where an item goes on -/

/-- A keyword is a single token. -/
theorem LaidAll.tail (h : LaidAll input trees i limit) {word : String} (hword : Item.keyword trees = word)
    (hmarks : word ∉ ["", "(", "[", "\x7b"]) : LaidAll input trees.tail (i + 1) limit := by
  match trees with
  | [] => exact absurd (by rw [← hword]; exact List.mem_cons_self) hmarks
  | .leaf t :: rest => exact h.tail_leaf
  | .group opener inner closer :: rest =>
    obtain ⟨_, hgroup, -⟩ := h
    have hopener := hgroup.opener
    simp only [Token.isOpener, Token.isPunct, Bool.or_eq_true, Bool.and_eq_true, beq_iff_eq] at hopener
    have htext : opener.text = word := hword
    rw [htext] at hopener
    simp only [List.mem_cons, List.not_mem_nil, or_false, not_or] at hmarks
    rcases hopener with (⟨-, h⟩ | ⟨-, h⟩) | ⟨-, h⟩
    · exact absurd h hmarks.2.1
    · exact absurd h hmarks.2.2.1
    · exact absurd h hmarks.2.2.2

/-- Behind a name. -/
theorem LaidAll.tail_name (h : LaidAll input trees i limit) {stop : Nat} {what : Named} {name : String}
    (hname : Item.nameAt stop what trees = .ok name) : LaidAll input trees.tail (i + 1) limit := by
  obtain ⟨t, rest, rfl, -⟩ := Item.nameAt_eq_ok hname
  exact h.tail_leaf

/-- What a scan for a semicolon or a body finds: a single token, or a group in braces. -/
theorem LaidAll.found (h : LaidAll input (tree :: rest) k limit)
    (hmark : ["\x7b", ";"].any tree.isPunct = true) :
    (∃ t, tree = .leaf t ∧ input.token k = .ok t ∧ t.text = ";" ∧ LaidAll input rest (k + 1) limit) ∨
      ∃ b : Group, ∃ c, tree = b.tree ∧ input.token k = .ok b.opener ∧ b.opener.isPunct "\x7b" = true ∧
        input.partner k = .ok c ∧ LaidAll input b.inner (k + 1) c ∧ input.token c = .ok b.closer ∧
          LaidAll input rest (c + 1) limit := by
  obtain ⟨_, htree, -⟩ := id h
  simp only [List.any_cons, List.any_nil, Bool.or_false, Bool.or_eq_true] at hmark
  cases tree with
  | leaf t =>
    have hbrace : t.isPunct "\x7b" = false := by
      have hopener := htree.2.1
      rw [Token.isOpener, Bool.or_eq_false_iff] at hopener
      exact hopener.2
    have hsemi : t.isPunct ";" = true := hmark.resolve_left (by
      show ¬ t.isPunct "\x7b" = true
      rw [hbrace]
      exact Bool.false_ne_true)
    rw [Token.isPunct, Bool.and_eq_true, beq_iff_eq, beq_iff_eq] at hsemi
    exact .inl ⟨t, rfl, htree.token_leaf, hsemi.2, h.tail_leaf⟩
  | group opener inner closer =>
    obtain ⟨c, hpartner, hinner, hcloser, hrest⟩ := h.tail_group
    have hbrace : opener.isPunct "\x7b" = true := hmark.resolve_right (by
      show ¬ opener.isPunct ";" = true
      rw [Token.isPunct_of_isOpener htree.opener (by decide)]
      exact Bool.false_ne_true)
    exact .inr ⟨⟨opener, inner, closer⟩, c, rfl, htree.token_group, hbrace, hpartner, hinner, hcloser, hrest⟩

theorem bodySpan_eq {b : Group} {c : Nat} (hopener : input.token k = .ok b.opener)
    (hcloser : input.token c = .ok b.closer) : input.bodySpan k c = .ok b.span := by
  rw [Input.bodySpan, hopener, bind_ok, hcloser]
  rfl

/-- The body of an item is no semicolon. -/
theorem text_of_isPunct {t : Token} {mark : String} (h : t.isPunct mark = true) : t.text = mark := by
  rw [Token.isPunct, Bool.and_eq_true, beq_iff_eq, beq_iff_eq] at h
  exact h.2

/-! ### Items by keyword -/

/-- The item stands in the arena with what it holds, and the rest is laid out behind it. -/
def Shows (input : Input) (limit : Nat) (arena : Arena) (owner itemStart : Nat) :
    Item × List Node × List Node → Nat × Nat × Arena → Prop
  | (item, members, inside), (behind, place, found) =>
    LaidAll input item.rest behind limit ∧
      Placed arena owner (.item item.kind item.name (item.body.map Group.span)) itemStart item.stop
        (members ++ inside) place found

/-- The items in a part of the positions are read as they are read from the trees. -/
def HeldAgrees (input : Input) (held : Nat → Nat → Nat → Arena → Except Halt Arena) (index limit : Nat) :
    Prop :=
  ∀ inside first last place arena, LaidAll input inside first last → index < first → last ≤ limit →
    place < arena.length → Agrees input (fun nodes found => Hung arena place nodes found)
      (parseItems (input.offset last) inside) (held first last place arena)

theorem parseLine_eq (itemStart : Nat) {stop : Nat} (kind : ItemKind) (name : Option String)
    (howner : owner < arena.length) (hrest : LaidAll input rest k limit) (hend : EndsAt input k stop) :
    ∃ found, input.parseLine k itemStart owner kind name arena = .ok found ∧
      Shows input limit arena owner itemStart (⟨kind, name, none, stop, rest⟩, [], []) found := by
  obtain ⟨t, ht, rfl⟩ := hend
  obtain ⟨found, hadd, hplaced⟩ := Arena.add_eq howner (.item kind name none) itemStart t.stop
  refine ⟨(k, arena.length, found), ?_, hrest, hplaced⟩
  rw [Input.parseLine, ht, bind_ok]
  dsimp only
  rw [hadd]
  rfl

/-- An item up to a semicolon. -/
theorem readLine_agrees (hsound : input.IsSound) {kind : ItemKind} {name : Option String}
    (hkind : kind = .typeAlias ∨ kind = .use) (howner : owner < arena.length)
    (h : LaidAll input trees i limit) :
    Agrees input (Shows input limit arena owner itemStart)
      (do
        let item ← Item.readLine (input.offset limit) kind name trees
        return (item, ← item.filled))
      (do input.parseLine ((← input.scanTo i limit [";"]) + 1) itemStart owner kind name arena) := by
  rw [Item.readLine, bind_assoc]
  refine (scanTo_agrees hsound [";"] h).bind_eq fun found k hfound hlaid => ?_
  obtain ⟨last, rest⟩ := found
  obtain ⟨_, hlast, -⟩ := id hlaid
  have hmark := Item.scanTo_mark hfound
  rw [List.any_cons, List.any_nil, Bool.or_false] at hmark
  obtain ⟨t, rfl⟩ := hlast.exists_leaf hmark (by decide)
  obtain ⟨found, hline, hshows⟩ :=
    parseLine_eq itemStart kind name howner hlaid.tail_leaf ⟨t, hlast.token_leaf, rfl⟩
  have hfilled : (Item.filled ⟨kind, name, none, t.stop, rest⟩) = .ok ([], []) := by
    rw [Item.filled_of_not_isBlock]
    · rcases hkind with rfl | rfl <;> rfl
    · rcases hkind with rfl | rfl <;> rfl
  rw [hline]
  show Agrees input _ (do return (_, ← Item.filled ⟨kind, name, none, t.stop, rest⟩)) _
  rw [hfilled]
  exact .ok hshows

/-- An item that is not described. -/
theorem skipOther_agrees {last : Nat} (hlast : EndsAt input limit last) (howner : owner < arena.length)
    (h : LaidAll input trees i limit) :
    Agrees input (Shows input limit arena owner itemStart)
      (do
        let item : Item := { kind := .other, stop := (Item.skipOther last trees).1
                             rest := (Item.skipOther last trees).2 }
        return (item, ← item.filled))
      (do input.parseLine (← input.skipOther i limit) itemStart owner .other none arena) := by
  obtain ⟨k, hk, hrest, hend⟩ := skipOther_eq hlast h
  obtain ⟨found, hline, hshows⟩ := parseLine_eq itemStart .other none howner hrest hend
  dsimp only
  rw [hk, bind_ok, hline, Item.filled_of_not_isBlock rfl]
  exact .ok hshows

theorem readFunction_agrees (hsound : input.IsSound) (howner : owner < arena.length)
    (h : LaidAll input trees i limit) (hword : Item.keyword trees = "fn") :
    Agrees input (Shows input limit arena owner itemStart)
      (do
        let item ← Item.readFunction (input.offset limit) trees
        return (item, ← item.filled))
      (input.parseFunction i limit itemStart owner arena) := by
  have htail := h.tail hword (by decide)
  rw [Item.readFunction, Input.parseFunction, bind_assoc]
  refine (ident_agrees hsound .function htail).bind_eq fun name _ hname heq => ?_
  subst heq
  rw [bind_assoc]
  refine (scanTo_agrees hsound ["\x7b", ";"] (htail.tail_name hname)).bind_eq fun found k hfound hlaid => ?_
  obtain ⟨tree, rest⟩ := found
  rcases hlaid.found (Item.scanTo_mark hfound) with ⟨t, rfl, ht, htext, hrest⟩ |
    ⟨b, c, rfl, hopener, hbrace, hpartner, -, hcloser, hrest⟩
  · obtain ⟨found, hadd, hplaced⟩ := Arena.add_eq howner (.item .function (some name) none) itemStart t.stop
    rw [ht, bind_ok, if_neg (by rw [htext]; decide), hadd]
    show Agrees input _ (do return (_, ← Item.filled ⟨.function, some name, none, t.stop, rest⟩)) _
    rw [Item.filled_of_not_isBlock rfl]
    exact .ok ⟨hrest, hplaced⟩
  · obtain ⟨found, hadd, hplaced⟩ :=
      Arena.add_eq howner (.item .function (some name) (some b.span)) itemStart b.closer.stop
    rw [hopener, bind_ok, if_pos (text_of_isPunct hbrace), hpartner, bind_ok, bodySpan_eq hopener hcloser,
      bind_ok, hcloser, bind_ok, hadd]
    show Agrees input _ (do return (_, ← Item.filled ⟨.function, some name, some b, b.closer.stop, rest⟩)) _
    rw [Item.filled_of_not_isBlock rfl]
    exact .ok ⟨hrest, hplaced⟩

theorem readEnum_agrees (hsound : input.IsSound) (howner : owner < arena.length)
    (h : LaidAll input trees i limit) (hword : Item.keyword trees = "enum") :
    Agrees input (Shows input limit arena owner itemStart)
      (do
        let item ← Item.readEnum (input.offset limit) trees
        return (item, ← item.filled))
      (input.parseEnum i limit itemStart owner arena) := by
  have htail := h.tail hword (by decide)
  rw [Item.readEnum, Input.parseEnum, bind_assoc]
  refine (ident_agrees hsound .enum_ htail).bind_eq fun name _ hname heq => ?_
  subst heq
  rw [bind_assoc]
  refine (skipGenerics_agrees hsound (htail.tail_name hname)).bind fun rest k hrest => ?_
  rw [bind_assoc]
  refine (scanTo_agrees hsound ["\x7b"] hrest).bind_eq fun found k hfound hlaid => ?_
  obtain ⟨tree, rest⟩ := found
  have hmark := Item.scanTo_mark hfound
  rw [List.any_cons, List.any_nil, Bool.or_false] at hmark
  rcases hlaid.found (by rw [List.any_cons, hmark]; rfl) with ⟨t, rfl, -, htext, -⟩ |
    ⟨b, c, rfl, hopener, hbrace, hpartner, hinner, hcloser, hrest⟩
  · have hbrace : t.text = "\x7b" := text_of_isPunct hmark
    exact absurd (hbrace.symm.trans htext) (by decide)
  obtain ⟨found, hadd, hplaced⟩ :=
    Arena.add_eq howner (.item .enum_ (some name) (some b.span)) itemStart b.closer.stop
  rw [hpartner, bind_ok, bodySpan_eq hopener hcloser, bind_ok, hcloser, bind_ok, hadd, bind_ok]
  have hmembers := parseEntries_agrees hsound (isListing_nodes fun _ => Entry.variant_of_trailing)
    (readsAlike_variant hsound) ⟨_, hcloser⟩ 0 hinner ⟨b.opener, hopener, rfl⟩ hplaced.lt
  show Agrees input _ (do return (_, ← Item.filled ⟨.enum_, some name, some b, b.closer.stop, rest⟩)) _
  rw [Item.filled_of_not_isBlock rfl, bind_assoc]
  rw [← token_start hcloser] at hmembers
  refine hmembers.bind fun nodes filled hfilled => .ok ⟨hrest, ?_⟩
  have hall := hplaced.hang hfilled howner
  rw [List.nil_append] at hall
  rwa [List.append_nil]

/-! ### Structs -/

variable {shape : Shape} {parts : List Node} {place stop : Nat} {found : Arena}

theorem finish_eq (behind : Nat) {stop' : Nat}
    (h : Placed arena owner shape itemStart stop parts place found) (howner : owner < arena.length) (hend : EndsAt input behind stop') :
    ∃ final, input.finish behind place found = .ok (behind, place, final) ∧
      Placed arena owner shape itemStart stop' parts place final := by
  obtain ⟨t, ht, rfl⟩ := hend
  obtain ⟨final, hfinal, hplaced⟩ := h.update (f := fun s => { s with stop := t.stop }) howner fun _ => rfl
  refine ⟨final, ?_, hplaced⟩
  rw [Input.finish, ht, bind_ok]
  dsimp only
  rw [hfinal]
  rfl

theorem openBody_eq {name : String} {b : Group} {c : Nat}
    (h : Placed arena owner (.item .struct_ (some name) none) itemStart stop parts place found)
    (howner : owner < arena.length) (hopener : input.token k = .ok b.opener)
    (hcloser : input.token c = .ok b.closer) :
    ∃ final, input.openBody place name k c found = .ok final ∧
      Placed arena owner (.item .struct_ (some name) (some b.span)) itemStart stop parts place final := by
  obtain ⟨final, hfinal, hplaced⟩ := h.update
    (f := fun s => { s with shape := .item .struct_ (some name) (some b.span) }) howner fun _ => rfl
  refine ⟨final, ?_, hplaced⟩
  rw [Input.openBody, bodySpan_eq hopener hcloser]
  exact hfinal

/-- A body in parentheses stands in front of the trees. -/
theorem LaidAll.tupleBody? (h : LaidAll input trees k limit) :
    (Item.tupleBody? trees = none ∧ input.isPunct k limit "(" = .ok false) ∨
      ∃ b : Group, ∃ rest c, trees = b.tree :: rest ∧ Item.tupleBody? trees = some b ∧
        input.isPunct k limit "(" = .ok true ∧ b.isTuple = true ∧ input.token k = .ok b.opener ∧
        input.partner k = .ok c ∧ LaidAll input b.inner (k + 1) c ∧ input.token c = .ok b.closer ∧
          LaidAll input rest (c + 1) limit := by
  match trees with
  | [] => exact .inl ⟨rfl, h.isPunct_nil "("⟩
  | .leaf t :: rest =>
    obtain ⟨_, hleaf, -⟩ := id h
    have hopener := hleaf.2.1
    rw [Token.isOpener, Bool.or_eq_false_iff, Bool.or_eq_false_iff] at hopener
    exact .inl ⟨rfl, (h.isPunct_leaf "(").trans (congrArg _ hopener.1.1)⟩
  | .group opener inner closer :: rest =>
    obtain ⟨_, hgroup, -⟩ := id h
    obtain ⟨c, hpartner, hinner, hcloser, hrest⟩ := h.tail_group
    rw [h.isPunct_group, Item.tupleBody?]
    by_cases hopen : opener.isPunct "(" = true
    · rw [if_pos hopen, hopen]
      exact .inr ⟨⟨opener, inner, closer⟩, rest, c, rfl, rfl, rfl, hopen, hgroup.token_group, hpartner, hinner,
        hcloser, hrest⟩
    · rw [if_neg hopen, Bool.eq_false_iff.mpr hopen]
      exact .inl ⟨rfl, rfl⟩

theorem readStruct_agrees (hsound : input.IsSound) (howner : owner < arena.length)
    (htail : LaidAll input trees.tail (i + 1) limit) :
    Agrees input (Shows input limit arena owner itemStart)
      (do
        let item ← Item.readStruct (input.offset limit) trees
        return (item, ← item.filled))
      (input.parseStruct i limit itemStart owner arena) := by
  rw [Item.readStruct, Input.parseStruct, bind_assoc]
  refine (ident_agrees hsound .struct_ htail).bind_eq fun name _ hname heq => ?_
  subst heq
  rw [bind_assoc]
  refine (skipGenerics_agrees hsound (htail.tail_name hname)).bind fun rest k hrest => ?_
  obtain ⟨added, hadd, hplaced⟩ := Arena.add_eq howner (.item .struct_ (some name) none) itemStart 0
  rw [hadd, bind_ok]
  dsimp only
  rcases hrest.tupleBody? with ⟨hbody, hpunct⟩ |
    ⟨b, rest, c, rfl, hbody, hpunct, htuple, hopener, hpartner, hinner, hcloser, hbehind⟩
  · rw [hbody, hpunct, bind_ok, if_neg Bool.false_ne_true]
    dsimp only
    rw [bind_assoc]
    refine (scanTo_agrees hsound ["\x7b", ";"] hrest).bind_eq fun found k hfound hlaid => ?_
    obtain ⟨tree, rest⟩ := found
    rcases hlaid.found (Item.scanTo_mark hfound) with ⟨t, rfl, ht, htext, hrest⟩ |
      ⟨b, c, rfl, hopener, hbrace, hpartner, hinner, hcloser, hrest⟩
    · obtain ⟨final, hfinal, hplaced⟩ := finish_eq (k + 1) hplaced howner ⟨t, ht, rfl⟩
      rw [ht, bind_ok, if_pos htext, hfinal]
      show Agrees input _ (do return (_, ← Item.filled ⟨.struct_, some name, none, t.stop, rest⟩)) _
      rw [Item.filled_of_not_isBlock rfl]
      exact .ok ⟨hrest, hplaced⟩
    · obtain ⟨opened, hopened, hplaced⟩ := openBody_eq hplaced howner hopener hcloser
      have hfields := parseEntries_agrees hsound (isListing_nodes fun _ => Entry.recordField_of_trailing)
        (readsAlike_recordField hsound) ⟨_, hcloser⟩ 0 hinner ⟨b.opener, hopener, rfl⟩ hplaced.lt
      rw [← token_start hcloser] at hfields
      have htuple : b.isTuple = false := Token.isPunct_of_ne hbrace (by decide)
      have hmembers : Item.members ⟨.struct_, some name, some b, b.closer.stop, rest⟩ =
          Entry.nodes Entry.recordField b.entries := if_neg (by rw [htuple]; exact Bool.false_ne_true)
      rw [hopener, bind_ok, if_neg (by rw [text_of_isPunct hbrace]; decide), hpartner, bind_ok, hopened, bind_ok]
      show Agrees input _ (do return (_, ← Item.filled ⟨.struct_, some name, some b, b.closer.stop, rest⟩)) _
      rw [Item.filled_of_not_isBlock rfl, hmembers, bind_assoc]
      refine hfields.bind fun nodes filled hfilled => ?_
      obtain ⟨final, hfinal, hplaced⟩ := finish_eq (c + 1) (hplaced.hang hfilled howner) howner
        ⟨b.closer, hcloser, rfl⟩
      rw [hfinal]
      rw [List.nil_append] at hplaced
      exact .ok ⟨hrest, by rwa [List.append_nil]⟩
  · obtain ⟨opened, hopened, hplaced⟩ := openBody_eq hplaced howner hopener hcloser
    obtain ⟨filled, hfields, hfilled⟩ := parseEntries_agrees hsound isListing_tupleFields readsAlike_tupleField
      ⟨_, hcloser⟩ 0 hinner ⟨b.opener, hopener, rfl⟩ hplaced.lt
    rw [← token_start hcloser] at hfilled
    rw [hbody, hpunct, bind_ok, if_pos rfl, hpartner, bind_ok, hopened, bind_ok, hfields, bind_ok]
    dsimp only
    rw [List.tail_cons, bind_assoc]
    refine (scanTo_agrees hsound [";"] hbehind).bind_eq fun found k hfound hlaid => ?_
    obtain ⟨last, rest⟩ := found
    obtain ⟨_, hlast, -⟩ := id hlaid
    have hmark := Item.scanTo_mark hfound
    rw [List.any_cons, List.any_nil, Bool.or_false] at hmark
    obtain ⟨t, rfl⟩ := hlast.exists_leaf hmark (by decide)
    obtain ⟨final, hfinal, hplaced⟩ := finish_eq (k + 1) (hplaced.hang hfilled howner) howner
      ⟨t, hlast.token_leaf, rfl⟩
    have hmembers : Item.members ⟨.struct_, some name, some b, t.stop, rest⟩ =
        .ok (Entry.tupleFields 0 b.entries) := if_pos htuple
    rw [hfinal]
    show Agrees input _ (do return (_, ← Item.filled ⟨.struct_, some name, some b, t.stop, rest⟩)) _
    rw [Item.filled_of_not_isBlock rfl, hmembers]
    rw [List.nil_append] at hplaced
    exact .ok ⟨hlaid.tail_leaf, by rwa [List.append_nil]⟩

/-! ### Items that hold others -/

variable {held : Nat → Nat → Nat → Arena → Except Halt Arena} {start : Nat}

theorem readBlock_agrees (itemStart : Nat) (hsound : input.IsSound)
    (hheld : HeldAgrees input held start limit) (hstart : start ≤ i) {kind : ItemKind} (hkind : kind = .module ∨ kind = .trait_ ∨ kind = .impl) (what : Option Named)
    (howner : owner < arena.length) (htail : LaidAll input trees.tail (i + 1) limit) :
    Agrees input (Shows input limit arena owner itemStart)
      (do
        let name ← what.mapM fun named => Item.nameAt (input.offset limit) named trees.tail
        let item ← Item.readBlock (input.offset limit) kind name trees.tail
        return (item, ← item.filled))
      (input.parseBlock held i limit itemStart owner kind what arena) := by
  have hblock : ∀ name body stop rest, Item.isBlock ⟨kind, name, body, stop, rest⟩ = true := by
    intro name body stop rest
    rcases hkind with rfl | rfl | rfl <;> rfl
  have hname : Agrees input (· = ·) (what.mapM fun named => Item.nameAt (input.offset limit) named trees.tail)
      (what.mapM (input.ident (i + 1) limit)) := by
    cases what with
    | none => exact .ok rfl
    | some named => exact (ident_agrees hsound named htail).bind fun name _ heq => .ok (congrArg some heq)
  rw [Input.parseBlock]
  refine hname.bind fun name _ heq => ?_
  subst heq
  rw [Item.readBlock, bind_assoc]
  refine (scanTo_agrees hsound ["\x7b", ";"] htail).bind_eq fun found k hfound hlaid => ?_
  obtain ⟨tree, rest⟩ := found
  rcases hlaid.found (Item.scanTo_mark hfound) with ⟨t, rfl, ht, htext, hrest⟩ |
    ⟨b, c, rfl, hopener, hbrace, hpartner, hinner, hcloser, hrest⟩
  · obtain ⟨added, hadd, hplaced⟩ := Arena.add_eq howner (.item kind name none) itemStart t.stop
    rw [ht, bind_ok, hadd, bind_ok]
    dsimp only
    rw [if_pos htext]
    show Agrees input _ (do return (_, ← Item.filled ⟨kind, name, none, t.stop, rest⟩)) _
    have hinside : Item.inside ⟨kind, name, none, t.stop, rest⟩ = [] := if_pos (hblock ..)
    rw [Item.filled_of_isBlock (hblock ..), hinside, parseItems_of_done rfl]
    exact .ok ⟨hrest, hplaced⟩
  · obtain ⟨added, hadd, hplaced⟩ := Arena.add_eq howner (.item kind name none) itemStart b.opener.stop
    obtain ⟨opened, hopened, hplaced⟩ := hplaced.update
      (f := fun s => { s with shape := .item kind name (some b.span), stop := b.closer.stop }) howner
      fun _ => rfl
    rw [hopener, bind_ok, hadd, bind_ok]
    dsimp only
    rw [if_neg (by rw [text_of_isPunct hbrace]; decide), hpartner, bind_ok, bodySpan_eq hopener hcloser, bind_ok,
      hcloser, bind_ok, hopened, bind_ok]
    show Agrees input _ (do return (_, ← Item.filled ⟨kind, name, some b, b.closer.stop, rest⟩)) _
    have hinside : Item.inside ⟨kind, name, some b, b.closer.stop, rest⟩ = b.inner := if_pos (hblock ..)
    have hstop : Item.insideStop ⟨kind, name, some b, b.closer.stop, rest⟩ = input.offset c :=
      token_start hcloser
    rw [Item.filled_of_isBlock (hblock ..), hinside, hstop, bind_assoc]
    have hfirst : start < k + 1 := by
      have := htail.le_of_suffix hlaid (Item.scanTo_suffix hfound)
      omega
    have hlast : c ≤ limit := Nat.le_of_succ_le hrest.le
    refine (hheld b.inner (k + 1) c arena.length opened hinner hfirst hlast hplaced.lt).bind
      fun nodes filled hfilled => .ok ⟨hrest, ?_⟩
    have hall := hplaced.hang hfilled howner
    rwa [List.nil_append] at hall

/-- **An item whose visibility and qualifiers are read is read by positions as it is read from the trees.** -/
theorem readKeyword_agrees (itemStart : Nat) (hsound : input.IsSound)
    (hheld : HeldAgrees input held start limit) (hstart : start ≤ i) {last : Nat} (hlast : EndsAt input limit last) (howner : owner < arena.length)
    (h : LaidAll input trees i limit) :
    Agrees input (Shows input limit arena owner itemStart)
      (do
        let item ← Item.readKeyword (input.offset limit) last trees
        return (item, ← item.filled))
      (input.parseKeyword held i limit itemStart owner arena) := by
  rw [Item.readKeyword, Input.parseKeyword, keyword_eq h, bind_ok]
  split
  · rename_i hword
    refine readStruct_agrees hsound howner ?_
    rcases hword with hword | hword
    · exact h.tail hword (by decide)
    · exact h.tail hword (by decide)
  split
  · rename_i hword
    exact readEnum_agrees hsound howner h hword
  split
  · rename_i hword
    exact readFunction_agrees hsound howner h hword
  split
  · rename_i hword
    have hblock := readBlock_agrees itemStart hsound hheld hstart (.inl rfl) (some .module) howner
      (h.tail hword (by decide))
    simpa only [bind_assoc, Option.mapM_some, map_eq_pure_bind, pure_bind] using hblock
  split
  · rename_i hword
    have hblock := readBlock_agrees itemStart hsound hheld hstart (.inr (.inl rfl)) (some .trait_)
      howner (h.tail hword (by decide))
    simpa only [bind_assoc, Option.mapM_some, map_eq_pure_bind, pure_bind] using hblock
  split
  · rename_i hword
    exact readBlock_agrees itemStart hsound hheld hstart (.inr (.inr rfl)) none howner (h.tail hword (by decide))
  by_cases htype : Item.keyword trees = "type"
  · rw [if_pos htype, aliasName_eq (h.tail htype (by decide)), bind_ok]
    dsimp only
    by_cases hname : (Item.aliasName? trees).isSome = true
    · have hboth := And.intro htype hname
      rw [if_pos hboth, if_pos hboth]
      exact readLine_agrees hsound (.inl rfl) howner h
    · have hboth := not_and_of_not_right (Item.keyword trees = "type") hname
      have huse : ¬ Item.keyword trees = "use" := by rw [htype]; decide
      rw [if_neg hboth, if_neg hboth, if_neg huse, if_neg huse]
      exact skipOther_agrees hlast howner h
  · have hboth := fun name : Option String => not_and_of_not_left (name.isSome = true) htype
    rw [if_neg (hboth _), if_neg htype]
    show Agrees input _ _ (if Item.keyword trees = "type" ∧ (none : Option String).isSome = true then _ else _)
    rw [if_neg (hboth none)]
    by_cases huse : Item.keyword trees = "use"
    · rw [if_pos huse, if_pos huse]
      exact readLine_agrees hsound (.inr rfl) howner h
    · rw [if_neg huse, if_neg huse]
      exact skipOther_agrees hlast howner h

/-! ### All items -/

/-- An item with the attributes in front of it. -/
theorem parseItem_agrees (hsound : input.IsSound) (hheld : HeldAgrees input held i limit)
    (howner : owner < arena.length) (h : LaidAll input trees i limit) (hrest : (lead trees).rest = tree :: rest)
    (hsemi : tree.isPunct ";" = false) :
    Agrees input (fun r found => LaidAll input r.1.rest found.1 limit ∧ Hung arena owner
        ((lead trees).inner ++ [r.1.toNode (lead trees).outer tree.start r.2.1 r.2.2]) found.2)
      (do
        let item ← Item.read (input.offset limit) (tree :: rest)
        return (item, ← item.filled))
      (input.parseItem held i limit owner arena) := by
  obtain ⟨first, places, led, hattributes, hlaid, hled⟩ :=
    parseAttributes_eq hsound (forall_mem_some (P := (· = owner)) rfl) howner h
  have hfirst := h.le_of_suffix hlaid (Attribute.rest_lead_suffix trees)
  rw [hrest] at hlaid
  obtain ⟨_, htree, -⟩ := id hlaid
  obtain ⟨last, hlast⟩ : ∃ last, (tree :: rest).getLast? = some last :=
    ⟨_, List.getLast?_eq_getLast_of_ne_nil (List.cons_ne_nil tree rest)⟩
  obtain ⟨behind, hbehind, hlaid'⟩ := skipVisibility_eq hlaid
  obtain ⟨cursor, hcursor, hlaid''⟩ := skipQualifiers_eq hlaid'
  have hsuffix := hlaid.le_of_suffix hlaid''
    ((Item.skipQualifiers_suffix _).trans (Item.dropVisibility_suffix _))
  have hstart : tree.head.start = tree.start := (token_start htree.token).trans htree.offset
  rw [Input.parseItem, hattributes, bind_ok, Item.read, hlast]
  dsimp only
  rw [if_neg (Nat.not_le.mpr hlaid.lt), htree.token, bind_ok,
    if_neg (show ¬ tree.head.isPunct ";" = true from Bool.eq_false_iff.mp hsemi), hbehind, bind_ok, hcursor,
    bind_ok, hstart]
  refine (readKeyword_agrees tree.start hsound hheld (Nat.le_trans hfirst hsuffix)
    (hlaid.last hlast) (Nat.lt_of_lt_of_le howner hled.grows) hlaid'').andThen fun r found hshows => ?_
  obtain ⟨item, members, inside⟩ := r
  obtain ⟨behind, place, found⟩ := found
  obtain ⟨final, hattach, hhung⟩ := hled.attach howner hshows.2
  refine ⟨(behind, final), by rw [hattach]; rfl, hshows.1, ?_⟩
  rw [← List.append_assoc] at hhung
  exact hhung

/-- How the items inside another one are read: they stand behind the position of the outer one. -/
def heldBetween (input : Input) (index limit first last place : Nat) (arena : Arena) : Except Halt Arena :=
  if _h : index < first ∧ last ≤ limit then input.parseItems first last place arena else .error .stuck

theorem parseItems_step (hlt : i < limit) :
    input.parseItems i limit owner arena = (do
      let found ← input.parseItem (heldBetween input i limit) i limit owner arena
      if i < found.1 then input.parseItems found.1 limit owner found.2 else .error .stuck) := by
  rw [Input.parseItems, dif_pos hlt]
  rfl

/-- **Where trees are laid out, the items are read by positions as they are read from the trees.** -/
theorem parseItems_agrees (hsound : input.IsSound) (howner : owner < arena.length)
    (h : LaidAll input trees i limit) :
    Agrees input (fun nodes found => Hung arena owner nodes found) (parseItems (input.offset limit) trees)
      (input.parseItems i limit owner arena) := by
  induction hlen : limit - i using Nat.strongRecOn generalizing trees i limit owner arena with
  | _ len ih =>
  by_cases hne : trees = []
  · subst hne
    rw [Input.parseItems, dif_neg (Nat.not_lt.mpr (Nat.le_of_eq h.symm)), parseItems_of_done rfl]
    exact .ok (.refl arena owner)
  have hlt := h.lt_of_ne_nil hne
  obtain ⟨first, places, led, hattributes, hlaid, hled⟩ :=
    parseAttributes_eq hsound (forall_mem_some (P := (· = owner)) rfl) howner h
  have hfirst := h.le_of_suffix hlaid (Attribute.rest_lead_suffix trees)
  rw [parseItems_step hlt]
  cases hrest : (lead trees).rest with
  | nil =>
    rw [hrest] at hlaid
    obtain rfl : first = limit := hlaid
    obtain ⟨final, htrail, hhung⟩ := hled.trail howner
    rw [parseItems_of_done hrest, Input.parseItem, hattributes, bind_ok]
    dsimp only
    rw [if_pos (Nat.le_refl first), htrail, bind_ok]
    show Agrees input _ _ (if i < first then _ else _)
    rw [if_pos hlt, Input.parseItems, dif_neg (Nat.lt_irrefl first)]
    exact .ok hhung
  | cons tree rest =>
    rw [hrest] at hlaid
    cases hsemi : tree.isPunct ";" with
    | true =>
      obtain ⟨_, htree, -⟩ := id hlaid
      obtain ⟨t, rfl⟩ := htree.exists_leaf hsemi (by decide)
      rw [parseItems_of_semicolon hrest hsemi, Input.parseItem, hattributes, bind_ok]
      dsimp only
      rw [if_neg (Nat.not_le.mpr hlaid.lt), htree.token_leaf, bind_ok, if_pos (show t.isPunct ";" = true from hsemi)]
      show Agrees input _ _ (if i < first + 1 then _ else _)
      rw [if_pos (Nat.lt_succ_of_le hfirst)]
      have hnext := ih (limit - (first + 1)) (by omega) (Nat.lt_of_lt_of_le howner hled.grows) hlaid.tail_leaf rfl
      cases hread : parseItems (input.offset limit) rest with
      | error failure =>
        rw [hread] at hnext
        exact hnext
      | ok nodes =>
        rw [hread] at hnext
        obtain ⟨final, hfinal, hhung⟩ := hnext
        rw [hfinal]
        exact .ok (hled.hung.trans hhung howner)
    | false =>
      have hheld : HeldAgrees input (heldBetween input i limit) i limit := by
        intro inside first last place arena hinside hfirst hlast hplace
        rw [heldBetween, dif_pos ⟨hfirst, hlast⟩]
        exact ih (last - first) (by omega) hplace hinside rfl
      have hsplit : parseItems (input.offset limit) trees = (do
          let r ← (do
            let item ← Item.read (input.offset limit) (tree :: rest)
            return (item, ← item.filled))
          return (lead trees).inner ++ [r.1.toNode (lead trees).outer tree.start r.2.1 r.2.2] ++
            (← parseItems (input.offset limit) r.1.rest)) := by
        rw [parseItems_of_item hrest hsemi]
        simp only [Item.filled, bind_assoc, pure_bind, List.append_assoc, List.singleton_append]
      rw [hsplit]
      refine (parseItem_agrees hsound hheld howner h hrest hsemi).bind_eq fun r found hread hfound => ?_
      obtain ⟨hbehind, hhung⟩ := hfound
      obtain ⟨item, hitem, hfilled⟩ := bind_eq_ok.mp hread
      obtain ⟨parts, -, hparts⟩ := bind_eq_ok.mp hfilled
      have hrestItem : r.1.rest = item.rest := by
        rw [pure_eq_ok.mp hparts]
      have htaken := Item.read_isTaken hitem (List.cons_ne_nil tree rest)
      have hlt' : i < found.1 := by
        have hsize := htaken.sizeAll_rest_lt
        have hadd := hlaid.eq_add
        have hadd' := hbehind.eq_add
        rw [hrestItem] at hadd'
        omega
      rw [if_pos hlt']
      exact (ih (limit - found.1) (by omega) (Nat.lt_of_lt_of_le howner hhung.grows) hbehind rfl).map
        fun nodes final hfinal => hhung.trans hfinal howner

end Reader

end ContractSync.Rust
