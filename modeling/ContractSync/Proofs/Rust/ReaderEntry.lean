import ContractSync.Proofs.Rust.ReaderArena
import ContractSync.Proofs.Rust.ReaderScan

/-!
# Fields and variants by positions

A list between two delimiters is divided at its commas. Its first entry stands in front of the end of the
list or of a comma (`IsNext`); attributes, visibility and names stand in front of its type, and do not look
behind the comma. **A list is read by positions as its entries are read one by one**
(`parseEntries_agrees`), be they fields or variants.
-/

/-!
## Attributes by positions

**Attributes are read where they are laid out** (`parseAttributes_eq`): nothing fails, the inner ones are
hung on their owner, and the outer ones stand in new places of the arena until it is known what they belong
to. Inner attributes without an owner are named by nothing.
-/

namespace ContractSync.Rust.Reader

open Arena (Led Hung)
open Attribute (lead)

variable {input : Input} {trees rest inner : List TokenTree} {i j limit owner : Nat} {arena : Arena}

theorem attributeSlot_eq (hsound : input.IsSound) {hash closer : Token} {first last : Nat}
    (hhash : input.token i = .ok hash) (hinner : LaidAll input inner (first + 1) last)
    (hcloser : input.token last = .ok closer) (isInner : Bool) :
    ∃ shape, input.attributeSlot i first last isInner =
        .ok { shape, start := hash.start, itemStart := hash.start, stop := closer.stop } ∧
      Attribute.node hash.start isInner inner closer =
        .mk shape hash.start hash.start closer.stop [] := by
  rw [Input.attributeSlot, attributeContent_eq hsound hinner, bind_ok]
  dsimp only
  rw [hhash, bind_ok, hcloser, Attribute.node]
  exact ⟨_, rfl, rfl⟩

/-- An attribute that stands between brackets is read, and what follows it. -/
theorem parseAttributes_step {inside : Bool} {holder : Option Nat} {opener closer : Nat} {slot : Slot}
    {place : Nat} {first found : Arena} {next : Nat} {places : List Nat}
    (hhash : input.isPunct i limit "#" = .ok true) (hbang : input.isPunct (i + 1) limit "!" = .ok inside)
    (hopener : (i + if inside then 2 else 1) = opener)
    (hbracket : input.isPunct opener limit "[" = .ok true) (hpartner : input.partner opener = .ok closer)
    (hslot : input.attributeSlot i opener closer inside = .ok slot)
    (hadd : arena.add slot (if inside then holder else none) = .ok (place, first))
    (hlt : i < limit ∧ i < closer + 1)
    (hrest : input.parseAttributes (closer + 1) limit holder first = .ok (next, places, found)) :
    input.parseAttributes i limit holder arena =
      .ok (next, if inside then places else place :: places, found) := by
  subst hopener
  rw [Input.parseAttributes, hhash, bind_ok, if_pos rfl, hbang, bind_ok]
  dsimp only
  rw [hbracket, bind_ok, if_pos rfl, hpartner, bind_ok, hslot, bind_ok, hadd, bind_ok]
  dsimp only
  rw [dif_pos hlt, hrest]
  rfl

/-- Nothing is read where no attribute stands. -/
theorem parseAttributes_none {holder : Option Nat} {hash : Bool}
    (hhash : input.isPunct i limit "#" = .ok hash)
    (hnone : hash = true → ∃ inside, input.isPunct (i + 1) limit "!" = .ok inside ∧
      input.isPunct (i + if inside then 2 else 1) limit "[" = .ok false)
    (h : LaidAll input trees i limit) :
    ∃ k places found, input.parseAttributes i limit holder arena = .ok (k, places, found) ∧
      LaidAll input trees k limit ∧
      Led arena owner (if holder.isSome then [] else []) [] places found := by
  refine ⟨i, [], arena, ?_, h, by rw [ite_self]; exact .refl arena owner⟩
  rw [Input.parseAttributes, hhash, bind_ok]
  cases hash with
  | false => rfl
  | true =>
    obtain ⟨inside, hbang, hbracket⟩ := hnone rfl
    rw [if_pos rfl, hbang, bind_ok]
    dsimp only
    rw [hbracket]
    rfl

/-- No group starts with a single token. -/
theorem LaidAll.isPunct_bracket {t : Token} (h : LaidAll input (.leaf t :: rest) i limit) :
    input.isPunct i limit "[" = .ok false := by
  obtain ⟨_, hleaf, -⟩ := id h
  have hopener := hleaf.2.1
  rw [Token.isOpener, Bool.or_eq_false_iff, Bool.or_eq_false_iff] at hopener
  rw [h.isPunct_leaf, hopener.1.2]

/-- **Attributes are read where they are laid out.** -/
theorem parseAttributes_eq (hsound : input.IsSound) {holder : Option Nat} (hholder : ∀ o ∈ holder, o = owner)
    (howner : owner < arena.length) (h : LaidAll input trees i limit) :
    ∃ k places found, input.parseAttributes i limit holder arena = .ok (k, places, found) ∧
      LaidAll input (lead trees).rest k limit ∧
      Led arena owner (if holder.isSome then (lead trees).inner else []) (lead trees).outer places
        found := by
  fun_induction lead trees generalizing i arena with
  | case1 hash opener inner closer rest hmark following =>
    rename_i ih
    rw [Bool.and_eq_true] at hmark
    obtain ⟨_, hleaf, -⟩ := id h
    obtain ⟨_, hgroup, -⟩ := id h.tail_leaf
    obtain ⟨k, hpartner, hinner, hcloser, hrest⟩ := h.tail_leaf.tail_group
    obtain ⟨shape, hslot, hnode⟩ := attributeSlot_eq hsound hleaf.token_leaf hinner hcloser false
    have hbang : opener.isPunct "!" = false := Token.isPunct_of_isOpener hgroup.opener (by decide)
    have hgrown := (Arena.hung_orphan arena owner ⟨shape, hash.start, hash.start, closer.stop, none, []⟩)
    obtain ⟨next, places, found, hnext, hlaid, hled⟩ :=
      ih (Nat.lt_of_lt_of_le howner hgrown.grows) hrest
    refine ⟨next, arena.length :: places, found, ?_, hlaid, ?_⟩
    · have := hinner.le
      exact parseAttributes_step (h.isPunct_leaf "#" |>.trans (congrArg _ hmark.1))
        (h.tail_leaf.isPunct_group "!" |>.trans (congrArg _ hbang)) rfl
        (h.tail_leaf.isPunct_group "[" |>.trans (congrArg _ hmark.2)) hpartner hslot rfl
        ⟨h.lt, by omega⟩ hnext
    · rw [hnode]
      exact hled.cons_outer howner
  | case3 hash bang opener inner closer rest hmark following =>
    rename_i ih
    rw [Bool.and_eq_true, Bool.and_eq_true] at hmark
    obtain ⟨_, hleaf, -⟩ := id h
    obtain ⟨k, hpartner, hinner, hcloser, hrest⟩ := h.tail_leaf.tail_leaf.tail_group
    obtain ⟨shape, hslot, hnode⟩ := attributeSlot_eq hsound hleaf.token_leaf hinner hcloser true
    obtain ⟨first, hadd, hhung⟩ : ∃ first, arena.add
          { shape, start := hash.start, itemStart := hash.start, stop := closer.stop } holder =
            .ok (arena.length, first) ∧
        Hung arena owner (if holder.isSome then [Attribute.node hash.start true inner closer] else [])
          first := by
      cases holder with
      | none => exact ⟨_, rfl, Arena.hung_orphan ..⟩
      | some o =>
        obtain rfl := hholder o rfl
        obtain ⟨first, hadd, hplaced⟩ := Arena.add_eq howner shape hash.start closer.stop
        exact ⟨first, hadd, hnode ▸ hplaced.hung⟩
    obtain ⟨next, places, found, hnext, hlaid, hled⟩ := ih (Nat.lt_of_lt_of_le howner hhung.grows) hrest
    refine ⟨next, places, found, ?_, hlaid, ?_⟩
    · have := hinner.le
      exact parseAttributes_step (h.isPunct_leaf "#" |>.trans (congrArg _ hmark.1.1))
        (h.tail_leaf.isPunct_leaf "!" |>.trans (congrArg _ hmark.1.2)) rfl
        (h.tail_leaf.tail_leaf.isPunct_group "[" |>.trans (congrArg _ hmark.2)) hpartner hslot hadd
        ⟨h.lt, by omega⟩ hnext
    · have hall := hhung.led hled howner
      cases holder <;> exact hall
  | case2 hash opener inner closer rest hmark =>
    obtain ⟨_, hgroup, -⟩ := id h.tail_leaf
    have hbang : opener.isPunct "!" = false := Token.isPunct_of_isOpener hgroup.opener (by decide)
    refine parseAttributes_none (h.isPunct_leaf "#") (fun hhash => ⟨false, ?_, ?_⟩) h
    · rw [h.tail_leaf.isPunct_group, hbang]
    · rw [hhash, Bool.true_and] at hmark
      exact (h.tail_leaf.isPunct_group "[").trans (congrArg _ (Bool.eq_false_iff.mpr hmark))
  | case4 hash bang opener inner closer rest hmark =>
    refine parseAttributes_none (h.isPunct_leaf "#")
      (fun hhash => ⟨bang.isPunct "!", h.tail_leaf.isPunct_leaf "!", ?_⟩) h
    cases hbang : bang.isPunct "!" with
    | false => exact h.tail_leaf.isPunct_bracket
    | true =>
      rw [hhash, hbang, Bool.true_and, Bool.true_and] at hmark
      exact (h.tail_leaf.tail_leaf.isPunct_group "[").trans (congrArg _ (Bool.eq_false_iff.mpr hmark))
  | case5 trees hgroup hinner =>
    rcases trees with _ | ⟨hash | ⟨opener, inner, closer⟩, rest⟩
    · exact parseAttributes_none (h.isPunct_nil "#") (fun hhash => absurd hhash Bool.false_ne_true) h
    · rcases rest with _ | ⟨bang | ⟨opener, inner, closer⟩, rest⟩
      · have hend := h.tail_leaf.isPunct_nil
        exact parseAttributes_none (h.isPunct_leaf "#") (fun _ => ⟨false, hend "!", hend "["⟩) h
      · refine parseAttributes_none (h.isPunct_leaf "#")
          (fun _ => ⟨bang.isPunct "!", h.tail_leaf.isPunct_leaf "!", ?_⟩) h
        cases hbang : bang.isPunct "!" with
        | false => exact h.tail_leaf.isPunct_bracket
        | true =>
          rcases rest with _ | ⟨t | ⟨opener, inner, closer⟩, rest⟩
          · exact h.tail_leaf.tail_leaf.isPunct_nil "["
          · exact h.tail_leaf.tail_leaf.isPunct_bracket
          · exact absurd rfl (hinner hash bang opener inner closer rest)
      · exact absurd rfl (hgroup hash opener inner closer rest)
    · obtain ⟨_, hgroup, -⟩ := id h
      refine parseAttributes_none (h.isPunct_group "#") (fun hhash => ?_) h
      rw [Token.isPunct_of_isOpener hgroup.opener (by decide)] at hhash
      cases hhash

end ContractSync.Rust.Reader

/-! ## Entries -/

namespace ContractSync.Rust

/-- A list goes on with a comma, or ends. -/
def IsEnd (behind : List TokenTree) : Prop :=
  behind = [] ∨ ∃ comma more, behind = .leaf comma :: more ∧ comma.isPunct "," = true

variable {trees behind : List TokenTree}

/-- A comma is no other mark. -/
theorem IsEnd.isPunct_append (h : IsEnd behind) {mark : String} (hmark : "," ≠ mark) :
    (trees ++ behind).head?.any (TokenTree.isPunct · mark) =
      trees.head?.any (TokenTree.isPunct · mark) := by
  cases trees with
  | cons tree trees => rfl
  | nil =>
    rcases h with rfl | ⟨comma, more, rfl, hcomma⟩
    · rfl
    · exact Token.isPunct_of_ne hcomma hmark

/-- Attributes are not looked for behind a comma. -/
theorem Attribute.lead_append_end (hbehind : IsEnd behind) :
    lead (trees ++ behind) = { lead trees with rest := (lead trees).rest ++ behind } := by
  rcases hbehind with rfl | ⟨comma, more, rfl, hcomma⟩
  · simp
  fun_induction lead trees with
  | case1 hash opener inner closer rest hmark following ih =>
    rw [List.cons_append, List.cons_append, lead, if_pos hmark, ih]
  | case2 hash opener inner closer rest hmark =>
    rw [List.cons_append, List.cons_append, lead, if_neg hmark]
  | case3 hash bang opener inner closer rest hmark following ih =>
    rw [List.cons_append, List.cons_append, List.cons_append, lead, if_pos hmark, ih]
  | case4 hash bang opener inner closer rest hmark =>
    rw [List.cons_append, List.cons_append, List.cons_append, lead, if_neg hmark]
  | case5 trees hgroup hinner =>
    rcases trees with _ | ⟨hash | ⟨opener, inner, closer⟩, rest⟩
    · exact lead_of_not_hash (Token.isPunct_of_ne hcomma (by decide)) more
    · rcases rest with _ | ⟨bang | ⟨opener, inner, closer⟩, rest⟩
      · have hbang : comma.isPunct "!" = false := Token.isPunct_of_ne hcomma (by decide)
        rcases more with _ | ⟨t | ⟨opener, inner, closer⟩, more⟩
        · rfl
        · rfl
        · rw [List.cons_append, List.nil_append, lead, hbang, Bool.and_false, Bool.false_and]
          rfl
      · rcases rest with _ | ⟨t | ⟨opener, inner, closer⟩, rest⟩
        · rfl
        · rfl
        · exact absurd rfl (hinner hash bang opener inner closer rest)
      · exact absurd rfl (hgroup hash opener inner closer rest)
    · rfl

/-- Attributes are no part of what is divided at commas. -/
theorem Attribute.exists_neutral (trees : List TokenTree) :
    ∃ front, trees = front ++ (lead trees).rest ∧ ∀ tree ∈ front, Entry.IsNeutral tree := by
  fun_induction lead trees with
  | case1 hash opener inner closer rest hmark following ih =>
    obtain ⟨front, hfront, hneutral⟩ := ih
    rw [Bool.and_eq_true] at hmark
    refine ⟨.leaf hash :: .group opener inner closer :: front, by rw [hfront]; rfl, ?_⟩
    exact List.forall_mem_cons.mpr ⟨Entry.isNeutral_of_mark hmark.1 (by decide),
      List.forall_mem_cons.mpr ⟨Entry.isNeutral_of_mark hmark.2 (by decide), hneutral⟩⟩
  | case3 hash bang opener inner closer rest hmark following ih =>
    obtain ⟨front, hfront, hneutral⟩ := ih
    rw [Bool.and_eq_true, Bool.and_eq_true] at hmark
    refine ⟨.leaf hash :: .leaf bang :: .group opener inner closer :: front, by rw [hfront]; rfl, ?_⟩
    exact List.forall_mem_cons.mpr ⟨Entry.isNeutral_of_mark hmark.1.1 (by decide),
      List.forall_mem_cons.mpr ⟨Entry.isNeutral_of_mark hmark.1.2 (by decide),
        List.forall_mem_cons.mpr ⟨Entry.isNeutral_of_mark hmark.2 (by decide), hneutral⟩⟩⟩
  | case2 | case4 | case5 => exact ⟨[], rfl, List.forall_mem_nil _⟩

namespace Entry

open Attribute (lead)

/-- The visibility is not looked for behind a comma. -/
theorem dropVisibility_append_end (hbehind : IsEnd behind) :
    dropVisibility (trees ++ behind) = dropVisibility trees ++ behind := by
  rcases hbehind with rfl | ⟨comma, more, rfl, hcomma⟩
  · rw [List.append_nil, List.append_nil]
  match trees with
  | [] =>
    refine dropVisibility_of_not_pub ?_ more
    rw [Token.isPunct, Bool.and_eq_true, beq_iff_eq] at hcomma
    rw [Token.isWord, hcomma.1]
    rfl
  | .group opener inner closer :: rest => rfl
  | .leaf t :: [] =>
    by_cases hpub : t.isWord "pub" = true
    · simp [dropVisibility, hpub]
    · simp [dropVisibility, hpub]
  | .leaf t :: .leaf u :: rest =>
    by_cases hpub : t.isWord "pub" = true
    · simp [dropVisibility, hpub]
    · simp [dropVisibility, hpub]
  | .leaf t :: .group opener inner closer :: rest =>
    by_cases hpub : t.isWord "pub" = true
    · by_cases hopen : opener.isPunct "(" = true
      · simp [dropVisibility, hpub, hopen]
      · simp [dropVisibility, hpub, hopen]
    · simp [dropVisibility, hpub]

/-- The visibility is no part of what is divided at commas. -/
theorem exists_neutral_visibility (trees : List TokenTree) :
    ∃ front, trees = front ++ dropVisibility trees ∧ ∀ tree ∈ front, IsNeutral tree := by
  match trees with
  | [] => exact ⟨[], rfl, List.forall_mem_nil _⟩
  | .group opener inner closer :: rest => exact ⟨[], rfl, List.forall_mem_nil _⟩
  | .leaf t :: rest =>
    by_cases hpub : t.isWord "pub" = true
    · have hneutral := isNeutral_of_ident (Token.kind_of_isWord hpub)
      have hfront : ∀ tree ∈ [TokenTree.leaf t], IsNeutral tree := List.forall_mem_singleton.mpr hneutral
      match rest with
      | [] => exact ⟨[.leaf t], by simp [dropVisibility, hpub], hfront⟩
      | .leaf u :: rest => exact ⟨[.leaf t], by simp [dropVisibility, hpub], hfront⟩
      | .group opener inner closer :: rest =>
        by_cases hopen : opener.isPunct "(" = true
        · refine ⟨[.leaf t, .group opener inner closer], by simp [dropVisibility, hpub, hopen], ?_⟩
          exact List.forall_mem_cons.mpr ⟨hneutral,
            List.forall_mem_singleton.mpr (isNeutral_of_mark hopen (by decide))⟩
        · exact ⟨[.leaf t], by simp [dropVisibility, hpub, hopen], hfront⟩
    · rw [Bool.not_eq_true] at hpub
      exact ⟨[], by rw [dropVisibility_of_not_pub hpub, List.nil_append], List.forall_mem_nil _⟩

/-- Trees that stand in front of commas and brackets do not change the depth. -/
theorem depthBehind_neutral {front : List TokenTree} (h : ∀ tree ∈ front, IsNeutral tree) (angle : Nat)
    (trees : List TokenTree) : depthBehind angle (front ++ trees) = depthBehind angle trees :=
  depthBehind_append (depthBehind_eq_self h angle) trees

theorem recordField_of_trailing {entry : Entry} (h : entry.isTrailing (lead entry.trees).rest = true) :
    recordField entry = .ok none := by
  rw [recordField]
  exact if_pos h

theorem variant_of_trailing {entry : Entry} (h : entry.isTrailing (lead entry.trees).rest = true) :
    variant entry = .ok none := by
  rw [variant]
  exact if_pos h

/-- The entries are read one after the other. -/
theorem nodes_cons (read : Entry → Except Failure (Option Node)) (entry : Entry) (rest : List Entry) :
    nodes read (entry :: rest) = do
      let o ← read entry
      let more ← nodes read rest
      return o.toList ++ more := by
  simp only [nodes, List.mapM_cons]
  cases read entry with
  | error failure => rfl
  | ok o =>
    cases rest.mapM read with
    | error failure => rfl
    | ok os => cases o <;> rfl

end Entry

namespace Reader

open Arena (Led Hung Placed)
open Attribute (lead)
open Entry (depthBehind divide dropVisibility)

variable {input : Input} {part : List TokenTree} {entry : Entry} {i mid closer p owner : Nat}

/-! ### The first entry of a list -/

/-- The entry stands in front of `behind`, from the first position to the second one, in a list that ends in
the third one. -/
structure IsNext (input : Input) (entry : Entry) (behind : List TokenTree) (i mid closer : Nat) : Prop where
  laid : LaidAll input entry.trees i mid
  rest : LaidAll input behind mid closer
  comma : entry.comma = false ↔ behind = []
  isEnd : IsEnd behind
  stop : input.offset mid = entry.stop
  before : EndsAt input i entry.before
  closer : ∃ t, input.token closer = .ok t
  depth : ∃ depth, depthBehind 0 entry.trees = some depth ∧ (behind = [] ∨ depth = 0)

namespace IsNext

/-- A part of the entry starts with a token, if only that behind the entry. -/
theorem token (h : IsNext input entry behind i mid closer) (hpart : LaidAll input (part ++ behind) p closer) :
    ∃ t, input.token p = .ok t ∧ t.start = entry.offsetOf part := by
  match part with
  | tree :: part =>
    obtain ⟨_, htree, -⟩ := hpart
    refine ⟨tree.head, htree.token, ?_⟩
    rw [token_start htree.token, htree.offset]
    rfl
  | [] =>
    obtain rfl : p = mid := hpart.unique h.rest
    obtain ⟨t, ht⟩ : ∃ t, input.token p = .ok t := by
      match behind with
      | [] => exact (show p = closer from hpart) ▸ h.closer
      | tree :: more =>
        obtain ⟨_, htree, -⟩ := hpart
        exact ⟨_, htree.token⟩
    exact ⟨t, ht, (token_start ht).trans h.stop⟩

theorem offset (h : IsNext input entry behind i mid closer)
    (hpart : LaidAll input (part ++ behind) p closer) : input.offset p = entry.offsetOf part := by
  obtain ⟨t, ht, hstart⟩ := h.token hpart
  rw [← token_start ht, hstart]

/-- The last token of the entry ends where the entry does. -/
theorem last (h : IsNext input entry behind i mid closer) : EndsAt input mid entry.lastStop := by
  rw [Entry.lastStop]
  cases hlast : entry.trees.getLast? with
  | some tree => exact h.laid.last hlast
  | none =>
    have hlaid := h.laid
    rw [List.getLast?_eq_none_iff] at hlast
    rw [hlast] at hlaid
    exact (show i = mid from hlaid) ▸ h.before

/-- The end of the entry is found from any part of it with nothing but neutral trees in front. -/
theorem scan (h : IsNext input entry behind i mid closer) (front : List TokenTree)
    (hsplit : entry.trees = front ++ part) (hneutral : ∀ tree ∈ front, Entry.IsNeutral tree)
    (hpart : LaidAll input (part ++ behind) p closer) : input.scanListEntry p closer 0 = .ok mid := by
  obtain ⟨depth, hdepth, hend⟩ := h.depth
  rw [hsplit, Entry.depthBehind_neutral hneutral] at hdepth
  have hend' : behind = [] ∨ depth = 0 ∧ ∃ comma more, behind = .leaf comma :: more ∧
      comma.isPunct "," = true := by
    rcases h.isEnd with hnil | hcomma
    · exact .inl hnil
    · exact hend.imp_right fun hzero => ⟨hzero, hcomma⟩
  obtain ⟨k, hk, -, hrest⟩ := scanListEntry_eq hdepth hend' hpart
  rw [hk, hrest.unique h.rest]

/-- The name of the entry is looked for, and not behind it. -/
theorem ident (h : IsNext input entry behind i mid closer) (hsound : input.IsSound) (what : Named)
    (hpart : LaidAll input (part ++ behind) p closer) :
    Agrees input (· = ·) (entry.name what part) (input.ident p closer what) := by
  have hname : Item.nameAt (input.offset closer) what (part ++ behind) = entry.name what part := by
    rcases part with _ | ⟨t | ⟨opener, inner, closer⟩, part⟩
    · have hrest := h.rest
      rcases h.isEnd with rfl | ⟨comma, more, rfl, hcomma⟩
      · rw [Entry.name, h.comma.mpr rfl, ← h.stop, show mid = closer from hrest]
        rfl
      · have hcomma' : entry.comma = true := Bool.not_eq_false _ ▸ mt h.comma.mp (List.cons_ne_nil _ _)
        obtain ⟨_, hleaf, -⟩ := hrest
        rw [Token.isPunct, Bool.and_eq_true, beq_iff_eq] at hcomma
        rw [Entry.name, hcomma', ← h.stop, hleaf.offset, List.nil_append, Item.nameAt,
          if_neg (by rw [hcomma.1]; decide)]
        rfl
    · rfl
    · rfl
  rw [← hname]
  exact ident_agrees hsound what hpart

end IsNext

/-- A list that is not empty has a first entry. -/
theorem exists_next {trees : List TokenTree} {before : Nat} (hne : trees ≠ [])
    (h : LaidAll input trees i closer) (hbefore : EndsAt input i before)
    (hcloser : ∃ t, input.token closer = .ok t) :
    ∃ entry behind mid rest, trees = entry.trees ++ behind ∧ IsNext input entry behind i mid closer ∧
      divide before (input.offset closer) 0 [] trees = entry :: rest ∧
      (behind = [] ∧ rest = [] ∨ ∃ comma more, behind = .leaf comma :: more ∧
        rest = divide comma.stop (input.offset closer) 0 [] more) := by
  rcases Entry.exists_comma 0 trees with ⟨depth, hdepth⟩ | ⟨front, tree, more, rfl, hdepth, hcomma⟩
  · refine ⟨⟨before, trees, input.offset closer, false⟩, [], closer, [], (List.append_nil _).symm,
      ⟨h, rfl, ⟨fun _ => rfl, fun _ => rfl⟩, .inl rfl, rfl, hbefore, hcloser, depth, hdepth, .inl rfl⟩,
      Entry.divide_of_depth hdepth hne before _, .inl ⟨rfl, rfl⟩⟩
  · obtain ⟨mid, hfront, hbehind⟩ := laidAll_append.mp h
    obtain ⟨_, htree, -⟩ := id hbehind
    obtain ⟨comma, rfl⟩ := htree.exists_leaf hcomma (by decide)
    refine ⟨⟨before, front, comma.start, true⟩, .leaf comma :: more, mid,
      divide comma.stop (input.offset closer) 0 [] more, rfl,
      ⟨hfront, hbehind, ⟨nofun, nofun⟩, .inr ⟨comma, more, rfl, hcomma⟩, htree.offset, hbefore, hcloser, 0,
        hdepth, .inr rfl⟩, Entry.divide_at_comma hdepth hcomma before _, .inr ⟨comma, more, rfl, rfl⟩⟩

/-! ### Whole lists -/

/-- How the nodes of a list come from those of its entries, whose positions are counted. -/
structure IsListing (read : Nat → Entry → Except Failure (Option Node))
    (nodesOf : Nat → List Entry → Except Failure (List Node)) : Prop where
  nil : ∀ position, nodesOf position [] = .ok []
  trailing : ∀ position (entry : Entry), entry.isTrailing (lead entry.trees).rest = true →
    nodesOf position [entry] = .ok []
  cons : ∀ position (entry : Entry) rest, entry.isTrailing (lead entry.trees).rest = false →
    nodesOf position (entry :: rest) = do
      let o ← read position entry
      let more ← nodesOf (position + 1) rest
      return o.toList ++ more

/-- An entry is read by positions, from behind its attributes on, as it is read from its trees. -/
def ReadsAlike (input : Input) (closer : Nat) (read : Nat → Entry → Except Failure (Option Node))
    (readAt : Nat → Nat → Except Halt (Shape × Nat × Nat)) : Prop :=
  ∀ position entry behind i mid first, IsNext input entry behind i mid closer →
    entry.isTrailing (lead entry.trees).rest = false →
    LaidAll input ((lead entry.trees).rest ++ behind) first closer →
    Agrees input (fun o found => ∃ shape stop, found = (shape, stop, mid) ∧
        o = some (Entry.node shape (lead entry.trees).outer (entry.offsetOf (lead entry.trees).rest) stop))
      (read position entry) (readAt position first)

/-- **A list is read by positions as its entries are read one by one.** -/
theorem parseEntries_agrees (hsound : input.IsSound) {read : Nat → Entry → Except Failure (Option Node)}
    {nodesOf : Nat → List Entry → Except Failure (List Node)}
    {readAt : Nat → Nat → Except Halt (Shape × Nat × Nat)} (hlist : IsListing read nodesOf)
    (hread : ReadsAlike input closer read readAt) (hcloser : ∃ t, input.token closer = .ok t)
    (position : Nat) {trees : List TokenTree} {before : Nat} {arena : Arena} (h : LaidAll input trees i closer)
    (hbefore : EndsAt input i before) (howner : owner < arena.length) :
    Agrees input (fun nodes found => Hung arena owner nodes found)
      (nodesOf position (divide before (input.offset closer) 0 [] trees))
      (input.parseEntries readAt i closer owner position arena) := by
  induction hlen : trees.length using Nat.strongRecOn generalizing trees before position arena i with
  | _ len ih =>
  by_cases hne : trees = []
  · subst hne
    rw [Input.parseEntries, dif_neg (Nat.not_lt.mpr (Nat.le_of_eq h.symm)), divide, List.isEmpty_nil,
      if_pos rfl, hlist.nil]
    exact .ok (.refl arena owner)
  obtain ⟨entry, behind, mid, rest, rfl, hnext, hdivide, hrest⟩ := exists_next hne h hbefore hcloser
  obtain ⟨first, places, led, hattributes, hlaid, hled⟩ :=
    parseAttributes_eq hsound (forall_mem_none (P := (· = owner))) howner h
  rw [Attribute.lead_append_end hnext.isEnd] at hlaid hled
  rw [hdivide, Input.parseEntries, dif_pos (h.lt_of_ne_nil hne), hattributes, bind_ok]
  dsimp only
  cases htrailing : entry.isTrailing (lead entry.trees).rest with
  | true =>
    have hmarks := htrailing
    rw [Entry.isTrailing, Bool.and_eq_true, List.isEmpty_iff, Bool.not_eq_true'] at hmarks
    have hbehind := hnext.comma.mp hmarks.2
    rw [hmarks.1, hbehind] at hlaid
    obtain ⟨-, rfl⟩ | ⟨_, _, hcomma, -⟩ := hrest
    case inr => rw [hbehind] at hcomma; cases hcomma
    rw [if_pos (Nat.le_of_eq (show first = closer from hlaid).symm), hlist.trailing position entry htrailing]
    exact .ok hled.hung
  | false =>
    have hfirst : first < closer := by
      refine hlaid.lt_of_ne_nil fun hnil => ?_
      rw [List.append_eq_nil_iff] at hnil
      rw [Entry.isTrailing, hnil.1, hnext.comma.mpr hnil.2] at htrailing
      cases htrailing
    obtain ⟨t, ht, hstart⟩ := hnext.token hlaid
    rw [if_neg (Nat.not_le.mpr hfirst), ht, bind_ok, hlist.cons position entry rest htrailing]
    refine (hread position entry behind i mid first hnext htrailing hlaid).bind fun o found hfound => ?_
    obtain ⟨shape, stop, rfl, rfl⟩ := hfound
    obtain ⟨added, hadd, hplaced⟩ := Arena.add_eq (Nat.lt_of_lt_of_le howner hled.grows) shape t.start stop
    obtain ⟨final, hattach, hhung⟩ := hled.attach howner hplaced
    have hmid := hnext.laid.le
    dsimp only
    rw [hadd, bind_ok]
    dsimp only
    rw [hattach, bind_ok, dif_pos (Nat.lt_succ_of_le hmid)]
    have hrest' : Agrees input (fun nodes found => Hung final owner nodes found) (nodesOf (position + 1) rest)
        (input.parseEntries readAt (mid + 1) closer owner (position + 1) final) := by
      have howner' := Nat.lt_of_lt_of_le howner hhung.grows
      have hlaidRest := hnext.rest
      rcases hrest with ⟨rfl, rfl⟩ | ⟨comma, more, rfl, rfl⟩
      · rw [Input.parseEntries, dif_neg (by rw [show mid = closer from hlaidRest]; omega), hlist.nil]
        exact .ok (.refl final owner)
      · obtain ⟨_, hleaf, -⟩ := id hlaidRest
        refine ih more.length ?_ (position + 1) hlaidRest.tail_leaf ⟨comma, hleaf.token_leaf, rfl⟩ howner' rfl
        rw [← hlen, List.length_append, List.length_cons]
        omega
    refine hrest'.map fun nodes found hfound => ?_
    have hnode := hhung.trans hfound howner
    rw [List.append_nil, hstart] at hnode
    exact hnode

/-! ### Fields and variants -/

/-- Entries that nothing counts. -/
theorem isListing_nodes {read : Entry → Except Failure (Option Node)}
    (htrailing : ∀ entry : Entry, entry.isTrailing (lead entry.trees).rest = true → read entry = .ok none) :
    IsListing (fun _ => read) (fun _ => Entry.nodes read) := by
  refine ⟨fun _ => rfl, fun _ entry h => ?_, fun _ entry rest _ => Entry.nodes_cons read entry rest⟩
  rw [Entry.nodes_cons, htrailing entry h]
  rfl

theorem isListing_tupleFields : IsListing (fun position entry => .ok (Entry.tupleField position entry))
    (fun position entries => .ok (Entry.tupleFields position entries)) := by
  refine ⟨fun _ => rfl, fun position entry h => ?_, fun position entry rest h => ?_⟩
  · rw [Entry.tupleFields, Entry.tupleField, if_pos h]
  · rw [Entry.tupleFields, Entry.tupleField, if_neg (by rw [h]; exact Bool.false_ne_true)]
    rfl

/-- The type of a field, or a variant, ends where the entry does. -/
theorem IsNext.isEmpty_iff (h : IsNext input entry behind i mid closer)
    (hpart : LaidAll input (part ++ behind) p closer) : mid ≤ p ↔ part.isEmpty = true := by
  obtain ⟨k, hpart, hbehind⟩ := laidAll_append.mp hpart
  obtain rfl := hbehind.unique h.rest
  rw [List.isEmpty_iff]
  constructor
  · exact fun hle => by_contra fun hne => Nat.not_lt.mpr hle (hpart.lt_of_ne_nil hne)
  · rintro rfl
    exact Nat.le_of_eq hpart.symm

theorem readsAlike_recordField (hsound : input.IsSound) :
    ReadsAlike input closer (fun _ => Entry.recordField) (input.readRecordField closer) := by
  intro position entry behind i mid first hnext htrailing hlaid
  obtain ⟨attributes, hattributes, hneutral⟩ := Attribute.exists_neutral entry.trees
  obtain ⟨visibility, hvisibility, hneutral'⟩ := Entry.exists_neutral_visibility (lead entry.trees).rest
  obtain ⟨cursor, hcursor, hlaid⟩ := skipVisibility_eq hlaid
  rw [Entry.dropVisibility_append_end hnext.isEnd] at hlaid
  show Agrees input _ (Entry.recordField entry) _
  rw [Entry.recordField, Input.readRecordField, hcursor, bind_ok, htrailing]
  refine (hnext.ident hsound .field hlaid).bind_eq fun name _ hname heq => ?_
  obtain ⟨t, colon, htrees, hident, rfl⟩ := Entry.name_eq_ok.mp hname
  subst heq
  rw [htrees] at hlaid hvisibility
  have hbehind : LaidAll input (colon ++ behind) (cursor + 1) closer := hlaid.tail_leaf
  rw [htrees, List.tail_cons, hbehind.isPunct, hnext.isEnd.isPunct_append (by decide), bind_ok]
  dsimp only
  cases hcolon : colon.head?.any (TokenTree.isPunct · ":") with
  | false => exact .fail hsound (hnext.offset hbehind).symm
  | true =>
    obtain ⟨tree, type, rfl⟩ := List.exists_cons_of_ne_nil fun hnil : colon = [] => by
      rw [hnil] at hcolon
      cases hcolon
    obtain ⟨_, htree, -⟩ := id hbehind
    obtain ⟨mark, rfl⟩ := htree.exists_leaf hcolon (by decide)
    have htype : LaidAll input (type ++ behind) (cursor + 2) closer := hbehind.tail_leaf
    have hscan : input.scanListEntry (cursor + 2) closer 0 = .ok mid := by
      refine hnext.scan (attributes ++ (visibility ++ [.leaf t, .leaf mark])) ?_ ?_ htype
      · rw [hattributes, hvisibility]
        simp
      · refine List.forall_mem_append.mpr ⟨hneutral, List.forall_mem_append.mpr ⟨hneutral', ?_⟩⟩
        exact List.forall_mem_cons.mpr ⟨Entry.isNeutral_of_ident hident,
          List.forall_mem_singleton.mpr (Entry.isNeutral_of_mark hcolon (by decide))⟩
    rw [hscan, bind_ok]
    show Agrees input _ (if type.isEmpty then _ else _) (if mid ≤ cursor + 2 then _ else _)
    by_cases hempty : type.isEmpty = true
    · rw [if_pos hempty, if_pos ((hnext.isEmpty_iff htype).mpr hempty)]
      rw [List.isEmpty_iff] at hempty
      subst hempty
      exact .fail hsound (hnext.offset htype).symm
    · obtain ⟨last, hlast, hstop⟩ := hnext.last
      obtain ⟨first, hfirst, hstart⟩ := hnext.token htype
      rw [if_neg hempty, if_neg (mt (hnext.isEmpty_iff htype).mp hempty), hlast, bind_ok, hfirst, bind_ok, hstart,
        hstop]
      exact .ok ⟨_, _, rfl, rfl⟩

theorem readsAlike_tupleField :
    ReadsAlike input closer (fun position entry => .ok (Entry.tupleField position entry))
      (input.readTupleField closer) := by
  intro position entry behind i mid first hnext htrailing hlaid
  obtain ⟨attributes, hattributes, hneutral⟩ := Attribute.exists_neutral entry.trees
  obtain ⟨visibility, hvisibility, hneutral'⟩ := Entry.exists_neutral_visibility (lead entry.trees).rest
  obtain ⟨cursor, hcursor, hlaid⟩ := skipVisibility_eq hlaid
  rw [Entry.dropVisibility_append_end hnext.isEnd] at hlaid
  have hscan : input.scanListEntry cursor closer 0 = .ok mid := by
    refine hnext.scan (attributes ++ visibility) ?_ ?_ hlaid
    · rw [List.append_assoc, ← hvisibility, ← hattributes]
    · exact List.forall_mem_append.mpr ⟨hneutral, hneutral'⟩
  obtain ⟨last, hlast, hstop⟩ := hnext.last
  obtain ⟨first, hfirst, hstart⟩ := hnext.token hlaid
  show Agrees input _ (.ok (Entry.tupleField position entry)) _
  rw [Entry.tupleField, if_neg (by rw [htrailing]; exact Bool.false_ne_true), Input.readTupleField, hcursor,
    bind_ok, hscan, bind_ok, hlast, bind_ok, hfirst, bind_ok, hstart, hstop]
  exact .ok ⟨_, _, rfl, rfl⟩

theorem readsAlike_variant (hsound : input.IsSound) :
    ReadsAlike input closer (fun _ => Entry.variant) (input.readVariant closer) := by
  intro position entry behind i mid first hnext htrailing hlaid
  obtain ⟨attributes, hattributes, hneutral⟩ := Attribute.exists_neutral entry.trees
  show Agrees input _ (Entry.variant entry) _
  rw [Entry.variant, Input.readVariant, htrailing]
  refine (hnext.ident hsound .variant hlaid).bind fun name _ heq => ?_
  subst heq
  obtain ⟨last, hlast, hstop⟩ := hnext.last
  rw [hnext.scan attributes hattributes hneutral hlaid, bind_ok, hlast, bind_ok, hstop]
  exact .ok ⟨_, _, rfl, rfl⟩

end Reader

end ContractSync.Rust
