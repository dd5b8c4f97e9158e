import ContractSync.Proofs.Rust.FieldText

/-!
# The end of a record

What stands behind the last field of a record is seen from the tokens of that part of the text
(`BodyIn.hasBehind`). A text that ends where further fields can go (`Opened`), one behind the last comma or
with a comma put behind the last field, **gets the text of a field on lines of its own, and the record grows
by this field** (`Opened.parse_field`).
-/

namespace ContractSync.Rust

open Lexer
open TokenTree (flattenAll isNestedAll isNestedAll_map_move)

/-! ### Parts of a text that are lexed -/

namespace Lexer

/-- What is passed over does not begin with a quote. -/
theorem Run.startsWith_quote {p q : Nat} {cs rest : List Char} (h : Run p cs [] q rest)
    (hrest : startsWith (· == '\'') rest = false) : startsWith (· == '\'') cs = false := by
  generalize hts : ([] : List Token) = ts at h
  cases h with
  | refl => exact hrest
  | skip hstep _ =>
    refine beq_false_of_ne ?_
    rintro rfl
    rcases eq_of_step_none hstep with hblank | hslash
    · cases hblank
    · cases hslash
  | emit => cases hts

/-- The part of a text between two places of a run holds the tokens between them. -/
theorem Run.tokenize_slice {x y : Nat} {cs : List Char} {us : List Token}
    (h : Run x (cs.drop x) us y (cs.drop y)) (hquote : startsWith (· == '\'') (cs.drop y) = false) :
    ∃ vs, tokenize (Text.slice cs x y) = .ok vs ∧ us = vs.map (Token.shift x) := by
  obtain ⟨a, ha, rfl⟩ := h.suffix
  have hslice : Text.slice cs x (x + a.length) = a := by
    rw [Text.slice, List.drop_take, ha, Nat.add_sub_cancel_left, List.take_left]
  rw [ha] at h
  have hcut := h.cut_off hquote
  rw [← Nat.zero_add x] at hcut
  obtain ⟨vs, s, hvs, hus, -⟩ := hcut.unshift
  rw [hslice]
  exact ⟨vs, lexFrom_of_run hvs, hus⟩

/-- A text up to a place of a run holds the tokens up to there. -/
theorem Run.tokenize_take {x : Nat} {cs : List Char} {ts : List Token} (h : Run 0 cs ts x (cs.drop x))
    (hquote : startsWith (· == '\'') (cs.drop x) = false) : tokenize (cs.take x) = .ok ts := by
  obtain ⟨a, ha, -⟩ := h.suffix
  have htake : cs.take x = a := List.append_cancel_right ((List.take_append_drop x cs).trans ha)
  rw [← htake] at ha
  generalize cs.drop x = rest at *
  rw [ha] at h
  exact lexFrom_of_run (h.cut_off hquote)

/-- A comma behind a token, in front of what is passed over. -/
theorem tokenize_comma {u t : List Char} {ts : List Token} (h : tokenize (u ++ t) = .ok ts)
    (hlast : ts.getLast?.map Token.stop = some u.length) :
    tokenize (u ++ ',' :: t) = .ok (ts ++ [⟨.punct, ",", u.length, u.length + 1⟩]) := by
  obtain ⟨last, hlast, hstop⟩ := Option.map_eq_some_iff.mp hlast
  obtain ⟨front, rfl⟩ := List.getLast?_eq_some_iff.mp hlast
  obtain ⟨hbefore, hbehind⟩ := (run_of_lexFrom h).cut_behind
  rw [hstop, List.drop_left] at hbefore hbehind
  have hquote := hbehind.startsWith_quote rfl
  have hfront := (hbefore.cut_off hquote).congr_before_calm (u := ',' :: t)
    (.of_isCalm (by decide +kernel)) (fun _ => rfl) fun _ => ⟨last, List.getLast?_concat, hstop⟩
  have hcomma : Run u.length (',' :: t) [⟨.punct, ",", u.length, u.length + 1⟩] (u.length + 1) t :=
    .emit (w := []) (step_comma t) (.refl _ _)
  have hrest := hfront.trans (hcomma.trans (hbehind.shift 1))
  rw [List.map_nil, List.append_nil] at hrest
  exact lexFrom_of_run hrest

end Lexer

namespace BodyIn

variable {source : List Char} {nodes found : List Node} {n : Node} {kind : ItemKind} {b : Group}
  {front back : List Token}

/-- So many tokens stand behind a place as there are in the text from there to the closing delimiter. -/
theorem hasBehind (h : BodyIn source nodes n kind b found front back) {place : Nat} {vs : List Token}
    (htokens : tokenize (Text.slice source place b.closer.start) = .ok vs) :
    Entry.HasBehind b.inner place vs.length := by
  rintro ahead behind hinner hplace
  rw [← TokenTree.stop_getLast?_flattenAll] at hplace
  obtain ⟨t, hlast, rfl⟩ := Option.map_eq_some_iff.mp hplace
  obtain ⟨ts, hahead⟩ := List.getLast?_eq_some_iff.mp hlast
  obtain ⟨hrun, -⟩ := h.run_closer
  have hsplit : front ++ b.opener :: flattenAll b.inner =
      (front ++ b.opener :: ts) ++ t :: flattenAll behind := by
    rw [hinner, TokenTree.flattenAll_append, hahead]
    simp
  rw [hsplit] at hrun
  obtain ⟨us, hus, hshift⟩ := hrun.cut_behind.2.tokenize_slice h.drop_closer.1
  rw [Except.ok.inj (htokens.symm.trans hus), hshift, List.length_map]

/-- The trees at the end of a body, as they are on their own. -/
theorem tokenize_end (h : BodyIn source nodes n kind b found front back) {ahead part : List TokenTree}
    {s : Span} (hinner : b.inner = ahead ++ part) (hs : Covers part s) :
    ∃ vs, tokenize (Text.slice source s.start s.stop) = .ok vs ∧
      flattenAll part = vs.map (Token.shift s.start) := by
  obtain ⟨hrun, -⟩ := h.run_closer
  obtain ⟨hfirst, hlast⟩ := hs
  rw [← TokenTree.start_head?_flattenAll] at hfirst
  rw [← TokenTree.stop_getLast?_flattenAll] at hlast
  obtain ⟨first, hfirst, hstart⟩ := Option.map_eq_some_iff.mp hfirst
  obtain ⟨last, hlast, hstop⟩ := Option.map_eq_some_iff.mp hlast
  obtain ⟨more, hmore⟩ := List.head?_eq_some_iff.mp hfirst
  obtain ⟨ts, hts⟩ := List.getLast?_eq_some_iff.mp hlast
  have hsplit : front ++ b.opener :: flattenAll b.inner =
      (front ++ b.opener :: (flattenAll ahead ++ ts)) ++ last :: [] := by
    rw [hinner, TokenTree.flattenAll_append, hts]
    simp
  rw [hsplit] at hrun
  obtain ⟨hup, hbehind⟩ := hrun.cut_behind
  have hsplit' : front ++ b.opener :: (flattenAll ahead ++ ts) ++ [last] =
      (front ++ b.opener :: flattenAll ahead) ++ first :: more := by
    rw [← hmore, hts]
    simp
  rw [hsplit'] at hup
  have hpart := hup.cut_before.2
  rw [hstart, hstop, ← hmore] at hpart
  rw [hstop] at hbehind
  exact hpart.tokenize_slice (hbehind.startsWith_quote h.drop_closer.1)

/-- A body that holds no tokens holds no trees. -/
theorem inner_eq_nil (h : BodyIn source nodes n kind b found front back) {place : Nat}
    (hplace : b.opener.stop = place)
    (htokens : tokenize (Text.slice source place b.closer.start) = .ok []) :
    b.inner = [] ∧ tokenize (source.take place) = .ok (front ++ [b.opener]) := by
  subst hplace
  obtain ⟨hup, hbehind⟩ := h.run_closer.1.cut_behind
  obtain ⟨vs, hvs, hinner⟩ := hbehind.tokenize_slice h.drop_closer.1
  obtain rfl := Except.ok.inj (htokens.symm.trans hvs)
  rw [List.map_nil] at hinner
  have hnil : b.inner = [] := by
    cases hb : b.inner with
    | nil => rfl
    | cons tree rest =>
      have hmem := TokenTree.head_mem_flatten tree
      rw [hb, flattenAll] at hinner
      rw [(List.append_eq_nil_iff.mp hinner).1] at hmem
      cases hmem
  refine ⟨hnil, ?_⟩
  rw [hinner] at hbehind
  exact hup.tokenize_take (hbehind.startsWith_quote h.drop_closer.1)

/-- The fields of a record are its members. -/
theorem fields_eq (h : BodyIn source nodes n .struct_ b found front back) (hrecord : b.isTuple = false) :
    n.fields = found ∧ Entry.nodes Entry.recordField
      (Entry.divide b.opener.stop b.closer.start 0 [] b.inner) = .ok found := by
  have hfound := (Group.members_of_record hrecord).symm.trans h.members
  refine ⟨?_, hfound⟩
  obtain ⟨attributes, hchildren, hattributes⟩ := h.children
  have hnone : attributes.filter Node.isField = [] := by
    refine List.filter_eq_nil_iff.mpr fun a ha => ?_
    have hattribute := hattributes a ha
    rw [Node.isAttribute] at hattribute
    rw [Node.isField]
    split at hattribute
    · rename_i hshape
      rw [hshape]
      exact Bool.false_ne_true
    · cases hattribute
  have hall : found.filter Node.isField = found := List.filter_eq_self.mpr
    (Entry.forall_nodes (fun _ _ => Entry.isField_of_recordField) hfound)
  rw [Node.fields, hchildren, List.filter_append, hnone, hall, List.nil_append]

/-- The fields of a record are where they were. -/
theorem found_carry (h : BodyIn source nodes n .struct_ b found front back)
    (hrecord : b.isTuple = false) (d : Nat) :
    found.map (Node.carry (.behind b.closer.start d)) = found :=
  Entry.fields_carry_eq_self (h.fields_eq hrecord).2 fun t ht =>
    h.carry_before d t (List.mem_append_right _ (List.mem_cons_of_mem _ ht))

/-- The fields of a record that has grown by one. -/
theorem fields_grow (h : BodyIn source nodes n .struct_ b found front back)
    (hrecord : b.isTuple = false) {entry : Entry} {field : Node}
    (hfield : Entry.recordField entry = .ok (some field)) (d : Nat) :
    (n.grow (.behind b.closer.start d) b.opener.start [field]).fields = n.fields ++ [field] := by
  obtain ⟨hfields, hread⟩ := h.fields_eq hrecord
  have hplain := Entry.forall_nodes (fun _ _ h => (Entry.isMember_recordField h).plain) hread
  have hopens : n.shape.opensAt b.opener.start = true :=
    Node.opensAt_iff.mpr ⟨b.span, h.span, rfl⟩
  have hone : [field].filter Node.isField = [field] :=
    List.filter_eq_self.mpr (List.forall_mem_singleton.mpr (Entry.isField_of_recordField hfield))
  rw [Node.fields_grow, hfields, Node.map_grow_of_isPlain hplain, h.found_carry hrecord, if_pos hopens,
    hone]

/-- A field of a record stops between the two delimiters. -/
theorem stop_bounds (h : BodyIn source nodes n .struct_ b found front back)
    (hrecord : b.isTuple = false) {f : Node} (hf : f ∈ found) :
    b.opener.start < f.stop ∧ f.stop ≤ b.closer.start := by
  obtain ⟨-, hall, hpair⟩ := h.run_closer.1.ordered
  have hbehind := (List.pairwise_cons.mp (List.pairwise_append.mp hpair).2.1).1
  -- A field whose tokens stay where they are stays, so it cannot stop anywhere else.
  have hfixed := Entry.fields_carry_eq_self
    (e := ⟨id, fun x => if b.opener.start < x ∧ x ≤ b.closer.start then x else x + 1⟩)
    (h.fields_eq hrecord).2 fun t ht => Token.carry_eq_self rfl (if_pos (by
      have hopener := hall b.opener (by simp)
      have htoken := hall t (by simp [ht])
      have := hbehind t ht
      omega))
  have hf := List.map_inj_left.mp (hfixed.trans (List.map_id _).symm) f hf
  have hstop := congrArg Node.stop hf
  rw [Node.stop_carry] at hstop
  by_contra hout
  have hnext : f.stop + 1 = f.stop := (if_neg hout).symm.trans hstop
  omega

/-- Behind the last field stands its comma. -/
theorem ended_of_comma (h : BodyIn source nodes n .struct_ b found front back)
    (hrecord : b.isTuple = false) {last : Node} {t : Token} (hlast : found.getLast? = some last)
    (htokens : tokenize (Text.slice source last.stop b.closer.start) = .ok [t]) :
    Entry.Ended b.opener.stop b.inner found := by
  rcases Entry.exists_last (h.fields_eq hrecord).2 hlast (h.hasBehind htokens) with
    ⟨-, hended⟩ | ⟨hcount, -⟩ | hcount
  · exact hended
  · cases hcount
  · exact absurd hcount (Nat.lt_irrefl 1)

/-- Behind the last field stands nothing, and its type closes its angle brackets. -/
theorem ended_of_last (h : BodyIn source nodes n .struct_ b found front back)
    (hrecord : b.isTuple = false) {last : Node} {span : Span} {type : List TokenTree}
    (hlast : found.getLast? = some last) (hspan : last.type? = some span)
    (htokens : tokenize (Text.slice source last.stop b.closer.start) = .ok [])
    (htype : tokenize (Text.slice source span.start span.stop) = .ok (flattenAll type))
    (hnested : isNestedAll type = true) (hdepth : Entry.depthBehind 0 type = some 0) :
    (flattenAll b.inner).getLast?.map Token.stop = some last.stop ∧
      ∀ comma : TokenTree, comma.isPunct "," = true →
        Entry.Ended b.opener.stop (b.inner ++ [comma]) found := by
  rcases Entry.exists_last (h.fields_eq hrecord).2 hlast (h.hasBehind htokens) with
    ⟨hcount, -⟩ | ⟨-, closed, taken, old, depth, hinner, hclosed, htaken, hfield, rfl⟩ | hcount
  · exact absurd hcount (Nat.lt_irrefl 0)
  · obtain ⟨ahead, colon, part, rfl, hcolon, hahead, hcovers, -⟩ := Entry.recordField_retype hfield hspan
    -- The type in the text is the type on its own, moved.
    have hpart : b.inner = (closed ++ (ahead ++ [colon])) ++ part := by
      rw [hinner]
      simp
    obtain ⟨vs, hvs, hshift⟩ := h.tokenize_end hpart hcovers
    obtain rfl := Except.ok.inj (htype.symm.trans hvs)
    have hnested' := h.nested
    rw [hpart, TokenTree.isNestedAll_append, Bool.and_eq_true] at hnested'
    have hmoved : part = type.map (TokenTree.carry (.same (· + span.start))) := by
      refine TokenTree.flattenAll_injective hnested'.2 ?_ ?_
      · rw [TokenTree.isNestedAll_map_carry, hnested]
      · rw [hshift, TokenTree.flattenAll_map_carry]
        rfl
    have hzero : Entry.depthBehind 0 (ahead ++ colon :: part) = some 0 := by
      rw [List.append_cons, Entry.depthBehind_append hahead, hmoved, Entry.depthBehind_carry, hdepth]
    refine ⟨?_, fun comma hcomma => ?_⟩
    · rw [TokenTree.stop_getLast?_flattenAll, hinner, List.getLast?_append,
        ← Entry.recordField_stop hfield, List.getLast?_eq_some_getLast (by simp)]
      rfl
    · rw [hinner, List.append_assoc]
      exact hclosed.concat hfield hzero hcomma
  · exact absurd hcount (Nat.not_lt_zero 1)

end BodyIn

/-! ### One more field -/

/-- A text that ends where further fields can go: it holds the tokens in front of the body and fields with
their commas, and is the same as the source as far as the fields of the source go. -/
structure Opened (source : List Char) (b : Group) (found : List Node) (front : List Token)
    (a : List Char) (base : List TokenTree) : Prop where
  tokens : tokenize a = .ok (front ++ b.opener :: flattenAll base)
  nested : isNestedAll base = true
  ended : Entry.Ended b.opener.stop base found
  kept : ∃ x ≤ a.length, source.take x = a.take x ∧
    ∀ t ∈ b.opener :: flattenAll b.inner, t.stop ≤ x

namespace Opened

variable {source a block y : List Char} {nodes found : List Node} {n field : Node} {b : Group}
  {front back : List Token} {base trees : List TokenTree} {comma : Token}

/-- Behind fields that have their commas. -/
theorem of_start (h : BodyIn source nodes n .struct_ b found front back)
    (ha : tokenize a = .ok (front ++ b.opener :: flattenAll b.inner)) (hstart : a <+: source)
    (hended : Entry.Ended b.opener.stop b.inner found) : Opened source b found front a b.inner := by
  refine ⟨ha, h.nested, hended, a.length, Nat.le_refl _, ?_, fun t ht => ?_⟩
  · rw [List.take_length, ← List.prefix_iff_eq_take.mp hstart]
  · have := (run_of_lexFrom ha).ordered.2.1 t (List.mem_append_right _ ht)
    omega

/-- Behind the last field, which gets a comma. -/
theorem of_last (h : BodyIn source nodes n .struct_ b found front back) {u t : List Char}
    (ha : tokenize (u ++ t) = .ok (front ++ b.opener :: flattenAll b.inner)) (hstart : u ++ t <+: source)
    (hstop : (flattenAll b.inner).getLast?.map Token.stop = some u.length)
    (hended : ∀ comma : TokenTree, comma.isPunct "," = true →
      Entry.Ended b.opener.stop (b.inner ++ [comma]) found) :
    Opened source b found front (u ++ ',' :: t)
      (b.inner ++ [.leaf ⟨.punct, ",", u.length, u.length + 1⟩]) := by
  obtain ⟨last, hlast, hstop'⟩ := Option.map_eq_some_iff.mp hstop
  obtain ⟨ts, hts⟩ := List.getLast?_eq_some_iff.mp hlast
  have hall : front ++ b.opener :: flattenAll b.inner = (front ++ b.opener :: ts) ++ last :: [] := by
    rw [hts]
    simp
  refine ⟨?_, ?_, hended _ rfl, u.length, by simp, ?_, fun t ht => ?_⟩
  · rw [tokenize_comma ha (by rw [hall, List.getLast?_concat, Option.map_some, hstop']),
      TokenTree.flattenAll_append]
    simp [flattenAll, TokenTree.flatten]
  · rw [TokenTree.isNestedAll_append, h.nested]
    rfl
  · rw [List.take_left, ← List.prefix_iff_eq_take.mp ((List.prefix_append u t).trans hstart)]
  · rw [hall] at ha
    have hrun := (run_of_lexFrom ha).cut_behind.1
    have hmem : t ∈ front ++ b.opener :: ts ++ [last] := by
      rw [← hall]
      exact List.mem_append_right _ ht
    have := hrun.ordered.2.1 t hmem
    omega

/-- Behind the opening delimiter of a record without fields. -/
theorem of_empty (h : BodyIn source nodes n .struct_ b [] front back) {place : Nat}
    (hplace : b.opener.stop = place) (hle : place ≤ source.length)
    (htokens : tokenize (Text.slice source place b.closer.start) = .ok []) :
    Opened source b [] front (source.take place) [] := by
  obtain ⟨hinner, htake⟩ := h.inner_eq_nil hplace htokens
  refine ⟨htake, rfl, .nil _, place, Nat.le_of_eq (List.length_take_of_le hle).symm, ?_, fun t ht => ?_⟩
  · rw [List.take_take, Nat.min_self]
  · rw [hinner] at ht
    exact Nat.le_of_eq (List.mem_singleton.mp ht ▸ hplace)

/-- The text is the source as far as the body is open. -/
theorem take_eq (h : Opened source b found front a base) {place : Nat} (hplace : place ≤ b.opener.stop) :
    place ≤ a.length ∧ source.take place = a.take place := by
  obtain ⟨x, hx, htake, hstop⟩ := h.kept
  have hle : place ≤ x := Nat.le_trans hplace (hstop b.opener List.mem_cons_self)
  refine ⟨Nat.le_trans hle hx, ?_⟩
  rw [← Nat.min_eq_left hle, ← List.take_take, ← List.take_take, htake]

/-- The text of a field on lines of its own. -/
theorem run (h : Opened source b found front a base) (hblock : IsFieldText block trees comma field)
    (hy : ∀ c ∈ y, Text.isBlank c = true) (rest : List Char) :
    Run 0 (a ++ '\n' :: (block ++ y) ++ rest)
      (front ++ b.opener :: flattenAll (base ++ (trees.map (TokenTree.move (· + (a.length + 1))) ++
        [.leaf (comma.shift (a.length + 1))])))
      (a ++ '\n' :: (block ++ y)).length rest := by
  have hrun := (run_line h.tokens (block ++ (y ++ rest))).trans
    ((hblock.run_move (a.length + 1) (y ++ rest)).trans (run_blanks hy _ rest))
  have hlength : a.length + 1 + block.length + y.length = (a ++ '\n' :: (block ++ y)).length := by
    simp
    omega
  rw [hlength] at hrun
  simpa [TokenTree.flattenAll_append, flattenAll, TokenTree.flatten] using hrun

/-- The fields that were there, and the new one. -/
theorem members (h : Opened source b found front a base)
    (hb : BodyIn source nodes n .struct_ b found front back) (hrecord : b.isTuple = false)
    (hblock : IsFieldText block trees comma field) (d : Nat) :
    (b.holding (.behind b.closer.start d) (base ++ (trees.map (TokenTree.move (· + (a.length + 1))) ++
        [.leaf (comma.shift (a.length + 1))]))).members .struct_ =
      .ok (found.map (Node.carry (.behind b.closer.start d)) ++
        [field.move (· + (a.length + 1))]) := by
  have hopener := hb.carry_before d b.opener (by simp)
  have hmore : Entry.nodes Entry.recordField (Entry.divide 0 0 0 []
      (trees.map (TokenTree.move (· + (a.length + 1))) ++ [.leaf (comma.shift (a.length + 1))])) =
        .ok [field.move (· + (a.length + 1))] := by
    have hcomma : (TokenTree.leaf (comma.shift (a.length + 1))).isPunct "," = true := hblock.mark
    rw [Entry.divide_at_comma (hblock.depth_move _) hcomma]
    exact Entry.nodes_cons_eq_ok.mpr ⟨_, [], hblock.recordField_move _, rfl, rfl⟩
  rw [Group.members_of_record (b := b.holding _ _) hrecord, hb.found_carry hrecord d]
  have hnodes := h.ended.nodes_append hmore (b.closer.carry (.behind b.closer.start d)).start
  rw [← hopener] at hnodes
  exact hnodes

/-- What is seen of the fields that were there, and of the new one. -/
theorem fieldView (h : Opened source b found front a base)
    (hb : BodyIn source nodes n .struct_ b found front back) (hrecord : b.isTuple = false)
    (hblock : IsFieldText block trees comma field) (rest : List Char) :
    (found ++ [field.move (· + (a.length + 1))]).map
        (Node.fieldView (a ++ '\n' :: (block ++ y) ++ rest)) =
      found.map (Node.fieldView source) ++ [field.fieldView block] := by
  obtain ⟨x, hx, htake, hstop⟩ := h.kept
  have hold : found.map (Node.fieldView (a ++ '\n' :: (block ++ y) ++ rest)) =
      found.map (Node.fieldView source) := by
    refine Entry.fieldView_congr (hb.fields_eq hrecord).2
      (fun t ht => hstop t (List.mem_cons_of_mem _ ht)) ?_
    rw [htake, List.append_assoc, List.take_append_of_le_length hx]
  have hnew := hblock.fieldView_around (a ++ ['\n']) (y ++ rest)
  rw [List.length_append, List.length_singleton] at hnew
  have htext : a ++ '\n' :: (block ++ y) ++ rest = a ++ ['\n'] ++ (block ++ (y ++ rest)) := by simp
  rw [List.map_append, hold, htext, List.map_singleton, hnew]

/-- **The record gets the field**: the text is read as it was, carried, with the field behind those of the
record. -/
theorem parse_field (h : Opened source b found front a base)
    (hb : BodyIn source nodes n .struct_ b found front back) (hrecord : b.isTuple = false)
    (hblock : IsFieldText block trees comma field) (hy : ∀ c ∈ y, Text.isBlank c = true)
    (revision : Nat) :
    let text := a ++ '\n' :: (block ++ y)
    parse (text ++ source.drop b.closer.start) revision =
      .ok ⟨text ++ source.drop b.closer.start, (Node.mk .file 0 0 source.length nodes).grow
        (.behind b.closer.start text.length) b.opener.start
          [field.move (· + (a.length + 1))], revision⟩ := by
  intro text
  have hcomma : TokenTree.isNested (.leaf (comma.shift (a.length + 1))) = true :=
    TokenTree.isNested_leaf (t := comma.shift _) hblock.mark (by decide)
  have hnested : isNestedAll (base ++ (trees.map (TokenTree.move (· + (a.length + 1))) ++
      [.leaf (comma.shift (a.length + 1))])) = true := by
    rw [TokenTree.isNestedAll_append, TokenTree.isNestedAll_append, isNestedAll_map_move, h.nested,
      hblock.nested, isNestedAll, hcomma]
    rfl
  exact (hb.insert hnested (h.run hblock hy _) (h.members hb hrecord hblock _)).2 revision

end Opened

end ContractSync.Rust
