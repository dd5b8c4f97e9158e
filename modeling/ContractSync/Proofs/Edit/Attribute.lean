import ContractSync.Proofs.Edit.Arguments

/-!
# Adding attributes

An entry goes to the end of the last attribute of its group, an attribute that is not there yet goes in front
of the declaration. Either way the text is read as it was, with the declaration dressed (`addEntry_revises`,
`addInFront_revises`). So **a request for an attribute changes nothing when it comes again**
(`addAttribute_again`): what it has put there is seen.

What is seen need not be shown. The name is looked for in the text between the parentheses, where a comment or
a literal can hold it, and a comment up to the end of its line takes along what is put behind it. **An entry is
shown behind the edit if and only if neither is the case** (`addAttribute_shows_iff`).
-/

namespace ContractSync.Edit

open Rust (Attributes Edges InLineComment IsPath Node OuterAttribute PathTokens Span Spells Token TokenTree
  Tree parse tokenize)
open Rust.Lexer
open Rust.TokenTree (flattenAll isNestedAll)

variable {source result : List Char} {declaration group : String} {n n' : Node} {args : Span}
  {own : List TokenTree} {inner : List Node} {front back : List Token}

/-! ### What a group shows -/

/-- Between the parentheses of an attribute of the group, the name is one of the tokens. -/
def Shows (source : List Char) (n : Node) (group : String) (name : List Char) : Prop :=
  ∃ args ∈ groupArgs n group, ∃ t ∈ (tokenize source).toOption.getD [],
    t.kind = .ident ∧ t.text.toList = name ∧ args.start < t.start ∧ t.stop ≤ args.stop

instance (source : List Char) (n : Node) (group : String) (name : List Char) :
    Decidable (Shows source n group name) :=
  inferInstanceAs (Decidable (∃ args ∈ groupArgs n group, ∃ t ∈ (tokenize source).toOption.getD [],
    t.kind = .ident ∧ t.text.toList = name ∧ args.start < t.start ∧ t.stop ≤ args.stop))

/-- Between the parentheses of an attribute of the group, the name occurs in the text: as a token, or in a
comment or a literal. -/
def Sees (source : List Char) (n : Node) (group : String) (name : List Char) : Prop :=
  ∃ args ∈ groupArgs n group, Text.occursBounded name (between source args) = true

instance (source : List Char) (n : Node) (group : String) (name : List Char) :
    Decidable (Sees source n group name) :=
  inferInstanceAs (Decidable (∃ args ∈ groupArgs n group,
    Text.occursBounded name (between source args) = true))

theorem shows_iff {ts : List Token} {name : List Char} (h : tokenize source = .ok ts) :
    Shows source n group name ↔ ∃ args ∈ groupArgs n group, ∃ t ∈ ts,
      t.kind = .ident ∧ t.text.toList = name ∧ args.start < t.start ∧ t.stop ≤ args.stop := by
  rw [Shows, h]
  rfl

theorem Declared.sees_of_shows (h : Declared source declaration n own inner front back) {name : List Char}
    (hshows : Shows source n group name) : Sees source n group name := by
  obtain ⟨args, hargs, t, ht, hkind, rfl, hstart, hstop⟩ := hshows
  obtain ⟨left, opener, held, closer, right, hin, -⟩ := h.exists_argsIn hargs
  rw [hin.tokens] at ht
  exact ⟨args, hargs, hin.run_between.occursBounded (hin.mem_held ht hstart hstop) hkind⟩

/-- The tokens of the text and the attributes of the declaration are still there, carried alike. -/
def Retains (source result : List Char) (n n' : Node) : Prop :=
  ∃ (e : Edges) (front added back : List Token) (more : List Node),
    tokenize source = .ok (front ++ back) ∧
    tokenize result = .ok (front.map (·.carry e) ++ (added ++ back.map (·.carry e))) ∧
    n'.attributes = n.attributes.map (Node.carry e) ++ more

theorem Declared.retains (h : Declared source declaration n own inner front back) :
    Retains source source n n := by
  have hsame : (fun t : Token => t.carry (.same id)) = id := rfl
  refine ⟨.same id, front ++ (flattenAll own ++ back), [], [], [], ?_, ?_, ?_⟩
  · rw [h.tokens, List.append_nil]
  · rw [h.tokens, hsame, List.map_id, List.map_nil, List.append_nil, List.append_nil]
  · rw [Node.map_carry_same, List.append_nil, List.map_congr_left fun m _ => Node.move_id m, List.map_id']

/-- The declaration is found in another text, with all that was there. -/
structure Revises (source result : List Char) (declaration : String) (n n' : Node) : Prop where
  found : ∃ after, parse result = .ok after ∧ after.find? declaration [.struct_, .enum_] = some n'
  retains : Retains source result n n'

/-- A name that is shown where no token is new was shown before. -/
theorem shows_of_carry {c d : Nat} {ts : List Token} {name : List Char} (hle : c ≤ d)
    (hsource : tokenize source = .ok ts) (hresult : tokenize result = .ok (ts.map (·.carry (.behind c d))))
    (hattributes : n'.attributes = n.attributes.map (Node.carry (.behind c d)))
    (h : Shows result n' group name) : Shows source n group name := by
  obtain ⟨args, hargs, u, hu, hkind, hname, hstart, hstop⟩ := (shows_iff hresult).mp h
  obtain ⟨t, ht, rfl⟩ := List.mem_map.mp hu
  rw [← List.append_nil (n.attributes.map _)] at hattributes
  obtain ⟨old, hold, rfl⟩ := ((mem_groupArgs_carry hattributes).mp hargs).resolve_right nofun
  have hbefore : (if old.start < c then old.start else old.start - c + d) <
      if t.start < c then t.start else t.start - c + d := hstart
  have hbehind : (if t.stop ≤ c then t.stop else t.stop - c + d) ≤
      if old.stop < c then old.stop else old.stop - c + d := hstop
  refine (shows_iff hsource).mpr ⟨old, hold, t, ht, hkind, hname, ?_, ?_⟩
  · split at hbefore <;> split at hbefore <;> omega
  · split at hbehind <;> split at hbehind <;> omega

/-! ### An attribute in front of the declaration -/

/-- An attribute in front of an item is put directly there, with blanks behind it. -/
theorem addInFront_eq (source : List Char) (itemStart : Nat) (attr : List Char) :
    ∃ sep, addInFront source itemStart attr =
        source.take itemStart ++ (attr ++ sep) ++ source.drop itemStart ∧
      sep ≠ [] ∧ ∀ c ∈ sep, Text.isBlank c = true := by
  rw [addInFront]
  split
  · rename_i hblank
    obtain ⟨line, htake, hslice, -, hle, -⟩ := Text.take_lineStart source itemStart
    rw [hslice] at hblank ⊢
    have hdrop : source.drop (Text.lineStart source itemStart) = line ++ source.drop itemStart := by
      have hall := List.take_append_drop itemStart source
      rw [htake, List.append_assoc] at hall
      exact List.append_cancel_left
        ((List.take_append_drop (Text.lineStart source itemStart) source).trans hall.symm)
    refine ⟨'\n' :: line, ?_, List.cons_ne_nil _ _, List.forall_mem_cons.mpr ⟨by decide, List.all_eq_true.mp hblank⟩⟩
    rw [Text.splice, hdrop, htake]
    simp
  · refine ⟨[' '], ?_, List.cons_ne_nil _ _, by decide⟩
    rw [Text.splice, List.append_assoc]

/-- An attribute has been put in front of a declaration, with `sep` behind it. -/
structure InFront (source attr : List Char) (declaration : String) (n n' : Node) (a : OuterAttribute)
    (sep result : List Char) : Prop where
  text : result = source.take n.itemStart ++ (attr ++ sep) ++ source.drop n.itemStart
  tokens : ∃ before behind, tokenize result =
    .ok (before ++ (flattenAll a.trees).map (Token.shift n.itemStart) ++ behind)
  revises : Revises source result declaration n n'
  attributes : ∃ e, n'.attributes =
    n.attributes.map (Node.carry e) ++ [a.node.carry (.same (· + n.itemStart))]
  start : n'.start ≤ n.itemStart
  itemStart : n'.itemStart = (source.take n.itemStart ++ (attr ++ sep)).length

/-- Between its parentheses the attribute has its entry. -/
theorem InFront.between_eq {group attr sep : List Char} {a : OuterAttribute}
    (h : InFront source (Rust.groupText group attr) declaration n n' a sep result)
    (hlength : (source.take n.itemStart).length = n.itemStart) :
    between result ⟨group.length + 2 + n.itemStart, group.length + 3 + attr.length + n.itemStart⟩ = attr := by
  have hslice := Text.slice_between (source.take n.itemStart ++ '#' :: '[' :: (group ++ ['(']))
    attr (')' :: ']' :: (sep ++ source.drop n.itemStart))
  have hresult : source.take n.itemStart ++ '#' :: '[' :: (group ++ ['(']) ++ attr ++
      ')' :: ']' :: (sep ++ source.drop n.itemStart) = result := by
    rw [h.text, Rust.groupText]
    simp
  rw [hresult] at hslice
  rw [between]
  refine Eq.trans ?_ hslice
  congr 1
  · simp only [List.length_append, List.length_cons, List.length_nil, hlength]
    omega
  · simp only [List.length_append, List.length_cons, List.length_nil, hlength]
    omega

namespace Declared

/-- In front of the declaration the text can be any other from there on. -/
theorem run_front (h : Declared source declaration n own inner front back) (u : List Char) :
    Run 0 (source.take n.itemStart ++ u) (front ++ flattenAll own) n.itemStart u := by
  obtain ⟨first, hfirst, hstart⟩ := Option.map_eq_some_iff.mp h.place
  obtain ⟨rest, rfl⟩ := List.head?_eq_some_iff.mp hfirst
  have hall := run_of_lexFrom h.tokens
  rw [← List.append_assoc] at hall
  obtain ⟨c, w, r, hbefore, hstep, -⟩ := hall.split
  have hline : startsWith (· != '\n') (c :: (w ++ r)) = true :=
    bne_iff_ne.mpr (ne_newline_of_step_some hstep)
  have hdrop := hbefore.eq_drop
  have hborder : ∀ t ∈ (front ++ flattenAll own).getLast?, t.isBorder = true := by
    intro t ht
    rw [List.getLast?_append] at ht
    cases hlast : (flattenAll own).getLast? with
    | some u =>
      rw [hlast] at ht
      cases ht
      rw [Token.isBorder, h.attributes.getLast h.nested hlast, Bool.or_true]
    | none =>
      rw [hlast] at ht
      exact h.border t ht
  rw [← hstart]
  refine Run.congr_behind (u := c :: (w ++ r)) ?_ hborder hline u
  rw [hdrop] at hbefore ⊢
  rwa [List.take_append_drop]

theorem length_take (h : Declared source declaration n own inner front back) :
    (source.take n.itemStart).length = n.itemStart := by
  obtain ⟨first, hfirst, hstart⟩ := Option.map_eq_some_iff.mp h.place
  have hbounds := (run_of_lexFrom h.tokens).ordered.2.1 first
    (List.mem_append_right _ (List.mem_append_right _ (List.mem_of_mem_head? hfirst)))
  rw [List.length_take]
  omega

theorem attributes_withAttributes (h : Declared source declaration n own inner front back) {e : Edges}
    {more : List Node} (hmore : ∀ m ∈ more, m.isAttribute = true) :
    (n.withAttributes e (n.attributes.map (Node.carry e) ++ more)).attributes =
      n.attributes.map (Node.carry e) ++ more :=
  Node.attributes_withAttributes n
    (List.forall_mem_append.mpr ⟨(h.attributes.carry e).isAttribute, hmore⟩)

/-- The attributes begin in front of the declaration. -/
theorem start_le (h : Declared source declaration n own inner front back) {d : Nat} {m : Node}
    (hm : m.start = n.itemStart) :
    (n.withAttributes (.behind n.itemStart d)
      (n.attributes.map (Node.carry (.behind n.itemStart d)) ++ [m])).start ≤ n.itemStart := by
  rw [Node.start_withAttributes]
  cases hattributes : n.attributes with
  | nil => exact Nat.le_of_eq hm
  | cons first rest =>
    obtain ⟨t, ht, hstart⟩ := h.attributes.exists_start (n := first) (by
      rw [hattributes]
      exact List.mem_cons_self)
    have hbounds := (h.run_front []).ordered.2.1 t (List.mem_append_right _ ht)
    rw [List.map_cons, List.cons_append, List.head?_cons, Option.map_some, Option.getD_some, Node.start_carry]
    show (if first.start < n.itemStart then first.start else _) ≤ n.itemStart
    rw [if_pos (by omega)]
    omega

/-- The attribute is met behind those that are there. -/
theorem run_inFront (h : Declared source declaration n own inner front back) {attr sep : List Char}
    {trees : List TokenTree} (hattr : Spells attr trees) (hne : sep ≠ [])
    (hblank : ∀ c ∈ sep, Text.isBlank c = true) :
    Run 0 (source.take n.itemStart ++ (attr ++ sep) ++ source.drop n.itemStart)
      (front ++ flattenAll own ++ (flattenAll trees).map (Token.shift n.itemStart))
      (source.take n.itemStart ++ (attr ++ sep)).length (source.drop n.itemStart) := by
  have hcalm : Calm (sep ++ source.drop n.itemStart) ∧
      startsWith (· == '/') (sep ++ source.drop n.itemStart) = false := by
    obtain ⟨c, sep, rfl⟩ := List.exists_cons_of_ne_nil hne
    have hc := hblank c List.mem_cons_self
    refine ⟨.of_isBlank hc, beq_false_of_ne ?_⟩
    rintro rfl
    cases hc
  have hread := (hattr.run hcalm.1 hcalm.2).shift n.itemStart
  rw [Nat.zero_add, Nat.add_comm] at hread
  have hall := ((h.run_front _).trans hread).trans (run_blanks hblank _ _)
  rw [List.length_append, h.length_take, List.length_append, ← Nat.add_assoc]
  simpa using hall

/-- **With an attribute in front of it the declaration is found with that attribute behind the others.** -/
theorem exists_inFront (h : Declared source declaration n own inner front back) {a : OuterAttribute}
    {attr : List Char} (hattr : Spells attr a.trees) :
    ∃ n' sep, InFront source attr declaration n n' a sep (addInFront source n.itemStart attr) := by
  obtain ⟨sep, htext, hne, hblank⟩ := addInFront_eq source n.itemStart attr
  have hbefore := h.run_front (source.drop n.itemStart)
  rw [List.take_append_drop] at hbefore
  have htokens := Rust.tokenize_behind hbefore (by rw [h.tokens, List.append_assoc])
    (h.run_inFront hattr hne hblank)
  rw [← htext] at htokens
  generalize hd : (source.take n.itemStart ++ (attr ++ sep)).length = d at htokens
  have hfront : (front ++ flattenAll own).map (·.carry (.behind n.itemStart d)) = front ++ flattenAll own :=
    hbefore.map_carry_eq_self (List.Subset.refl _) d
  have hnew : Attributes (own.map (TokenTree.carry (.behind n.itemStart d)) ++
        a.trees.map (TokenTree.carry (.same (· + n.itemStart))))
      (inner.map (Node.carry (.behind n.itemStart d)) ++ [])
      (n.attributes.map (Node.carry (.behind n.itemStart d)) ++
        [a.node.carry (.same (· + n.itemStart))]) :=
    (h.attributes.carry _).append (Attributes.carry (.outer a.isHash a.isBracket .nil) _)
  rw [List.append_nil] at hnew
  have hadded : ∀ m ∈ [a.node.carry (.same (· + n.itemStart))], m.isAttribute = true :=
    List.forall_mem_singleton.mpr rfl
  have hattributes := h.attributes_withAttributes (e := .behind n.itemStart d) hadded
  have hfound := @h.dressed _ (addInFront source n.itemStart attr) _ _ hnew ?_ ?_
  · refine ⟨_, sep, htext, ⟨_, _, htokens⟩, ⟨hfound, ?_⟩, ⟨_, hattributes⟩, h.start_le ?_, ?_⟩
    · refine ⟨_, front ++ flattenAll own, (flattenAll a.trees).map (Token.shift n.itemStart), back, _, ?_, ?_,
        hattributes⟩
      · rw [h.tokens, List.append_assoc]
      · rw [htokens, hfront, List.append_assoc]
    · have hstart : a.hash.start = 0 := Option.some.inj hattr.covers.1
      rw [Node.start_carry]
      show a.hash.start + n.itemStart = _
      rw [hstart, Nat.zero_add]
    · rw [Node.itemStart_withAttributes, hd]
      show (if n.itemStart < n.itemStart then _ else n.itemStart - n.itemStart + d) = d
      rw [if_neg (Nat.lt_irrefl _), Nat.sub_self, Nat.zero_add]
  · rw [Rust.TokenTree.isNestedAll_append, Rust.TokenTree.isNestedAll_map_carry,
      Rust.TokenTree.isNestedAll_map_carry, h.nested, hattr.nested]
    rfl
  · rw [htokens, Rust.TokenTree.flattenAll_append, Rust.TokenTree.flattenAll_map_carry,
      Rust.TokenTree.flattenAll_map_carry, hbefore.map_carry_eq_self (List.subset_append_left ..),
      hbefore.map_carry_eq_self (List.subset_append_right ..)]
    simp only [List.append_assoc]
    rfl

variable {attr : String} {gs as : List Token}

/-- **One more entry in the last attribute of the group.** -/
theorem addEntry_revises (h : Declared source declaration n own inner front back)
    (hargs : args ∈ groupArgs n group) (hattr : PathTokens attr as)
    (hunseen : ¬ Sees source n group (lastSegment attr.toList)) :
    ∃ n', Revises source (addEntry source args attr.toList) declaration n n' ∧
      Sees (addEntry source args attr.toList) n' group (lastSegment attr.toList) ∧
      (Shows (addEntry source args attr.toList) n' group (lastSegment attr.toList) ↔
        ¬ InLineComment source (entryPlace source args)) := by
  obtain ⟨left, opener, held, closer, right, hin, hheld, hfind⟩ := h.exists_argsIn hargs
  obtain ⟨content, added, hentered⟩ := hin.exists_entered hattr
  have htokens := hin.tokenize_new hentered.run
  have hbetween := hentered.between_eq hin.length_take
  have hgrows : InLineComment source (entryPlace source args) →
      args.stop ≤ (source.take (args.start + 1) ++ content).length := fun hline => by
    have hle := (hentered.hidden hline).2
    rw [hin.length_between] at hle
    rw [List.length_append, hin.length_take]
    omega
  rw [← hentered.text] at htokens
  generalize (source.take (args.start + 1) ++ content).length = d at *
  generalize addEntry source args attr.toList = result at *
  have hfront : (left ++ opener :: held).map (·.carry (.behind args.stop d)) = left ++ opener :: held :=
    hin.run_stop.map_carry_eq_self (List.Subset.refl _) d
  have hsource : tokenize source = .ok ((left ++ opener :: held) ++ closer :: right) := by
    rw [hin.tokens]
    simp
  have hfound := @hfind (.behind args.stop d) result _ (hentered.nested hheld) (by
    rw [hin.run_stop.map_carry_eq_self (by intro; simp; tauto), htokens]
    simp)
  have hattributes := h.attributes_withAttributes (e := .behind args.stop d) (List.forall_mem_nil _)
  have hargs' := (mem_groupArgs_carry hattributes).mpr (.inl ⟨args, hargs, hin.move_behind d⟩)
  rw [List.append_nil] at hattributes hargs'
  refine ⟨_, ⟨hfound, .behind args.stop d, _, added, _, [], hsource, ?_, ?_⟩,
    ⟨_, hargs', hbetween ▸ hentered.bounded⟩, fun hshows hline => hunseen (h.sees_of_shows ?_),
    fun hnone => ?_⟩
  · rw [htokens, hfront]
    simp
  · rw [hattributes, List.append_nil]
  · -- All tokens are those of the source.
    obtain ⟨rfl, -⟩ := hentered.hidden hline
    refine shows_of_carry (hgrows hline) hsource ?_ hattributes hshows
    rw [htokens, List.map_append, hfront, List.append_nil]
  · obtain ⟨t, ht, hkind, hname⟩ := hentered.shown hnone
    have hin' := hin.of_tokens htokens
    obtain ⟨hstart, hstop⟩ := hin'.of_mem_held (List.mem_append_right held ht)
    exact (shows_iff hin'.tokens).mpr ⟨_, hargs', t, by simp [ht], hkind, hname, hstart, hstop⟩

/-- **An attribute of the group with one entry.** -/
theorem addInFront_revises (h : Declared source declaration n own inner front back)
    (hgroup : PathTokens group gs) (hattr : PathTokens attr as) :
    let result := addInFront source n.itemStart (Rust.groupText group.toList attr.toList)
    ∃ n', Revises source result declaration n n' ∧ Sees result n' group (lastSegment attr.toList) ∧
      Shows result n' group (lastSegment attr.toList) := by
  intro result
  obtain ⟨n', sep, hin⟩ := h.exists_inFront (Rust.spells_groupText hgroup hattr)
  obtain ⟨e, hattributes⟩ := hin.attributes
  have hargs : (⟨group.toList.length + 2 + n.itemStart,
      group.toList.length + 3 + attr.toList.length + n.itemStart⟩ : Span) ∈ groupArgs n' group :=
    (mem_groupArgs_carry hattributes).mpr (.inr ⟨_, List.mem_singleton_self _, false, by
      rw [Node.shape_carry, Rust.shape_groupAttribute hgroup]
      rfl⟩)
  refine ⟨n', hin.revises, ⟨_, hargs, ?_⟩, ?_⟩
  · rw [hin.between_eq h.length_take]
    exact occursBounded_path_self hattr
  · obtain ⟨before, behind, htokens⟩ := hin.tokens
    obtain ⟨lead, -, -, t, ht, hkind, hname⟩ := exists_lastSegment hattr
    have hbounds := (hattr.lexes [] rfl).ordered.2.1 t ht
    have hmem := @Rust.shift_mem_groupTokens group.toList attr.toList gs _ t ht
    rw [← (Rust.flattenAll_groupAttribute _ _ hgroup.chain.plain hattr.chain.plain).1] at hmem
    refine (shows_iff htokens).mpr
      ⟨_, hargs, (t.shift (group.toList.length + 3)).shift n.itemStart, ?_, hkind, hname, ?_, ?_⟩
    · exact List.mem_append_left _ (List.mem_append_right _ (List.mem_map_of_mem hmem))
    · show group.toList.length + 2 + n.itemStart < t.start + (group.toList.length + 3) + n.itemStart
      omega
    · show t.stop + (group.toList.length + 3) + n.itemStart ≤ _
      dsimp only
      omega

/-- The group of a declaration without the name has one more entry, or is new. -/
theorem addToGroup_revises (h : Declared source declaration n own inner front back) (hgroup : IsPath group)
    (hattr : IsPath attr) (hunseen : ¬ Sees source n group (lastSegment attr.toList)) :
    ∃ n', Revises source (addToGroup source n group attr) declaration n n' ∧
      Sees (addToGroup source n group attr) n' group (lastSegment attr.toList) ∧
      (Shows (addToGroup source n group attr) n' group (lastSegment attr.toList) ↔
        ∀ args ∈ (groupArgs n group).getLast?, ¬ InLineComment source (entryPlace source args)) := by
  obtain ⟨gs, hgs⟩ := hgroup.exists_tokens
  obtain ⟨as, has⟩ := hattr.exists_tokens
  have hany : ((groupArgs n group).any fun args =>
      Text.occursBounded (lastSegment attr.toList) (between source args)) = false := by
    rw [← Bool.not_eq_true, List.any_eq_true]
    exact hunseen
  rw [addToGroup, if_neg (by rw [hany]; exact Bool.false_ne_true)]
  cases hlast : (groupArgs n group).getLast? with
  | some args =>
    obtain ⟨n', hrevises, hsees, hshows⟩ := h.addEntry_revises (List.mem_of_getLast? hlast) has hunseen
    refine ⟨n', hrevises, hsees, hshows.trans ?_⟩
    simp
  | none =>
    obtain ⟨n', hrevises, hsees, hshows⟩ := h.addInFront_revises hgs has
    have htext : "#[".toList ++ group.toList ++ ['('] ++ attr.toList ++ [')', ']'] =
        Rust.groupText group.toList attr.toList := by
      rw [show "#[".toList = ['#', '['] from Text.toList_const rfl, Rust.groupText]
      simp
    dsimp only
    rw [htext]
    exact ⟨n', hrevises, hsees, iff_of_true hshows forall_mem_none⟩

end Declared

theorem addToGroup_of_sees {attr : String} (h : Sees source n group (lastSegment attr.toList)) :
    addToGroup source n group attr = source :=
  if_pos (List.any_eq_true.mpr h)

/-- An attribute that has been put in front of a declaration is there when it comes again. -/
theorem addPlain_of_inFront {attr : String} {a : OuterAttribute} {sep : List Char}
    (hlength : (source.take n.itemStart).length = n.itemStart)
    (h : InFront source (bracketed (Text.trim attr.toList)) declaration n n' a sep result) :
    addPlain result n' attr = result := by
  refine if_pos ?_
  have hslice : Text.slice result n'.start n'.itemStart =
      (source.take n.itemStart).drop n'.start ++ (bracketed (Text.trim attr.toList) ++ sep) := by
    have hle : n'.start ≤ (source.take n.itemStart).length := hlength.symm ▸ h.start
    rw [Text.slice, h.itemStart, h.text, List.take_left, List.drop_append_of_le_length hle]
  rw [hslice, compact_append, compact_append]
  exact Text.occursIn_append ..

/-! ### The request again -/

section Requests

variable {tree : Tree} {attr : String} {path : Option String}

theorem addAttribute_eq (h : parse source = .ok tree)
    (hfound : tree.find? declaration [.struct_, .enum_] = some n) (group : Option String) :
    apply source (.addAttribute declaration attr group) path =
      .ok (match group with
        | some group => addToGroup source n group attr
        | none => addPlain source n attr) := by
  show addAttribute source declaration attr group path = _
  simp only [addAttribute, readSource_eq_ok.mpr h, target_eq_ok.mpr hfound, bind, Except.bind]
  rfl

/-- The attribute that a request asks for: one entry of a group, or a whole attribute, with its hash mark and
brackets or without. -/
def AsksFor (attr : String) : Option String → Prop
  | some group => IsPath group ∧ IsPath attr
  | none => ∃ a : OuterAttribute, Spells (bracketed (Text.trim attr.toList)) a.trees

/-- **A request for an attribute changes nothing when it comes again.** -/
theorem addAttribute_again {group : Option String} (hasks : AsksFor attr group)
    (h : apply source (.addAttribute declaration attr group) path = .ok result) :
    apply result (.addAttribute declaration attr group) path = .ok result := by
  have hreads : ∃ tree n, parse source = .ok tree ∧
      tree.find? declaration [.struct_, .enum_] = some n := by
    obtain ⟨tree, htree, h⟩ := bind_eq_ok.mp h
    obtain ⟨n, hfound, -⟩ := bind_eq_ok.mp h
    exact ⟨tree, n, readSource_eq_ok.mp htree, target_eq_ok.mp hfound⟩
  obtain ⟨tree, n, htree, hfound⟩ := hreads
  obtain ⟨own, inner, front, back, hdeclared⟩ := exists_declared htree hfound
  rw [addAttribute_eq htree hfound] at h
  obtain rfl := Except.ok.inj h
  cases group with
  | some group =>
    by_cases hsees : Sees source n group (lastSegment attr.toList)
    · dsimp only
      rw [addToGroup_of_sees hsees, addAttribute_eq htree hfound]
      exact congrArg Except.ok (addToGroup_of_sees hsees)
    · obtain ⟨n', ⟨⟨after, hafter, hfound'⟩, -⟩, hsees', -⟩ :=
        hdeclared.addToGroup_revises hasks.1 hasks.2 hsees
      rw [addAttribute_eq hafter hfound']
      exact congrArg Except.ok (addToGroup_of_sees hsees')
  | none =>
    by_cases hpresent : Text.occursIn (compact (bracketed (Text.trim attr.toList)))
        (compact (Text.slice source n.start n.itemStart)) = true
    · have hsame : addPlain source n attr = source := if_pos hpresent
      dsimp only
      rw [hsame, addAttribute_eq htree hfound]
      exact congrArg Except.ok hsame
    · obtain ⟨a, ha⟩ := hasks
      obtain ⟨n', sep, hin⟩ := hdeclared.exists_inFront ha
      obtain ⟨after, hafter, hfound'⟩ := hin.revises.found
      have hplain : addPlain source n attr =
          addInFront source n.itemStart (bracketed (Text.trim attr.toList)) := if_neg hpresent
      dsimp only
      rw [hplain, addAttribute_eq hafter hfound']
      exact congrArg Except.ok (addPlain_of_inFront hdeclared.length_take hin)

/-! ### An entry of its own, and an attribute without a group -/

def deriveText : List Char := "#[derive(Clone)]\nstruct S;\n".toList

theorem addAttribute_again_deriveSample :
    (∃ result, apply deriveText (.addAttribute "S" "Debug" (some "derive")) none = .ok result ∧
      result = "#[derive(Clone, Debug)]\nstruct S;\n".toList ∧
      apply result (.addAttribute "S" "Debug" (some "derive")) none = .ok result) ∧
    ∃ result, apply deriveText (.addAttribute "S" "must_use" none) none = .ok result ∧
      result = "#[derive(Clone)]\n#[must_use]\nstruct S;\n".toList ∧
      apply result (.addAttribute "S" "must_use" none) none = .ok result := by
  have hentry : apply deriveText (.addAttribute "S" "Debug" (some "derive")) none =
      .ok "#[derive(Clone, Debug)]\nstruct S;\n".toList := eq_ok_of_toOption (by decide +kernel)
  have hplain : apply deriveText (.addAttribute "S" "must_use" none) none =
      .ok "#[derive(Clone)]\n#[must_use]\nstruct S;\n".toList := eq_ok_of_toOption (by decide +kernel)
  have hnames : AsksFor "Debug" (some "derive") :=
    ⟨Rust.isPath_of_isIdentifier (by decide), Rust.isPath_of_isIdentifier (by decide)⟩
  have hattribute : AsksFor "must_use" none :=
    ⟨{ hash := ⟨.punct, "#", 0, 1⟩
       group := ⟨⟨.punct, "[", 1, 2⟩, [.leaf ⟨.ident, "must_use", 2, 10⟩], ⟨.punct, "]", 10, 11⟩⟩
       isHash := rfl
       isBracket := rfl }, eq_ok_of_toOption (by decide +kernel), rfl, rfl, rfl⟩
  exact ⟨⟨_, hentry, rfl, addAttribute_again hnames hentry⟩, _, hplain, rfl,
    addAttribute_again hattribute hplain⟩

/-- **An entry that has been added is shown**, and the text stays as it is just where the entry was shown
before, if and only if what is seen of it is shown and the place for a new entry is in no comment. -/
theorem addAttribute_shows_iff {group : String} (h : parse source = .ok tree)
    (hfound : tree.find? declaration [.struct_, .enum_] = some n) (hgroup : IsPath group)
    (hattr : IsPath attr) (path : Option String) :
    let key := lastSegment attr.toList
    ∃ result after n', apply source (.addAttribute declaration attr (some group)) path = .ok result ∧
      parse result = .ok after ∧ after.find? declaration [.struct_, .enum_] = some n' ∧
      Retains source result n n' ∧
      (Shows result n' group key ∧ (result = source ↔ Shows source n group key) ↔
        (Sees source n group key → Shows source n group key) ∧
        (¬ Sees source n group key →
          ∀ args ∈ (groupArgs n group).getLast?, ¬ InLineComment source (entryPlace source args))) := by
  intro key
  obtain ⟨own, inner, front, back, hdeclared⟩ := exists_declared h hfound
  refine ⟨addToGroup source n group attr, ?_⟩
  by_cases hsees : Sees source n group key
  · rw [addToGroup_of_sees hsees]
    refine ⟨tree, n, ?_, h, hfound, hdeclared.retains, ?_⟩
    · rw [addAttribute_eq h hfound]
      exact congrArg Except.ok (addToGroup_of_sees hsees)
    · constructor
      · exact fun hshows => ⟨fun _ => hshows.1, fun hnone => absurd hsees hnone⟩
      · exact fun hshows => ⟨hshows.1 hsees, iff_of_true rfl (hshows.1 hsees)⟩
  · obtain ⟨n', ⟨⟨after, hafter, hfound'⟩, hretains⟩, hsees', hshows⟩ :=
      hdeclared.addToGroup_revises hgroup hattr hsees
    -- The new text is another one, for there the name is seen.
    have hne : addToGroup source n group attr ≠ source := by
      intro hsame
      rw [hsame] at hafter hsees'
      obtain rfl := Except.ok.inj (hafter.symm.trans h)
      obtain rfl := Option.some.inj (hfound'.symm.trans hfound)
      exact hsees hsees'
    have hunshown : ¬ Shows source n group key := fun hshown => hsees (hdeclared.sees_of_shows hshown)
    refine ⟨after, n', addAttribute_eq h hfound _, hafter, hfound', hretains, ?_⟩
    constructor
    · exact fun hboth => ⟨fun hseen => absurd hseen hsees, fun _ => hshows.mp hboth.1⟩
    · exact fun hall => ⟨hshows.mpr (hall.2 hsees), iff_of_false hne hunshown⟩

/-! ### An entry behind another -/

def deriveStruct : Node :=
  .mk (.item .struct_ (some "S") none) 0 17 26
    [.mk (.attribute (some "derive") (some ⟨8, 14⟩) false) 0 0 16 []]

def deriveTree : Tree := ⟨deriveText, .mk .file 0 0 27 [deriveStruct], 0⟩

theorem addAttribute_shows_iff_deriveSample :
    ∃ result after n', apply deriveText (.addAttribute "S" "Debug" (some "derive")) none = .ok result ∧
      result = "#[derive(Clone, Debug)]\nstruct S;\n".toList ∧ parse result = .ok after ∧
      after.find? "S" [.struct_, .enum_] = some n' ∧ Retains deriveText result deriveStruct n' ∧
      Shows result n' "derive" "Debug".toList := by
  have h : parse deriveText = .ok deriveTree := eq_ok_of_toOption (by decide +kernel)
  have hfound : deriveTree.find? "S" [.struct_, .enum_] = some deriveStruct := by decide
  have hunseen : ¬ Sees deriveText deriveStruct "derive" (lastSegment "Debug".toList) := by decide
  have hgroup : IsPath "derive" := Rust.isPath_of_isIdentifier (by decide)
  have hattr : IsPath "Debug" := Rust.isPath_of_isIdentifier (by decide)
  have hplace : ¬ InLineComment deriveText 14 := by
    have htokens : tokenize ("#[derive(Clone".toList ++ [',']) =
        .ok ([⟨.punct, "#", 0, 1⟩, ⟨.punct, "[", 1, 2⟩, ⟨.ident, "derive", 2, 8⟩, ⟨.punct, "(", 8, 9⟩,
          ⟨.ident, "Clone", 9, 14⟩] ++ [⟨.punct, ",", 14, 15⟩]) :=
      eq_ok_of_toOption (by decide +kernel)
    exact (run_of_lexFrom htokens).cut_before.1.not_inLineComment ")]\nstruct S;\n".toList
  obtain ⟨result, after, n', hresult, hafter, hfound', hretains, hshows⟩ :=
    addAttribute_shows_iff h hfound hgroup hattr none
  have heval : apply deriveText (.addAttribute "S" "Debug" (some "derive")) none =
      .ok "#[derive(Clone, Debug)]\nstruct S;\n".toList := eq_ok_of_toOption (by decide +kernel)
  obtain rfl := Except.ok.inj (hresult.symm.trans heval)
  refine ⟨_, after, n', hresult, rfl, hafter, hfound', hretains,
    (hshows.mpr ⟨fun hsees => absurd hsees hunseen, ?_⟩).1⟩
  rintro - args hargs
  obtain rfl : (⟨8, 14⟩ : Span) = args := Option.some.inj hargs
  exact hplace

/-! ### Entries that cannot be seen -/

def remarkedText : List Char := "#[derive(Clone /* Debug */)]\nstruct S;\n".toList

def remarkedStruct : Node :=
  .mk (.item .struct_ (some "S") none) 0 29 38
    [.mk (.attribute (some "derive") (some ⟨8, 26⟩) false) 0 0 28 []]

def lineRemarkText : List Char := "#[derive(\n    Clone // x\n)]\nstruct S;\n".toList

def lineRemarkResult : List Char := "#[derive(\n    Clone // x, Debug\n)]\nstruct S;\n".toList

def lineRemarkStruct : Node :=
  .mk (.item .struct_ (some "S") none) 0 35 44
    [.mk (.attribute (some "derive") (some ⟨8, 32⟩) false) 0 0 34 []]

/-- **An entry that a comment names is not added, and one that is put behind a comment is part of it.** -/
theorem addAttribute_hidden :
    (parse remarkedText = .ok ⟨remarkedText, .mk .file 0 0 39 [remarkedStruct], 0⟩ ∧
      apply remarkedText (.addAttribute "S" "Debug" (some "derive")) none = .ok remarkedText ∧
      ¬ Shows remarkedText remarkedStruct "derive" "Debug".toList) ∧
    apply lineRemarkText (.addAttribute "S" "Debug" (some "derive")) none = .ok lineRemarkResult ∧
      parse lineRemarkResult = .ok ⟨lineRemarkResult, .mk .file 0 0 45 [lineRemarkStruct], 0⟩ ∧
      lineRemarkResult ≠ lineRemarkText ∧
      ¬ Shows lineRemarkResult lineRemarkStruct "derive" "Debug".toList :=
  ⟨⟨eq_ok_of_toOption (by decide +kernel), eq_ok_of_toOption (by decide +kernel), by decide +kernel⟩,
    eq_ok_of_toOption (by decide +kernel), eq_ok_of_toOption (by decide +kernel), by decide +kernel,
    by decide +kernel⟩

end Requests

end ContractSync.Edit
