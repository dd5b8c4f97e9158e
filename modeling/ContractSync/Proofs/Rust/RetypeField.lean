import ContractSync.Proofs.Rust.Refill

/-!
# Another type for a field

The content of a record is divided at the commas outside angle brackets. Trees that hold no such comma
and leave no angle bracket open (`depthBehind 0` is 0) take the place of a field's type without a
change for any other entry: **the fields of the record are those it had, carried** (`nodes_retype`), and
so is everything around the record (`BodyIn.retype`).
-/

namespace ContractSync.Rust

variable {e : Edges}

/-- The trees start and end where the part of the text does. -/
def Covers (trees : List TokenTree) (s : Span) : Prop :=
  trees.head?.map TokenTree.start = some s.start ∧ trees.getLast?.map TokenTree.stop = some s.stop

theorem Covers.ne_nil {trees : List TokenTree} {s : Span} (h : Covers trees s) : trees ≠ [] := by
  rintro rfl
  cases h.1

theorem Covers.carry {trees : List TokenTree} {s : Span} (h : Covers trees s) :
    Covers (trees.map (TokenTree.carry e)) (s.carry e) := by
  obtain ⟨hfirst, hlast⟩ := h
  obtain ⟨first, hhead, hstart⟩ := Option.map_eq_some_iff.mp hfirst
  obtain ⟨last, htail, hstop⟩ := Option.map_eq_some_iff.mp hlast
  refine ⟨?_, ?_⟩
  · rw [List.head?_map, hhead]
    exact congrArg some ((TokenTree.start_carry first).trans (congrArg e.start hstart))
  · rw [List.getLast?_map, htail]
    exact congrArg some ((TokenTree.stop_carry last).trans (congrArg e.stop hstop))

namespace Entry

/-- The depth of angle brackets behind the trees, none if a comma stands outside of them. -/
def depthBehind (angle : Nat) : List TokenTree → Option Nat
  | [] => some angle
  | tree :: rest =>
    if tree.isPunct "," && angle == 0 then none else depthBehind (angleAfter angle tree) rest

/-! ### Entries and commas -/

theorem depthBehind_append {angle depth : Nat} {a : List TokenTree}
    (h : depthBehind angle a = some depth) (b : List TokenTree) :
    depthBehind angle (a ++ b) = depthBehind depth b := by
  induction a generalizing angle with
  | nil =>
    cases h
    rfl
  | cons tree a ih =>
    rw [depthBehind] at h
    split at h
    · cases h
    · rename_i hcomma
      rw [List.cons_append, depthBehind, if_neg hcomma, ih h]

theorem depthBehind_carry (angle : Nat) (trees : List TokenTree) :
    depthBehind angle (trees.map (TokenTree.carry e)) = depthBehind angle trees := by
  induction trees generalizing angle with
  | nil => rfl
  | cons tree rest ih =>
    rw [List.map_cons, depthBehind, depthBehind, TokenTree.isPunct_carry, angleAfter_carry, ih]

/-- The tree neither ends an entry nor is an angle bracket. -/
def IsNeutral (tree : TokenTree) : Prop := ∀ mark ∈ [",", "<", ">"], tree.isPunct mark = false

/-- Neutral trees leave the depth as it is. -/
theorem depthBehind_eq_self {trees : List TokenTree}
    (h : ∀ tree ∈ trees, IsNeutral tree) (angle : Nat) :
    depthBehind angle trees = some angle := by
  induction trees with
  | nil => rfl
  | cons tree rest ih =>
    obtain ⟨htree, hrest⟩ := List.forall_mem_cons.mp h
    have hcomma := htree "," (by decide)
    have hopen := htree "<" (by decide)
    have hclose := htree ">" (by decide)
    simp only [depthBehind, angleAfter, hcomma, hopen, hclose, Bool.false_and, Bool.false_eq_true,
      if_false]
    exact ih hrest

theorem divide_append {angle depth : Nat} {a : List TokenTree}
    (h : depthBehind angle a = some depth) (before stop : Nat) (taken b : List TokenTree) :
    divide before stop angle taken (a ++ b) = divide before stop depth (a.reverse ++ taken) b := by
  induction a generalizing angle taken with
  | nil =>
    cases h
    rfl
  | cons tree a ih =>
    rw [depthBehind] at h
    split at h
    · cases h
    · rename_i hcomma
      rw [List.cons_append, divide, if_neg hcomma, ih h, List.reverse_cons, List.append_assoc,
        List.singleton_append]

/-- Trees without a comma are one entry. -/
theorem divide_of_depth {depth : Nat} {trees : List TokenTree}
    (h : depthBehind 0 trees = some depth) (hne : trees ≠ []) (before stop : Nat) :
    divide before stop 0 [] trees = [⟨before, trees, stop, false⟩] := by
  have hdivide := divide_append h before stop [] []
  rw [List.append_nil, List.append_nil] at hdivide
  have hempty : trees.reverse.isEmpty = false := by simpa using hne
  rw [hdivide, divide, hempty, List.reverse_reverse]
  rfl

/-- The first entry ends at the first comma. -/
theorem divide_at_comma {trees rest : List TokenTree} {comma : TokenTree}
    (h : depthBehind 0 trees = some 0) (hcomma : comma.isPunct "," = true) (before stop : Nat) :
    divide before stop 0 [] (trees ++ comma :: rest) =
      ⟨before, trees, comma.start, true⟩ :: divide comma.stop stop 0 [] rest := by
  rw [divide_append h, divide, hcomma, List.append_nil, List.reverse_reverse]
  rfl

theorem exists_comma (angle : Nat) (trees : List TokenTree) :
    (∃ depth, depthBehind angle trees = some depth) ∨
      ∃ front comma rest, trees = front ++ comma :: rest ∧
        depthBehind angle front = some 0 ∧ comma.isPunct "," = true := by
  induction trees generalizing angle with
  | nil => exact .inl ⟨angle, rfl⟩
  | cons tree rest ih =>
    by_cases hcomma : (tree.isPunct "," && angle == 0) = true
    · rw [Bool.and_eq_true, beq_iff_eq] at hcomma
      obtain ⟨hcomma, rfl⟩ := hcomma
      exact .inr ⟨[], tree, rest, rfl, rfl, hcomma⟩
    · rcases ih (angleAfter angle tree) with ⟨depth, h⟩ | ⟨front, comma, behind, rfl, h, hcomma'⟩
      · exact .inl ⟨depth, by rw [depthBehind, if_neg hcomma, h]⟩
      · exact .inr ⟨tree :: front, comma, behind, rfl, by rw [depthBehind, if_neg hcomma, h], hcomma'⟩

/-! ### The parts of a field -/

theorem isNeutral_of_mark {tree : TokenTree} {mark : String} (h : tree.isPunct mark = true)
    (hmark : mark ∈ ["#", "!", "[", "(", ":"]) : IsNeutral tree := by
  intro other hother
  have hne : ∀ mark ∈ ["#", "!", "[", "(", ":"], ∀ other ∈ [",", "<", ">"], mark ≠ other := by
    decide
  exact Token.isPunct_of_ne h (hne mark hmark other hother)

theorem isNeutral_of_ident {t : Token} (h : t.kind = .ident) : IsNeutral (.leaf t) := by
  intro mark _
  show (t.kind == .punct && t.text == mark) = false
  rw [h]
  rfl

/-- The attributes in front of other trees. -/
theorem lead_split {trees tail : List TokenTree} {tree : TokenTree}
    (h : (Attribute.lead trees).rest = tree :: tail) :
    ∃ attributes, trees = attributes ++ tree :: tail ∧ (∀ a ∈ attributes, IsNeutral a) ∧
      ∀ (e : Edges) (t : Token) (more : List TokenTree), t.isPunct "#" = false →
        Attribute.lead (attributes.map (TokenTree.carry e) ++ .leaf t :: more) =
          ⟨(Attribute.lead trees).inner.map (Node.carry e),
            (Attribute.lead trees).outer.map (Node.carry e), .leaf t :: more⟩ := by
  fun_induction Attribute.lead trees with
  | case1 hash opener inner closer rest hmark following ih =>
    obtain ⟨attributes, hrest, hneutral, hlead⟩ := ih h
    have hmarks := hmark
    rw [Bool.and_eq_true] at hmarks
    refine ⟨.leaf hash :: .group opener inner closer :: attributes, by rw [hrest]; rfl, ?_, ?_⟩
    · exact List.forall_mem_cons.mpr ⟨isNeutral_of_mark hmarks.1 (by decide),
        List.forall_mem_cons.mpr ⟨isNeutral_of_mark hmarks.2 (by decide), hneutral⟩⟩
    · intro e t more ht
      rw [List.map_cons, List.map_cons, TokenTree.carry, TokenTree.carry_group, List.cons_append,
        List.cons_append, Attribute.lead]
      simp only [Token.isPunct_carry, hmark, if_true, Token.carry_start, Attribute.node_carry,
        hlead e t more ht]
      rfl
  | case3 hash bang opener inner closer rest hmark following ih =>
    obtain ⟨attributes, hrest, hneutral, hlead⟩ := ih h
    have hmarks := hmark
    rw [Bool.and_eq_true, Bool.and_eq_true] at hmarks
    refine ⟨.leaf hash :: .leaf bang :: .group opener inner closer :: attributes,
      by rw [hrest]; rfl, ?_, ?_⟩
    · exact List.forall_mem_cons.mpr ⟨isNeutral_of_mark hmarks.1.1 (by decide),
        List.forall_mem_cons.mpr ⟨isNeutral_of_mark hmarks.1.2 (by decide),
          List.forall_mem_cons.mpr ⟨isNeutral_of_mark hmarks.2 (by decide), hneutral⟩⟩⟩
    · intro e t more ht
      rw [List.map_cons, List.map_cons, List.map_cons, TokenTree.carry, TokenTree.carry,
        TokenTree.carry_group, List.cons_append, List.cons_append, List.cons_append, Attribute.lead]
      simp only [Token.isPunct_carry, hmark, if_true, Token.carry_start, Attribute.node_carry,
        hlead e t more ht]
      rfl
  | case2 | case4 | case5 =>
    exact ⟨[], h, List.forall_mem_nil _, fun e t more ht => Attribute.lead_of_not_hash ht more⟩

/-- The visibility in front of a name. -/
theorem dropVisibility_split {trees tail : List TokenTree} {name : Token}
    (h : dropVisibility trees = .leaf name :: tail) (hname : name.kind = .ident) :
    ∃ visibility, trees = visibility ++ .leaf name :: tail ∧
      (∀ v ∈ visibility, IsNeutral v) ∧
      (∃ first behind, trees = .leaf first :: behind ∧ first.kind = .ident) ∧
      ∀ (e : Edges) (more : List TokenTree),
        dropVisibility (visibility.map (TokenTree.carry e) ++ .leaf (name.carry e) :: more) =
          .leaf (name.carry e) :: more := by
  rcases trees with _ | ⟨⟨t⟩ | ⟨opener, inner, closer⟩, rest⟩
  · cases h
  · by_cases hpub : t.isWord "pub" = true
    · have hkind := Token.kind_of_isWord hpub
      rcases rest with _ | ⟨⟨u⟩ | ⟨opener, inner, closer⟩, rest⟩
      · simp only [dropVisibility, hpub, if_true] at h
        cases h
      · simp only [dropVisibility, hpub, if_true] at h
        cases h
        refine ⟨[.leaf t], rfl, ?_, ⟨t, _, rfl, hkind⟩, fun e more => ?_⟩
        · exact List.forall_mem_cons.mpr ⟨isNeutral_of_ident hkind, List.forall_mem_nil _⟩
        · simp only [List.map_cons, List.map_nil, TokenTree.carry, List.cons_append, List.nil_append,
            dropVisibility, Token.isWord_carry, hpub, if_true]
      · simp only [dropVisibility, hpub, if_true] at h
        split at h
        · rename_i hopen
          subst h
          refine ⟨[.leaf t, .group opener inner closer], rfl, ?_, ⟨t, _, rfl, hkind⟩,
            fun e more => ?_⟩
          · exact List.forall_mem_cons.mpr ⟨isNeutral_of_ident hkind, List.forall_mem_cons.mpr
              ⟨isNeutral_of_mark hopen (by decide), List.forall_mem_nil _⟩⟩
          · simp only [List.map_cons, List.map_nil, TokenTree.carry, List.cons_append,
              List.nil_append, dropVisibility, Token.isWord_carry, Token.isPunct_carry, hpub, hopen,
              if_true]
        · cases h
    · rw [Bool.not_eq_true] at hpub
      rw [dropVisibility_of_not_pub hpub] at h
      cases h
      exact ⟨[], rfl, List.forall_mem_nil _, ⟨name, tail, rfl, hname⟩,
        fun e more => dropVisibility_of_not_pub (t := name.carry e) hpub more⟩
  · cases h

/-! ### The fields of a record -/

theorem offsetOf_of_covers {trees : List TokenTree} {s : Span} (h : Covers trees s)
    (entry : Entry) : entry.offsetOf trees = s.start := by
  cases trees with
  | nil => cases h.1
  | cons tree rest => exact Option.some.inj h.1

theorem lastStop_of_suffix {entry : Entry} {trees : List TokenTree} (hs : trees <:+ entry.trees)
    (hne : trees ≠ []) : trees.getLast?.map TokenTree.stop = some entry.lastStop := by
  obtain ⟨front, hfront⟩ := hs
  rw [lastStop, ← hfront, List.getLast?_append, List.getLast?_eq_some_getLast hne]
  rfl

/-- The end of an entry's trees spans to where they end. -/
theorem covers_of_suffix {entry : Entry} {trees : List TokenTree} (hs : trees <:+ entry.trees)
    (hne : trees ≠ []) : Covers trees ⟨entry.offsetOf trees, entry.lastStop⟩ := by
  refine ⟨?_, lastStop_of_suffix hs hne⟩
  cases trees with
  | nil => exact absurd rfl hne
  | cons tree rest => rfl

/-- A field is read as it was, carried, when other trees take the place of its type. -/
theorem recordField_retype {entry : Entry} {n : Node} {span : Span}
    (h : recordField entry = .ok (some n)) (htype : n.type? = some span) :
    ∃ front colon type, entry.trees = front ++ colon :: type ∧ colon.isPunct ":" = true ∧
      depthBehind 0 (front ++ [colon]) = some 0 ∧ Covers type span ∧
      ∀ (e : Edges) (type' : List TokenTree), Covers type' (span.carry e) →
        recordField ⟨e.stop entry.before,
          front.map (TokenTree.carry e) ++ colon.carry e :: type', e.start entry.stop, entry.comma⟩ =
            .ok (some (n.carry e)) := by
  rcases recordField_eq_ok.mp h with ⟨-, h⟩ | ⟨name, colon, type, hfield, h⟩
  · cases h
  cases h
  have hspan : span = ⟨entry.offsetOf type, entry.lastStop⟩ := (Option.some.inj htype).symm
  obtain ⟨htrees, hname, hcolon, hne⟩ := hfield
  obtain ⟨visibility, hrest, hvisibility, ⟨first, behind, hfirst, hkind⟩, hdrop⟩ :=
    dropVisibility_split htrees hname
  obtain ⟨attributes, hentry, hattributes, hlead⟩ := lead_split hfirst
  rw [← hfirst, hrest] at hentry
  have hfront : entry.trees = (attributes ++ visibility ++ [.leaf name]) ++ colon :: type := by
    rw [hentry]
    simp
  refine ⟨attributes ++ visibility ++ [.leaf name], colon, type, hfront, hcolon, ?_, ?_, ?_⟩
  · refine depthBehind_eq_self (fun tree htree => ?_) 0
    simp only [List.mem_append, List.mem_singleton] at htree
    rcases htree with ((htree | htree) | rfl) | rfl
    · exact hattributes tree htree
    · exact hvisibility tree htree
    · exact isNeutral_of_ident hname
    · exact isNeutral_of_mark hcolon (by decide)
  · rw [hspan]
    refine covers_of_suffix ⟨attributes ++ visibility ++ [.leaf name] ++ [colon], ?_⟩ hne
    rw [hfront]
    simp
  · intro e type' hcovers
    generalize hentry' : (⟨e.stop entry.before, _, e.start entry.stop, entry.comma⟩ : Entry) = entry'
    have htrees' : entry'.trees = attributes.map (TokenTree.carry e) ++
        (visibility.map (TokenTree.carry e) ++ .leaf (name.carry e) :: colon.carry e :: type') := by
      rw [← hentry']
      simp [TokenTree.carry]
    obtain ⟨behind', hbehind⟩ : ∃ behind', visibility.map (TokenTree.carry e) ++
        .leaf (name.carry e) :: colon.carry e :: type' = .leaf (first.carry e) :: behind' := by
      rw [hrest] at hfirst
      cases visibility with
      | nil =>
        cases hfirst
        exact ⟨_, rfl⟩
      | cons v visibility =>
        cases hfirst
        exact ⟨_, rfl⟩
    have hhash : (first.carry e).isPunct "#" = false := by
      rw [Token.isPunct_carry, Token.isPunct, hkind]
      rfl
    have hlead' := hlead e (first.carry e) behind' hhash
    rw [← hbehind, ← htrees', hbehind] at hlead'
    refine recordField_eq_ok.mpr (.inr ⟨name.carry e, colon.carry e, type', ?_, ?_⟩)
    · refine ⟨?_, hname, by rwa [TokenTree.isPunct_carry], hcovers.ne_nil⟩
      rw [hlead', ← hbehind]
      exact hdrop e _
    · have hsuffix : type' <:+ entry'.trees :=
        ⟨attributes.map (TokenTree.carry e) ++ visibility.map (TokenTree.carry e) ++
          [.leaf (name.carry e)] ++ [colon.carry e], by rw [htrees']; simp⟩
      have hlast : entry'.lastStop = e.stop entry.lastStop := by
        have h := lastStop_of_suffix hsuffix hcovers.ne_nil
        rw [hcovers.2, hspan] at h
        exact (Option.some.inj h).symm
      have hoffset : entry'.offsetOf type' = e.start (entry.offsetOf type) := by
        rw [offsetOf_of_covers hcovers, hspan]
        rfl
      simp only [fieldNode, hlead', hlast, hoffset, hfirst, ← node_carry]
      rfl

theorem depthBehind_retyped {front type' : List TokenTree} {colon : TokenTree}
    (hfront : depthBehind 0 (front ++ [colon]) = some 0) (htype : depthBehind 0 type' = some 0) :
    depthBehind 0 (front.map (TokenTree.carry e) ++ colon.carry e :: type') = some 0 := by
  rw [← depthBehind_carry (e := e), List.map_append, List.map_singleton] at hfront
  rw [List.append_cons, depthBehind_append hfront, htype]

/-- **Other trees take the place of a field's type**, and the fields of the record are those it had,
carried. -/
theorem nodes_retype {before stop : Nat} {trees : List TokenTree} {found : List Node} {n : Node}
    {span : Span} (h : nodes recordField (divide before stop 0 [] trees) = .ok found)
    (hn : n ∈ found) (htype : n.type? = some span) :
    ∃ front colon type behind, trees = front ++ colon :: (type ++ behind) ∧
      colon.isPunct ":" = true ∧ Covers type span ∧
      (behind = [] ∨ ∃ comma rest, behind = comma :: rest ∧ comma.isPunct "," = true) ∧
      ∀ (e : Edges) (type' : List TokenTree), Covers type' (span.carry e) →
        depthBehind 0 type' = some 0 →
        nodes recordField (divide (e.stop before) (e.start stop) 0 [] (front.map (TokenTree.carry e) ++
          colon.carry e :: (type' ++ behind.map (TokenTree.carry e)))) =
            .ok (found.map (Node.carry e)) := by
  induction hlen : trees.length using Nat.strongRecOn generalizing before trees found with
  | ind len ih =>
    rcases exists_comma 0 trees with ⟨depth, hdepth⟩ | ⟨taken, comma, rest, rfl, hdepth, hcomma⟩
    · -- One entry, which is the field.
      have hne : trees ≠ [] := by
        rintro rfl
        cases h
        cases hn
      rw [divide_of_depth hdepth hne] at h
      obtain ⟨o, _, ho, hmore, rfl⟩ := nodes_cons_eq_ok.mp h
      cases hmore
      obtain rfl : o = some n := by simpa using hn
      obtain ⟨front, colon, type, htrees, hcolon, hfront, hcovers, hfield⟩ :=
        recordField_retype ho htype
      refine ⟨front, colon, type, [], by rw [List.append_nil]; exact htrees, hcolon, hcovers,
        .inl rfl, fun e type' hcovers' hdepth' => ?_⟩
      have hnew := depthBehind_retyped (e := e) hfront hdepth'
      rw [List.map_nil, List.append_nil, divide_of_depth hnew (by simp)]
      exact nodes_cons_eq_ok.mpr ⟨_, _, hfield e type' hcovers', rfl, rfl⟩
    · rw [divide_at_comma hdepth hcomma] at h
      obtain ⟨o, more, ho, hmore, rfl⟩ := nodes_cons_eq_ok.mp h
      rcases List.mem_append.mp hn with hn | hn
      · -- The field is the first of several entries.
        obtain rfl : o = some n := by simpa using hn
        obtain ⟨front, colon, type, htrees, hcolon, hfront, hcovers, hfield⟩ :=
          recordField_retype ho htype
        refine ⟨front, colon, type, comma :: rest, ?_, hcolon, hcovers,
          .inr ⟨comma, rest, rfl, hcomma⟩, fun e type' hcovers' hdepth' => ?_⟩
        · have htaken : taken = front ++ colon :: type := htrees
          rw [htaken]
          simp
        · have hnew := depthBehind_retyped (e := e) hfront hdepth'
          have hcomma' : (comma.carry e).isPunct "," = true := by rwa [TokenTree.isPunct_carry]
          have hlist : front.map (TokenTree.carry e) ++
              colon.carry e :: (type' ++ (comma :: rest).map (TokenTree.carry e)) =
                (front.map (TokenTree.carry e) ++ colon.carry e :: type') ++
                  comma.carry e :: rest.map (TokenTree.carry e) := by simp
          rw [hlist, divide_at_comma hnew hcomma', TokenTree.start_carry, TokenTree.stop_carry,
            ← List.map_nil (f := TokenTree.carry e), divide_carry]
          exact nodes_cons_eq_ok.mpr ⟨_, _, hfield e type' hcovers',
            nodes_carry recordField (fun _ _ => recordField_carry) hmore, by simp⟩
      · -- The field is among the entries behind the comma.
        obtain ⟨front, colon, type, behind, htrees, hcolon, hcovers, hbehind, hfield⟩ :=
          ih rest.length (by rw [← hlen]; simp; omega) hmore hn rfl
        refine ⟨taken ++ comma :: front, colon, type, behind, ?_, hcolon, hcovers, hbehind,
          fun e type' hcovers' hdepth' => ?_⟩
        · rw [htrees]
          simp
        · have hnew : depthBehind 0 (taken.map (TokenTree.carry e)) = some 0 := by
            rwa [depthBehind_carry]
          have hcomma' : (comma.carry e).isPunct "," = true := by rwa [TokenTree.isPunct_carry]
          rw [List.map_append, List.map_cons, List.append_assoc, List.cons_append,
            divide_at_comma hnew hcomma', TokenTree.start_carry, TokenTree.stop_carry]
          refine nodes_cons_eq_ok.mpr ⟨_, _, recordField_carry ho, hfield e type' hcovers' hdepth', ?_⟩
          cases o <;> simp

end Entry

/-! ### The field among the items -/

open TokenTree (flatten flattenAll isNestedAll isNestedAll_map_carry)

/-- Other trees take the place of a field's type, which stands behind a colon and before a comma or the
closing brace, and **all nodes are what they were, carried**. -/
theorem BodyIn.retype {source : List Char} {nodes found : List Node} {n f : Node} {b : Group}
    {front back : List Token} {span : Span}
    (h : BodyIn source nodes n .struct_ b found front back) (hrecord : b.isTuple = false)
    (hf : f ∈ n.children) (htype : f.type? = some span) :
    ∃ ahead behind colon type, tokenize source = .ok (ahead ++ colon :: (flattenAll type ++ behind)) ∧
      colon.isPunct ":" = true ∧ Covers type span ∧
      (∃ t rest, behind = t :: rest ∧ (t.isPunct "," = true ∨ t.isPunct "\x7d" = true)) ∧
      ∀ (e : Edges) (type' : List TokenTree), Covers type' (span.carry e) →
        Entry.depthBehind 0 type' = some 0 → isNestedAll type' = true →
        ∃ trees, flattenAll trees = ahead.map (·.carry e) ++
            colon.carry e :: (flattenAll type' ++ behind.map (·.carry e)) ∧
          isNestedAll trees = true ∧ Items trees (nodes.map (Node.carry e)) := by
  have hmembers := h.members
  have hinner := h.nested
  rw [Group.members_of_record hrecord] at hmembers
  obtain ⟨before, colon, type, after, htrees, hcolon, hcovers, hafter, hfields⟩ :=
    Entry.nodes_retype hmembers (h.mem_found hf htype) htype
  rw [htrees, TokenTree.isNestedAll_append, isNestedAll, TokenTree.isNestedAll_append,
    Bool.and_eq_true, Bool.and_eq_true, Bool.and_eq_true] at hinner
  obtain ⟨hbefore, hcolon', htype', hafter'⟩ := hinner
  obtain ⟨c, rfl⟩ := TokenTree.leaf_of_isPunct hcolon' hcolon (by decide)
  have hsplit : ∀ x y z : List TokenTree, ∀ t : Token,
      flattenAll (x ++ .leaf t :: (y ++ z)) =
        flattenAll x ++ (t :: flattenAll y ++ flattenAll z) := by
    intro x y z t
    simp [TokenTree.flattenAll_append, flattenAll, flatten]
  refine ⟨front ++ b.opener :: flattenAll before, flattenAll after ++ b.closer :: back, c, type, ?_,
    hcolon, hcovers, ?_, fun e type' hcovers' hdepth hnew => ?_⟩
  · rw [h.tokens, htrees, hsplit]
    simp
  · rcases hafter with rfl | ⟨comma, rest, rfl, hcomma⟩
    · exact ⟨b.closer, _, rfl, .inr (Token.isPunct_of_closes_brace h.closes (h.brace hrecord))⟩
    · rw [isNestedAll, Bool.and_eq_true] at hafter'
      obtain ⟨t, rfl⟩ := TokenTree.leaf_of_isPunct hafter'.1 hcomma (by decide)
      exact ⟨t, _, rfl, .inl hcomma⟩
  · have hfields' := hfields e type' hcovers' hdepth
    generalize hnew' : before.map (TokenTree.carry e) ++ _ = new at hfields'
    have hmembers' : (b.holding e new).members .struct_ = .ok (found.map (Node.carry e) ++ []) := by
      rw [Group.members_of_record (b := b.holding e new) hrecord, List.append_nil]
      exact hfields'
    have hnested : isNestedAll new = true := by
      rw [← hnew', TokenTree.isNestedAll_append, isNestedAll, TokenTree.isNestedAll_append,
        isNestedAll_map_carry, isNestedAll_map_carry, TokenTree.isNested_carry, hbefore, hcolon',
        hnew, hafter']
      rfl
    obtain ⟨trees, hflat, hnested', hitems⟩ := h.refill e new [] hnested hmembers'
    rw [funext Node.grow_nil] at hitems
    refine ⟨trees, ?_, hnested', hitems⟩
    rw [hflat, ← hnew', TokenTree.carry, hsplit, TokenTree.flattenAll_map_carry,
      TokenTree.flattenAll_map_carry]
    simp

end ContractSync.Rust
