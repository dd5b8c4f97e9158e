import ContractSync.Proofs.Rust.RetypeField

/-!
# One more entry in a record

The content of a record is a row of fields that each have a comma, and what follows the last comma
(`Ended`, `exists_ended`). **Where every field has its comma, further entries are read behind the fields
that are there** (`Ended.nodes_append`). What an entry is read as depends on its trees only, not on the
ends of the list around it (`recordField_congr`).
-/

namespace ContractSync.Rust.Entry

open TokenTree (flattenAll)

variable {e : Edges} {trees : List TokenTree} {fields : List Node} {before stop : Nat}

/-! ### What an entry is read as -/

/-- A field is read from its trees alone. -/
theorem IsRecordField.recordField {entry : Entry} {name : Token} {colon : TokenTree}
    {type : List TokenTree} (h : entry.IsRecordField name colon type) (before stop : Nat)
    (comma : Bool) :
    recordField ⟨before, entry.trees, stop, comma⟩ = .ok (some (entry.fieldNode name type)) := by
  refine recordField_eq_ok.mpr (.inr ⟨name, colon, type, h, ?_⟩)
  obtain ⟨hrest, -, -, htype⟩ := h
  have hlead : (Attribute.lead entry.trees).rest ≠ [] := fun hnil => by
    rw [hnil] at hrest
    cases hrest
  have htrees : entry.trees ≠ [] := fun hnil => by
    rw [hnil] at hlead
    exact hlead rfl
  have hoffset : ∀ {part : List TokenTree}, part ≠ [] →
      (⟨before, entry.trees, stop, comma⟩ : Entry).offsetOf part = entry.offsetOf part := by
    intro part hpart
    cases part with
    | nil => exact absurd rfl hpart
    | cons tree rest => rfl
  have hlast : (⟨before, entry.trees, stop, comma⟩ : Entry).lastStop = entry.lastStop := by
    rw [lastStop, lastStop, List.getLast?_eq_some_getLast htrees]
    rfl
  simp only [fieldNode, hlast, hoffset htype, hoffset hlead]

theorem recordField_eq_some {comma : Bool} {n : Node}
    (h : recordField ⟨before, trees, stop, comma⟩ = .ok (some n)) (before' stop' : Nat)
    (comma' : Bool) : recordField ⟨before', trees, stop', comma'⟩ = .ok (some n) := by
  rcases recordField_eq_ok.mp h with ⟨-, h⟩ | ⟨name, colon, type, hfield, h⟩
  · cases h
  · rw [h]
    exact hfield.recordField before' stop' comma'

/-- The ends of the list around an entry do not matter. -/
theorem recordField_congr {comma : Bool} {o : Option Node}
    (h : recordField ⟨before, trees, stop, comma⟩ = .ok o) (before' stop' : Nat) :
    recordField ⟨before', trees, stop', comma⟩ = .ok o := by
  cases o with
  | some n => exact recordField_eq_some h before' stop' comma
  | none =>
    rcases recordField_eq_ok.mp h with ⟨htrailing, -⟩ | ⟨_, _, _, -, h⟩
    · exact recordField_eq_ok.mpr (.inl ⟨htrailing, rfl⟩)
    · cases h

theorem nodes_congr {angle : Nat} {taken : List TokenTree}
    (h : nodes recordField (divide before stop angle taken trees) = .ok fields)
    (before' stop' : Nat) :
    nodes recordField (divide before' stop' angle taken trees) = .ok fields := by
  induction trees generalizing before before' angle taken fields with
  | nil =>
    rw [divide] at h ⊢
    by_cases hempty : taken.isEmpty = true
    · rw [if_pos hempty] at h ⊢
      exact h
    · rw [if_neg hempty] at h ⊢
      obtain ⟨o, more, ho, hmore, rfl⟩ := nodes_cons_eq_ok.mp h
      exact nodes_cons_eq_ok.mpr ⟨o, more, recordField_congr ho before' stop', hmore, rfl⟩
  | cons tree rest ih =>
    rw [divide] at h ⊢
    by_cases hcomma : (tree.isPunct "," && angle == 0) = true
    · rw [if_pos hcomma] at h ⊢
      obtain ⟨o, more, ho, hmore, rfl⟩ := nodes_cons_eq_ok.mp h
      exact nodes_cons_eq_ok.mpr
        ⟨o, more, recordField_congr ho before' tree.start, ih hmore tree.stop, rfl⟩
    · rw [if_neg hcomma] at h ⊢
      exact ih h before'

/-- Fields whose tokens are where they are carried to are there themselves. -/
theorem fields_carry_eq_self
    (h : nodes recordField (divide before stop 0 [] trees) = .ok fields)
    (hfixed : ∀ t ∈ flattenAll trees, t.carry e = t) : fields.map (Node.carry e) = fields := by
  have hcarried := nodes_carry (e := e) recordField (fun _ _ => recordField_carry) h
  rw [← divide_carry, List.map_nil, ← TokenTree.carryAll_eq_map,
    TokenTree.carryAll_eq_self hfixed] at hcarried
  exact Except.ok.inj (hcarried.symm.trans (nodes_congr h _ _))

/-- A field without attributes. -/
theorem recordField_named {comma : Bool} {visibility type : List TokenTree} {t : Token}
    {colon : TokenTree} {s : Span}
    (hlead : Attribute.lead (visibility ++ .leaf t :: colon :: type) =
      ⟨[], [], visibility ++ .leaf t :: colon :: type⟩)
    (hdrop : dropVisibility (visibility ++ .leaf t :: colon :: type) = .leaf t :: colon :: type)
    (hkind : t.kind = .ident) (hcolon : colon.isPunct ":" = true) (hcovers : Covers type s) :
    ∃ start, recordField ⟨before, visibility ++ .leaf t :: colon :: type, stop, comma⟩ =
      .ok (some (.mk (.field t.text s) start start s.stop [])) := by
  generalize hentry : (⟨before, visibility ++ .leaf t :: colon :: type, stop, comma⟩ : Entry) = entry
  have htrees : entry.trees = visibility ++ .leaf t :: colon :: type := by rw [← hentry]
  rw [← htrees] at hlead
  have hsuffix : type <:+ entry.trees :=
    ⟨visibility ++ [.leaf t, colon], by rw [htrees]; simp⟩
  have hlast : entry.lastStop = s.stop := by
    have h := lastStop_of_suffix hsuffix hcovers.ne_nil
    rw [hcovers.2] at h
    exact (Option.some.inj h).symm
  refine ⟨entry.offsetOf entry.trees, recordField_eq_ok.mpr
    (.inr ⟨t, colon, type, ⟨?_, hkind, hcolon, hcovers.ne_nil⟩, ?_⟩)⟩
  · rwa [hlead, htrees]
  · simp only [fieldNode, hlead, hlast, offsetOf_of_covers hcovers]
    rfl

/-- The field has one more attribute in front. -/
theorem recordField_attribute {comma : Bool} {shape : Shape} {start itemStart last : Nat}
    {inner : List TokenTree} {attributes : List Node} {hash opener closer : Token}
    (h : recordField ⟨before, trees, stop, comma⟩ =
      .ok (some (.mk shape start itemStart last attributes)))
    (hhash : hash.isPunct "#" = true) (hopener : opener.isPunct "[" = true) :
    recordField ⟨before, .leaf hash :: .group opener inner closer :: trees, stop, comma⟩ =
      .ok (some (.mk shape hash.start itemStart last
        (Attribute.node hash.start false inner closer :: attributes))) := by
  rcases recordField_eq_ok.mp h with ⟨-, h⟩ | ⟨name, colon, type, hfield, h⟩
  · cases h
  obtain ⟨hrest, hname, hcolon, htype⟩ := hfield
  have hlead : Attribute.lead (.leaf hash :: .group opener inner closer :: trees) =
      { Attribute.lead trees with
        outer := Attribute.node hash.start false inner closer :: (Attribute.lead trees).outer } := by
    rw [Attribute.lead, hhash, hopener]
    rfl
  have htrees : trees ≠ [] := fun hnil => by
    rw [hnil] at hrest
    cases hrest
  have hlast : (⟨before, .leaf hash :: .group opener inner closer :: trees, stop, comma⟩ :
      Entry).lastStop = (⟨before, trees, stop, comma⟩ : Entry).lastStop := by
    rw [lastStop, lastStop, List.getLast?_cons_cons, List.getLast?_cons,
      List.getLast?_eq_some_getLast htrees]
    rfl
  have hoffset : ∀ part, (⟨before, .leaf hash :: .group opener inner closer :: trees, stop, comma⟩ :
      Entry).offsetOf part = (⟨before, trees, stop, comma⟩ : Entry).offsetOf part := by
    intro part
    cases part <;> rfl
  refine recordField_eq_ok.mpr (.inr ⟨name, colon, type, ⟨?_, hname, hcolon, htype⟩, ?_⟩)
  · rw [hlead]
    exact hrest
  · rw [Option.some.injEq, fieldNode, node, Node.mk.injEq] at h
    obtain ⟨rfl, -, rfl, rfl, rfl⟩ := h
    rw [fieldNode, hlead, hlast, hoffset, hoffset]
    rfl

theorem isField_of_recordField {entry : Entry} {n : Node} (h : recordField entry = .ok (some n)) :
    n.isField = true := by
  rcases recordField_eq_ok.mp h with ⟨-, h⟩ | ⟨_, _, _, -, h⟩
  · cases h
  · cases h
    rfl

theorem recordField_stop {comma : Bool} {n : Node}
    (h : recordField ⟨before, trees, stop, comma⟩ = .ok (some n)) :
    trees.getLast?.map TokenTree.stop = some n.stop := by
  rcases recordField_eq_ok.mp h with ⟨-, h⟩ | ⟨name, colon, type, hfield, h⟩
  · cases h
  · have hne : trees ≠ [] := by
      rintro rfl
      obtain ⟨hrest, -⟩ := hfield
      cases hrest
    cases h
    exact lastStop_of_suffix (List.suffix_refl _) hne

/-! ### Fields with their commas -/

/-- The trees are fields, each with a comma behind it. -/
inductive Ended : Nat → List TokenTree → List Node → Prop
  | nil (before : Nat) : Ended before [] []
  | cons {before : Nat} {taken rest : List TokenTree} {comma : TokenTree} {field : Node}
      {fields : List Node} (hdepth : depthBehind 0 taken = some 0) (hcomma : comma.isPunct "," = true)
      (hfield : recordField ⟨before, taken, comma.start, true⟩ = .ok (some field))
      (hrest : Ended comma.stop rest fields) : Ended before (taken ++ comma :: rest) (field :: fields)

/-- **Further entries are read behind the fields that are there.** -/
theorem Ended.nodes_append (h : Ended before trees fields) {before' stop' : Nat}
    {more : List TokenTree} {added : List Node}
    (hmore : nodes recordField (divide before' stop' 0 [] more) = .ok added) (stop : Nat) :
    nodes recordField (divide before stop 0 [] (trees ++ more)) = .ok (fields ++ added) := by
  induction h with
  | nil before => exact nodes_congr hmore before stop
  | cons hdepth hcomma hfield _ ih =>
    rw [List.append_assoc, List.cons_append, divide_at_comma hdepth hcomma]
    exact nodes_cons_eq_ok.mpr ⟨_, _, hfield, ih, rfl⟩

/-- One more field with its comma. -/
theorem Ended.concat (h : Ended before trees fields) {before' stop' : Nat} {comma' : Bool}
    {taken : List TokenTree} {comma : TokenTree} {field : Node}
    (hfield : recordField ⟨before', taken, stop', comma'⟩ = .ok (some field))
    (hdepth : depthBehind 0 taken = some 0) (hcomma : comma.isPunct "," = true) :
    Ended before (trees ++ (taken ++ [comma])) (fields ++ [field]) := by
  induction h with
  | nil before =>
    exact .cons hdepth hcomma (recordField_eq_some hfield before comma.start true) (.nil comma.stop)
  | cons hdepth' hcomma' hfield' _ ih =>
    rw [List.append_assoc, List.cons_append]
    exact .cons hdepth' hcomma' hfield' ih

/-- The last tree is the comma, which stands behind the last field. -/
theorem Ended.last (h : Ended before trees fields) :
    trees = [] ∧ fields = [] ∨ ∃ front comma field, trees = front ++ [comma] ∧
      fields.getLast? = some field ∧ front.getLast?.map TokenTree.stop = some field.stop := by
  induction h with
  | nil before => exact .inl ⟨rfl, rfl⟩
  | @cons before taken rest comma field fields hdepth hcomma hfield _ ih =>
    refine .inr ?_
    rcases ih with ⟨rfl, rfl⟩ | ⟨front, last, field', rfl, hlast, hstop⟩
    · exact ⟨taken, comma, field, rfl, rfl, recordField_stop hfield⟩
    · refine ⟨taken ++ comma :: front, last, field', by simp, ?_, ?_⟩
      · rw [List.getLast?_cons, hlast]
        rfl
      · obtain ⟨tree, htree, hstop⟩ := Option.map_eq_some_iff.mp hstop
        rw [List.getLast?_append, List.getLast?_cons, htree]
        exact congrArg some hstop

/-- **The content of a record**: fields with their commas, and what follows the last comma. -/
theorem exists_ended (h : nodes recordField (divide before stop 0 [] trees) = .ok fields) :
    ∃ closed taken old depth, trees = closed ++ taken ∧ Ended before closed old ∧
      depthBehind 0 taken = some depth ∧
      (taken = [] ∧ fields = old ∨ taken ≠ [] ∧ ∃ o, recordField ⟨before, taken, stop, false⟩ = .ok o ∧
        fields = old ++ o.toList) := by
  induction hlen : trees.length using Nat.strongRecOn generalizing before trees fields with
  | ind len ih =>
    rcases exists_comma 0 trees with ⟨depth, hdepth⟩ | ⟨front, comma, rest, rfl, hdepth, hcomma⟩
    · refine ⟨[], trees, [], depth, rfl, .nil before, hdepth, ?_⟩
      by_cases hne : trees = []
      · subst hne
        cases h
        exact .inl ⟨rfl, rfl⟩
      · rw [divide_of_depth hdepth hne] at h
        obtain ⟨o, more, ho, hmore, rfl⟩ := nodes_cons_eq_ok.mp h
        cases hmore
        exact .inr ⟨hne, o, ho, by simp⟩
    · rw [divide_at_comma hdepth hcomma] at h
      obtain ⟨o, more, ho, hmore, rfl⟩ := nodes_cons_eq_ok.mp h
      obtain ⟨closed, taken, old, depth, rfl, hclosed, hdepth', hend⟩ :=
        ih rest.length (by rw [← hlen]; simp; omega) hmore rfl
      cases o with
      | none =>
        rcases recordField_eq_ok.mp ho with ⟨htrailing, -⟩ | ⟨_, _, _, -, h⟩
        · simp [isTrailing] at htrailing
        · cases h
      | some field =>
        refine ⟨front ++ comma :: closed, taken, field :: old, depth, by simp,
          .cons hdepth hcomma ho hclosed, hdepth', hend.imp ?_ ?_⟩
        · rintro ⟨rfl, rfl⟩
          exact ⟨rfl, rfl⟩
        · rintro ⟨hne, o, ho, rfl⟩
          exact ⟨hne, o, recordField_congr ho before stop, rfl⟩

/-! ### Where a further field goes -/

/-- So many tokens stand behind a tree that ends at the place. -/
def HasBehind (trees : List TokenTree) (place count : Nat) : Prop :=
  ∀ front back, trees = front ++ back → front.getLast?.map TokenTree.stop = some place →
    (flattenAll back).length = count

theorem length_flatten_pos (tree : TokenTree) : 0 < (TokenTree.flatten tree).length :=
  List.length_pos_of_mem (TokenTree.head_mem_flatten tree)

/-- Behind the last field stands its comma, or nothing, or the comma and attributes that nothing
follows. -/
theorem exists_last (h : nodes recordField (divide before stop 0 [] trees) = .ok fields)
    {last : Node} (hlast : fields.getLast? = some last) {count : Nat}
    (hbehind : HasBehind trees last.stop count) :
    0 < count ∧ Ended before trees fields ∨
      (count = 0 ∧ ∃ closed taken old depth, trees = closed ++ taken ∧ Ended before closed old ∧
        depthBehind 0 taken = some depth ∧
        recordField ⟨before, taken, stop, false⟩ = .ok (some last) ∧ fields = old ++ [last]) ∨
      1 < count := by
  obtain ⟨closed, taken, old, depth, rfl, hclosed, hdepth, hend⟩ := exists_ended h
  -- The comma behind the fields that have one.
  have hcomma : old.getLast? = some last → ∃ front comma, closed = front ++ [comma] ∧
      (flattenAll (comma :: taken)).length = count := by
    intro hold
    rcases hclosed.last with ⟨-, rfl⟩ | ⟨front, comma, field, rfl, hfield, hstop⟩
    · cases hold
    · rw [hold] at hfield
      obtain rfl := Option.some.inj hfield
      exact ⟨front, comma, rfl, hbehind front (comma :: taken) (by simp) hstop⟩
  rcases hend with ⟨rfl, rfl⟩ | ⟨hne, o, ho, rfl⟩
  · obtain ⟨front, comma, -, hcount⟩ := hcomma hlast
    have hpos := length_flatten_pos comma
    rw [flattenAll, List.length_append] at hcount
    exact .inl ⟨by omega, (List.append_nil closed).symm ▸ hclosed⟩
  cases o with
  | some field =>
    rw [Option.toList_some, List.getLast?_concat] at hlast
    obtain rfl := Option.some.inj hlast
    have hcount := hbehind (closed ++ taken) [] (List.append_nil _).symm (by
      rw [List.getLast?_append, List.getLast?_eq_some_getLast hne, ← recordField_stop ho,
        List.getLast?_eq_some_getLast hne]
      rfl)
    exact .inr (.inl ⟨hcount.symm, closed, taken, old, depth, rfl, hclosed, hdepth, ho, rfl⟩)
  | none =>
    rw [Option.toList_none, List.append_nil] at hlast
    obtain ⟨front, comma, -, hcount⟩ := hcomma hlast
    obtain ⟨tree, rest, rfl⟩ := List.exists_cons_of_ne_nil hne
    have hpos := length_flatten_pos comma
    have hpos' := length_flatten_pos tree
    rw [flattenAll, flattenAll, List.length_append, List.length_append] at hcount
    exact .inr (.inr (by omega))

end ContractSync.Rust.Entry