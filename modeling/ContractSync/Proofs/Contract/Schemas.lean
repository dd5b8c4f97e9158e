import ContractSync.Contract.Canonical
import ContractSync.Proofs.Outcome

/-!
# The schemas of a document

`schemasIn` lists a schema with all schemas inside it, `schemasOfPart` and `schemasOfDocument` the
schemas that a pass over a part or over the whole document visits.

**A pass brings all schemas from one condition to another** (`rewriteDocument_every`): it is enough
that it does so at one node whose inner schemas are already there (`Pass.Takes`). **A pass that
changes none of the schemas changes nothing** (`rewriteDocument_again`).
-/

namespace ContractSync.Contract

open ContractSync.Document

/-! ### Where schemas stand -/

/-- The value is a truth value. -/
def isFlag : Value → Bool
  | .scalar (.bool _) => true
  | _ => false

mutual

/-- A schema and all schemas inside it. -/
def schemasIn : Value → List Value
  | .mapping entries => .mapping entries :: schemasOfKeywords entries
  | .list items => [.list items]
  | .scalar s => [.scalar s]
  | .set members => [.set members]

/-- The schemas that the keywords of a schema hold, with all schemas inside them. -/
def schemasOfKeywords : List (Scalar × Value) → List Value
  | [] => []
  | (key, v) :: rest =>
    (match Holds.ofKey key, v with
      | .schema, v => schemasIn v
      | .list, .list items => schemasOfList items
      | .named, .mapping entries => schemasOfNamed entries
      | .schemaOrFlag, v => if isFlag v then [] else schemasIn v
      | _, _ => []) ++ schemasOfKeywords rest

/-- The schemas of a list. -/
def schemasOfList : List Value → List Value
  | [] => []
  | v :: rest => schemasIn v ++ schemasOfList rest

/-- The schemas of a mapping from names to schemas. -/
def schemasOfNamed : List (Scalar × Value) → List Value
  | [] => []
  | (_, v) :: rest => schemasIn v ++ schemasOfNamed rest

end

mutual

/-- The schemas in a part of a document that is itself no schema. -/
def schemasOfPart : Value → List Value
  | .mapping entries => schemasOfParts entries
  | .list items => schemasOfItems items
  | .scalar _ => []
  | .set _ => []

/-- The schemas in the entries of a part. -/
def schemasOfParts : List (Scalar × Value) → List Value
  | [] => []
  | (key, v) :: rest =>
    (match isOpaqueKey key with
      | .ok false => if isSchemaKey key then schemasIn v else schemasOfPart v
      | _ => []) ++ schemasOfParts rest

/-- The schemas in the items of a part. -/
def schemasOfItems : List Value → List Value
  | [] => []
  | v :: rest => schemasOfPart v ++ schemasOfItems rest

end

/-- The schemas of one family of components. -/
def schemasOfFamily : Scalar → Value → List Value
  | .text "schemas", .mapping schemas => schemasOfNamed schemas
  | _, content => schemasOfPart content

/-- The schemas of the components. -/
def schemasOfComponents : Entries → List Value
  | [] => []
  | (family, content) :: rest => schemasOfFamily family content ++ schemasOfComponents rest

/-- The schemas of one section of a document. -/
def schemasOfSection : Scalar → Value → List Value
  | .text "components", .mapping families => schemasOfComponents families
  | .text "definitions", .mapping schemas => schemasOfNamed schemas
  | _, v => schemasOfPart v

/-- The schemas of a document. -/
def schemasOfDocument : Entries → List Value
  | [] => []
  | (key, v) :: rest => schemasOfSection key v ++ schemasOfDocument rest

/-! ### Cases of the rewriting functions -/

theorem eq_bool_of_isFlag {v : Value} (h : isFlag v = true) : ∃ b, v = .scalar (.bool b) := by
  unfold isFlag at h
  split at h
  · exact ⟨_, rfl⟩
  · cases h

theorem rewriteKeywords_cons (pass : Pass) (key : Scalar) (v : Value)
    (rest : List (Scalar × Value)) :
    rewriteKeywords pass ((key, v) :: rest) =
      (key, match Holds.ofKey key, v with
        | .schema, v => rewriteSchema pass v
        | .list, .list items => .list (rewriteSchemas pass items)
        | .named, .mapping entries => .mapping (rewriteNamed pass entries)
        | .schemaOrFlag, v => if isFlag v then v else rewriteSchema pass v
        | _, v => v) :: rewriteKeywords pass rest := by
  rw [rewriteKeywords.eq_def]
  simp only
  cases hk : Holds.ofKey key with
  | schema | nothing => rfl
  | list | named | schemaOrFlag =>
    cases v with
    | scalar s => cases s <;> rfl
    | _ => rfl

theorem rewriteNamed_eq_map {pass : Pass} (schemas : List (Scalar × Value)) :
    rewriteNamed pass schemas = schemas.map fun e => (e.1, rewriteSchema pass e.2) := by
  induction schemas with
  | nil => rw [rewriteNamed, List.map_nil]
  | cons e rest ih => rw [rewriteNamed, List.map_cons, ih]

/-- A family of components is the mapping of the named schemas, or a part like any other. -/
theorem family_cases (family : Scalar) (v : Value) :
    (∃ schemas, family = .text "schemas" ∧ v = .mapping schemas) ∨
      (family = .text "schemas" → v.isMapping = false) := by
  cases v with
  | mapping schemas =>
    by_cases h : family = .text "schemas"
    · exact .inl ⟨schemas, h, rfl⟩
    · exact .inr fun e => absurd e h
  | scalar | list | set => exact .inr fun _ => rfl

theorem rewriteFamily_of_part {pass : Pass} {family : Scalar} {v : Value}
    (h : family = .text "schemas" → v.isMapping = false) :
    rewriteFamily pass family v = rewritePart pass v := by
  unfold rewriteFamily
  split
  · cases h rfl
  · rfl

theorem schemasOfFamily_of_part {family : Scalar} {v : Value}
    (h : family = .text "schemas" → v.isMapping = false) :
    schemasOfFamily family v = schemasOfPart v := by
  unfold schemasOfFamily
  split
  · cases h rfl
  · rfl

/-- A section of a document holds the components or the definitions, or is a part like any other. -/
theorem section_cases (key : Scalar) (v : Value) :
    (∃ families, key = .text "components" ∧ v = .mapping families) ∨
      (∃ schemas, key = .text "definitions" ∧ v = .mapping schemas) ∨
      (key = .text "components" ∨ key = .text "definitions" → v.isMapping = false) := by
  cases v with
  | mapping entries =>
    by_cases hc : key = .text "components"
    · exact .inl ⟨entries, hc, rfl⟩
    · by_cases hd : key = .text "definitions"
      · exact .inr (.inl ⟨entries, hd, rfl⟩)
      · exact .inr (.inr fun e => absurd e (not_or.mpr ⟨hc, hd⟩))
  | scalar | list | set => exact .inr (.inr fun _ => rfl)

theorem rewriteSection_of_part {pass : Pass} {key : Scalar} {v : Value}
    (h : key = .text "components" ∨ key = .text "definitions" → v.isMapping = false) :
    rewriteSection pass key v = rewritePart pass v := by
  unfold rewriteSection
  split
  · cases h (.inl rfl)
  · cases h (.inr rfl)
  · rfl

theorem schemasOfSection_of_part {key : Scalar} {v : Value}
    (h : key = .text "components" ∨ key = .text "definitions" → v.isMapping = false) :
    schemasOfSection key v = schemasOfPart v := by
  unfold schemasOfSection
  split
  · cases h (.inl rfl)
  · cases h (.inr rfl)
  · rfl

/-- What becomes of an entry of a part. -/
theorem rewriteParts_cons_eq_ok {pass : Pass} {key : Scalar} {v : Value}
    {rest entries' : List (Scalar × Value)}
    (h : rewriteParts pass ((key, v) :: rest) = .ok entries') :
    ∃ isOpaque v' rest', isOpaqueKey key = .ok isOpaque ∧
      (if isOpaque then .ok v else if isSchemaKey key then .ok (rewriteSchema pass v)
        else rewritePart pass v) = .ok v' ∧
      rewriteParts pass rest = .ok rest' ∧ entries' = (key, v') :: rest' := by
  rw [rewriteParts, bind_eq_ok] at h
  obtain ⟨isOpaque, ho, h⟩ := h
  have hsplit : ∃ v', (if isOpaque then .ok v else if isSchemaKey key then
      .ok (rewriteSchema pass v) else rewritePart pass v : Except Fault Value) = .ok v' ∧
      (do return (key, v') :: (← rewriteParts pass rest)) = .ok entries' := by
    split at h
    · exact ⟨v, if_pos ‹_›, h⟩
    · rw [if_neg ‹_›]
      split at h
      · exact ⟨_, if_pos ‹_›, h⟩
      · rw [if_neg ‹_›]
        exact bind_eq_ok.mp h
  obtain ⟨v', hv, h⟩ := hsplit
  obtain ⟨rest', hr, h⟩ := bind_eq_ok.mp h
  exact ⟨isOpaque, v', rest', ho, hv, hr, pure_eq_ok.mp h⟩

/-- What becomes of an item of a part. -/
theorem rewriteItems_cons_eq_ok {pass : Pass} {v : Value} {rest items' : List Value}
    (h : rewriteItems pass (v :: rest) = .ok items') :
    ∃ v' rest', rewritePart pass v = .ok v' ∧ rewriteItems pass rest = .ok rest' ∧
      items' = v' :: rest' := by
  rw [rewriteItems, bind_eq_ok] at h
  obtain ⟨v', hv, h⟩ := h
  obtain ⟨rest', hr, h⟩ := bind_eq_ok.mp h
  exact ⟨v', rest', hv, hr, pure_eq_ok.mp h⟩

/-- What becomes of a family of components. -/
theorem rewriteComponents_cons_eq_ok {pass : Pass} {family : Scalar} {v : Value}
    {rest families' : Entries}
    (h : rewriteComponents pass ((family, v) :: rest) = .ok families') :
    ∃ v' rest', rewriteFamily pass family v = .ok v' ∧ rewriteComponents pass rest = .ok rest' ∧
      families' = (family, v') :: rest' := by
  rw [rewriteComponents, bind_eq_ok] at h
  obtain ⟨v', hv, h⟩ := h
  obtain ⟨rest', hr, h⟩ := bind_eq_ok.mp h
  exact ⟨v', rest', hv, hr, pure_eq_ok.mp h⟩

/-- What becomes of a section of a document. -/
theorem rewriteDocument_cons_eq_ok {pass : Pass} {key : Scalar} {v : Value}
    {rest document' : Entries} (h : rewriteDocument pass ((key, v) :: rest) = .ok document') :
    ∃ v' rest', rewriteSection pass key v = .ok v' ∧ rewriteDocument pass rest = .ok rest' ∧
      document' = (key, v') :: rest' := by
  rw [rewriteDocument, bind_eq_ok] at h
  obtain ⟨v', hv, h⟩ := h
  obtain ⟨rest', hr, h⟩ := bind_eq_ok.mp h
  exact ⟨v', rest', hv, hr, pure_eq_ok.mp h⟩

theorem rewritePart_isMapping {pass : Pass} {v v' : Value} (h : rewritePart pass v = .ok v') :
    v'.isMapping = v.isMapping := by
  cases v with
  | mapping entries =>
    rw [rewritePart, bind_eq_ok] at h
    obtain ⟨entries', -, h⟩ := h
    rw [pure_eq_ok.mp h]
    rfl
  | list items =>
    rw [rewritePart, bind_eq_ok] at h
    obtain ⟨items', -, h⟩ := h
    rw [pure_eq_ok.mp h]
    rfl
  | scalar | set =>
    rw [rewritePart] at h
    cases h
    rfl

/-! ### From one condition to another -/

/-- The pass takes a node with `Q` whose inner schemas, rewritten, have `P` to a schema that has `P`
throughout. -/
structure Pass.Takes (pass : Pass) (Q P : Value → Prop) : Prop where
  mapping : ∀ entries, Q (.mapping entries) →
    (∀ n ∈ schemasOfKeywords (rewriteKeywords pass entries), P n) →
    ∀ n ∈ schemasIn (pass (.mapping (rewriteKeywords pass entries))), P n
  other : ∀ v : Value, v.isMapping = false → Q v → ∀ n ∈ schemasIn (pass v), P n

section Every

variable {pass : Pass} {Q P : Value → Prop}

mutual

theorem rewriteSchema_every (h : pass.Takes Q P) (v : Value) (hQ : ∀ n ∈ schemasIn v, Q n) :
    ∀ n ∈ schemasIn (rewriteSchema pass v), P n := by
  cases v with
  | mapping entries =>
    simp only [schemasIn, List.forall_mem_cons] at hQ
    rw [rewriteSchema]
    exact h.mapping entries hQ.1 (rewriteKeywords_every h entries hQ.2)
  | list | scalar | set =>
    rw [rewriteSchema]
    exact h.other _ rfl (hQ _ (by simp [schemasIn]))
termination_by sizeOf v

theorem rewriteKeywords_every (h : pass.Takes Q P) (entries : List (Scalar × Value))
    (hQ : ∀ n ∈ schemasOfKeywords entries, Q n) :
    ∀ n ∈ schemasOfKeywords (rewriteKeywords pass entries), P n := by
  match entries with
  | [] => simp [rewriteKeywords, schemasOfKeywords]
  | (key, v) :: rest =>
    have hv := rewriteSchema_every h v
    have hrest := rewriteKeywords_every h rest
    unfold schemasOfKeywords at hQ
    rw [rewriteKeywords_cons, schemasOfKeywords.eq_def]
    simp only [List.forall_mem_append] at hQ ⊢
    refine ⟨?_, hrest hQ.2⟩
    cases hk : Holds.ofKey key with
    | schema =>
      simp only [hk] at hQ ⊢
      exact hv hQ.1
    | list =>
      cases v with
      | list items =>
        simp only [hk] at hQ ⊢
        exact rewriteSchemas_every h items hQ.1
      | _ => simp
    | named =>
      cases v with
      | mapping entries =>
        simp only [hk] at hQ ⊢
        exact rewriteNamed_every h entries hQ.1
      | _ => simp
    | schemaOrFlag =>
      simp only [hk] at hQ ⊢
      by_cases hb : isFlag v = true
      · simp [hb]
      · rw [if_neg hb] at hQ ⊢
        split
        · simp
        · exact hv hQ.1
    | nothing => simp
termination_by sizeOf entries

theorem rewriteSchemas_every (h : pass.Takes Q P) (items : List Value)
    (hQ : ∀ n ∈ schemasOfList items, Q n) :
    ∀ n ∈ schemasOfList (rewriteSchemas pass items), P n := by
  match items with
  | [] => simp [rewriteSchemas, schemasOfList]
  | v :: rest =>
    simp only [schemasOfList, List.forall_mem_append] at hQ
    simp only [rewriteSchemas, schemasOfList, List.forall_mem_append]
    exact ⟨rewriteSchema_every h v hQ.1, rewriteSchemas_every h rest hQ.2⟩
termination_by sizeOf items

theorem rewriteNamed_every (h : pass.Takes Q P) (entries : List (Scalar × Value))
    (hQ : ∀ n ∈ schemasOfNamed entries, Q n) :
    ∀ n ∈ schemasOfNamed (rewriteNamed pass entries), P n := by
  match entries with
  | [] => simp [rewriteNamed, schemasOfNamed]
  | (name, v) :: rest =>
    simp only [schemasOfNamed, List.forall_mem_append] at hQ
    simp only [rewriteNamed, schemasOfNamed, List.forall_mem_append]
    exact ⟨rewriteSchema_every h v hQ.1, rewriteNamed_every h rest hQ.2⟩
termination_by sizeOf entries

end

mutual

theorem rewritePart_every (h : pass.Takes Q P) (v : Value) {v' : Value}
    (hv : rewritePart pass v = .ok v') (hQ : ∀ n ∈ schemasOfPart v, Q n) :
    ∀ n ∈ schemasOfPart v', P n := by
  cases v with
  | mapping entries =>
    rw [rewritePart, bind_eq_ok] at hv
    obtain ⟨entries', he, hv⟩ := hv
    rw [pure_eq_ok.mp hv, schemasOfPart]
    rw [schemasOfPart] at hQ
    exact rewriteParts_every h entries he hQ
  | list items =>
    rw [rewritePart, bind_eq_ok] at hv
    obtain ⟨items', hi, hv⟩ := hv
    rw [pure_eq_ok.mp hv, schemasOfPart]
    rw [schemasOfPart] at hQ
    exact rewriteItems_every h items hi hQ
  | scalar | set =>
    rw [rewritePart] at hv
    cases hv
    simp [schemasOfPart]
termination_by sizeOf v

theorem rewriteParts_every (h : pass.Takes Q P) (entries : List (Scalar × Value))
    {entries' : List (Scalar × Value)} (he : rewriteParts pass entries = .ok entries')
    (hQ : ∀ n ∈ schemasOfParts entries, Q n) : ∀ n ∈ schemasOfParts entries', P n := by
  match entries with
  | [] =>
    rw [rewriteParts] at he
    cases he
    simp [schemasOfParts]
  | (key, v) :: rest =>
    obtain ⟨isOpaque, v', rest', ho, hv, hr, rfl⟩ := rewriteParts_cons_eq_ok he
    rw [schemasOfParts] at hQ ⊢
    simp only [ho, List.forall_mem_append] at hQ ⊢
    refine ⟨?_, rewriteParts_every h rest hr hQ.2⟩
    cases isOpaque with
    | true => simp
    | false =>
      by_cases hs : isSchemaKey key = true
      · simp only [hs, Bool.false_eq_true, if_false, if_true] at hv hQ ⊢
        cases hv
        exact rewriteSchema_every h v hQ.1
      · simp only [hs, Bool.false_eq_true, if_false] at hv hQ ⊢
        exact rewritePart_every h v hv hQ.1
termination_by sizeOf entries

theorem rewriteItems_every (h : pass.Takes Q P) (items : List Value) {items' : List Value}
    (hi : rewriteItems pass items = .ok items') (hQ : ∀ n ∈ schemasOfItems items, Q n) :
    ∀ n ∈ schemasOfItems items', P n := by
  match items with
  | [] =>
    rw [rewriteItems] at hi
    cases hi
    simp [schemasOfItems]
  | v :: rest =>
    obtain ⟨v', rest', hv, hr, rfl⟩ := rewriteItems_cons_eq_ok hi
    simp only [schemasOfItems, List.forall_mem_append] at hQ ⊢
    exact ⟨rewritePart_every h v hv hQ.1, rewriteItems_every h rest hr hQ.2⟩
termination_by sizeOf items

end

theorem rewriteFamily_every (h : pass.Takes Q P) {family : Scalar} {v v' : Value}
    (hv : rewriteFamily pass family v = .ok v') (hQ : ∀ n ∈ schemasOfFamily family v, Q n) :
    ∀ n ∈ schemasOfFamily family v', P n := by
  rcases family_cases family v with ⟨schemas, rfl, rfl⟩ | hpart
  · rw [rewriteFamily] at hv
    cases hv
    exact rewriteNamed_every h schemas hQ
  · rw [rewriteFamily_of_part hpart] at hv
    rw [schemasOfFamily_of_part hpart] at hQ
    rw [schemasOfFamily_of_part (rewritePart_isMapping hv ▸ hpart)]
    exact rewritePart_every h v hv hQ

theorem rewriteComponents_every (h : pass.Takes Q P) {families families' : Entries}
    (hf : rewriteComponents pass families = .ok families')
    (hQ : ∀ n ∈ schemasOfComponents families, Q n) :
    ∀ n ∈ schemasOfComponents families', P n := by
  induction families generalizing families' with
  | nil =>
    rw [rewriteComponents] at hf
    cases hf
    simp [schemasOfComponents]
  | cons e rest ih =>
    obtain ⟨v', rest', hv, hr, rfl⟩ := rewriteComponents_cons_eq_ok hf
    rw [schemasOfComponents, List.forall_mem_append] at hQ ⊢
    exact ⟨rewriteFamily_every h hv hQ.1, ih hr hQ.2⟩

theorem rewriteSection_every (h : pass.Takes Q P) {key : Scalar} {v v' : Value}
    (hv : rewriteSection pass key v = .ok v') (hQ : ∀ n ∈ schemasOfSection key v, Q n) :
    ∀ n ∈ schemasOfSection key v', P n := by
  rcases section_cases key v with ⟨families, rfl, rfl⟩ | ⟨schemas, rfl, rfl⟩ | hpart
  · obtain ⟨families', hf, rfl⟩ := map_eq_ok.mp hv
    exact rewriteComponents_every h hf hQ
  · rw [rewriteSection] at hv
    cases hv
    exact rewriteNamed_every h schemas hQ
  · rw [rewriteSection_of_part hpart] at hv
    rw [schemasOfSection_of_part hpart] at hQ
    rw [schemasOfSection_of_part (rewritePart_isMapping hv ▸ hpart)]
    exact rewritePart_every h v hv hQ

/-- **A pass brings all schemas of a document from one condition to another**, if it does so at every
node. -/
theorem rewriteDocument_every (h : pass.Takes Q P) {document document' : Entries}
    (hd : rewriteDocument pass document = .ok document')
    (hQ : ∀ n ∈ schemasOfDocument document, Q n) : ∀ n ∈ schemasOfDocument document', P n := by
  induction document generalizing document' with
  | nil =>
    rw [rewriteDocument] at hd
    cases hd
    simp [schemasOfDocument]
  | cons e rest ih =>
    obtain ⟨v', rest', hv, hr, rfl⟩ := rewriteDocument_cons_eq_ok hd
    rw [schemasOfDocument, List.forall_mem_append] at hQ ⊢
    exact ⟨rewriteSection_every h hv hQ.1, ih hr hQ.2⟩

end Every

/-! ### Schemas that stay as they are -/

section Again

variable {pass again : Pass}

mutual

theorem rewriteSchema_eq_self (v : Value) (h : ∀ n ∈ schemasIn v, again n = n) :
    rewriteSchema again v = v := by
  cases v with
  | mapping entries =>
    rw [schemasIn, List.forall_mem_cons] at h
    rw [rewriteSchema, rewriteKeywords_eq_self entries h.2, h.1]
  | list | scalar | set =>
    rw [rewriteSchema]
    exact h _ (by simp [schemasIn])
termination_by sizeOf v

theorem rewriteKeywords_eq_self (entries : List (Scalar × Value))
    (h : ∀ n ∈ schemasOfKeywords entries, again n = n) :
    rewriteKeywords again entries = entries := by
  match entries with
  | [] => rw [rewriteKeywords]
  | (key, v) :: rest =>
    have hv := rewriteSchema_eq_self v
    unfold schemasOfKeywords at h
    rw [List.forall_mem_append] at h
    rw [rewriteKeywords_cons, rewriteKeywords_eq_self rest h.2]
    congr 2
    cases hk : Holds.ofKey key with
    | schema =>
      simp only [hk] at h
      exact hv h.1
    | list =>
      cases v with
      | list items =>
        simp only [hk] at h
        exact congrArg Value.list (rewriteSchemas_eq_self items h.1)
      | scalar | mapping | set => rfl
    | named =>
      cases v with
      | mapping entries =>
        simp only [hk] at h
        exact congrArg Value.mapping (rewriteNamed_eq_self entries h.1)
      | scalar | list | set => rfl
    | schemaOrFlag =>
      by_cases hb : isFlag v = true
      · exact if_pos hb
      · simp only [hk, if_neg hb] at h ⊢
        exact hv h.1
    | nothing => rfl
termination_by sizeOf entries

theorem rewriteSchemas_eq_self (items : List Value)
    (h : ∀ n ∈ schemasOfList items, again n = n) : rewriteSchemas again items = items := by
  match items with
  | [] => rw [rewriteSchemas]
  | v :: rest =>
    rw [schemasOfList, List.forall_mem_append] at h
    rw [rewriteSchemas, rewriteSchema_eq_self v h.1, rewriteSchemas_eq_self rest h.2]
termination_by sizeOf items

theorem rewriteNamed_eq_self (entries : List (Scalar × Value))
    (h : ∀ n ∈ schemasOfNamed entries, again n = n) : rewriteNamed again entries = entries := by
  match entries with
  | [] => rw [rewriteNamed]
  | (name, v) :: rest =>
    rw [schemasOfNamed, List.forall_mem_append] at h
    rw [rewriteNamed, rewriteSchema_eq_self v h.1, rewriteNamed_eq_self rest h.2]
termination_by sizeOf entries

end

mutual

/-- A part that one pass got through, another gets through as well. -/
theorem rewritePart_again (v : Value) {v' : Value} (hv : rewritePart pass v = .ok v')
    (h : ∀ n ∈ schemasOfPart v', again n = n) : rewritePart again v' = .ok v' := by
  cases v with
  | mapping entries =>
    rw [rewritePart, bind_eq_ok] at hv
    obtain ⟨entries', he, hv⟩ := hv
    cases pure_eq_ok.mp hv
    rw [rewritePart, rewriteParts_again entries he h]
    rfl
  | list items =>
    rw [rewritePart, bind_eq_ok] at hv
    obtain ⟨items', hi, hv⟩ := hv
    cases pure_eq_ok.mp hv
    rw [rewritePart, rewriteItems_again items hi h]
    rfl
  | scalar | set =>
    rw [rewritePart] at hv
    cases hv
    rw [rewritePart]
termination_by sizeOf v

theorem rewriteParts_again (entries : List (Scalar × Value)) {entries' : List (Scalar × Value)}
    (he : rewriteParts pass entries = .ok entries')
    (h : ∀ n ∈ schemasOfParts entries', again n = n) :
    rewriteParts again entries' = .ok entries' := by
  match entries with
  | [] =>
    rw [rewriteParts] at he
    cases he
    rw [rewriteParts]
  | (key, v) :: rest =>
    obtain ⟨isOpaque, v', rest', ho, hv, hr, rfl⟩ := rewriteParts_cons_eq_ok he
    rw [schemasOfParts, List.forall_mem_append] at h
    rw [rewriteParts, ho, rewriteParts_again rest hr h.2]
    cases isOpaque with
    | true => rfl
    | false =>
      rw [ho] at h
      by_cases hs : isSchemaKey key = true
      · simp only [hs, if_true] at h
        show (if isSchemaKey key then _ else _) = _
        rw [if_pos hs, rewriteSchema_eq_self v' h.1]
        rfl
      · simp only [hs, Bool.false_eq_true, if_false] at hv h
        show (if isSchemaKey key then _ else _) = _
        rw [if_neg hs, rewritePart_again v hv h.1]
        rfl
termination_by sizeOf entries

theorem rewriteItems_again (items : List Value) {items' : List Value}
    (hi : rewriteItems pass items = .ok items')
    (h : ∀ n ∈ schemasOfItems items', again n = n) : rewriteItems again items' = .ok items' := by
  match items with
  | [] =>
    rw [rewriteItems] at hi
    cases hi
    rw [rewriteItems]
  | v :: rest =>
    obtain ⟨v', rest', hv, hr, rfl⟩ := rewriteItems_cons_eq_ok hi
    rw [schemasOfItems, List.forall_mem_append] at h
    rw [rewriteItems, rewritePart_again v hv h.1, rewriteItems_again rest hr h.2]
    rfl
termination_by sizeOf items

end

theorem rewriteFamily_again {family : Scalar} {v v' : Value}
    (hv : rewriteFamily pass family v = .ok v')
    (h : ∀ n ∈ schemasOfFamily family v', again n = n) :
    rewriteFamily again family v' = .ok v' := by
  rcases family_cases family v with ⟨schemas, rfl, rfl⟩ | hpart
  · rw [rewriteFamily] at hv
    cases hv
    rw [rewriteFamily, rewriteNamed_eq_self _ h]
  · rw [rewriteFamily_of_part hpart] at hv
    have hpart' := rewritePart_isMapping hv ▸ hpart
    rw [schemasOfFamily_of_part hpart'] at h
    rw [rewriteFamily_of_part hpart']
    exact rewritePart_again v hv h

theorem rewriteComponents_again {families families' : Entries}
    (hf : rewriteComponents pass families = .ok families')
    (h : ∀ n ∈ schemasOfComponents families', again n = n) :
    rewriteComponents again families' = .ok families' := by
  induction families generalizing families' with
  | nil =>
    rw [rewriteComponents] at hf
    cases hf
    rw [rewriteComponents]
  | cons e rest ih =>
    obtain ⟨v', rest', hv, hr, rfl⟩ := rewriteComponents_cons_eq_ok hf
    rw [schemasOfComponents, List.forall_mem_append] at h
    rw [rewriteComponents, rewriteFamily_again hv h.1, ih hr h.2]
    rfl

theorem rewriteSection_again {key : Scalar} {v v' : Value}
    (hv : rewriteSection pass key v = .ok v')
    (h : ∀ n ∈ schemasOfSection key v', again n = n) :
    rewriteSection again key v' = .ok v' := by
  rcases section_cases key v with ⟨families, rfl, rfl⟩ | ⟨schemas, rfl, rfl⟩ | hpart
  · obtain ⟨families', hf, rfl⟩ := map_eq_ok.mp hv
    exact map_eq_ok.mpr ⟨families', rewriteComponents_again hf h, rfl⟩
  · rw [rewriteSection] at hv
    cases hv
    rw [rewriteSection, rewriteNamed_eq_self _ h]
  · rw [rewriteSection_of_part hpart] at hv
    have hpart' := rewritePart_isMapping hv ▸ hpart
    rw [schemasOfSection_of_part hpart'] at h
    rw [rewriteSection_of_part hpart']
    exact rewritePart_again v hv h

/-- **A pass that changes none of the schemas of a document changes nothing**, if another pass has
been through the document before. -/
theorem rewriteDocument_again {document document' : Entries}
    (hd : rewriteDocument pass document = .ok document')
    (h : ∀ n ∈ schemasOfDocument document', again n = n) :
    rewriteDocument again document' = .ok document' := by
  induction document generalizing document' with
  | nil =>
    rw [rewriteDocument] at hd
    cases hd
    rw [rewriteDocument]
  | cons e rest ih =>
    obtain ⟨v', rest', hv, hr, rfl⟩ := rewriteDocument_cons_eq_ok hd
    rw [schemasOfDocument, List.forall_mem_append] at h
    rw [rewriteDocument, rewriteSection_again hv h.1, ih hr h.2]
    rfl

end Again

end ContractSync.Contract
