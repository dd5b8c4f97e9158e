import ContractSync.Proofs.Contract.Normal

/-!
# Examples and the passes

A schema node has examples of its own (`ownExamples`); those of a schema are the ones of all schemas inside
it, in order. **The passes move schemas, and leave every example in its order** (`examplesIn_rewriteSchema`):
what they add and remove holds none. A part whose schemas are in normal form stays as it is
(`rewritePart_eq_self`).
-/

namespace ContractSync.Contract

open ContractSync.Document

/-! ### The examples of a schema -/

/-- What an entry has for an example. -/
def exampleAt (e : Scalar × Value) : List Value := if isLiteralKey e.1 then [e.2] else []

/-- The examples of a node itself. -/
def ownExamples (v : Value) : List Value := v.entries.flatMap exampleAt

/-- The examples in some schemas. -/
def examplesOf (schemas : List Value) : List Value := schemas.flatMap ownExamples

/-- The examples of a schema and of all schemas inside it. -/
def examplesIn (v : Value) : List Value := examplesOf (schemasIn v)

theorem examplesOf_append (a b : List Value) : examplesOf (a ++ b) = examplesOf a ++ examplesOf b :=
  List.flatMap_append

theorem schemasOfKeywords_eq_flatMap (entries : List (Scalar × Value)) :
    schemasOfKeywords entries = entries.flatMap fun e => schemasAt e.1 e.2 := by
  induction entries with
  | nil => rw [schemasOfKeywords, List.flatMap_nil]
  | cons e rest ih =>
    rw [schemasOfKeywords.eq_def, List.flatMap_cons, ← ih, schemasAt, schemasOfKeywords.eq_def [(e.1, e.2)]]
    simp only [schemasOfKeywords, List.append_nil]

theorem examplesIn_mapping (entries : Entries) :
    examplesIn (.mapping entries) =
      entries.flatMap exampleAt ++ examplesOf (entries.flatMap fun e => schemasAt e.1 e.2) := by
  rw [examplesIn, schemasIn, schemasOfKeywords_eq_flatMap]
  rfl

/-! ### Nodes that a pass changes -/

section Changes

variable {entries : Entries} {key : String}

/-- The key holds neither an example nor a schema. -/
def IsPlain (key : String) : Prop :=
  isLiteralKey (.text key) = false ∧ Holds.ofKey (.text key) = .nothing

instance : DecidablePred IsPlain := fun _ => inferInstanceAs (Decidable (_ ∧ _))

theorem exampleAt_of_isPlain (h : IsPlain key) (v : Value) : exampleAt (.text key, v) = [] :=
  if_neg (by rw [h.1]; exact Bool.false_ne_true)

theorem examplesIn_erase (h : IsPlain key) :
    examplesIn (.mapping (Entries.erase entries key)) = examplesIn (.mapping entries) := by
  rw [examplesIn_mapping, examplesIn_mapping, Entries.flatMap_erase (exampleAt_of_isPlain h),
    Entries.flatMap_erase fun v => schemasAt_of_nothing h.2]

theorem examplesIn_put (h : IsPlain key) (v : Value) :
    examplesIn (.mapping (Entries.put entries key v)) = examplesIn (.mapping entries) := by
  rw [examplesIn_mapping, examplesIn_mapping, Entries.flatMap_put (exampleAt_of_isPlain h),
    Entries.flatMap_put fun v => schemasAt_of_nothing h.2]

theorem examplesIn_putNew (h : IsPlain key) (v : Value) :
    examplesIn (.mapping (Entries.putNew entries key v)) = examplesIn (.mapping entries) := by
  rw [examplesIn_mapping, examplesIn_mapping, Entries.flatMap_putNew (exampleAt_of_isPlain h),
    Entries.flatMap_putNew fun v => schemasAt_of_nothing h.2]

theorem examplesIn_foldl_erase {keys : List String} (h : ∀ key ∈ keys, IsPlain key) :
    examplesIn (.mapping (keys.foldl Entries.erase entries)) = examplesIn (.mapping entries) := by
  induction keys generalizing entries with
  | nil => rfl
  | cons key rest ih =>
    obtain ⟨hkey, hrest⟩ := List.forall_mem_cons.mp h
    rw [List.foldl_cons, ih hrest, examplesIn_erase hkey]

theorem examplesIn_orNull : examplesIn (orNull entries) = examplesIn (.mapping entries) := by
  unfold orNull
  split
  · split
    · rfl
    · exact examplesIn_put (by decide) _
  · split
    · rfl
    · exact examplesIn_put (by decide) _
  · -- The alternatives are the schema itself and one without examples.
    have hnull : examplesIn nullSchema = [] := by decide
    have hplace : examplesIn (.object [("anyOf", .list [.mapping entries, nullSchema])]) =
        examplesIn (.mapping entries) ++ (examplesIn nullSchema ++ []) := by
      rw [Value.object, List.map_singleton, examplesIn_mapping, List.flatMap_singleton, List.flatMap_singleton,
        exampleAt, if_neg (show ¬ isLiteralKey (.text "anyOf") = true by decide), List.nil_append, schemasAt, schemasOfKeywords.eq_def]
      simp only [holds_anyOf, schemasOfKeywords, schemasOfList, List.append_nil, examplesOf_append]
      rfl
    rw [hplace, hnull]
    exact List.append_nil _

end Changes

/-- The examples of a node stay, whatever the pass makes of it. -/
def Pass.Spares (pass : Pass) : Prop := ∀ v, examplesIn (pass v) = examplesIn v

theorem expandFlag_spares : expandFlag.Spares := by
  intro v
  by_cases hf : isFlag v = true
  · obtain ⟨b, rfl⟩ := eq_bool_of_isFlag hf
    cases b <;> decide
  · rw [expandFlag_eq_self (Bool.not_eq_true _ ▸ hf)]

theorem foldNullable_spares : foldNullable.Spares := by
  intro v
  unfold foldNullable
  split
  · rename_i entries
    have hbare := @examplesIn_foldl_erase entries nullableKeys (by decide)
    simp only
    split
    · rw [examplesIn_orNull, hbare]
    · exact hbare
  · rfl

theorem foldConst_spares : foldConst.Spares := by
  intro v
  unfold foldConst
  split
  · rename_i entries
    split
    · rfl
    · have hbare := @examplesIn_erase entries "const" (by decide)
      simp only
      rw [examplesIn_putNew (by decide)]
      split
      · split
        · rw [examplesIn_put (by decide), hbare]
        · exact hbare
      · rw [examplesIn_put (by decide), hbare]
  · rfl

/-- **Every pass leaves the examples of a node.** -/
theorem spares_of_mem_passes {pass : Pass} (h : pass ∈ passes) : pass.Spares := by
  simp only [passes, List.mem_cons, List.not_mem_nil, or_false] at h
  rcases h with rfl | rfl | rfl
  · exact expandFlag_spares
  · exact foldNullable_spares
  · exact foldConst_spares

/-! ### Whole schemas -/

section Spares

variable {pass : Pass}

theorem isLiteralKey_of_holds {key : Scalar} (h : Holds.ofKey key ≠ .nothing) : isLiteralKey key = false := by
  cases key with
  | text key =>
    rw [isLiteralKey, ← Bool.not_eq_true, List.contains_iff_mem]
    intro hmem
    simp only [literalKeys, List.mem_cons, List.not_mem_nil, or_false] at hmem
    rcases hmem with rfl | rfl <;> exact h (by decide)
  | _ => rfl

/-- Rewriting inside a node leaves its own examples. -/
theorem ownExamples_rewriteKeywords (entries : List (Scalar × Value)) :
    ownExamples (.mapping (rewriteKeywords pass entries)) = ownExamples (.mapping entries) := by
  show (rewriteKeywords pass entries).flatMap exampleAt = entries.flatMap exampleAt
  induction entries with
  | nil => rw [rewriteKeywords]
  | cons e rest ih =>
    rw [rewriteKeywords_cons, List.flatMap_cons, List.flatMap_cons, ih, exampleAt, exampleAt]
    congr 1
    cases hk : Holds.ofKey e.1 with
    | nothing => rfl
    | _ =>
      have hholds : Holds.ofKey e.1 ≠ .nothing := by simp [hk]
      simp only [isLiteralKey_of_holds hholds]
      rfl

mutual

/-- **Rewriting a schema leaves its examples, in their order.** -/
theorem examplesIn_rewriteSchema (h : pass.Spares) (v : Value) :
    examplesIn (rewriteSchema pass v) = examplesIn v := by
  cases v with
  | mapping entries =>
    rw [rewriteSchema, h, examplesIn, schemasIn, examplesOf, List.flatMap_cons, ownExamples_rewriteKeywords,
      examplesIn, schemasIn, examplesOf, List.flatMap_cons]
    exact congrArg _ (examplesOf_rewriteKeywords h entries)
  | list | scalar | set =>
    rw [rewriteSchema]
    exact h _
termination_by sizeOf v

theorem examplesOf_rewriteKeywords (h : pass.Spares) (entries : List (Scalar × Value)) :
    examplesOf (schemasOfKeywords (rewriteKeywords pass entries)) =
      examplesOf (schemasOfKeywords entries) := by
  match entries with
  | [] => rw [rewriteKeywords]
  | (key, v) :: rest =>
    have hv := examplesIn_rewriteSchema h v
    rw [rewriteKeywords_cons, schemasOfKeywords.eq_def, schemasOfKeywords.eq_def ((key, v) :: rest)]
    simp only [examplesOf_append, examplesOf_rewriteKeywords h rest]
    congr 1
    cases hk : Holds.ofKey key with
    | schema => exact hv
    | list =>
      cases v with
      | list items => exact examplesOf_rewriteSchemas h items
      | _ => rfl
    | named =>
      cases v with
      | mapping entries => exact examplesOf_rewriteNamed h entries
      | _ => rfl
    | schemaOrFlag =>
      by_cases hb : isFlag v = true
      · simp only [hb, if_true]
      · simp only [if_neg hb]
        split
        · -- A flag holds no examples, so that there were none before.
          rename_i hflag
          obtain ⟨b, hb⟩ := eq_bool_of_isFlag hflag
          rw [hb] at hv
          exact hv
        · exact hv
    | nothing => rfl
termination_by sizeOf entries

theorem examplesOf_rewriteSchemas (h : pass.Spares) (items : List Value) :
    examplesOf (schemasOfList (rewriteSchemas pass items)) = examplesOf (schemasOfList items) := by
  match items with
  | [] => rw [rewriteSchemas]
  | v :: rest =>
    rw [rewriteSchemas, schemasOfList, schemasOfList, examplesOf_append, examplesOf_append,
      examplesOf_rewriteSchemas h rest]
    exact congrArg (· ++ _) (examplesIn_rewriteSchema h v)
termination_by sizeOf items

theorem examplesOf_rewriteNamed (h : pass.Spares) (entries : List (Scalar × Value)) :
    examplesOf (schemasOfNamed (rewriteNamed pass entries)) = examplesOf (schemasOfNamed entries) := by
  match entries with
  | [] => rw [rewriteNamed]
  | (name, v) :: rest =>
    rw [rewriteNamed, schemasOfNamed, schemasOfNamed, examplesOf_append, examplesOf_append,
      examplesOf_rewriteNamed h rest]
    exact congrArg (· ++ _) (examplesIn_rewriteSchema h v)
termination_by sizeOf entries

end

end Spares

/-! ### Parts that stay as they are -/

section Still

variable {pass : Pass}

mutual

/-- A part stays if the pass leaves all its schemas. -/
theorem rewritePart_eq_self (v : Value) {v' : Value} (hv : rewritePart pass v = .ok v')
    (h : ∀ n ∈ schemasOfPart v, pass n = n) : v' = v := by
  cases v with
  | mapping entries =>
    rw [rewritePart, bind_eq_ok] at hv
    obtain ⟨entries', he, hv⟩ := hv
    rw [schemasOfPart] at h
    rw [pure_eq_ok.mp hv, rewriteParts_eq_self entries he h]
  | list items =>
    rw [rewritePart, bind_eq_ok] at hv
    obtain ⟨items', hi, hv⟩ := hv
    rw [schemasOfPart] at h
    rw [pure_eq_ok.mp hv, rewriteItems_eq_self items hi h]
  | scalar | set =>
    rw [rewritePart] at hv
    exact (Except.ok.inj hv).symm
termination_by sizeOf v

theorem rewriteParts_eq_self (entries : List (Scalar × Value)) {entries' : List (Scalar × Value)}
    (he : rewriteParts pass entries = .ok entries') (h : ∀ n ∈ schemasOfParts entries, pass n = n) :
    entries' = entries := by
  match entries with
  | [] =>
    rw [rewriteParts] at he
    exact (Except.ok.inj he).symm
  | (key, v) :: rest =>
    obtain ⟨isOpaque, v', rest', ho, hv, hr, rfl⟩ := rewriteParts_cons_eq_ok he
    rw [schemasOfParts, List.forall_mem_append, ho] at h
    rw [rewriteParts_eq_self rest hr h.2]
    cases isOpaque with
    | true =>
      cases hv
      rfl
    | false =>
      by_cases hs : isSchemaKey key = true
      · simp only [hs, Bool.false_eq_true, if_false, if_true] at hv h
        cases hv
        rw [rewriteSchema_eq_self v h.1]
      · simp only [hs, Bool.false_eq_true, if_false] at hv h
        rw [rewritePart_eq_self v hv h.1]
termination_by sizeOf entries

theorem rewriteItems_eq_self (items : List Value) {items' : List Value}
    (hi : rewriteItems pass items = .ok items') (h : ∀ n ∈ schemasOfItems items, pass n = n) :
    items' = items := by
  match items with
  | [] =>
    rw [rewriteItems] at hi
    exact (Except.ok.inj hi).symm
  | v :: rest =>
    obtain ⟨v', rest', hv, hr, rfl⟩ := rewriteItems_cons_eq_ok hi
    rw [schemasOfItems, List.forall_mem_append] at h
    rw [rewritePart_eq_self v hv h.1, rewriteItems_eq_self rest hr h.2]
termination_by sizeOf items

end

end Still

end ContractSync.Contract
