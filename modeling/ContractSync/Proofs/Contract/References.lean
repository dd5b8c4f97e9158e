import ContractSync.Proofs.Contract.Normal

/-!
# The references of a document

`referencesIn` lists the strings under the key `$ref`, at any depth or outside the keys of examples only.
Those outside move with their targets, those under a key of an example (`heldReferences`) stay
(`refers_moveReferences`). **A document refers to nothing new after the passes** (`keeps_runPasses`).
-/

namespace ContractSync.Contract

open ContractSync.Document

/-- The key of a reference. -/
def referenceKey : Scalar := .text "$ref"

/-- What stands at the key is left out, unless everything is asked for. -/
def skips (deep : Bool) (key : Scalar) : Bool := !deep && isLiteralKey key

mutual

/-- The references in a value; only with `deep` also those under the keys of examples. -/
def referencesIn (deep : Bool) : Value → List String
  | .mapping entries => referencesOf deep entries
  | .list items => referencesOfItems deep items
  | .scalar _ => []
  | .set _ => []

/-- The references in the entries of a mapping. -/
def referencesOf (deep : Bool) : List (Scalar × Value) → List String
  | [] => []
  | (key, v) :: rest =>
    (match v with
      | .scalar (.text ref) => if key = referenceKey then [ref] else []
      | v => if skips deep key then [] else referencesIn deep v) ++ referencesOf deep rest

/-- The references in the items of a list. -/
def referencesOfItems (deep : Bool) : List Value → List String
  | [] => []
  | v :: rest => referencesIn deep v ++ referencesOfItems deep rest

end

mutual

/-- The references in a value that stand under a key of an example. -/
def heldReferences : Value → List String
  | .mapping entries => heldReferencesOf entries
  | .list items => heldReferencesOfItems items
  | .scalar _ => []
  | .set _ => []

/-- The references in the entries of a mapping that stand under a key of an example. -/
def heldReferencesOf : List (Scalar × Value) → List String
  | [] => []
  | (key, v) :: rest =>
    (if isLiteralKey key then referencesIn true v else heldReferences v) ++ heldReferencesOf rest

/-- The references in the items of a list that stand under a key of an example. -/
def heldReferencesOfItems : List Value → List String
  | [] => []
  | v :: rest => heldReferences v ++ heldReferencesOfItems rest

end

/-! ### One entry -/

theorem eq_text_of_text? {v : Value} {s : String} (h : v.text? = some s) : v = .text s := by
  unfold Value.text? at h
  split at h
  · cases h
    rfl
  · cases h

section Entry

variable {deep : Bool} {key : Scalar} {v : Value} (rest : List (Scalar × Value))

theorem skips_eq_false (h : isLiteralKey key = false) : skips deep key = false := by
  rw [skips, h, Bool.and_false]

theorem referencesOf_nil (deep : Bool) : referencesOf deep [] = [] := rfl

theorem referencesOf_text (ref : String) :
    referencesOf deep ((key, .text ref) :: rest) =
      (if key = referenceKey then [ref] else []) ++ referencesOf deep rest := by
  rw [referencesOf]

theorem referencesOf_cons (h : v.text? = none) :
    referencesOf deep ((key, v) :: rest) =
      (if skips deep key then [] else referencesIn deep v) ++ referencesOf deep rest := by
  rw [referencesOf]
  rintro ref rfl
  cases h

theorem moveInEntries_text (ref : String) :
    Lift.moveInEntries ((key, .text ref) :: rest) =
      (key, if key = referenceKey then .text (Lift.moveReference ref) else .text ref) ::
        Lift.moveInEntries rest := by
  rw [Lift.moveInEntries]
  rfl

theorem moveInEntries_cons (h : v.text? = none) :
    Lift.moveInEntries ((key, v) :: rest) =
      (key, if isLiteralKey key then v else Lift.moveReferences v) :: Lift.moveInEntries rest := by
  rw [Lift.moveInEntries]
  rintro ref rfl
  cases h

theorem text?_moveReferences (v : Value) : (Lift.moveReferences v).text? = v.text? := by
  cases v with
  | scalar | set => rw [Lift.moveReferences]
  | mapping | list =>
    rw [Lift.moveReferences]
    rfl

end Entry

/-! ### What every reference has -/

/-- Every reference in the value has the property. -/
def Refers (deep : Bool) (P : String → Prop) (v : Value) : Prop := ∀ ref ∈ referencesIn deep v, P ref

/-- Every reference at the key or in the value has the property. -/
def RefersAt (deep : Bool) (P : String → Prop) (key : Scalar) (v : Value) : Prop :=
  ∀ ref ∈ referencesOf deep [(key, v)], P ref

section Refers

variable {deep : Bool} {P : String → Prop} {key : Scalar} {v : Value}

theorem referencesOf_eq_append (key : Scalar) (v : Value) (rest : List (Scalar × Value)) :
    referencesOf deep ((key, v) :: rest) = referencesOf deep [(key, v)] ++ referencesOf deep rest := by
  cases hv : v.text? with
  | none => rw [referencesOf_cons _ hv, referencesOf_cons _ hv, referencesOf_nil, List.append_nil]
  | some s =>
    rw [eq_text_of_text? hv, referencesOf_text, referencesOf_text, referencesOf_nil,
      List.append_nil]

theorem refers_mapping {entries : Entries} :
    Refers deep P (.mapping entries) ↔ ∀ e ∈ entries, RefersAt deep P e.1 e.2 := by
  change (∀ ref ∈ referencesOf deep entries, P ref) ↔ _
  induction entries with
  | nil => simp [referencesOf_nil]
  | cons e rest ih => rw [referencesOf_eq_append, List.forall_mem_append, List.forall_mem_cons, ih, RefersAt]

theorem refers_list {items : List Value} : Refers deep P (.list items) ↔ ∀ v ∈ items, Refers deep P v := by
  change (∀ ref ∈ referencesOfItems deep items, P ref) ↔ _
  induction items with
  | nil => simp [referencesOfItems]
  | cons v rest ih => rw [referencesOfItems, List.forall_mem_append, List.forall_mem_cons, ih, Refers]

theorem refers_scalar (s : Scalar) : Refers deep P (.scalar s) := List.forall_mem_nil _

theorem refers_set (members : List Scalar) : Refers deep P (.set members) := List.forall_mem_nil _

theorem refersAt_text {s : String} : RefersAt deep P key (.text s) ↔ (key = referenceKey → P s) := by
  rw [RefersAt, referencesOf_text, referencesOf_nil, List.append_nil]
  split
  · rename_i hkey
    rw [List.forall_mem_singleton, forall_prop_of_true hkey]
  · rename_i hkey
    simp only [hkey, false_imp_iff, List.not_mem_nil, implies_true]

theorem refersAt_of_not_text (h : v.text? = none) :
    RefersAt deep P key v ↔ (skips deep key = false → Refers deep P v) := by
  rw [RefersAt, referencesOf_cons _ h, referencesOf_nil, List.append_nil, Refers]
  split
  · rename_i hskips
    simp only [hskips, Bool.true_eq_false, false_imp_iff, List.not_mem_nil, implies_true]
  · rename_i hskips
    rw [forall_prop_of_true (Bool.not_eq_true _ ▸ hskips)]

/-- Away from the key of a reference only the value matters. -/
theorem refersAt_of_ne (h : key ≠ referenceKey) (hv : Refers deep P v) : RefersAt deep P key v := by
  cases htext : v.text? with
  | none => exact (refersAt_of_not_text htext).mpr fun _ => hv
  | some s =>
    rw [eq_text_of_text? htext, refersAt_text]
    exact fun hkey => absurd hkey h

theorem RefersAt.refers (h : RefersAt deep P key v) (hkey : isLiteralKey key = false) : Refers deep P v := by
  cases hv : v.text? with
  | none => exact (refersAt_of_not_text hv).mp h (skips_eq_false hkey)
  | some s =>
    rw [eq_text_of_text? hv]
    exact refers_scalar _

theorem refers_of_get? {entries : Entries} {key : String} (h : Refers deep P (.mapping entries))
    (hkey : isLiteralKey (.text key) = false) (hv : Entries.get? entries key = some v) : Refers deep P v :=
  (refers_mapping.mp h _ (Entries.mem_of_get? hv)).refers hkey

theorem refers_get {entries : Entries} {key : String} (h : Refers deep P (.mapping entries))
    (hkey : isLiteralKey (.text key) = false) : Refers deep P (Entries.get entries key) := by
  rw [Entries.get]
  cases hv : Entries.get? entries key with
  | none => exact refers_scalar .null
  | some v => exact refers_of_get? h hkey hv

theorem Refers.erase {entries : Entries} (h : Refers deep P (.mapping entries)) (key : String) :
    Refers deep P (.mapping (Entries.erase entries key)) :=
  refers_mapping.mpr fun e he => refers_mapping.mp h e (Entries.mem_of_mem_erase he)

theorem Refers.put {entries : Entries} {key : String} (h : Refers deep P (.mapping entries))
    (hkey : .text key ≠ referenceKey) (hv : Refers deep P v) :
    Refers deep P (.mapping (Entries.put entries key v)) := by
  refine refers_mapping.mpr fun e he => ?_
  rcases Entries.mem_of_mem_put he with he | rfl
  · exact refers_mapping.mp h e he
  · exact refersAt_of_ne hkey hv

theorem Refers.putNew {entries : Entries} {key : String} (h : Refers deep P (.mapping entries))
    (hkey : .text key ≠ referenceKey) (hv : Refers deep P v) :
    Refers deep P (.mapping (Entries.putNew entries key v)) := by
  refine refers_mapping.mpr fun e he => ?_
  rcases Entries.mem_of_mem_putNew he with he | rfl
  · exact refers_mapping.mp h e he
  · exact refersAt_of_ne hkey hv

theorem Refers.append {a b : Entries} (ha : Refers deep P (.mapping a)) (hb : Refers deep P (.mapping b)) :
    Refers deep P (.mapping (a ++ b)) :=
  refers_mapping.mpr (List.forall_mem_append.mpr ⟨refers_mapping.mp ha, refers_mapping.mp hb⟩)

end Refers

/-! ### References that move -/

section Move

variable {deep : Bool} {P : String → Prop}

mutual

/-- **References outside the keys of examples move, those under them stay.** -/
theorem refers_moveReferences (v : Value) (hfree : Refers false (fun ref => P (Lift.moveReference ref)) v)
    (hheld : deep = true → ∀ ref ∈ heldReferences v, P ref) : Refers deep P (Lift.moveReferences v) := by
  cases v with
  | mapping entries =>
    rw [Lift.moveReferences]
    exact refers_moveInEntries entries hfree hheld
  | list items =>
    rw [Lift.moveReferences]
    exact refers_moveInItems items hfree hheld
  | scalar s => exact refers_scalar s
  | set members => exact refers_set members
termination_by sizeOf v

theorem refers_moveInEntries (entries : List (Scalar × Value))
    (hfree : Refers false (fun ref => P (Lift.moveReference ref)) (.mapping entries))
    (hheld : deep = true → ∀ ref ∈ heldReferencesOf entries, P ref) :
    Refers deep P (.mapping (Lift.moveInEntries entries)) := by
  match entries with
  | [] => exact refers_mapping.mpr (List.forall_mem_nil _)
  | (key, v) :: rest =>
    obtain ⟨hfirst, hrest⟩ := List.forall_mem_cons.mp (refers_mapping.mp hfree)
    simp only [heldReferencesOf, List.forall_mem_append] at hheld
    have hmoved := refers_moveInEntries rest (refers_mapping.mpr hrest) fun hdeep => (hheld hdeep).2
    cases hv : v.text? with
    | some ref =>
      cases eq_text_of_text? hv
      rw [moveInEntries_text]
      refine refers_mapping.mpr (List.forall_mem_cons.mpr ⟨?_, refers_mapping.mp hmoved⟩)
      by_cases hkey : key = referenceKey
      · have hone := refersAt_text.mp hfirst
        rw [if_pos hkey, refersAt_text]
        exact hone
      · rw [if_neg hkey]
        exact refersAt_of_ne hkey (refers_scalar _)
    | none =>
      rw [moveInEntries_cons _ hv]
      refine refers_mapping.mpr (List.forall_mem_cons.mpr ⟨?_, refers_mapping.mp hmoved⟩)
      split
      · rename_i hkey
        refine (refersAt_of_not_text hv).mpr fun hskips => ?_
        have hdeep : deep = true := by simpa [skips, hkey] using hskips
        have hall := (hheld hdeep).1
        rw [if_pos hkey] at hall
        rw [hdeep]
        exact hall
      · rename_i hkey
        refine (refersAt_of_not_text ((text?_moveReferences v).trans hv)).mpr fun _ => ?_
        refine refers_moveReferences v (hfirst.refers (Bool.not_eq_true _ ▸ hkey)) fun hdeep => ?_
        have hall := (hheld hdeep).1
        rw [if_neg hkey] at hall
        exact hall
termination_by sizeOf entries

theorem refers_moveInItems (items : List Value)
    (hfree : Refers false (fun ref => P (Lift.moveReference ref)) (.list items))
    (hheld : deep = true → ∀ ref ∈ heldReferencesOfItems items, P ref) :
    Refers deep P (.list (Lift.moveInItems items)) := by
  match items with
  | [] => exact refers_list.mpr (List.forall_mem_nil _)
  | v :: rest =>
    obtain ⟨hfirst, hrest⟩ := List.forall_mem_cons.mp (refers_list.mp hfree)
    simp only [heldReferencesOfItems, List.forall_mem_append] at hheld
    rw [Lift.moveInItems]
    exact refers_list.mpr (List.forall_mem_cons.mpr
      ⟨refers_moveReferences v hfirst fun hdeep => (hheld hdeep).1,
        refers_list.mp (refers_moveInItems rest (refers_list.mpr hrest) fun hdeep => (hheld hdeep).2)⟩)
termination_by sizeOf items

end

end Move

/-! ### References and passes -/

/-- The second value refers to nothing that the first does not, and is a text only if the first is the same. -/
structure Keeps (deep : Bool) (P : String → Prop) (v v' : Value) : Prop where
  text : v'.text? = v.text?
  refers : Refers deep P v → Refers deep P v'

section Keeps

variable {deep : Bool} {P : String → Prop} {key : Scalar} {v v' : Value}

theorem Keeps.refl (v : Value) : Keeps deep P v v := ⟨rfl, id⟩

theorem keeps_mapping {entries entries' : Entries} (h : Refers deep P (.mapping entries) → Refers deep P (.mapping entries')) :
    Keeps deep P (.mapping entries) (.mapping entries') := ⟨rfl, h⟩

theorem Keeps.refersAt (h : Keeps deep P v v') (hv : RefersAt deep P key v) : RefersAt deep P key v' := by
  cases htext : v.text? with
  | some s =>
    rw [eq_text_of_text? (h.text.trans htext), ← eq_text_of_text? htext]
    exact hv
  | none =>
    exact (refersAt_of_not_text (h.text.trans htext)).mpr fun hskips =>
      h.refers ((refersAt_of_not_text htext).mp hv hskips)

theorem Keeps.cons {rest rest' : Entries} (h : Keeps deep P v v') (hrest : Keeps deep P (.mapping rest) (.mapping rest')) :
    Keeps deep P (.mapping ((key, v) :: rest)) (.mapping ((key, v') :: rest')) := by
  refine ⟨rfl, fun hall => ?_⟩
  obtain ⟨hfirst, htail⟩ := List.forall_mem_cons.mp (refers_mapping.mp hall)
  exact refers_mapping.mpr (List.forall_mem_cons.mpr
    ⟨h.refersAt hfirst, refers_mapping.mp (hrest.refers (refers_mapping.mpr htail))⟩)

theorem Keeps.cons_item {rest rest' : List Value} (h : Keeps deep P v v')
    (hrest : Keeps deep P (.list rest) (.list rest')) : Keeps deep P (.list (v :: rest)) (.list (v' :: rest')) := by
  refine ⟨rfl, fun hall => ?_⟩
  obtain ⟨hfirst, htail⟩ := List.forall_mem_cons.mp (refers_list.mp hall)
  exact refers_list.mpr (List.forall_mem_cons.mpr
    ⟨h.refers hfirst, refers_list.mp (hrest.refers (refers_list.mpr htail))⟩)

theorem Keeps.trans {v'' : Value} (h : Keeps deep P v v') (h' : Keeps deep P v' v'') : Keeps deep P v v'' :=
  ⟨h'.text.trans h.text, fun hv => h'.refers (h.refers hv)⟩

end Keeps

/-- The pass adds no reference. -/
def Pass.KeepsReferences (pass : Pass) : Prop := ∀ deep P v, Keeps deep P v (pass v)

section KeepsReferences

variable {deep : Bool} {P : String → Prop} {pass : Pass}

mutual

theorem keeps_rewriteSchema (h : pass.KeepsReferences) (v : Value) : Keeps deep P v (rewriteSchema pass v) := by
  cases v with
  | mapping entries =>
    rw [rewriteSchema]
    exact (keeps_rewriteKeywords h entries).trans (h deep P _)
  | list | scalar | set =>
    rw [rewriteSchema]
    exact h deep P _
termination_by sizeOf v

theorem keeps_rewriteKeywords (h : pass.KeepsReferences) (entries : List (Scalar × Value)) :
    Keeps deep P (.mapping entries) (.mapping (rewriteKeywords pass entries)) := by
  match entries with
  | [] =>
    rw [rewriteKeywords]
    exact .refl _
  | (key, v) :: rest =>
    have hv : Keeps deep P v (rewriteSchema pass v) := keeps_rewriteSchema h v
    rw [rewriteKeywords_cons]
    refine .cons ?_ (keeps_rewriteKeywords h rest)
    cases Holds.ofKey key with
    | schema => exact hv
    | list =>
      cases v with
      | list items => exact keeps_rewriteSchemas h items
      | _ => exact .refl _
    | named =>
      cases v with
      | mapping entries => exact keeps_rewriteNamed h entries
      | _ => exact .refl _
    | schemaOrFlag =>
      simp only
      split
      · exact .refl v
      · exact hv
    | nothing => exact .refl v
termination_by sizeOf entries

theorem keeps_rewriteSchemas (h : pass.KeepsReferences) (items : List Value) :
    Keeps deep P (.list items) (.list (rewriteSchemas pass items)) := by
  match items with
  | [] =>
    rw [rewriteSchemas]
    exact .refl _
  | v :: rest =>
    rw [rewriteSchemas]
    exact .cons_item (keeps_rewriteSchema h v) (keeps_rewriteSchemas h rest)
termination_by sizeOf items

theorem keeps_rewriteNamed (h : pass.KeepsReferences) (entries : List (Scalar × Value)) :
    Keeps deep P (.mapping entries) (.mapping (rewriteNamed pass entries)) := by
  match entries with
  | [] =>
    rw [rewriteNamed]
    exact .refl _
  | (name, v) :: rest =>
    rw [rewriteNamed]
    exact .cons (keeps_rewriteSchema h v) (keeps_rewriteNamed h rest)
termination_by sizeOf entries

end

mutual

theorem keeps_rewritePart (h : pass.KeepsReferences) (v : Value) {v' : Value}
    (hv : rewritePart pass v = .ok v') : Keeps deep P v v' := by
  cases v with
  | mapping entries =>
    rw [rewritePart, bind_eq_ok] at hv
    obtain ⟨entries', he, hv⟩ := hv
    rw [pure_eq_ok.mp hv]
    exact keeps_rewriteParts h entries he
  | list items =>
    rw [rewritePart, bind_eq_ok] at hv
    obtain ⟨items', hi, hv⟩ := hv
    rw [pure_eq_ok.mp hv]
    exact keeps_rewriteItems h items hi
  | scalar | set =>
    rw [rewritePart] at hv
    cases hv
    exact .refl _
termination_by sizeOf v

theorem keeps_rewriteParts (h : pass.KeepsReferences) (entries : List (Scalar × Value))
    {entries' : List (Scalar × Value)} (he : rewriteParts pass entries = .ok entries') :
    Keeps deep P (.mapping entries) (.mapping entries') := by
  match entries with
  | [] =>
    rw [rewriteParts] at he
    cases he
    exact .refl _
  | (key, v) :: rest =>
    obtain ⟨isOpaque, v', rest', -, hv, hr, rfl⟩ := rewriteParts_cons_eq_ok he
    refine .cons ?_ (keeps_rewriteParts h rest hr)
    split at hv
    · cases hv
      exact .refl v
    · split at hv
      · cases hv
        exact keeps_rewriteSchema h v
      · exact keeps_rewritePart h v hv
termination_by sizeOf entries

theorem keeps_rewriteItems (h : pass.KeepsReferences) (items : List Value) {items' : List Value}
    (hi : rewriteItems pass items = .ok items') : Keeps deep P (.list items) (.list items') := by
  match items with
  | [] =>
    rw [rewriteItems] at hi
    cases hi
    exact .refl _
  | v :: rest =>
    obtain ⟨v', rest', hv, hr, rfl⟩ := rewriteItems_cons_eq_ok hi
    exact .cons_item (keeps_rewritePart h v hv) (keeps_rewriteItems h rest hr)
termination_by sizeOf items

end

theorem keeps_rewriteFamily (h : pass.KeepsReferences) {family : Scalar} {v v' : Value}
    (hv : rewriteFamily pass family v = .ok v') : Keeps deep P v v' := by
  rcases family_cases family v with ⟨schemas, rfl, rfl⟩ | hpart
  · rw [rewriteFamily] at hv
    cases hv
    exact keeps_rewriteNamed h schemas
  · rw [rewriteFamily_of_part hpart] at hv
    exact keeps_rewritePart h v hv

theorem keeps_rewriteComponents (h : pass.KeepsReferences) {families families' : Entries}
    (hf : rewriteComponents pass families = .ok families') :
    Keeps deep P (.mapping families) (.mapping families') := by
  induction families generalizing families' with
  | nil =>
    rw [rewriteComponents] at hf
    cases hf
    exact .refl _
  | cons e rest ih =>
    obtain ⟨v', rest', hv, hr, rfl⟩ := rewriteComponents_cons_eq_ok hf
    exact .cons (keeps_rewriteFamily h hv) (ih hr)

theorem keeps_rewriteSection (h : pass.KeepsReferences) {key : Scalar} {v v' : Value}
    (hv : rewriteSection pass key v = .ok v') : Keeps deep P v v' := by
  rcases section_cases key v with ⟨families, rfl, rfl⟩ | ⟨schemas, rfl, rfl⟩ | hpart
  · obtain ⟨families', hf, rfl⟩ := map_eq_ok.mp hv
    exact keeps_rewriteComponents h hf
  · rw [rewriteSection] at hv
    cases hv
    exact keeps_rewriteNamed h schemas
  · rw [rewriteSection_of_part hpart] at hv
    exact keeps_rewritePart h v hv

theorem keeps_rewriteDocument (h : pass.KeepsReferences) {document document' : Entries}
    (hd : rewriteDocument pass document = .ok document') : Keeps deep P (.mapping document) (.mapping document') := by
  induction document generalizing document' with
  | nil =>
    rw [rewriteDocument] at hd
    cases hd
    exact .refl _
  | cons e rest ih =>
    obtain ⟨v', rest', hv, hr, rfl⟩ := rewriteDocument_cons_eq_ok hd
    exact .cons (keeps_rewriteSection h hv) (ih hr)

end KeepsReferences

/-! ### The three passes -/

theorem refers_object_nil {deep : Bool} {P : String → Prop} : Refers deep P (.mapping []) :=
  refers_mapping.mpr (List.forall_mem_nil _)

theorem expandFlag_keeps : expandFlag.KeepsReferences := by
  intro deep P v
  unfold expandFlag
  split
  · exact ⟨rfl, fun _ => refers_object_nil⟩
  · refine ⟨rfl, fun _ => ?_⟩
    have hnone : referencesIn deep neverSchema = [] := by cases deep <;> decide
    rw [Refers, hnone]
    exact List.forall_mem_nil _
  · exact .refl v

theorem refers_foldl_erase {deep : Bool} {P : String → Prop} {entries : Entries} (keys : List String)
    (h : Refers deep P (.mapping entries)) : Refers deep P (.mapping (keys.foldl Entries.erase entries)) := by
  induction keys generalizing entries with
  | nil => exact h
  | cons key keys ih => exact ih (h.erase key)

theorem text?_orNull (schema : Entries) : (orNull schema).text? = none := by
  unfold orNull
  split
  · split <;> rfl
  · split <;> rfl
  · rfl

theorem refers_orNull {deep : Bool} {P : String → Prop} {schema : Entries} (h : Refers deep P (.mapping schema)) :
    Refers deep P (orNull schema) := by
  have htype : Scalar.text "type" ≠ referenceKey := by decide
  unfold orNull
  split
  · split
    · exact h
    · refine h.put htype (refers_list.mpr (List.forall_mem_cons.mpr ⟨refers_scalar _, ?_⟩))
      exact List.forall_mem_singleton.mpr (refers_scalar _)
  · rename_i declared hdeclared
    split
    · exact h
    · refine h.put htype (refers_list.mpr (List.forall_mem_append.mpr ⟨?_, ?_⟩))
      · exact refers_list.mp (refers_of_get? h (by decide) hdeclared)
      · exact List.forall_mem_singleton.mpr (refers_scalar _)
  · have hanyOf : Scalar.text "anyOf" ≠ referenceKey := by decide
    have hnull : referencesIn deep nullSchema = [] := by cases deep <;> decide
    refine refers_mapping.mpr (List.forall_mem_singleton.mpr (refersAt_of_ne hanyOf
      (refers_list.mpr (List.forall_mem_cons.mpr ⟨h, List.forall_mem_singleton.mpr ?_⟩))))
    rw [Refers, hnull]
    exact List.forall_mem_nil _

theorem foldNullable_keeps : foldNullable.KeepsReferences := by
  intro deep P v
  unfold foldNullable
  split
  · simp only
    split
    · exact ⟨text?_orNull _, fun h => refers_orNull (refers_foldl_erase nullableKeys h)⟩
    · exact ⟨rfl, refers_foldl_erase nullableKeys⟩
  · exact .refl _

theorem foldConst_keeps : foldConst.KeepsReferences := by
  intro deep P v
  have henum : Scalar.text "enum" ≠ referenceKey := by decide
  have htype : Scalar.text "type" ≠ referenceKey := by decide
  unfold foldConst
  split
  · split
    · exact .refl _
    · rename_i constant hconstant
      refine ⟨rfl, fun h => ?_⟩
      have hone := refers_list.mpr (List.forall_mem_singleton.mpr (refers_of_get? h (by decide) hconstant))
      refine Refers.putNew ?_ htype (refers_scalar _)
      have hbare := h.erase "const"
      split
      · split
        · exact hbare.put henum hone
        · exact hbare
      · exact hbare.put henum hone
  · exact .refl _

/-- **A document refers to nothing new after the passes.** -/
theorem keeps_runPasses {deep : Bool} {P : String → Prop} {data data' : Entries} (h : runPasses data = .ok data') :
    Keeps deep P (.mapping data) (.mapping data') := by
  obtain ⟨expanded, folded, hexpanded, hfolded, hnarrowed⟩ := runPasses_eq_ok h
  exact ((keeps_rewriteDocument expandFlag_keeps hexpanded).trans
    (keeps_rewriteDocument foldNullable_keeps hfolded)).trans
    (keeps_rewriteDocument foldConst_keeps hnarrowed)

end ContractSync.Contract
