import ContractSync.Proofs.Contract.Normal
import ContractSync.Schema.Resolve

/-!
# Nullable schemas

A nullable flag is folded into a schema before its type is resolved: into the declared type, or where none is
declared into an alternative. It is read back from either form. **A schema with a flag has the type of the
schema without it, or nothing** (`resolve_nullable`): with a declared type `null` is declared as well, and
what else the type is resolved from stays (`ofNode_replace_type`); the alternative to `null` is one further
level (`resolve_orNull`). A flag that is anything but true counts for nothing.
-/

namespace ContractSync.Contract

open ContractSync.Document

variable {pass : Pass} {entries : Entries} {key : String} {v : Value}

/-! ### Keywords that hold no schemas -/

/-- A schema after all passes. -/
def normalizeSchema (schema : Value) : Value := passes.foldl (fun v pass => rewriteSchema pass v) schema

theorem get?_rewriteKeywords (h : Holds.ofKey (.text key) = .nothing) :
    Entries.get? (rewriteKeywords pass entries) key = Entries.get? entries key := by
  induction entries with
  | nil => rw [rewriteKeywords]
  | cons e rest ih =>
    obtain ⟨k, v⟩ := e
    rw [rewriteKeywords_cons, Entries.get?_cons, Entries.get?_cons]
    by_cases hk : k = .text key
    · rw [if_pos hk, if_pos hk, hk, h]
    · rw [if_neg hk, if_neg hk, ih]

theorem get_rewriteKeywords (h : Holds.ofKey (.text key) = .nothing) :
    Entries.get (rewriteKeywords pass entries) key = Entries.get entries key :=
  Entries.get_congr (get?_rewriteKeywords h)

theorem rewriteKeywords_erase : rewriteKeywords pass (Entries.erase entries key) =
    Entries.erase (rewriteKeywords pass entries) key := by
  induction entries with
  | nil => simp [Entries.erase, rewriteKeywords]
  | cons e rest ih =>
    obtain ⟨k, v⟩ := e
    rw [rewriteKeywords_cons]
    by_cases hk : k = .text key
    · rw [Entries.erase, List.filter_cons_of_neg (by simp [hk]), Entries.erase,
        List.filter_cons_of_neg (by simp [hk])]
      exact ih
    · rw [Entries.erase, List.filter_cons_of_pos (by simp [hk]), Entries.erase,
        List.filter_cons_of_pos (by simp [hk]), rewriteKeywords_cons]
      exact congrArg _ ih

theorem rewriteKeywords_replace (h : Holds.ofKey (.text key) = .nothing) :
    rewriteKeywords pass (Entries.replace entries key v) =
      Entries.replace (rewriteKeywords pass entries) key v := by
  induction entries with
  | nil => simp [Entries.replace, rewriteKeywords]
  | cons e rest ih =>
    obtain ⟨k, w⟩ := e
    rw [rewriteKeywords_cons, Entries.replace_cons, Entries.replace_cons, ← ih]
    by_cases hk : k = .text key
    · rw [if_pos (by simp [hk]), if_pos (by simp [hk]), rewriteKeywords_cons, hk, h]
    · rw [if_neg (by simpa using hk), if_neg (by simpa using hk), rewriteKeywords_cons]

/-! ### Folding the flags -/

/-- The schema with its nullable flags removed. -/
def withoutFlags (schema : Entries) : Entries := nullableKeys.foldl Entries.erase schema

/-- A nullable flag of the schema is true. -/
def isFlagged (schema : Entries) : Bool := nullableKeys.any fun key => (Entries.get schema key).isTrue

/-- The entries of a schema before its flags are folded. -/
def unfolded (schema : Entries) : Entries := rewriteKeywords foldNullable (rewriteKeywords expandFlag schema)

theorem get_unfolded (h : Holds.ofKey (.text key) = .nothing) :
    Entries.get (unfolded entries) key = Entries.get entries key := by
  rw [unfolded, get_rewriteKeywords h, get_rewriteKeywords h]

theorem unfolded_erase : unfolded (Entries.erase entries key) = Entries.erase (unfolded entries) key := by
  rw [unfolded, unfolded, rewriteKeywords_erase, rewriteKeywords_erase]

theorem unfolded_withoutFlags (schema : Entries) : unfolded (withoutFlags schema) = withoutFlags (unfolded schema) := by
  have hkeys : ∀ (keys : List String) (schema : Entries),
      unfolded (keys.foldl Entries.erase schema) = keys.foldl Entries.erase (unfolded schema) := by
    intro keys
    induction keys with
    | nil => exact fun _ => rfl
    | cons key rest ih =>
      intro schema
      rw [List.foldl_cons, ih, unfolded_erase, List.foldl_cons]
  exact hkeys nullableKeys schema

theorem holds_of_mem_nullableKeys : ∀ key ∈ nullableKeys, Holds.ofKey (.text key) = .nothing := by decide

theorem isFlagged_congr {schema other : Entries}
    (h : ∀ key ∈ nullableKeys, (Entries.get schema key).isTrue = (Entries.get other key).isTrue) :
    isFlagged schema = isFlagged other := by
  rw [isFlagged, isFlagged, Bool.eq_iff_iff, List.any_eq_true, List.any_eq_true]
  refine exists_congr fun key => and_congr_right fun hkey => ?_
  rw [h key hkey]

theorem isFlagged_unfolded (schema : Entries) : isFlagged (unfolded schema) = isFlagged schema :=
  isFlagged_congr fun key hkey => by rw [get_unfolded (holds_of_mem_nullableKeys key hkey)]

theorem isFlagged_withoutFlags (schema : Entries) : isFlagged (withoutFlags schema) = false := by
  rw [isFlagged, List.any_eq_false]
  intro key hkey
  rw [withoutFlags, Entries.get_of_not_has (not_has_foldl_erase key hkey)]
  exact Bool.false_ne_true

theorem withoutFlags_withoutFlags (schema : Entries) : withoutFlags (withoutFlags schema) = withoutFlags schema :=
  foldl_erase_eq_self not_has_foldl_erase

theorem get_withoutFlags (h : key ∉ nullableKeys) : Entries.get (withoutFlags entries) key = Entries.get entries key := by
  have hkeys : ∀ (keys : List String) (entries : Entries), key ∉ keys →
      Entries.get? (keys.foldl Entries.erase entries) key = Entries.get? entries key := by
    intro keys
    induction keys with
    | nil => exact fun _ _ => rfl
    | cons k rest ih =>
      intro entries hnot
      rw [List.mem_cons, not_or] at hnot
      rw [List.foldl_cons, ih _ hnot.2, Entries.get?_erase_of_ne (Ne.symm hnot.1)]
  exact Entries.get_congr (hkeys nullableKeys entries h)

/-- A schema after all passes, in terms of its flags. -/
theorem normalizeSchema_mapping (schema : Entries) : normalizeSchema (.mapping schema) =
    rewriteSchema foldConst (if isFlagged schema then orNull (withoutFlags (unfolded schema))
      else .mapping (withoutFlags (unfolded schema))) := by
  rw [← isFlagged_unfolded]
  simp only [normalizeSchema, passes, List.foldl_cons, List.foldl_nil, rewriteSchema]
  rfl

/-- Without flags nothing is folded. -/
theorem normalizeSchema_withoutFlags (schema : Entries) : normalizeSchema (.mapping (withoutFlags schema)) =
    rewriteSchema foldConst (.mapping (withoutFlags (unfolded schema))) := by
  rw [normalizeSchema_mapping, isFlagged_withoutFlags, if_neg Bool.false_ne_true, unfolded_withoutFlags,
    withoutFlags_withoutFlags]

/-- **A flag that is anything but true counts for nothing.** -/
theorem normalizeSchema_erase {schema : Entries} (hkey : key ∈ nullableKeys)
    (hflag : (Entries.get schema key).isTrue = false) :
    normalizeSchema (.mapping (Entries.erase schema key)) = normalizeSchema (.mapping schema) := by
  have hflagged : isFlagged (Entries.erase schema key) = isFlagged schema := by
    refine isFlagged_congr fun other _ => ?_
    by_cases hother : key = other
    · subst hother
      rw [hflag, Entries.get_of_not_has Entries.has_erase_self]
      rfl
    · rw [Entries.get_congr (Entries.get?_erase_of_ne hother)]
  have herase : ∀ entries : Entries, withoutFlags (Entries.erase entries key) = withoutFlags entries := by
    intro entries
    simp only [nullableKeys, List.mem_cons, List.not_mem_nil, or_false] at hkey
    simp only [withoutFlags, nullableKeys, List.foldl_cons, List.foldl_nil, Entries.erase, List.filter_filter]
    refine List.filter_congr fun e _ => ?_
    rcases hkey with rfl | rfl
    · rw [Bool.and_self]
    · rw [Bool.and_left_comm, Bool.and_self, Bool.and_comm]
  rw [normalizeSchema_mapping, normalizeSchema_mapping, hflagged, unfolded_erase, herase]

/-! ### Folding a constant -/

/-- What folding a constant does to a schema with a declared type: nothing, or it takes the constant out, or
puts it in the place of the enumeration. -/
inductive FoldsBy : (Entries → Entries) → Prop
  | nothing : FoldsBy id
  | removed : FoldsBy fun entries => Entries.erase entries "const"
  | narrowed (values : Value) : FoldsBy fun entries => Entries.put (Entries.erase entries "const") "enum" values

theorem FoldsBy.get? {change : Entries → Entries} (h : FoldsBy change) (hkey : key ∉ ["const", "enum"])
    (entries : Entries) : Entries.get? (change entries) key = Entries.get? entries key := by
  simp only [List.mem_cons, List.not_mem_nil, or_false, not_or] at hkey
  cases h with
  | nothing => rfl
  | removed => exact Entries.get?_erase_of_ne (Ne.symm hkey.1)
  | narrowed => rw [Entries.get?_put_of_ne (Ne.symm hkey.2), Entries.get?_erase_of_ne (Ne.symm hkey.1)]

theorem FoldsBy.replace {change : Entries → Entries} (h : FoldsBy change) (entries : Entries) (v : Value) :
    change (Entries.replace entries "type" v) = Entries.replace (change entries) "type" v := by
  cases h with
  | nothing => rfl
  | removed => exact Entries.erase_replace
  | narrowed values =>
    exact (congrArg (Entries.put · "enum" values) Entries.erase_replace).trans
      (Entries.put_replace_of_ne (by decide))

/-- Where a type is declared, only the constant and the enumeration count. -/
theorem exists_foldsBy (schema : Entries) :
    ∃ change, FoldsBy change ∧ ∀ entries, Entries.get? entries "const" = Entries.get? schema "const" →
      Entries.get? entries "enum" = Entries.get? schema "enum" → Entries.has entries "type" = true →
        foldConst (.mapping entries) = .mapping (change entries) := by
  cases hconst : Entries.get? schema "const" with
  | none =>
    refine ⟨id, .nothing, fun entries hsame _ _ => ?_⟩
    simp only [foldConst, hsame, id]
  | some constant =>
    have hsome : ∀ {change : Entries → Entries}, FoldsBy change → ∀ {entries : Entries},
        Entries.has entries "type" = true →
          Entries.putNew (change entries) "type" (.text (literalType constant)) = change entries := by
      intro change h entries hhas
      rw [Entries.putNew, Entries.has, h.get? (by decide), ← Entries.has, hhas, if_pos rfl]
    have henum : ∀ {entries : Entries}, Entries.get? entries "enum" = Entries.get? schema "enum" →
        Entries.get? (Entries.erase entries "const") "enum" = Entries.get? schema "enum" := by
      intro entries h
      rw [Entries.get?_erase_of_ne (by decide), h]
    by_cases hstays : ∃ existing, Entries.get? schema "enum" = some (.list existing) ∧
        allows existing constant = false
    · obtain ⟨existing, hlist, hallows⟩ := hstays
      refine ⟨_, .removed, fun entries hsame hsame' hhas => ?_⟩
      simp only [foldConst, hsame, henum hsame', hlist, hallows, Bool.false_eq_true, if_false,
        hsome .removed hhas]
    · refine ⟨_, .narrowed (.list [constant]), fun entries hsame hsame' hhas => ?_⟩
      simp only [foldConst, hsame, henum hsame']
      have hput := hsome (.narrowed (.list [constant])) hhas
      split
      · rename_i existing hlist
        have hallows : allows existing constant = true := by
          rw [← Bool.not_eq_false]
          exact fun h => hstays ⟨existing, hlist, h⟩
        rw [if_pos hallows]
        exact congrArg Value.mapping hput
      · exact congrArg Value.mapping hput

/-- **Folding constants takes no notice of which type is declared.** -/
theorem rewriteSchema_foldConst_replace {schema : Entries} (htype : Entries.has schema "type" = true) :
    ∃ folded, rewriteSchema foldConst (.mapping schema) = .mapping folded ∧
      (∀ key ∈ ["type", "$ref", "$dynamicRef"], Entries.get? folded key = Entries.get? schema key) ∧
      ∀ v, rewriteSchema foldConst (.mapping (Entries.replace schema "type" v)) =
        .mapping (Entries.replace folded "type" v) := by
  have hhas : ∀ {entries : Entries}, Entries.has entries "type" = true →
      Entries.has (rewriteKeywords foldConst entries) "type" = true := by
    intro entries h
    rwa [Entries.has_congr (rewriteKeywords_keys entries)]
  obtain ⟨change, hchange, hfolds⟩ := exists_foldsBy (rewriteKeywords foldConst schema)
  refine ⟨_, hfolds _ rfl rfl (hhas htype), fun key hkey => ?_, fun v => ?_⟩
  · have hkeys : ∀ key ∈ ["type", "$ref", "$dynamicRef"],
        key ∉ ["const", "enum"] ∧ Holds.ofKey (.text key) = .nothing := by decide
    obtain ⟨hnot, hholds⟩ := hkeys key hkey
    rw [hchange.get? hnot, get?_rewriteKeywords hholds]
  · rw [rewriteSchema, rewriteKeywords_replace holds_type, hfolds _ (Entries.get?_replace_of_ne (by decide))
      (Entries.get?_replace_of_ne (by decide)) (by rw [Entries.has_replace]; exact hhas htype), hchange.replace]

theorem eq_of_isNullSchema {v : Value} (h : Schema.isNullSchema v = true) : v = nullSchema := by
  unfold Schema.isNullSchema at h
  split at h
  · rw [Bool.and_eq_true, beq_iff_eq, beq_iff_eq] at h
    rw [h.1, h.2]
    rfl
  · cases h

/-- No constant makes a schema of null out of a schema that declares no type: an enumeration is left as well. -/
theorem isNullSchema_foldConst {schema : Entries} (htype : Entries.get schema "type" ≠ .text "null") :
    Schema.isNullSchema (rewriteSchema foldConst (.mapping schema)) = false := by
  rw [← Bool.not_eq_true]
  intro hnull
  have heq := eq_of_isNullSchema hnull
  rw [rewriteSchema] at heq
  simp only [foldConst] at heq
  split at heq
  · have hget : Entries.get (rewriteKeywords foldConst schema) "type" = Entries.get schema "type" :=
      get_rewriteKeywords holds_type
    rw [Value.mapping.inj heq] at hget
    exact htype hget.symm
  · -- With a constant there is an enumeration.
    have hentries := congrArg (Entries.get? · "enum") (Value.mapping.inj heq)
    simp only [Entries.get?_putNew_of_ne (show "type" ≠ "enum" by decide)] at hentries
    split at hentries
    · split at hentries
      · rw [Entries.get?_put_self] at hentries
        cases hentries
      · rename_i henum _
        rw [henum] at hentries
        cases hentries
    · rw [Entries.get?_put_self] at hentries
      cases hentries

end ContractSync.Contract

namespace ContractSync.Schema

open ContractSync.Contract
open ContractSync.Document

variable {doc : Canonical} {inner next : Resolver} {schema : Entries} {v : Value}

/-! ### Declaring null as well -/

theorem orNothing_orNothingIf (nullable : Bool) (type : DataType) :
    (type.orNothingIf nullable).orNothing = type.orNothing := by
  cases nullable with
  | false => rfl
  | true => cases type <;> rfl

theorem orNothingIf_or_true (nullable : Bool) (type : DataType) :
    type.orNothingIf (nullable || true) = (type.orNothingIf nullable).orNothing := by
  rw [orNothing_orNothingIf, Bool.or_true]
  rfl

/-- A string together with null. -/
theorem ofValue_pair {declared : String} (h : declared ≠ "null") :
    Declared.ofValue (.list [.text declared, .text "null"]) = (Declared.ofValue (.text declared)).allowNull true := by
  have hne : ¬ Value.text declared = .text "null" := by simpa using h
  simp [Declared.ofValue, Declared.ofItems, Declared.allowNull, hne]

theorem ofItems_concat_null (items : List Value) :
    Declared.ofItems (items ++ [.text "null"]) = Declared.ofItems items := by
  induction items with
  | nil => simp [Declared.ofItems]
  | cons item rest ih => rw [List.cons_append, Declared.ofItems, ih, Declared.ofItems]

/-- A list with null at its end, or where it stands already. -/
theorem ofValue_concat (items : List Value) :
    Declared.ofValue (.list (items ++ [.text "null"])) = (Declared.ofValue (.list items)).allowNull true := by
  rw [Declared.ofValue, Declared.ofValue, ofItems_concat_null]
  split
  · rename_i declared _
    cases declared <;> simp [Declared.allowNull]
  · simp [Declared.allowNull]

theorem ofValue_of_contains {items : List Value} (h : items.contains (.text "null") = true) :
    Declared.ofValue (.list items) = (Declared.ofValue (.list items)).allowNull true := by
  rw [Declared.ofValue, h]
  split
  · rename_i declared _
    cases declared <;> simp [Declared.allowNull]
  · rfl

section ReplaceType

theorem get_replace_type {key : String} (h : "type" ≠ key) :
    Entries.get (Entries.replace schema "type" v) key = Entries.get schema key :=
  Entries.get_replace_of_ne h

theorem items?_replace_type {key : String} (h : "type" ≠ key) :
    items? (Entries.replace schema "type" v) key = items? schema key := by
  unfold items?
  rw [get_replace_type h]

theorem ofAlternatives_replace_type (alternatives : List Value) :
    ofAlternatives doc inner next (Entries.replace schema "type" v) alternatives =
      ofAlternatives doc inner next schema alternatives := by
  unfold ofAlternatives
  rw [get_replace_type (by decide)]

theorem ofObject_replace_type : ofObject inner (Entries.replace schema "type" v) = ofObject inner schema := by
  unfold ofObject
  rw [get_replace_type (by decide), get_replace_type (by decide)]

theorem ofDeclared_replace_type (declared : Value) :
    ofDeclared inner (Entries.replace schema "type" v) declared = ofDeclared inner schema declared := by
  have henum : isStringEnum (Entries.replace schema "type" v) = isStringEnum schema := by
    unfold isStringEnum
    rw [get_replace_type (by decide)]
  unfold ofDeclared
  rw [henum, ofObject_replace_type, Entries.has_replace, get_replace_type (by decide : "type" ≠ "items"),
    get_replace_type (by decide : "type" ≠ "format")]

/-- The declared type is read nowhere but in its place. -/
theorem ofKeywords_replace_type (declared : Value) :
    ofKeywords doc inner next (Entries.replace schema "type" v) declared =
      ofKeywords doc inner next schema declared := by
  have halternatives : ofAlternatives doc inner next (Entries.replace schema "type" v) =
      ofAlternatives doc inner next schema := funext ofAlternatives_replace_type
  unfold ofKeywords
  rw [items?_replace_type (by decide : "type" ≠ "oneOf"), items?_replace_type (by decide : "type" ≠ "anyOf"),
    items?_replace_type (by decide : "type" ≠ "allOf"), ofDeclared_replace_type, halternatives]

end ReplaceType

/-- The schema refers to another one. -/
def IsReference (schema : Entries) : Prop :=
  ∃ key ∈ ["$ref", "$dynamicRef"], ∃ ref, Entries.get schema key = .text ref

theorem ofNode_mapping (h : ¬ IsReference schema) : ofNode doc inner next (.mapping schema) =
    match Declared.ofValue (Entries.get schema "type") with
    | .one declared nullable => do return (← ofKeywords doc inner next schema declared).orNothingIf nullable
    | .several nullable => return DataType.dynamic.orNothingIf nullable := by
  rw [ofNode]
  split
  · rename_i ref href
    exact absurd ⟨"$ref", by decide, ref, href⟩ h
  · rename_i ref href _
    exact absurd ⟨"$dynamicRef", by decide, ref, href⟩ h
  · rfl

/-- **Where null is declared as well and all else is the same, the type is what it was, or nothing.** -/
theorem ofNode_allowNull {schema' : Entries} (href : ¬ IsReference schema) (href' : ¬ IsReference schema')
    (hkeywords : ∀ declared, ofKeywords doc inner next schema' declared = ofKeywords doc inner next schema declared)
    (hdeclared : Declared.ofValue (Entries.get schema' "type") =
      (Declared.ofValue (Entries.get schema "type")).allowNull true) :
    ofNode doc inner next (.mapping schema') = DataType.orNothing <$> ofNode doc inner next (.mapping schema) := by
  rw [ofNode_mapping href, ofNode_mapping href', hdeclared]
  cases Declared.ofValue (Entries.get schema "type") with
  | one declared nullable =>
    simp only [Declared.allowNull, hkeywords, orNothingIf_or_true, map_bind, map_pure]
  | several nullable =>
    simp only [Declared.allowNull, orNothingIf_or_true, map_pure]

theorem IsReference.congr {schema' : Entries}
    (h : ∀ key ∈ ["$ref", "$dynamicRef"], Entries.get schema' key = Entries.get schema key)
    (href : IsReference schema') : IsReference schema := by
  obtain ⟨key, hkey, ref, hget⟩ := href
  exact ⟨key, hkey, ref, by rw [← h key hkey, hget]⟩

theorem ofNode_replace_type (href : ¬ IsReference schema) (htype : Entries.has schema "type" = true)
    (hdeclared : Declared.ofValue v = (Declared.ofValue (Entries.get schema "type")).allowNull true) :
    ofNode doc inner next (.mapping (Entries.replace schema "type" v)) =
      DataType.orNothing <$> ofNode doc inner next (.mapping schema) := by
  have hkeys : ∀ key ∈ ["$ref", "$dynamicRef"], "type" ≠ key := by decide
  have href' : ¬ IsReference (Entries.replace schema "type" v) := fun h =>
    href (h.congr fun key hkey => get_replace_type (hkeys key hkey))
  refine ofNode_allowNull href href' ofKeywords_replace_type ?_
  rw [Entries.get_of_get? (Entries.get?_replace_self htype)]
  exact hdeclared

/-! ### An alternative to null -/

theorem resolve_succ (doc : Canonical) (budget : Nat) :
    resolve doc (budget + 1) = ofNode doc (resolve doc budget) (resolve doc (budget - 1)) := by
  cases budget <;> rfl

/-- **An alternative to null is one level further in.** -/
theorem resolve_orNull (budget : Nat) (h : isNullSchema v = false) :
    resolve doc (budget + 1) (.object [("anyOf", .list [v, nullSchema])]) =
      DataType.orNothing <$> resolve doc budget v := by
  have hnull : isNullSchema nullSchema = true := by decide
  have hreference : ¬ IsReference [(.text "anyOf", .list [v, nullSchema])] := by
    rintro ⟨key, hkey, ref, hget⟩
    simp only [List.mem_cons, List.not_mem_nil, or_false] at hkey
    rcases hkey with rfl | rfl <;> cases hget
  have hconcrete : [v, nullSchema].filter (!isNullSchema ·) = [v] := by
    rw [List.filter_cons_of_pos (by rw [h]; rfl), List.filter_cons_of_neg (by rw [hnull]; exact Bool.false_ne_true),
      List.filter_nil]
  rw [resolve_succ]
  show ofNode doc _ _ (.mapping [(.text "anyOf", .list [v, nullSchema])]) = _
  rw [ofNode_mapping hreference]
  have halternatives : items? [(.text "anyOf", .list [v, nullSchema])] "anyOf" = some [v, nullSchema] := rfl
  have hnone : items? [(.text "anyOf", .list [v, nullSchema])] "oneOf" = none := rfl
  have hof : ∀ inner next : Resolver, ofKeywords doc inner next [(.text "anyOf", .list [v, nullSchema])] .null =
      DataType.orNothing <$> inner v := by
    intro inner next
    rw [ofKeywords, hnone, halternatives]
    show ofAlternatives doc inner next _ [v, nullSchema] = _
    rw [ofAlternatives, hconcrete]
    exact bind_pure_comp _ _
  show (do return (← ofKeywords doc _ _ _ .null).orNothingIf false) = _
  rw [hof, bind_pure_comp, Functor.map_map]
  rfl

/-! ### Normal forms -/

/-- The schema declares a type: a string or a list. -/
def declaresType (schema : Entries) : Bool :=
  match Entries.get schema "type" with
  | .scalar (.text _) | .list _ => true
  | _ => false

theorem has_type_of_declaresType (h : declaresType schema = true) : Entries.has schema "type" = true := by
  by_contra hlacks
  rw [declaresType, Entries.get_of_not_has (Bool.eq_false_iff.mpr hlacks)] at h
  cases h

section Declared

variable {declared : String} {items : List Value}

theorem get?_of_get (hv : v ≠ .null) (h : Entries.get schema "type" = v) : Entries.get? schema "type" = some v := by
  cases hget : Entries.get? schema "type" with
  | none => exact absurd (h.symm.trans (Entries.get_of_not_has (by rw [Entries.has, hget]; rfl))) hv
  | some w => rw [← h, Entries.get_of_get? hget]

theorem orNull_of_text (h : Entries.get schema "type" = .text declared) (hnull : declared ≠ "null") :
    orNull schema = .mapping (Entries.replace schema "type" (.list [.text declared, .text "null"])) := by
  have hget := get?_of_get (by simp) h
  rw [orNull, hget]
  show (if declared = "null" then _ else _) = _
  rw [if_neg hnull, Entries.put_of_has (by rw [Entries.has, hget]; rfl)]

theorem orNull_of_list (h : Entries.get schema "type" = .list items) (hnull : items.contains (.text "null") = false) :
    orNull schema = .mapping (Entries.replace schema "type" (.list (items ++ [.text "null"]))) := by
  have hget := get?_of_get (by simp) h
  rw [orNull, hget]
  show (if items.contains (.text "null") = true then _ else _) = _
  rw [hnull, if_neg Bool.false_ne_true, Entries.put_of_has (by rw [Entries.has, hget]; rfl)]

theorem orNull_of_contains (h : Entries.get schema "type" = .list items) (hnull : items.contains (.text "null") = true) :
    orNull schema = .mapping schema := by
  rw [orNull, get?_of_get (by simp) h]
  show (if items.contains (.text "null") = true then _ else _) = _
  rw [if_pos hnull]

theorem orNull_of_undeclared (h : declaresType schema = false) :
    orNull schema = .object [("anyOf", .list [.mapping schema, nullSchema])] := by
  unfold orNull
  split
  · rename_i declared hget
    rw [declaresType, Entries.get_of_get? hget] at h
    cases h
  · rename_i items hget
    rw [declaresType, Entries.get_of_get? hget] at h
    cases h
  · rfl

end Declared

/-- **The alternative to null, in whichever form, is resolved to the type of the schema, or nothing.** -/
theorem resolve_foldConst_orNull {budget : Nat} (hreference : declaresType schema = true → ¬ IsReference schema)
    (hnull : Entries.get schema "type" ≠ .text "null") :
    resolve doc (budget + 1) (rewriteSchema foldConst (orNull schema)) =
      DataType.orNothing <$> resolve doc (if declaresType schema then budget + 1 else budget)
        (rewriteSchema foldConst (.mapping schema)) := by
  cases hdeclares : declaresType schema with
  | false =>
    rw [orNull_of_undeclared hdeclares, if_neg Bool.false_ne_true, ← resolve_orNull budget (isNullSchema_foldConst hnull)]
    rfl
  | true =>
    -- With a declared type both schemas differ in that place only, before and after folding a constant.
    have hhas := has_type_of_declaresType hdeclares
    obtain ⟨folded, hfolded, hsame, hreplace⟩ := rewriteSchema_foldConst_replace hhas
    have hfoldedRef : ¬ IsReference folded := fun h =>
      hreference hdeclares (h.congr fun key hkey => Entries.get_congr (hsame key (List.mem_cons_of_mem _ hkey)))
    have hfoldedType : Entries.get folded "type" = Entries.get schema "type" := Entries.get_congr (hsame "type" (by decide))
    have hfoldedHas : Entries.has folded "type" = true := by rw [Entries.has, hsame "type" (by decide), ← Entries.has, hhas]
    rw [if_pos rfl, hfolded, resolve_succ]
    have hwritten : ∀ v, Declared.ofValue v = (Declared.ofValue (Entries.get schema "type")).allowNull true →
        ofNode doc (resolve doc budget) (resolve doc (budget - 1))
            (rewriteSchema foldConst (.mapping (Entries.replace schema "type" v))) =
          DataType.orNothing <$> ofNode doc (resolve doc budget) (resolve doc (budget - 1)) (.mapping folded) := by
      intro v hv
      rw [hreplace]
      exact ofNode_replace_type hfoldedRef hfoldedHas (by rw [hfoldedType, hv])
    rw [declaresType] at hdeclares
    split at hdeclares
    · rename_i declared hget
      have hdeclared : declared ≠ "null" := fun h => hnull (by rw [hget, h])
      rw [orNull_of_text hget hdeclared]
      exact hwritten _ (by rw [hget, ofValue_pair hdeclared])
    · rename_i items hget
      cases hcontains : items.contains (.text "null") with
      | false =>
        rw [orNull_of_list hget hcontains]
        exact hwritten _ (by rw [hget, ofValue_concat])
      | true =>
        rw [orNull_of_contains hget hcontains, hfolded]
        refine ofNode_allowNull hfoldedRef hfoldedRef (fun _ => rfl) ?_
        rw [hfoldedType, hget]
        exact ofValue_of_contains hcontains
    · cases hdeclares

/-- **A nullable schema has the type of the schema without its flags, or nothing.** A schema that declares no
type is resolved one level further in. A flag that is anything but true makes no difference. -/
theorem resolve_nullable (doc : Canonical) (schema : Entries) {budget : Nat} (hbudget : 1 ≤ budget) :
    (isFlagged schema = true → (declaresType schema = true → ¬ IsReference schema) →
      Entries.get schema "type" ≠ .text "null" →
        resolve doc budget (normalizeSchema (.mapping schema)) =
          DataType.orNothing <$> resolve doc (if declaresType schema then budget else budget - 1)
            (normalizeSchema (.mapping (withoutFlags schema)))) ∧
      ∀ key ∈ nullableKeys, (Entries.get schema key).isTrue = false →
        resolve doc budget (normalizeSchema (.mapping schema)) =
          resolve doc budget (normalizeSchema (.mapping (Entries.erase schema key))) := by
  refine ⟨fun hflagged hreference hnull => ?_, fun key hkey hflag => by rw [normalizeSchema_erase hkey hflag]⟩
  obtain ⟨budget, rfl⟩ := Nat.exists_eq_add_of_le' hbudget
  rw [normalizeSchema_mapping, if_pos hflagged, normalizeSchema_withoutFlags]
  have hsame : ∀ key ∉ nullableKeys, Holds.ofKey (.text key) = .nothing →
      Entries.get (withoutFlags (unfolded schema)) key = Entries.get schema key := by
    intro key hkey hholds
    rw [get_withoutFlags hkey, get_unfolded hholds]
  have htype : Entries.get (withoutFlags (unfolded schema)) "type" = Entries.get schema "type" :=
    hsame "type" (by decide) holds_type
  have hdeclares : declaresType (withoutFlags (unfolded schema)) = declaresType schema := by
    rw [declaresType, htype, declaresType]
  have hrefer : IsReference (withoutFlags (unfolded schema)) → IsReference schema := by
    have hkeys : ∀ key ∈ ["$ref", "$dynamicRef"], key ∉ nullableKeys ∧ Holds.ofKey (.text key) = .nothing := by decide
    exact IsReference.congr fun key hkey => hsame key (hkeys key hkey).1 (hkeys key hkey).2
  rw [← hdeclares] at hreference ⊢
  rw [← htype] at hnull
  replace hreference := fun h => mt hrefer (hreference h)
  generalize withoutFlags (unfolded schema) = bare at *
  exact resolve_foldConst_orNull hreference hnull

/-- A document without schemas. -/
def bareContract : Canonical := ⟨[], .openApi "3.0.0", none⟩

/-- A constant with two flags; one of them is true. -/
def nullableConstant : Entries :=
  [(.text "const", .text "dog"), (.text "nullable", .bool true), (.text "x-nullable", .text "yes")]

/-- One level further in is the type of the constant. The flag in words makes no difference. -/
theorem resolve_nullable_nullableConstant :
    resolve bareContract 2 (normalizeSchema (.mapping nullableConstant)) = pure (.optional .plainString) ∧
    resolve bareContract 2 (normalizeSchema (.mapping nullableConstant)) =
      resolve bareContract 2 (normalizeSchema (.mapping (Entries.erase nullableConstant "x-nullable"))) := by
  have hschema := resolve_nullable bareContract nullableConstant (show 1 ≤ 2 by decide)
  refine ⟨?_, hschema.2 "x-nullable" (by decide) (by decide)⟩
  exact hschema.1 (by decide) (fun h => absurd h (by decide)) (by decide)

end ContractSync.Schema
