import ContractSync.Proofs.Contract.Schemas
import ContractSync.Proofs.Document.Entries

/-!
# Schemas in normal form

A schema node is in normal form (`IsNormal`) if it is no truth value and has neither a nullable flag
nor a constant. **Every pass leaves a node in normal form as it is** (`pass_eq_self`), and **after the
three passes all schemas of a document are in normal form** (`runPasses_normal`).

Each pass removes one thing and must not bring back what the passes before it removed: `Lacks keys`
is the condition between them, with the keys that are gone so far.

**Normalizing the data of a canonical document succeeds and gives the same data** (`normalize_again`),
whatever the dialect of the document it was made from. The passes have nothing left to do
(`runPasses_again`), and no pass touches the version by which the dialect is recognized.
-/

namespace ContractSync.Contract

open ContractSync.Document

/-- The value is no truth value and has none of the keys. -/
def Lacks (keys : List String) (v : Value) : Prop :=
  isFlag v = false ∧ ∀ key ∈ keys, Entries.has v.entries key = false

/-- The key of a constant. -/
def constKey : String := "const"

/-- A schema node that no pass changes. -/
def IsNormal (v : Value) : Prop := Lacks (constKey :: nullableKeys) v

theorem Lacks.of_subset {keys keys' : List String} {v : Value} (h : Lacks keys v)
    (hsub : keys' ⊆ keys) : Lacks keys' v :=
  ⟨h.1, fun key hkey => h.2 key (hsub hkey)⟩

theorem lacks_of_not_isMapping {keys : List String} {v : Value} (hm : v.isMapping = false)
    (hf : isFlag v = false) : Lacks keys v := by
  refine ⟨hf, fun key _ => ?_⟩
  cases v with
  | mapping entries => cases hm
  | scalar | list | set => rfl

/-! ### What leaves a node as it is -/

theorem expandFlag_eq_self {v : Value} (h : isFlag v = false) : expandFlag v = v := by
  unfold expandFlag
  split
  · cases h
  · cases h
  · rfl

theorem foldl_erase_eq_self {keys : List String} {entries : Entries}
    (h : ∀ key ∈ keys, Entries.has entries key = false) :
    keys.foldl Entries.erase entries = entries := by
  induction keys with
  | nil => rfl
  | cons key rest ih =>
    rw [List.forall_mem_cons] at h
    rw [List.foldl_cons, Entries.erase_of_not_has h.1, ih h.2]

theorem foldNullable_eq_self {v : Value} (h : Lacks nullableKeys v) : foldNullable v = v := by
  cases v with
  | mapping entries =>
    have hlacks : ∀ key ∈ nullableKeys, Entries.has entries key = false := h.2
    have hflag : (nullableKeys.any fun key => (Entries.get entries key).isTrue) = false := by
      rw [List.any_eq_false]
      intro key hkey
      rw [Entries.get_of_not_has (hlacks key hkey)]
      decide
    simp only [foldNullable, hflag, Bool.false_eq_true, if_false, foldl_erase_eq_self hlacks]
  | scalar | list | set => rfl

theorem foldConst_eq_self {v : Value} (h : Lacks [constKey] v) : foldConst v = v := by
  cases v with
  | mapping entries =>
    have hnone := Entries.get?_eq_none_iff.mpr (h.2 constKey (List.mem_singleton.mpr rfl))
    simp only [foldConst, show Entries.get? entries "const" = none from hnone]
  | scalar | list | set => rfl

/-- **Every pass leaves a node in normal form as it is.** -/
theorem pass_eq_self {pass : Pass} (hpass : pass ∈ passes) {v : Value} (h : IsNormal v) :
    pass v = v := by
  simp only [passes, List.mem_cons, List.not_mem_nil, or_false] at hpass
  rcases hpass with rfl | rfl | rfl
  · exact expandFlag_eq_self h.1
  · exact foldNullable_eq_self (h.of_subset (List.subset_cons_self _ _))
  · exact foldConst_eq_self (h.of_subset (by simp))

/-! ### The schemas of a node whose entries change -/

theorem holds_type : Holds.ofKey (.text "type") = .nothing := by decide

theorem holds_enum : Holds.ofKey (.text "enum") = .nothing := by decide

theorem holds_anyOf : Holds.ofKey (.text "anyOf") = .list := by decide

/-- The schemas that a keyword with this value holds. -/
def schemasAt (key : Scalar) (v : Value) : List Value := schemasOfKeywords [(key, v)]

theorem mem_schemasOfKeywords {entries : List (Scalar × Value)} {n : Value} :
    n ∈ schemasOfKeywords entries ↔ ∃ e ∈ entries, n ∈ schemasAt e.1 e.2 := by
  induction entries with
  | nil => simp [schemasOfKeywords]
  | cons e rest ih =>
    have hcons : schemasOfKeywords (e :: rest) = schemasAt e.1 e.2 ++ schemasOfKeywords rest := by
      rw [schemasAt, schemasOfKeywords.eq_def, schemasOfKeywords.eq_def [(e.1, e.2)]]
      simp [schemasOfKeywords]
    rw [hcons, List.mem_append, ih]
    simp only [List.mem_cons, exists_eq_or_imp]

theorem schemasAt_of_nothing {key : Scalar} {v : Value} (h : Holds.ofKey key = .nothing) :
    schemasAt key v = [] := by
  rw [schemasAt, schemasOfKeywords.eq_def]
  simp [h, schemasOfKeywords]

/-- New entries hold no schemas if they are old ones or stand at keys that hold none. -/
theorem forall_schemas_of_subset {P : Value → Prop} {entries entries' : List (Scalar × Value)}
    (h : ∀ n ∈ schemasOfKeywords entries, P n)
    (hsub : ∀ e ∈ entries', e ∈ entries ∨ Holds.ofKey e.1 = .nothing) :
    ∀ n ∈ schemasOfKeywords entries', P n := by
  intro n hn
  obtain ⟨e, he, hn⟩ := mem_schemasOfKeywords.mp hn
  rcases hsub e he with he | hnothing
  · exact h n (mem_schemasOfKeywords.mpr ⟨e, he, hn⟩)
  · rw [schemasAt_of_nothing hnothing] at hn
    cases hn

theorem rewriteKeywords_keys {pass : Pass} (entries : List (Scalar × Value)) :
    (rewriteKeywords pass entries).map (·.1) = entries.map (·.1) := by
  induction entries with
  | nil => rw [rewriteKeywords]
  | cons e rest ih => rw [rewriteKeywords_cons, List.map_cons, List.map_cons, ih]

/-- Rewriting inside a node leaves its keys as they are. -/
theorem Lacks.rewriteKeywords {keys : List String} {pass : Pass} {entries : List (Scalar × Value)}
    (h : Lacks keys (.mapping entries)) :
    Lacks keys (.mapping (rewriteKeywords pass entries)) :=
  ⟨rfl, fun key hkey => (Entries.has_congr (rewriteKeywords_keys entries)).trans (h.2 key hkey)⟩

/-- The schema and all schemas inside it are no truth values and have none of the keys. -/
def AllLack (keys : List String) (v : Value) : Prop := ∀ n ∈ schemasIn v, Lacks keys n

section AllLack

variable {keys : List String} {entries : Entries}

theorem allLack_mapping :
    AllLack keys (.mapping entries) ↔ (∀ key ∈ keys, Entries.has entries key = false) ∧
      ∀ n ∈ schemasOfKeywords entries, Lacks keys n := by
  rw [AllLack, schemasIn, List.forall_mem_cons]
  constructor
  · rintro ⟨hnode, h⟩
    exact ⟨hnode.2, h⟩
  · rintro ⟨hkeys, h⟩
    exact ⟨⟨rfl, hkeys⟩, h⟩

theorem allLack_of_not_isMapping {v : Value} (hm : v.isMapping = false) (hf : isFlag v = false) :
    AllLack keys v := by
  have hv : schemasIn v = [v] := by
    cases v with
    | mapping entries => cases hm
    | scalar | list | set => rw [schemasIn]
  rw [AllLack, hv, List.forall_mem_singleton]
  exact lacks_of_not_isMapping hm hf

theorem AllLack.put (h : AllLack keys (.mapping entries)) {key : String} (hkey : key ∉ keys)
    (hholds : Holds.ofKey (.text key) = .nothing) (v : Value) :
    AllLack keys (.mapping (Entries.put entries key v)) := by
  rw [allLack_mapping] at h ⊢
  refine ⟨fun other hother => ?_, forall_schemas_of_subset h.2 fun e he => ?_⟩
  · exact Entries.not_has_put (fun e => hkey (e ▸ hother)) (h.1 other hother)
  · rcases Entries.mem_of_mem_put he with he | rfl
    · exact .inl he
    · exact .inr hholds

theorem AllLack.putNew (h : AllLack keys (.mapping entries)) {key : String} (hkey : key ∉ keys)
    (hholds : Holds.ofKey (.text key) = .nothing) (v : Value) :
    AllLack keys (.mapping (Entries.putNew entries key v)) := by
  rw [allLack_mapping] at h ⊢
  refine ⟨fun other hother => ?_, forall_schemas_of_subset h.2 fun e he => ?_⟩
  · exact Entries.not_has_putNew (fun e => hkey (e ▸ hother)) (h.1 other hother)
  · rcases Entries.mem_of_mem_putNew he with he | rfl
    · exact .inl he
    · exact .inr hholds

end AllLack

/-! ### Truth values -/

theorem expandFlag_takes : Pass.Takes expandFlag (fun _ => True) (Lacks []) where
  mapping entries _ h := allLack_mapping.mpr ⟨by simp, h⟩
  other v hm _ := by
    by_cases hf : isFlag v = true
    · obtain ⟨b, rfl⟩ := eq_bool_of_isFlag hf
      cases b with
      | true => exact allLack_mapping.mpr (by simp [schemasOfKeywords])
      | false =>
        -- the one keyword of `neverSchema` that could hold a schema holds a truth value
        have hnone : schemasIn neverSchema = [neverSchema] := by decide
        rw [show expandFlag (.scalar (.bool false)) = neverSchema from rfl, hnone]
        simp [Lacks, neverSchema, Value.object, isFlag]
    · rw [Bool.not_eq_true] at hf
      rw [expandFlag_eq_self hf]
      exact allLack_of_not_isMapping hm hf

/-! ### Nullable flags -/

theorem not_has_foldl_erase {keys : List String} {entries : Entries} :
    ∀ key ∈ keys, Entries.has (keys.foldl Entries.erase entries) key = false := by
  have hstays : ∀ (keys : List String) {key : String} {entries : Entries},
      Entries.has entries key = false →
      Entries.has (keys.foldl Entries.erase entries) key = false := by
    intro keys
    induction keys with
    | nil => exact fun h => h
    | cons k rest ih => exact fun h => ih (Entries.not_has_erase h)
  induction keys generalizing entries with
  | nil => simp
  | cons k rest ih =>
    rw [List.forall_mem_cons]
    exact ⟨hstays rest Entries.has_erase_self, ih⟩

theorem mem_of_mem_foldl_erase {keys : List String} {entries : Entries} {e : Scalar × Value}
    (h : e ∈ keys.foldl Entries.erase entries) : e ∈ entries := by
  induction keys generalizing entries with
  | nil => exact h
  | cons k rest ih => exact Entries.mem_of_mem_erase (ih h)

theorem allLack_nullSchema : AllLack nullableKeys nullSchema := by
  have hnone : schemasIn nullSchema = [nullSchema] := by decide
  rw [AllLack, hnone, List.forall_mem_singleton]
  exact ⟨rfl, by decide⟩

/-- Allowing null brings back no flag: neither the new type nor the new alternative is one. -/
theorem orNull_allLack {schema : Entries} (h : AllLack nullableKeys (.mapping schema)) :
    AllLack nullableKeys (orNull schema) := by
  unfold orNull
  split
  · split
    · exact h
    · exact h.put (by decide) holds_type _
  · split
    · exact h
    · exact h.put (by decide) holds_type _
  · refine allLack_mapping.mpr ⟨by simp [nullableKeys, Entries.has, Entries.get?], ?_⟩
    rw [List.map_cons, List.map_nil, schemasOfKeywords.eq_def]
    simp only [holds_anyOf, schemasOfKeywords, schemasOfList, List.append_nil,
      List.forall_mem_append]
    exact ⟨h, allLack_nullSchema⟩

theorem foldNullable_takes : Pass.Takes foldNullable (Lacks []) (Lacks nullableKeys) where
  mapping entries _ h := by
    have hbare : AllLack nullableKeys (.mapping (nullableKeys.foldl Entries.erase
        (rewriteKeywords foldNullable entries))) :=
      allLack_mapping.mpr ⟨not_has_foldl_erase,
        forall_schemas_of_subset h fun e he => .inl (mem_of_mem_foldl_erase he)⟩
    unfold foldNullable
    simp only
    split
    · exact orNull_allLack hbare
    · exact hbare
  other v hm hQ := by
    have hv : foldNullable v = v := by
      cases v with
      | mapping entries => cases hm
      | scalar | list | set => rfl
    rw [hv]
    exact allLack_of_not_isMapping hm hQ.1

/-! ### Constants -/

theorem foldConst_takes : Pass.Takes foldConst (Lacks nullableKeys) IsNormal where
  mapping entries hQ h := by
    have hkeys : ∀ key ∈ nullableKeys,
        Entries.has (rewriteKeywords foldConst entries) key = false := (hQ.rewriteKeywords).2
    unfold foldConst
    simp only
    split
    · rename_i hnone
      refine allLack_mapping.mpr ⟨List.forall_mem_cons.mpr ⟨?_, hkeys⟩, h⟩
      exact Entries.get?_eq_none_iff.mp hnone
    · have hbare : AllLack (constKey :: nullableKeys)
          (.mapping (Entries.erase (rewriteKeywords foldConst entries) constKey)) := by
        refine allLack_mapping.mpr ⟨List.forall_mem_cons.mpr ⟨Entries.has_erase_self, ?_⟩, ?_⟩
        · exact fun key hkey => Entries.not_has_erase (hkeys key hkey)
        · exact forall_schemas_of_subset h fun e he => .inl (Entries.mem_of_mem_erase he)
      refine AllLack.putNew ?_ (by decide) holds_type _
      split
      · split
        · exact hbare.put (by decide) holds_enum _
        · exact hbare
      · exact hbare.put (by decide) holds_enum _
  other v hm hQ := by
    have hv : foldConst v = v := by
      cases v with
      | mapping entries => cases hm
      | scalar | list | set => rfl
    rw [hv]
    exact allLack_of_not_isMapping hm hQ.1

/-! ### The three passes -/

theorem runPasses_eq_ok {data data' : Entries} (h : runPasses data = .ok data') :
    ∃ expanded folded, rewriteDocument expandFlag data = .ok expanded ∧
      rewriteDocument foldNullable expanded = .ok folded ∧
      rewriteDocument foldConst folded = .ok data' := by
  rw [runPasses, passes, List.foldlM_cons, bind_eq_ok] at h
  obtain ⟨expanded, hexpanded, h⟩ := h
  rw [List.foldlM_cons, bind_eq_ok] at h
  obtain ⟨folded, hfolded, h⟩ := h
  rw [List.foldlM_cons, bind_eq_ok] at h
  obtain ⟨narrowed, hnarrowed, h⟩ := h
  cases pure_eq_ok.mp h
  exact ⟨expanded, folded, hexpanded, hfolded, hnarrowed⟩

/-- **After the passes all schemas are in normal form.** -/
theorem runPasses_normal {data data' : Entries} (h : runPasses data = .ok data') :
    ∀ n ∈ schemasOfDocument data', IsNormal n := by
  obtain ⟨expanded, folded, hexpanded, hfolded, hnarrowed⟩ := runPasses_eq_ok h
  have hexp := rewriteDocument_every expandFlag_takes hexpanded fun _ _ => trivial
  exact rewriteDocument_every foldConst_takes hnarrowed
    (rewriteDocument_every foldNullable_takes hfolded hexp)

/-- **The passes change nothing in a document that they have been through.** -/
theorem runPasses_again {data data' : Entries} (h : runPasses data = .ok data') :
    runPasses data' = .ok data' := by
  have hnormal := runPasses_normal h
  obtain ⟨expanded, folded, -, -, hnarrowed⟩ := runPasses_eq_ok h
  have hself : ∀ pass ∈ passes, rewriteDocument pass data' = .ok data' := by
    intro pass hpass
    exact rewriteDocument_again hnarrowed fun n hn => pass_eq_self hpass (hnormal n hn)
  simp only [passes, List.forall_mem_cons] at hself
  obtain ⟨hexpand, hfold, hconst, -⟩ := hself
  simp only [runPasses, passes, List.foldlM_cons, List.foldlM_nil, hexpand, hfold, hconst, bind,
    Except.bind]
  rfl

/-! ### Documents that state a version -/

/-- The document says that it is written in some version of OpenAPI 3. -/
def StatesOpenApi (document : Entries) : Prop :=
  ∃ version, Dialect.detect document = .ok (.openApi version)

/-! ### The version of a document -/

/-- Only a scalar can be read as a version: other values begin with a bracket, or with a word. -/
theorem scalar_of_display_version {v : Value} (h : "3.".toList.isPrefixOf v.display.toList = true) :
    ∃ s, v = .scalar s := by
  cases v with
  | scalar s => exact ⟨s, rfl⟩
  | list items => simp [Value.display, Value.literal] at h
  | mapping entries => simp [Value.display, Value.literal] at h
  | set members =>
    cases members with
    | nil => simp [Value.display, Value.literal] at h
    | cons s rest => simp [Value.display, Value.literal] at h

theorem statesOpenApi_iff {document : Entries} :
    StatesOpenApi document ↔ ∃ s : Scalar, Entries.get? document "openapi" = some (.scalar s) ∧
      "3.".toList.isPrefixOf s.display.toList = true := by
  unfold StatesOpenApi Dialect.detect
  constructor
  · rintro ⟨version, h⟩
    cases ho : Entries.get? document "openapi" with
    | some v =>
      simp only [ho] at h
      split at h
      · rename_i hversion
        obtain ⟨s, rfl⟩ := scalar_of_display_version hversion
        exact ⟨s, rfl, hversion⟩
      · cases h
    | none =>
      -- a document without the key is at best one of the older dialect
      simp only [ho] at h
      split at h
      · split at h
        · cases h
        · cases h
      · cases h
  · rintro ⟨s, hs, hversion⟩
    exact ⟨_, by rw [hs]; exact if_pos hversion⟩

/-- A pass leaves a scalar of the document where it is. -/
theorem get?_rewriteDocument {pass : Pass} {document document' : Entries} {key : String} {s : Scalar}
    (hd : rewriteDocument pass document = .ok document')
    (h : Entries.get? document key = some (.scalar s)) :
    Entries.get? document' key = some (.scalar s) := by
  induction document generalizing document' with
  | nil => cases h
  | cons e rest ih =>
    obtain ⟨k, v⟩ := e
    obtain ⟨v', rest', hv, hr, rfl⟩ := rewriteDocument_cons_eq_ok hd
    rw [Entries.get?_cons] at h ⊢
    by_cases hk : k = .text key
    · rw [if_pos hk] at h ⊢
      cases h
      have hpart : rewriteSection pass k (.scalar s) = .ok (.scalar s) := by
        rw [rewriteSection_of_part fun _ => rfl, rewritePart]
      rw [hpart] at hv
      cases hv
      rfl
    · rw [if_neg hk] at h ⊢
      exact ih hr h

theorem StatesOpenApi.rewriteDocument {pass : Pass} {document document' : Entries}
    (h : StatesOpenApi document) (hd : rewriteDocument pass document = .ok document') :
    StatesOpenApi document' := by
  obtain ⟨s, hs, hversion⟩ := statesOpenApi_iff.mp h
  exact statesOpenApi_iff.mpr ⟨s, get?_rewriteDocument hd hs, hversion⟩

theorem StatesOpenApi.runPasses {data data' : Entries} (h : StatesOpenApi data)
    (hd : runPasses data = .ok data') : StatesOpenApi data' := by
  obtain ⟨expanded, folded, hexpanded, hfolded, hnarrowed⟩ := runPasses_eq_ok hd
  exact ((h.rewriteDocument hexpanded).rewriteDocument hfolded).rewriteDocument hnarrowed

/-- Lifting puts the version of the new layout in front. -/
theorem statesOpenApi_lifted {entries lifted : Entries} (h : Lift.document entries = .ok lifted) :
    StatesOpenApi lifted := by
  have hfront : ∃ rest, lifted = (.text "openapi", .text "3.0.3") :: rest := by
    unfold Lift.document at h
    obtain ⟨p₁, -, h⟩ := bind_eq_ok.mp h
    obtain ⟨p₂, -, h⟩ := bind_eq_ok.mp h
    obtain ⟨p₃, -, h⟩ := bind_eq_ok.mp h
    obtain ⟨p₄, -, h⟩ := bind_eq_ok.mp h
    obtain ⟨addresses, -, h⟩ := bind_eq_ok.mp h
    obtain ⟨paths, -, h⟩ := bind_eq_ok.mp h
    exact ⟨_, pure_eq_ok.mp h⟩
  obtain ⟨rest, rfl⟩ := hfront
  exact statesOpenApi_iff.mpr ⟨.text "3.0.3", Entries.get?_cons.trans (if_pos rfl), by decide⟩

theorem statesOpenApi_toOpenApi {dialect : Dialect} {document lifted : Entries}
    (hd : Dialect.detect document = .ok dialect) (h : toOpenApi dialect document = .ok lifted) :
    StatesOpenApi lifted := by
  cases dialect with
  | swagger => exact statesOpenApi_lifted h
  | openApi version =>
    rw [toOpenApi] at h
    cases h
    exact ⟨version, hd⟩

/-! ### Normalizing again -/

theorem normalize_eq_ok {document : Entries} {c : Canonical} (h : normalize document = .ok c) :
    ∃ dialect lifted, Dialect.detect document = .ok dialect ∧
      toOpenApi dialect document = .ok lifted ∧ runPasses lifted = .ok c.data := by
  unfold normalize at h
  obtain ⟨dialect, hdialect, h⟩ := bind_eq_ok.mp h
  obtain ⟨lifted, hlifted, h⟩ := bind_eq_ok.mp h
  obtain ⟨data, hdata, h⟩ := bind_eq_ok.mp h
  cases pure_eq_ok.mp h
  exact ⟨dialect, lifted, mapError_eq_ok.mp hdialect, mapError_eq_ok.mp hlifted,
    mapError_eq_ok.mp hdata⟩

/-- **Canonical data is its own canonical form.** -/
theorem normalize_again {document : Entries} {c : Canonical} (h : normalize document = .ok c) :
    ∃ again, normalize c.data = .ok again ∧ again.data = c.data := by
  obtain ⟨dialect, lifted, hdialect, hlifted, hdata⟩ := normalize_eq_ok h
  obtain ⟨version, hversion⟩ := (statesOpenApi_toOpenApi hdialect hlifted).runPasses hdata
  refine ⟨⟨c.data, .openApi version, (Entries.get c.data "$self").text?⟩, ?_, rfl⟩
  have hagain := runPasses_again hdata
  simp only [normalize, hversion, toOpenApi, hagain, mapError_ok, bind, Except.bind, pure,
    Except.pure]

/-- A Swagger document with a truth value and a nullable constant, nested. -/
def nestedSample : Entries :=
  [("swagger", .text "2.0"),
   ("definitions", .object [("Sample", .object [("properties", .object [
     ("never", .bool false),
     ("one", .object [("x-nullable", .bool true), ("const", .scalar (.int 1))])])])])]

/-- The canonical form of the document: the constant stands in an alternative to null. -/
def nestedSampleCanonical : Canonical where
  data := [("openapi", .text "3.0.3"),
    ("components", .object [("schemas", .object [("Sample", .object [("properties", .object [
      ("never", neverSchema),
      ("one", .object [("anyOf", .list [
        .object [("enum", .list [.scalar (.int 1)]), ("type", .text "integer")],
        nullSchema])])])])])])]
  dialect := .swagger

theorem normalize_again_nestedSample :
    normalize nestedSample = .ok nestedSampleCanonical ∧
      ∃ again, normalize nestedSampleCanonical.data = .ok again ∧
        again.data = nestedSampleCanonical.data := by
  have h : normalize nestedSample = .ok nestedSampleCanonical := by rfl
  exact ⟨h, normalize_again h⟩

end ContractSync.Contract
