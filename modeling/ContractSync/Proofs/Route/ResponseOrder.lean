import ContractSync.Proofs.Document.Entries
import ContractSync.Proofs.Route.Following
import ContractSync.Route.Response
import Mathlib.Data.List.Sort

/-!
# Responses in any order

The responses of an operation are looked through by their statuses, not in the order in which they are listed: for
the type of the result in an order of the statuses (`Precedes`), for headers and links in another one. **So
responses with different statuses come to the same in any order**, with the same notes, **and the result has the
type of the first one in the order of statuses that offers JSON** (`ofValue_anyOrder`).
-/

namespace ContractSync.Route.Responses

open ContractSync.Contract (Canonical)
open ContractSync.Document
open ContractSync.Schema (DataType)
open Resolving (Returns)

variable {doc : Canonical} {entries entries' : Entries} {responses responses' : ByStatus} {status : String}

/-! ### Responses by status -/

/-- Where the statuses are different texts, each response is kept, where it stands. -/
theorem byStatus_eq (h : (entries.map fun e => e.1.display).Nodup) :
    byStatus entries = entries.map fun e => (e.1.display, e.2) := by
  have hkeys : ((entries.map fun e => (Scalar.text e.1.display, e.2)).map (·.1)).Pairwise
      fun k l => k.sameKey l = false := by
    rw [List.map_map, List.pairwise_map]
    refine (List.pairwise_map.mp h).imp fun {e e'} hne => ?_
    have hsame := Scalar.sameKey_text (.text e.1.display) e'.1.display
    exact hsame.trans (beq_eq_false_iff_ne.mpr fun heq => hne (Scalar.text.inj heq))
  rw [byStatus, Entries.ofWrites, Entries.foldl_putKey_of_new hkeys, List.nil_append, List.map_map]
  exact List.map_congr_left fun e _ => rfl

theorem map_fst_byStatus (h : (entries.map fun e => e.1.display).Nodup) :
    (byStatus entries).map (·.1) = entries.map fun e => e.1.display := by
  rw [byStatus_eq h, List.map_map]
  rfl

theorem get_of_mem {v : Value} (h : (responses.map (·.1)).Nodup) (hmem : (status, v) ∈ responses) :
    get responses status = v := by
  rw [get, (lookup_eq_some_iff_mem h).mpr hmem, Option.getD_some]

theorem get_of_notMem (h : status ∉ responses.map (·.1)) : get responses status = .null := by
  have hnone : responses.lookup status = none := by
    refine List.lookup_eq_none_iff.mpr fun e he => ?_
    rw [bne_iff_ne]
    intro heq
    exact h (heq ▸ List.mem_map_of_mem he)
  rw [get, hnone, Option.getD_none]

/-- Responses are found by their statuses, wherever they stand. -/
theorem get_perm (h : (responses.map (·.1)).Nodup) (hperm : responses.Perm responses') (status : String) :
    get responses' status = get responses status := by
  have hkeys : (responses.map (·.1)).Perm (responses'.map (·.1)) := hperm.map _
  by_cases hmem : status ∈ responses.map (·.1)
  · obtain ⟨⟨_, v⟩, he, rfl⟩ := List.mem_map.mp hmem
    rw [get_of_mem h he, get_of_mem (hkeys.nodup h) (hperm.mem_iff.mp he)]
  · rw [get_of_notMem hmem, get_of_notMem (mt hkeys.mem_iff.mpr hmem)]

/-! ### The order of statuses -/

/-- The rank of a status among those of success. -/
def rank (status : String) : Nat :=
  if status = "200" then 0 else if status = "201" then 1 else if isOtherSuccess status then 2
  else if status = "2XX" then 3 else if status = "2xx" then 4 else 5

/-- The status is one of success. -/
def IsSuccess (status : String) : Prop := rank status < 5

/-- A result is looked for in one response before the other. -/
def Precedes (a b : String) : Prop := rank a < rank b ∨ rank a = rank b ∧ a < b

theorem Precedes.asymm {a b : String} (h : Precedes a b) : ¬ Precedes b a := by
  rintro (hback | ⟨heq, hback⟩)
  · rcases h with h | ⟨h, -⟩ <;> omega
  · rcases h with h | ⟨-, h⟩
    · omega
    · exact String.lt_asymm h hback

instance : Std.Irrefl Precedes := ⟨fun _ h => h.asymm h⟩

instance : Std.Antisymm Precedes := ⟨fun _ _ h hback => absurd hback h.asymm⟩

theorem rank_of_other (h : isOtherSuccess status = true) : rank status = 2 := by
  have hfirst : isOtherSuccess "200" = false ∧ isOtherSuccess "201" = false := by decide
  rw [rank, if_neg, if_neg, if_pos h]
  · rintro rfl
    exact absurd h (Bool.eq_false_iff.mp hfirst.2)
  · rintro rfl
    exact absurd h (Bool.eq_false_iff.mp hfirst.1)

theorem isSuccess_iff : IsSuccess status ↔
    status ∈ ["200", "201"] ∨ isOtherSuccess status = true ∨ status ∈ ["2XX", "2xx"] := by
  constructor
  · intro h
    by_contra hnone
    simp only [List.mem_cons, List.not_mem_nil, or_false, not_or] at hnone
    obtain ⟨⟨h200, h201⟩, hother, h2XX, h2xx⟩ := hnone
    rw [IsSuccess, rank, if_neg h200, if_neg h201, if_neg hother, if_neg h2XX, if_neg h2xx] at h
    exact absurd h (by decide)
  · have hends : ∀ status ∈ ["200", "201", "2XX", "2xx"], rank status < 5 := by decide
    rintro (h | h | h)
    · exact hends _ (List.mem_append_left ["2XX", "2xx"] h)
    · rw [IsSuccess, rank_of_other h]
      decide
    · exact hends _ (List.mem_append_right ["200", "201"] h)

theorem any_status_iff : responses.any (·.1 == status) = true ↔ status ∈ responses.map (·.1) := by
  rw [List.any_eq_true, List.mem_map]
  exact exists_congr fun e => and_congr_right fun _ => beq_iff_eq

theorem mem_successes : status ∈ successes responses ↔ IsSuccess status ∧ status ∈ responses.map (·.1) := by
  unfold successes
  rw [isSuccess_iff, List.mem_append, List.mem_append, List.mem_filter, List.mem_filter, any_status_iff,
    (List.mergeSort_perm _ _).mem_iff, List.mem_filter, and_comm (a := status ∈ responses.map _), ← or_and_right,
    ← or_and_right, or_assoc]

/-- The statuses of success are gone through in their order. -/
theorem ascending_successes (h : (responses.map (·.1)).Nodup) : (successes responses).Pairwise Precedes := by
  have hother : ∀ status ∈ ((responses.map (·.1)).filter isOtherSuccess).mergeSort (· ≤ ·), rank status = 2 := by
    intro status hstatus
    rw [(List.mergeSort_perm _ _).mem_iff] at hstatus
    exact rank_of_other (List.mem_filter.mp hstatus).2
  have hfirst : ∀ status ∈ ["200", "201"], rank status < 2 := by decide
  have hlast : ∀ status ∈ ["2XX", "2xx"], 2 < rank status := by decide
  have hsorted : (((responses.map (·.1)).filter isOtherSuccess).mergeSort (· ≤ ·)).Pairwise Precedes := by
    have hascending := List.pairwise_mergeSort' (· ≤ ·) ((responses.map (·.1)).filter isOtherSuccess)
    have hnodup := ((List.mergeSort_perm _ (· ≤ ·)).nodup_iff).mpr (h.filter isOtherSuccess)
    -- All of these have one rank, so the order of texts decides.
    refine (hascending.and hnodup).imp_of_mem fun {a b} ha hb hab => ?_
    exact .inr ⟨(hother a ha).trans (hother b hb).symm, lt_of_le_of_ne hab.1 hab.2⟩
  have hpair : ∀ {a b : String}, Precedes a b → ([a, b].filter fun status => responses.any (·.1 == status)).Pairwise
      Precedes := fun h => (List.pairwise_pair.mpr h).sublist List.filter_sublist
  unfold successes
  refine List.pairwise_append.mpr ⟨List.pairwise_append.mpr ⟨hpair (.inl (by decide)), hsorted, fun a ha b hb => .inl ?_⟩,
    hpair (.inl (by decide)), fun a ha b hb => .inl ?_⟩
  · rw [hother b hb]
    exact hfirst a (List.mem_filter.mp ha).1
  · refine lt_of_le_of_lt ?_ (hlast b (List.mem_filter.mp hb).1)
    rcases List.mem_append.mp ha with ha | ha
    · exact (hfirst a (List.mem_filter.mp ha).1).le
    · exact (hother a ha).le

/-! ### The same responses in another order -/

theorem any_perm (hperm : responses.Perm responses') (status : String) :
    responses'.any (·.1 == status) = responses.any (·.1 == status) := by
  rw [Bool.eq_iff_iff, any_status_iff, any_status_iff]
  exact (hperm.map _).symm.mem_iff

theorem successes_perm (h : (responses.map (·.1)).Nodup) (hperm : responses.Perm responses') :
    successes responses' = successes responses := by
  have hkeys : (responses.map (·.1)).Perm (responses'.map (·.1)) := hperm.map _
  -- There is one way to put statuses in their order, so it is enough that they are the same ones.
  refine (ascending_successes (hkeys.nodup h)).eq_of_mem_iff (ascending_successes h) fun status => ?_
  rw [mem_successes, mem_successes, hkeys.mem_iff]

theorem primary_perm (h : (responses.map (·.1)).Nodup) (hperm : responses.Perm responses') :
    primary responses' = primary responses := by
  rw [primary, primary, successes_perm h hperm]
  simp only [any_perm hperm]

theorem bodyTypeOf_perm (h : (responses.map (·.1)).Nodup) (hperm : responses.Perm responses') (statuses : List String) :
    bodyTypeOf doc responses' statuses = bodyTypeOf doc responses statuses := by
  induction statuses with
  | nil => rfl
  | cons status rest ih => rw [bodyTypeOf, bodyTypeOf, get_perm h hperm, ih]

theorem ofValue_perm (h : (entries.map fun e => e.1.display).Nodup) (hperm : entries.Perm entries') :
    ofValue doc (.mapping entries') = ofValue doc (.mapping entries) := by
  have hnodup : ((byStatus entries).map (·.1)).Nodup := (map_fst_byStatus h).symm ▸ h
  have hby : (byStatus entries).Perm (byStatus entries') := by
    rw [byStatus_eq h, byStatus_eq ((hperm.map _).nodup h)]
    exact hperm.map _
  unfold ofValue
  simp only [successes_perm hnodup hby, primary_perm hnodup hby, bodyTypeOf_perm hnodup hby, get_perm hnodup hby]

/-! ### The response that the result is taken from -/

/-- The schema that a media type of JSON gives. -/
def jsonSchemaAt? (content : Scalar × Value) : Option Value :=
  match content.1 with
  | .text mediaType => if MediaType.isJson mediaType then content.2.get? "schema" else none
  | _ => none

/-- The schema of the first JSON content that a response offers. -/
def offered? (doc : Canonical) (response : Value) : Option Value :=
  (found? doc "responses" response).bind fun response =>
    (Entries.get response "content").entries.findSome? jsonSchemaAt?

/-- What is found is the type of the schema, if there is one. -/
abbrev IsTypeOf (doc : Canonical) : Option Value → Option DataType → Prop :=
  Option.Rel fun schema type => Returns (Schema.resolve doc Schema.defaultBudget schema) type

theorem eq_text_of_asText {key : Scalar} {s : String} (h : key.asText = .ok s) : key = .text s := by
  cases key with
  | text t =>
    cases h
    rfl
  | null | bool | int | float | moment | bytes => cases h

theorem jsonType_yields {content : Entries} {found : Option DataType} (h : (jsonType doc content).Yields found) :
    IsTypeOf doc (content.findSome? jsonSchemaAt?) found := by
  induction content with
  | nil =>
    rw [h.pure]
    exact .none
  | cons e rest ih =>
    unfold jsonType at h
    obtain ⟨mediaType, hkey, h⟩ := h.bind
    have hkey := eq_text_of_asText hkey.lift
    rw [List.findSome?_cons, jsonSchemaAt?, hkey]
    by_cases hjson : MediaType.isJson mediaType = true
    · cases hschema : e.2.get? "schema" with
      | some schema =>
        simp only [hjson, if_true, hschema] at h ⊢
        obtain ⟨type, htype, h⟩ := h.bind
        obtain rfl := h.pure
        exact .some ((Schema.resolve_onlyNotes _ _).returns htype)
      | none =>
        simp only [hjson, if_true, hschema] at h ⊢
        exact ih h
    · simp only [hjson, Bool.false_eq_true, if_false] at h ⊢
      exact ih h

theorem bodyTypeOf_yields {statuses : List String} {found : Option DataType}
    (h : (bodyTypeOf doc responses statuses).Yields found) :
    IsTypeOf doc (statuses.findSome? fun status => offered? doc (get responses status)) found := by
  induction statuses with
  | nil =>
    rw [h.pure]
    exact .none
  | cons status rest ih =>
    unfold bodyTypeOf at h
    obtain ⟨object, hobject, h⟩ := h.bind
    have hoffered : offered? doc (get responses status) = object.bind fun response =>
        (Entries.get response "content").entries.findSome? jsonSchemaAt? := by
      rw [offered?, ← follow_yields hobject]
    rw [List.findSome?_cons, hoffered]
    cases object with
    | none =>
      obtain ⟨first, hfirst, h⟩ := h.bind
      obtain rfl := hfirst.pure
      exact ih h
    | some response =>
      obtain ⟨first, hfirst, h⟩ := h.bind
      have htype := jsonType_yields hfirst
      rw [Option.bind_some]
      generalize (Entries.get response "content").entries.findSome? jsonSchemaAt? = schema? at htype
      cases htype with
      | some htype =>
        rw [h.pure]
        exact .some htype
      | none => exact ih h

/-- The response is the first one of success that offers JSON, and this is its schema. -/
structure IsFirstOffer (doc : Canonical) (entries : Entries) (e : Scalar × Value) (schema : Value) : Prop where
  listed : e ∈ entries
  success : IsSuccess e.1.display
  offered : offered? doc e.2 = some schema
  first : ∀ other ∈ entries, IsSuccess other.1.display → offered? doc other.2 ≠ none →
    other = e ∨ Precedes e.1.display other.1.display

theorem bodyType_yields {result : Responses} (h : (ofValue doc (.mapping entries)).Yields result) :
    (bodyTypeOf doc (byStatus entries) (successes (byStatus entries))).Yields result.bodyType := by
  unfold ofValue at h
  obtain ⟨bodyType, hbody, h⟩ := h.bind
  suffices result.bodyType = bodyType from this ▸ hbody
  cases hprimary : primary (byStatus entries) with
  | none =>
    simp only [hprimary] at h
    rw [h.pure]
  | some status =>
    simp only [hprimary] at h
    obtain ⟨object, -, h⟩ := h.bind
    cases object with
    | none => rw [h.pure]
    | some response =>
      obtain ⟨headers, -, h⟩ := h.bind
      obtain ⟨links, -, h⟩ := h.bind
      rw [h.pure]

theorem bodyType_ofFirstOffer (h : (entries.map fun e => e.1.display).Nodup) {result : Responses}
    (hresult : (ofValue doc (.mapping entries)).Yields result) :
    (∃ e schema type, IsFirstOffer doc entries e schema ∧
      Returns (Schema.resolve doc Schema.defaultBudget schema) type ∧ result.bodyType = some type) ∨
    (∀ e ∈ entries, IsSuccess e.1.display → offered? doc e.2 = none) ∧ result.bodyType = none := by
  have hnodup : ((byStatus entries).map (·.1)).Nodup := (map_fst_byStatus h).symm ▸ h
  have hget : ∀ e ∈ entries, get (byStatus entries) e.1.display = e.2 := fun e he =>
    get_of_mem hnodup (byStatus_eq h ▸ List.mem_map_of_mem he)
  have hlisted : ∀ {status}, status ∈ successes (byStatus entries) ↔
      IsSuccess status ∧ ∃ e ∈ entries, e.1.display = status := by
    intro status
    rw [mem_successes, map_fst_byStatus h, List.mem_map]
  have htype := bodyTypeOf_yields (bodyType_yields hresult)
  generalize hschema : (successes (byStatus entries)).findSome? (fun status =>
    offered? doc (get (byStatus entries) status)) = schema? at htype
  generalize result.bodyType = found at htype
  cases htype with
  | none =>
    rw [List.findSome?_eq_none_iff] at hschema
    refine .inr ⟨fun e he hsuccess => ?_, rfl⟩
    rw [← hget e he]
    exact hschema _ (hlisted.mpr ⟨hsuccess, e, he, rfl⟩)
  | @some schema type htype =>
    obtain ⟨before, status, behind, hsplit, hoffered, hbefore⟩ := List.findSome?_eq_some_iff.mp hschema
    have hmem : status ∈ successes (byStatus entries) := hsplit ▸ List.mem_append_right _ List.mem_cons_self
    obtain ⟨hsuccess, e, he, rfl⟩ := hlisted.mp hmem
    rw [hget e he] at hoffered
    refine .inl ⟨e, schema, type, ⟨he, hsuccess, hoffered, fun other hother hrank hsome => ?_⟩, htype, rfl⟩
    -- The other status is gone through as well: before this one it offers nothing, behind it comes later.
    have hother' := hlisted.mpr ⟨hrank, other, hother, rfl⟩
    have hordered := ascending_successes hnodup
    rw [hsplit] at hother' hordered
    rcases List.mem_append.mp hother' with hfront | hbehind
    · refine absurd ?_ hsome
      rw [← hget other hother]
      exact hbefore _ hfront
    rcases List.mem_cons.mp hbehind with heq | hbehind
    · exact .inl (List.inj_on_of_nodup_map h hother he heq)
    · exact .inr ((List.pairwise_cons.mp (List.pairwise_append.mp hordered).2.1).1 _ hbehind)

/-- **Responses with different statuses come to the same in any order**, with the same notes in the same order. The
type of the result is that of the first one of success, in the order of the statuses, that offers JSON. -/
theorem ofValue_anyOrder (hdistinct : (entries.map fun e => e.1.display).Nodup) (hperm : entries.Perm entries') :
    ofValue doc (.mapping entries') = ofValue doc (.mapping entries) ∧
      ∀ result, (ofValue doc (.mapping entries')).Yields result →
        (∃ e schema type, IsFirstOffer doc entries e schema ∧
          Returns (Schema.resolve doc Schema.defaultBudget schema) type ∧ result.bodyType = some type) ∨
        (∀ e ∈ entries, IsSuccess e.1.display → offered? doc e.2 = none) ∧ result.bodyType = none := by
  have hsame : ofValue doc (.mapping entries') = ofValue doc (.mapping entries) := ofValue_perm hdistinct hperm
  exact ⟨hsame, fun result hresult => bodyType_ofFirstOffer hdistinct (hsame ▸ hresult)⟩

/-- A document without components. -/
def bareSample : Canonical where
  data := [("openapi", .text "3.0.3")]
  dialect := .openApi "3.0.3"

/-- Responses of which the first two of success offer nothing: one refers to nothing, one has no content. -/
def leaseSample : Entries :=
  [(.text "default", .object [("description", .text "else")]),
   (.text "2XX", .object [("content", .object [
     ("text/plain", .object [("schema", .object [("type", .text "string")])]),
     ("application/problem+json", .object [("schema", .object [("type", .text "integer")])])])]),
   (.text "204", .object [("description", .text "done")]),
   (.int 201, .object [("$ref", .text "#/components/responses/lost")])]

/-- In either order the status is the number 201, as text, and the type is that of `2XX`. -/
theorem ofValue_anyOrder_leaseSample : ∃ result e schema,
    (ofValue bareSample (.mapping leaseSample.reverse)).Yields result ∧
      ofValue bareSample (.mapping leaseSample.reverse) = ofValue bareSample (.mapping leaseSample) ∧
      result.status = some "201" ∧ e.1 = .text "2XX" ∧ IsFirstOffer bareSample leaseSample e schema ∧
      result.bodyType.isSome := by
  have hdistinct : (leaseSample.map fun e => e.1.display).Nodup := by decide +kernel
  have hsample : ((ofValue bareSample (.mapping leaseSample.reverse)).collect.1.toOption.map
      fun result => (result.status, result.bodyType.isSome)) = some (some "201", true) := by decide +kernel
  obtain ⟨result, hresult, hstatus⟩ := Option.map_eq_some_iff.mp hsample
  obtain ⟨hstatus, hsome⟩ := Prod.mk.inj hstatus
  have hyields := Resolving.yields_of_collect (eq_ok_of_toOption hresult)
  obtain ⟨hsame, htype⟩ := @ofValue_anyOrder bareSample _ _ hdistinct leaseSample.reverse_perm.symm
  rcases htype result hyields with ⟨e, schema, type, hfirst, -, htype⟩ | ⟨-, hnone⟩
  · have honly : ∀ e ∈ leaseSample, (offered? bareSample e.2).isSome → e.1 = .text "2XX" := by decide +kernel
    refine ⟨result, e, schema, hyields, hsame, hstatus, honly e hfirst.listed ?_, hfirst, hsome⟩
    rw [hfirst.offered]
    rfl
  · rw [hnone] at hsome
    cases hsome

end ContractSync.Route.Responses
