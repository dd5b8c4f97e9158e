import ContractSync.Proofs.Route.Following
import ContractSync.Proofs.Route.Merging

/-!
# Parameters that override others

The parameters of a path and of an operation on it are declared in two lists, one behind the other. An entry
declares a parameter under the name and the place that its object states; for a reference this is the object that
it leads to. **Each of the keys that entries state comes to one parameter, in the order in which they are first
stated, and the parameter is what the last entry with its key comes to** (`resolveAll_lastWins`).
-/

namespace ContractSync.Route.Parameter

open ContractSync.Contract (Canonical)
open ContractSync.Document
open Resolving (Returns)

variable {doc : Canonical} {entries : Entries} {v pathLevel operationLevel : Value}

/-! ### Declared parameters and their keys -/

/-- The entries of two lists of parameters; what is no list has none. -/
def declared (pathLevel operationLevel : Value) : List Value :=
  pathLevel.items?.getD [] ++ operationLevel.items?.getD []

/-- The name and the place that an object states. -/
def statedKey? (entries : Entries) : Option (String × Place) :=
  match (Entries.get entries "in").text?.bind Place.ofWord?, (Entries.get entries "name").text? with
  | some place, some name => if name.isEmpty then none else some (name, place)
  | _, _ => none

/-- The key of a declared parameter. -/
def keyOf? (doc : Canonical) (v : Value) : Option (String × Place) := (found? doc "parameters" v).bind statedKey?

theorem key_of_ofEntries {found : Option Parameter} (h : (ofEntries doc entries).Yields found) :
    found.map key = statedKey? entries := by
  unfold ofEntries at h
  unfold statedKey?
  cases hplace : (Entries.get entries "in").text?.bind Place.ofWord? with
  | none =>
    simp only [hplace] at h ⊢
    rw [h.pure]
    rfl
  | some place =>
    cases hname : (Entries.get entries "name").text? with
    | none =>
      simp only [hplace, hname] at h ⊢
      rw [h.pure]
      rfl
    | some name =>
      simp only [hplace, hname] at h ⊢
      split at h <;> rename_i hempty
      · rw [h.pure, if_pos hempty]
        rfl
      · obtain ⟨_, -, h⟩ := h.bind
        rw [h.pure, if_neg hempty]
        rfl

theorem key_of_ofValue {found : Option Parameter} (h : (ofValue doc v).Yields found) : found.map key = keyOf? doc v := by
  unfold ofValue at h
  obtain ⟨object, hobject, h⟩ := h.bind
  rw [keyOf?, ← follow_yields hobject]
  cases object with
  | none =>
    rw [h.pure]
    rfl
  | some entries => exact key_of_ofEntries h

/-! ### What the entries come to -/

/-- The entry that a result among others comes from. -/
theorem exists_entry_of_result {α β : Type} {R : α → Option β → Prop} {entries : List α} {results : List (Option β)}
    (h : List.Forall₂ R entries results) {first later : List β} {b : β}
    (hresults : results.filterMap id = first ++ b :: later) :
    ∃ before a behind rest, entries = before ++ a :: behind ∧ R a (some b) ∧ List.Forall₂ R behind rest ∧
      rest.filterMap id = later := by
  induction h generalizing first with
  | nil => simp at hresults
  | @cons a result entries results hfirst hrest ih =>
    have hnext : ∀ {first}, results.filterMap id = first ++ b :: later →
        ∃ before a' behind rest, a :: entries = before ++ a' :: behind ∧ R a' (some b) ∧
          List.Forall₂ R behind rest ∧ rest.filterMap id = later := by
      intro first hresults
      obtain ⟨before, a', behind, rest, rfl, ha⟩ := ih hresults
      exact ⟨a :: before, a', behind, rest, rfl, ha⟩
    cases result with
    | none => exact hnext hresults
    | some b' =>
      -- The result is the one that is looked for, or one of those in front of it.
      cases first with
      | nil =>
        obtain ⟨rfl, hlater⟩ := List.cons.inj hresults
        exact ⟨[], a, entries, results, rfl, hfirst, hrest, hlater⟩
      | cons c first => exact hnext (List.cons.inj hresults).2

/-- The parameters among the results have the keys that the entries state. -/
theorem map_key_results {vs : List Value} {results : List (Option Parameter)}
    (h : List.Forall₂ (fun v found => (ofValue doc v).Yields found) vs results) :
    (results.filterMap id).map key = vs.filterMap (keyOf? doc) := by
  induction h with
  | nil => rfl
  | @cons v found vs results hfirst _ ih =>
    have hkey := key_of_ofValue hfirst
    rw [List.filterMap_cons, List.filterMap_cons, ← hkey, ← ih]
    cases found <;> rfl

/-- **Of several entries with one key the last counts, at the place of the first.** -/
theorem resolveAll_lastWins {params : List Parameter} (h : (resolveAll doc pathLevel operationLevel).Yields params) :
    (params.map key).Nodup ∧
      params.map key = ((declared pathLevel operationLevel).filterMap (keyOf? doc)).eraseDups ∧
      (∀ v ∈ declared pathLevel operationLevel, ∃ found, Returns (ofValue doc v) found ∧ found.map key = keyOf? doc v) ∧
      ∀ p ∈ params, ∃ before v behind, declared pathLevel operationLevel = before ++ v :: behind ∧
        Returns (ofValue doc v) (some p) ∧ keyOf? doc v = some p.key ∧ ∀ w ∈ behind, keyOf? doc w ≠ some p.key := by
  unfold resolveAll at h
  obtain ⟨results, hresults, h⟩ := h.bind
  obtain rfl := h.pure
  have hall : List.Forall₂ (fun v found => (ofValue doc v).Yields found) (declared pathLevel operationLevel) results :=
    hresults.forall₂_mapM
  refine ⟨nodup_foldl_merge _, ?_, fun v hv => ?_, fun p hp => ?_⟩
  · rw [map_key_foldl_merge, map_key_results hall]
  · obtain ⟨found, -, hfound⟩ := Resolving.exists_left_of_forall₂ hall v hv
    exact ⟨found, (ofValue_onlyNotes v).returns hfound, key_of_ofValue hfound⟩
  · obtain ⟨first, later, hsplit, hlater⟩ := mem_foldl_merge_iff.mp hp
    obtain ⟨before, v, behind, rest, hentries, hv, hbehind, hrest⟩ := exists_entry_of_result hall hsplit
    refine ⟨before, v, behind, hentries, (ofValue_onlyNotes v).returns hv, (key_of_ofValue hv).symm, fun w hw hkey => ?_⟩
    -- An entry behind with the same key would come to a parameter behind, and that one would have won.
    have hmem : p.key ∈ (rest.filterMap id).map key := by
      rw [map_key_results hbehind]
      exact List.mem_filterMap.mpr ⟨w, hw, hkey⟩
    rw [hrest] at hmem
    obtain ⟨q, hq, hsame⟩ := List.mem_map.mp hmem
    exact hlater q hq hsame

/-- A document with a shared parameter. -/
def shelfSample : Canonical where
  data := [("components", .object [("parameters", .object [
    ("shelf", .object [("name", .text "shelf"), ("in", .text "query"), ("description", .text "shared")])])])]
  dialect := .openApi "3.0.3"

def shelfPathLevel : Value := .list [
  .object [("name", .text "shelf"), ("in", .text "query")],
  .object [("name", .text "id"), ("in", .text "path"), ("description", .text "first")],
  .object [("name", .text "id"), ("in", .text "body")],
  .object [("$ref", .text "#/components/parameters/lost")]]

def shelfOperationLevel : Value := .list [
  .object [("name", .text "id"), ("in", .text "path"), ("description", .text "last")],
  .object [("name", .text "id"), ("in", .text "query")],
  .object [("$ref", .text "#/components/parameters/shelf")],
  .text "shelf"]

/-- A reference of the operation overrides a parameter of the path, and stands in its place. -/
theorem resolveAll_shelfSample : ∃ params,
    (resolveAll shelfSample shelfPathLevel shelfOperationLevel).Yields params ∧
      params.map (fun p => (p.name, p.place, p.description)) =
        [("shelf", .query, some "shared"), ("id", .path, some "last"), ("id", .query, none)] ∧
      params.map key = ((declared shelfPathLevel shelfOperationLevel).filterMap (keyOf? shelfSample)).eraseDups ∧
      ∀ p ∈ params, ∃ before v behind, declared shelfPathLevel shelfOperationLevel = before ++ v :: behind ∧
        Returns (ofValue shelfSample v) (some p) ∧ keyOf? shelfSample v = some p.key ∧
        ∀ w ∈ behind, keyOf? shelfSample w ≠ some p.key := by
  have hsample : ((resolveAll shelfSample shelfPathLevel shelfOperationLevel).collect.1.toOption.map
      fun params => params.map fun p => (p.name, p.place, p.description)) =
        some [("shelf", .query, some "shared"), ("id", .path, some "last"), ("id", .query, none)] := by decide +kernel
  obtain ⟨params, hparams, hnames⟩ := Option.map_eq_some_iff.mp hsample
  have hyields := Resolving.yields_of_collect (eq_ok_of_toOption hparams)
  obtain ⟨-, hkeys, -, hlast⟩ := resolveAll_lastWins hyields
  exact ⟨params, hyields, hnames, hkeys, hlast⟩

end ContractSync.Route.Parameter
