import ContractSync.Proofs.Contract.Layout
import ContractSync.Proofs.Contract.Shared

/-!
# Documents with another path item

The passes change every part of a document on its own (`canonical_mapping`, `canonical_list`), and the lift
looks at the paths last. **So another path item gives another canonical form of this item and leaves the rest of
the canonical document alone** (`exists_normalize_replaced`).
-/

namespace ContractSync

/-- Lists that are related by way of a third one. -/
theorem forall₂_comp {α β γ : Type} {R : α → β → Prop} {S : β → γ → Prop} {as : List α} {cs : List γ} :
    (∃ bs, List.Forall₂ R as bs ∧ List.Forall₂ S bs cs) ↔ List.Forall₂ (fun a c => ∃ b, R a b ∧ S b c) as cs := by
  constructor
  · rintro ⟨bs, hR, hS⟩
    induction hR generalizing cs with
    | nil =>
      cases hS
      exact .nil
    | cons hfirst _ ih =>
      cases hS with
      | cons hsecond hS => exact .cons ⟨_, hfirst, hsecond⟩ (ih hS)
  · intro h
    induction h with
    | nil => exact ⟨[], .nil, .nil⟩
    | cons hfirst _ ih =>
      obtain ⟨b, hR, hS⟩ := hfirst
      obtain ⟨bs, hbs, hrest⟩ := ih
      exact ⟨b :: bs, .cons hR hbs, .cons hS hrest⟩

/-- A list that is related to one with a marked item has a marked item too. -/
theorem forall₂_marked {α β : Type} {R : α → β → Prop} {before after : List α} {a : α} {bs : List β} :
    List.Forall₂ R (before ++ a :: after) bs ↔ ∃ before' b after', bs = before' ++ b :: after' ∧
      List.Forall₂ R before before' ∧ R a b ∧ List.Forall₂ R after after' := by
  constructor
  · intro h
    induction before generalizing bs with
    | nil =>
      obtain ⟨b, after', hab, hafter, rfl⟩ := List.forall₂_cons_left_iff.mp h
      exact ⟨[], b, after', rfl, .nil, hab, hafter⟩
    | cons first before ih =>
      rw [List.cons_append] at h
      obtain ⟨first', bs, hfirst, hrest, rfl⟩ := List.forall₂_cons_left_iff.mp h
      obtain ⟨before', b, after', rfl, hbefore, hab, hafter⟩ := ih hrest
      exact ⟨first' :: before', b, after', rfl, .cons hfirst hbefore, hab, hafter⟩
  · rintro ⟨before', b, after', rfl, hbefore, hab, hafter⟩
    exact List.rel_append hbefore (.cons hab hafter)

end ContractSync

namespace ContractSync.Document.Entries

variable {entries entries' entries'' : Entries} {R S : Scalar → Value → Value → Prop}

theorem Pointwise.has_eq (h : Pointwise R entries entries') (key : String) :
    has entries' key = has entries key := by
  refine has_congr ?_
  induction h with
  | nil => rfl
  | cons hfirst _ ih => rw [List.map_cons, List.map_cons, hfirst.1, ih]

/-- Entries that change twice. -/
theorem pointwise_comp : (∃ between, Pointwise R entries between ∧ Pointwise S between entries'') ↔
    Pointwise (fun key v v'' => ∃ v', R key v v' ∧ S key v' v'') entries entries'' := by
  unfold Pointwise
  rw [forall₂_comp]
  refine ⟨List.Forall₂.imp ?_, List.Forall₂.imp ?_⟩
  · rintro e e'' ⟨e', ⟨hkey, hR⟩, hkey', hS⟩
    exact ⟨hkey'.trans hkey, e'.2, hR, hkey ▸ hS⟩
  · rintro e e'' ⟨hkey, v', hR, hS⟩
    exact ⟨(e.1, v'), ⟨rfl, hR⟩, hkey, hS⟩

/-- A value that is replaced on both sides. -/
theorem Pointwise.replace (h : Pointwise R entries entries') {key : String} {v v' : Value}
    (hv : R (.text key) v v') : Pointwise R (Entries.replace entries key v) (Entries.replace entries' key v') := by
  unfold Entries.replace
  refine List.forall₂_map_left_iff.mpr (List.forall₂_map_right_iff.mpr (List.Forall₂.imp ?_ h))
  rintro e e' ⟨hkey, he⟩
  rw [hkey]
  by_cases heq : e.1 == .text key
  · rw [if_pos heq, if_pos heq]
    exact ⟨rfl, beq_iff_eq.mp heq ▸ hv⟩
  · rw [if_neg heq, if_neg heq]
    exact ⟨hkey, he⟩

/-- A value that is set on both sides. -/
theorem Pointwise.put (h : Pointwise R entries entries') {key : String} {v v' : Value}
    (hv : R (.text key) v v') : Pointwise R (Entries.put entries key v) (Entries.put entries' key v') := by
  cases hhas : has entries key with
  | true =>
    rw [put_of_has hhas, put_of_has ((h.has_eq key).trans hhas)]
    exact h.replace hv
  | false =>
    have hhas' : has entries' key = false := (h.has_eq key).trans hhas
    rw [Entries.put, Entries.put, hhas, hhas', if_neg Bool.false_ne_true, if_neg Bool.false_ne_true]
    exact List.rel_append h (.cons ⟨rfl, hv⟩ .nil)

end ContractSync.Document.Entries

namespace ContractSync.Contract

open ContractSync.Document
open Entries (Pointwise pointwise_comp)

/-! ### What the passes make of a part -/

section Steps

variable {entries entries' : Entries}

/-- Steps that change entries one by one change them one by one as a whole. -/
theorem foldlM_pointwise {whole : Pass → Entries → Except Fault Entries}
    {entry : Pass → Scalar → Value → Except Fault Value}
    (hstep : ∀ pass entries entries', whole pass entries = .ok entries' ↔
      Pointwise (fun key v v' => entry pass key v = .ok v') entries entries') (steps : List Pass) :
    steps.foldlM (fun entries pass => whole pass entries) entries = .ok entries' ↔
      Pointwise (fun key v v' => steps.foldlM (fun v pass => entry pass key v) v = .ok v') entries entries' := by
  induction steps generalizing entries with
  | nil =>
    constructor
    · rintro ⟨⟩
      exact List.forall₂_same.mpr fun e _ => ⟨rfl, rfl⟩
    · intro h
      have heq : entries = entries' := by
        refine List.forall₂_eq_eq_eq ▸ List.Forall₂.imp ?_ h
        rintro e e' ⟨hkey, hvalue⟩
        exact Prod.ext hkey.symm (Except.ok.inj hvalue)
      rw [heq]
      rfl
  | cons pass steps ih =>
    rw [List.foldlM_cons, bind_eq_ok]
    simp only [hstep, ih, pointwise_comp, List.foldlM_cons, bind_eq_ok]

theorem rewriteParts_cons (pass : Pass) (key : Scalar) (v : Value) (rest : Entries) :
    rewriteParts pass ((key, v) :: rest) = (do
      let v' ← rewriteEntry pass key v
      return (key, v') :: (← rewriteParts pass rest)) := by
  rw [rewriteParts, rewriteEntry]
  cases isOpaqueKey key with
  | error => rfl
  | ok isOpaque =>
    cases isOpaque with
    | true => rfl
    | false => cases isSchemaKey key <;> rfl

theorem rewriteParts_eq_ok {pass : Pass} : rewriteParts pass entries = .ok entries' ↔
    Pointwise (fun key v v' => rewriteEntry pass key v = .ok v') entries entries' := by
  refine ⟨pointwise_rewriteParts, fun h => ?_⟩
  induction h with
  | nil => rw [rewriteParts]
  | @cons e e' _ _ hfirst _ ih =>
    obtain ⟨key, v⟩ := e
    obtain ⟨key', v'⟩ := e'
    obtain ⟨hkey, hv⟩ := hfirst
    cases hkey
    rw [rewriteParts_cons, hv, ih]
    rfl

theorem rewriteDocument_eq_ok {pass : Pass} : rewriteDocument pass entries = .ok entries' ↔
    Pointwise (fun key v v' => rewriteSection pass key v = .ok v') entries entries' := by
  refine ⟨pointwise_rewriteDocument, fun h => ?_⟩
  induction h with
  | nil => rw [rewriteDocument]
  | @cons e e' _ _ hfirst _ ih =>
    obtain ⟨key, v⟩ := e
    obtain ⟨key', v'⟩ := e'
    obtain ⟨rfl, hv⟩ := hfirst
    rw [rewriteDocument, hv, ih]
    rfl

theorem rewriteItems_eq_ok {pass : Pass} {items items' : List Value} : rewriteItems pass items = .ok items' ↔
    List.Forall₂ (fun v v' => rewritePart pass v = .ok v') items items' := by
  constructor
  · intro h
    induction items generalizing items' with
    | nil =>
      rw [rewriteItems] at h
      cases h
      exact .nil
    | cons v rest ih =>
      obtain ⟨v', rest', hv, hr, rfl⟩ := rewriteItems_cons_eq_ok h
      exact .cons hv (ih hr)
  · intro h
    induction h with
    | nil => rw [rewriteItems]
    | cons hfirst _ ih =>
      rw [rewriteItems, hfirst, ih]
      rfl

end Steps

/-- What the passes make of a part. -/
def canonical (v : Value) : Except Fault Value := passes.foldlM (fun v pass => rewritePart pass v) v

/-- What the passes make of what stands at a key of a part. -/
def canonicalAt (key : Scalar) (v : Value) : Except Fault Value :=
  passes.foldlM (fun v pass => rewriteEntry pass key v) v

theorem canonicalAt_of_not_isReserved {key : Scalar} (h : isReserved key = false) (v : Value) :
    canonicalAt key v = canonical v := by
  obtain ⟨ho, hs⟩ := isReserved_eq_false h
  have hentry : ∀ pass v, rewriteEntry pass key v = rewritePart pass v := by
    intro pass v
    unfold rewriteEntry
    rw [ho, hs]
    rfl
  simp only [canonicalAt, canonical, hentry]

theorem runPasses_eq_ok_iff {data data' : Entries} : runPasses data = .ok data' ↔
    Pointwise (fun key v v' => passes.foldlM (fun v pass => rewriteSection pass key v) v = .ok v') data data' :=
  @foldlM_pointwise data data' rewriteDocument rewriteSection (fun _ _ _ => rewriteDocument_eq_ok) passes

/-- **The passes change the entries of a part one by one.** -/
theorem canonical_mapping {entries : Entries} {v : Value} : canonical (.mapping entries) = .ok v ↔
    ∃ entries', v = .mapping entries' ∧
      Pointwise (fun key v v' => canonicalAt key v = .ok v') entries entries' := by
  have hsteps : ∀ steps : List Pass, steps.foldlM (fun v pass => rewritePart pass v) (.mapping entries) =
      (steps.foldlM (fun entries pass => rewriteParts pass entries) entries).map .mapping := by
    intro steps
    induction steps generalizing entries with
    | nil => rfl
    | cons pass steps ih =>
      rw [List.foldlM_cons, List.foldlM_cons, rewritePart]
      cases rewriteParts pass entries with
      | error => rfl
      | ok entries' => exact ih
  have hall := fun entries' => @foldlM_pointwise entries entries' rewriteParts rewriteEntry
    (fun _ _ _ => rewriteParts_eq_ok) passes
  rw [canonical, hsteps, map_eq_ok]
  constructor
  · rintro ⟨entries', h, rfl⟩
    exact ⟨entries', rfl, (hall entries').mp h⟩
  · rintro ⟨entries', rfl, h⟩
    exact ⟨entries', (hall entries').mpr h, rfl⟩

theorem foldlM_rewriteItems {items items' : List Value} (steps : List Pass) :
    steps.foldlM (fun items pass => rewriteItems pass items) items = .ok items' ↔
      List.Forall₂ (fun v v' => steps.foldlM (fun v pass => rewritePart pass v) v = .ok v') items items' := by
  induction steps generalizing items with
  | nil => simp only [List.foldlM_nil, pure, Except.pure, Except.ok.injEq, List.forall₂_eq_eq_eq]
  | cons pass steps ih =>
    simp only [List.foldlM_cons, bind_eq_ok, rewriteItems_eq_ok, ih]
    exact forall₂_comp

/-- **The passes change the items of a part one by one.** -/
theorem canonical_list {items : List Value} {v : Value} : canonical (.list items) = .ok v ↔
    ∃ items', v = .list items' ∧ List.Forall₂ (fun v v' => canonical v = .ok v') items items' := by
  have hsteps : ∀ steps : List Pass, steps.foldlM (fun v pass => rewritePart pass v) (.list items) =
      (steps.foldlM (fun items pass => rewriteItems pass items) items).map .list := by
    intro steps
    induction steps generalizing items with
    | nil => rfl
    | cons pass steps ih =>
      rw [List.foldlM_cons, List.foldlM_cons, rewritePart]
      cases rewriteItems pass items with
      | error => rfl
      | ok items' => exact ih
  rw [canonical, hsteps, map_eq_ok]
  constructor
  · rintro ⟨items', h, rfl⟩
    exact ⟨items', rfl, (foldlM_rewriteItems passes).mp h⟩
  · rintro ⟨items', rfl, h⟩
    exact ⟨items', (foldlM_rewriteItems passes).mpr h, rfl⟩

/-! ### Parts with another value -/

section Replaced

variable {entries entries' : Entries} {key : String} {v v' : Value}

theorem canonical_replace (h : canonical (.mapping entries) = .ok (.mapping entries'))
    (hv : canonicalAt (.text key) v = .ok v') :
    canonical (.mapping (Entries.replace entries key v)) = .ok (.mapping (Entries.replace entries' key v')) := by
  obtain ⟨_, hsame, hentries⟩ := canonical_mapping.mp h
  cases hsame
  exact canonical_mapping.mpr ⟨_, rfl, hentries.replace hv⟩

theorem canonical_put (h : canonical (.mapping entries) = .ok (.mapping entries'))
    (hv : canonicalAt (.text key) v = .ok v') :
    canonical (.mapping (Entries.put entries key v)) = .ok (.mapping (Entries.put entries' key v')) := by
  obtain ⟨_, hsame, hentries⟩ := canonical_mapping.mp h
  cases hsame
  exact canonical_mapping.mpr ⟨_, rfl, hentries.put hv⟩

theorem canonical_get? (h : canonical (.mapping entries) = .ok (.mapping entries'))
    (hv : Entries.get? entries key = some v) :
    ∃ v', canonicalAt (.text key) v = .ok v' ∧ Entries.get? entries' key = some v' := by
  obtain ⟨_, hsame, hentries⟩ := canonical_mapping.mp h
  cases hsame
  obtain ⟨v', hv', hcanonical⟩ := hentries.get?_eq_some hv
  exact ⟨v', hcanonical, hv'⟩

theorem canonical_has (h : canonical (.mapping entries) = .ok (.mapping entries')) (key : String) :
    Entries.has entries' key = Entries.has entries key := by
  obtain ⟨_, hsame, hentries⟩ := canonical_mapping.mp h
  cases hsame
  exact hentries.has_eq key

/-- A part whose value is the only one at its key has a canonical form with the same property. -/
theorem canonical_replace_self (h : canonical (.mapping entries) = .ok (.mapping entries'))
    (hself : Entries.replace entries key v = entries) (hv : canonicalAt (.text key) v = .ok v') :
    Entries.replace entries' key v' = entries' := by
  have hreplaced := canonical_replace h hv
  rw [hself, h] at hreplaced
  exact (Value.mapping.inj (Except.ok.inj hreplaced)).symm

/-- A reference is canonical. -/
theorem canonical_reference (ref : String) :
    canonical (.object [("$ref", .text ref)]) = .ok (.object [("$ref", .text ref)]) := by
  have hscalar : canonical (.text ref) = .ok (.text ref) := by
    simp only [canonical, passes, List.foldlM_cons, List.foldlM_nil, rewritePart]
    rfl
  have hkey : isReserved (.text "$ref") = false := by decide
  exact canonical_mapping.mpr ⟨_, rfl, .cons ⟨rfl, (canonicalAt_of_not_isReserved hkey _).trans hscalar⟩ .nil⟩

/-- What is no mapping does not become one. -/
theorem isMapping_of_canonical (h : canonical v = .ok v') : v'.isMapping = v.isMapping := by
  cases v with
  | mapping entries =>
    obtain ⟨entries', rfl, -⟩ := canonical_mapping.mp h
    rfl
  | list items =>
    obtain ⟨items', rfl, -⟩ := canonical_list.mp h
    rfl
  | scalar | set =>
    simp only [canonical, passes, List.foldlM_cons, List.foldlM_nil, rewritePart] at h
    cases h
    rfl

end Replaced

/-! ### What the lift makes of other paths -/

namespace Lift

section Moves

variable {entries : Entries} {key : String} {v : Value}

theorem moveInEntries_eq_map (entries : Entries) :
    moveInEntries entries = entries.map fun e => (e.1, moveAt e.1 e.2) := by
  have h := pointwise_moveInEntries entries
  generalize moveInEntries entries = moved at h ⊢
  induction h with
  | nil => rfl
  | @cons e e' _ _ hfirst _ ih =>
    rw [List.map_cons, ih]
    exact congrArg (· :: _) (Prod.ext hfirst.1 hfirst.2)

theorem moveInItems_eq_map (items : List Value) : moveInItems items = items.map moveReferences := by
  induction items with
  | nil => rw [moveInItems, List.map_nil]
  | cons v rest ih => rw [moveInItems, List.map_cons, ih]

theorem moveInEntries_replace : moveInEntries (Entries.replace entries key v) =
    Entries.replace (moveInEntries entries) key (moveAt (.text key) v) := by
  rw [moveInEntries_eq_map, moveInEntries_eq_map, Entries.replace, Entries.replace, List.map_map, List.map_map]
  refine List.map_congr_left fun e _ => ?_
  rw [Function.comp_apply, Function.comp_apply]
  by_cases he : e.1 == .text key
  · rw [if_pos he, if_pos he, beq_iff_eq.mp he]
  · rw [if_neg he, if_neg he]

theorem has_moveInEntries : Entries.has (moveInEntries entries) key = Entries.has entries key :=
  (pointwise_moveInEntries entries).has_eq key

theorem moveInEntries_put : moveInEntries (Entries.put entries key v) =
    Entries.put (moveInEntries entries) key (moveAt (.text key) v) := by
  cases hhas : Entries.has entries key with
  | true => rw [Entries.put_of_has hhas, Entries.put_of_has (has_moveInEntries.trans hhas), moveInEntries_replace]
  | false =>
    rw [Entries.put, Entries.put, has_moveInEntries, hhas, if_neg Bool.false_ne_true, if_neg Bool.false_ne_true,
      moveInEntries_eq_map, moveInEntries_eq_map, List.map_append, List.map_singleton]

end Moves

section Repath

variable {v : Value}

/-- The progress with other paths. -/
def Progress.repath (p : Progress) (v : Value) : Progress := { p with rest := Entries.replace p.rest "paths" v }

theorem takeMapping_replace {document : Entries} {key : String} (h : key ≠ "paths") :
    takeMapping (Entries.replace document "paths" v) key =
      (takeMapping document key).map fun found => (found.1, Entries.replace found.2 "paths" v) := by
  unfold takeMapping
  rw [Entries.get?_replace_of_ne (Ne.symm h), Entries.erase_replace]
  split <;> rfl

theorem definitions_repath (p : Progress) : definitions (p.repath v) = (definitions p).map (·.repath v) := by
  unfold definitions
  rw [Progress.repath, Entries.get?_replace_of_ne (by decide), Entries.erase_replace]
  split
  · cases setFamily p.components "schemas" _ <;> rfl
  · rfl

theorem parameters_repath (consumes : Value) (p : Progress) :
    parameters consumes (p.repath v) = (parameters consumes p).map (·.repath v) := by
  unfold parameters
  rw [Progress.repath, takeMapping_replace (by decide)]
  cases takeMapping p.rest "parameters" with
  | none => rfl
  | some found =>
    simp only [Option.map_some]
    cases (found.1.partition fun e => isBodyParam e.2).1.mapM
        fun e : Scalar × Value => do return (e.1, ← bodyParam e.2.entries consumes) with
    | error => rfl
    | ok requestBodies =>
      simp only [bind, Except.bind]
      cases setUnlessEmpty p.components "parameters" _ with
      | error => rfl
      | ok components =>
        simp only
        cases setUnlessEmpty components "requestBodies" requestBodies <;> rfl

theorem sharedResponses_repath (produces : Value) (p : Progress) :
    sharedResponses produces (p.repath v) = (sharedResponses produces p).map (·.repath v) := by
  unfold sharedResponses
  rw [Progress.repath, takeMapping_replace (by decide)]
  cases takeMapping p.rest "responses" with
  | none => rfl
  | some found =>
    simp only [Option.map_some]
    cases responses found.1 produces with
    | error => rfl
    | ok lifted =>
      simp only [bind, Except.bind]
      cases setFamily p.components "responses" (.mapping lifted) <;> rfl

theorem securityDefinitions_repath (p : Progress) :
    securityDefinitions (p.repath v) = (securityDefinitions p).map (·.repath v) := by
  unfold securityDefinitions
  rw [Progress.repath, takeMapping_replace (by decide)]
  cases takeMapping p.rest "securityDefinitions" with
  | none => rfl
  | some found =>
    simp only [Option.map_some]
    cases found.1.mapM fun e : Scalar × Value => do return (e.1, ← securityScheme e.2) with
    | error => rfl
    | ok lifted =>
      simp only [bind, Except.bind]
      cases setFamily p.components "securitySchemes" (.mapping lifted) <;> rfl

theorem consumesOf_replace {moved : Entries} : consumesOf (Entries.replace moved "paths" v) = consumesOf moved := by
  rw [consumesOf, Entries.get, Entries.get?_replace_of_ne (by decide)]
  rfl

theorem producesOf_replace {moved : Entries} : producesOf (Entries.replace moved "paths" v) = producesOf moved := by
  rw [producesOf, Entries.get, Entries.get?_replace_of_ne (by decide)]
  rfl

theorem start_replace (moved : Entries) : start (Entries.replace moved "paths" v) = (start moved).repath v := by
  have hget : ∀ entries : Entries, Entries.get (Entries.replace entries "paths" v) "components" =
      Entries.get entries "components" := by
    intro entries
    exact Entries.get_replace_of_ne (by decide)
  simp only [start, Progress.repath]
  rw [Entries.erase_replace, Entries.erase_replace, Entries.putNew_replace_of_ne (by decide), hget]

theorem components_replace (moved : Entries) :
    components (Entries.replace moved "paths" v) = (components moved).map (·.repath v) := by
  unfold components
  rw [start_replace, definitions_repath, consumesOf_replace, producesOf_replace]
  cases definitions (start moved) with
  | error => rfl
  | ok p =>
    simp only [Except.map, bind, Except.bind]
    rw [parameters_repath]
    cases parameters (consumesOf moved) p with
    | error => rfl
    | ok p =>
      simp only [Except.map]
      rw [sharedResponses_repath]
      cases sharedResponses (producesOf moved) p with
      | error => rfl
      | ok p =>
        simp only [Except.map]
        rw [securityDefinitions_repath]
        rfl

theorem withServers_replace (entries : Entries) : withServers (Entries.replace entries "paths" v) =
    (withServers entries).map (Entries.replace · "paths" v) := by
  have hget : ∀ {key : String}, key ≠ "paths" →
      Entries.get (Entries.replace entries "paths" v) key = Entries.get entries key := by
    intro key hkey
    exact Entries.get_replace_of_ne (Ne.symm hkey)
  have herase : addressKeys.foldl Entries.erase (Entries.replace entries "paths" v) =
      Entries.replace (addressKeys.foldl Entries.erase entries) "paths" v := by
    simp only [addressKeys, List.foldl_cons, List.foldl_nil, Entries.erase_replace]
  unfold withServers
  simp only
  rw [hget (by decide), hget (by decide), hget (by decide), herase]
  cases servers (Entries.get entries "host") (Entries.get entries "basePath")
      (orElse (Entries.get entries "schemes") (.list [.text "https"])) with
  | error => rfl
  | ok addresses =>
    cases addresses with
    | none => rfl
    | some addresses =>
      simp only [bind, Except.bind, Except.map, pure, Except.pure]
      rw [Entries.put_replace_of_ne (by decide)]

/-- The lift of the components leaves the paths as they are. -/
theorem get?_paths_components {moved : Entries} {p : Progress} (h : components moved = .ok p) :
    Entries.get? p.rest "paths" = Entries.get? moved "paths" := by
  unfold components at h
  obtain ⟨p₁, h₁, h⟩ := bind_eq_ok.mp h
  obtain ⟨p₂, h₂, h⟩ := bind_eq_ok.mp h
  obtain ⟨p₃, h₃, h₄⟩ := bind_eq_ok.mp h
  rw [(securityDefinitions_leaves h₄).rest _ (by decide), (sharedResponses_leaves h₃).rest _ (by decide),
    (parameters_leaves h₂).rest _ (by decide), (definitions_leaves h₁).rest _ (by decide)]
  exact (Entries.get?_putNew_of_ne (by decide)).trans
    ((Entries.get?_erase_of_ne (by decide)).trans (Entries.get?_erase_of_ne (by decide)))

theorem document_eq_ok {entries lifted : Entries} : document entries = .ok lifted ↔ ∃ p served found,
    components (moveInEntries entries) = .ok p ∧
      withServers (Entries.put p.rest "components" p.components) = .ok served ∧
      withPaths (consumesOf (moveInEntries entries)) (producesOf (moveInEntries entries)) p.bodies served =
        .ok found ∧
      (Scalar.text "openapi", Value.text "3.0.3") :: Entries.erase found "swagger" = lifted := by
  rw [document_eq]
  simp only [bind_eq_ok, pure, Except.pure, Except.ok.injEq, exists_and_left]

/-- **Other paths change nothing else in the lifted document.** -/
theorem document_replace {entries lifted : Entries} {paths : Value} (h : document entries = .ok lifted)
    (hpaths : Entries.get? entries "paths" = some paths) :
    ∃ p found, components (moveInEntries entries) = .ok p ∧
      pathItems (consumesOf (moveInEntries entries)) (producesOf (moveInEntries entries)) p.bodies
        (moveAt (.text "paths") paths) = .ok found ∧
      Entries.get? lifted "paths" = some found ∧
      ∀ paths' found', pathItems (consumesOf (moveInEntries entries)) (producesOf (moveInEntries entries)) p.bodies
        (moveAt (.text "paths") paths') = .ok found' →
        document (Entries.replace entries "paths" paths') = .ok (Entries.replace lifted "paths" found') := by
  obtain ⟨p, served, all, hp, hserved, hall, rfl⟩ := document_eq_ok.mp h
  have hget : Entries.get? served "paths" = some (moveAt (.text "paths") paths) := by
    rw [withServers_get? hserved (by decide), Entries.get?_put_of_ne (by decide), get?_paths_components hp,
      get?_moveInEntries hpaths]
  have hhas : Entries.has served "paths" = true := Entries.has_of_get? hget
  unfold withPaths at hall
  rw [hget] at hall
  obtain ⟨found, hfound, hall⟩ := bind_eq_ok.mp hall
  cases pure_eq_ok.mp hall
  refine ⟨p, found, hp, hfound, ?_, fun paths' found' hfound' => document_eq_ok.mpr ?_⟩
  · rw [Entries.get?_cons, if_neg (by decide), Entries.get?_erase_of_ne (by decide), Entries.get?_put_self]
  · have hother := Entries.get?_replace_self (v := moveAt (.text "paths") paths') hhas
    refine ⟨p.repath (moveAt (.text "paths") paths'), Entries.replace served "paths" (moveAt (.text "paths") paths'),
      Entries.replace served "paths" found', ?_, ?_, ?_, ?_⟩
    · rw [moveInEntries_replace, components_replace, hp]
      rfl
    · rw [Progress.repath, Entries.put_replace_of_ne (by decide), withServers_replace, hserved]
      rfl
    · rw [moveInEntries_replace, consumesOf_replace, producesOf_replace, withPaths, hother]
      simp only [Progress.repath]
      rw [hfound']
      show Except.ok (Entries.put _ "paths" found') = _
      rw [Entries.put_of_has (Entries.has_replace.trans hhas), Entries.replace_replace]
    · have herased : Entries.replace (Entries.erase (Entries.put served "paths" found) "swagger") "paths" found' =
          Entries.erase (Entries.replace served "paths" found') "swagger" := by
        rw [Entries.put_of_has hhas, Entries.erase_replace, Entries.replace_replace, Entries.erase_replace]
      rw [← herased]
      rfl

end Repath

end Lift

/-! ### Documents with another path item -/

theorem runPasses_replace {lifted data : Entries} {v v' : Value} (h : runPasses lifted = .ok data)
    (hv : canonical v = .ok v') :
    runPasses (Entries.replace lifted "paths" v) = .ok (Entries.replace data "paths" v') := by
  refine runPasses_eq_ok_iff.mpr ((runPasses_eq_ok_iff.mp h).replace ?_)
  have hsection : ∀ pass v, rewriteSection pass (.text "paths") v = rewritePart pass v := fun pass v =>
    rewriteSection_of_part fun h => h.elim (absurd · (by decide)) (absurd · (by decide))
  simp only [hsection]
  exact hv

theorem detect_replace {entries : Entries} {v : Value} :
    Dialect.detect (Entries.replace entries "paths" v) = Dialect.detect entries := by
  unfold Dialect.detect
  rw [Entries.get?_replace_of_ne (by decide), Entries.get?_replace_of_ne (by decide)]

theorem normalize_of_steps {document lifted data : Entries} {dialect : Dialect}
    (hdialect : Dialect.detect document = .ok dialect) (hlifted : toOpenApi dialect document = .ok lifted)
    (hdata : runPasses lifted = .ok data) :
    normalize document = .ok ⟨data, dialect, (Entries.get data "$self").text?⟩ := by
  unfold normalize
  rw [hdialect]
  simp only [mapError_ok, bind, Except.bind]
  rw [hlifted]
  simp only [mapError_ok]
  rw [hdata]
  rfl

theorem self_of_normalize {document : Entries} {c : Canonical} (h : normalize document = .ok c) :
    c.self = (Entries.get c.data "$self").text? := by
  obtain ⟨dialect, lifted, hdialect, hlifted, hdata⟩ := normalize_eq_ok h
  have hc := (normalize_of_steps hdialect hlifted hdata).symm.trans h
  exact congrArg Canonical.self (Except.ok.inj hc).symm

theorem isLiteralKey_of_not_isReserved {key : Scalar} (h : isReserved key = false) : isLiteralKey key = false := by
  obtain ⟨ho, -⟩ := isReserved_eq_false h
  cases key with
  | text key =>
    have hor : (literalKeys.contains key || _) = false := Except.ok.inj ho
    exact (Bool.or_eq_false_iff.mp hor).1
  | _ => rfl

namespace Lift

theorem moveAt_mapping_of_not_isReserved {key : Scalar} (h : isReserved key = false) (entries : Entries) :
    moveAt key (.mapping entries) = .mapping (moveInEntries entries) :=
  moveAt_mapping (isLiteralKey_of_not_isReserved h)

/-- The lift changes the entries of the paths one by one. -/
theorem pathItems_eq_ok {consumes produces v : Value} {bodies : List Scalar} {entries : Entries} :
    pathItems consumes produces bodies (.mapping entries) = .ok v ↔ ∃ entries', v = .mapping entries' ∧
      Pointwise (fun _ v v' => pathValue consumes produces bodies v = .ok v') entries entries' := by
  rw [pathItems_mapping, map_eq_ok]
  constructor
  · rintro ⟨entries', h, rfl⟩
    exact ⟨entries', rfl, Entries.pointwise_of_mapM (f := fun _ v => pathValue consumes produces bodies v) h⟩
  · rintro ⟨entries', rfl, h⟩
    refine ⟨entries', ?_, rfl⟩
    induction h with
    | nil => rfl
    | @cons e e' _ _ hfirst _ ih =>
      obtain ⟨key, v⟩ := e'
      obtain ⟨hkey, hvalue⟩ := hfirst
      cases hkey
      rw [List.mapM_cons, hvalue, ih]
      rfl

theorem pathValue_eq_ok {consumes produces v : Value} {bodies : List Scalar} {item : Entries} :
    pathValue consumes produces bodies (.mapping item) = .ok v ↔
      ∃ item', pathItem consumes produces bodies item = .ok item' ∧ .mapping item' = v := map_eq_ok

/-- The names of the parameters that become request bodies. -/
def bodiesOf (moved : Entries) : List Scalar :=
  ((Entries.get moved "parameters").entries.filter fun e => isBodyParam e.2).map (·.1)

section Bodies

variable {p p' : Progress}

theorem definitions_bodies (h : definitions p = .ok p') : p'.bodies = p.bodies := by
  unfold definitions at h
  split at h
  · obtain ⟨_, -, h⟩ := bind_eq_ok.mp h
    rw [pure_eq_ok.mp h]
  · rw [pure_eq_ok.mp h]

theorem parameters_bodies {consumes : Value} (h : parameters consumes p = .ok p') (hbodies : p.bodies = []) :
    p'.bodies = bodiesOf p.rest := by
  rw [bodiesOf, Entries.get]
  rcases parameters_eq_ok h with ⟨hnone, hsame⟩ | ⟨found, _, _, hfound, -, -, -, -, hfinal⟩
  · rw [hsame, hbodies]
    unfold takeMapping at hnone
    split at hnone
    · cases hnone
    · rename_i hother
      cases hvalue : Entries.get? p.rest "parameters" with
      | none => rfl
      | some v =>
        cases v with
        | mapping found => exact (hother found hvalue).elim
        | scalar | list | set => rfl
  · rw [hfinal, hfound]
    rfl

theorem sharedResponses_bodies {produces : Value} (h : sharedResponses produces p = .ok p') :
    p'.bodies = p.bodies := by
  unfold sharedResponses at h
  split at h
  · obtain ⟨_, -, h⟩ := bind_eq_ok.mp h
    obtain ⟨_, -, h⟩ := bind_eq_ok.mp h
    rw [pure_eq_ok.mp h]
  · rw [pure_eq_ok.mp h]

theorem securityDefinitions_bodies (h : securityDefinitions p = .ok p') : p'.bodies = p.bodies := by
  unfold securityDefinitions at h
  split at h
  · obtain ⟨_, -, h⟩ := bind_eq_ok.mp h
    obtain ⟨_, -, h⟩ := bind_eq_ok.mp h
    rw [pure_eq_ok.mp h]
  · rw [pure_eq_ok.mp h]

end Bodies

theorem bodies_components {moved : Entries} {p : Progress} (h : components moved = .ok p) :
    p.bodies = bodiesOf moved := by
  unfold components at h
  obtain ⟨p₁, h₁, h⟩ := bind_eq_ok.mp h
  obtain ⟨p₂, h₂, h⟩ := bind_eq_ok.mp h
  obtain ⟨p₃, h₃, h₄⟩ := bind_eq_ok.mp h
  have hget : Entries.get? p₁.rest "parameters" = Entries.get? moved "parameters" :=
    ((definitions_leaves h₁).rest _ (by decide)).trans ((Entries.get?_putNew_of_ne (by decide)).trans
      ((Entries.get?_erase_of_ne (by decide)).trans (Entries.get?_erase_of_ne (by decide))))
  rw [securityDefinitions_bodies h₄, sharedResponses_bodies h₃, parameters_bodies h₂ (definitions_bodies h₁),
    bodiesOf, bodiesOf, Entries.get, Entries.get, hget]

/-- What the lift of a document makes of an item under its paths. -/
def itemOf (document item : Entries) : Except Fault Entries :=
  pathItem (consumesOf (moveInEntries document)) (producesOf (moveInEntries document))
    (bodiesOf (moveInEntries document)) (moveInEntries item)

end Lift

/-- The document with another item at a path. -/
def withItem (document before : Entries) (path : Scalar) (item after : Entries) : Entries :=
  Entries.replace document "paths" (.mapping (before ++ (path, .mapping item) :: after))

/-- **Another path item changes nothing else in the canonical document**, and has a canonical form if the lift
and the passes can do with it. -/
theorem exists_normalize_withItem {document before after item : Entries} {path : Scalar} {c : Canonical}
    (hswagger : Dialect.detect document = .ok .swagger) (hc : normalize document = .ok c)
    (hpaths : Entries.get? document "paths" = some (.mapping (before ++ (path, .mapping item) :: after)))
    (hpath : isReserved path = false) :
    ∃ lifted final before' after', Lift.itemOf document item = .ok lifted ∧
      canonical (.mapping lifted) = .ok (.mapping final) ∧
      Entries.get? c.data "paths" = some (.mapping (before' ++ (path, .mapping final) :: after')) ∧
      ∀ item' lifted' final', Lift.itemOf document item' = .ok lifted' →
        canonical (.mapping lifted') = .ok (.mapping final') →
        ∃ c', normalize (withItem document before path item' after) = .ok c' ∧ c'.self = c.self ∧
          c'.data = Entries.replace c.data "paths" (.mapping (before' ++ (path, .mapping final') :: after')) := by
  obtain ⟨dialect, lifted, hdialect, hlifted, hdata⟩ := normalize_eq_ok hc
  cases hdialect.symm.trans hswagger
  obtain ⟨p, found, hp, hfound, hget, hother⟩ := Lift.document_replace hlifted hpaths
  rw [Lift.bodies_components hp] at hfound hother
  have hmoved : ∀ item : Entries, moveAt (.text "paths") (.mapping (before ++ (path, .mapping item) :: after)) =
      .mapping (Lift.moveInEntries before ++ (path, .mapping (Lift.moveInEntries item)) :: Lift.moveInEntries after) := by
    intro item
    rw [moveAt_mapping rfl]
    simp only [Lift.moveInEntries_eq_map, List.map_append, List.map_cons]
    rw [Lift.moveAt_mapping_of_not_isReserved hpath, Lift.moveInEntries_eq_map item]
  rw [hmoved, Lift.pathItems_eq_ok] at hfound
  obtain ⟨found, rfl, hfound⟩ := hfound
  obtain ⟨before₁, ⟨path₁, v₁⟩, after₁, rfl, hbefore, ⟨hkey, hitem⟩, hafter⟩ := forall₂_marked.mp hfound
  obtain rfl : path₁ = path := hkey
  obtain ⟨item₁, hlift, hv₁⟩ := Lift.pathValue_eq_ok.mp hitem
  obtain rfl : Value.mapping item₁ = v₁ := hv₁
  have hsection : ∀ v, passes.foldlM (fun v pass => rewriteSection pass (.text "paths") v) v = canonical v := by
    have hpass : ∀ pass v, rewriteSection pass (.text "paths") v = rewritePart pass v := fun pass v =>
      rewriteSection_of_part fun h => h.elim (absurd · (by decide)) (absurd · (by decide))
    simp only [hpass]
    exact fun v => rfl
  obtain ⟨w, hw, hcanonical⟩ := (runPasses_eq_ok_iff.mp hdata).get?_eq_some hget
  rw [hsection] at hcanonical
  obtain ⟨final, rfl, hfinal⟩ := canonical_mapping.mp hcanonical
  obtain ⟨before₂, ⟨path₂, v₂⟩, after₂, rfl, hbefore₂, ⟨hkey, hitem₂⟩, hafter₂⟩ := forall₂_marked.mp hfinal
  obtain rfl : path₂ = path₁ := hkey
  rw [canonicalAt_of_not_isReserved hpath] at hitem₂
  obtain ⟨final, rfl, hentries⟩ := canonical_mapping.mp hitem₂
  refine ⟨item₁, final, before₂, after₂, hlift, hitem₂, hw, fun item' lifted' final' hlifted' hfinal' => ?_⟩
  have hfound' := hother (.mapping (before ++ (path₂, .mapping item') :: after))
    (.mapping (before₁ ++ (path₂, .mapping lifted') :: after₁)) ?_
  · have hcanonical' : canonical (.mapping (before₁ ++ (path₂, .mapping lifted') :: after₁)) =
        .ok (.mapping (before₂ ++ (path₂, .mapping final') :: after₂)) := by
      refine canonical_mapping.mpr ⟨_, rfl, forall₂_marked.mpr ⟨before₂, _, after₂, rfl, hbefore₂, ⟨rfl, ?_⟩, hafter₂⟩⟩
      exact (canonicalAt_of_not_isReserved hpath _).trans hfinal'
    refine ⟨_, normalize_of_steps (detect_replace.trans hswagger) hfound' (runPasses_replace hdata hcanonical'), ?_, rfl⟩
    rw [self_of_normalize hc]
    show (Entries.get (Entries.replace _ "paths" _) "$self").text? = _
    rw [Entries.get_replace_of_ne (by decide)]
  · rw [hmoved, Lift.pathItems_eq_ok]
    refine ⟨_, rfl, forall₂_marked.mpr ⟨before₁, _, after₁, rfl, hbefore, ⟨rfl, ?_⟩, hafter⟩⟩
    exact Lift.pathValue_eq_ok.mpr ⟨lifted', hlifted', rfl⟩

end ContractSync.Contract
