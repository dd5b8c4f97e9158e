import ContractSync.Proofs.Model.Notes
import ContractSync.Route.Parameter

/-!
# Objects and references to them

An object may be given by a reference, which is followed once. **What is found does not depend on what was noted
before** (`follow_yields`), nor does what a parameter comes to (`Parameter.ofValue_onlyNotes`).
-/

namespace ContractSync.Route

open ContractSync.Contract (Canonical)
open ContractSync.Document
open Resolving (OnlyNotes)

variable {doc : Canonical} {family context : String} {v : Value}

/-- The object that a reference leads to; a further reference is none. -/
def referent? : Option Value → Option Entries
  | some (.mapping target) => if Entries.has target "$ref" then none else some target
  | _ => none

/-- The object that a value is or refers to. -/
def found? (doc : Canonical) (family : String) (v : Value) : Option Entries :=
  match v with
  | .mapping entries =>
    match (Entries.get entries "$ref").text? with
    | some ref => (target? doc family ref).toOption.bind referent?
    | none => some entries
  | _ => none

theorem found?_of_reference {entries : Entries} {ref : String} (h : Entries.get entries "$ref" = .text ref) :
    found? doc family (.mapping entries) = (target? doc family ref).toOption.bind referent? := by
  rw [found?, h]
  rfl

theorem found?_of_object {entries : Entries} (h : ∀ ref, Entries.get entries "$ref" ≠ .text ref) :
    found? doc family (.mapping entries) = some entries := by
  have hplain : (Entries.get entries "$ref").text? = none := by
    unfold Value.text?
    split
    · exact absurd ‹_› (h _)
    · rfl
  rw [found?, hplain]

theorem referent?_eq_none {target : Option Value} (h : ∀ entries, target ≠ some (.mapping entries)) :
    referent? target = none := by
  unfold referent?
  split
  · exact absurd rfl (h _)
  · rfl

theorem follow_yields {found : Option Entries} (h : (follow doc family context v).Yields found) :
    found = found? doc family v := by
  have hnote : ∀ {ref}, Resolving.Yields (do noteUnresolved ref context; return none) found → found = none := by
    intro ref h
    obtain ⟨-, -, h⟩ := h.bind
    exact h.pure
  cases v with
  | mapping entries =>
    unfold follow at h
    simp only at h
    split at h
    · rename_i ref href
      obtain ⟨target, htarget, h⟩ := h.bind
      have hfound : (target? doc family ref).toOption = some target := by
        rw [htarget.lift]
        rfl
      rw [found?_of_reference href, hfound, Option.bind_some]
      split at h
      · rename_i entries
        rw [referent?]
        split at h <;> rename_i hfurther
        · rw [hnote h, if_pos hfurther]
        · rw [h.pure, if_neg hfurther]
      · rename_i hother
        rw [hnote h, referent?_eq_none hother]
    · rename_i hplain
      rw [h.pure, found?_of_object hplain]
  | scalar | list | set => exact h.pure

theorem follow_onlyNotes (family context : String) (v : Value) : OnlyNotes (follow doc family context v) := by
  have hnote : ∀ ref, OnlyNotes (do noteUnresolved ref context; return (none : Option Entries)) := fun ref =>
    .bind (.note ref context) fun _ => .pure _
  cases v with
  | mapping entries =>
    unfold follow
    simp only
    split
    · refine .bind (.lift _) fun target => ?_
      split
      · split
        · exact hnote _
        · exact .pure _
      · exact hnote _
    · exact .pure _
  | scalar | list | set => exact .pure _

namespace Parameter

theorem typeOf_onlyNotes (entries : Entries) : OnlyNotes (typeOf doc entries) := by
  unfold typeOf
  split
  · exact .bind (Schema.resolve_onlyNotes _ _) fun _ => .pure _
  · exact .bind (Schema.resolve_onlyNotes _ _) fun _ => .pure _
  · exact .pure _

theorem ofEntries_onlyNotes (entries : Entries) : OnlyNotes (ofEntries doc entries) := by
  unfold ofEntries
  simp only
  split
  · split
    · split
      · exact .pure _
      · exact .bind (typeOf_onlyNotes entries) fun _ => .pure _
    · exact .pure _
  · exact .pure _

theorem ofValue_onlyNotes (v : Value) : OnlyNotes (ofValue doc v) := by
  unfold ofValue
  refine .bind (follow_onlyNotes _ _ v) fun found => ?_
  cases found with
  | none => exact .pure _
  | some entries => exact ofEntries_onlyNotes entries

end Parameter

end ContractSync.Route
