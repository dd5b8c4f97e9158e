import ContractSync.Fault

/-!
# Diagnostics

A reference that leads nowhere does not stop the work on a document: it is noted, and a placeholder
takes the place of its target. Each reference is noted once for each kind of place it stands in.
-/

namespace ContractSync

/-- A reference that leads nowhere, and what was looked for. -/
structure Unresolved where
  ref : String
  context : String
  deriving DecidableEq, Repr

namespace Unresolved

/-- The note in words. -/
def message (u : Unresolved) : String :=
  "Unresolved reference '" ++ u.ref ++ "' (" ++ u.context ++ ")"

end Unresolved

/-- The unresolved references met so far, in order. -/
structure Diagnostics where
  unresolved : List Unresolved := []
  deriving DecidableEq, Repr

namespace Diagnostics

/-- Notes a reference unless it is noted already. -/
def note (d : Diagnostics) (u : Unresolved) : Diagnostics :=
  if d.unresolved.contains u then d else ⟨d.unresolved ++ [u]⟩

/-- The notes in words. -/
def messages (d : Diagnostics) : List String := d.unresolved.map Unresolved.message

theorem mem_note (d : Diagnostics) (u v : Unresolved) :
    v ∈ (d.note u).unresolved ↔ v ∈ d.unresolved ∨ v = u := by
  unfold note
  split
  · rename_i h
    have hu : u ∈ d.unresolved := by simpa using h
    constructor
    · exact Or.inl
    · rintro (h | rfl)
      · exact h
      · exact hu
  · simp

theorem nodup_note {d : Diagnostics} (h : d.unresolved.Nodup) (u : Unresolved) :
    (d.note u).unresolved.Nodup := by
  unfold note
  split
  · exact h
  · rename_i hu
    have hu : u ∉ d.unresolved := by simpa using hu
    exact List.nodup_append.2 ⟨h, by simp, fun a ha b hb => by
      rw [List.mem_singleton.1 hb]; exact fun e => hu (e ▸ ha)⟩

end Diagnostics

/-- Work on a document that notes references on the way and may stop with a fault. What was noted
before a fault is kept. -/
abbrev Resolving := ExceptT Fault (StateM Diagnostics)

/-- The result of the work and what was noted. -/
def Resolving.collect (work : Resolving α) : Except Fault α × Diagnostics := StateT.run work.run {}

/-- Notes a reference that leads nowhere. -/
def noteUnresolved (ref context : String) : Resolving Unit :=
  modify fun d => d.note ⟨ref, context⟩

end ContractSync
