import ContractSync.Route.Parameter
import Mathlib.Data.List.Induction
import Mathlib.Data.List.Nodup

/-!
# Merged parameters

A parameter is merged into a list under its key, its name and its place. **A merged list has each key once, in
the order in which the keys were met** (`map_key_foldl_merge`), **and under each key the last parameter that was
met with it** (`mem_foldl_merge_iff`).
-/

namespace ContractSync

section EraseDups

variable {α : Type} [BEq α] [LawfulBEq α] {items : List α} {a : α}

theorem eraseDups_concat_of_mem (h : a ∈ items) : (items ++ [a]).eraseDups = items.eraseDups := by
  rw [List.eraseDups_append]
  simp [List.removeAll, h]

theorem eraseDups_concat_of_notMem (h : a ∉ items) : (items ++ [a]).eraseDups = items.eraseDups ++ [a] := by
  rw [List.eraseDups_append]
  simp [List.removeAll, h, List.eraseDups_cons]

end EraseDups

end ContractSync

namespace ContractSync.Route.Parameter

variable {p q : Parameter} {ps found : List Parameter}

/-! ### Keys -/

/-- What a parameter is overridden by. -/
def key (p : Parameter) : String × Place := (p.name, p.place)

theorem sameKey_iff : p.sameKey q = true ↔ p.name = q.name ∧ p.place = q.place := by
  rw [sameKey, Bool.and_eq_true, beq_iff_eq, beq_iff_eq]

theorem key_eq_iff : p.key = q.key ↔ p.sameKey q = true := by
  rw [sameKey_iff, key, key, Prod.mk.injEq]

theorem sameKey_comm (p q : Parameter) : p.sameKey q = q.sameKey p := by
  rw [Bool.eq_iff_iff, sameKey_iff, sameKey_iff]
  exact ⟨fun h => ⟨h.1.symm, h.2.symm⟩, fun h => ⟨h.1.symm, h.2.symm⟩⟩

theorem any_sameKey_iff : ps.any (·.sameKey p) = true ↔ p.key ∈ ps.map key := by
  rw [List.any_eq_true, List.mem_map]
  exact exists_congr fun q => and_congr_right fun _ => key_eq_iff.symm

/-! ### One more parameter -/

/-- The one parameter takes the place of the other where it overrides it. -/
def overriding (p r : Parameter) : Parameter := if r.sameKey p then p else r

theorem merge_eq (ps : List Parameter) (p : Parameter) :
    merge ps p = if ps.any (·.sameKey p) then ps.map (overriding p) else ps ++ [p] := rfl

theorem key_overriding (p r : Parameter) : (overriding p r).key = r.key := by
  unfold overriding
  split
  · rename_i hsame
    exact (key_eq_iff.mpr hsame).symm
  · rfl

/-- A key that is there keeps its place, a new one comes last. -/
theorem map_key_merge (ps : List Parameter) (p : Parameter) :
    (merge ps p).map key = if p.key ∈ ps.map key then ps.map key else ps.map key ++ [p.key] := by
  rw [merge_eq]
  by_cases hmem : p.key ∈ ps.map key
  · rw [if_pos (any_sameKey_iff.mpr hmem), if_pos hmem, List.map_map]
    exact List.map_congr_left fun q _ => key_overriding p q
  · rw [if_neg (mt any_sameKey_iff.mp hmem), if_neg hmem, List.map_append, List.map_singleton]

/-- The new parameter is there, and those that it does not override stay. -/
theorem mem_merge_iff : q ∈ merge ps p ↔ q = p ∨ q ∈ ps ∧ q.key ≠ p.key := by
  rw [merge_eq]
  by_cases hany : ps.any (·.sameKey p) = true
  · rw [if_pos hany, List.mem_map]
    constructor
    · rintro ⟨r, hr, rfl⟩
      unfold overriding
      split
      · exact .inl rfl
      · rename_i hsame
        exact .inr ⟨hr, mt key_eq_iff.mp hsame⟩
    · rintro (rfl | ⟨hq, hkey⟩)
      · obtain ⟨r, hr, hsame⟩ := List.any_eq_true.mp hany
        exact ⟨r, hr, if_pos hsame⟩
      · exact ⟨q, hq, if_neg (mt key_eq_iff.mpr hkey)⟩
  · rw [if_neg hany, List.mem_append, List.mem_singleton, or_comm]
    refine or_congr_right ⟨fun hq => ⟨hq, fun hkey => hany ?_⟩, And.left⟩
    exact any_sameKey_iff.mpr (hkey ▸ List.mem_map_of_mem hq)

/-! ### Many parameters -/

theorem mem_of_mem_foldl_merge (h : q ∈ found.foldl merge ps) : q ∈ ps ∨ q ∈ found := by
  induction found generalizing ps with
  | nil => exact .inl h
  | cons p found ih =>
    rcases ih h with h | h
    · rcases mem_merge_iff.mp h with rfl | ⟨hmem, -⟩
      · exact .inr List.mem_cons_self
      · exact .inl hmem
    · exact .inr (List.mem_cons_of_mem p h)

/-- **The keys of merged parameters** are the keys that were met, each in its first place. -/
theorem map_key_foldl_merge (found : List Parameter) :
    (found.foldl merge []).map key = (found.map key).eraseDups := by
  -- The parameter that is merged last decides, so the list is taken apart at its end.
  induction found using List.reverseRecOn with
  | nil => rfl
  | append_singleton found p ih =>
    rw [List.foldl_append, List.foldl_cons, List.foldl_nil, map_key_merge, ih, List.map_append,
      List.map_singleton]
    by_cases hmem : p.key ∈ found.map key
    · rw [if_pos (List.mem_eraseDups.mpr hmem), eraseDups_concat_of_mem hmem]
    · rw [if_neg (mt List.mem_eraseDups.mp hmem), eraseDups_concat_of_notMem hmem]

theorem nodup_foldl_merge (found : List Parameter) : ((found.foldl merge []).map key).Nodup := by
  induction found using List.reverseRecOn with
  | nil => exact List.nodup_nil
  | append_singleton found p ih =>
    rw [List.foldl_append, List.foldl_cons, List.foldl_nil, map_key_merge]
    split
    · exact ih
    · rename_i hmem
      rw [List.nodup_append_comm, List.singleton_append, List.nodup_cons]
      exact ⟨hmem, ih⟩

/-- **The merged parameters** are those that none with their key came after. -/
theorem mem_foldl_merge_iff : p ∈ found.foldl merge [] ↔
    ∃ first later, found = first ++ p :: later ∧ ∀ q ∈ later, q.key ≠ p.key := by
  induction found using List.reverseRecOn with
  | nil => simp
  | append_singleton found r ih =>
    rw [List.foldl_append, List.foldl_cons, List.foldl_nil, mem_merge_iff, ih]
    constructor
    · rintro (rfl | ⟨⟨first, later, rfl, hlater⟩, hkey⟩)
      · exact ⟨found, [], rfl, List.forall_mem_nil _⟩
      · refine ⟨first, later ++ [r], by simp, List.forall_mem_append.mpr ⟨hlater, ?_⟩⟩
        exact List.forall_mem_singleton.mpr (Ne.symm hkey)
    · rintro ⟨first, later, hfound, hlater⟩
      rcases later.eq_nil_or_concat with rfl | ⟨later, last, rfl⟩
      · exact .inl (List.append_inj_right' hfound rfl |> List.singleton_inj.mp).symm
      · rw [List.concat_eq_append] at hfound hlater
        rw [← List.cons_append, ← List.append_assoc] at hfound
        obtain ⟨rfl, hlast⟩ := List.append_inj' hfound rfl
        obtain rfl := List.singleton_inj.mp hlast
        obtain ⟨hlater, hlast⟩ := List.forall_mem_append.mp hlater
        exact .inr ⟨⟨first, later, rfl, hlater⟩, (List.forall_mem_singleton.mp hlast).symm⟩

end ContractSync.Route.Parameter
