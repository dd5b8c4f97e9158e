import ContractSync.Name.Unique
import Mathlib.Data.List.Forall2
import Mathlib.Data.List.Nodup

/-!
# When claimed names are distinct

The names that a table gives out are determined by the requests alone: the `n`th request of a base
gets the name `numbered base n` (`claimAll_eq`). The table remembers bases, not the names it made, so
a made name can also be asked for as a base. **The names are pairwise distinct exactly if that does
not happen** (`claimAll_nodup_iff`): no base is the name that a repeated base is given (`NoClash`).

Two made names never meet, since the number behind the last underscore tells them apart
(`suffixed_injective`).
-/

namespace ContractSync.Name

/-- The name of a request of `base` that is not the first. -/
def suffixed (base : String) (n : Nat) : String := base ++ "_" ++ toString n

/-- The name of the `n`th request of `base`. -/
def numbered (base : String) (n : Nat) : String := if n = 1 then base else suffixed base n

/-- No base is the name that a repeated base is given. -/
def NoClash (bases : List String) : Prop :=
  ∀ base n, 2 ≤ n → n ≤ bases.count base → suffixed base n ∉ bases

/-! ### Made names -/

theorem underscore_notMem_toString (n : Nat) : '_' ∉ (toString n).toList := by
  intro h
  have hdigit : ('_' : Char).isDigit = true := by
    rw [Nat.toString_eq_repr, Nat.toList_repr] at h
    exact Nat.isDigit_of_mem_toDigits (by decide) (by decide) h
  cases hdigit

/-- What stands behind the last occurrence of a letter determines what stands before it. -/
theorem append_cons_inj_of_notMem {α : Type} {x y u v : List α} {a : α} (hu : a ∉ u) (hv : a ∉ v)
    (h : x ++ a :: u = y ++ a :: v) : x = y ∧ u = v := by
  rcases List.append_eq_append_iff.mp h with ⟨m, rfl, hm⟩ | ⟨m, rfl, hm⟩
  · cases m with
    | nil => simpa using hm
    | cons b m =>
      rw [List.cons_append, List.cons.injEq] at hm
      exact absurd (hm.2 ▸ List.mem_append_right m List.mem_cons_self) hu
  · cases m with
    | nil => simpa using hm.symm
    | cons b m =>
      rw [List.cons_append, List.cons.injEq] at hm
      exact absurd (hm.2 ▸ List.mem_append_right m List.mem_cons_self) hv

theorem toString_injective {n n' : Nat} (h : (toString n).toList = (toString n').toList) :
    n = n' := by
  rw [Nat.toString_eq_repr, Nat.toString_eq_repr, Nat.toList_repr, Nat.toList_repr] at h
  have hread := congrArg (fun digits => Nat.ofDigitChars 10 digits 0) h
  simpa using hread

theorem suffixed_toList (base : String) (n : Nat) :
    (suffixed base n).toList = base.toList ++ '_' :: (toString n).toList := by
  simp [suffixed]

theorem suffixed_injective {base base' : String} {n n' : Nat}
    (h : suffixed base n = suffixed base' n') : base = base' ∧ n = n' := by
  have hlist := congrArg String.toList h
  rw [suffixed_toList, suffixed_toList] at hlist
  obtain ⟨hbase, hnum⟩ := append_cons_inj_of_notMem (underscore_notMem_toString n)
    (underscore_notMem_toString n') hlist
  exact ⟨String.toList_inj.mp hbase, toString_injective hnum⟩

/-- Bases without underscores meet no made name. -/
theorem noClash_of_underscore_free {bases : List String}
    (h : ∀ base ∈ bases, '_' ∉ base.toList) : NoClash bases := by
  intro base n _ _ hmem
  refine h _ hmem ?_
  rw [suffixed_toList]
  exact List.mem_append_right _ List.mem_cons_self

/-! ### What the table counts -/

/-- The table has counted exactly the requests in `seen`. -/
def Table.Counts (table : Table) (seen : List String) : Prop :=
  ∀ base, table.count base = seen.count base

theorem counts_empty : Table.Counts {} [] := fun _ => rfl

theorem lookup_increment (counts : List (String × Nat)) (base other : String) :
    (counts.map fun entry => if entry.1 == base then (base, entry.2 + 1) else entry).lookup other =
      (counts.lookup other).map fun n => if other = base then n + 1 else n := by
  induction counts with
  | nil => rfl
  | cons entry rest ih =>
    obtain ⟨key, n⟩ := entry
    by_cases hkey : key = base
    · subst hkey
      by_cases hother : other = key
      · simp [hother]
      · simpa [hother, beq_false_of_ne hother, List.lookup_cons] using ih
    · by_cases hother : other = key
      · subst hother
        simp [hkey]
      · simpa [hkey, beq_false_of_ne hother, List.lookup_cons] using ih

theorem count_bump (table : Table) (base other : String) :
    (table.bump base).count other = table.count other + if other = base then 1 else 0 := by
  have hany_iff : table.counts.any (·.1 == base) = (table.counts.lookup base).isSome := by
    rw [Bool.eq_iff_iff, List.any_eq_true, List.lookup_isSome_iff]
    simp only [beq_iff_eq, @eq_comm String base]
  unfold Table.bump
  by_cases hany : table.counts.any (·.1 == base) = true
  · rw [if_pos hany, Table.count, lookup_increment]
    by_cases e : other = base
    · subst e
      obtain ⟨n, hn⟩ := Option.isSome_iff_exists.mp (hany_iff ▸ hany)
      simp [Table.count, hn]
    · simp [Table.count, e]
  · rw [if_neg hany, Table.count, List.lookup_append]
    by_cases e : other = base
    · subst e
      have hn := Option.not_isSome_iff_eq_none.mp (hany_iff ▸ hany)
      simp [Table.count, hn]
    · simp [Table.count, List.lookup_cons, List.lookup_nil, e, beq_false_of_ne e]

theorem Table.Counts.bump {table : Table} {seen : List String} (h : table.Counts seen)
    (base : String) : (table.bump base).Counts (base :: seen) := by
  intro other
  rw [count_bump, h other, List.count_cons]
  by_cases e : other = base
  · simp [e]
  · simp [e, Ne.symm e]

/-! ### The names that are given out -/

/-- The requests, each with its number among those of the same base. `seen` are the requests before. -/
def requests (seen : List String) : List String → List (String × Nat)
  | [] => []
  | base :: rest => (base, seen.count base + 1) :: requests (base :: seen) rest

theorem claimAll_eq_requests {table : Table} {seen : List String} (h : table.Counts seen)
    (bases : List String) :
    table.claimAll bases = (requests seen bases).map fun r => numbered r.1 r.2 := by
  induction bases generalizing table seen with
  | nil => rfl
  | cons base rest ih =>
    rw [requests, List.map_cons, Table.claimAll]
    have hcount := h.bump base base
    rw [List.count_cons_self] at hcount
    simp only [Table.claim, hcount, ih (h.bump base)]
    rfl

theorem mem_requests {seen bases : List String} {base : String} {n : Nat} :
    (base, n) ∈ requests seen bases ↔
      seen.count base < n ∧ n ≤ seen.count base + bases.count base := by
  induction bases generalizing seen with
  | nil =>
    simp [requests]
  | cons b rest ih =>
    rw [requests, List.mem_cons, ih, Prod.mk.injEq, List.count_cons, List.count_cons]
    by_cases h : b = base
    · subst h
      simp only [true_and, beq_self_eq_true, if_true]
      omega
    · simp only [h, Ne.symm h, beq_iff_eq, if_false, false_and, false_or, Nat.add_zero]

/-- Each name that is given out is that of its base, with some number. -/
theorem claimAll_forall₂ (bases : List String) :
    List.Forall₂ (fun base name => ∃ n, name = numbered base n) bases (Table.claimAll {} bases) := by
  rw [claimAll_eq_requests counts_empty, List.forall₂_map_right_iff]
  generalize [] = seen
  induction bases generalizing seen with
  | nil => exact .nil
  | cons base rest ih => exact .cons ⟨_, rfl⟩ (ih (base :: seen))

/-- The name that a request is given depends on how often its base was asked for before. -/
theorem claimAll_getElem? (bases : List String) (i : Nat) : (Table.claimAll {} bases)[i]? =
    bases[i]?.map fun base => numbered base ((bases.take i).count base + 1) := by
  have hrequests : ∀ seen : List String, (requests seen bases)[i]? =
      bases[i]?.map fun base => (base, seen.count base + (bases.take i).count base + 1) := by
    induction bases generalizing i with
    | nil => exact fun _ => rfl
    | cons base rest ih =>
      intro seen
      cases i with
      | zero => rfl
      | succ i =>
        rw [requests, List.getElem?_cons_succ, List.getElem?_cons_succ, ih, List.take_succ_cons]
        refine congrArg (Option.map · rest[i]?) (funext fun other => ?_)
        have hsum : ∀ a b c : Nat, a + b + c + 1 = a + (c + b) + 1 := by omega
        rw [List.count_cons, List.count_cons, hsum]
  rw [claimAll_eq_requests counts_empty, List.getElem?_map, hrequests, Option.map_map]
  exact congrArg (Option.map · bases[i]?) (funext fun base => by
    rw [Function.comp, List.count_nil, Nat.zero_add])

theorem nodup_requests (seen bases : List String) : (requests seen bases).Nodup := by
  induction bases generalizing seen with
  | nil => exact List.nodup_nil
  | cons base rest ih =>
    rw [requests, List.nodup_cons, mem_requests, List.count_cons_self]
    exact ⟨by omega, ih _⟩

/-- **Claimed names are pairwise distinct exactly if no base is a name that a repeated base is
given.** -/
theorem claimAll_nodup_iff (bases : List String) :
    (Table.claimAll {} bases).Nodup ↔ NoClash bases := by
  rw [claimAll_eq_requests counts_empty, List.nodup_map_iff_inj_on (nodup_requests [] bases)]
  have hmem : ∀ base n, (base, n) ∈ requests [] bases ↔ 0 < n ∧ n ≤ bases.count base := by
    intro base n
    rw [mem_requests, List.count_nil, Nat.zero_add]
  constructor
  · intro hinj base n htwo hn hbase
    -- the first request of the made name and the request it was made for get the same name
    have hfirst := (hmem (suffixed base n) 1).mpr ⟨by omega, List.count_pos_iff.mpr hbase⟩
    have hlater := (hmem base n).mpr ⟨by omega, hn⟩
    have hsame : numbered (suffixed base n) 1 = numbered base n := by
      rw [numbered, numbered, if_pos rfl, if_neg (by omega)]
    have heq := congrArg Prod.snd (hinj _ hfirst _ hlater hsame)
    simp only at heq
    omega
  · rintro hclash ⟨base, n⟩ hr ⟨base', n'⟩ hr' hsame
    rw [hmem] at hr hr'
    simp only [numbered] at hsame
    split at hsame
    · split at hsame
      · simp_all
      · refine absurd ?_ (hclash base' n' (by omega) hr'.2)
        rw [← hsame]
        exact List.count_pos_iff.mp (by omega)
    · split at hsame
      · refine absurd ?_ (hclash base n (by omega) hr.2)
        rw [hsame]
        exact List.count_pos_iff.mp (by omega)
      · obtain ⟨rfl, rfl⟩ := suffixed_injective hsame
        rfl

/-! ### One table for several sequences of requests -/

/-- The table after a sequence of requests. -/
def Table.after (table : Table) (bases : List String) : Table := bases.foldl Table.bump table

theorem claimAll_append (table : Table) (bases more : List String) :
    table.claimAll (bases ++ more) = table.claimAll bases ++ (table.after bases).claimAll more := by
  induction bases generalizing table with
  | nil => rfl
  | cons base rest ih =>
    rw [List.cons_append, Table.claimAll, Table.claimAll, List.cons_append]
    exact congrArg _ (ih (table.bump base))

theorem after_append (table : Table) (bases more : List String) :
    table.after (bases ++ more) = (table.after bases).after more := by
  rw [Table.after, List.foldl_append]
  rfl

end ContractSync.Name
