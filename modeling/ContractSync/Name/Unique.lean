/-!
# Distinct names

A table counts how often each base name was asked for; a repeated base gets its count as suffix.
-/

namespace ContractSync.Name

/-- How often each base name was asked for, in the order of first requests. -/
structure Table where
  counts : List (String × Nat) := []

namespace Table

/-- The requests made for `base` so far. -/
def count (table : Table) (base : String) : Nat := (table.counts.lookup base).getD 0

/-- Counts one more request for `base`. -/
def bump (table : Table) (base : String) : Table :=
  if table.counts.any (·.1 == base) then
    ⟨table.counts.map fun entry => if entry.1 == base then (base, entry.2 + 1) else entry⟩
  else ⟨table.counts ++ [(base, 1)]⟩

/-- The name for one more request of `base`: itself at first, then `base_2`, `base_3`, … -/
def claim (table : Table) (base : String) : String × Table :=
  let table := table.bump base
  let count := table.count base
  (if count = 1 then base else base ++ "_" ++ toString count, table)

/-- The names for a sequence of requests. -/
def claimAll (table : Table) : List String → List String
  | [] => []
  | base :: rest =>
    let (name, table) := table.claim base
    name :: table.claimAll rest

end Table

end ContractSync.Name
