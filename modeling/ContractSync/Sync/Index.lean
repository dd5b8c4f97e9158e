import ContractSync.Edit.Apply
import ContractSync.Emit.Registration

/-!
# The index of modules

The index declares a module for each group of handlers. New declarations go behind the first line, in
alphabetical order.
-/

namespace ContractSync.Sync

/-- The text of the index with a declaration for each group. -/
def updateIndex (source : List Char) (groups : List String) : List Char :=
  let start := if source.isEmpty then Emit.indexHeader.toList else source
  (groups.mergeSort fun a b => decide (b ≤ a)).foldl
    (fun source group => Edit.addImport source (Emit.groupDeclaration group)) start

end ContractSync.Sync
