import ContractSync.Edit.Apply
import ContractSync.Emit.Declaration
import ContractSync.Sync.Block

/-!
# The file of models

A file of models follows the schemas of a document. Declarations that are missing are appended; those
that are there get the fields and derived traits they lack.
-/

namespace ContractSync.Sync

open ContractSync.Rust (ItemKind)

/-- The text with the declarations of models at its end. -/
def appendModels (source : List Char) (models : List Model) : List Char :=
  models.foldl (fun source m => appendBlock source (Emit.modelDeclaration m).toList) source

/-- The text of a new file. -/
def freshModels (models : List Model) : List Char :=
  appendModels ("\n".intercalate (Emit.modelImports models) ++ "\n").toList models

/-- The kinds of items that declare models. -/
def modelKinds : List ItemKind := [.struct_, .enum_, .typeAlias]

/-- The text with the imports that models need. -/
def importModels (source : List Char) (models : List Model) : List Char :=
  (Emit.modelImports models).reverse.foldl Edit.addImport source

/-- The kind of the item that declares a name. -/
def declaredKind? (tree : Rust.Tree) (name : String) : Option ItemKind :=
  (tree.find? name modelKinds).bind (·.itemKind?)

/-- The text with the fields that a model gives to its structure. -/
def addFields (path : Option String) (source : List Char) (model : Model) :
    Except SyncError (List Char) :=
  match model.shape with
  | .record fields =>
    fields.foldlM (fun source f =>
      let text := Emit.fieldText f
      Edit.addField source model.name text.name text.type "pub" text.attributes path) source
  | _ => .ok source

/-- The text with the traits that a declaration derives. -/
def addDerives (path : Option String) (source : List Char) (name : String) :
    Except SyncError (List Char) :=
  Emit.modelDerives.foldlM
    (fun source derived => Edit.addAttribute source name derived (some "derive") path) source

/-- The text with all that a model asks of its declaration, which is an item of some kind. -/
def refresh (path : Option String) (source : List Char) (model : Model) (kind : ItemKind) :
    Except SyncError (List Char) := do
  match kind with
  | .struct_ => addDerives path (← addFields path source model) model.name
  | .enum_ => addDerives path source model.name
  | _ => return source

/-- The text of a file of models, brought up to date. -/
def updateModels (source : List Char) (models : List Model) (path : Option String := none) :
    Except SyncError (List Char) := do
  if Text.isAllBlank source then return freshModels models
  let imported := importModels source models
  let tree ← Edit.readSource imported path
  let refreshed ← models.foldlM (fun source model =>
    match declaredKind? tree model.name with
    | some kind => refresh path source model kind
    | none => .ok source) imported
  return appendModels refreshed (models.filter fun m => (declaredKind? tree m.name).isNone)

end ContractSync.Sync
