import ContractSync.Proofs.Edit.Import
import ContractSync.Proofs.Emit.WireName
import ContractSync.Proofs.Model.Names
import ContractSync.Proofs.Name.Bare
import ContractSync.Proofs.Sync.Retype
import ContractSync.Proofs.Text.Parts

/-!
# Generated files of models stay as they are

A file of models has the imports that its models ask for (`importModels_eq`), and each declaration has the
fields and derives the traits that its model asks for (`refresh_eq`), also where its fields were given other
types. **So a generated file is a fixed point**: with its overrides applied, neither a second update nor the
overrides change it (`updateModels_settled`).
-/

namespace ContractSync.Sync

open Emit (IsModelItem modelDeclaration modelImports)
open Rust (ItemKind Node Span Tree)

/-! ### Imports -/

theorem addImport_eq_self {source : List Char} {line : String} (hline : line ∈ importLines)
    (hthere : line.toList ∈ Text.lines source) : Edit.addImport source line = source := by
  have hplain : ∀ line ∈ importLines, Text.trim line.toList = line.toList ∧ '\n' ∉ line.toList := by
    decide
  obtain ⟨htrim, hnewline⟩ := hplain line hline
  have hhas := (Edit.hasImport_eq_true_iff hnewline).mpr ⟨_, hthere, rfl⟩
  rw [Edit.addImport, htrim]
  exact if_pos hhas

theorem mem_lines_withEnds {lines : List String} (h : ∀ line ∈ lines, line ∈ importLines) (rest : List Char) :
    ∀ line ∈ lines, line.toList ∈ Text.lines (withEnds lines ++ rest) := by
  have hplain : ∀ line ∈ importLines, ∀ c ∈ line.toList, Text.isLineBoundary c = false := by decide
  induction lines with
  | nil => exact List.forall_mem_nil _
  | cons line lines ih =>
    obtain ⟨hline, hlines⟩ := List.forall_mem_cons.mp h
    have htext : withEnds (line :: lines) ++ rest = line.toList ++ '\n' :: (withEnds lines ++ rest) := by
      simp [withEnds]
    rw [htext, Text.lines_line (hplain line hline)]
    exact List.forall_mem_cons.mpr ⟨List.mem_cons_self, fun other hother =>
      List.mem_cons_of_mem _ (ih hlines other hother)⟩

/-- **The imports of models are there.** -/
theorem importModels_eq (models : List Model) (rest : List Char) :
    importModels (modelHead models ++ rest) models = modelHead models ++ rest := by
  have hlines : ∀ line ∈ modelImports models, line ∈ importLines := fun _ h => mem_importLines h
  have hthere := mem_lines_withEnds hlines rest
  have hall : ∀ line ∈ (modelImports models).reverse,
      Edit.addImport (modelHead models ++ rest) line = modelHead models ++ rest := fun line hline =>
    addImport_eq_self (hlines line (List.mem_reverse.mp hline)) (hthere line (List.mem_reverse.mp hline))
  rw [importModels]
  generalize (modelImports models).reverse = lines at hall
  induction lines with
  | nil => rfl
  | cons line lines ih =>
    obtain ⟨hline, hlines⟩ := List.forall_mem_cons.mp hall
    rw [List.foldl_cons, hline, ih hlines]

/-! ### Fields and traits -/

/-- Steps that change nothing. -/
theorem foldlM_eq_self {σ ω ε : Type} {step : σ → ω → Except ε σ} {s : σ} {items : List ω}
    (h : ∀ item ∈ items, step s item = .ok s) : items.foldlM step s = .ok s := by
  induction items with
  | nil => rfl
  | cons item items ih =>
    obtain ⟨hitem, hitems⟩ := List.forall_mem_cons.mp h
    rw [List.foldlM_cons, hitem]
    exact ih hitems

section Declared

variable {source : List Char} {tree : Tree} {m : Model} {path : Option String}

/-- The text declares the model: its item is found with its fields, and with its traits. -/
structure Declares (source : List Char) (tree : Tree) (m : Model) : Prop where
  parsed : Rust.parse source = .ok tree
  found : ∃ n, (∀ kinds, m.shape.itemKind ∈ kinds → .use ∉ kinds → tree.find? m.name kinds = some n) ∧
    n.itemKind? = some m.shape.itemKind ∧ (∀ name ∈ m.shape.fields.map (·.name), (n.field? name).isSome) ∧
    (m.shape.itemKind ≠ .typeAlias → ∃ args ∈ Edit.groupArgs n "derive",
      Edit.between source args = (", ".intercalate Emit.modelDerives).toList)

theorem Declares.declaredKind?_eq (h : Declares source tree m) :
    declaredKind? tree m.name = some m.shape.itemKind := by
  obtain ⟨n, hfound, hkind, -⟩ := h.found
  have hmem : m.shape.itemKind ∈ modelKinds ∧ ItemKind.use ∉ modelKinds := by
    refine ⟨?_, by decide⟩
    cases m.shape <;> simp [Model.Shape.itemKind, modelKinds]
  rw [declaredKind?, hfound modelKinds hmem.1 hmem.2, Option.bind_some, hkind]

/-- Its fields are there. -/
theorem Declares.addFields_eq (h : Declares source tree m) : addFields path source m = .ok source := by
  obtain ⟨n, hfound, -, hfields, -⟩ := h.found
  rw [addFields]
  cases hshape : m.shape with
  | record fields =>
    rw [hshape] at hfound hfields
    refine foldlM_eq_self fun f hf => ?_
    have htarget : Edit.target tree m.name [.struct_] path = .ok n :=
      Edit.target_eq_ok.mpr (hfound [.struct_] List.mem_cons_self (by decide))
    have hfield : (n.field? (Emit.fieldText f).name).isSome = true := hfields _ (List.mem_map_of_mem hf)
    simp only [Edit.addField, Edit.readSource_eq_ok.mpr h.parsed, htarget, bind, Except.bind, hfield, if_true]
    rfl
  | union | literals | «alias» => rfl

/-- Its traits are there. -/
theorem Declares.addDerives_eq (h : Declares source tree m) (hkind : m.shape.itemKind ∈ [.struct_, .enum_]) :
    addDerives path source m.name = .ok source := by
  obtain ⟨n, hfound, -, -, hderives⟩ := h.found
  have hnot : m.shape.itemKind ≠ .typeAlias := fun heq => by
    rw [heq] at hkind
    exact absurd hkind (by decide)
  obtain ⟨args, hargs, htraits⟩ := hderives hnot
  refine foldlM_eq_self fun derived hderived => ?_
  have htarget : Edit.target tree m.name [.struct_, .enum_] path = .ok n :=
    Edit.target_eq_ok.mpr (hfound [.struct_, .enum_] hkind (by decide))
  have hoccurs : ∀ derived ∈ Emit.modelDerives, Text.occursBounded (Edit.lastSegment derived.toList)
      (", ".intercalate Emit.modelDerives).toList = true := by decide
  have hany : ((Edit.groupArgs n "derive").any fun args =>
      Text.occursBounded (Edit.lastSegment derived.toList) (Edit.between source args)) = true :=
    List.any_eq_true.mpr ⟨args, hargs, htraits ▸ hoccurs derived hderived⟩
  simp only [Edit.addAttribute, Edit.readSource_eq_ok.mpr h.parsed, htarget, bind, Except.bind,
    Edit.addToGroup, hany, if_true]
  rfl

/-- **What a model asks of its declaration is there.** -/
theorem Declares.refresh_eq (h : Declares source tree m) :
    refresh path source m m.shape.itemKind = .ok source := by
  have hderives : _ → addDerives path source m.name = .ok source := h.addDerives_eq
  have hfields : addFields path source m = .ok source := h.addFields_eq
  cases hkind : m.shape.itemKind with
  | struct_ =>
    rw [refresh, hfields]
    exact hderives (hkind ▸ List.mem_cons_self)
  | enum_ => exact hderives (hkind ▸ List.mem_cons_of_mem _ List.mem_cons_self)
  | _ => rfl

end Declared

/-- **An update of a text with the imports of its models and all their declarations changes nothing.** -/
theorem updateModels_eq {source : List Char} {tree : Tree} {models : List Model} {path : Option String}
    (hblank : Text.isAllBlank source = false) (himports : importModels source models = source)
    (hparse : Rust.parse source = .ok tree) (h : ∀ m ∈ models, Declares source tree m) :
    updateModels source models path = .ok source := by
  have hread : Edit.readSource source path = .ok tree := Edit.readSource_eq_ok.mpr hparse
  have hnew : models.filter (fun m => (declaredKind? tree m.name).isNone) = [] :=
    List.filter_eq_nil_iff.mpr fun m hm => by
      rw [(h m hm).declaredKind?_eq]
      exact Bool.false_ne_true
  simp only [updateModels, hblank, Bool.false_eq_true, if_false, himports, hread, bind, Except.bind, hnew]
  rw [foldlM_eq_self fun m hm => ?_]
  · rfl
  · rw [(h m hm).declaredKind?_eq]
    exact (h m hm).refresh_eq

/-! ### Files of models -/

theorem groupArgs_move (n : Node) (group : String) (g : Nat → Nat) :
    Edit.groupArgs (n.move g) group = (Edit.groupArgs n group).map (Span.move g) := by
  rw [Edit.groupArgs, Edit.groupArgs, Node.attributes_move, List.filterMap_map, List.map_filterMap]
  refine congrArg (List.filterMap · n.attributes) (funext fun a => ?_)
  rw [Function.comp, Node.shape_move]
  cases a.shape with
  | «attribute» path args inner =>
    show (if path = some group then args.map (Span.move g) else none) =
      (if path = some group then args else none).map (Span.move g)
    split <;> rfl
  | _ => rfl

/-- **A file of models declares each of them**, and each that asks for the same. -/
theorem IsModelFile.declares {head : List Char} {models : List Model} {tree : Tree}
    (h : IsModelFile head models tree) (hdistinct : (models.map (Name.bare ·.name)).Nodup) {m : Model}
    (hm : frame m ∈ models.map frame) : Declares (head ++ declarations models) tree m := by
  obtain ⟨x, hx, hframe⟩ := List.mem_map.mp hm
  obtain ⟨hname, hkind, hfields⟩ : x.name = m.name ∧ x.shape.itemKind = m.shape.itemKind ∧
      x.shape.fields.map (·.name) = m.shape.fields.map (·.name) := by
    simpa only [frame, Prod.mk.injEq] using hframe
  obtain ⟨before, behind, rfl⟩ := List.append_of_mem hx
  obtain ⟨node, hnode, hfind⟩ := h.find?_eq
  refine ⟨h.grown.parsed, _, fun kinds hmem huse => hfind huse (fun y hy => ?_) ?_, ?_, fun name hfield => ?_,
    fun hnot => ?_⟩
  · -- No model in front has the name.
    rw [List.map_append, List.map_cons] at hdistinct
    have hne := (List.nodup_append.mp hdistinct).2.2 _ (List.mem_map_of_mem hy) _ List.mem_cons_self
    rw [isWanted, beq_eq_false_iff_ne.mpr (hname ▸ hne), Bool.and_false]
  · rw [isWanted, hkind, hname, beq_self_eq_true, Bool.and_true, List.contains_iff_mem]
    exact hmem
  · rw [Node.itemKind?_move, hnode.kind, hkind]
  · rw [Node.field?_move, Option.isSome_map]
    exact hnode.field?_isSome (hfields ▸ hfield)
  · obtain ⟨args, hargs, hstop, htraits⟩ := hnode.derives (hkind ▸ hnot)
    have htext : head ++ declarations (before ++ x :: behind) =
        (head ++ (declarations before ++ ['\n'])) ++ ((modelDeclaration x).toList ++ declarations behind) := by
      rw [declarations_append, declarations_cons]
      simp
    have hlength : head.length + (declarations before).length + 1 =
        (head ++ (declarations before ++ ['\n'])).length := by
      rw [List.length_append, List.length_append, List.length_singleton, Nat.add_assoc]
    refine ⟨args.move (· + (head.length + (declarations before).length + 1)), ?_, ?_⟩
    · rw [groupArgs_move]
      exact List.mem_map_of_mem hargs
    · rw [htext, hlength, Edit.between_behind hstop, htraits]

end ContractSync.Sync

namespace ContractSync.Model

open ContractSync.Contract (Canonical)

/-- The names of the variants. -/
def Shape.variantNames : Shape → List String
  | .union variants _ => variants.map (·.1.name)
  | .literals variants => variants.map (·.name)
  | .record _ | .alias _ => []

/-- The variants, without what they hold. -/
def Shape.labels : Shape → List Schema.VariantLabel
  | .union variants _ => variants.map (·.1)
  | .literals variants => variants
  | .record _ | .alias _ => []

theorem Shape.variantNames_eq (shape : Shape) : shape.variantNames = shape.labels.map (·.name) := by
  cases shape with
  | union variants discriminator => exact (List.map_map ..).symm
  | literals | record | «alias» => rfl

/-- A model of a schema can be written if its name and those of its variants are identifiers: fields always have
identifiers, and types mention models only. -/
theorem fitsDeclaration_of_yields {doc : Canonical} {key : Document.Scalar} {schema : Document.Value} {m : Model}
    (h : (ofSchema doc key schema).Yields m) (hname : Rust.IsIdentifier m.name)
    (hvariants : ∀ name ∈ m.shape.variantNames, Rust.IsIdentifier name) : m.FitsDeclaration := by
  have htypes : ∀ type ∈ m.shape.types, type.IsWorded := fun type htype =>
    (ofSchema_onlyModels h type htype).isWorded
  have hnamed := ofSchema_named h
  refine ⟨hname, ?_⟩
  cases hshape : m.shape with
  | record fields =>
    rw [hshape] at htypes hnamed
    have hfields : ∀ name ∈ fields.map (·.name), Rust.IsIdentifier name := by
      rw [show fields.map (·.name) = _ from hnamed]
      exact Name.isIdentifier_claimAll (List.forall_mem_map.mpr fun f _ => Name.isIdentifier_fieldName _)
    exact fun f hf => ⟨hfields _ (List.mem_map_of_mem hf),
      (Emit.isTypeCode_typeText (htypes _ (List.mem_map_of_mem hf))).spells⟩
  | union variants discriminator =>
    rw [hshape] at htypes hvariants
    exact fun v hv => ⟨hvariants _ (List.mem_map_of_mem hv), htypes _ (List.mem_map_of_mem hv)⟩
  | literals variants =>
    rw [hshape] at hvariants
    exact fun v hv => hvariants _ (List.mem_map_of_mem hv)
  | «alias» target =>
    rw [hshape] at htypes
    exact htypes target (List.mem_singleton_self target)

theorem fitsDeclaration_of_mem {doc : Canonical} {models : List Model} {m : Model}
    (h : (ofDocument doc).Yields models) (hm : m ∈ models) (hname : Rust.IsIdentifier m.name)
    (hvariants : ∀ name ∈ m.shape.variantNames, Rust.IsIdentifier name) : m.FitsDeclaration := by
  obtain ⟨e, -, hmodel⟩ := h.mapM m hm
  exact fitsDeclaration_of_yields hmodel hname hvariants

theorem ofDocument_fitsDeclaration {doc : Canonical} {models : List Model}
    (h : (ofDocument doc).Yields models) (hnames : ∀ m ∈ models, Rust.IsIdentifier m.name)
    (hvariants : ∀ m ∈ models, ∀ name ∈ m.shape.variantNames, Rust.IsIdentifier name) :
    ∀ m ∈ models, m.FitsDeclaration := fun m hm => fitsDeclaration_of_mem h hm (hnames m hm) (hvariants m hm)

/-- Models of a document that have distinct names also have distinct names without raw markers. -/
theorem ofDocument_nodup_bare {doc : Canonical} {models : List Model} (h : (ofDocument doc).Yields models)
    (hdistinct : (models.map (·.name)).Nodup) : (models.map (Name.bare ·.name)).Nodup := by
  have hbare : models.map (Name.bare ·.name) = models.map (·.name) := by
    refine List.map_congr_left fun m hm => Name.bare_eq_self (Name.IsWord.chars ?_)
    obtain ⟨e, -, he⟩ := h.mapM m hm
    obtain ⟨component, -, hname⟩ := ofSchema_name he
    rw [hname]
    exact Name.isWord_typeName component
  rwa [hbare]

end ContractSync.Model

namespace ContractSync.Sync

open ContractSync.Contract (Canonical)

/-- **A generated file of models is a fixed point.** For models of a document with distinct identifiers as
names, and identifiers as names of their variants, and overrides with texts that stand for types: the new
file with its overrides applied is changed neither by a second update nor by its overrides. -/
theorem updateModels_settled {doc : Canonical} {models : List Model} {table : Overrides} {path : Option String}
    (hmodels : (Model.ofDocument doc).collect.1 = .ok models) (hdistinct : (models.map (·.name)).Nodup)
    (hnames : ∀ m ∈ models, Rust.IsIdentifier m.name)
    (hvariants : ∀ m ∈ models, ∀ name ∈ m.shape.variantNames, Rust.IsIdentifier name)
    (htypes : ∀ o ∈ overridesOf table, Rust.IsTypeText o.type.toList) :
    ∃ fresh, updateModels [] models path = .ok fresh ∧
      let settled := (retypeFields fresh table path).source
      updateModels settled models path = .ok settled ∧ (retypeFields settled table path).source = settled := by
  have hyields := Resolving.yields_of_collect hmodels
  have hfits := Model.ofDocument_fitsDeclaration hyields hnames hvariants
  have htexts : ∀ o ∈ overridesOf table, Rust.FitsField o.type.toList := fun o ho => (htypes o ho).fitsField
  have hsettled : (retypeFields (freshModels models) table path).source =
      modelHead models ++ declarations ((overridesOf table).foldl retypeModels models) := by
    rw [freshModels_eq, retypeFields, retypeAll_modelFile models hfits htexts]
  refine ⟨freshModels models, rfl, ?_, ?_⟩
  · have hframes := map_frame_retypeModels models (overridesOf table)
    obtain ⟨tree, htree⟩ := exists_isModelFile models (fitsDeclaration_foldl hfits htexts)
    have hbare : (((overridesOf table).foldl retypeModels models).map (Name.bare ·.name)).Nodup := by
      have hparts : ∀ others : List Model, others.map (Name.bare ·.name) =
          (others.map frame).map (Name.bare ·.1) := fun others => by rw [List.map_map]; rfl
      rw [hparts, hframes, ← hparts]
      exact Model.ofDocument_nodup_bare hyields hdistinct
    rw [hsettled]
    refine updateModels_eq ?_ (importModels_eq models _) htree.grown.parsed fun m hm => ?_
    · rw [Text.isAllBlank, List.all_append, Bool.and_eq_false_iff]
      exact .inl (endsLine_modelHead models).not_isAllBlank
    · exact htree.declares hbare (hframes ▸ List.mem_map_of_mem hm)
  · have hagain := @retypeFields_again path models models hfits table htexts
    rw [← freshModels_eq] at hagain
    exact hagain

/-- A record with a property whose name is a keyword, a union, literals that collide, and another name. -/
def shelterSample : Canonical where
  data := [(.text "components", .object [("schemas", .object [
    ("Shelter", .object [("type", .text "object"), ("description", .text "A home\nfor animals."),
      ("required", .list [.text "type"]), ("properties", .object [
        ("type", .object [("$ref", .text "#/components/schemas/Color")]),
        ("guest-list", .object [("type", .text "array"),
          ("items", .object [("$ref", .text "#/components/schemas/Guest")])])])]),
    ("Guest", .object [("oneOf", .list [.object [("$ref", .text "#/components/schemas/Shelter")],
      .object [("type", .text "string"), ("format", .text "uuid")]])]),
    ("Color", .object [("type", .text "string"), ("enum", .list [.text "red", .text "Red"])]),
    ("Tag", .object [("type", .text "string")])])])]
  dialect := .openApi "3.1.0"

/-- Another type for a field, and one for a field that is not there. -/
def shelterOverrides : Overrides := [("Shelter", [("guest_list", "Vec<(K, V)>"), ("roof", "Vec<(K, V)>")])]

theorem updateModels_settled_shelterSample :
    ∃ models fresh, (Model.ofDocument shelterSample).collect.1 = .ok models ∧
      models.map (·.name) = ["Shelter", "Guest", "Color", "Tag"] ∧
      updateModels [] models none = .ok fresh ∧
      let settled := (retypeFields fresh shelterOverrides none).source
      updateModels settled models none = .ok settled ∧
        (retypeFields settled shelterOverrides none).source = settled := by
  have hsample : (Model.ofDocument shelterSample).collect.1.toOption.map
      (·.map fun m => (m.name, m.shape.variantNames)) =
        some [("Shelter", []), ("Guest", ["Shelter", "Uuid"]), ("Color", ["Red", "Red_2"]), ("Tag", [])] := by
    decide +kernel
  obtain ⟨models, hmodels, hparts⟩ := Option.map_eq_some_iff.mp hsample
  have hmodels := eq_ok_of_toOption hmodels
  have hnamed : models.map (·.name) = ["Shelter", "Guest", "Color", "Tag"] := by
    have hfirst := congrArg (List.map Prod.fst) hparts
    rwa [List.map_map] at hfirst
  have hwords : ∀ part ∈ models.map fun m => (m.name, m.shape.variantNames),
      Rust.IsIdentifier part.1 ∧ ∀ name ∈ part.2, Rust.IsIdentifier name := by
    rw [hparts]
    decide
  have hwords := List.forall_mem_map.mp hwords
  have htokens : Rust.tokenize "Vec<(K, V)>".toList =
      .ok (Rust.TokenTree.flattenAll Edit.vecTrees) := eq_ok_of_toOption (by decide +kernel)
  have htype : Rust.IsTypeText "Vec<(K, V)>".toList :=
    ⟨_, Edit.vecTrees, ⟨htokens, by decide, by decide, by decide, by decide⟩,
      eq_ok_of_toOption (by decide), by decide⟩
  have htypes : ∀ o ∈ overridesOf shelterOverrides, Rust.IsTypeText o.type.toList :=
    List.forall_mem_cons.mpr ⟨htype, List.forall_mem_cons.mpr ⟨htype, List.forall_mem_nil _⟩⟩
  obtain ⟨fresh, hfresh, hsettled⟩ := @updateModels_settled _ _ _ none hmodels
    (hnamed ▸ by decide) (fun m hm => (hwords m hm).1) (fun m hm => (hwords m hm).2) htypes
  exact ⟨models, fresh, hmodels, hnamed, hfresh, hsettled⟩

end ContractSync.Sync

/-!
## Models are read back

**The declaration of a model of a document is read as the model** (`modelDeclaration_readBack`): as one item of
the kind and with the name of the model, whose fields or variants are those of the model, in order. Each field
has its type where it is written, and its name on the wire is the property it stands for.
-/

namespace ContractSync.Emit

open Model (Field)
open Rust (FieldView IsItemText Node)
open Schema (VariantLabel)

variable {m : Model} {node : Node} {members : List Node}

/-! ### The members of an item -/

/-- Behind its attributes a node holds its members. -/
theorem IsBracedItem.filter_children (h : IsBracedItem m node members) {P : Node → Bool}
    (hP : ∀ n : Node, n.isAttribute = true → P n = false) : node.children.filter P = members.filter P :=
  h.children.elim fun _ hchildren => Node.filter_children hchildren hP

/-! ### Models of a document -/

/-- A node as it is read from the declaration of a model. -/
structure ReadsBack (m : Model) (source : List Char) (item : Node) : Prop where
  isItem : IsItemText source item
  kind : item.itemKind? = some m.shape.itemKind
  name : item.name? = some m.name
  fields : item.fields.map (Node.fieldView source) = m.shape.fields.map writtenView
  variants : item.variants.map Node.name? = m.shape.variantNames.map some

theorem exists_readsBack_record {fields : List Field} (hshape : m.shape = .record fields)
    (hname : Rust.IsIdentifier m.name) (hfields : ∀ f ∈ fields, FitsRecord f) :
    ∃ item, ReadsBack m (modelDeclaration m).toList item := by
  obtain ⟨node, members, hnode, hviews⟩ := exists_bracedRecord hshape hname (readsMembers_fieldLines hfields)
  have htext : (modelDeclaration m).toList = recordOpening m ++ ((String.join (fields.map fieldLines)).toList ++
      "\x7d\n".toList) := by
    rw [modelDeclaration, hshape]
    simp only [shapeText, recordOpening, String.toList_append, List.append_assoc]
  have hviews := hviews _ "\x7d\n".toList rfl
  rw [← htext] at hviews
  obtain ⟨attributes, hchildren⟩ := hnode.children
  obtain ⟨hfound, hnone⟩ := Node.fields_eq hchildren hviews (List.forall_mem_map.mpr fun f _ => rfl)
  refine ⟨node, hnode.item, hnode.kind, hnode.name, ?_, ?_⟩
  · rw [hfound, hviews, hshape]
    rfl
  · rw [hnone, hshape]
    rfl

theorem exists_readsBack_enum {α : Type} {variants : List α} {line : α → String} {label : α → VariantLabel}
    {tagging : String} (hkind : m.shape.itemKind = .enum_) (hname : Rust.IsIdentifier m.name)
    (htagging : Rust.IsLead tagging.toList)
    (hlines : ∀ v ∈ variants, Rust.ReadsMember Rust.Entry.variant (line v).toList
      (Rust.Shows (line v).toList (writtenLabel (label v))))
    (htext : shapeText m.name m.shape = enumText m.name tagging (String.join (variants.map line)))
    (hfields : m.shape.fields = []) (hlabels : m.shape.labels = variants.map label) :
    ∃ item, ReadsBack m (modelDeclaration m).toList item ∧
      item.variants.map (Node.fieldView (modelDeclaration m).toList) = m.shape.labels.map writtenLabel := by
  obtain ⟨node, members, front, hnode, hwhole, hmembers, hviews⟩ :=
    exists_bracedEnum hkind hname htagging (readsMembers_variantLines hlines) htext
  have hviews := hviews front "\x7d\n".toList rfl
  have hwritten : (variants.map fun v => writtenLabel (label v)) = m.shape.labels.map writtenLabel := by
    rw [hlabels, List.map_map]
    rfl
  rw [← hwhole, hwritten] at hviews
  have hfound : node.variants = members := by
    rw [Node.variants, hnode.filter_children fun _ => Node.not_isVariant_of_isAttribute,
      List.filter_eq_self.mpr fun n hn => (hmembers n hn).1]
  refine ⟨node, ⟨hnode.item, hnode.kind, hnode.name, ?_, ?_⟩, hfound ▸ hviews⟩
  · rw [Node.fields, hnode.filter_children fun _ => Node.not_isField_of_isAttribute,
      List.filter_eq_nil_iff.mpr fun n hn => by rw [(hmembers n hn).2]; exact Bool.false_ne_true, hfields]
    rfl
  · have hnames := congrArg (List.map FieldView.name) hviews
    rw [List.map_map, List.map_map] at hnames
    rw [hfound, Model.Shape.variantNames_eq, List.map_map]
    exact hnames

/-- **A model that can be written is read back**, its variants with their attributes. -/
theorem exists_readsBack (h : m.FitsDeclaration) : ∃ item, ReadsBack m (modelDeclaration m).toList item ∧
    item.variants.map (Node.fieldView (modelDeclaration m).toList) = m.shape.labels.map writtenLabel := by
  obtain ⟨hname, hshape⟩ := h
  cases hm : m.shape with
  | record fields =>
    rw [hm] at hshape
    obtain ⟨item, hitem⟩ := exists_readsBack_record hm hname hshape
    refine ⟨item, hitem, ?_⟩
    have hnone := hitem.variants
    rw [hm] at hnone
    rw [List.map_eq_nil_iff.mp hnone]
    rfl
  | union variants discriminator =>
    rw [hm] at hshape
    obtain ⟨item, hitem, hviews⟩ := exists_readsBack_enum (m := m) (by rw [hm]; rfl) hname
      (isLead_taggingLine discriminator) (fun v hv => readsMember_variantLines (hshape v hv).1
        (forall_mem_some (hshape v hv).2)) (by rw [hm]; rfl) (by rw [hm]; rfl) (by rw [hm]; rfl)
    exact ⟨item, hitem, hm ▸ hviews⟩
  | literals variants =>
    rw [hm] at hshape
    have hlabels : m.shape.labels = variants.map id := by
      rw [hm]
      exact (List.map_id _).symm
    obtain ⟨item, hitem, hviews⟩ := exists_readsBack_enum (by rw [hm]; rfl) hname isLead_empty
      (fun v hv => readsMember_variantLines (hshape v hv) forall_mem_none) (by rw [hm]; rfl) (by rw [hm]; rfl) hlabels
    exact ⟨item, hitem, hm ▸ hviews⟩
  | «alias» target =>
    rw [hm] at hshape
    obtain ⟨node, hitem, hkind, hnodeName, hchildren⟩ := exists_aliasNode hm hname hshape
    refine ⟨node, ⟨hitem, hkind, hnodeName, ?_, ?_⟩, ?_⟩
    · rw [Node.fields, hchildren, hm]
      rfl
    · rw [Node.variants, hchildren, hm]
      rfl
    · rw [Node.variants, hchildren]
      rfl

/-- **The declaration of a model is read as the model.** The text is read, and holds one item of the kind and
with the name of the model. Its fields or variants are those of the model, in order and under the same names.
The type of each field reads as its text, and the name of each field on the wire is the property. -/
theorem modelDeclaration_readBack {doc : Contract.Canonical} {models : List Model}
    (hmodels : (Model.ofDocument doc).collect.1 = .ok models) (hm : m ∈ models)
    (hname : Rust.IsIdentifier m.name) (hvariants : ∀ name ∈ m.shape.variantNames, Rust.IsIdentifier name) :
    ∃ tree item, Rust.parse (modelDeclaration m).toList = .ok tree ∧ tree.root.children = [item] ∧
      item.itemKind? = some m.shape.itemKind ∧ item.name? = some m.name ∧
      item.fields.map Node.name? = m.shape.fields.map (some ·.name) ∧
      item.variants.map Node.name? = m.shape.variantNames.map some ∧
      item.fields.map (fun n => n.type?.map tree.spanText) =
        m.shape.fields.map (fun f => some (typeText f.type).toList) ∧
      item.fields.map (Node.wireName? tree.source) = m.shape.fields.map (some ·.property) := by
  obtain ⟨item, hitem, -⟩ := exists_readsBack
    (Model.fitsDeclaration_of_mem (Resolving.yields_of_collect hmodels) hm hname hvariants)
  obtain ⟨trees, hreads, -⟩ := hitem.isItem.reads
  have hparse := (@Rust.parse_eq_ok_iff _ 0 _).mpr ⟨trees, [item], hreads, rfl⟩
  -- What is seen of each field is seen of all of them.
  have hseen : ∀ {β : Type} (part : FieldView → β),
      item.fields.map (fun n => part (n.fieldView (modelDeclaration m).toList)) =
        m.shape.fields.map fun f => part (writtenView f) := by
    intro β part
    have hall := congrArg (List.map part) hitem.fields
    rwa [List.map_map, List.map_map] at hall
  refine ⟨_, item, hparse, rfl, hitem.kind, hitem.name, hseen FieldView.name, hitem.variants, hseen FieldView.type, ?_⟩
  exact (hseen FieldView.wireName?).trans (List.map_congr_left fun f _ => wireName?_writtenView f)

/-- A record with a property that is a keyword, and one with quotes and a backslash. -/
def crateSample : Contract.Canonical where
  data := [(.text "components", .object [("schemas", .object [
    ("Crate", .object [("type", .text "object"), ("description", .text "A box\r\nwith /* holes."),
      ("properties", .object [("type", .object [("type", .text "string"), ("deprecated", .bool true)]),
        ("a \"b\"\\", .object [("type", .text "array"),
          ("items", .object [("$ref", .text "#/components/schemas/Crate")])])])])])])]
  dialect := .openApi "3.1.0"

/-- The fields of a record, and the properties they stand for. -/
def namesIn (m : Model) : String × List String × List (String × String) :=
  (m.name, m.shape.variantNames, m.shape.fields.map fun f => (f.name, f.property))

theorem modelDeclaration_readBack_crateSample :
    ∃ m tree item, (Model.ofDocument crateSample).collect.1 = .ok [m] ∧
      Rust.parse (modelDeclaration m).toList = .ok tree ∧ tree.root.children = [item] ∧
      item.itemKind? = some m.shape.itemKind ∧ item.name? = some "Crate" ∧
      item.fields.map Node.name? = [some "r#type", some "a_b"] ∧
      item.fields.map (Node.wireName? tree.source) = [some "type", some "a \"b\"\\"] := by
  have hsample : (Model.ofDocument crateSample).collect.1.toOption.map (·.map namesIn) =
      some [("Crate", [], [("r#type", "type"), ("a_b", "a \"b\"\\")])] := by decide +kernel
  obtain ⟨models, hmodels, hnames⟩ := Option.map_eq_some_iff.mp hsample
  obtain ⟨m, rfl, hm⟩ := List.map_eq_singleton_iff.mp hnames
  have hname : m.name = "Crate" := congrArg Prod.fst hm
  have hvariants : m.shape.variantNames = [] := congrArg (·.2.1) hm
  have hfields : m.shape.fields.map (fun f => (f.name, f.property)) = _ := congrArg (·.2.2) hm
  obtain ⟨tree, item, hparse, hroot, hkind, hfound, hfound', -, -, hwire⟩ := modelDeclaration_readBack
    (eq_ok_of_toOption hmodels) (List.mem_singleton_self m) (by rw [hname]; decide)
    (by rw [hvariants]; exact List.forall_mem_nil _)
  have hparts : ∀ part : String × String → String, m.shape.fields.map (fun f => some (part (f.name, f.property))) =
      [("r#type", "type"), ("a_b", "a \"b\"\\")].map fun names => some (part names) := by
    intro part
    have hall := congrArg (List.map fun names => some (part names)) hfields
    rwa [List.map_map] at hall
  exact ⟨m, tree, item, eq_ok_of_toOption hmodels, hparse, hroot, hkind, hname ▸ hfound,
    hfound'.trans (hparts Prod.fst), hwire.trans (hparts Prod.snd)⟩

end ContractSync.Emit
