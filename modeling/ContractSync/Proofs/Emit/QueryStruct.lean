import ContractSync.Emit.QueryStruct
import ContractSync.Proofs.Emit.WireName
import ContractSync.Proofs.Name.Bare
import ContractSync.Proofs.Route.TypeNames

/-!
# The text of a query structure

The query parameters of a handler become the fields of a structure, in the order of their names, each behind its
comment and, where the name of the field is another one, behind an attribute with the name of the parameter.
**The structure is written as one declaration, and its fields are read as the parameters**
(`exists_queryStruct`), as soon as its name is one: the handler it is named for may begin with a digit behind
underscores. On the wire a field has the name of its parameter (`wireName?_queryView`).
-/

namespace ContractSync.Emit

open Route (Parameter)
open Rust (Anything FieldView IsAttributes IsItemText Node ReadsMembers TokenTree Writes)
open Rust.TokenTree (flattenAll)

/-! ### The fields -/

theorem newline_notMem_parameterDoc {p : Parameter} (h : '\n' ∉ p.name.toList) :
    ∀ line ∈ parameterDoc p, '\n' ∉ line.toList := by
  have hlead : '\n' ∉ "Query parameter \x60".toList := by decide
  unfold parameterDoc
  split
  · refine List.forall_mem_singleton.mpr ?_
    simp only [String.toList_append, List.mem_append, not_or]
    exact ⟨⟨hlead, h⟩, by decide⟩
  · exact newline_notMem_docLines _

/-- Parameters with the names of their fields. -/
def namedParams (params : List Parameter) : List (String × Parameter) :=
  (Name.Table.claimAll {} (params.map fun p => Name.fieldName p.name)).zip params

theorem queryFields_eq_zip (names : Name.Table) (params : List Parameter) : queryFields names params =
    String.join (((names.claimAll (params.map fun p => Name.fieldName p.name)).zip params).map fun f =>
      queryField f.1 f.2) := by
  induction params generalizing names with
  | nil => rfl
  | cons p rest ih =>
    rw [queryFields, List.map_cons, Name.Table.claimAll]
    generalize names.claim (Name.fieldName p.name) = claimed
    obtain ⟨name, names⟩ := claimed
    dsimp only
    rw [List.zip_cons_cons, List.map_cons, String.join_cons, ih]

theorem queryFields_eq (params : List Parameter) :
    queryFields {} params = String.join ((namedParams params).map fun f => queryField f.1 f.2) :=
  queryFields_eq_zip {} params

/-- The attributes of the field for a parameter. -/
def queryAttributes (name : String) (p : Parameter) : List String :=
  if Name.bare name = p.name then [] else [renameText p.name]

theorem queryField_eq (name : String) (p : Parameter) :
    queryField name p = recordLines (parameterDoc p) (queryAttributes name p) name (typeText p.type) := by
  unfold queryField recordLines queryAttributes
  split
  · rfl
  · rw [renameLine_eq]

/-- The field for a parameter as it is seen. -/
def queryView (f : String × Parameter) : FieldView :=
  ⟨some f.1, some (typeText f.2.type).toList, (queryAttributes f.1 f.2).map String.toList⟩

/-- **On the wire a field has the name of its parameter.** -/
theorem wireName?_queryView (f : String × Parameter) : (queryView f).wireName? = some f.2.name := by
  rw [FieldView.wireName?, queryView, queryAttributes]
  by_cases hname : Name.bare f.1 = f.2.name
  · rw [if_pos hname]
    exact congrArg some hname
  · rw [if_neg hname, List.map_singleton, List.findSome?_singleton, renameOf?_renameText]
    exact unquote?_quoted f.2.name

/-- **The fields are seen as the parameters**, wherever they stand. -/
theorem readsMembers_queryFields {params : List Parameter} (htypes : ∀ p ∈ params, p.type.IsWorded)
    (hlines : ∀ p ∈ params, '\n' ∉ p.name.toList) :
    ReadsMembers Rust.Entry.recordField (queryFields {} params).toList fun d nodes =>
      ∀ front behind, front.length = d → nodes.map (Node.fieldView (front ++
        ((queryFields {} params).toList ++ behind))) = (namedParams params).map queryView := by
  have hbases : ∀ base ∈ params.map fun p => Name.fieldName p.name, Rust.IsIdentifier base := by
    intro base hbase
    obtain ⟨p, -, rfl⟩ := List.mem_map.mp hbase
    exact Name.isIdentifier_fieldName p.name
  have hnames : ∀ f ∈ namedParams params, Rust.IsIdentifier f.1 ∧ f.2 ∈ params := fun f hf =>
    ⟨Name.isIdentifier_claimAll hbases _ (List.of_mem_zip hf).1, (List.of_mem_zip hf).2⟩
  rw [queryFields_eq]
  refine Rust.readsMembers_shows fun f hf => ?_
  obtain ⟨hname, hp⟩ := hnames f hf
  rw [queryField_eq]
  refine readsMember_recordLines (newline_notMem_parameterDoc (hlines _ hp)) ?_ hname
    (isTypeCode_typeText (htypes _ hp)).spells
  unfold queryAttributes
  split
  · exact List.forall_mem_nil _
  · exact List.forall_mem_singleton.mpr (isAttributeText_renameText _)

/-! ### The structure -/

/-- The traits that a query structure derives. -/
def queryDerives : List TokenTree :=
  [.leaf ⟨.punct, "#", 0, 0⟩,
    .group ⟨.punct, "[", 0, 0⟩
      [.leaf ⟨.ident, "derive", 0, 0⟩,
        .group ⟨.punct, "(", 0, 0⟩
          [.leaf ⟨.ident, "Debug", 0, 0⟩, .leaf ⟨.punct, ",", 0, 0⟩, .leaf ⟨.ident, "Clone", 0, 0⟩,
            .leaf ⟨.punct, ",", 0, 0⟩, .leaf ⟨.ident, "Deserialize", 0, 0⟩]
          ⟨.punct, ")", 0, 0⟩]
      ⟨.punct, "]", 0, 0⟩]

/-- What stands in front of a query structure: its comment and what it derives. -/
theorem writes_queryFront {handler : String} (h : '\n' ∉ handler.toList) :
    Writes Anything ("/// Query parameters for \x60".toList ++ (handler.toList ++ ("\x60.\n".toList
      ++ "#[derive(Debug, Clone, Deserialize)]\n".toList))) (flattenAll queryDerives) := by
  have hlead : "/// Query parameters for \x60".toList = '/' :: '/' :: "/ Query parameters for \x60".toList := by
    decide
  have hend : "\x60.\n".toList = "\x60.".toList ++ ['\n'] := by decide
  have hline : '\n' ∉ "/ Query parameters for \x60".toList ++ (handler.toList ++ "\x60.".toList) := by
    simp only [List.mem_append, not_or]
    exact ⟨by decide, h, by decide⟩
  have hderive : Writes Anything "#[derive(Debug, Clone, Deserialize)]\n".toList (flattenAll queryDerives) :=
    .const rfl (by decide)
  have hall := (Writes.comment hline).and hderive
  rw [hlead, hend]
  simpa using hall

/-- The query parameters of a route, in the order of their fields. -/
def queryParams (route : Route) : List Parameter :=
  (route.paramsIn .query).mergeSort fun p q => decide (p.name ≤ q.name)

/-- The fields of the structure for a route as they are seen. -/
def queryViews (route : Route) : List FieldView := (namedParams (queryParams route)).map queryView

/-- On the wire the fields have the names of the parameters. -/
theorem wireNames_queryViews (route : Route) :
    (queryViews route).map FieldView.wireName? = (queryParams route).map fun p => some p.name := by
  have hlength : (queryParams route).length =
      (Name.Table.claimAll {} ((queryParams route).map fun p => Name.fieldName p.name)).length := by
    rw [← (Name.claimAll_forall₂ _).length_eq, List.length_map]
  have hparams : (namedParams (queryParams route)).map Prod.snd = queryParams route :=
    List.map_snd_zip (Nat.le_of_eq hlength)
  conv_rhs => rw [← hparams]
  rw [queryViews, List.map_map, List.map_map]
  exact List.map_congr_left fun f _ => wireName?_queryView f

/-- **A query structure is written as one structure** with the parameters as its fields, if its name is an
identifier. -/
theorem exists_queryStruct {route : Route} {name code : String} (h : queryStruct route = some (name, code))
    (hwords : route.IsWorded) (hlines : ∀ p ∈ route.params, '\n' ∉ p.name.toList)
    (hhandler : '\n' ∉ route.handlerName.toList) (hname : Rust.IsIdentifier (queryStructName route)) :
    ∃ node, IsItemText code.toList node ∧ node.itemKind? = some .struct_ ∧ node.name? = some name ∧
      ∀ behind, node.fields.map (Node.fieldView (code.toList ++ behind)) = queryViews route := by
  unfold queryStruct at h
  split at h
  · cases h
  · simp only [Option.some.injEq, Prod.mk.injEq] at h
    obtain ⟨rfl, rfl⟩ := h
    have hderives : IsAttributes queryDerives := .cons rfl rfl .nil
    obtain ⟨derives, hfront, hattributes, hnested⟩ := hderives.exists_lexes rfl (writes_queryFront hhandler)
    have hmem : ∀ p ∈ queryParams route, p ∈ route.params := fun p hp =>
      (List.mem_filter.mp ((List.mergeSort_perm _ _).mem_iff.mp hp)).1
    have hfields := readsMembers_queryFields (fun p hp => hwords.params p (hmem p hp)) fun p hp =>
      hlines p (hmem p hp)
    obtain ⟨node, members, hnode, hkind, hnodeName, hchildren, hviews⟩ :=
      Rust.exists_declaration .struct hfront hattributes hnested hname hfields
    have hword : ("pub " ++ "struct" ++ " ").toList = "pub struct ".toList := by decide
    rw [hword] at hnode hviews
    refine ⟨node, ?_, hkind, hnodeName, fun behind => ?_⟩
    · simp only [String.toList_append, List.append_assoc] at hnode ⊢
      exact hnode
    · have hviews := hviews _ ("\x7d\n".toList ++ behind) rfl
      rw [← (Node.fields_eq hchildren hviews (List.forall_mem_map.mpr fun f _ => rfl)).1] at hviews
      simp only [String.toList_append, List.append_assoc] at hviews ⊢
      exact hviews

end ContractSync.Emit
