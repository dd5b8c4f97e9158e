import ContractSync.Proofs.Sync.ModelFile
import ContractSync.Sync.Retype
import Mathlib.Data.List.Induction

/-!
# Overrides in files of models

An override changes the first field it fits in the first structure it fits. In a file of models that is the
file for models with another type (`retypeField_modelFile`), so **applying a table of overrides gives the
file for the models that the table asks for** (`retypeFields_modelFile`). Of two overrides for one field the
later one counts, and **a table applied twice is a table applied once** (`retypeModels_again`).
-/

namespace ContractSync.Sync

/-! ### Changing the first of several -/

section UpdateFirst

variable {α β : Type} {p q : α → Bool} {f g : α → α}

/-- The list with the first item that has the property replaced. -/
def updateFirst (p : α → Bool) (f : α → α) : List α → List α
  | [] => []
  | a :: rest => if p a then f a :: rest else a :: updateFirst p f rest

/-- Either no item has the property, or there is a first one. -/
theorem updateFirst_cases (p : α → Bool) (f : α → α) (items : List α) :
    ((∀ a ∈ items, p a = false) ∧ updateFirst p f items = items) ∨
      ∃ before a behind, items = before ++ a :: behind ∧ (∀ b ∈ before, p b = false) ∧ p a = true ∧
        updateFirst p f items = before ++ f a :: behind := by
  induction items with
  | nil => exact .inl ⟨List.forall_mem_nil _, rfl⟩
  | cons a rest ih =>
    by_cases ha : p a = true
    · exact .inr ⟨[], a, rest, rfl, List.forall_mem_nil _, ha, if_pos ha⟩
    · rw [updateFirst, if_neg ha]
      rw [Bool.not_eq_true] at ha
      rcases ih with ⟨hnone, heq⟩ | ⟨before, b, behind, rfl, hbefore, hb, heq⟩
      · exact .inl ⟨List.forall_mem_cons.mpr ⟨ha, hnone⟩, by rw [heq]⟩
      · exact .inr ⟨a :: before, b, behind, rfl, List.forall_mem_cons.mpr ⟨ha, hbefore⟩, hb, by rw [heq]; rfl⟩

/-- What is the same of all items before and after is the same of the list. -/
theorem map_updateFirst {φ : α → β} (h : ∀ a, φ (f a) = φ a) (items : List α) :
    (updateFirst p f items).map φ = items.map φ := by
  induction items with
  | nil => rfl
  | cons a rest ih =>
    rw [updateFirst]
    split
    · rw [List.map_cons, List.map_cons, h]
    · rw [List.map_cons, List.map_cons, ih]

theorem forall_mem_updateFirst {P : α → Prop} (hf : ∀ a, P a → P (f a)) {items : List α}
    (h : ∀ a ∈ items, P a) : ∀ a ∈ updateFirst p f items, P a := by
  induction items with
  | nil => exact h
  | cons a rest ih =>
    obtain ⟨ha, hrest⟩ := List.forall_mem_cons.mp h
    rw [updateFirst]
    split
    · exact List.forall_mem_cons.mpr ⟨hf a ha, hrest⟩
    · exact List.forall_mem_cons.mpr ⟨ha, ih hrest⟩

/-- Two changes of one item are one change. -/
theorem updateFirst_again (hp : ∀ a, p (f a) = p a) (items : List α) :
    updateFirst p g (updateFirst p f items) = updateFirst p (g ∘ f) items := by
  induction items with
  | nil => rfl
  | cons a rest ih =>
    by_cases ha : p a = true
    · rw [updateFirst, if_pos ha, updateFirst, if_pos ((hp a).trans ha), updateFirst, if_pos ha]
      rfl
    · rw [updateFirst, if_neg ha, updateFirst, if_neg ha, updateFirst, if_neg ha, ih]

/-- Changes of different items can be made in any order. -/
theorem updateFirst_comm (hp : ∀ a, p (g a) = p a) (hq : ∀ a, q (f a) = q a)
    (hapart : ∀ a, p a = true → q a = false) (items : List α) :
    updateFirst q g (updateFirst p f items) = updateFirst p f (updateFirst q g items) := by
  induction items with
  | nil => rfl
  | cons a rest ih =>
    by_cases ha : p a = true
    · have hnot : ¬ q a = true := by
        rw [hapart a ha]
        exact Bool.false_ne_true
      rw [updateFirst, if_pos ha, updateFirst, if_neg ((hq a).symm ▸ hnot), updateFirst, if_neg hnot,
        updateFirst, if_pos ha]
    · by_cases hb : q a = true
      · rw [updateFirst, if_neg ha, updateFirst, if_pos hb, updateFirst, if_pos hb, updateFirst,
          if_neg ((hp a).symm ▸ ha)]
      · rw [updateFirst, if_neg ha, updateFirst, if_neg hb, updateFirst, if_neg hb, updateFirst, if_neg ha, ih]

end UpdateFirst

/-! ### Applying changes again -/

section Again

variable {σ ω : Type} {act : σ → ω → σ}

/-- Changes of which the later one of two at one place counts. -/
structure LastCounts (act : σ → ω → σ) : Prop where
  again : ∀ s a, act (act s a) a = act s a
  absorb : ∀ s a b, act (act s a) b = act s b ∨ act (act s a) b = act (act s b) a

/-- An earlier change is undone or still there at the end. -/
theorem LastCounts.foldl_again (h : LastCounts act) (changes : List ω) (s : σ) (a : ω) :
    act (changes.foldl act (act s a)) a = act (changes.foldl act s) a := by
  induction changes generalizing s with
  | nil => exact h.again s a
  | cons b rest ih =>
    rw [List.foldl_cons, List.foldl_cons]
    rcases h.absorb s a b with heq | heq
    · rw [heq]
    · rw [heq, ih]

/-- **All changes once more change nothing.** -/
theorem LastCounts.foldl_foldl (h : LastCounts act) (changes : List ω) (s : σ) :
    changes.foldl act (changes.foldl act s) = changes.foldl act s := by
  induction changes using List.reverseRecOn with
  | nil => rfl
  | append_singleton changes a ih =>
    rw [List.foldl_concat, List.foldl_concat, h.foldl_again, ih]

end Again

/-! ### Models with other types -/

open Emit (FitsRecord IsModelItem fieldOpening fieldView fieldViews isCalled isViewOf modelDeclaration
  recordOpening)
open Model (Field)
open Rust (FitsField ItemKind Node)

/-- The field with a type that is written as the text. -/
def withType (type : String) (f : Field) : Field := { f with type := .reference type }

/-- The shape with another type for the first field of the name. -/
def retypeShape (field type : String) : Model.Shape → Model.Shape
  | .record fields => .record (updateFirst (isCalled field) (withType type) fields)
  | shape => shape

/-- The model with another type for the field of an override. -/
def retypeModel (o : Override) (m : Model) : Model := { m with shape := retypeShape o.field o.type m.shape }

/-- The models with another type for the field that an override fits. -/
def retypeModels (models : List Model) (o : Override) : List Model :=
  updateFirst (isWanted o.declaration [.struct_]) (retypeModel o) models

/-- What an update asks of a model: its name, its kind and the names of its fields. -/
def frame (m : Model) : String × ItemKind × List String :=
  (m.name, m.shape.itemKind, m.shape.fields.map (·.name))

theorem itemKind_retypeShape (field type : String) (shape : Model.Shape) :
    (retypeShape field type shape).itemKind = shape.itemKind := by
  cases shape <;> rfl

theorem frame_retypeModel (o : Override) (m : Model) : frame (retypeModel o m) = frame m := by
  have hfields : (retypeShape o.field o.type m.shape).fields.map (·.name) = m.shape.fields.map (·.name) := by
    cases m.shape with
    | record fields => exact map_updateFirst (f := withType o.type) (fun _ => rfl) fields
    | union | literals | «alias» => rfl
  rw [frame, frame, retypeModel, itemKind_retypeShape, hfields]

theorem isWanted_retypeModel (name : String) (kinds : List ItemKind) (o : Override) (m : Model) :
    isWanted name kinds (retypeModel o m) = isWanted name kinds m := by
  rw [isWanted, isWanted, retypeModel, itemKind_retypeShape]

/-- Overrides change no model's name, kind and field names. -/
theorem map_frame_retypeModels (models : List Model) (changes : List Override) :
    (changes.foldl retypeModels models).map frame = models.map frame := by
  induction changes generalizing models with
  | nil => rfl
  | cons o rest ih => rw [List.foldl_cons, ih, retypeModels, map_updateFirst (frame_retypeModel o)]

theorem fitsDeclaration_retypeModels {models : List Model} {o : Override}
    (h : ∀ m ∈ models, m.FitsDeclaration) (htype : FitsField o.type.toList) :
    ∀ m ∈ retypeModels models o, m.FitsDeclaration := by
  refine forall_mem_updateFirst (fun m hm => ⟨hm.name, ?_⟩) h
  have hshape := hm.shape
  rw [retypeModel]
  cases hm : m.shape with
  | record fields =>
    rw [hm] at hshape
    exact forall_mem_updateFirst (f := withType o.type) (P := FitsRecord) (fun f hf => ⟨hf.name, htype⟩) hshape
  | union | literals | «alias» =>
    rw [hm] at hshape
    exact hshape

theorem fitsDeclaration_foldl {models : List Model} {changes : List Override}
    (h : ∀ m ∈ models, m.FitsDeclaration) (htypes : ∀ o ∈ changes, FitsField o.type.toList) :
    ∀ m ∈ changes.foldl retypeModels models, m.FitsDeclaration := by
  induction changes generalizing models with
  | nil => exact h
  | cons o rest ih =>
    obtain ⟨ho, hrest⟩ := List.forall_mem_cons.mp htypes
    exact ih (fitsDeclaration_retypeModels h ho) hrest

/-- Of two overrides the later one counts. -/
theorem lastCounts_retypeModels : LastCounts retypeModels := by
  have hcalled : ∀ name type f, isCalled name (withType type f) = isCalled name f := fun _ _ _ => rfl
  have hsame : ∀ (o p : Override), Name.bare o.field = Name.bare p.field →
      retypeModel p ∘ retypeModel o = retypeModel p := by
    intro o p hfield
    have hpred : isCalled o.field = isCalled p.field := funext fun f => by rw [isCalled, isCalled, hfield]
    funext ⟨name, shape, description⟩
    cases shape with
    | record fields =>
      simp only [Function.comp, retypeModel, retypeShape, hpred, updateFirst_again (hcalled _ _)]
      rfl
    | union | literals | «alias» => rfl
  have hwanted : ∀ (o p : Override), Name.bare o.declaration = Name.bare p.declaration →
      isWanted o.declaration [.struct_] = isWanted p.declaration [.struct_] := fun o p h =>
    funext fun m => by rw [isWanted, isWanted, h]
  refine ⟨fun s o => ?_, fun s o p => ?_⟩
  · rw [retypeModels, retypeModels, updateFirst_again (isWanted_retypeModel _ _ o), hsame o o rfl]
  · simp only [retypeModels]
    by_cases hdeclaration : Name.bare o.declaration = Name.bare p.declaration
    · rw [hwanted o p hdeclaration, updateFirst_again (isWanted_retypeModel _ _ o),
        updateFirst_again (isWanted_retypeModel _ _ p)]
      by_cases hfield : Name.bare o.field = Name.bare p.field
      · exact .inl (by rw [hsame o p hfield])
      · refine .inr (congrArg (updateFirst _ · s) ?_)
        funext ⟨name, shape, description⟩
        cases shape with
        | record fields =>
          have hcomm := updateFirst_comm (p := isCalled o.field) (q := isCalled p.field)
            (hcalled _ p.type) (hcalled _ o.type) (fun f hf => ?_) fields
          · simp only [Function.comp, retypeModel, retypeShape, hcomm]
          · rw [isCalled, beq_iff_eq] at hf
            rw [isCalled, beq_eq_false_iff_ne, hf]
            exact hfield
        | union | literals | «alias» => rfl
    · refine .inr (updateFirst_comm (isWanted_retypeModel _ _ p) (isWanted_retypeModel _ _ o) (fun m hm => ?_) s)
      rw [isWanted, Bool.and_eq_true, beq_iff_eq] at hm
      rw [isWanted, hm.2, Bool.and_eq_false_iff, beq_eq_false_iff_ne]
      exact .inr hdeclaration

/-- **A table applied twice is a table applied once.** -/
theorem retypeModels_again (changes : List Override) (models : List Model) :
    changes.foldl retypeModels (changes.foldl retypeModels models) = changes.foldl retypeModels models :=
  lastCounts_retypeModels.foldl_foldl changes models

/-! ### Overrides in a file -/

/-- What a field with another type is written as. -/
theorem declaration_withType {m : Model} {before behind : List Field} {f : Field} {o : Override}
    (h : m.shape = .record (before ++ f :: behind))
    (hretype : updateFirst (isCalled o.field) (withType o.type) (before ++ f :: behind) =
      before ++ withType o.type f :: behind) :
    ∃ a b, (modelDeclaration m).toList = a ++ (Emit.typeText f.type).toList ++ b ∧
      (modelDeclaration (retypeModel o m)).toList = a ++ o.type.toList ++ b ∧
      a.length = (recordOpening m).length +
        ((String.join (before.map Emit.fieldLines)).toList.length + (fieldOpening f).length) := by
  have hshape : (retypeModel o m).shape = .record (before ++ withType o.type f :: behind) := by
    rw [retypeModel, h, retypeShape, hretype]
  have hopening : recordOpening (retypeModel o m) = recordOpening m := rfl
  have hfield : fieldOpening (withType o.type f) = fieldOpening f := rfl
  have htype : Emit.typeText (withType o.type f).type = o.type := rfl
  have htext := Emit.record_toList hshape
  rw [hopening, hfield, htype] at htext
  refine ⟨_, _, Emit.record_toList h, htext, ?_⟩
  rw [List.length_append, List.length_append, Nat.add_assoc]

/-- The place of a field's type in a declaration. -/
theorem exists_type_of_field {m : Model} {node : Node} (hnode : IsModelItem m node)
    {before behind : List Field} {f : Field} {field : String} {start : Nat}
    (h : m.shape = .record (before ++ f :: behind)) (hbefore : ∀ g ∈ before, isCalled field g = false)
    (hf : isCalled field f = true) (hstart : start = (recordOpening m).length +
      ((String.join (before.map Emit.fieldLines)).toList.length + (fieldOpening f).length)) :
    ∃ found, node.field? field = some found ∧
      found.type? = some ⟨start, start + (Emit.typeText f.type).toList.length⟩ := by
  have hview := hnode.field field
  rw [h, Model.Shape.fields, Emit.find?_fieldViews hbefore hf, Option.map_some,
    Rust.MemberView.behind_behind] at hview
  obtain ⟨found, hfound, hview⟩ := Option.map_eq_some_iff.mp hview
  generalize (String.join (before.map Emit.fieldLines)).toList.length = between at hview hstart
  generalize (recordOpening m).length = opening at hview hstart
  have htype : found.type? = (fieldView f).type.map (Rust.Span.move (· + (between + opening))) :=
    congrArg Rust.MemberView.type hview
  refine ⟨found, hfound, htype.trans ?_⟩
  simp only [fieldView, Option.map_some, Rust.Span.move, Option.some.injEq, Rust.Span.mk.injEq]
  omega

/-- A model that is wanted as a structure is a record. -/
theorem exists_fields_of_isWanted {name : String} {m : Model} (h : isWanted name [.struct_] m = true) :
    ∃ fields, m.shape = .record fields := by
  rw [isWanted, Bool.and_eq_true] at h
  have hkind := h.1
  cases hshape : m.shape with
  | record fields => exact ⟨fields, rfl⟩
  | union | literals | «alias» =>
    rw [hshape] at hkind
    cases hkind

/-- An override that fits no field is skipped. -/
def Skips (source : List Char) (o : Override) (path : Option String) : Prop :=
  ∃ e, Edit.retypeField source o.declaration o.field o.type path = .error e ∧ isMissingTarget e = true

section File

variable {head : List Char} {models : List Model} {tree : Rust.Tree} {path : Option String}

/-- A text with another type for a field that stands between two parts of it. -/
theorem retypeField_between {source a old b : List Char} {tree : Rust.Tree} {n f : Node} {span : Rust.Span}
    (hparse : Rust.parse source = .ok tree) {o : Override}
    (hfound : tree.find? o.declaration [.struct_] = some n) (hfield : n.field? o.field = some f)
    (htype : f.type? = some span) (hsource : source = a ++ old ++ b)
    (hspan : span = ⟨a.length, a.length + old.length⟩) :
    Edit.retypeField source o.declaration o.field o.type path = .ok (a ++ o.type.toList ++ b) := by
  have htree : tree.source = source := by
    obtain ⟨_, _, _, rfl⟩ := Rust.parse_eq_ok_iff.mp hparse
    rfl
  have hresult : Text.splice source span.start span.stop o.type.toList = a ++ o.type.toList ++ b := by
    rw [hsource, hspan, Text.splice_append]
  refine (Edit.retypeField_eq hparse hfound hfield htype o.type path).trans (congrArg _ ?_)
  split
  · rename_i hsame
    rw [Rust.Tree.spanText, htree] at hsame
    rw [← hresult, ← hsame, Text.splice_slice]
    rw [hspan]
    exact Nat.le_add_right _ _
  · exact hresult

/-- **A file of models with one override is the file of the models with that type**, if the override fits
anything. -/
theorem retypeField_modelFile (h : IsModelFile head models tree) (o : Override) :
    Edit.retypeField (head ++ declarations models) o.declaration o.field o.type path =
        .ok (head ++ declarations (retypeModels models o)) ∨
      Skips (head ++ declarations models) o path ∧ retypeModels models o = models := by
  have hread : Edit.readSource (head ++ declarations models) path = .ok tree :=
    Edit.readSource_eq_ok.mpr h.grown.parsed
  have huse : ItemKind.use ∉ [ItemKind.struct_] := by decide
  rcases updateFirst_cases (isWanted o.declaration [.struct_]) (retypeModel o) models with
    ⟨hnone, heq⟩ | ⟨before, m, behind, rfl, hbefore, hm, heq⟩
  · -- There is no such structure.
    refine .inr ⟨⟨⟨.declarationNotFound o.declaration, path⟩, ?_, rfl⟩, heq⟩
    simp only [Edit.retypeField, hread, Edit.target, h.find?_eq_none huse hnone, bind, Except.bind]
  obtain ⟨node, hnode, hfind⟩ := h.find?_eq
  have hfound := hfind huse hbefore hm
  have htarget : Edit.target tree o.declaration [.struct_] path = .ok _ := Edit.target_eq_ok.mpr hfound
  obtain ⟨fields, hfields⟩ := exists_fields_of_isWanted hm
  rcases updateFirst_cases (isCalled o.field) (withType o.type) fields with
    ⟨hnone, hsame⟩ | ⟨front, f, back, rfl, hfront, hf, hretype⟩
  · -- The structure has no such field.
    have hfield : node.field? o.field = none := by
      have hview := hnode.field o.field
      rwa [hfields, Model.Shape.fields, Emit.find?_fieldViews_eq_none hnone, Option.map_none,
        Option.map_eq_none_iff] at hview
    have hmodel : retypeModel o m = m := by
      rw [retypeModel, hfields, retypeShape, hsame, ← hfields]
    refine .inr ⟨⟨⟨.fieldNotFound o.declaration o.field, path⟩, ?_, rfl⟩, ?_⟩
    · simp only [Edit.retypeField, hread, htarget, bind, Except.bind, Node.field?_move, hfield, Option.map_none,
        Option.bind_none]
      rfl
    · rw [retypeModels, heq, hmodel]
  · obtain ⟨a, b, htext, hnew, hlength⟩ := declaration_withType hfields hretype
    obtain ⟨found, hfield, htype⟩ := exists_type_of_field hnode hfields hfront hf hlength
    have hold : head ++ declarations (before ++ m :: behind) = head ++ (declarations before ++ '\n' :: a)
        ++ (Emit.typeText f.type).toList ++ (b ++ declarations behind) := by
      rw [declarations_append, declarations_cons, htext]
      simp
    have hafter : head ++ declarations (retypeModels (before ++ m :: behind) o) =
        head ++ (declarations before ++ '\n' :: a) ++ o.type.toList ++ (b ++ declarations behind) := by
      rw [retypeModels, heq, declarations_append, declarations_cons, hnew]
      simp
    rw [hafter]
    refine .inl (retypeField_between h.grown.parsed hfound (by rw [Node.field?_move, hfield]; rfl)
      (by rw [Node.type?_move, htype]; rfl) hold ?_)
    simp only [Rust.Span.move, List.length_append, List.length_cons, Rust.Span.mk.injEq]
    omega

/-- **The overrides of a table give the file of the models that the table asks for.** -/
theorem retypeAll_modelFile (others : List Model) {models : List Model} (hfits : ∀ m ∈ models, m.FitsDeclaration)
    {changes : List Override} (htypes : ∀ o ∈ changes, FitsField o.type.toList) :
    (retypeAll path (modelHead others ++ declarations models) changes).source =
      modelHead others ++ declarations (changes.foldl retypeModels models) := by
  induction changes generalizing models with
  | nil => rfl
  | cons o rest ih =>
    obtain ⟨ho, hrest⟩ := List.forall_mem_cons.mp htypes
    obtain ⟨tree, htree⟩ := exists_isModelFile others hfits
    rw [retypeAll, List.foldl_cons]
    rcases @retypeField_modelFile _ _ _ path htree o with heq | ⟨⟨e, he, hmissing⟩, hsame⟩
    · rw [heq]
      exact ih (fitsDeclaration_retypeModels hfits ho) hrest
    · rw [he, hsame]
      simp only [hmissing, if_true]
      exact ih hfits hrest

/-- Applied to their own result they change nothing. -/
theorem retypeFields_again (others : List Model) {models : List Model} (hfits : ∀ m ∈ models, m.FitsDeclaration)
    {table : Overrides} (htypes : ∀ o ∈ overridesOf table, FitsField o.type.toList) :
    let result := (retypeFields (modelHead others ++ declarations models) table path).source
    (retypeFields result table path).source = result := by
  intro result
  have hresult : result = _ := retypeAll_modelFile others hfits htypes
  rw [hresult, retypeFields, retypeAll_modelFile others (fitsDeclaration_foldl hfits htypes) htypes,
    retypeModels_again]

end File

end ContractSync.Sync
