import ContractSync.Proofs.Route.Reordering

/-!
# Where a parameter is declared

An operation of a Swagger document lists a parameter itself, refers to one that the document shares, or has it
from its path. **The routes are the same, up to the order of their parameters** (`ofDocument_relocated`), unless
the parameter describes the body in a way that its place decides (`bodyTypes_depend_on_place`).
-/

namespace ContractSync.Route

open ContractSync.Contract
open ContractSync.Document
open ContractSync.Resolving (Same Alike)

variable {c c' : Canonical}

/-! ### Single parameters in other places -/

section Places

variable {document : Entries}

theorem Agree.entryAt (h : Agree c c') (family name : String) :
    Contract.entryAt c'.data family name = Contract.entryAt c.data family name := by
  rw [Contract.entryAt, Entries.get, h.data "components" (by decide)]
  rfl

theorem Parameter.same_ofValue_component (h : Agree c c') {ref name : String} {entries : Entries}
    (hname : c'.componentName ref "parameters" = some name)
    (hentry : entryAt c.data "parameters" name = some (.mapping entries)) (hinline : Entries.has entries "$ref" = false)
    (hgrounded : IsGrounded c (.mapping entries)) :
    Same (ofValue c (.mapping entries)) (ofValue c' (.object [("$ref", .text ref)])) := by
  unfold ofValue
  rw [follow_object c hinline, follow_component hname ((Agree.entryAt h _ _).trans hentry) hinline, pure_bind, pure_bind]
  exact same_ofEntries h hgrounded

theorem RequestBody.same_ofValue_component (h : Agree c c') {ref name : String} {entries : Entries}
    (hname : c'.componentName ref "requestBodies" = some name)
    (hentry : entryAt c.data "requestBodies" name = some (.mapping entries))
    (hinline : Entries.has entries "$ref" = false) (hgrounded : IsGrounded c (.mapping entries)) :
    Same (ofValue c (.mapping entries)) (ofValue c' (.object [("$ref", .text ref)])) := by
  rw [ofValue_eq, ofValue_eq, follow_object c hinline,
    follow_component hname ((Agree.entryAt h _ _).trans hentry) hinline, pure_bind, pure_bind]
  exact same_ofEntries h hgrounded

/-- A string stays what it is where references move, unless it is one. -/
theorem get_moveInEntries_eq_text {entries : Entries} {key s : String} (hkey : .text key ≠ referenceKey) :
    Entries.get (Lift.moveInEntries entries) key = .text s ↔ Entries.get entries key = .text s := by
  have hother : ∀ v : Value, v.text? = none → v ≠ .text s := by
    rintro _ hv rfl
    cases hv
  rw [Entries.get, Entries.get, Lift.get?_moveInEntries_eq]
  cases Entries.get? entries key with
  | none => exact Iff.rfl
  | some v =>
    simp only [Option.map_some, Option.getD_some]
    cases hv : v.text? with
    | some t =>
      rw [eq_text_of_text? hv, moveAt]
      simp only [if_neg hkey]
    | none =>
      rw [moveAt_of_not_text hv]
      split
      · exact Iff.rfl
      · exact iff_of_false (hother _ ((text?_moveReferences v).trans hv)) (hother _ hv)

theorem isPresent_moveAt {key : String} (hkey : .text key ≠ referenceKey) (v : Value) :
    (moveAt (.text key) v).isPresent = v.isPresent := by
  cases hv : v.text? with
  | some s =>
    rw [eq_text_of_text? hv, moveAt]
    simp only [if_neg hkey]
  | none =>
    rw [moveAt_of_not_text hv]
    split
    · rfl
    · cases v with
      | mapping entries =>
        rw [Lift.moveReferences, Lift.moveInEntries_eq_map]
        cases entries <;> rfl
      | list items =>
        rw [Lift.moveReferences, Lift.moveInItems_eq_map]
        cases items <;> rfl
      | scalar | set => rw [Lift.moveReferences]

/-- An operation takes the same when references move. -/
theorem consumesFor_moveInEntries (document operation : Entries) :
    Lift.consumesFor (Lift.consumesOf (Lift.moveInEntries document)) (Lift.moveInEntries operation) =
      moveAt (.text "consumes") (Lift.consumesFor (Lift.consumesOf document) operation) := by
  have hget : ∀ entries : Entries, Entries.get (Lift.moveInEntries entries) "consumes" =
      moveAt (.text "consumes") (Entries.get entries "consumes") := by
    intro entries
    rw [Entries.get, Entries.get, Lift.get?_moveInEntries_eq]
    cases Entries.get? entries "consumes" <;> rfl
  have horElse : ∀ v fallback, Lift.orElse (moveAt (.text "consumes") v) (moveAt (.text "consumes") fallback) =
      moveAt (.text "consumes") (Lift.orElse v fallback) := by
    intro v fallback
    rw [Lift.orElse, Lift.orElse, isPresent_moveAt (by decide)]
    split <;> rfl
  have hjson : moveAt (.text "consumes") Lift.jsonOnly = Lift.jsonOnly := rfl
  rw [Lift.consumesFor, Lift.consumesFor, Lift.consumesOf, Lift.consumesOf, hget, hget, ← horElse, ← horElse, hjson]

theorem consumesOf_moveInEntries (document : Entries) :
    Lift.consumesOf (Lift.moveInEntries document) = moveAt (.text "consumes") (Lift.consumesOf document) :=
  consumesFor_moveInEntries document []

/-- A lifted parameter is no reference, unless it was one. -/
theorem param_of_inline {entries : Entries} (h : Entries.has entries "$ref" = false) :
    ∃ lifted, Lift.param (.mapping entries) = .mapping lifted ∧ Entries.has lifted "$ref" = false := by
  unfold Lift.param
  simp only
  split
  · exact ⟨entries, rfl, h⟩
  · refine ⟨_, rfl, Entries.not_has_put (by decide) ?_⟩
    have hbare : ∀ (keys : List String) (entries : Entries), Entries.has entries "$ref" = false →
        Entries.has (keys.foldl Entries.erase entries) "$ref" = false := by
      intro keys
      induction keys with
      | nil => exact fun entries h => h
      | cons key keys ih => exact fun entries h => ih _ (Entries.not_has_erase h)
    exact hbare Lift.typeKeywords entries h

/-- A request body that a parameter describes is no reference. -/
theorem bodyParam_eq_ok {entries : Entries} {consumes body : Value} (h : Lift.bodyParam entries consumes = .ok body) :
    ∃ lifted, body = .mapping lifted ∧ Entries.has lifted "$ref" = false := by
  obtain ⟨content, -, h⟩ := bind_eq_ok.mp h
  refine ⟨_, pure_eq_ok.mp h, ?_⟩
  rw [Entries.has_eq_false_iff]
  intro e he
  unfold Lift.present Lift.requiredIf at he
  simp only [List.mem_append, List.mem_singleton, List.mem_ite_nil_right] at he
  rcases he with (rfl | ⟨-, rfl⟩) | ⟨-, rfl⟩ <;> exact fun heq => absurd (Scalar.text.inj heq) (by decide)

end Places

/-! ### The routes of a document with another path item -/

theorem agree_of_replace {v : Value} (hself : c'.self = c.self) (hdata : c'.data = Entries.replace c.data "paths" v)
    (hgrounded : ∀ ref ∈ referencesOf true c.data, Grounded c.self ref) : Agree c c' := by
  refine ⟨hself, fun key hkey => ?_, hgrounded⟩
  rw [hdata, Entries.get?_replace_of_ne (Ne.symm hkey)]

theorem alike_ofDocument_item (h : Agree c c') {before after item item' : Entries} {path : Scalar}
    (hpaths : Entries.get? c.data "paths" = some (.mapping (before ++ (path, .mapping item) :: after)))
    (hpaths' : Entries.get? c'.data "paths" = some (.mapping (before ++ (path, .mapping item') :: after)))
    (hitem : ∀ names, Alike ReordersAll (ofPath c .standard path names (.mapping item))
      (ofPath c' .standard path names (.mapping item'))) :
    Alike (List.Forall₂ Reorders) (ofDocument c) (ofDocument c') := by
  have hentries : ∀ {doc : Canonical} {found : Entries}, Entries.get? doc.data "paths" = some (.mapping found) →
      (Entries.get doc.data "paths").entries = found := by
    intro doc found hfound
    rw [Entries.get, hfound]
    rfl
  have hall := allGrounded_entries (refers_deep_get "paths" (isGrounded_data h.grounded))
  rw [hentries hpaths] at hall
  refine alike_ofDocument h ?_
  rw [hentries hpaths, hentries hpaths']
  refine List.rel_append (List.forall₂_same.mpr fun e he => ⟨rfl, ?_⟩)
    (.cons ⟨rfl, hitem⟩ (List.forall₂_same.mpr fun e he => ⟨rfl, ?_⟩))
  · exact alike_ofPath h (hall e (List.mem_append_right _ (List.mem_cons_of_mem _ he))) _ _
  · exact alike_ofPath h (hall e (List.mem_append_left _ he)) _ _

/-! ### Where a document declares a parameter -/

/-- Where an operation of a document lists a parameter. -/
structure Spot where
  pathsBefore : Entries
  path : Scalar
  item : Entries
  pathsAfter : Entries
  method : String
  operation : Entries
  before : List Value
  param : Entries
  after : List Value

namespace Spot

/-- The operation lists the parameter there, itself and not by reference. -/
structure IsIn (spot : Spot) (document : Entries) : Prop where
  paths : Entries.get? document "paths" =
    some (.mapping (spot.pathsBefore ++ (spot.path, .mapping spot.item) :: spot.pathsAfter))
  path : isReserved spot.path = false
  method : spot.method ∈ httpMethods
  operation : Entries.get? spot.item spot.method = some (.mapping spot.operation)
  params : Entries.get? spot.operation "parameters" = some (.list (spot.before ++ .mapping spot.param :: spot.after))
  inline : Entries.has spot.param "$ref" = false

/-- The document with a reference to a shared parameter there. -/
def referring (spot : Spot) (document : Entries) (segment : String) : Entries :=
  withItem document spot.pathsBefore spot.path (Entries.replace spot.item spot.method
    (.mapping (Entries.replace spot.operation "parameters"
      (.list (spot.before ++ .object [("$ref", .text ("#/parameters/" ++ segment))] :: spot.after))))) spot.pathsAfter

/-- The document with the parameter at its path, behind those that are shared there. -/
def hoisted (spot : Spot) (document : Entries) (shared : List Value) : Entries :=
  withItem document spot.pathsBefore spot.path (Lift.hoisted spot.item spot.method spot.operation
    (spot.before ++ spot.after) (shared ++ [.mapping spot.param])) spot.pathsAfter

/-- The operation takes what the document does. -/
def TakesTheSame (spot : Spot) (document : Entries) : Prop :=
  Lift.consumesFor (Lift.consumesOf document) spot.operation = Lift.consumesOf document

/-- The name that a segment of a reference writes. -/
abbrev nameOf (segment : String) : String := Reference.Pointer.decodeSegment segment.toList

/-- The document shares the parameter under the name that the segment of a reference writes. A form parameter is
not shared; a body parameter has a name that stands for itself in a reference, and describes what the operation
takes as well. -/
structure Shares (spot : Spot) (document : Entries) (segment : String) : Prop where
  written : '/' ∉ segment.toList
  named : nameOf segment ≠ ""
  free : isReserved (.text (nameOf segment)) = false
  shared : Lift.SharesParam document (nameOf segment) spot.param
  form : Entries.get spot.param "in" ≠ .text "formData"
  body : Entries.get spot.param "in" = .text "body" → spot.TakesTheSame document ∧
    '/' ∉ (nameOf segment).toList ∧ nameOf (nameOf segment) = nameOf segment

/-- The parameter of a Swagger document describes the body, or a part of it. -/
def DescribesBody (document : Entries) (v : Value) : Prop :=
  Lift.isBodyPart (Lift.bodiesOf (Lift.moveInEntries document)) (Lift.moveReferences v) = true

/-- What a parameter of a Swagger document comes to in its canonical form. -/
def ComesTo (c : Canonical) (v : Value) (p : Parameter) : Prop :=
  ∃ w, canonical (Lift.param (Lift.moveReferences v)) = .ok w ∧ (Parameter.ofValue c w).Yields (some p)

/-- The operation is alone at its path, with these parameters of the path. No parameter in front of this one has
its name and place; if it describes the body, then no other one does, and the operation takes what the document
does. -/
structure Hoists (spot : Spot) (c : Canonical) (document : Entries) (shared : List Value) : Prop where
  alone : Lift.IsAlone spot.item spot.method
  params : Lift.HasParams spot.item shared
  distinct : ¬ DescribesBody document (.mapping spot.param) → ∀ v ∈ spot.before, ∀ p q, ComesTo c v p →
    ComesTo c (.mapping spot.param) q → p.sameKey q = false
  body : DescribesBody document (.mapping spot.param) → spot.TakesTheSame document ∧
    Entries.has spot.operation "requestBody" = false ∧
    ∀ v ∈ spot.before ++ spot.after ++ shared, ¬ DescribesBody document v

/-- The documents that declare the parameter of the spot elsewhere. -/
inductive Relocates (spot : Spot) (c : Canonical) (document : Entries) : Entries → Prop
  | shared (segment : String) (h : spot.Shares document segment) : Relocates spot c document (spot.referring document segment)
  | hoisted (shared : List Value) (h : spot.Hoists c document shared) :
    Relocates spot c document (spot.hoisted document shared)

section Relocates

variable {spot : Spot} {document : Entries}

theorem get?_moveInEntries_list {entries : Entries} {key : String} {vs : List Value}
    (h : Entries.get? entries key = some (.list vs)) (hkey : isLiteralKey (.text key) = false) :
    Entries.get? (Lift.moveInEntries entries) key = some (.list (vs.map Lift.moveReferences)) := by
  rw [get?_moveInEntries h, moveAt_of_not_text rfl, hkey, if_neg Bool.false_ne_true, Lift.moveReferences,
    Lift.moveInItems_eq_map]

theorem IsIn.moved_operation (h : spot.IsIn document) :
    Entries.get? (Lift.moveInEntries spot.item) spot.method = some (.mapping (Lift.moveInEntries spot.operation)) := by
  rw [get?_moveInEntries h.operation,
    Lift.moveAt_mapping_of_not_isReserved (Lift.isReserved_of_mem_httpMethods h.method)]

theorem IsIn.moved_params (h : spot.IsIn document) :
    Entries.get? (Lift.moveInEntries spot.operation) "parameters" = some (.list (spot.before.map Lift.moveReferences ++
      .mapping (Lift.moveInEntries spot.param) :: spot.after.map Lift.moveReferences)) := by
  rw [get?_moveInEntries_list h.params rfl, List.map_append, List.map_cons, Lift.moveReferences]

theorem moveInEntries_params (operation : Entries) (vs : List Value) :
    Lift.moveInEntries (Entries.replace operation "parameters" (.list vs)) =
      Entries.replace (Lift.moveInEntries operation) "parameters" (.list (vs.map Lift.moveReferences)) := by
  rw [Lift.moveInEntries_replace, moveAt_of_not_text rfl, if_neg (by decide), Lift.moveReferences,
    Lift.moveInItems_eq_map]

theorem IsIn.moveInEntries_item (h : spot.IsIn document) (vs : List Value) :
    Lift.moveInEntries (Entries.replace spot.item spot.method
        (.mapping (Entries.replace spot.operation "parameters" (.list vs)))) =
      Entries.replace (Lift.moveInEntries spot.item) spot.method (.mapping (Entries.replace
        (Lift.moveInEntries spot.operation) "parameters" (.list (vs.map Lift.moveReferences)))) := by
  rw [Lift.moveInEntries_replace,
    Lift.moveAt_mapping_of_not_isReserved (Lift.isReserved_of_mem_httpMethods h.method), moveInEntries_params]

theorem IsIn.moveInEntries_hoisted (h : spot.IsIn document) (vs shared : List Value) :
    Lift.moveInEntries (Lift.hoisted spot.item spot.method spot.operation vs shared) =
      Lift.hoisted (Lift.moveInEntries spot.item) spot.method (Lift.moveInEntries spot.operation)
        (vs.map Lift.moveReferences) (shared.map Lift.moveReferences) := by
  rw [Lift.hoisted, Lift.moveInEntries_put, h.moveInEntries_item, moveAt_of_not_text rfl, if_neg (by decide),
    Lift.moveReferences, Lift.moveInItems_eq_map]
  rfl

theorem TakesTheSame.moved (h : spot.TakesTheSame document) :
    Lift.consumesFor (Lift.consumesOf (Lift.moveInEntries document)) (Lift.moveInEntries spot.operation) =
      Lift.consumesOf (Lift.moveInEntries document) := by
  rw [consumesFor_moveInEntries, h, consumesOf_moveInEntries]

theorem IsIn.inline_moved (h : spot.IsIn document) : Entries.has (Lift.moveInEntries spot.param) "$ref" = false :=
  Lift.has_moveInEntries.trans h.inline

theorem get_in_moved (entries : Entries) (place : String) :
    Entries.get (Lift.moveInEntries entries) "in" = .text place ↔ Entries.get entries "in" = .text place :=
  get_moveInEntries_eq_text (by decide)

/-- The item comes to the same routes as that of the spot, up to the order of parameters. -/
def Replaces (spot : Spot) (c : Canonical) (document item' : Entries) : Prop :=
  ∀ lifted final, Lift.itemOf document spot.item = .ok lifted → canonical (.mapping lifted) = .ok (.mapping final) →
    IsGrounded c (.mapping final) → ∃ lifted' final', Lift.itemOf document item' = .ok lifted' ∧
      canonical (.mapping lifted') = .ok (.mapping final') ∧
      ∀ c', Agree c c' → ∀ names, Alike ReordersAll (ofPath c .standard spot.path names (.mapping final))
        (ofPath c' .standard spot.path names (.mapping final'))

/-- **What another item at the path of the spot comes to decides what the document does.** -/
theorem exists_withItem {item' : Entries} (hswagger : Dialect.detect document = .ok .swagger)
    (hc : normalize document = .ok c) (hgrounded : ∀ ref ∈ referencesOf true c.data, Grounded c.self ref)
    (hspot : spot.IsIn document) (hitem : spot.Replaces c document item') :
    ∃ c', normalize (withItem document spot.pathsBefore spot.path item' spot.pathsAfter) = .ok c' ∧
      ∀ routes, (ofDocument c).collect.1 = .ok routes →
        ∃ routes', (ofDocument c').collect.1 = .ok routes' ∧ List.Forall₂ Reorders routes routes' := by
  obtain ⟨lifted, final, before, after, hlifted, hfinal, hpaths, hother⟩ :=
    exists_normalize_withItem hswagger hc hspot.paths hspot.path
  have hall := allGrounded_entries (refers_deep_get "paths" (isGrounded_data hgrounded))
  have hentries : (Entries.get c.data "paths").entries = before ++ (spot.path, .mapping final) :: after := by
    rw [Entries.get, hpaths]
    rfl
  rw [hentries] at hall
  obtain ⟨lifted', final', hlifted', hfinal', halike⟩ :=
    hitem lifted final hlifted hfinal (hall _ (List.mem_append_right _ List.mem_cons_self))
  obtain ⟨c', hc', hself, hdata⟩ := hother item' lifted' final' hlifted' hfinal'
  have hagree := agree_of_replace hself hdata hgrounded
  have hpaths' : Entries.get? c'.data "paths" = some (.mapping (before ++ (spot.path, .mapping final') :: after)) := by
    rw [hdata, Entries.get?_replace_self]
    rw [Entries.has, hpaths]
    rfl
  exact ⟨c', hc', fun routes => (alike_ofDocument_item hagree hpaths hpaths' (halike c' hagree)).collect⟩

theorem exists_lifted (hswagger : Dialect.detect document = .ok .swagger) (hc : normalize document = .ok c) :
    ∃ lifted, Lift.document document = .ok lifted ∧ runPasses lifted = .ok c.data := by
  obtain ⟨dialect, lifted, hdialect, hlifted, hdata⟩ := normalize_eq_ok hc
  cases hdialect.symm.trans hswagger
  exact ⟨lifted, hlifted, hdata⟩

section Shared

variable {segment : String}

/-- The reference to the component that the shared parameter becomes. -/
theorem moveReferences_shared (segment : String) :
    Lift.moveReferences (.object [("$ref", .text ("#/parameters/" ++ segment))]) =
      .object [("$ref", .text (Shared.parameter.newMark ++ segment))] := by
  have hmoved := Shared.moveReference_mark .parameter segment
  have hmark : Shared.parameter.mark = "#/parameters/" := by decide
  rw [hmark] at hmoved
  rw [Value.object, List.map_cons, List.map_nil, Lift.moveReferences, moveInEntries_text, hmoved, Lift.moveInEntries]
  rfl

theorem Shares.componentName (h : spot.Shares document segment) (self : Option String) :
    Reference.componentName (Shared.parameter.newMark ++ segment) self "parameters" =
      some (nameOf segment) :=
  componentName_eq_some self (by decide) (by decide) h.written h.named

/-- What the reference to the shared parameter adds to the parameters of an operation. -/
theorem Shares.add (h : spot.Shares document segment) (consumes : Value) :
    Lift.Params.add consumes (Lift.bodiesOf (Lift.moveInEntries document)) {}
        (.object [("$ref", .text (Shared.parameter.newMark ++ segment))]) =
      .ok (if Lift.isBodyParam (.mapping spot.param) then
          { body := some (.object [("$ref", .text (bodyReference (nameOf segment)))]) }
        else { kept := [.object [("$ref", .text (Shared.parameter.newMark ++ segment))]] }) := by
  have hkey : Lift.componentKey (Shared.parameter.newMark ++ segment) =
      .text (nameOf segment) := by
    rw [Lift.componentKey, h.componentName]
    rfl
  rw [Lift.add_reference, hkey, h.shared.any_bodiesOf]
  rfl

theorem ne_of_mem_httpMethods {name key : String} (hname : name ∈ httpMethods)
    (hkey : key ∈ ["parameters", "summary", "description"]) : name ≠ key := by
  have hnone : ∀ key ∈ ["parameters", "summary", "description"], key ∉ httpMethods := by decide
  exact fun heq => hnone key hkey (heq ▸ hname)

theorem isBodyParam_iff {entries : Entries} : Lift.isBodyParam (.mapping entries) = true ↔ Entries.get entries "in" = .text "body" :=
  beq_iff_eq

/-- **A parameter that stays one may be shared.** -/
theorem Shares.replaces_kept (h : spot.Shares document segment) (hspot : spot.IsIn document)
    (hin : Entries.get spot.param "in" ≠ .text "body") {lifted : Entries}
    (hlift : Lift.document document = .ok lifted) (hdata : runPasses lifted = .ok c.data) :
    spot.Replaces c document (Entries.replace spot.item spot.method (.mapping (Entries.replace spot.operation
      "parameters" (.list (spot.before ++ .object [("$ref", .text ("#/parameters/" ++ segment))] :: spot.after))))) := by
  intro item final hitem hfinal hgrounded
  have hbody : Lift.isBodyParam (.mapping spot.param) = false := by
    rw [← Bool.not_eq_true, isBodyParam_iff]
    exact hin
  have hinline := hspot.inline_moved
  have hadd := fun consumes bodies => @Lift.add_kept consumes bodies _ hinline (mt (get_in_moved _ _).mp hin)
    (mt (get_in_moved _ _).mp h.form)
  have hadd' := fun consumes => h.add consumes
  rw [hbody] at hadd'
  obtain ⟨result, first, w, rest, hget, hself, hparams, hw, hother⟩ :=
    Lift.pathItem_kept hitem hfinal hspot.method hspot.moved_operation hspot.moved_params (hadd _ _) (hadd' _)
  obtain ⟨lifted', hlifted', hfinal'⟩ := hother _ (canonical_reference _)
  refine ⟨lifted', _, ?_, hfinal', fun c' hagree names => ?_⟩
  · rw [Lift.itemOf, hspot.moveInEntries_item, List.map_append, List.map_cons, moveReferences_shared]
    exact hlifted'
  obtain ⟨v, hv, hentry⟩ := h.shared.component hbody h.free hlift hdata
  cases hw.symm.trans hv
  obtain ⟨entries, hentries, hnone⟩ := param_of_inline hinline
  rw [hentries] at hw
  obtain ⟨found, rfl, -⟩ := canonical_mapping.mp hw
  have hgroundedResult : IsGrounded c (.mapping result) := refers_deep_of_get? hgrounded hget
  have hgroundedParams := refers_list.mp (refers_deep_of_get? hgroundedResult hparams)
  have hsame : Same (Parameter.ofValue c (.mapping found))
      (Parameter.ofValue c' (.object [("$ref", .text (Shared.parameter.newMark ++ segment))])) :=
    Parameter.same_ofValue_component hagree (h.componentName c'.self) hentry ((canonical_has hw _).trans hnone)
      (hgroundedParams _ (List.mem_append_right _ List.mem_cons_self))
  have hhas : Entries.has final spot.method = true := Entries.has_of_get? hget
  refine alike_ofPath_replace hagree hgrounded hspot.method hhas hself (fun item hitem => ?_) spot.path names
  refine likeOperations_parameters hagree hitem
    (fun key hkey => Entries.get?_replace_of_ne (ne_of_mem_httpMethods hspot.method hkey)) hgroundedResult hparams ?_
  exact List.rel_append
    (List.forall₂_same.mpr fun u hu => Parameter.same_ofValue hagree (hgroundedParams u (List.mem_append_left _ hu)))
    (.cons hsame (List.forall₂_same.mpr fun u hu =>
      Parameter.same_ofValue hagree (hgroundedParams u (List.mem_append_right _ (List.mem_cons_of_mem _ hu)))))

/-- **A body parameter may be shared** if the operation takes what the document does. -/
theorem Shares.replaces_body (h : spot.Shares document segment) (hspot : spot.IsIn document)
    (hin : Entries.get spot.param "in" = .text "body") {lifted : Entries}
    (hlift : Lift.document document = .ok lifted) (hdata : runPasses lifted = .ok c.data) :
    spot.Replaces c document (Entries.replace spot.item spot.method (.mapping (Entries.replace spot.operation
      "parameters" (.list (spot.before ++ .object [("$ref", .text ("#/parameters/" ++ segment))] :: spot.after))))) := by
  intro item final hitem hfinal hgrounded
  have hbody : Lift.isBodyParam (.mapping spot.param) = true := isBodyParam_iff.mpr hin
  obtain ⟨htakes, hslash, hdecoded⟩ := h.body hin
  obtain ⟨body, body', hdescribed, hcanonical, hentry⟩ := h.shared.requestBody hbody h.free hlift hdata
  have hadd : Lift.Params.add (Lift.consumesFor (Lift.consumesOf (Lift.moveInEntries document))
      (Lift.moveInEntries spot.operation)) (Lift.bodiesOf (Lift.moveInEntries document)) {}
        (.mapping (Lift.moveInEntries spot.param)) = .ok { body := some body } := by
    rw [Lift.add_body hspot.inline_moved ((get_in_moved _ _).mpr hin), htakes.moved, hdescribed]
    rfl
  have hadd' := fun consumes => h.add consumes
  rw [hbody] at hadd'
  have hchanged : ∀ lifted', Lift.pathItem (Lift.consumesOf (Lift.moveInEntries document))
      (Lift.producesOf (Lift.moveInEntries document)) (Lift.bodiesOf (Lift.moveInEntries document))
      (Entries.replace (Lift.moveInEntries spot.item) spot.method (.mapping (Entries.replace
        (Lift.moveInEntries spot.operation) "parameters" (.list (spot.before.map Lift.moveReferences ++
          .object [("$ref", .text (Shared.parameter.newMark ++ segment))] :: spot.after.map Lift.moveReferences))))) =
        .ok lifted' → Lift.itemOf document (Entries.replace spot.item spot.method (.mapping (Entries.replace spot.operation
      "parameters" (.list (spot.before ++ .object [("$ref", .text ("#/parameters/" ++ segment))] :: spot.after))))) =
        .ok lifted' := by
    intro lifted' hlifted'
    rw [Lift.itemOf, hspot.moveInEntries_item, List.map_append, List.map_cons, moveReferences_shared]
    exact hlifted'
  obtain ⟨result, hget, hself, hcases⟩ :=
    Lift.pathItem_body hitem hfinal hspot.method hspot.moved_operation hspot.moved_params hadd (hadd' _)
  rcases hcases with ⟨w, hresult, hw, hother⟩ | ⟨lifted', hlifted', hfinal'⟩
  · obtain ⟨lifted', hlifted', hfinal'⟩ := hother _ (canonical_reference _)
    refine ⟨lifted', _, hchanged lifted' hlifted', hfinal', fun c' hagree names => ?_⟩
    cases hw.symm.trans hcanonical
    obtain ⟨entries, rfl, hnone⟩ := bodyParam_eq_ok hdescribed
    obtain ⟨found, rfl, -⟩ := canonical_mapping.mp hw
    have hgroundedResult : IsGrounded c (.mapping result) := refers_deep_of_get? hgrounded hget
    have hname : Reference.componentName (bodyReference (nameOf segment)) c'.self "requestBodies" =
        some (nameOf segment) := by
      have hmark : "#/components/requestBodies/".toList =
          '#' :: '/' :: ("components".toList ++ '/' :: ("requestBodies".toList ++ ['/'])) := by decide
      have hsome := componentName_eq_some c'.self hmark (by decide) hslash fun heq => h.named (hdecoded.symm.trans heq)
      exact hsome.trans (congrArg some hdecoded)
    have hsame : Same (RequestBody.ofValue c (.mapping found))
        (RequestBody.ofValue c' (.object [("$ref", .text (bodyReference (nameOf segment)))])) :=
      RequestBody.same_ofValue_component hagree hname hentry ((canonical_has hw _).trans hnone)
        (refers_deep_of_get? hgroundedResult hresult)
    have hhas : Entries.has final spot.method = true := Entries.has_of_get? hget
    exact alike_ofPath_replace hagree hgrounded hspot.method hhas hself (fun item hitem => likeOperations_body hagree hitem
      (fun key hkey => Entries.get?_replace_of_ne (ne_of_mem_httpMethods hspot.method hkey)) hgroundedResult hresult hsame)
      spot.path names
  · exact ⟨lifted', final, hchanged lifted' hlifted', hfinal', fun c' hagree names =>
      alike_ofPath hagree hgrounded _ _ names⟩

end Shared

section Hoisted

variable {shared : List Value}

theorem hasParams_moved {item : Entries} (h : Lift.HasParams item shared) :
    Lift.HasParams (Lift.moveInEntries item) (shared.map Lift.moveReferences) := by
  rcases h with h | ⟨h, rfl⟩
  · exact .inl (get?_moveInEntries_list h rfl)
  · exact .inr ⟨Lift.has_moveInEntries.trans h, rfl⟩

theorem isBodyPart_of_inline {bodies : List Scalar} {entries : Entries} (h : Entries.has entries "$ref" = false) :
    Lift.isBodyPart bodies (.mapping entries) = true ↔
      Entries.get entries "in" = .text "body" ∨ Entries.get entries "in" = .text "formData" := by
  have hget : ∀ key, Value.get (.mapping entries) key = Entries.get entries key := fun _ => rfl
  unfold Lift.isBodyPart
  simp only [hget, Entries.get_of_not_has h, Bool.or_eq_true, beq_iff_eq]

theorem IsIn.describesBody_iff (h : spot.IsIn document) : DescribesBody document (.mapping spot.param) ↔
    Entries.get spot.param "in" = .text "body" ∨ Entries.get spot.param "in" = .text "formData" := by
  rw [DescribesBody, Lift.moveReferences, isBodyPart_of_inline h.inline_moved, get_in_moved, get_in_moved]

theorem get?_hoisted {item operation : Entries} {method key : String} {vs shared : List Value} (hmethod : key ≠ method)
    (hkey : key ≠ "parameters") :
    Entries.get? (Lift.hoisted item method operation vs shared) key = Entries.get? item key := by
  rw [Lift.hoisted, Entries.get?_put_of_ne (Ne.symm hkey), Entries.get?_replace_of_ne (Ne.symm hmethod)]

/-- **A parameter that stays one may stand with its path**, behind no other one that is the same. -/
theorem Hoists.replaces_kept (h : spot.Hoists c document shared) (hspot : spot.IsIn document)
    (hin : ¬ DescribesBody document (.mapping spot.param)) :
    spot.Replaces c document (Lift.hoisted spot.item spot.method spot.operation (spot.before ++ spot.after)
      (shared ++ [.mapping spot.param])) := by
  intro item final hitem hfinal hgrounded
  have hplace := hin
  rw [hspot.describesBody_iff, not_or] at hplace
  obtain ⟨result, first, ws, w, rest, hget, hfirst, halone, hparams, hw, hws, lifted', hlifted', hfinal'⟩ :=
    Lift.pathItem_hoisted_kept hitem hfinal hspot.method hspot.moved_operation h.alone.moved (hasParams_moved h.params)
      hspot.moved_params fun consumes => Lift.add_kept hspot.inline_moved (mt (get_in_moved _ _).mp hplace.1)
        (mt (get_in_moved _ _).mp hplace.2)
  refine ⟨lifted', _, ?_, hfinal', fun c' hagree names => ?_⟩
  · rw [Lift.itemOf, hspot.moveInEntries_hoisted, List.map_append, List.map_append, List.map_singleton,
      Lift.moveReferences]
    exact hlifted'
  have hhas : Entries.has final spot.method = true := Entries.has_of_get? hget
  have halone' : Lift.IsAlone (Lift.hoisted final spot.method result (ws ++ rest) (first ++ [w])) spot.method :=
    halone.of_get? hspot.method fun other hne hother => get?_hoisted hne hother
  have hget' : Entries.get? (Lift.hoisted final spot.method result (ws ++ rest) (first ++ [w])) spot.method =
      some (.mapping (Entries.replace result "parameters" (.list (ws ++ rest)))) := by
    rw [Lift.hoisted, Entries.get?_put_of_ne (Ne.symm (Lift.ne_parameters_of_mem_httpMethods hspot.method)),
      Entries.get?_replace_self hhas]
  refine alike_ofPath_alone halone halone' hspot.method hget hget' ?_ spot.path names
  refine likeOperations_hoisted hagree (allGrounded_entries hgrounded) (refers_deep_of_get? hgrounded hget) hspot.method
    hfirst hparams fun u hu p q hp hq => ?_
  obtain ⟨v, hv, hcanonical⟩ := hws u hu
  obtain ⟨listed, hlisted, rfl⟩ := List.mem_map.mp hv
  refine h.distinct hin listed hlisted p q ⟨u, hcanonical, hp⟩ ⟨w, ?_, hq⟩
  rwa [Lift.moveReferences]

/-- What describes the body adds no parameter, and a body. -/
theorem IsIn.add_body (h : spot.IsIn document) (hin : DescribesBody document (.mapping spot.param)) {consumes : Value}
    {bodies : List Scalar} : ∀ x, Lift.Params.add consumes bodies {} (.mapping (Lift.moveInEntries spot.param)) = .ok x →
      x.kept = [] ∧ ∀ body, x.described consumes = .ok body → body.isSome = true := by
  intro x hx
  rcases h.describesBody_iff.mp hin with hplace | hplace
  · rw [Lift.add_body h.inline_moved ((get_in_moved _ _).mpr hplace), map_eq_ok] at hx
    obtain ⟨body, -, rfl⟩ := hx
    refine ⟨rfl, fun described hdescribed => ?_⟩
    cases hdescribed
    rfl
  · rw [Lift.add_form h.inline_moved ((get_in_moved _ _).mpr hplace)] at hx
    cases hx
    refine ⟨rfl, fun described hdescribed => ?_⟩
    obtain ⟨body, -, rfl⟩ := map_eq_ok.mp hdescribed
    rfl

/-- **A parameter that describes the body may stand with its path**, if nothing else describes the body and the
operation takes what the document does. -/
theorem Hoists.replaces_body (h : spot.Hoists c document shared) (hspot : spot.IsIn document)
    (hin : DescribesBody document (.mapping spot.param)) :
    spot.Replaces c document (Lift.hoisted spot.item spot.method spot.operation (spot.before ++ spot.after)
      (shared ++ [.mapping spot.param])) := by
  intro item final hitem hfinal hgrounded
  obtain ⟨htakes, hnone, honly⟩ := h.body hin
  have honly' : ∀ w ∈ spot.before.map Lift.moveReferences ++ spot.after.map Lift.moveReferences ++
      shared.map Lift.moveReferences, Lift.isBodyPart (Lift.bodiesOf (Lift.moveInEntries document)) w = false := by
    rw [← List.map_append, ← List.map_append, List.forall_mem_map]
    exact fun v hv => Bool.not_eq_true _ ▸ honly v hv
  obtain ⟨result, first, hget, hfirst, halone, lifted', hlifted', hfinal'⟩ :=
    Lift.pathItem_hoisted_body hitem hfinal hspot.method hspot.moved_operation h.alone.moved (hasParams_moved h.params)
      hspot.moved_params htakes.moved (Lift.has_moveInEntries.trans hnone) honly' (hspot.add_body hin)
  refine ⟨lifted', _, ?_, hfinal', fun c' hagree names => ?_⟩
  · rw [Lift.itemOf, hspot.moveInEntries_hoisted, List.map_append, List.map_append, List.map_singleton,
      Lift.moveReferences]
    exact hlifted'
  have hhas : Entries.has final spot.method = true := Entries.has_of_get? hget
  have hothers : ∀ other, other ≠ spot.method → other ≠ "parameters" → Entries.get? (Entries.put
      (Entries.replace final spot.method (.mapping result)) "parameters" (.list first)) other = Entries.get? final other := by
    intro other hne hother
    rw [Entries.get?_put_of_ne (Ne.symm hother), Entries.get?_replace_of_ne (Ne.symm hne)]
  have hget' : Entries.get? (Entries.put (Entries.replace final spot.method (.mapping result)) "parameters" (.list first))
      spot.method = some (.mapping result) := by
    rw [Entries.get?_put_of_ne (Ne.symm (Lift.ne_parameters_of_mem_httpMethods hspot.method)),
      Entries.get?_replace_self hhas]
  refine alike_ofPath_alone halone (halone.of_get? hspot.method hothers) hspot.method hget hget' ?_ spot.path names
  have hgroundedResult : IsGrounded c (.mapping result) := refers_deep_of_get? hgrounded hget
  refine alike_ofOperation hagree hgroundedResult (fun _ _ => rfl) (fun key hkey => ?_) ?_
    (RequestBody.same_ofValue hagree (refers_deep_get _ hgroundedResult))
  · have hfree : key ∉ httpMethods ∧ key ≠ "parameters" := by
      revert key
      decide
    exact hothers key (fun heq => hfree.1 (heq ▸ hspot.method)) hfree.2
  · have hpath : Entries.get (Entries.put (Entries.replace final spot.method (.mapping result)) "parameters"
        (.list first)) "parameters" = .list first := Entries.get_of_get? Entries.get?_put_self
    have hsame := Parameter.same_resolveAll hagree (refers_deep_get "parameters" hgrounded)
      (refers_deep_get "parameters" hgroundedResult)
    rw [Parameter.resolveAll_eq, Parameter.resolveAll_eq, HasParams.items hfirst] at hsame
    rw [Parameter.resolveAll_eq, Parameter.resolveAll_eq, HasParams.items hfirst, hpath]
    exact hsame.mono fun _ _ heq => heq ▸ .refl _

end Hoisted

end Relocates

end Spot

/-- **A Swagger document may declare a parameter elsewhere**: it may share it and refer to it, or declare it for its
path if no other operation stands there. The routes stay the same, up to the order of their parameters. -/
theorem ofDocument_relocated {spot : Spot} {document document' : Entries}
    (hswagger : Dialect.detect document = .ok .swagger)
    (hc : normalize document = .ok c) (hgrounded : ∀ ref ∈ referencesOf true c.data, Grounded c.self ref)
    (hspot : spot.IsIn document) (hrelocates : spot.Relocates c document document') :
    ∃ c', normalize document' = .ok c' ∧
      ∀ routes, (ofDocument c).collect.1 = .ok routes →
        ∃ routes', (ofDocument c').collect.1 = .ok routes' ∧ List.Forall₂ Reorders routes routes' := by
  obtain ⟨lifted, hlift, hdata⟩ := Spot.exists_lifted hswagger hc
  cases hrelocates with
  | shared segment h =>
    by_cases hin : Entries.get spot.param "in" = .text "body"
    · exact Spot.exists_withItem hswagger hc hgrounded hspot (h.replaces_body hspot hin hlift hdata)
    · exact Spot.exists_withItem hswagger hc hgrounded hspot (h.replaces_kept hspot hin hlift hdata)
  | hoisted shared h =>
    by_cases hin : Spot.DescribesBody document (.mapping spot.param)
    · exact Spot.exists_withItem hswagger hc hgrounded hspot (h.replaces_body hspot hin)
    · exact Spot.exists_withItem hswagger hc hgrounded hspot (h.replaces_kept hspot hin)

/-- Orders in XML, some of them only for trial: what the document takes is said once. -/
def orderSample : Entries :=
  [("swagger", .text "2.0"), ("consumes", .list [.text "application/xml"]),
   ("parameters", .object [("order", .object [("name", .text "order"), ("in", .text "body"),
     ("schema", .object [("$ref", .text "#/definitions/Order")])])]),
   ("definitions", .object [("Order", .object [("type", .text "object")])]),
   ("paths", .object [("/orders", .object [("post", .object [("parameters", .list [
     .object [("name", .text "trial"), ("in", .text "query"), ("type", .text "boolean")],
     .object [("name", .text "order"), ("in", .text "body"),
       ("schema", .object [("$ref", .text "#/definitions/Order")])]])])])])]

/-- The canonical form of the document. -/
def orderSampleCanonical : Canonical where
  data := [("openapi", .text "3.0.3"),
   ("paths", .object [("/orders", .object [("post", .object [
     ("parameters", .list [.object [("name", .text "trial"), ("in", .text "query"),
       ("schema", .object [("type", .text "boolean")])]]),
     ("requestBody", .object [("content", .object [("application/xml", .object [
       ("schema", .object [("$ref", .text "#/components/schemas/Order")])])])])])])]),
   ("components", .object [
     ("schemas", .object [("Order", .object [("type", .text "object")])]),
     ("requestBodies", .object [("order", .object [("content", .object [("application/xml", .object [
       ("schema", .object [("$ref", .text "#/components/schemas/Order")])])])])])])]
  dialect := .swagger

/-- The parameters of an operation of the document. -/
def orderSampleParams : List Value :=
  [.object [("name", .text "trial"), ("in", .text "query"), ("type", .text "boolean")],
   .object [("name", .text "order"), ("in", .text "body"),
     ("schema", .object [("$ref", .text "#/definitions/Order")])]]

/-- The place of the order in the document. -/
def orderSpot : Spot where
  pathsBefore := []
  path := "/orders"
  item := [("post", .object [("parameters", .list orderSampleParams)])]
  pathsAfter := []
  method := "post"
  operation := [("parameters", .list orderSampleParams)]
  before := [.object [("name", .text "trial"), ("in", .text "query"), ("type", .text "boolean")]]
  param := [("name", .text "order"), ("in", .text "body"),
    ("schema", .object [("$ref", .text "#/definitions/Order")])]
  after := []

/-- The place in the document of what says that an order is for trial. -/
def trialSpot : Spot where
  pathsBefore := []
  path := "/orders"
  item := [("post", .object [("parameters", .list orderSampleParams)])]
  pathsAfter := []
  method := "post"
  operation := [("parameters", .list orderSampleParams)]
  before := []
  param := [("name", .text "trial"), ("in", .text "query"), ("type", .text "boolean")]
  after := [.object [("name", .text "order"), ("in", .text "body"),
    ("schema", .object [("$ref", .text "#/definitions/Order")])]]

theorem ofDocument_relocated_orderSample :
    (∃ c', normalize (orderSpot.referring orderSample "order") = .ok c' ∧
      ∀ routes, (ofDocument orderSampleCanonical).collect.1 = .ok routes →
        ∃ routes', (ofDocument c').collect.1 = .ok routes' ∧ List.Forall₂ Reorders routes routes') ∧
    ∃ c', normalize (trialSpot.hoisted orderSample []) = .ok c' ∧
      ∀ routes, (ofDocument orderSampleCanonical).collect.1 = .ok routes →
        ∃ routes', (ofDocument c').collect.1 = .ok routes' ∧ List.Forall₂ Reorders routes routes' := by
  have hswagger : Dialect.detect orderSample = .ok .swagger := by rfl
  have hc : normalize orderSample = .ok orderSampleCanonical := by rfl
  have hgrounded : ∀ ref ∈ referencesOf true orderSampleCanonical.data, Grounded orderSampleCanonical.self ref := by
    intro ref href
    have hrefs : referencesOf true orderSampleCanonical.data =
        ["#/components/schemas/Order", "#/components/schemas/Order"] := by decide
    rw [hrefs] at href
    simp only [List.mem_cons, List.not_mem_nil, or_false, or_self] at href
    subst href
    intro pointer hpointer
    cases hpointer
    exact ⟨"components", ["schemas", "Order"], by decide +kernel, by decide⟩
  have horder : orderSpot.IsIn orderSample := ⟨rfl, by decide, by decide, rfl, rfl, rfl⟩
  have htrial : trialSpot.IsIn orderSample := ⟨rfl, by decide, by decide, rfl, rfl, rfl⟩
  refine ⟨ofDocument_relocated hswagger hc hgrounded horder (.shared "order" ?_),
    ofDocument_relocated hswagger hc hgrounded htrial (.hoisted [] ?_)⟩
  · have hname : Spot.nameOf "order" = "order" := by decide +kernel
    have hshared : Lift.SharesParam orderSample "order" orderSpot.param := ⟨by decide, by decide⟩
    refine ⟨by decide, by rw [hname]; decide, by rw [hname]; decide, by rw [hname]; exact hshared, by decide, fun _ => ?_⟩
    rw [hname]
    exact ⟨rfl, by decide, hname⟩
  · refine ⟨⟨by decide, by decide⟩, .inr ⟨by decide, rfl⟩, fun _ => List.forall_mem_nil _, fun hin => ?_⟩
    rw [htrial.describesBody_iff] at hin
    exact absurd hin (by decide)

/-- The media types of the bodies that the routes of a document take. -/
def bodyTypes (document : Entries) : Option (List (Option String)) := do
  let c ← (normalize document).toOption
  let routes ← (ofDocument c).collect.1.toOption
  return routes.map fun r => r.body.map (·.mediaType)

/-- The parameter of an operation that stands alone at its path, and that takes XML. -/
def parcelSpot (param : Entries) : Spot where
  pathsBefore := []
  path := "/parcels"
  item := [("post", .object [("consumes", .list [.text "application/xml"]), ("parameters", .list [.mapping param])])]
  pathsAfter := []
  method := "post"
  operation := [("consumes", .list [.text "application/xml"]), ("parameters", .list [.mapping param])]
  before := []
  param
  after := []

/-- The document with the operation, which shares the parameter. -/
def parcelSample (param : Entries) : Entries :=
  [("swagger", .text "2.0"), ("parameters", .object [("parcel", .mapping param)]),
   ("paths", .object [("/parcels", .mapping (parcelSpot param).item)])]

/-- **A shared body is lifted with what the document takes**, and so is one that stands with its path, although the
operation takes something else; a shared form parameter is lost. -/
theorem bodyTypes_depend_on_place :
    let body : Entries := [("name", .text "parcel"), ("in", .text "body"), ("schema", .object [("type", .text "object")])]
    let form : Entries := [("name", .text "parcel"), ("in", .text "formData"), ("type", .text "string")]
    ((parcelSpot body).IsIn (parcelSample body) ∧ Lift.SharesParam (parcelSample body) "parcel" body ∧
      Lift.IsAlone (parcelSpot body).item "post" ∧
      bodyTypes (parcelSample body) = some [some "application/xml"] ∧
      bodyTypes ((parcelSpot body).referring (parcelSample body) "parcel") = some [some "application/json"] ∧
      bodyTypes ((parcelSpot body).hoisted (parcelSample body) []) = some [some "application/json"]) ∧
    (parcelSpot form).IsIn (parcelSample form) ∧ Lift.SharesParam (parcelSample form) "parcel" form ∧
      bodyTypes (parcelSample form) = some [some "application/x-www-form-urlencoded"] ∧
      bodyTypes ((parcelSpot form).referring (parcelSample form) "parcel") = some [none] := by
  refine ⟨⟨⟨rfl, by decide, by decide, rfl, rfl, rfl⟩, ⟨by decide, by decide⟩, ⟨by decide, by decide⟩,
    ?_, ?_, ?_⟩, ⟨rfl, by decide, by decide, rfl, rfl, rfl⟩, ⟨by decide, by decide⟩, ?_, ?_⟩
  all_goals decide +kernel

end ContractSync.Route
