import ContractSync.Proofs.Contract.LiftReferences
import ContractSync.Proofs.Contract.Normal
import ContractSync.Proofs.Reference.Addressing
import ContractSync.Proofs.Text.Parts

/-!
# Shared entries

Definitions, parameters and responses of a Swagger document become components (`Shared`). **An entry that is
no body parameter keeps its name and becomes what the lift and the passes make of it**
(`Shared.entryAt_canonical`), and **a reference to it leads there from its new place** (`normalize_references`).
A reference below a key of an example stays where it is, and leads nowhere (`normalize_references_fails`).
-/

namespace ContractSync.Contract

open ContractSync.Document
open Lift

/-! ### Entries of components -/

/-- The entry of a family of components. -/
def entryAt (data : Entries) (family name : String) : Option Value :=
  Entries.get? ((Entries.get data "components").get family).entries name

theorem exists_of_get?_entries {v : Value} {key : String} {w : Value} (h : Entries.get? v.entries key = some w) :
    ∃ entries, v = .mapping entries ∧ Entries.get? entries key = some w := by
  cases v with
  | mapping entries => exact ⟨entries, rfl, h⟩
  | scalar | list | set => cases h

theorem get?_of_get {entries : Entries} {key : String} {v : Value} (h : Entries.get entries key = v)
    (hv : v ≠ .null) : Entries.get? entries key = some v := by
  cases hfound : Entries.get? entries key with
  | none =>
    rw [Entries.get, hfound] at h
    exact absurd h.symm hv
  | some w =>
    rw [Entries.get, hfound] at h
    rw [← h]
    rfl

theorem entryAt_eq_some {data : Entries} {family name : String} {v : Value} :
    entryAt data family name = some v ↔ ∃ families entries,
      Entries.get? data "components" = some (.mapping families) ∧
      Entries.get? families family = some (.mapping entries) ∧ Entries.get? entries name = some v := by
  constructor
  · intro h
    obtain ⟨entries, hentries, hv⟩ := exists_of_get?_entries h
    have hfamily := get?_of_get hentries (by simp)
    obtain ⟨families, hfamilies, hfamily⟩ := exists_of_get?_entries hfamily
    exact ⟨families, entries, get?_of_get hfamilies (by simp), hfamily, hv⟩
  · rintro ⟨families, entries, hfamilies, hentries, hv⟩
    rw [entryAt, Entries.get, hfamilies]
    show Entries.get? ((Entries.get families family)).entries name = some v
    rw [Entries.get, hentries]
    exact hv

/-! ### Passes -/

/-- What a pass makes of what stands at a key of a part. -/
def rewriteEntry (pass : Pass) (key : Scalar) (v : Value) : Except Fault Value := do
  if ← isOpaqueKey key then return v
  else if isSchemaKey key then return rewriteSchema pass v
  else rewritePart pass v

section Passes

variable {pass : Pass}

theorem pointwise_rewriteParts {entries entries' : Entries} (h : rewriteParts pass entries = .ok entries') :
    Entries.Pointwise (fun k v v' => rewriteEntry pass k v = .ok v') entries entries' := by
  induction entries generalizing entries' with
  | nil =>
    rw [rewriteParts] at h
    cases h
    exact .nil
  | cons e rest ih =>
    obtain ⟨isOpaque, v', rest', ho, hv, hr, rfl⟩ := rewriteParts_cons_eq_ok h
    refine .cons ⟨rfl, ?_⟩ (ih hr)
    show rewriteEntry pass e.1 e.2 = .ok v'
    unfold rewriteEntry
    rw [ho]
    exact hv

theorem pointwise_rewriteNamed (entries : Entries) :
    Entries.Pointwise (fun _ v v' => v' = rewriteSchema pass v) entries (rewriteNamed pass entries) := by
  induction entries with
  | nil =>
    rw [rewriteNamed]
    exact .nil
  | cons e rest ih =>
    rw [rewriteNamed]
    exact .cons ⟨rfl, rfl⟩ ih

theorem pointwise_rewriteComponents {families families' : Entries}
    (h : rewriteComponents pass families = .ok families') :
    Entries.Pointwise (fun k v v' => rewriteFamily pass k v = .ok v') families families' := by
  induction families generalizing families' with
  | nil =>
    rw [rewriteComponents] at h
    cases h
    exact .nil
  | cons e rest ih =>
    obtain ⟨v', rest', hv, hr, rfl⟩ := rewriteComponents_cons_eq_ok h
    exact .cons ⟨rfl, hv⟩ (ih hr)

theorem pointwise_rewriteDocument {document document' : Entries}
    (h : rewriteDocument pass document = .ok document') :
    Entries.Pointwise (fun k v v' => rewriteSection pass k v = .ok v') document document' := by
  induction document generalizing document' with
  | nil =>
    rw [rewriteDocument] at h
    cases h
    exact .nil
  | cons e rest ih =>
    obtain ⟨v', rest', hv, hr, rfl⟩ := rewriteDocument_cons_eq_ok h
    exact .cons ⟨rfl, hv⟩ (ih hr)

end Passes

/-! ### The kinds of shared entries -/

/-- The kinds of entries that a Swagger document shares. -/
inductive Shared where
  | definition
  | parameter
  | response
  deriving DecidableEq

namespace Shared

/-- The section of the document with the entries. -/
def origin : Shared → String
  | definition => "definitions"
  | parameter => "parameters"
  | response => "responses"

/-- The family of components that they become. -/
def family : Shared → String
  | definition => "schemas"
  | parameter => "parameters"
  | response => "responses"

/-- What the lift makes of an entry. -/
def lift (produces : Value) : Shared → Value → Except Fault Value
  | definition, v => .ok v
  | parameter, v => .ok (Lift.param v)
  | response, v => Lift.response v produces

/-- What a pass makes of an entry. -/
def rewrite (pass : Pass) (name : String) : Shared → Value → Except Fault Value
  | definition, v => .ok (rewriteSchema pass v)
  | _, v => rewriteEntry pass (.text name) v

theorem entryAt_rewriteDocument {kind : Shared} {pass : Pass} {data data' : Entries} {name : String} {v : Value}
    (hd : rewriteDocument pass data = .ok data') (h : entryAt data kind.family name = some v) :
    ∃ v', kind.rewrite pass name v = .ok v' ∧ entryAt data' kind.family name = some v' := by
  obtain ⟨families, entries, hfamilies, hentries, hv⟩ := entryAt_eq_some.mp h
  obtain ⟨section', hsection', hsection⟩ := (pointwise_rewriteDocument hd).get?_eq_some hfamilies
  obtain ⟨families', hfamilies', rfl⟩ := map_eq_ok.mp hsection
  obtain ⟨family', hfamily', hfamily⟩ := (pointwise_rewriteComponents hfamilies').get?_eq_some hentries
  have hpart : ∀ {family' : Value}, rewritePart pass (.mapping entries) = .ok family' →
      ∃ entries', family' = .mapping entries' ∧ ∃ v', Entries.get? entries' name = some v' ∧
        rewriteEntry pass (.text name) v = .ok v' := by
    intro family' hfamily
    rw [rewritePart] at hfamily
    obtain ⟨entries', hentries', hfamily⟩ := bind_eq_ok.mp hfamily
    exact ⟨entries', pure_eq_ok.mp hfamily, (pointwise_rewriteParts hentries').get?_eq_some hv⟩
  cases kind with
  | definition =>
    rw [family, rewriteFamily] at hfamily
    cases hfamily
    obtain ⟨v', hv', rfl⟩ := (pointwise_rewriteNamed entries).get?_eq_some hv
    exact ⟨_, rfl, entryAt_eq_some.mpr ⟨_, _, hsection', hfamily', hv'⟩⟩
  | parameter | response =>
    rw [rewriteFamily_of_part fun h => absurd h (by decide)] at hfamily
    obtain ⟨entries', rfl, v', hv', hentry⟩ := hpart hfamily
    exact ⟨v', hentry, entryAt_eq_some.mpr ⟨_, _, hsection', hfamily', hv'⟩⟩

/-- What the passes make of an entry. -/
def normal (kind : Shared) (name : String) (v : Value) : Except Fault Value :=
  passes.foldlM (fun v pass => kind.rewrite pass name v) v

theorem entryAt_runPasses {kind : Shared} {data data' : Entries} {name : String} {v : Value}
    (hd : runPasses data = .ok data') (h : entryAt data kind.family name = some v) :
    ∃ v', kind.normal name v = .ok v' ∧ entryAt data' kind.family name = some v' := by
  unfold runPasses at hd
  unfold normal
  generalize passes = steps at hd ⊢
  induction steps generalizing data v with
  | nil =>
    cases hd
    exact ⟨v, rfl, h⟩
  | cons pass steps ih =>
    rw [List.foldlM_cons] at hd
    obtain ⟨next, hnext, hd⟩ := bind_eq_ok.mp hd
    obtain ⟨w, hw, hentry⟩ := entryAt_rewriteDocument hnext h
    obtain ⟨v', hv', hfinal⟩ := ih hentry hd
    exact ⟨v', by rw [List.foldlM_cons, hw]; exact hv', hfinal⟩

end Shared

/-! ### Lifting -/

section Lifting

variable {key : Scalar} {v : Value}

/-- What becomes of what stands at a key when references move. -/
def moveAt (key : Scalar) (v : Value) : Value :=
  match v with
  | .scalar (.text ref) => if key = referenceKey then .text (moveReference ref) else .text ref
  | v => if isLiteralKey key then v else moveReferences v

theorem moveAt_of_not_text (h : v.text? = none) :
    moveAt key v = if isLiteralKey key then v else moveReferences v := by
  unfold moveAt
  split
  · cases h
  · rfl

theorem pointwise_moveInEntries (entries : Entries) :
    Entries.Pointwise (fun k v v' => v' = moveAt k v) entries (moveInEntries entries) := by
  induction entries with
  | nil =>
    rw [moveInEntries]
    exact .nil
  | cons e rest ih =>
    obtain ⟨key, v⟩ := e
    cases hv : v.text? with
    | none =>
      rw [moveInEntries_cons _ hv]
      exact .cons ⟨rfl, (moveAt_of_not_text hv).symm⟩ ih
    | some s =>
      rw [eq_text_of_text? hv, moveInEntries_text]
      exact .cons ⟨rfl, rfl⟩ ih

theorem get?_moveInEntries {entries : Entries} {key : String} (h : Entries.get? entries key = some v) :
    Entries.get? (moveInEntries entries) key = some (moveAt (.text key) v) := by
  obtain ⟨v', hv', rfl⟩ := (pointwise_moveInEntries entries).get?_eq_some h
  exact hv'

theorem moveAt_mapping {entries : Entries} (h : isLiteralKey key = false) :
    moveAt key (.mapping entries) = .mapping (moveInEntries entries) := by
  rw [moveAt_of_not_text rfl, h, if_neg Bool.false_ne_true, moveReferences]

/-- A place in the request is no reference. -/
theorem isBodyParam_moveAt : isBodyParam (moveAt key v) = isBodyParam v := by
  have hin : ∀ entries : Entries, isBodyParam (.mapping (moveInEntries entries)) =
      isBodyParam (.mapping entries) := by
    intro entries
    show (Entries.get (moveInEntries entries) "in" == _) = (Entries.get entries "in" == _)
    cases hfound : Entries.get? entries "in" with
    | none => rw [Entries.get, Entries.get, (pointwise_moveInEntries entries).get?_eq_none hfound, hfound]
    | some w =>
      rw [Entries.get, Entries.get, get?_moveInEntries hfound, hfound]
      show (moveAt (.text "in") w == _) = (w == _)
      cases hw : w.text? with
      | some s => rw [eq_text_of_text? hw]; rfl
      | none =>
        have hother : ∀ u : Value, u.text? = none → (u == .text "body") = false := by
          intro u hu
          rw [beq_eq_false_iff_ne]
          rintro rfl
          cases hu
        rw [moveAt_of_not_text hw, hother w hw]
        split
        · exact hother w hw
        · exact hother _ ((text?_moveReferences w).trans hw)
  cases hv : v.text? with
  | some s =>
    rw [eq_text_of_text? hv, moveAt]
    split <;> rfl
  | none =>
    rw [moveAt_of_not_text hv]
    split
    · rfl
    · cases v with
      | mapping entries =>
        rw [moveReferences]
        exact hin entries
      | list items =>
        rw [moveReferences]
        rfl
      | scalar | set => rw [moveReferences]

end Lifting

namespace Shared

theorem get?_param_of_not_isBodyParam {found : Entries} {name : String} {v : Value}
    (h : Entries.get? found name = some v) (hv : isBodyParam v = false) :
    Entries.get? ((found.filter fun e => !isBodyParam e.2).map fun e => (e.1, param e.2)) name =
      some (param v) := by
  induction found with
  | nil => cases h
  | cons e rest ih =>
    rw [Entries.get?_cons] at h
    split at h
    · rename_i hkey
      cases h
      rw [List.filter_cons_of_pos (by rw [hv]; rfl), List.map_cons, Entries.get?_cons, if_pos hkey]
    · rename_i hkey
      rw [List.filter_cons]
      split
      · rw [List.map_cons, Entries.get?_cons, if_neg hkey]
        exact ih h
      · exact ih h

/-- The lift takes up the entry under its name. -/
theorem exists_lifted {kind : Shared} {moved found : Entries} {p : Progress} {name : String} {v : Value}
    (h : components moved = .ok p) (hfound : Entries.get? moved kind.origin = some (.mapping found))
    (hv : Entries.get? found name = some v) (hbody : kind = parameter → isBodyParam v = false) :
    ∃ lifted entries, kind.lift (producesOf moved) v = .ok lifted ∧
      p.components.get? kind.family = some (.mapping entries) ∧ Entries.get? entries name = some lifted := by
  unfold components at h
  obtain ⟨p₁, h₁, h⟩ := bind_eq_ok.mp h
  obtain ⟨p₂, h₂, h⟩ := bind_eq_ok.mp h
  obtain ⟨p₃, h₃, h₄⟩ := bind_eq_ok.mp h
  have hstart : ∀ key ∈ ["definitions", "parameters", "responses"],
      Entries.get? (start moved).rest key = Entries.get? moved key := by
    intro key hkey
    simp only [List.mem_cons, List.not_mem_nil, or_false] at hkey
    rcases hkey with rfl | rfl | rfl <;>
      exact (Entries.get?_putNew_of_ne (by decide)).trans
        ((Entries.get?_erase_of_ne (by decide)).trans (Entries.get?_erase_of_ne (by decide)))
  cases kind with
  | definition =>
    have hset := definitions_family h₁ ((hstart _ (by decide)).trans hfound)
    refine ⟨v, found, rfl, ?_, hv⟩
    rw [(securityDefinitions_leaves h₄).components _ (by decide), (sharedResponses_leaves h₃).components _ (by decide),
      (parameters_leaves h₂).components _ (by decide)]
    exact hset
  | parameter =>
    have hget : Entries.get? p₁.rest "parameters" = some (.mapping found) :=
      ((definitions_leaves h₁).rest _ (by decide)).trans ((hstart _ (by decide)).trans hfound)
    rcases parameters_eq_ok h₂ with ⟨hnone, -⟩ |
      ⟨found', requestBodies, components, hget', -, hcomponents, hcomponents', -, -⟩
    · rw [takeMapping_of_get? hget] at hnone
      cases hnone
    · cases hget.symm.trans hget'
      have hother := get?_param_of_not_isBodyParam hv (hbody rfl)
      refine ⟨param v, _, rfl, ?_, hother⟩
      have hne : ((found.filter fun e => !isBodyParam e.2).map fun e => (e.1, param e.2)) ≠ [] := by
        intro hempty
        rw [hempty] at hother
        cases hother
      rw [(securityDefinitions_leaves h₄).components _ (by decide), (sharedResponses_leaves h₃).components _ (by decide),
        setUnlessEmpty_get? hcomponents', if_neg fun hand => absurd hand.1 (by decide)]
      exact (setUnlessEmpty_get? hcomponents).trans (if_pos ⟨rfl, hne⟩)
  | response =>
    have hget : Entries.get? p₂.rest "responses" = some (.mapping found) := by
      rw [(parameters_leaves h₂).rest _ (by decide), (definitions_leaves h₁).rest _ (by decide)]
      exact (hstart _ (by decide)).trans hfound
    obtain ⟨lifted, hlifted, hset⟩ := sharedResponses_family h₃ hget
    obtain ⟨v', hv', hresponse⟩ := (Entries.pointwise_of_mapM (f := fun _ v => Lift.response v (producesOf moved))
      hlifted).get?_eq_some hv
    refine ⟨v', lifted, hresponse, ?_, hv'⟩
    rw [(securityDefinitions_leaves h₄).components _ (by decide)]
    exact hset

/-- The references to entries of the kind begin so. -/
def mark (kind : Shared) : String := "#/" ++ kind.origin ++ "/"

/-- The references to components of the kind begin so. -/
def newMark (kind : Shared) : String := "#/components/" ++ kind.family ++ "/"

theorem moveReference_mark (kind : Shared) (segment : String) :
    moveReference (kind.mark ++ segment) = kind.newMark ++ segment := by
  have hfind : moves.find? (fun move => move.1.toList.isPrefixOf (kind.mark ++ segment).toList) =
      some (kind.mark, kind.newMark) := by
    rw [String.toList_append]
    cases kind <;> rfl
  unfold moveReference
  rw [hfind]
  simp only
  rw [String.toList_append, ← String.length_toList, List.drop_left, String.ofList_toList]

theorem segments_newMark (kind : Shared) {segment : String} (h : '/' ∉ segment.toList) :
    Reference.Pointer.segments (kind.newMark ++ segment) =
      ["components", kind.family, Reference.Pointer.decodeSegment segment.toList] := by
  have hfamily : '/' ∉ kind.family.toList := by cases kind <;> decide
  have hdecoded : Reference.Pointer.decodeSegment "components".toList = "components" ∧
      Reference.Pointer.decodeSegment kind.family.toList = kind.family := by cases kind <;> decide +kernel
  have hwritten : (kind.newMark ++ segment).toList =
      '#' :: '/' :: ("components".toList ++ '/' :: (kind.family.toList ++ '/' :: segment.toList)) := by
    rw [String.toList_append]
    cases kind <;> rfl
  have hpieces := Reference.pieces_component hwritten hfamily h
  rw [Reference.segments_eq_map_pieces (by rw [hpieces]; exact nofun), hpieces]
  simp only [List.map_cons, List.map_nil, hdecoded]

theorem toLocal_newMark (kind : Shared) (segment : String) (self : Option String) :
    Reference.toLocal (kind.newMark ++ segment) self = some (kind.newMark ++ segment) := by
  refine Reference.toLocal_of_hash ?_ self
  rw [String.toList_append]
  cases kind <;> rfl

/-- A reference to the place of a component leads to it. -/
theorem resolveReference_newMark {kind : Shared} {c : Canonical} {segment : String} {v : Value}
    (h : '/' ∉ segment.toList)
    (hv : entryAt c.data kind.family (Reference.Pointer.decodeSegment segment.toList) = some v) :
    c.resolveReference (kind.newMark ++ segment) = .ok (some v) := by
  obtain ⟨families, entries, hfamilies, hentries, hv⟩ := entryAt_eq_some.mp hv
  unfold Canonical.resolveReference
  rw [toLocal_newMark]
  simp only
  rw [Reference.Pointer.resolve, segments_newMark kind h]
  simp only [Reference.Pointer.follow, Reference.Pointer.step, hfamilies, hentries, hv, bind, Except.bind]

/-- The entry of that name in the document. -/
def entryIn (kind : Shared) (document : Entries) (name : String) : Option Value :=
  Entries.get? (Entries.get document kind.origin).entries name

/-- What the lift and the passes make of an entry. -/
def canonical (kind : Shared) (document : Entries) (name : String) (v : Value) : Except Fault Value := do
  let lifted ← kind.lift (producesOf (moveInEntries document)) (moveAt (.text name) v)
  kind.normal name lifted

/-- **An entry that is no body parameter keeps its name**, and becomes what the lift and the passes make
of it. -/
theorem entryAt_canonical {kind : Shared} {document lifted data : Entries} {name : String} {v : Value}
    (hlift : Lift.document document = .ok lifted) (hdata : runPasses lifted = .ok data)
    (hv : kind.entryIn document name = some v) (hbody : kind = parameter → isBodyParam v = false) :
    ∃ v', kind.canonical document name v = .ok v' ∧ entryAt data kind.family name = some v' := by
  obtain ⟨found, hfound, hv⟩ := exists_of_get?_entries hv
  have horigin : isLiteralKey (.text kind.origin) = false := by cases kind <;> decide
  have hmoved := get?_moveInEntries (get?_of_get hfound (by simp))
  rw [moveAt_mapping horigin] at hmoved
  obtain ⟨p, hp, hcomponents⟩ := document_components hlift
  obtain ⟨w, entries, hw, hfamily, hentry⟩ := exists_lifted hp hmoved (get?_moveInEntries hv)
    fun hkind => isBodyParam_moveAt.trans (hbody hkind)
  obtain ⟨families, hfamilies, hfamily⟩ := exists_of_get?_entries hfamily
  rw [hfamilies] at hcomponents
  obtain ⟨v', hv', hdata'⟩ := entryAt_runPasses hdata (entryAt_eq_some.mpr ⟨_, _, hcomponents, hfamily, hentry⟩)
  refine ⟨v', ?_, hdata'⟩
  rw [canonical, hw]
  exact hv'

end Shared

/-! ### References -/

/-- The reference leads to where entries are no more. -/
def isOld (ref : String) : Bool := moves.any fun move => move.1.toList.isPrefixOf ref.toList

theorem isOld_moveReference (ref : String) : isOld (moveReference ref) = false := by
  unfold moveReference
  split
  · rename_i old new hfind
    have hmem := List.mem_of_find?_eq_some hfind
    rw [isOld, String.toList_append]
    simp only [moves, List.mem_cons, Prod.mk.injEq, List.not_mem_nil, or_false] at hmem
    rcases hmem with ⟨-, rfl⟩ | ⟨-, rfl⟩ | ⟨-, rfl⟩ <;> rfl
  · rename_i hnone
    rw [isOld, List.any_eq_false]
    exact List.find?_eq_none.mp hnone

theorem isOld_bodyReference (name : String) : isOld (bodyReference name) = false := by
  have hmark : "#/components/requestBodies/".toList = '#' :: '/' :: 'c' :: "omponents/requestBodies/".toList := by
    decide
  have hreference : (bodyReference name).toList = _ := Text.toList_append_eq hmark rfl
  unfold isOld
  rw [hreference]
  rfl

/-- The reference is one of the older document that has moved, or leads to a request body. -/
def HasMoved (document : Entries) (ref : String) : Prop :=
  (∃ old ∈ referencesOf false document, ref = moveReference old) ∨ ∃ name, ref = bodyReference name

theorem HasMoved.not_isOld {document : Entries} {ref : String} (h : HasMoved document ref) : isOld ref = false := by
  rcases h with ⟨old, -, rfl⟩ | ⟨name, rfl⟩
  · exact isOld_moveReference old
  · exact isOld_bodyReference name

/-- **Every reference outside the keys of examples moves with its target.** No other kind of reference is left
outside those keys, nor anywhere else but where it stood under such a key; and the new reference leads to what
the entry has become. -/
theorem normalize_references {document : Entries} {c : Canonical}
    (hswagger : Dialect.detect document = .ok .swagger) (hc : normalize document = .ok c) :
    (∀ ref ∈ referencesOf false c.data, isOld ref = false ∧ HasMoved document ref) ∧
      (∀ ref ∈ referencesOf true c.data,
        ref ∈ heldReferencesOf document ∨ isOld ref = false ∧ HasMoved document ref) ∧
      ∀ (kind : Shared) (segment : String) (v : Value), '/' ∉ segment.toList →
        kind.entryIn document (Reference.Pointer.decodeSegment segment.toList) = some v →
        (kind = .parameter → isBodyParam v = false) →
        ∃ v', kind.canonical document (Reference.Pointer.decodeSegment segment.toList) v = .ok v' ∧
          c.resolveReference (moveReference (kind.mark ++ segment)) = .ok (some v') := by
  obtain ⟨dialect, lifted, hdialect, hlifted, hdata⟩ := normalize_eq_ok hc
  cases hdialect.symm.trans hswagger
  have hlift : Lift.document document = .ok lifted := hlifted
  have hrefers : ∀ {deep : Bool} {P : String → Prop}, (∀ ref, HasMoved document ref → P ref) →
      (deep = true → ∀ ref ∈ heldReferencesOf document, P ref) → Refers deep P (.mapping c.data) := by
    intro deep P hmoved hheld
    refine (keeps_runPasses hdata).refers (refers_liftDocument (fun name => hmoved _ (.inr ⟨name, rfl⟩)) hlift ?_)
    refine refers_moveInEntries document ?_ hheld
    rw [Refers, referencesIn]
    exact fun ref href => hmoved _ (.inl ⟨ref, href, rfl⟩)
  have hfree := hrefers (P := fun ref => isOld ref = false ∧ HasMoved document ref)
    (fun ref h => ⟨h.not_isOld, h⟩) (fun (hdeep : false = true) => absurd hdeep Bool.false_ne_true)
  have hall := hrefers (P := fun ref => ref ∈ heldReferencesOf document ∨ isOld ref = false ∧ HasMoved document ref)
    (fun ref h => .inr ⟨h.not_isOld, h⟩) (fun (_ : true = true) ref h => .inl h)
  rw [Refers, referencesIn] at hfree hall
  refine ⟨hfree, hall, ?_⟩
  intro kind segment v hsegment hv hbody
  obtain ⟨v', hv', hentry⟩ := Shared.entryAt_canonical hlift hdata hv hbody
  refine ⟨v', hv', ?_⟩
  rw [Shared.moveReference_mark]
  exact Shared.resolveReference_newMark hsegment hentry

/-- Pets with an owner, listed with a shared parameter and a shared response. -/
def petSample : Entries :=
  [("swagger", .text "2.0"),
   ("definitions", .object [
     ("Pet", .object [("properties", .object [("owner", .object [("$ref", .text "#/definitions/Owner")])])]),
     ("Owner", .object [("type", .text "object")])]),
   ("parameters", .object [("limit", .object [("name", .text "limit"), ("in", .text "query"),
     ("type", .text "integer")])]),
   ("responses", .object [("Missing", .object [("schema", .object [("$ref", .text "#/definitions/Owner")])])]),
   ("paths", .object [("/pets", .object [("get", .object [
     ("parameters", .list [.object [("$ref", .text "#/parameters/limit")]]),
     ("responses", .object [("404", .object [("$ref", .text "#/responses/Missing")])])])])])]

/-- The canonical form of the document: the references have moved with the components. -/
def petSampleCanonical : Canonical where
  data := [("openapi", .text "3.0.3"),
   ("paths", .object [("/pets", .object [("get", .object [
     ("parameters", .list [.object [("$ref", .text "#/components/parameters/limit")]]),
     ("responses", .object [("404", .object [("$ref", .text "#/components/responses/Missing")])])])])]),
   ("components", .object [
     ("schemas", .object [
       ("Pet", .object [("properties", .object [
         ("owner", .object [("$ref", .text "#/components/schemas/Owner")])])]),
       ("Owner", .object [("type", .text "object")])]),
     ("parameters", .object [("limit", .object [("name", .text "limit"), ("in", .text "query"),
       ("schema", .object [("type", .text "integer")])])]),
     ("responses", .object [("Missing", .object [("content", .object [("application/json", .object [
       ("schema", .object [("$ref", .text "#/components/schemas/Owner")])])])])])])]
  dialect := .swagger

theorem normalize_references_pet :
    Dialect.detect petSample = .ok .swagger ∧ normalize petSample = .ok petSampleCanonical ∧
      (∀ ref ∈ referencesOf false petSampleCanonical.data, isOld ref = false ∧ HasMoved petSample ref) ∧
      ∃ v, Shared.parameter.canonical petSample "limit" v =
          .ok (.object [("name", .text "limit"), ("in", .text "query"),
            ("schema", .object [("type", .text "integer")])]) ∧
        petSampleCanonical.resolveReference (moveReference "#/parameters/limit") =
          .ok (some (.object [("name", .text "limit"), ("in", .text "query"),
            ("schema", .object [("type", .text "integer")])])) := by
  have hversion : Dialect.detect petSample = .ok .swagger := by rfl
  have hc : normalize petSample = .ok petSampleCanonical := by rfl
  obtain ⟨hfree, -, hleads⟩ := normalize_references hversion hc
  obtain ⟨v', hv', hresolved⟩ := hleads .parameter "limit"
    (.object [("name", .text "limit"), ("in", .text "query"), ("type", .text "integer")])
    (by decide) (by decide +kernel) (fun _ => by decide)
  have hcanonical : Shared.parameter.canonical petSample "limit"
      (.object [("name", .text "limit"), ("in", .text "query"), ("type", .text "integer")]) =
        .ok (.object [("name", .text "limit"), ("in", .text "query"),
          ("schema", .object [("type", .text "integer")])]) := by rfl
  have hname : Reference.Pointer.decodeSegment "limit".toList = "limit" := by decide +kernel
  have href : Shared.parameter.mark ++ "limit" = "#/parameters/limit" := by decide
  rw [hname, hcanonical] at hv'
  cases hv'
  rw [href] at hresolved
  exact ⟨hversion, hc, hfree, _, hcanonical, hresolved⟩

/-- A property that is named as an example, and holds a reference. -/
def exampleSample : Entries :=
  [("swagger", .text "2.0"),
   ("definitions", .object [
     ("A", .object [("properties", .object [("example", .object [("$ref", .text "#/definitions/B")])])]),
     ("B", .object [("type", .text "string")])])]

/-- The canonical form of the document: the definitions have moved, and the reference has not. -/
def exampleSampleCanonical : Canonical where
  data := [("openapi", .text "3.0.3"),
   ("components", .object [("schemas", .object [
     ("A", .object [("properties", .object [("example", .object [("$ref", .text "#/definitions/B")])])]),
     ("B", .object [("type", .text "string")])])])]
  dialect := .swagger

/-- **A reference stays behind if the property that holds it is named as an example is**, and leads nowhere. -/
theorem normalize_references_fails :
    Dialect.detect exampleSample = .ok .swagger ∧ normalize exampleSample = .ok exampleSampleCanonical ∧
      Shared.definition.entryIn exampleSample "B" = some (.object [("type", .text "string")]) ∧
      "#/definitions/B" ∈ referencesOf true exampleSampleCanonical.data ∧
      exampleSampleCanonical.resolveReference "#/definitions/B" = .ok none :=
  ⟨rfl, rfl, by decide +kernel, by decide +kernel, eq_ok_of_toOption (by decide +kernel)⟩

end ContractSync.Contract
