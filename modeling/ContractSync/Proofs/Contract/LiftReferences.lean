import ContractSync.Proofs.Contract.Lift
import ContractSync.Proofs.Contract.References

/-!
# The references of a lifted document

Lifting moves what a document holds and wraps it up again. **It adds no reference** but those to the request
bodies that shared parameters became (`refers_liftDocument`).
-/

namespace ContractSync.Contract

open ContractSync.Document
open Lift

variable {deep : Bool} {P : String → Prop}

/-! ### What is built -/

theorem refers_cons {key : Scalar} {v : Value} {rest : Entries} (hkey : key ≠ referenceKey) (hv : Refers deep P v)
    (hrest : Refers deep P (.mapping rest)) : Refers deep P (.mapping ((key, v) :: rest)) :=
  refers_mapping.mpr (List.forall_mem_cons.mpr ⟨refersAt_of_ne hkey hv, refers_mapping.mp hrest⟩)

theorem refers_object_singleton {key : String} {v : Value} (hkey : .text key ≠ referenceKey)
    (hv : Refers deep P v) : Refers deep P (.object [(key, v)]) :=
  refers_cons hkey hv refers_object_nil

theorem Refers.putKey {entries : Entries} {key : Scalar} {v : Value} (h : Refers deep P (.mapping entries))
    (hv : Refers deep P v) (htext : v.text? = none) : Refers deep P (.mapping (Entries.putKey entries key v)) := by
  have hat : ∀ key, RefersAt deep P key v := fun _ => (refersAt_of_not_text htext).mpr fun _ => hv
  rw [refers_mapping] at h ⊢
  unfold Entries.putKey
  split
  · intro e he
    obtain ⟨e', he', rfl⟩ := List.mem_map.mp he
    split
    · exact hat _
    · exact h e' he'
  · exact List.forall_mem_append.mpr ⟨h, List.forall_mem_singleton.mpr (hat _)⟩

theorem refers_ofWrites {keys : List Scalar} {v : Value} (hv : Refers deep P v) (htext : v.text? = none) :
    Refers deep P (.mapping (Entries.ofWrites (keys.map fun key => (key, v)))) := by
  have hfold : ∀ (keys : List Scalar) (entries : Entries), Refers deep P (.mapping entries) →
      Refers deep P (.mapping ((keys.map fun key => (key, v)).foldl
        (fun entries w => Entries.putKey entries w.1 w.2) entries)) := by
    intro keys
    induction keys with
    | nil => exact fun _ h => h
    | cons key keys ih => exact fun entries h => ih _ (Refers.putKey h hv htext)
  exact hfold keys [] refers_object_nil

theorem refers_present {key : String} {v : Value} (hkey : .text key ≠ referenceKey) (hv : Refers deep P v) :
    Refers deep P (.mapping (present key v)) := by
  unfold present
  split
  · exact refers_cons hkey hv refers_object_nil
  · exact refers_object_nil

theorem refers_requiredIf (b : Bool) : Refers deep P (.mapping (requiredIf b)) := by
  unfold requiredIf
  split
  · exact refers_cons (by decide) (refers_scalar _) refers_object_nil
  · exact refers_object_nil

/-! ### Parameters -/

theorem refers_typeSchema {param : Entries} (h : Refers deep P (.mapping param)) :
    Refers deep P (.mapping (typeSchema param)) := by
  have hkeys : ∀ key ∈ typeKeywords, Scalar.text key ≠ referenceKey ∧ isLiteralKey (.text key) = false := by decide
  have htaken : Refers deep P (.mapping (typeKeywords.filterMap fun key =>
      (Entries.get? param key).map fun v => (.text key, v))) := by
    refine refers_mapping.mpr fun e he => ?_
    obtain ⟨key, hkey, he⟩ := List.mem_filterMap.mp he
    obtain ⟨v, hv, rfl⟩ := Option.map_eq_some_iff.mp he
    exact refersAt_of_ne (hkeys key hkey).1 (refers_of_get? h (hkeys key hkey).2 hv)
  have hfile : Refers deep P fileSchema := by
    have hnone : referencesIn deep fileSchema = [] := by cases deep <;> decide
    rw [Refers, hnone]
    exact List.forall_mem_nil _
  unfold typeSchema
  extract_lets taken plain
  have hplain : Refers deep P (.mapping plain) := by
    unfold plain
    split
    · have htype : Scalar.text "type" ≠ referenceKey := by decide
      exact (htaken.put htype (refers_scalar "string")).put (by decide) (refers_scalar "binary")
    · exact htaken
  split
  · exact hplain.put (by decide) hfile
  · exact hplain

theorem keeps_param (v : Value) : Keeps deep P v (param v) := by
  unfold param
  split
  · split
    · exact .refl _
    · refine keeps_mapping fun h => ?_
      have hrest := refers_foldl_erase typeKeywords h
      exact hrest.put (by decide) (refers_typeSchema h)
  · exact .refl _

theorem refers_content {mediaTypes schema v : Value} (h : content mediaTypes schema = .ok v)
    (hschema : Refers deep P schema) : Refers deep P v := by
  unfold content at h
  obtain ⟨parts, -, h⟩ := bind_eq_ok.mp h
  obtain ⟨keys, -, h⟩ := bind_eq_ok.mp h
  rw [pure_eq_ok.mp h]
  exact refers_ofWrites (refers_object_singleton (by decide) hschema) rfl

theorem refers_bodyParam {entries : Entries} {consumes v : Value} (h : bodyParam entries consumes = .ok v)
    (hentries : Refers deep P (.mapping entries)) : Refers deep P v := by
  unfold bodyParam at h
  simp only at h
  obtain ⟨found, hfound, h⟩ := bind_eq_ok.mp h
  rw [pure_eq_ok.mp h]
  refine Refers.append (Refers.append (refers_cons (by decide) (refers_content hfound ?_) refers_object_nil)
    (refers_present (by decide) (refers_get hentries (by decide)))) (refers_requiredIf _)
  cases hv : Entries.get? entries "schema" with
  | none => exact refers_object_nil
  | some schema => exact refers_of_get? hentries (by decide) hv

theorem isMapping_of_isBodyParam {v : Value} (h : isBodyParam v = true) : ∃ entries, v = .mapping entries := by
  cases v with
  | mapping entries => exact ⟨entries, rfl⟩
  | scalar | list | set => cases h

theorem keeps_bodyParam {v v' consumes : Value} (h : bodyParam v.entries consumes = .ok v')
    (hv : isBodyParam v = true) : Keeps deep P v v' := by
  obtain ⟨entries, rfl⟩ := isMapping_of_isBodyParam hv
  refine ⟨?_, fun hentries => refers_bodyParam h hentries⟩
  unfold bodyParam at h
  obtain ⟨found, -, h⟩ := bind_eq_ok.mp h
  rw [pure_eq_ok.mp h]
  rfl

/-- The form refers to nothing else. -/
structure FormRefers (deep : Bool) (P : String → Prop) (form : Form) : Prop where
  properties : Refers deep P (.mapping form.properties)
  required : Refers deep P (.list form.required)

theorem FormRefers.add {form form' : Form} {entries : Entries} (h : FormRefers deep P form)
    (hentries : Refers deep P (.mapping entries)) (hadd : form.add entries = .ok form') : FormRefers deep P form' := by
  unfold Form.add at hadd
  extract_lets schema hasFile description described at hadd
  have hdescribed : Refers deep P (.mapping described) := by
    unfold described
    split
    · exact (refers_typeSchema hentries).put (by decide)
        (refers_get hentries (by decide))
    · exact refers_typeSchema hentries
  split at hadd
  · rename_i name hname
    obtain ⟨key, -, hadd⟩ := bind_eq_ok.mp hadd
    rw [pure_eq_ok.mp hadd]
    refine ⟨h.properties.putKey hdescribed rfl, ?_⟩
    have hone := List.forall_mem_singleton.mpr (refers_of_get? hentries (by decide) hname)
    show Refers deep P (.list (if _ then _ else _))
    split
    · exact refers_list.mpr (List.forall_mem_append.mpr ⟨refers_list.mp h.required, hone⟩)
    · exact h.required
  · cases hadd

theorem refers_formBody {mediaType : String} {schema : Entries} (h : Refers deep P (.mapping schema)) (b : Bool) :
    Refers deep P (.mapping ([(.text "content", .object [(mediaType, .object [("schema", .mapping schema)])])] ++
      requiredIf b)) := by
  have hmedia : Refers deep P (.object [(mediaType, .object [("schema", .mapping schema)])]) :=
    refers_mapping.mpr (List.forall_mem_singleton.mpr ((refersAt_of_not_text rfl).mpr fun _ =>
      refers_object_singleton (by decide) h))
  exact Refers.append (refers_cons (by decide) hmedia refers_object_nil) (refers_requiredIf _)

theorem refers_formParams {params : List Entries} {consumes v : Value}
    (h : formParams params consumes = .ok v) (hparams : ∀ entries ∈ params, Refers deep P (.mapping entries)) :
    Refers deep P v := by
  unfold formParams at h
  obtain ⟨form, hform, h⟩ := bind_eq_ok.mp h
  have hrefers : FormRefers deep P form :=
    foldlM_induction (fun entries he _ _ hI hadd => FormRefers.add hI (hparams entries he) hadd) hform
      ⟨refers_object_nil, refers_list.mpr (List.forall_mem_nil _)⟩
  have hschema : Refers deep P (.mapping ([(.text "type", .text "object"),
      (.text "properties", .mapping form.properties)] ++
        if !form.required.isEmpty then [(.text "required", .list form.required)] else [])) := by
    refine Refers.append (refers_cons (by decide) (refers_scalar _)
      (refers_cons (by decide) hrefers.properties refers_object_nil)) ?_
    split
    · exact refers_cons (by decide) hrefers.required refers_object_nil
    · exact refers_object_nil
  simp only at h
  split at h
  · rw [pure_eq_ok.mp h]
    exact refers_formBody hschema _
  · obtain ⟨multipart, -, h⟩ := bind_eq_ok.mp h
    rw [pure_eq_ok.mp h]
    exact refers_formBody hschema _

/-- What is found of parameters refers to nothing else. -/
structure ParamsRefer (deep : Bool) (P : String → Prop) (found : Params) : Prop where
  kept : ∀ v ∈ found.kept, Refers deep P v
  body : ∀ v ∈ found.body, Refers deep P v
  form : ∀ entries ∈ found.form, Refers deep P (.mapping entries)

section Body

/-- A reference to a request body that a shared parameter became. -/
def bodyReference (name : String) : String := "#/components/requestBodies/" ++ name

variable (hbody : ∀ name, P (bodyReference name))

include hbody

theorem ParamsRefer.add {found found' : Params} {consumes v : Value} {bodies : List Scalar}
    (h : ParamsRefer deep P found) (hv : Refers deep P v) (hadd : found.add consumes bodies v = .ok found') :
    ParamsRefer deep P found' := by
  have hkept : ∀ {v}, Refers deep P v → ∀ w ∈ found.kept ++ [v], Refers deep P w := fun hv =>
    List.forall_mem_append.mpr ⟨h.kept, List.forall_mem_singleton.mpr hv⟩
  unfold Params.add at hadd
  split at hadd
  · rename_i entries
    split at hadd
    · simp only at hadd
      split at hadd
      · cases hadd
        refine ⟨h.kept, forall_mem_some ?_, h.form⟩
        refine refers_mapping.mpr (List.forall_mem_singleton.mpr (refersAt_text.mpr fun _ => hbody _))
      · cases hadd
        exact ⟨hkept hv, h.body, h.form⟩
    · simp only at hadd
      split at hadd
      · obtain ⟨body, hbody, hadd⟩ := bind_eq_ok.mp hadd
        cases pure_eq_ok.mp hadd
        exact ⟨h.kept, forall_mem_some (refers_bodyParam hbody hv), h.form⟩
      · split at hadd
        · cases hadd
          exact ⟨h.kept, h.body, List.forall_mem_append.mpr ⟨h.form, List.forall_mem_singleton.mpr hv⟩⟩
        · cases hadd
          exact ⟨hkept ((keeps_param _).refers hv), h.body, h.form⟩
  · cases hadd
    exact h

theorem refers_params {vs kept : List Value} {body : Option Value} {consumes : Value} {bodies : List Scalar}
    (h : params vs consumes bodies = .ok (kept, body)) (hvs : ∀ v ∈ vs, Refers deep P v) :
    Refers deep P (.list kept) ∧ ∀ v ∈ body, Refers deep P v := by
  unfold params at h
  obtain ⟨found, hfound, h⟩ := bind_eq_ok.mp h
  have hrefer : ParamsRefer deep P found :=
    foldlM_induction (fun v hv _ _ hI hadd => ParamsRefer.add hbody hI (hvs v hv) hadd) hfound
      ⟨List.forall_mem_nil _, forall_mem_none, List.forall_mem_nil _⟩
  have hkept : Refers deep P (.list found.kept) := refers_list.mpr hrefer.kept
  split at h
  · rename_i found' hfound'
    cases pure_eq_ok.mp h
    exact ⟨hkept, forall_mem_some (hrefer.body _ hfound')⟩
  · split at h
    · cases pure_eq_ok.mp h
      exact ⟨hkept, forall_mem_none⟩
    · obtain ⟨form, hform, h⟩ := bind_eq_ok.mp h
      cases pure_eq_ok.mp h
      exact ⟨hkept, forall_mem_some (refers_formParams hform hrefer.form)⟩

end Body

/-! ### Responses and security -/

theorem Refers.of_map {f : Scalar × Value → Scalar × Value} {entries : Entries} (h : Refers deep P (.mapping entries))
    (hf : ∀ e, RefersAt deep P e.1 e.2 → RefersAt deep P (f e).1 (f e).2) : Refers deep P (.mapping (entries.map f)) := by
  refine refers_mapping.mpr fun e he => ?_
  obtain ⟨e', he', rfl⟩ := List.mem_map.mp he
  exact hf e' (refers_mapping.mp h e' he')

theorem keeps_withHeaders (entries : Entries) : Keeps deep P (.mapping entries) (.mapping (withHeaders entries)) := by
  refine keeps_mapping fun h => ?_
  unfold withHeaders
  split
  · rename_i headers hheaders
    refine h.put (by decide) ?_
    have hold : Refers deep P (.mapping headers) := hheaders ▸ refers_get h (by decide)
    exact hold.of_map fun e he => (keeps_param e.2).refersAt he
  · exact h

theorem keeps_response {v v' produces : Value} (h : response v produces = .ok v') : Keeps deep P v v' := by
  cases v with
  | mapping entries =>
    rw [response_mapping] at h
    split at h
    · cases h
      exact .refl _
    · obtain ⟨found, hfound, rfl⟩ := map_eq_ok.mp h
      refine keeps_mapping fun hv => (keeps_withHeaders _).refers (Refers.erase ?_ "examples")
      unfold withContent at hfound
      split at hfound
      · rename_i schema hschema
        obtain ⟨media, hmedia, hfound⟩ := bind_eq_ok.mp hfound
        rw [pure_eq_ok.mp hfound]
        exact (hv.erase "schema").put (by decide)
          (refers_content hmedia (refers_of_get? hv (by decide) hschema))
      · cases pure_eq_ok.mp hfound
        exact hv
  | scalar | list | set =>
    rw [response_of_not_mapping rfl] at h
    cases h
    exact .refl _

/-- A walk over the entries keeps what each of its steps keeps. -/
theorem keeps_mapM {f : Scalar × Value → Except Fault Value} {entries entries' : Entries}
    (h : entries.mapM (fun e => do return (e.1, ← f e)) = .ok entries')
    (hf : ∀ e ∈ entries, ∀ v, f e = .ok v → Keeps deep P e.2 v) : Keeps deep P (.mapping entries) (.mapping entries') := by
  induction entries generalizing entries' with
  | nil =>
    cases h
    exact .refl _
  | cons e rest ih =>
    rw [List.mapM_cons] at h
    obtain ⟨e', he, h⟩ := bind_eq_ok.mp h
    obtain ⟨rest', hr, h⟩ := bind_eq_ok.mp h
    obtain ⟨v, hv, he⟩ := bind_eq_ok.mp he
    cases pure_eq_ok.mp he
    cases pure_eq_ok.mp h
    rw [List.forall_mem_cons] at hf
    exact .cons (hf.1 v hv) (ih hr hf.2)

theorem keeps_responses {entries entries' : Entries} {produces : Value}
    (h : responses entries produces = .ok entries') : Keeps deep P (.mapping entries) (.mapping entries') :=
  keeps_mapM h fun _ _ _ => keeps_response

theorem refers_copied {entries : Entries} {key : String} (h : Refers deep P (.mapping entries))
    (hkey : .text key ≠ referenceKey) (hplain : isLiteralKey (.text key) = false) :
    Refers deep P (.mapping (copied entries key)) := by
  unfold copied
  cases hv : Entries.get? entries key with
  | none => exact refers_object_nil
  | some v => exact refers_cons hkey (refers_of_get? h hplain hv) refers_object_nil

theorem keeps_securityScheme {v v' : Value} (h : securityScheme v = .ok v') : Keeps deep P v v' := by
  unfold securityScheme at h
  split at h
  · rename_i entries
    have hwith : ∀ lifted : Entries, (Refers deep P (.mapping entries) → Refers deep P (.mapping lifted)) →
        Keeps deep P (.mapping entries) (.mapping (lifted ++ present "description" (Entries.get entries "description"))) :=
      fun lifted hlifted => keeps_mapping fun hv =>
        (hlifted hv).append (refers_present (by decide) (refers_get hv (by decide)))
    simp only at h
    split at h
    · rw [pure_eq_ok.mp h]
      exact hwith _ fun _ => refers_cons (by decide) (refers_scalar _)
        (refers_cons (by decide) (refers_scalar _) refers_object_nil)
    · split at h
      · obtain ⟨name, -, h⟩ := bind_eq_ok.mp h
        rw [pure_eq_ok.mp h]
        refine hwith _ fun hv => refers_cons (by decide) (refers_scalar _)
          (refers_cons (by decide) ?_ refers_object_nil)
        refine refers_mapping.mpr (List.forall_mem_singleton.mpr ((refersAt_of_not_text rfl).mpr fun _ => ?_))
        refine refers_cons (by decide) ?_ ((refers_copied hv (by decide) (by decide)).append
          (refers_copied hv (by decide) (by decide)))
        cases hscopes : Entries.get? entries "scopes" with
        | none => exact refers_object_nil
        | some scopes => exact refers_of_get? hv (by decide) hscopes
      · rw [pure_eq_ok.mp h]
        exact hwith _ fun hv => hv.erase "description"
  · cases pure_eq_ok.mp h
    exact .refl _

/-! ### Paths and components -/

section Paths

variable (hbody : ∀ name, P (bodyReference name))

include hbody

theorem refers_withParams {entries entries' : Entries} {consumes : Value} {bodies : List Scalar}
    (h : withParams consumes bodies entries = .ok entries') (hentries : Refers deep P (.mapping entries)) :
    Refers deep P (.mapping entries') := by
  unfold withParams at h
  split at h
  · rename_i vs hvs
    obtain ⟨⟨kept, body⟩, hfound, h⟩ := bind_eq_ok.mp h
    rw [pure_eq_ok.mp h]
    have hlist : Refers deep P (.list vs) := hvs ▸ refers_get hentries (by decide)
    obtain ⟨hkept, hbodies⟩ := refers_params hbody hfound (refers_list.mp hlist)
    have hparameters : Scalar.text "parameters" ≠ referenceKey := by decide
    have hput := hentries.put hparameters hkept
    cases body with
    | none => exact hput
    | some body => exact hput.put (by decide) (hbodies body rfl)
  · cases pure_eq_ok.mp h
    exact hentries

theorem refers_operation {entries entries' : Entries} {consumes produces : Value} {bodies : List Scalar}
    {shared : Option Value} (h : operation entries consumes produces bodies shared = .ok entries')
    (hentries : Refers deep P (.mapping entries)) (hshared : ∀ v ∈ shared, Refers deep P v) :
    Refers deep P (.mapping entries') := by
  rw [operation_eq] at h
  obtain ⟨found, hfound, h⟩ := bind_eq_ok.mp h
  have hparams := refers_withParams hbody hfound ((hentries.erase _).erase _)
  have hwith : Refers deep P (.mapping (withShared shared found)) := by
    cases shared with
    | none => exact hparams
    | some body => exact hparams.putNew (by decide) (hshared body rfl)
  unfold withResponses at h
  split at h
  · rename_i responses hresponses
    obtain ⟨lifted, hlifted, h⟩ := bind_eq_ok.mp h
    rw [pure_eq_ok.mp h]
    refine hwith.put (by decide) ?_
    exact (keeps_responses hlifted).refers (hresponses ▸ refers_get hwith (by decide))
  · cases pure_eq_ok.mp h
    exact hwith

theorem refers_pathItem {item item' : Entries} {consumes produces : Value} {bodies : List Scalar}
    (h : pathItem consumes produces bodies item = .ok item') (hitem : Refers deep P (.mapping item)) :
    Refers deep P (.mapping item') := by
  rw [pathItem_eq] at h
  obtain ⟨⟨split, shared⟩, hsplit, h⟩ := bind_eq_ok.mp h
  have hmethods : ∀ method ∈ httpMethods,
      Scalar.text method ≠ referenceKey ∧ isLiteralKey (.text method) = false := by decide
  have hstart : Refers deep P (.mapping split) ∧ ∀ v ∈ shared, Refers deep P v := by
    unfold splitParams at hsplit
    split at hsplit
    · rename_i vs hvs
      obtain ⟨⟨kept, body⟩, hfound, hsplit⟩ := bind_eq_ok.mp hsplit
      cases pure_eq_ok.mp hsplit
      have hlist : Refers deep P (.list vs) := hvs ▸ refers_get hitem (by decide)
      obtain ⟨hkept, hbodies⟩ := refers_params hbody hfound (refers_list.mp hlist)
      exact ⟨hitem.put (by decide) hkept, hbodies⟩
    · cases pure_eq_ok.mp hsplit
      exact ⟨hitem, forall_mem_none⟩
  refine foldlM_induction (I := fun item => Refers deep P (.mapping item)) (fun name hname item item' hI hstep => ?_) h
    hstart.1
  unfold method at hstep
  split at hstep
  · rename_i entries hentries
    obtain ⟨lifted, hlifted, hstep⟩ := bind_eq_ok.mp hstep
    rw [pure_eq_ok.mp hstep]
    exact hI.put (hmethods name hname).1
      (refers_operation hbody hlifted (hentries ▸ refers_get hI (hmethods name hname).2) hstart.2)
  · cases pure_eq_ok.mp hstep
    exact hI

theorem refers_withPaths {entries entries' : Entries} {consumes produces : Value} {bodies : List Scalar}
    (h : withPaths consumes produces bodies entries = .ok entries') (hentries : Refers deep P (.mapping entries)) :
    Refers deep P (.mapping entries') := by
  unfold withPaths at h
  split at h
  · rename_i paths hpaths
    obtain ⟨lifted, hlifted, h⟩ := bind_eq_ok.mp h
    rw [pure_eq_ok.mp h]
    refine hentries.put (by decide) ?_
    have hold := refers_of_get? hentries (by decide) hpaths
    cases paths with
    | mapping items =>
      rw [pathItems_mapping] at hlifted
      obtain ⟨items', hitems, rfl⟩ := map_eq_ok.mp hlifted
      refine (keeps_mapM hitems fun e _ v hv => ?_).refers hold
      unfold pathValue at hv
      split at hv
      · rename_i item heq
        obtain ⟨item', hitem, rfl⟩ := map_eq_ok.mp hv
        rw [heq]
        exact keeps_mapping (refers_pathItem hbody hitem)
      · cases hv
        exact .refl _
    | scalar | list | set =>
      rw [pathItems_of_not_mapping rfl] at hlifted
      cases hlifted
      exact hold
  · cases pure_eq_ok.mp h
    exact hentries

end Paths

/-- A document part way refers to nothing else. -/
structure ProgressRefers (deep : Bool) (P : String → Prop) (p : Progress) : Prop where
  rest : Refers deep P (.mapping p.rest)
  components : Refers deep P p.components

section Progress

variable {p p' : Progress}

theorem refers_setFamily {components content v : Value} {family : String}
    (h : setFamily components family content = .ok v) (hcomponents : Refers deep P components)
    (hkey : .text family ≠ referenceKey) (hcontent : Refers deep P content) : Refers deep P v := by
  unfold setFamily at h
  split at h
  · cases h
    exact hcomponents.put hkey hcontent
  · cases h

theorem refers_setUnlessEmpty {components v : Value} {family : String} {content : Entries}
    (h : setUnlessEmpty components family content = .ok v) (hcomponents : Refers deep P components)
    (hkey : .text family ≠ referenceKey) (hcontent : Refers deep P (.mapping content)) : Refers deep P v := by
  unfold setUnlessEmpty at h
  split at h
  · cases h
    exact hcomponents
  · exact refers_setFamily h hcomponents hkey hcontent

theorem refers_takeMapping {document found rest : Entries} {key : String}
    (h : takeMapping document key = some (found, rest)) (hkey : isLiteralKey (.text key) = false)
    (hdocument : Refers deep P (.mapping document)) :
    Refers deep P (.mapping found) ∧ Refers deep P (.mapping rest) := by
  unfold takeMapping at h
  split at h
  · rename_i hfound
    cases h
    exact ⟨refers_of_get? hdocument hkey hfound, hdocument.erase key⟩
  · cases h

theorem ProgressRefers.definitions (h : ProgressRefers deep P p) (hp : definitions p = .ok p') :
    ProgressRefers deep P p' := by
  unfold Lift.definitions at hp
  split at hp
  · rename_i found hfound
    obtain ⟨components, hcomponents, hp⟩ := bind_eq_ok.mp hp
    rw [pure_eq_ok.mp hp]
    exact ⟨h.rest.erase _,
      refers_setFamily hcomponents h.components (by decide) (refers_of_get? h.rest (by decide) hfound)⟩
  · cases pure_eq_ok.mp hp
    exact h

theorem ProgressRefers.parameters {consumes : Value} (h : ProgressRefers deep P p)
    (hp : parameters consumes p = .ok p') : ProgressRefers deep P p' := by
  unfold Lift.parameters at hp
  split at hp
  · rename_i found rest hfound
    obtain ⟨hall, hrest⟩ := refers_takeMapping hfound (by decide) h.rest
    rw [List.partition_eq_filter_filter] at hp
    simp only at hp
    obtain ⟨requestBodies, hbodies, hp⟩ := bind_eq_ok.mp hp
    obtain ⟨components, hcomponents, hp⟩ := bind_eq_ok.mp hp
    obtain ⟨components', hcomponents', hp⟩ := bind_eq_ok.mp hp
    rw [pure_eq_ok.mp hp]
    have hothers : Refers deep P (.mapping ((found.filter fun e => !isBodyParam e.2).map fun e => (e.1, param e.2))) :=
      Refers.of_map (refers_mapping.mpr fun e he => refers_mapping.mp hall e (List.mem_filter.mp he).1)
        fun e he => (keeps_param e.2).refersAt he
    have hmoved : Refers deep P (.mapping requestBodies) :=
      (keeps_mapM hbodies fun e he v hv => keeps_bodyParam hv (List.mem_filter.mp he).2).refers
        (refers_mapping.mpr fun e he => refers_mapping.mp hall e (List.mem_filter.mp he).1)
    exact ⟨hrest, refers_setUnlessEmpty hcomponents'
      (refers_setUnlessEmpty hcomponents h.components (by decide) hothers) (by decide) hmoved⟩
  · cases pure_eq_ok.mp hp
    exact h

theorem ProgressRefers.sharedResponses {produces : Value} (h : ProgressRefers deep P p)
    (hp : sharedResponses produces p = .ok p') : ProgressRefers deep P p' := by
  unfold Lift.sharedResponses at hp
  split at hp
  · rename_i found rest hfound
    obtain ⟨hall, hrest⟩ := refers_takeMapping hfound (by decide) h.rest
    obtain ⟨lifted, hlifted, hp⟩ := bind_eq_ok.mp hp
    obtain ⟨components, hcomponents, hp⟩ := bind_eq_ok.mp hp
    rw [pure_eq_ok.mp hp]
    exact ⟨hrest, refers_setFamily hcomponents h.components (by decide) ((keeps_responses hlifted).refers hall)⟩
  · cases pure_eq_ok.mp hp
    exact h

theorem ProgressRefers.securityDefinitions (h : ProgressRefers deep P p)
    (hp : securityDefinitions p = .ok p') : ProgressRefers deep P p' := by
  unfold Lift.securityDefinitions at hp
  split at hp
  · rename_i found rest hfound
    obtain ⟨hall, hrest⟩ := refers_takeMapping hfound (by decide) h.rest
    obtain ⟨lifted, hlifted, hp⟩ := bind_eq_ok.mp hp
    obtain ⟨components, hcomponents, hp⟩ := bind_eq_ok.mp hp
    rw [pure_eq_ok.mp hp]
    exact ⟨hrest, refers_setFamily hcomponents h.components (by decide)
      ((keeps_mapM hlifted fun e _ v hv => keeps_securityScheme hv).refers hall)⟩
  · cases pure_eq_ok.mp hp
    exact h

end Progress

theorem refers_withServers {entries entries' : Entries} (h : withServers entries = .ok entries')
    (hentries : Refers deep P (.mapping entries)) : Refers deep P (.mapping entries') := by
  unfold withServers at h
  simp only at h
  obtain ⟨addresses, haddresses, h⟩ := bind_eq_ok.mp h
  have hbare := refers_foldl_erase addressKeys hentries
  have hurl : ∀ v : Value, Refers deep P v → Refers deep P (.object [("url", v)]) := fun v hv =>
    refers_object_singleton (by decide) hv
  have hgathered : ∀ v ∈ addresses, Refers deep P v := by
    unfold servers at haddresses
    split at haddresses
    · simp only at haddresses
      obtain ⟨schemes, -, haddresses⟩ := bind_eq_ok.mp haddresses
      rw [pure_eq_ok.mp haddresses]
      refine forall_mem_some (refers_list.mpr fun v hv => ?_)
      obtain ⟨scheme, -, rfl⟩ := List.mem_map.mp hv
      exact hurl _ (refers_scalar _)
    · split at haddresses
      · rw [pure_eq_ok.mp haddresses]
        exact forall_mem_some (refers_list.mpr (List.forall_mem_singleton.mpr (hurl _ (refers_get hentries (by decide)))))
      · rw [pure_eq_ok.mp haddresses]
        exact forall_mem_none
  cases addresses with
  | none =>
    rw [pure_eq_ok.mp h]
    exact hbare
  | some addresses =>
    rw [pure_eq_ok.mp h]
    exact hbare.put (by decide) (hgathered addresses rfl)

/-- **Lifting adds no reference** but those to the request bodies that shared parameters became. -/
theorem refers_liftDocument (hbody : ∀ name, P (bodyReference name)) {entries lifted : Entries}
    (h : document entries = .ok lifted) (hmoved : Refers deep P (.mapping (moveInEntries entries))) :
    Refers deep P (.mapping lifted) := by
  rw [document_eq] at h
  obtain ⟨p, hp, h⟩ := bind_eq_ok.mp h
  obtain ⟨served, hserved, h⟩ := bind_eq_ok.mp h
  obtain ⟨found, hfound, h⟩ := bind_eq_ok.mp h
  have hstart : ProgressRefers deep P (start (moveInEntries entries)) := by
    have hcomponents : Scalar.text "components" ≠ referenceKey := by decide
    have hrest := ((hmoved.erase "consumes").erase "produces").putNew hcomponents refers_object_nil
    exact ⟨hrest, refers_get hrest (by decide)⟩
  unfold Lift.components at hp
  obtain ⟨p₁, h₁, hp⟩ := bind_eq_ok.mp hp
  obtain ⟨p₂, h₂, hp⟩ := bind_eq_ok.mp hp
  obtain ⟨p₃, h₃, hp⟩ := bind_eq_ok.mp hp
  have hfinal := (((hstart.definitions h₁).parameters h₂).sharedResponses h₃).securityDefinitions hp
  have hcomponents : Scalar.text "components" ≠ referenceKey := by decide
  have hput := hfinal.rest.put hcomponents hfinal.components
  rw [pure_eq_ok.mp h]
  exact refers_cons (by decide) (refers_scalar _)
    ((refers_withPaths hbody hfound (refers_withServers hserved hput)).erase "swagger")

end ContractSync.Contract
