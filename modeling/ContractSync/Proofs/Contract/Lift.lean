import ContractSync.Contract.Canonical
import ContractSync.Proofs.Document.Entries

/-!
# The steps of lifting

Each function of the lift as the sequence of its steps, with what a step leaves alone.
-/

namespace ContractSync.Contract.Lift

open ContractSync.Document

/-! ### Responses -/

/-- The response with its schema under each media type. -/
def withContent (produces : Value) (entries : Entries) : Except Fault Entries :=
  match Entries.get? entries "schema" with
  | some schema => do
    return Entries.put (Entries.erase entries "schema") "content" (← content produces schema)
  | none => return entries

/-- The response with its headers lifted. -/
def withHeaders (entries : Entries) : Entries :=
  match Entries.get entries "headers" with
  | .mapping headers => Entries.put entries "headers" (.mapping (headers.map fun h => (h.1, param h.2)))
  | _ => entries

theorem response_mapping (entries : Entries) (produces : Value) :
    response (.mapping entries) produces =
      if Entries.has entries "$ref" then .ok (.mapping entries)
      else (withContent produces entries).map fun found =>
        .mapping (withHeaders (Entries.erase found "examples")) := by
  have hheaders : ∀ bare : Entries, (match Entries.get bare "headers" with
      | .mapping headers =>
        pure (.mapping (Entries.put bare "headers" (.mapping (headers.map fun h => (h.1, param h.2)))))
      | _ => pure (.mapping bare) : Except Fault Value) = .ok (.mapping (withHeaders bare)) := by
    intro bare
    unfold withHeaders
    split <;> rfl
  unfold response withContent
  simp only
  split
  · rfl
  · cases Entries.get? entries "schema" with
    | none => exact hheaders _
    | some schema =>
      simp only
      cases content produces schema with
      | error => rfl
      | ok found => exact hheaders _

theorem response_of_not_mapping {v produces : Value} (h : v.isMapping = false) : response v produces = .ok v := by
  cases v with
  | mapping => cases h
  | _ => rfl

/-! ### Operations and path items -/

/-- The operation with a request body of its own. -/
def withBody (body : Option Value) (entries : Entries) : Entries :=
  match body with
  | some body => Entries.put entries "requestBody" body
  | none => entries

/-- The operation with the request body of its path, unless it has one. -/
def withShared (shared : Option Value) (entries : Entries) : Entries :=
  match shared with
  | some body => Entries.putNew entries "requestBody" body
  | none => entries

/-- The operation with its parameters divided. -/
def withParams (consumes : Value) (bodies : List Scalar) (entries : Entries) : Except Fault Entries :=
  match Entries.get entries "parameters" with
  | .list vs => do
    let (kept, body) ← params vs consumes bodies
    return withBody body (Entries.put entries "parameters" (.list kept))
  | _ => return entries

/-- The operation with its responses lifted. -/
def withResponses (produces : Value) (entries : Entries) : Except Fault Entries :=
  match Entries.get entries "responses" with
  | .mapping found => do return Entries.put entries "responses" (.mapping (← responses found produces))
  | _ => return entries

theorem operation_eq (entries : Entries) (consumes produces : Value) (bodies : List Scalar)
    (shared : Option Value) :
    operation entries consumes produces bodies shared = (do
      let found ← withParams (orElse (Entries.get entries "consumes") consumes) bodies
        (Entries.erase (Entries.erase entries "consumes") "produces")
      withResponses (orElse (Entries.get entries "produces") produces) (withShared shared found)) := by
  unfold operation withParams
  simp only
  cases Entries.get (Entries.erase (Entries.erase entries "consumes") "produces") "parameters" with
  | list vs =>
    simp only
    cases params vs (orElse (Entries.get entries "consumes") consumes) bodies with
    | error => rfl
    | ok found =>
      obtain ⟨kept, body⟩ := found
      cases body <;> cases shared <;> rfl
  | _ => cases shared <;> rfl

/-- The path item with its parameters divided, and the request body that they describe. -/
def splitParams (consumes : Value) (bodies : List Scalar) (item : Entries) :
    Except Fault (Entries × Option Value) :=
  match Entries.get item "parameters" with
  | .list vs => do
    let (kept, body) ← params vs consumes bodies
    return (Entries.put item "parameters" (.list kept), body)
  | _ => return (item, none)

theorem pathItem_eq (consumes produces : Value) (bodies : List Scalar) (item : Entries) :
    pathItem consumes produces bodies item = (do
      let (item, shared) ← splitParams consumes bodies item
      httpMethods.foldlM (method consumes produces bodies shared) item) := by
  unfold pathItem splitParams
  cases Entries.get item "parameters" with
  | list vs =>
    simp only
    cases params vs consumes bodies with
    | error => rfl
    | ok found => rfl
  | _ => rfl

/-- What becomes of what stands at a path. -/
def pathValue (consumes produces : Value) (bodies : List Scalar) (v : Value) : Except Fault Value :=
  match v with
  | .mapping item => (pathItem consumes produces bodies item).map .mapping
  | _ => .ok v

theorem pathItems_mapping (consumes produces : Value) (bodies : List Scalar) (entries : Entries) :
    pathItems consumes produces bodies (.mapping entries) =
      (entries.mapM fun e : Scalar × Value => do
        return (e.1, ← pathValue consumes produces bodies e.2)).map .mapping := by
  have hmap : ∀ x : Except Fault Entries, x.map Value.mapping = x >>= fun lifted => pure (.mapping lifted) := by
    intro x
    cases x <;> rfl
  rw [hmap]
  unfold pathItems
  simp only
  congr 2
  funext e
  obtain ⟨key, v⟩ := e
  cases v with
  | mapping item =>
    simp only [pathValue]
    cases pathItem consumes produces bodies item <;> rfl
  | _ => rfl

theorem pathItems_of_not_mapping {v consumes produces : Value} {bodies : List Scalar} (h : v.isMapping = false) :
    pathItems consumes produces bodies v = .ok v := by
  cases v with
  | mapping => cases h
  | _ => rfl

/-! ### Documents -/

/-- What the operations of a document take, unless they say it themselves. -/
def consumesOf (moved : Entries) : Value := orElse (Entries.get moved "consumes") jsonOnly

/-- What the operations of a document give, unless they say it themselves. -/
def producesOf (moved : Entries) : Value := orElse (Entries.get moved "produces") jsonOnly

/-- A document whose components are still those it came with. -/
def start (moved : Entries) : Progress :=
  let rest := Entries.putNew (Entries.erase (Entries.erase moved "consumes") "produces") "components" (.mapping [])
  ⟨rest, Entries.get rest "components", []⟩

/-- The components in the order in which they are lifted. -/
def components (moved : Entries) : Except Fault Progress := do
  let p ← definitions (start moved)
  let p ← parameters (consumesOf moved) p
  let p ← sharedResponses (producesOf moved) p
  securityDefinitions p

/-- The keys of the addresses. -/
def addressKeys : List String := ["host", "basePath", "schemes"]

/-- The document with its addresses gathered. -/
def withServers (entries : Entries) : Except Fault Entries := do
  let schemes := orElse (Entries.get entries "schemes") (.list [.text "https"])
  let addresses ← servers (Entries.get entries "host") (Entries.get entries "basePath") schemes
  let bare := addressKeys.foldl Entries.erase entries
  match addresses with
  | some addresses => return Entries.put bare "servers" addresses
  | none => return bare

theorem document_eq (entries : Entries) :
    document entries = (do
      let moved := moveInEntries entries
      let p ← components moved
      let served ← withServers (Entries.put p.rest "components" p.components)
      let found ← withPaths (consumesOf moved) (producesOf moved) p.bodies served
      return (.text "openapi", .text "3.0.3") :: Entries.erase found "swagger") := by
  unfold document components
  simp only [start, consumesOf, producesOf, bind_assoc]
  congr 1
  funext p₁
  congr 1
  funext p₂
  congr 1
  funext p₃
  congr 1
  funext p₄
  unfold withServers
  simp only [bind_assoc]
  congr 1
  funext addresses
  cases addresses <;> rfl

/-! ### What the steps leave alone -/

/-- The steps change no entry of the document and no family of components but those listed. -/
structure Leaves (keys families : List String) (p p' : Progress) : Prop where
  rest : ∀ key, key ∉ keys → Entries.get? p'.rest key = Entries.get? p.rest key
  components : ∀ family, family ∉ families → p'.components.get? family = p.components.get? family

section Steps

variable {p p' : Progress} {consumes produces : Value}

theorem Leaves.refl (keys families : List String) (p : Progress) : Leaves keys families p p :=
  ⟨fun _ _ => rfl, fun _ _ => rfl⟩

theorem setFamily_get? {components content v : Value} {family other : String}
    (h : setFamily components family content = .ok v) :
    v.get? other = if family = other then some content else components.get? other := by
  unfold setFamily at h
  split at h
  · cases h
    split
    · rename_i heq
      rw [← heq]
      exact Entries.get?_put_self
    · rename_i hne
      exact Entries.get?_put_of_ne hne
  · cases h

theorem setUnlessEmpty_get? {components v : Value} {content : Entries} {family other : String}
    (h : setUnlessEmpty components family content = .ok v) :
    v.get? other =
      if family = other ∧ content ≠ [] then some (.mapping content) else components.get? other := by
  unfold setUnlessEmpty at h
  split at h
  · rename_i hempty
    cases h
    rw [if_neg fun hand => hand.2 (List.isEmpty_iff.mp hempty)]
  · rename_i hempty
    rw [setFamily_get? h]
    have hne : content ≠ [] := fun heq => hempty (List.isEmpty_iff.mpr heq)
    simp only [hne, ne_eq, not_false_eq_true, and_true]

theorem get?_erase_of_notMem {entries : Entries} {key other : String} (h : other ∉ [key]) :
    Entries.get? (Entries.erase entries key) other = Entries.get? entries other :=
  Entries.get?_erase_of_ne fun heq => h (heq ▸ List.mem_singleton_self other)

theorem definitions_leaves (h : definitions p = .ok p') : Leaves ["definitions"] ["schemas"] p p' := by
  unfold definitions at h
  split at h
  · obtain ⟨components, hcomponents, h⟩ := bind_eq_ok.mp h
    rw [pure_eq_ok.mp h]
    refine ⟨fun key hkey => get?_erase_of_notMem hkey, fun family hfamily => ?_⟩
    rw [setFamily_get? hcomponents, if_neg fun heq => hfamily (List.mem_singleton.mpr heq.symm)]
  · cases pure_eq_ok.mp h
    exact .refl _ _ p

theorem definitions_family {found : Value} (h : definitions p = .ok p')
    (hfound : Entries.get? p.rest "definitions" = some found) : p'.components.get? "schemas" = some found := by
  unfold definitions at h
  rw [hfound] at h
  obtain ⟨components, hcomponents, h⟩ := bind_eq_ok.mp h
  rw [pure_eq_ok.mp h]
  exact (setFamily_get? hcomponents).trans (if_pos rfl)

theorem takeMapping_eq_some {document found rest : Entries} {key : String}
    (h : takeMapping document key = some (found, rest)) :
    Entries.get? document key = some (.mapping found) ∧ rest = Entries.erase document key := by
  unfold takeMapping at h
  split at h
  · rename_i hfound
    cases h
    exact ⟨hfound, rfl⟩
  · cases h

theorem takeMapping_of_get? {document found : Entries} {key : String}
    (h : Entries.get? document key = some (.mapping found)) :
    takeMapping document key = some (found, Entries.erase document key) := by
  rw [takeMapping, h]

/-- The parameters of the body and the others. -/
theorem parameters_eq_ok (h : parameters consumes p = .ok p') :
    (takeMapping p.rest "parameters" = none ∧ p' = p) ∨
      ∃ found requestBodies components, Entries.get? p.rest "parameters" = some (.mapping found) ∧
        ((found.filter fun e => isBodyParam e.2).mapM fun e : Scalar × Value => do
          return (e.1, ← bodyParam e.2.entries consumes)) = .ok requestBodies ∧
        setUnlessEmpty p.components "parameters"
          ((found.filter fun e => !isBodyParam e.2).map fun e => (e.1, param e.2)) = .ok components ∧
        setUnlessEmpty components "requestBodies" requestBodies = .ok p'.components ∧
        p'.rest = Entries.erase p.rest "parameters" ∧
        p'.bodies = (found.filter fun e => isBodyParam e.2).map (·.1) := by
  unfold parameters at h
  split at h
  · rename_i found rest hfound
    obtain ⟨hget, rfl⟩ := takeMapping_eq_some hfound
    rw [List.partition_eq_filter_filter] at h
    simp only at h
    obtain ⟨requestBodies, hbodies, h⟩ := bind_eq_ok.mp h
    obtain ⟨components, hcomponents, h⟩ := bind_eq_ok.mp h
    obtain ⟨components', hcomponents', h⟩ := bind_eq_ok.mp h
    rw [pure_eq_ok.mp h]
    exact .inr ⟨found, requestBodies, components, hget, hbodies, hcomponents, hcomponents', rfl, rfl⟩
  · rename_i hnone
    exact .inl ⟨hnone, pure_eq_ok.mp h⟩

theorem parameters_leaves (h : parameters consumes p = .ok p') :
    Leaves ["parameters"] ["parameters", "requestBodies"] p p' := by
  rcases parameters_eq_ok h with ⟨-, rfl⟩ |
    ⟨found, requestBodies, components, -, -, hcomponents, hcomponents', hrest, -⟩
  · exact .refl _ _ _
  · refine ⟨fun key hkey => hrest ▸ get?_erase_of_notMem hkey, fun family hfamily => ?_⟩
    simp only [List.mem_cons, List.not_mem_nil, or_false, not_or] at hfamily
    rw [setUnlessEmpty_get? hcomponents', if_neg fun hand => hfamily.2 hand.1.symm,
      setUnlessEmpty_get? hcomponents, if_neg fun hand => hfamily.1 hand.1.symm]

theorem sharedResponses_leaves (h : sharedResponses produces p = .ok p') :
    Leaves ["responses"] ["responses"] p p' := by
  unfold sharedResponses at h
  split at h
  · rename_i found rest hfound
    obtain ⟨-, rfl⟩ := takeMapping_eq_some hfound
    obtain ⟨lifted, hlifted, h⟩ := bind_eq_ok.mp h
    obtain ⟨components, hcomponents, h⟩ := bind_eq_ok.mp h
    rw [pure_eq_ok.mp h]
    refine ⟨fun key hkey => get?_erase_of_notMem hkey, fun family hfamily => ?_⟩
    rw [setFamily_get? hcomponents, if_neg fun heq => hfamily (List.mem_singleton.mpr heq.symm)]
  · cases pure_eq_ok.mp h
    exact .refl _ _ p

theorem sharedResponses_family {found : Entries} (h : sharedResponses produces p = .ok p')
    (hfound : Entries.get? p.rest "responses" = some (.mapping found)) :
    ∃ lifted, responses found produces = .ok lifted ∧
      p'.components.get? "responses" = some (.mapping lifted) := by
  unfold sharedResponses at h
  rw [takeMapping_of_get? hfound] at h
  obtain ⟨lifted, hlifted, h⟩ := bind_eq_ok.mp h
  obtain ⟨components, hcomponents, h⟩ := bind_eq_ok.mp h
  rw [pure_eq_ok.mp h]
  exact ⟨lifted, hlifted, (setFamily_get? hcomponents).trans (if_pos rfl)⟩

theorem securityDefinitions_leaves (h : securityDefinitions p = .ok p') :
    Leaves ["securityDefinitions"] ["securitySchemes"] p p' := by
  unfold securityDefinitions at h
  split at h
  · rename_i found rest hfound
    obtain ⟨-, rfl⟩ := takeMapping_eq_some hfound
    obtain ⟨lifted, -, h⟩ := bind_eq_ok.mp h
    obtain ⟨components, hcomponents, h⟩ := bind_eq_ok.mp h
    rw [pure_eq_ok.mp h]
    refine ⟨fun key hkey => get?_erase_of_notMem hkey, fun family hfamily => ?_⟩
    rw [setFamily_get? hcomponents, if_neg fun heq => hfamily (List.mem_singleton.mpr heq.symm)]
  · cases pure_eq_ok.mp h
    exact .refl _ _ p

theorem get?_foldl_erase {keys : List String} {entries : Entries} {key : String} (h : key ∉ keys) :
    Entries.get? (keys.foldl Entries.erase entries) key = Entries.get? entries key := by
  induction keys generalizing entries with
  | nil => rfl
  | cons other keys ih =>
    rw [List.mem_cons, not_or] at h
    rw [List.foldl_cons, ih h.2, Entries.get?_erase_of_ne (Ne.symm h.1)]

theorem withServers_get? {entries entries' : Entries} {key : String} (h : withServers entries = .ok entries')
    (hkey : key ∉ "servers" :: addressKeys) : Entries.get? entries' key = Entries.get? entries key := by
  rw [List.mem_cons, not_or] at hkey
  unfold withServers at h
  simp only at h
  obtain ⟨addresses, -, h⟩ := bind_eq_ok.mp h
  have hbare := @get?_foldl_erase addressKeys entries key hkey.2
  cases addresses with
  | none =>
    rw [pure_eq_ok.mp h]
    exact hbare
  | some addresses =>
    rw [pure_eq_ok.mp h, Entries.get?_put_of_ne (Ne.symm hkey.1)]
    exact hbare

theorem withPaths_get? {entries entries' : Entries} {bodies : List Scalar} {key : String}
    (h : withPaths consumes produces bodies entries = .ok entries') (hkey : key ≠ "paths") :
    Entries.get? entries' key = Entries.get? entries key := by
  unfold withPaths at h
  split at h
  · obtain ⟨lifted, -, h⟩ := bind_eq_ok.mp h
    rw [pure_eq_ok.mp h, Entries.get?_put_of_ne (Ne.symm hkey)]
  · cases pure_eq_ok.mp h
    rfl

/-- The components of the lifted document are those that were gathered. -/
theorem document_components {entries lifted : Entries} (h : document entries = .ok lifted) :
    ∃ p, components (moveInEntries entries) = .ok p ∧ Entries.get? lifted "components" = some p.components := by
  rw [document_eq] at h
  obtain ⟨p, hp, h⟩ := bind_eq_ok.mp h
  obtain ⟨served, hserved, h⟩ := bind_eq_ok.mp h
  obtain ⟨found, hfound, h⟩ := bind_eq_ok.mp h
  refine ⟨p, hp, ?_⟩
  rw [pure_eq_ok.mp h, Entries.get?_cons, if_neg (by decide), Entries.get?_erase_of_ne (by decide),
    withPaths_get? hfound (by decide), withServers_get? hserved (by decide), Entries.get?_put_self]

end Steps

end ContractSync.Contract.Lift
