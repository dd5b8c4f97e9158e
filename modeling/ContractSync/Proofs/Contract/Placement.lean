import ContractSync.Proofs.Contract.Parameters
import ContractSync.Proofs.Resolving

/-!
# Parameters in other places

What the lift and the passes make of a path item if a parameter of an operation is another one
(`pathItem_kept`, `pathItem_body`) or stands with the path instead (`pathItem_hoisted_kept`,
`pathItem_hoisted_body`), and of a parameter that the document shares (`SharesParam.component`,
`SharesParam.requestBody`). **Whatever else the item and the operation hold stays what it is.**
-/

namespace ContractSync.Contract.Lift

open ContractSync.Document

variable {consumes produces : Value} {bodies : List Scalar}

/-! ### Canonical operations with another parameter -/

theorem operation_same {entries lifted : Entries} {vs vs' : List Value} {found : Params} {shared : Option Value}
    (h : operation entries consumes produces bodies shared = .ok lifted)
    (hvs : Entries.get? entries "parameters" = some (.list vs))
    (hfound : taken (consumesFor consumes entries) bodies vs = .ok found)
    (hfound' : taken (consumesFor consumes entries) bodies vs' = .ok found) :
    operation (Entries.replace entries "parameters" (.list vs')) consumes produces bodies shared = .ok lifted := by
  obtain ⟨_, body, hsame, hdescribed, h⟩ := (operation_eq_ok hvs).mp h
  cases hfound.symm.trans hsame
  exact (operation_replace_eq_ok hvs).mpr ⟨found, body, hfound', hdescribed, h⟩

/-- The canonical form of a part at a key, and what another part makes of the whole. -/
theorem canonical_part {entries entries' : Entries} {key : String} {v : Value}
    (h : canonical (.mapping entries) = .ok (.mapping entries')) (hv : Entries.get? entries key = some v)
    (hkey : isReserved (.text key) = false) :
    ∃ v', canonical v = .ok v' ∧ Entries.get? entries' key = some v' ∧ ∀ w w', canonical w = .ok w' →
      canonical (.mapping (Entries.replace entries key w)) = .ok (.mapping (Entries.replace entries' key w')) := by
  obtain ⟨v', hv', hget⟩ := canonical_get? h hv
  refine ⟨v', (canonicalAt_of_not_isReserved hkey v).symm.trans hv', hget, fun w w' hw => canonical_replace h ?_⟩
  exact (canonicalAt_of_not_isReserved hkey w).trans hw

theorem isReserved_of_mem_httpMethods {name : String} (h : name ∈ httpMethods) : isReserved (.text name) = false := by
  revert name
  decide

section Placed

variable {item lifted final operation : Entries} {name : String} {before after : List Value} {v v' : Value}

/-- The canonical form of an operation of a path item, and what another operation makes of the item. -/
theorem pathItem_canonical (h : pathItem consumes produces bodies item = .ok lifted)
    (hfinal : canonical (.mapping lifted) = .ok (.mapping final)) (hname : name ∈ httpMethods)
    (hoperation : Entries.get? item name = some (.mapping operation)) :
    ∃ shared found result, Lift.operation operation consumes produces bodies shared = .ok found ∧
      canonical (.mapping found) = .ok (.mapping result) ∧ Entries.get? final name = some (.mapping result) ∧
      Entries.replace final name (.mapping result) = final ∧
      ∀ operation' found' result', Lift.operation operation' consumes produces bodies shared = .ok found' →
        canonical (.mapping found') = .ok (.mapping result') →
        ∃ lifted', pathItem consumes produces bodies (Entries.replace item name (.mapping operation')) = .ok lifted' ∧
          canonical (.mapping lifted') = .ok (.mapping (Entries.replace final name (.mapping result'))) := by
  obtain ⟨shared, found, hfound, hget, hself, hother⟩ := pathItem_operation h hname hoperation
  obtain ⟨v, hv, hgetFinal, hreplaced⟩ := canonical_part hfinal hget (isReserved_of_mem_httpMethods hname)
  obtain ⟨result, rfl, -⟩ := canonical_mapping.mp hv
  refine ⟨shared, found, result, hfound, hv, hgetFinal, ?_, fun operation' found' result' hfound' hresult' => ?_⟩
  · exact canonical_replace_self hfinal hself
      ((canonicalAt_of_not_isReserved (isReserved_of_mem_httpMethods hname) _).trans hv)
  · exact ⟨_, hother operation' found' hfound', hreplaced _ _ hresult'⟩

/-- **Another parameter that stays one**, in an operation. -/
theorem pathItem_kept (h : pathItem consumes produces bodies item = .ok lifted)
    (hfinal : canonical (.mapping lifted) = .ok (.mapping final)) (hname : name ∈ httpMethods)
    (hoperation : Entries.get? item name = some (.mapping operation))
    (hvs : Entries.get? operation "parameters" = some (.list (before ++ v :: after))) {k k' : Value}
    (hv : Params.add (consumesFor consumes operation) bodies {} v = .ok { kept := [k] })
    (hv' : Params.add (consumesFor consumes operation) bodies {} v' = .ok { kept := [k'] }) :
    ∃ result first w rest, Entries.get? final name = some (.mapping result) ∧
      Entries.replace final name (.mapping result) = final ∧
      Entries.get? result "parameters" = some (.list (first ++ w :: rest)) ∧ canonical k = .ok w ∧
      ∀ w', canonical k' = .ok w' → ∃ lifted', pathItem consumes produces bodies (Entries.replace item name
          (.mapping (Entries.replace operation "parameters" (.list (before ++ v' :: after))))) = .ok lifted' ∧
        canonical (.mapping lifted') = .ok (.mapping (Entries.replace final name
          (.mapping (Entries.replace result "parameters" (.list (first ++ w' :: rest)))))) := by
  obtain ⟨shared, found, result, hfound, hresult, hget, hself, hother⟩ := pathItem_canonical h hfinal hname hoperation
  obtain ⟨divided, _, hdivided, -, -⟩ := (operation_eq_ok hvs).mp hfound
  obtain ⟨a, x, b, ha, hx, hb, rfl⟩ := taken_marked.mp hdivided
  cases hv.symm.trans hx
  obtain ⟨hgetFound, hchanged⟩ := operation_parameters hfound hvs hdivided
    (taken_marked.mpr ⟨a, _, b, ha, hv', hb, rfl⟩) rfl rfl
  obtain ⟨_, hlist, hgetResult, hreplaced⟩ := canonical_part hresult hgetFound (by decide)
  obtain ⟨ws, rfl, hws⟩ := canonical_list.mp hlist
  obtain ⟨first, w, rest, rfl, hfirst, hw, hrest⟩ := forall₂_marked.mp hws
  refine ⟨result, first, w, rest, hget, hself, hgetResult, hw, fun w' hw' => hother _ _ _ hchanged ?_⟩
  exact hreplaced _ _ (canonical_list.mpr ⟨_, rfl, forall₂_marked.mpr ⟨first, w', rest, rfl, hfirst, hw', hrest⟩⟩)

/-- **Another parameter that describes the body**, in an operation: it does unless a later one does. -/
theorem pathItem_body (h : pathItem consumes produces bodies item = .ok lifted)
    (hfinal : canonical (.mapping lifted) = .ok (.mapping final)) (hname : name ∈ httpMethods)
    (hoperation : Entries.get? item name = some (.mapping operation))
    (hvs : Entries.get? operation "parameters" = some (.list (before ++ v :: after))) {body body' : Value}
    (hv : Params.add (consumesFor consumes operation) bodies {} v = .ok { body := some body })
    (hv' : Params.add (consumesFor consumes operation) bodies {} v' = .ok { body := some body' }) :
    ∃ result, Entries.get? final name = some (.mapping result) ∧
      Entries.replace final name (.mapping result) = final ∧
      ((∃ w, Entries.get? result "requestBody" = some w ∧ canonical body = .ok w ∧
        ∀ w', canonical body' = .ok w' → ∃ lifted', pathItem consumes produces bodies (Entries.replace item name
            (.mapping (Entries.replace operation "parameters" (.list (before ++ v' :: after))))) = .ok lifted' ∧
          canonical (.mapping lifted') = .ok (.mapping (Entries.replace final name
            (.mapping (Entries.replace result "requestBody" w'))))) ∨
      ∃ lifted', pathItem consumes produces bodies (Entries.replace item name
          (.mapping (Entries.replace operation "parameters" (.list (before ++ v' :: after))))) = .ok lifted' ∧
        canonical (.mapping lifted') = .ok (.mapping final)) := by
  obtain ⟨shared, found, result, hfound, hresult, hget, hself, hother⟩ := pathItem_canonical h hfinal hname hoperation
  obtain ⟨divided, _, hdivided, -, -⟩ := (operation_eq_ok hvs).mp hfound
  obtain ⟨a, x, b, ha, hx, hb, rfl⟩ := taken_marked.mp hdivided
  cases hv.symm.trans hx
  have hdivided' := taken_marked.mpr ⟨a, _, b, ha, hv', hb, rfl⟩
  refine ⟨result, hget, hself, ?_⟩
  cases hlater : b.body with
  | none =>
    have hdescribed : ∀ body : Value, (a.append (Params.append { body := some body } b)).described
        (consumesFor consumes operation) = .ok (some body) := by
      intro body
      simp only [Params.described, Params.append, hlater, Option.none_or, Option.some_or]
    obtain ⟨hgetFound, hchanged⟩ :=
      operation_body hfound hvs hdivided hdivided' rfl (hdescribed body) (hdescribed body')
    obtain ⟨w, hw, hgetResult, hreplaced⟩ := canonical_part hresult hgetFound (by decide)
    exact .inl ⟨w, hgetResult, hw, fun w' hw' => hother _ _ _ hchanged (hreplaced _ _ hw')⟩
  | some later =>
    have hsame : a.append (Params.append { body := some body' } b) = a.append (Params.append { body := some body } b) := by
      simp only [Params.append, hlater, Option.some_or]
    obtain ⟨lifted', hlifted', hfinal'⟩ := hother _ _ _ (operation_same hfound hvs hdivided (hsame ▸ hdivided')) hresult
    exact .inr ⟨lifted', hlifted', hself ▸ hfinal'⟩

end Placed

/-! ### Canonical path items with another parameter of their own -/

section Hoisted

variable {item lifted final operation : Entries} {name : String} {before after shared : List Value} {v : Value}

/-- No other operation stands at the path. -/
structure IsAlone (item : Entries) (name : String) : Prop where
  methods : ∀ other ∈ httpMethods, other ≠ name → (Entries.get item other).isMapping = false
  keys : ∀ other ∈ ["$ref", "additionalOperations"], Entries.has item other = false

theorem get?_moveInEntries_eq (entries : Entries) (key : String) :
    Entries.get? (moveInEntries entries) key = (Entries.get? entries key).map (moveAt (.text key)) := by
  cases h : Entries.get? entries key with
  | none => exact (pointwise_moveInEntries entries).get?_eq_none h
  | some v => exact get?_moveInEntries h

theorem isMapping_moveAt (key : Scalar) (v : Value) : (moveAt key v).isMapping = v.isMapping := by
  cases hv : v.text? with
  | some s =>
    rw [eq_text_of_text? hv, moveAt]
    split <;> rfl
  | none =>
    rw [moveAt_of_not_text hv]
    split
    · rfl
    · cases v <;> rw [moveReferences] <;> rfl

/-- Another operation and other parameters leave it alone. -/
theorem IsAlone.of_get? (h : IsAlone item name) (hname : name ∈ httpMethods)
    (hothers : ∀ other, other ≠ name → other ≠ "parameters" → Entries.get? lifted other = Entries.get? item other) :
    IsAlone lifted name := by
  refine ⟨fun other hother hne => ?_, fun other hother => ?_⟩
  · rw [Entries.get, hothers other hne (ne_parameters_of_mem_httpMethods hother)]
    exact h.methods other hother hne
  · have hfree : other ∉ httpMethods ∧ other ≠ "parameters" := by
      revert other
      decide
    rw [Entries.has, hothers other (fun heq => hfree.1 (heq ▸ hname)) hfree.2]
    exact h.keys other hother

/-- Moved references leave the operations of an item as they are. -/
theorem IsAlone.moved (h : IsAlone item name) : IsAlone (moveInEntries item) name := by
  refine ⟨fun other hother hne => ?_, fun other hother => has_moveInEntries.trans (h.keys other hother)⟩
  have halone := h.methods other hother hne
  rw [Entries.get] at halone ⊢
  rw [get?_moveInEntries_eq]
  cases hget : Entries.get? item other with
  | none => rfl
  | some v =>
    rw [hget] at halone
    exact (isMapping_moveAt _ v).trans halone

/-- So do the passes. -/
theorem IsAlone.canonical (h : IsAlone item name)
    (hitem : Contract.canonical (.mapping item) = .ok (.mapping final)) : IsAlone final name := by
  refine ⟨fun other hother hne => ?_, fun other hother => (canonical_has hitem other).trans (h.keys other hother)⟩
  have halone := h.methods other hother hne
  rw [Entries.get] at halone ⊢
  cases hget : Entries.get? item other with
  | none =>
    obtain ⟨_, hsame, hentries⟩ := canonical_mapping.mp hitem
    cases hsame
    rw [hentries.get?_eq_none hget]
    rfl
  | some v =>
    rw [hget] at halone
    obtain ⟨v', hv', hgetFinal, -⟩ := canonical_part hitem hget (isReserved_of_mem_httpMethods hother)
    rw [hgetFinal]
    exact (isMapping_of_canonical hv').trans halone

theorem HasParams.canonical {vs : List Value} (h : HasParams item vs)
    (hitem : Contract.canonical (.mapping item) = .ok (.mapping final)) :
    ∃ vs', HasParams final vs' ∧ List.Forall₂ (fun v v' => Contract.canonical v = .ok v') vs vs' := by
  rcases h with h | ⟨h, rfl⟩
  · obtain ⟨_, hlist, hget, -⟩ := canonical_part hitem h (by decide)
    obtain ⟨vs', rfl, hvs'⟩ := canonical_list.mp hlist
    exact ⟨vs', .inl hget, hvs'⟩
  · exact ⟨[], .inr ⟨(canonical_has hitem _).trans h, rfl⟩, .nil⟩

/-- The parameters of a path come to something if its item is lifted. -/
theorem exists_taken_of_pathItem (h : pathItem consumes produces bodies item = .ok lifted)
    (hshared : HasParams item shared) :
    ∃ found body, taken consumes bodies shared = .ok found ∧ found.described consumes = .ok body := by
  rcases hshared with hget | ⟨-, rfl⟩
  · rw [pathItem_eq] at h
    obtain ⟨_, hsplit, -⟩ := bind_eq_ok.mp h
    rw [splitParams, Entries.get, hget] at hsplit
    simp only [Option.getD_some, params_eq] at hsplit
    obtain ⟨_, hparams, -⟩ := bind_eq_ok.mp hsplit
    obtain ⟨found, hfound, hparams⟩ := bind_eq_ok.mp hparams
    obtain ⟨body, hbody, -⟩ := bind_eq_ok.mp hparams
    exact ⟨found, body, hfound, hbody⟩
  · exact ⟨{}, none, rfl, rfl⟩

/-- The item with fewer parameters of its operation and with one more of its own. -/
def hoisted (item : Entries) (name : String) (operation : Entries) (vs shared : List Value) : Entries :=
  Entries.put (Entries.replace item name (.mapping (Entries.replace operation "parameters" (.list vs))))
    "parameters" (.list shared)

/-- **A parameter that stays one moves to the path.** -/
theorem pathItem_hoisted_kept (h : pathItem consumes produces bodies item = .ok lifted)
    (hfinal : canonical (.mapping lifted) = .ok (.mapping final)) (hname : name ∈ httpMethods)
    (hoperation : Entries.get? item name = some (.mapping operation)) (halone : IsAlone item name)
    (hshared : HasParams item shared)
    (hvs : Entries.get? operation "parameters" = some (.list (before ++ v :: after))) {k : Value}
    (hv : ∀ consumes, Params.add consumes bodies {} v = .ok { kept := [k] }) :
    ∃ result first ws w rest, Entries.get? final name = some (.mapping result) ∧ HasParams final first ∧
      IsAlone final name ∧ Entries.get? result "parameters" = some (.list (ws ++ w :: rest)) ∧ canonical k = .ok w ∧
      (∀ u ∈ ws, ∃ v ∈ before, canonical (param v) = .ok u) ∧
      ∃ lifted', pathItem consumes produces bodies (hoisted item name operation (before ++ after) (shared ++ [v])) =
          .ok lifted' ∧
        canonical (.mapping lifted') = .ok (.mapping (hoisted final name result (ws ++ rest) (first ++ [w]))) := by
  obtain ⟨kept, body, hkept, hbody⟩ := exists_taken_of_pathItem h hshared
  obtain ⟨hhas, found, hfound, hget, hothers, hother⟩ :=
    pathItem_parameters h hname hoperation halone.methods hshared hkept hbody
  obtain ⟨divided, _, hdivided, -, -⟩ := (operation_eq_ok hvs).mp hfound
  obtain ⟨a, x, b, ha, hx, hb, rfl⟩ := taken_marked.mp hdivided
  cases (hv _).symm.trans hx
  obtain ⟨hgetFound, hchanged⟩ := operation_parameters hfound hvs hdivided
    (taken_append.mpr ⟨a, b, ha, hb, rfl⟩) (by simp only [Params.append, Option.or_none]) rfl
  obtain ⟨_, hresult, hgetFinal, hreplaced⟩ := canonical_part hfinal hget (isReserved_of_mem_httpMethods hname)
  obtain ⟨result, rfl, -⟩ := canonical_mapping.mp hresult
  obtain ⟨_, hlist, hgetResult, hreplacedResult⟩ := canonical_part hresult hgetFound (by decide)
  obtain ⟨_, rfl, hall⟩ := canonical_list.mp hlist
  obtain ⟨ws, w, rest, rfl, hws, hw, hrest⟩ := forall₂_marked.mp hall
  obtain ⟨first, hfirst, hcanonical⟩ := hhas.canonical hfinal
  refine ⟨result, first, ws, w, rest, hgetFinal, hfirst, (halone.of_get? hname hothers).canonical hfinal, hgetResult, hw, ?_, ?_⟩
  · intro u hu
    obtain ⟨k', hk', hcanonical⟩ := Resolving.exists_left_of_forall₂ hws.flip u hu
    obtain ⟨v', hv', rfl⟩ := exists_of_mem_kept ha k' hk'
    exact ⟨v', hv', hcanonical⟩
  · have hmore : taken consumes bodies (shared ++ [v]) = .ok ⟨kept.kept ++ [k], kept.body, kept.form⟩ := by
      refine taken_marked.mpr ⟨kept, _, {}, hkept, hv _, rfl, ?_⟩
      rw [Params.append_empty, Params.append, Option.none_or, List.append_nil]
    have hmoved := hother _ _ _ _ body hmore hbody hchanged
    refine ⟨_, hmoved, canonical_put (hreplaced _ _ (hreplacedResult _ _ ?_)) ?_⟩
    · exact canonical_list.mpr ⟨_, rfl, List.rel_append hws hrest⟩
    · exact (canonicalAt_of_not_isReserved (by decide) _).trans
        (canonical_list.mpr ⟨_, rfl, List.rel_append hcanonical (.cons hw .nil)⟩)

/-- **A parameter that describes the body moves to the path**, if it is the only one to do so and the path takes
what the operation does. -/
theorem pathItem_hoisted_body (h : pathItem consumes produces bodies item = .ok lifted)
    (hfinal : canonical (.mapping lifted) = .ok (.mapping final)) (hname : name ∈ httpMethods)
    (hoperation : Entries.get? item name = some (.mapping operation)) (halone : IsAlone item name)
    (hshared : HasParams item shared)
    (hvs : Entries.get? operation "parameters" = some (.list (before ++ v :: after)))
    (hconsumes : consumesFor consumes operation = consumes)
    (hnone : Entries.has operation "requestBody" = false)
    (honly : ∀ w ∈ before ++ after ++ shared, isBodyPart bodies w = false)
    (hv : ∀ x, Params.add consumes bodies {} v = .ok x →
      x.kept = [] ∧ ∀ body, x.described consumes = .ok body → body.isSome = true) :
    ∃ result first, Entries.get? final name = some (.mapping result) ∧ HasParams final first ∧
      IsAlone final name ∧ ∃ lifted', pathItem consumes produces bodies
          (hoisted item name operation (before ++ after) (shared ++ [v])) = .ok lifted' ∧
        canonical (.mapping lifted') =
          .ok (.mapping (Entries.put (Entries.replace final name (.mapping result)) "parameters" (.list first))) := by
  have hparts : ∀ ws, (∀ w ∈ ws, w ∈ before ++ after ++ shared) → ∃ kept, taken consumes bodies ws = .ok { kept } :=
    fun ws hws => taken_of_not_isBodyPart fun w hw => honly w (hws w hw)
  obtain ⟨ks, hks⟩ := hparts shared fun w hw => List.mem_append_right _ hw
  obtain ⟨as, has⟩ := hparts before fun w hw => List.mem_append_left _ (List.mem_append_left _ hw)
  obtain ⟨bs, hbs⟩ := hparts after fun w hw => List.mem_append_left _ (List.mem_append_right _ hw)
  obtain ⟨hhas, found, hfound, hget, hothers, hother⟩ :=
    pathItem_parameters h hname hoperation halone.methods hshared hks rfl
  obtain ⟨divided, described, hdivided, hdescribed, -⟩ := (operation_eq_ok hvs).mp hfound
  rw [hconsumes] at hdivided hdescribed
  obtain ⟨a, x, b, ha, hx, hb, rfl⟩ := taken_marked.mp hdivided
  cases has.symm.trans ha
  cases hbs.symm.trans hb
  obtain ⟨hkept, hbody⟩ := hv x hx
  have hsame : Params.append { kept := as } (x.append { kept := bs }) = ⟨as ++ bs, x.body, x.form⟩ := by
    simp only [Params.append, hkept, List.nil_append, List.append_nil, Option.none_or, Option.or_none]
  rw [hsame] at hdivided hdescribed
  have hdescribed : x.described consumes = .ok described := hdescribed
  obtain ⟨body, rfl⟩ := Option.isSome_iff_exists.mp (hbody _ hdescribed)
  have hfewer : taken (consumesFor consumes operation) bodies (before ++ after) = .ok { kept := as ++ bs } := by
    rw [hconsumes]
    exact taken_append.mpr ⟨_, _, has, hbs, rfl⟩
  have hfull : taken (consumesFor consumes operation) bodies (before ++ v :: after) =
      .ok ⟨as ++ bs, x.body, x.form⟩ := by rwa [hconsumes]
  have hbody : Params.described ⟨as ++ bs, x.body, x.form⟩ (consumesFor consumes operation) = .ok (some body) := by
    rwa [hconsumes]
  have hchanged := operation_hoisted hfound hvs hnone hfull hfewer rfl hbody rfl
  have hmore : taken consumes bodies (shared ++ [v]) = .ok ⟨ks, x.body, x.form⟩ := by
    refine taken_marked.mpr ⟨_, x, {}, hks, hx, rfl, ?_⟩
    simp only [Params.append, hkept, List.append_nil, List.nil_append, Option.none_or, Option.or_none]
  have hmoved := hother _ _ _ _ (some body) hmore hdescribed hchanged
  obtain ⟨_, hresult, hgetFinal, hreplaced⟩ := canonical_part hfinal hget (isReserved_of_mem_httpMethods hname)
  obtain ⟨result, rfl, -⟩ := canonical_mapping.mp hresult
  obtain ⟨first, hfirst, hcanonical⟩ := hhas.canonical hfinal
  refine ⟨result, first, hgetFinal, hfirst, (halone.of_get? hname hothers).canonical hfinal, _, hmoved,
    canonical_put (hreplaced _ _ hresult) ?_⟩
  exact (canonicalAt_of_not_isReserved (by decide) _).trans (canonical_list.mpr ⟨_, rfl, hcanonical⟩)

end Hoisted

/-! ### Shared parameters -/

section SharedParameters

/-- What the passes make of an entry of a family of components that is named by its author. -/
theorem entryAt_runPasses {lifted data : Entries} {family name : String} {v : Value} (hfamily : family ≠ "schemas")
    (hname : isReserved (.text name) = false) (hdata : runPasses lifted = .ok data)
    (hv : entryAt lifted family name = some v) :
    ∃ v', canonical v = .ok v' ∧ entryAt data family name = some v' := by
  have hstep : ∀ {pass : Pass} {data data' : Entries} {v : Value}, rewriteDocument pass data = .ok data' →
      entryAt data family name = some v →
      ∃ v', rewriteEntry pass (.text name) v = .ok v' ∧ entryAt data' family name = some v' := by
    intro pass data data' v hpass hv
    obtain ⟨families, entries, hfamilies, hentries, hv⟩ := entryAt_eq_some.mp hv
    obtain ⟨_, hsection, hrewrite⟩ := (pointwise_rewriteDocument hpass).get?_eq_some hfamilies
    obtain ⟨families', hfamilies', rfl⟩ := map_eq_ok.mp hrewrite
    obtain ⟨found, hfound, hrewrite⟩ := (pointwise_rewriteComponents hfamilies').get?_eq_some hentries
    rw [rewriteFamily_of_part fun heq => absurd (Scalar.text.inj heq) hfamily, rewritePart] at hrewrite
    obtain ⟨entries', hentries', hrewrite⟩ := bind_eq_ok.mp hrewrite
    obtain ⟨v', hv', hentry⟩ := (pointwise_rewriteParts hentries').get?_eq_some hv
    cases pure_eq_ok.mp hrewrite
    exact ⟨v', hentry, entryAt_eq_some.mpr ⟨families', entries', hsection, hfound, hv'⟩⟩
  rw [← canonicalAt_of_not_isReserved hname]
  unfold canonicalAt
  unfold runPasses at hdata
  generalize passes = steps at hdata ⊢
  induction steps generalizing lifted v with
  | nil =>
    cases hdata
    exact ⟨v, rfl, hv⟩
  | cons pass steps ih =>
    rw [List.foldlM_cons] at hdata
    obtain ⟨next, hnext, hdata⟩ := bind_eq_ok.mp hdata
    obtain ⟨w, hw, hentry⟩ := hstep hnext hv
    obtain ⟨v', hv', hfinal⟩ := ih hentry hdata
    exact ⟨v', by rw [List.foldlM_cons, hw]; exact hv', hfinal⟩

/-- The document shares a parameter under the name, and nothing else. -/
structure SharesParam (document : Entries) (name : String) (param : Entries) : Prop where
  entry : Shared.parameter.entryIn document name = some (.mapping param)
  only : ∀ e ∈ (Entries.get document "parameters").entries, e.1 = .text name → e.2 = .mapping param

variable {document : Entries} {name : String} {entries : Entries}

/-- The parameters that are shared, with their references moved. -/
theorem SharesParam.moved (h : SharesParam document name entries) :
    ∃ found, Entries.get document "parameters" = .mapping found ∧ Entries.get? found name = some (.mapping entries) ∧
      Entries.get? (moveInEntries document) "parameters" = some (.mapping (moveInEntries found)) := by
  obtain ⟨found, hfound, hentry⟩ := exists_of_get?_entries h.entry
  have hget : Entries.get? document "parameters" = some (.mapping found) := get?_of_get hfound nofun
  refine ⟨found, hfound, hentry, ?_⟩
  rw [get?_moveInEntries hget, moveAt_mapping (by decide)]

/-- Whether a name is that of a request body depends on what is shared under it. -/
theorem SharesParam.any_bodiesOf (h : SharesParam document name entries) :
    (bodiesOf (moveInEntries document)).any (Scalar.text name).sameKey = isBodyParam (.mapping entries) := by
  obtain ⟨found, hfound, hentry, hmoved⟩ := h.moved
  have honly := h.only
  rw [hfound] at honly
  rw [bodiesOf, Entries.get, hmoved, Bool.eq_iff_iff, List.any_eq_true]
  simp only [Option.getD_some, List.mem_map, List.mem_filter, Scalar.text_sameKey, beq_iff_eq]
  constructor
  · rintro ⟨_, ⟨e, ⟨hmem, hbody⟩, rfl⟩, hkey⟩
    have hmem : e ∈ moveInEntries found := hmem
    rw [moveInEntries_eq_map] at hmem
    obtain ⟨e, he, rfl⟩ := List.mem_map.mp hmem
    have hvalue : e.2 = .mapping entries := honly e he hkey
    rwa [isBodyParam_moveAt, hvalue] at hbody
  · intro hbody
    refine ⟨.text name, ⟨(.text name, moveAt (.text name) (.mapping entries)), ⟨?_, ?_⟩, rfl⟩, rfl⟩
    · exact Entries.mem_of_get? (get?_moveInEntries hentry)
    · rwa [isBodyParam_moveAt]

theorem get?_filter {found : Entries} {p : Value → Bool} {v : Value} (h : Entries.get? found name = some v)
    (hv : p v = true) : Entries.get? (found.filter fun e => p e.2) name = some v := by
  induction found with
  | nil => cases h
  | cons e rest ih =>
    rw [Entries.get?_cons] at h
    split at h
    · rename_i hkey
      cases h
      rw [List.filter_cons, if_pos hv, Entries.get?_cons, if_pos hkey]
    · rename_i hkey
      rw [List.filter_cons]
      split
      · rw [Entries.get?_cons, if_neg hkey]
        exact ih h
      · exact ih h

/-- **A shared body parameter becomes a request body** of the same name. -/
theorem SharesParam.requestBody (h : SharesParam document name entries) (hbody : isBodyParam (.mapping entries) = true)
    (hreserved : isReserved (.text name) = false) {lifted data : Entries} (hlift : Lift.document document = .ok lifted)
    (hdata : runPasses lifted = .ok data) :
    ∃ body body', bodyParam (moveInEntries entries) (consumesOf (moveInEntries document)) = .ok body ∧
      canonical body = .ok body' ∧ entryAt data "requestBodies" name = some body' := by
  obtain ⟨found, -, hentry, hmoved⟩ := h.moved
  obtain ⟨p, hp, hcomponents⟩ := document_components hlift
  unfold components at hp
  obtain ⟨p₁, h₁, hp⟩ := bind_eq_ok.mp hp
  obtain ⟨p₂, h₂, hp⟩ := bind_eq_ok.mp hp
  obtain ⟨p₃, h₃, h₄⟩ := bind_eq_ok.mp hp
  have hget : Entries.get? p₁.rest "parameters" = some (.mapping (moveInEntries found)) := by
    rw [(definitions_leaves h₁).rest _ (by decide), ← hmoved]
    exact (Entries.get?_putNew_of_ne (by decide)).trans
      ((Entries.get?_erase_of_ne (by decide)).trans (Entries.get?_erase_of_ne (by decide)))
  rcases parameters_eq_ok h₂ with ⟨hnone, -⟩ | ⟨found', requestBodies, _, hget', hmapM, -, hset, -, -⟩
  · rw [takeMapping_of_get? hget] at hnone
    cases hnone
  · cases hget.symm.trans hget'
    have hchosen := get?_filter (p := isBodyParam) (get?_moveInEntries hentry) (isBodyParam_moveAt.trans hbody)
    obtain ⟨body, hbodies, hlifted⟩ := (Entries.pointwise_of_mapM
      (f := fun _ v => bodyParam v.entries (consumesOf (moveInEntries document))) hmapM).get?_eq_some hchosen
    rw [moveAt_mapping_of_not_isReserved hreserved] at hlifted
    have hne : requestBodies ≠ [] := by
      rintro rfl
      cases hbodies
    have hfamily : p.components.get? "requestBodies" = some (.mapping requestBodies) := by
      rw [(securityDefinitions_leaves h₄).components _ (by decide), (sharedResponses_leaves h₃).components _ (by decide),
        setUnlessEmpty_get? hset, if_pos ⟨rfl, hne⟩]
    obtain ⟨families, hfamilies, hfamily⟩ := exists_of_get?_entries hfamily
    rw [hfamilies] at hcomponents
    obtain ⟨body', hbody', hfinal⟩ := entryAt_runPasses (by decide) hreserved hdata
      (entryAt_eq_some.mpr ⟨_, _, hcomponents, hfamily, hbodies⟩)
    exact ⟨body, body', hlifted, hbody', hfinal⟩

/-- **A shared parameter that describes no body stays one** of the same name. -/
theorem SharesParam.component (h : SharesParam document name entries) (hbody : isBodyParam (.mapping entries) = false)
    (hreserved : isReserved (.text name) = false) {lifted data : Entries} (hlift : Lift.document document = .ok lifted)
    (hdata : runPasses lifted = .ok data) :
    ∃ v, canonical (param (.mapping (moveInEntries entries))) = .ok v ∧ entryAt data "parameters" name = some v := by
  obtain ⟨v, hv, hentry⟩ := Shared.entryAt_canonical hlift hdata h.entry fun _ => hbody
  refine ⟨v, ?_, hentry⟩
  rw [← canonicalAt_of_not_isReserved hreserved, ← moveAt_mapping_of_not_isReserved hreserved]
  exact hv

end SharedParameters

end ContractSync.Contract.Lift
