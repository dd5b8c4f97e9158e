import ContractSync.Proofs.Contract.Placement
import ContractSync.Proofs.Route.Agreeing
import ContractSync.Proofs.Route.Merging

/-!
# The same routes but for the order of parameters

An operation keeps its routes if its parameters come to the same ones in another order (`merge_comm`,
`Parameter.alike_ofValues_moved`), and its body to the same one. **A path keeps them if its operations do**
(`alike_ofPath_replace`, `alike_ofPath_alone`).
-/

namespace ContractSync.Route

open ContractSync.Contract
open ContractSync.Document
open ContractSync.Resolving (Same Alike same_lift same_note)

variable {c c' : Canonical}

/-! ### Merged parameters in another order -/

namespace Parameter

variable {p q r : Parameter} {ps qs : List Parameter}

theorem merge_perm (h : ps.Perm qs) (p : Parameter) : (merge ps p).Perm (merge qs p) := by
  rw [merge_eq, merge_eq, h.any_eq]
  split
  · exact h.map _
  · exact h.append_right _

theorem overriding_sameKey (p q r : Parameter) : (overriding p r).sameKey q = r.sameKey q := by
  rw [Bool.eq_iff_iff, ← key_eq_iff, ← key_eq_iff, key_overriding]

theorem any_map_overriding (p q : Parameter) (ps : List Parameter) :
    (ps.map (overriding p)).any (·.sameKey q) = ps.any (·.sameKey q) := by
  rw [List.any_map]
  exact congrArg (ps.any ·) (funext (overriding_sameKey p q))

theorem overriding_comm (h : p.sameKey q = false) (r : Parameter) :
    overriding q (overriding p r) = overriding p (overriding q r) := by
  have hqp : q.sameKey p = false := (sameKey_comm q p).trans h
  have hboth : ∀ p q : Parameter, p.sameKey q = false → r.sameKey p = true →
      overriding q (overriding p r) = overriding p (overriding q r) := by
    intro p q hpq hr
    have hq : r.sameKey q = false := by
      rw [← overriding_sameKey p q r, overriding, if_pos hr, hpq]
    simp only [overriding, hr, hq, hpq, if_true, Bool.false_eq_true, if_false]
  cases hp : r.sameKey p with
  | true => exact hboth p q h hp
  | false =>
    cases hq : r.sameKey q with
    | true => exact (hboth q p hqp hq).symm
    | false => simp only [overriding, hp, hq, Bool.false_eq_true, if_false]

/-- Parameters that do not override each other may come in any order. -/
theorem merge_comm (h : p.sameKey q = false) (ps : List Parameter) :
    (merge (merge ps p) q).Perm (merge (merge ps q) p) := by
  have hqp : q.sameKey p = false := (sameKey_comm q p).trans h
  have hself : ∀ p q : Parameter, p.sameKey q = false → overriding q p = p := fun p q hpq => by
    rw [overriding, hpq]
    rfl
  have happend : ∀ p q : Parameter, p.sameKey q = false →
      (ps ++ [p]).any (·.sameKey q) = ps.any (·.sameKey q) := by
    intro p q hpq
    rw [List.any_append, List.any_cons, hpq, List.any_nil, Bool.or_false, Bool.or_false]
  simp only [merge_eq ps]
  cases hp : ps.any (·.sameKey p) with
  | true =>
    cases hq : ps.any (·.sameKey q) with
    | true =>
      simp only [if_true, merge_eq, any_map_overriding p q, any_map_overriding q p, hp, hq, List.map_map]
      rw [show overriding q ∘ overriding p = overriding p ∘ overriding q from funext (overriding_comm h)]
    | false =>
      simp only [if_true, Bool.false_eq_true, if_false, merge_eq, any_map_overriding p q, happend q p hqp, hp, hq,
        List.map_append, List.map_singleton, hself q p hqp]
      exact .refl _
  | false =>
    cases hq : ps.any (·.sameKey q) with
    | true =>
      simp only [if_true, Bool.false_eq_true, if_false, merge_eq, any_map_overriding q p, happend p q h, hp, hq,
        List.map_append, List.map_singleton, hself p q h]
      exact .refl _
    | false =>
      simp only [Bool.false_eq_true, if_false, merge_eq, happend p q h, happend q p hqp, hp, hq]
      rw [List.append_assoc, List.append_assoc]
      exact (List.Perm.swap q p []).append_left ps

theorem foldl_merge_perm (h : ps.Perm qs) (found : List Parameter) :
    (found.foldl merge ps).Perm (found.foldl merge qs) := by
  induction found generalizing ps qs with
  | nil => exact h
  | cons p found ih => exact ih (merge_perm h p)

/-- **A parameter may come before those that it does not override.** -/
theorem foldl_merge_move {found : List Parameter} (h : ∀ q ∈ found, q.sameKey p = false) (ps : List Parameter) :
    (merge (found.foldl merge ps) p).Perm (found.foldl merge (merge ps p)) := by
  induction found generalizing ps with
  | nil => exact .refl _
  | cons q found ih =>
    rw [List.forall_mem_cons] at h
    exact (ih h.2 (merge ps q)).trans (foldl_merge_perm (merge_comm h.1 ps) found)

/-- The parameters that values describe or refer to, merged. -/
def ofValues (doc : Canonical) (vs : List Value) : Resolving (List Parameter) := do
  let found ← vs.mapM (ofValue doc)
  return (found.filterMap id).foldl merge []

theorem resolveAll_eq (doc : Canonical) (pathLevel operationLevel : Value) :
    resolveAll doc pathLevel operationLevel =
      ofValues doc (pathLevel.items?.getD [] ++ operationLevel.items?.getD []) := rfl

theorem same_ofValues {vs vs' : List Value}
    (h : List.Forall₂ (fun v v' => Same (ofValue c v) (ofValue c' v')) vs vs') :
    Same (ofValues c vs) (ofValues c' vs') := by
  refine (Alike.mapM h fun v v' hv => hv).bind fun found found' hfound => ?_
  have heq : found = found' := List.forall₂_eq_eq_eq ▸ hfound
  exact Alike.pure (heq ▸ rfl)

/-- **A parameter may come before those that are not the same one.** -/
theorem alike_ofValues_moved (h : Agree c c') {first between rest : List Value} {v : Value}
    (hfirst : ∀ w ∈ first, IsGrounded c w) (hbetween : ∀ w ∈ between, IsGrounded c w)
    (hv : IsGrounded c v) (hrest : ∀ w ∈ rest, IsGrounded c w)
    (hdistinct : ∀ w ∈ between, ∀ p q, (ofValue c w).Yields (some p) → (ofValue c v).Yields (some q) →
      p.sameKey q = false) :
    Alike List.Perm (ofValues c (first ++ (between ++ v :: rest))) (ofValues c' (first ++ [v] ++ (between ++ rest))) := by
  have hsame : ∀ {vs : List Value}, (∀ w ∈ vs, IsGrounded c w) → Same (vs.mapM (ofValue c)) (vs.mapM (ofValue c')) :=
    fun hvs => Same.mapM fun w hw => same_ofValue h (hvs w hw)
  unfold ofValues
  simp only [List.mapM_append, List.mapM_cons, List.mapM_nil, bind_assoc, pure_bind]
  refine Same.bind (hsame hfirst) fun ss => ?_
  refine Same.swap_bind (hsame hbetween) (same_ofValue h hv) fun as x has hx => ?_
  refine Same.bind (hsame hrest) fun bs => Alike.pure ?_
  simp only [List.filterMap_append, List.foldl_append]
  cases x with
  | none => exact .refl _
  | some p =>
    refine foldl_merge_perm (foldl_merge_move (fun q hq => ?_) _) _
    obtain ⟨result, hresult, hq⟩ := List.mem_filterMap.mp hq
    obtain ⟨w, hw, hyields⟩ := has.mapM result hresult
    exact hdistinct w hw q p (hq ▸ hyields) hx

end Parameter

/-! ### References to components -/

/-- The name of a component is read off the reference to it. -/
theorem componentName_eq_some {mark family segment : String} (self : Option String)
    (hmark : mark.toList = '#' :: '/' :: ("components".toList ++ '/' :: (family.toList ++ ['/'])))
    (hfamily : '/' ∉ family.toList) (hsegment : '/' ∉ segment.toList)
    (hname : Reference.Pointer.decodeSegment segment.toList ≠ "") :
    Reference.componentName (mark ++ segment) self family = some (Reference.Pointer.decodeSegment segment.toList) := by
  have hwritten : (mark ++ segment).toList =
      '#' :: '/' :: ("components".toList ++ '/' :: (family.toList ++ '/' :: segment.toList)) := by
    rw [String.toList_append, hmark]
    simp only [List.cons_append, List.append_assoc, List.nil_append]
  exact Reference.componentName_eq_some_iff.mpr ⟨_, _, Reference.toLocal_of_hash (by rw [hwritten]; rfl) self,
    Reference.pieces_component hwritten hfamily hsegment, rfl, hname⟩

theorem follow_object (doc : Canonical) {entries : Entries} (h : Entries.has entries "$ref" = false)
    (family context : String) : follow doc family context (.mapping entries) = pure (some entries) := by
  unfold follow
  simp only [Entries.get_of_not_has h]

/-- A reference to a component leads to it. -/
theorem follow_component {doc : Canonical} {ref name family : String} {entries : Entries}
    (hname : doc.componentName ref family = some name)
    (hentry : entryAt doc.data family name = some (.mapping entries)) (hinline : Entries.has entries "$ref" = false)
    (context : String) : follow doc family context (.object [("$ref", .text ref)]) = pure (some entries) := by
  have htarget : target? doc family ref = .ok (some (.mapping entries)) := by
    unfold target?
    rw [hname]
    exact congrArg Except.ok hentry
  have hget : Entries.get [(Scalar.text "$ref", Value.text ref)] "$ref" = .text ref := by
    rw [Entries.get, Entries.get?_cons, if_pos rfl]
    rfl
  have hlift : (liftM (Except.ok (some (Value.mapping entries)) : Except Fault (Option Value)) : Resolving (Option Value)) =
      pure (some (.mapping entries)) := rfl
  unfold follow
  simp only [Value.object, List.map_cons, List.map_nil, hget, htarget, hlift, pure_bind, hinline, Bool.false_eq_true,
    if_false]

/-! ### A path item with another operation -/

section Item

variable {item : Entries} {method : String} {operation operation' : Entries}

theorem forall₂_filterMap {α β : Type} {R : β → β → Prop} {f g : α → Option β} {as : List α}
    (h : ∀ a ∈ as, Option.Rel R (f a) (g a)) : List.Forall₂ R (as.filterMap f) (as.filterMap g) := by
  refine List.rel_filterMap (R := fun a b => a = b ∧ a ∈ as) ?_ (List.forall₂_same.mpr fun a ha => ⟨rfl, ha⟩)
  rintro a _ ⟨rfl, ha⟩
  exact h a ha

/-- The operations of the item stay what they are but for the other one. -/
theorem alike_operations_replace (h : Agree c c') (hitem : AllGrounded c item) (hmethod : method ∈ httpMethods)
    (hoperation : Entries.get? item method = some (.mapping operation)) {kind : RouteKind}
    (hlike : LikeOperations c c' kind item (Entries.replace item method (.mapping operation'))
      (method, operation) (method, operation')) :
    List.Forall₂ (LikeOperations c c' kind item (Entries.replace item method (.mapping operation')))
      (operations item) (operations (Entries.replace item method (.mapping operation'))) := by
  have hhas : Entries.has item method = true := Entries.has_of_get? hoperation
  have hne : ∀ key ∉ httpMethods, method ≠ key := fun key hkey heq => hkey (heq ▸ hmethod)
  have hget : ∀ key ∉ httpMethods,
      Entries.get? (Entries.replace item method (.mapping operation')) key = Entries.get? item key :=
    fun key hkey => Entries.get?_replace_of_ne (hne key hkey)
  have hrefl : ∀ other ∈ operations item, LikeOperations c c' kind item
      (Entries.replace item method (.mapping operation')) other other := fun other hother =>
    .refl h hitem (fun key hkey => hget key (by revert key; decide)) (isGrounded_of_mem_operations hitem other hother)
  unfold operations
  refine List.rel_append (forall₂_filterMap fun name hname => ?_) ?_
  · by_cases hsame : name = method
    · subst hsame
      rw [Entries.get, hoperation, Entries.get, Entries.get?_replace_self hhas]
      exact .some hlike
    · rw [Entries.get, Entries.get, Entries.get?_replace_of_ne (Ne.symm hsame), ← Entries.get]
      cases hfound : (Entries.get item name).entries? with
      | none => exact .none
      | some found =>
        refine .some (hrefl _ (List.mem_append_left _ (List.mem_filterMap.mpr ⟨name, hname, ?_⟩)))
        rw [hfound]
        rfl
  · rw [Entries.get, Entries.get, hget "additionalOperations" (by decide), ← Entries.get]
    exact List.forall₂_same.mpr fun other hother => hrefl other (List.mem_append_right _ hother)

/-- **A path whose item has another operation has the same routes up to the order of parameters, if the operation
has**, wherever the rest of the item is found. -/
theorem alike_ofPath_replace (h : Agree c c') (hitem : IsGrounded c (.mapping item)) (hmethod : method ∈ httpMethods)
    (hhas : Entries.has item method = true)
    (hself : Entries.replace item method (.mapping operation) = item) {kind : RouteKind}
    (hlike : ∀ found, AllGrounded c found → LikeOperations c c' kind found
      (Entries.replace found method (.mapping operation')) (method, operation) (method, operation'))
    (path : Scalar) (names : Name.Table) :
    Alike ReordersAll (ofPath c kind path names (.mapping item))
      (ofPath c' kind path names (.mapping (Entries.replace item method (.mapping operation')))) := by
  have hroutes : ∀ found, AllGrounded c found → Entries.get? found method = some (.mapping operation) →
      Alike ReordersAll (ofOperations c kind path found names (operations found))
        (ofOperations c' kind path (Entries.replace found method (.mapping operation')) names
          (operations (Entries.replace found method (.mapping operation')))) := fun found hfound hoperation =>
    alike_ofOperations (alike_operations_replace h hfound hmethod hoperation (hlike found hfound)) path names
  have hreference : method ≠ "$ref" := by
    rintro rfl
    exact absurd hmethod (by decide)
  have hgetReference : Entries.get (Entries.replace item method (.mapping operation')) "$ref" =
      Entries.get item "$ref" := by
    exact Entries.get_replace_of_ne hreference
  have hall := allGrounded_entries hitem
  unfold ofPath pathItem
  simp only
  rw [hgetReference]
  split
  · rename_i ref href
    rw [target?_eq h (refers_ref hitem href), bind_assoc, bind_assoc]
    refine Alike.lift_bind fun target htarget => ?_
    split
    · rename_i target
      have hbeside : Entries.has (Entries.erase item "$ref") method = true := by
        rw [Entries.has, Entries.get?_erase_of_ne (Ne.symm hreference)]
        exact hhas
      have hsame : (Entries.erase item "$ref").foldl (fun found e => Entries.putKey found e.1 e.2) target =
          Entries.replace ((Entries.erase item "$ref").foldl (fun found e => Entries.putKey found e.1 e.2) target)
            method (.mapping operation) := by
        rw [← Entries.foldl_putKey_replace hbeside, ← Entries.erase_replace, hself]
      rw [Entries.erase_replace, pure_bind, pure_bind, Entries.foldl_putKey_replace hbeside]
      refine hroutes _ (fun e he => ?_) ?_
      · rcases mem_foldl_putKey he with he | ⟨w, hw, hvalue⟩
        · exact allGrounded_entries (isGrounded_of_target? h htarget) e he
        · exact hvalue ▸ hall w (Entries.mem_of_mem_erase hw)
      · rw [hsame, Entries.get?_replace_self (Entries.has_foldl_putKey (.inl hbeside))]
    · rw [bind_assoc, bind_assoc]
      exact Same.bind (same_note _ _ _ _) fun _ => Alike.pure ⟨.nil, rfl⟩
  · rw [pure_bind, pure_bind]
    refine hroutes item hall ?_
    rw [← hself, Entries.get?_replace_self hhas]

end Item

/-! ### Operations with other parameters or another body -/

section Like

variable {kind : RouteKind} {item item' operation : Entries} {method : String}

theorem HasParams.items {vs : List Value} (h : Lift.HasParams item vs) :
    (Entries.get item "parameters").items?.getD [] = vs := by
  rcases h with h | ⟨h, rfl⟩
  · rw [Entries.get, h]
    rfl
  · rw [Entries.get_of_not_has h]
    rfl

theorem isGrounded_items {v : Value} (h : IsGrounded c v) : ∀ item ∈ v.items?.getD [], IsGrounded c item := by
  cases v with
  | list items => exact refers_list.mp h
  | scalar | mapping | set => exact List.forall_mem_nil _

/-- The parameters come to the same. -/
theorem likeOperations_parameters (h : Agree c c') (hitem : AllGrounded c item)
    (hkeys : ∀ key ∈ ["parameters", "summary", "description"], Entries.get? item' key = Entries.get? item key)
    (hoperation : IsGrounded c (.mapping operation)) {vs vs' : List Value}
    (hvs : Entries.get? operation "parameters" = some (.list vs))
    (hsame : List.Forall₂ (fun v v' => Same (Parameter.ofValue c v) (Parameter.ofValue c' v')) vs vs') :
    LikeOperations c c' kind item item' (method, operation)
      (method, Entries.replace operation "parameters" (.list vs')) := by
  have hhas : Entries.has operation "parameters" = true := Entries.has_of_get? hvs
  have hother : ∀ key, key ≠ "parameters" →
      Entries.get? (Entries.replace operation "parameters" (.list vs')) key = Entries.get? operation key :=
    fun key hkey => Entries.get?_replace_of_ne (Ne.symm hkey)
  refine alike_ofOperation h hoperation (fun key hkey => hother key fun heq => hkey (heq ▸ List.mem_cons_self))
    (fun key hkey => hkeys key (List.mem_cons_of_mem _ hkey)) ?_ ?_
  · have hpath : Entries.get item' "parameters" = Entries.get item "parameters" :=
      Entries.get_congr (hkeys "parameters" List.mem_cons_self)
    have hbefore : Entries.get operation "parameters" = .list vs := Entries.get_of_get? hvs
    have hafter : Entries.get (Entries.replace operation "parameters" (.list vs')) "parameters" = .list vs' :=
      Entries.get_of_get? (Entries.get?_replace_self hhas)
    rw [Parameter.resolveAll_eq, Parameter.resolveAll_eq, hpath, hbefore, hafter]
    refine (Parameter.same_ofValues (List.rel_append (List.forall₂_same.mpr fun v hv => ?_) hsame)).mono
      fun _ _ heq => heq ▸ .refl _
    exact Parameter.same_ofValue h (isGrounded_items (hitem.get "parameters") v hv)
  · have hbody : Entries.get (Entries.replace operation "parameters" (.list vs')) "requestBody" =
        Entries.get operation "requestBody" := Entries.get_congr (hother "requestBody" (by decide))
    rw [hbody]
    exact RequestBody.same_ofValue h (refers_deep_get _ hoperation)

/-- The body comes to the same. -/
theorem likeOperations_body (h : Agree c c') (hitem : AllGrounded c item)
    (hkeys : ∀ key ∈ ["parameters", "summary", "description"], Entries.get? item' key = Entries.get? item key)
    (hoperation : IsGrounded c (.mapping operation)) {body body' : Value}
    (hbody : Entries.get? operation "requestBody" = some body)
    (hsame : Same (RequestBody.ofValue c body) (RequestBody.ofValue c' body')) :
    LikeOperations c c' kind item item' (method, operation)
      (method, Entries.replace operation "requestBody" body') := by
  have hhas : Entries.has operation "requestBody" = true := Entries.has_of_get? hbody
  have hother : ∀ key, key ≠ "requestBody" →
      Entries.get? (Entries.replace operation "requestBody" body') key = Entries.get? operation key :=
    fun key hkey => Entries.get?_replace_of_ne (Ne.symm hkey)
  refine alike_ofOperation h hoperation
    (fun key hkey => hother key fun heq => hkey (heq ▸ List.mem_cons_of_mem _ List.mem_cons_self))
    (fun key hkey => hkeys key (List.mem_cons_of_mem _ hkey)) ?_ ?_
  · have hpath : Entries.get item' "parameters" = Entries.get item "parameters" :=
      Entries.get_congr (hkeys "parameters" List.mem_cons_self)
    have hparams : Entries.get (Entries.replace operation "requestBody" body') "parameters" =
        Entries.get operation "parameters" := Entries.get_congr (hother "parameters" (by decide))
    rw [hpath, hparams]
    exact (Parameter.same_resolveAll h (hitem.get "parameters") (refers_deep_get "parameters" hoperation)).mono
      fun _ _ heq => heq ▸ .refl _
  · have hbefore : Entries.get operation "requestBody" = body := Entries.get_of_get? hbody
    have hafter : Entries.get (Entries.replace operation "requestBody" body') "requestBody" = body' :=
      Entries.get_of_get? (Entries.get?_replace_self hhas)
    rw [hbefore, hafter]
    exact hsame

/-- A parameter of the operation moves to the item. -/
theorem likeOperations_hoisted (h : Agree c c') (hitem : AllGrounded c item)
    (hoperation : IsGrounded c (.mapping operation)) {first ws rest : List Value} {w : Value}
    (hmethod : method ∈ httpMethods) (hfirst : Lift.HasParams item first)
    (hvs : Entries.get? operation "parameters" = some (.list (ws ++ w :: rest)))
    (hdistinct : ∀ u ∈ ws, ∀ p q, (Parameter.ofValue c u).Yields (some p) → (Parameter.ofValue c w).Yields (some q) →
      p.sameKey q = false) :
    LikeOperations c c' kind item (Lift.hoisted item method operation (ws ++ rest) (first ++ [w])) (method, operation)
      (method, Entries.replace operation "parameters" (.list (ws ++ rest))) := by
  have hhas : Entries.has operation "parameters" = true := Entries.has_of_get? hvs
  have hother : ∀ key, key ≠ "parameters" →
      Entries.get? (Entries.replace operation "parameters" (.list (ws ++ rest))) key = Entries.get? operation key :=
    fun key hkey => Entries.get?_replace_of_ne (Ne.symm hkey)
  refine alike_ofOperation h hoperation (fun key hkey => hother key fun heq => hkey (heq ▸ List.mem_cons_self))
    (fun key hkey => ?_) ?_ ?_
  · have hfree : key ∉ httpMethods ∧ key ≠ "parameters" := by
      revert key
      decide
    have hne : method ≠ key := fun heq => hfree.1 (heq ▸ hmethod)
    rw [Lift.hoisted, Entries.get?_put_of_ne (Ne.symm hfree.2), Entries.get?_replace_of_ne hne]
  · have hpath : Entries.get (Lift.hoisted item method operation (ws ++ rest) (first ++ [w])) "parameters" =
        .list (first ++ [w]) := Entries.get_of_get? Entries.get?_put_self
    have hbefore : Entries.get operation "parameters" = .list (ws ++ w :: rest) :=
      Entries.get_of_get? hvs
    have hafter : Entries.get (Entries.replace operation "parameters" (.list (ws ++ rest))) "parameters" =
        .list (ws ++ rest) := Entries.get_of_get? (Entries.get?_replace_self hhas)
    have hgrounded : ∀ u ∈ ws ++ w :: rest, IsGrounded c u :=
      refers_list.mp (hbefore ▸ refers_deep_get "parameters" hoperation)
    rw [Parameter.resolveAll_eq, Parameter.resolveAll_eq, hpath, hbefore, hafter, HasParams.items hfirst]
    refine Parameter.alike_ofValues_moved h ?_ (fun u hu => hgrounded u (List.mem_append_left _ hu))
      (hgrounded w (List.mem_append_right _ List.mem_cons_self))
      (fun u hu => hgrounded u (List.mem_append_right _ (List.mem_cons_of_mem _ hu))) hdistinct
    intro u hu
    rw [← HasParams.items hfirst] at hu
    exact isGrounded_items (hitem.get "parameters") u hu
  · have hbody : Entries.get (Entries.replace operation "parameters" (.list (ws ++ rest))) "requestBody" =
        Entries.get operation "requestBody" := Entries.get_congr (hother "requestBody" (by decide))
    rw [hbody]
    exact RequestBody.same_ofValue h (refers_deep_get _ hoperation)

end Like

/-! ### A path with one operation -/

section Alone

variable {kind : RouteKind} {item item' operation operation' : Entries} {method : String}

theorem operations_of_isAlone (h : Lift.IsAlone item method) (hmethod : method ∈ httpMethods)
    (hoperation : Entries.get? item method = some (.mapping operation)) : operations item = [(method, operation)] := by
  obtain ⟨before, after, hsplit, hbefore, hafter⟩ := Lift.httpMethods_split hmethod
  have hnone : ∀ names : List String, (∀ name ∈ names, name ∈ httpMethods) → method ∉ names →
      names.filterMap (fun name => (Entries.get item name).entries?.map fun found => (name, found)) = [] := by
    intro names hnames hnot
    rw [List.filterMap_eq_nil_iff]
    intro name hname
    have halone := h.methods name (hnames name hname) fun heq => hnot (heq ▸ hname)
    rw [Value.isMapping, ← Bool.not_eq_true, Option.not_isSome_iff_eq_none] at halone
    rw [halone]
    rfl
  have hadditional : Entries.get item "additionalOperations" = .null :=
    Entries.get_of_not_has (h.keys _ (by decide))
  have hget : Entries.get item method = .mapping operation := Entries.get_of_get? hoperation
  have hmem : ∀ names : List String, (∀ name ∈ names, name ∈ before ++ method :: after) →
      ∀ name ∈ names, name ∈ httpMethods := fun names hnames name hname => hsplit ▸ hnames name hname
  unfold operations
  rw [hadditional, hsplit, List.filterMap_append, List.filterMap_cons, hget,
    hnone before (hmem before fun name hname => List.mem_append_left _ hname) hbefore,
    hnone after (hmem after fun name hname => List.mem_append_right _ (List.mem_cons_of_mem _ hname)) hafter]
  rfl

theorem alike_ofPath_alone (h : Lift.IsAlone item method) (h' : Lift.IsAlone item' method)
    (hmethod : method ∈ httpMethods) (hoperation : Entries.get? item method = some (.mapping operation))
    (hoperation' : Entries.get? item' method = some (.mapping operation'))
    (hlike : LikeOperations c c' kind item item' (method, operation) (method, operation')) (path : Scalar)
    (names : Name.Table) :
    Alike ReordersAll (ofPath c kind path names (.mapping item)) (ofPath c' kind path names (.mapping item')) := by
  unfold ofPath pathItem
  simp only [Entries.get_of_not_has (h.keys "$ref" (by decide)), Entries.get_of_not_has (h'.keys "$ref" (by decide)),
    pure_bind]
  rw [operations_of_isAlone h hmethod hoperation, operations_of_isAlone h' hmethod hoperation']
  exact alike_ofOperations (.cons hlike .nil) path names

end Alone

end ContractSync.Route
