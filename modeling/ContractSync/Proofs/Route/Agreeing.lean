import ContractSync.Proofs.Contract.References
import ContractSync.Proofs.Resolving
import ContractSync.Route.Basic

/-!
# Types and routes of documents that agree

Of two documents that agree outside their paths, **a schema has the same type in both**
(`Schema.same_resolve`), and so do the parameters, bodies and responses of an operation. Two operations with
the same parameters, up to order, and the same body have routes that are the same up to that order
(`Route.alike_ofOperation`).
-/

/-!
## Documents that agree outside their paths

What a reference leads to depends on the paths of a document only if it leads into them. **A document without
such references (`Grounded`) and one that agrees with it elsewhere give every reference the same target**
(`Agree.resolveReference`), and in the target there is no such reference either.
-/

namespace ContractSync.Contract

open ContractSync.Document

/-- The reference leads to something outside the paths, if it leads into the document at all. -/
def Grounded (self : Option String) (ref : String) : Prop :=
  ∀ pointer, Reference.toLocal ref self = some pointer →
    ∃ key rest, Reference.Pointer.segments pointer = key :: rest ∧ key ≠ "paths"

/-- The documents agree outside their paths, and no reference of the first leads there. -/
structure Agree (c c' : Canonical) : Prop where
  self : c'.self = c.self
  data : ∀ key, key ≠ "paths" → Entries.get? c'.data key = Entries.get? c.data key
  grounded : ∀ ref ∈ referencesOf true c.data, Grounded c.self ref

/-- No reference in the value leads into the paths of the document. -/
abbrev IsGrounded (c : Canonical) (v : Value) : Prop := Refers true (Grounded c.self) v

section Deep

variable {P : String → Prop} {v : Value}

theorem RefersAt.refers_deep {key : Scalar} (h : RefersAt true P key v) : Refers true P v := by
  cases hv : v.text? with
  | none => exact (refersAt_of_not_text hv).mp h rfl
  | some s =>
    rw [eq_text_of_text? hv]
    exact refers_scalar _

theorem refers_deep_of_get? {entries : Entries} {key : String} (h : Refers true P (.mapping entries))
    (hv : Entries.get? entries key = some v) : Refers true P v :=
  (refers_mapping.mp h _ (Entries.mem_of_get? hv)).refers_deep

theorem refers_deep_get {entries : Entries} (key : String) (h : Refers true P (.mapping entries)) :
    Refers true P (Entries.get entries key) := by
  rw [Entries.get]
  cases hv : Entries.get? entries key with
  | none => exact refers_scalar .null
  | some v => exact refers_deep_of_get? h hv

theorem refers_entries (h : Refers true P v) : Refers true P (.mapping v.entries) := by
  cases v with
  | mapping entries => exact h
  | scalar | list | set => exact refers_object_nil

theorem refers_value_get (key : String) (h : Refers true P v) : Refers true P (v.get key) :=
  refers_deep_get key (refers_entries h)

/-- A reference is read off its key. -/
theorem refers_ref {entries : Entries} {ref : String} (h : Refers true P (.mapping entries))
    (href : Entries.get entries "$ref" = .text ref) : P ref := by
  cases hv : Entries.get? entries "$ref" with
  | none =>
    rw [Entries.get, hv] at href
    cases href
  | some v =>
    rw [Entries.get, hv] at href
    obtain rfl : v = .text ref := href
    exact refersAt_text.mp (refers_mapping.mp h _ (Entries.mem_of_get? hv)) rfl

theorem refers_follow {node : Value} {segments : List String} (h : Refers true P node)
    (hv : Reference.Pointer.follow node segments = .ok (some v)) : Refers true P v := by
  induction segments generalizing node with
  | nil =>
    cases hv
    exact h
  | cons segment rest ih =>
    rw [Reference.Pointer.follow] at hv
    obtain ⟨next, hnext, hv⟩ := bind_eq_ok.mp hv
    cases next with
    | none => cases hv
    | some next =>
      refine ih ?_ hv
      cases node with
      | mapping entries =>
        have hget : Entries.get? entries segment = some next := Except.ok.inj hnext
        exact refers_deep_of_get? h hget
      | list items =>
        obtain ⟨n, -, hnext⟩ := map_eq_ok.mp hnext
        obtain ⟨n, -, hnext⟩ := Option.bind_eq_some_iff.mp hnext
        exact refers_list.mp h _ (List.mem_of_getElem? hnext)
      | scalar | set => cases hnext

end Deep

namespace Agree

variable {c c' : Canonical} {ref : String}

theorem components (h : Agree c c') : c'.components = c.components := by
  rw [Canonical.components, Entries.get, h.data "components" (by decide)]
  rfl

theorem family (h : Agree c c') (name : String) : c'.family name = c.family name := by
  rw [Canonical.family, h.components]
  rfl

theorem schemas (h : Agree c c') : c'.schemas = c.schemas := h.family "schemas"

theorem componentName (h : Agree c c') (family : String) : c'.componentName ref family = c.componentName ref family := by
  rw [Canonical.componentName, h.self]
  rfl

theorem resolveReference (h : Agree c c') (href : Grounded c.self ref) :
    c'.resolveReference ref = c.resolveReference ref := by
  unfold Canonical.resolveReference
  rw [h.self]
  cases hlocal : Reference.toLocal ref c.self with
  | none => rfl
  | some pointer =>
    obtain ⟨key, rest, hsegments, hkey⟩ := href pointer hlocal
    simp only
    rw [Reference.Pointer.resolve, Reference.Pointer.resolve, hsegments, Reference.Pointer.follow,
      Reference.Pointer.follow, Reference.Pointer.step, Reference.Pointer.step, h.data key hkey]

end Agree

section Grounded

variable {c : Canonical} {ref : String} {v : Value}

theorem isGrounded_data (h : ∀ ref ∈ referencesOf true c.data, Grounded c.self ref) :
    IsGrounded c (.mapping c.data) := by
  rw [IsGrounded, Refers, referencesIn]
  exact h

theorem Agree.isGrounded_of_resolveReference {c' : Canonical} (h : Agree c c')
    (hv : c.resolveReference ref = .ok (some v)) : IsGrounded c v := by
  unfold Canonical.resolveReference at hv
  split at hv
  · exact refers_follow (isGrounded_data h.grounded) hv
  · cases hv

theorem Agree.isGrounded_family {c' : Canonical} (h : Agree c c') (name : String) :
    IsGrounded c (.mapping (c.family name)) :=
  refers_entries (refers_deep_get name (refers_entries (refers_deep_get "components" (isGrounded_data h.grounded))))

end Grounded

end ContractSync.Contract

/-! ## Schemas and routes -/

namespace ContractSync.Schema

open ContractSync.Contract
open ContractSync.Document
open ContractSync.Resolving (Same Alike same_lift same_note)

variable {c c' : Canonical} {resolve' next next' : Resolver}

/-- The two resolvers come to the same type of every schema whose references are grounded. -/
def SameOn (c : Canonical) (resolver resolver' : Resolver) : Prop :=
  ∀ v, IsGrounded c v → Same (resolver v) (resolver' v)

theorem same_ofReference (h : Agree c c') (hnext : SameOn c next next') {ref : String}
    (href : Grounded c.self ref) : Same (ofReference c next ref) (ofReference c' next' ref) := by
  unfold ofReference
  rw [h.componentName, h.schemas, h.resolveReference href]
  split
  · split
    · exact Alike.pure rfl
    · exact Same.bind (same_note _ _ _ _) fun _ => Alike.pure rfl
  · refine Alike.lift_bind fun target htarget => ?_
    split
    · split
      · exact Alike.pure rfl
      · exact hnext _ (h.isGrounded_of_resolveReference htarget)
    · exact Same.bind (same_note _ _ _ _) fun _ => Alike.pure rfl

theorem same_ofDynamicReference (h : Agree c c') (ref : String) :
    Same (ofDynamicReference c ref) (ofDynamicReference c' ref) := by
  unfold ofDynamicReference
  rw [h.schemas]
  exact Same.bind (same_lift _) fun _ => Alike.pure rfl

section Nested

variable {resolve : Resolver} (h : Agree c c') (hresolve : SameOn c resolve resolve') (hnext : SameOn c next next')

include h hresolve hnext

theorem same_memberAt (mapping : Entries) (position : Nat) {member : Value} (hmember : IsGrounded c member) :
    Same (memberAt c resolve next mapping position member)
      (memberAt c' resolve' next' mapping position member) := by
  unfold memberAt
  split
  · rename_i ref href
    refine Same.bind (same_lift _) fun target => ?_
    refine Same.bind (same_ofReference h hnext (refers_ref (refers_entries hmember) href)) fun type => ?_
    exact Same.bind (same_lift _) fun values => Alike.pure rfl
  · exact Same.bind (hresolve member hmember) fun type => Alike.pure rfl

theorem same_members {list : List Value} (hlist : ∀ v ∈ list, IsGrounded c v) (mapping : Entries)
    (position : Nat) (names : Name.Table) :
    Same (members c resolve next mapping position names list)
      (members c' resolve' next' mapping position names list) := by
  induction list generalizing position names with
  | nil => exact Alike.pure rfl
  | cons member rest ih =>
    obtain ⟨hmember, hrest⟩ := List.forall_mem_cons.mp hlist
    unfold members
    exact Same.bind (same_memberAt h hresolve hnext mapping position hmember) fun found =>
      Same.bind (ih hrest _ _) fun more => Alike.pure rfl

theorem same_ofAlternatives (schema : Entries) {alternatives : List Value}
    (halternatives : ∀ v ∈ alternatives, IsGrounded c v) :
    Same (ofAlternatives c resolve next schema alternatives)
      (ofAlternatives c' resolve' next' schema alternatives) := by
  have hconcrete : ∀ v ∈ alternatives.filter (!isNullSchema ·), IsGrounded c v := fun v hv =>
    halternatives v (List.mem_of_mem_filter hv)
  unfold ofAlternatives
  generalize alternatives.filter (!isNullSchema ·) = concrete at hconcrete ⊢
  simp only
  split
  · exact Alike.pure rfl
  · exact Same.bind (hresolve _ (hconcrete _ (List.mem_singleton_self _))) fun type => Alike.pure rfl
  · exact Same.bind (same_members h hresolve hnext hconcrete _ _ _) fun variants => Alike.pure rfl

omit h hnext in
theorem same_ofDeclared {schema : Entries} (hschema : IsGrounded c (.mapping schema)) (declared : Value) :
    Same (ofDeclared resolve schema declared) (ofDeclared resolve' schema declared) := by
  have hat : ∀ {key : String} {entries : Entries}, Entries.get schema key = .mapping entries →
      IsGrounded c (.mapping entries) := fun hget => hget ▸ refers_deep_get _ hschema
  unfold ofDeclared
  simp only
  generalize (if declared.isNull && isStringEnum schema then Value.text "string" else declared) = declared
  split
  · split
    · rename_i items hitems
      exact Same.bind (hresolve _ (hat hitems)) fun type => Alike.pure rfl
    · exact Alike.pure rfl
  · split
    · unfold ofObject
      split
      · exact Alike.pure rfl
      · split
        · rename_i additional hadditional
          exact Same.bind (hresolve _ (hat hadditional)) fun type => Alike.pure rfl
        · exact Alike.pure rfl
        · exact Alike.pure rfl
    · split <;> exact Alike.pure rfl

omit h hresolve hnext in
theorem isGrounded_of_items? {schema : Entries} (hschema : IsGrounded c (.mapping schema)) {keyword : String}
    {items : List Value} (hitems : items? schema keyword = some items) : ∀ v ∈ items, IsGrounded c v := by
  unfold items? at hitems
  split at hitems
  · rename_i first rest hget
    cases hitems
    exact refers_list.mp (hget ▸ refers_deep_get keyword hschema)
  · cases hitems

theorem same_ofKeywords {schema : Entries} (hschema : IsGrounded c (.mapping schema)) (declared : Value) :
    Same (ofKeywords c resolve next schema declared) (ofKeywords c' resolve' next' schema declared) := by
  unfold ofKeywords
  split
  · rename_i alternatives halternatives
    refine same_ofAlternatives h hresolve hnext schema ?_
    cases hone : items? schema "oneOf" with
    | some items =>
      rw [hone] at halternatives
      cases halternatives
      exact isGrounded_of_items? hschema hone
    | none =>
      rw [hone] at halternatives
      exact isGrounded_of_items? hschema halternatives
  · split
    · rename_i only hall
      exact hresolve _ (isGrounded_of_items? hschema hall _ (List.mem_singleton_self _))
    · exact Alike.pure rfl
    · exact same_ofDeclared hresolve hschema declared

theorem same_ofNode : SameOn c (ofNode c resolve next) (ofNode c' resolve' next') := by
  intro v hv
  cases v with
  | mapping schema =>
    unfold ofNode
    simp only
    split
    · rename_i ref _ href
      exact same_ofReference h hresolve (refers_ref hv href)
    · exact same_ofDynamicReference h _
    · split
      · exact Same.bind (same_ofKeywords h hresolve hnext hv _) fun type => Alike.pure rfl
      · exact Alike.pure rfl
  | scalar | list | set => exact Alike.pure rfl

end Nested

/-- **A schema has the same type in documents that agree.** -/
theorem same_resolve (h : Agree c c') (budget : Nat) : SameOn c (resolve c budget) (resolve c' budget) := by
  have hnone : SameOn c (fun _ => return DataType.dynamic) (fun _ => return DataType.dynamic) :=
    fun _ _ => Alike.pure rfl
  induction budget using Nat.strongRecOn with
  | ind budget ih =>
    match budget with
    | 0 => exact hnone
    | 1 => exact same_ofNode h hnone hnone
    | budget + 2 => exact same_ofNode h (ih _ (by omega)) (ih _ (by omega))

end ContractSync.Schema

namespace ContractSync.Route

open ContractSync.Contract
open ContractSync.Document
open ContractSync.Resolving (Same Alike same_lift same_note)
open ContractSync.Schema (DataType same_resolve)

variable {c c' : Canonical}

/-! ### Following references -/

theorem target?_eq (h : Agree c c') {ref : String} (href : Grounded c.self ref) (family : String) :
    target? c' family ref = target? c family ref := by
  unfold target?
  rw [h.componentName, h.family, h.resolveReference href]

theorem isGrounded_of_target? (h : Agree c c') {family ref : String} {v : Value}
    (hv : target? c family ref = .ok (some v)) : IsGrounded c v := by
  unfold target? at hv
  split at hv
  · exact refers_deep_of_get? (h.isGrounded_family family) (Except.ok.inj hv)
  · exact h.isGrounded_of_resolveReference hv

/-- Both found the same object, in which all references are grounded. -/
def SameFound (c : Canonical) (found found' : Option Entries) : Prop :=
  found' = found ∧ ∀ entries ∈ found, IsGrounded c (.mapping entries)

theorem alike_follow (h : Agree c c') {v : Value} (hv : IsGrounded c v) (family context : String) :
    Alike (SameFound c) (follow c family context v) (follow c' family context v) := by
  have hnote : ∀ ref, Alike (SameFound c) (do noteUnresolved ref context; return none)
      (do noteUnresolved ref context; return none) := fun ref =>
    Same.bind (same_note _ _ _ _) fun _ => Alike.pure ⟨rfl, forall_mem_none⟩
  cases v with
  | mapping entries =>
    unfold follow
    simp only
    split
    · rename_i ref href
      rw [target?_eq h (refers_ref hv href)]
      refine Alike.lift_bind fun target htarget => ?_
      split
      · split
        · exact hnote ref
        · exact Alike.pure ⟨rfl, forall_mem_some (isGrounded_of_target? h htarget)⟩
      · exact hnote ref
    · exact Alike.pure ⟨rfl, forall_mem_some hv⟩
  | scalar | list | set => exact Alike.pure ⟨rfl, forall_mem_none⟩

/-- Work that goes on with a found object. -/
theorem Alike.follow_bind {α β : Type} {R : α → β → Prop} (h : Agree c c') {v : Value} (hv : IsGrounded c v)
    {family context : String} {next : Option Entries → Resolving α} {next' : Option Entries → Resolving β}
    (hnone : Alike R (next none) (next' none))
    (hsome : ∀ entries, IsGrounded c (.mapping entries) → Alike R (next (some entries)) (next' (some entries))) :
    Alike R (follow c family context v >>= next) (follow c' family context v >>= next') := by
  refine (alike_follow h hv family context).bind ?_
  rintro _ found ⟨rfl, hfound⟩
  cases found with
  | none => exact hnone
  | some entries => exact hsome entries (hfound entries rfl)

/-! ### Parameters and bodies -/

theorem Parameter.same_typeOf (h : Agree c c') {entries : Entries} (hentries : IsGrounded c (.mapping entries)) :
    Same (typeOf c entries) (typeOf c' entries) := by
  unfold typeOf
  split
  · rename_i schema hschema
    have hgrounded : IsGrounded c (.mapping schema) := hschema ▸ refers_deep_get "schema" hentries
    exact Same.bind (same_resolve h _ _ hgrounded) fun type => Alike.pure rfl
  · rename_i mediaType media rest hcontent _
    have hgrounded : IsGrounded c (.mapping ((mediaType, media) :: rest)) :=
      hcontent ▸ refers_deep_get "content" hentries
    have hmedia := (refers_mapping.mp hgrounded _ List.mem_cons_self).refers_deep
    exact Same.bind (same_resolve h _ _ (refers_value_get "schema" hmedia)) fun type => Alike.pure rfl
  · exact Alike.pure rfl

theorem Parameter.same_ofEntries (h : Agree c c') {entries : Entries} (hentries : IsGrounded c (.mapping entries)) :
    Same (ofEntries c entries) (ofEntries c' entries) := by
  unfold ofEntries
  simp only
  split
  · split
    · split
      · exact Alike.pure rfl
      · exact Same.bind (same_typeOf h hentries) fun found => Alike.pure rfl
    · exact Alike.pure rfl
  · exact Alike.pure rfl

theorem Parameter.same_ofValue (h : Agree c c') {v : Value} (hv : IsGrounded c v) :
    Same (ofValue c v) (ofValue c' v) :=
  Alike.follow_bind h hv (Alike.pure rfl) fun _ hentries => same_ofEntries h hentries

theorem RequestBody.mem_of_choose {candidates : List Candidate} {chosen : Candidate}
    (h : choose candidates = some chosen) : chosen ∈ candidates := by
  induction candidates with
  | nil => cases h
  | cons first rest ih =>
    unfold choose at h
    split at h
    · rename_i later hlater
      split at h
      · cases h
        exact List.mem_cons_of_mem _ (ih hlater)
      · cases h
        exact List.mem_cons_self
    · cases h
      exact List.mem_cons_self

theorem RequestBody.exists_of_mem_candidates {content : Entries} {found : List Candidate}
    (h : candidates content = .ok found) : ∀ candidate ∈ found, ∃ e ∈ content, candidate.media = e.2 := by
  induction content generalizing found with
  | nil =>
    cases h
    exact List.forall_mem_nil _
  | cons e rest ih =>
    unfold candidates at h
    rw [List.mapM_cons] at h
    obtain ⟨first, hfirst, h⟩ := bind_eq_ok.mp h
    obtain ⟨more, hmore, h⟩ := bind_eq_ok.mp h
    obtain ⟨mediaType, -, hfirst⟩ := bind_eq_ok.mp hfirst
    rw [pure_eq_ok.mp h, pure_eq_ok.mp hfirst]
    refine List.forall_mem_cons.mpr ⟨⟨e, List.mem_cons_self, rfl⟩, fun candidate hcandidate => ?_⟩
    obtain ⟨e', he', hmedia⟩ := ih hmore candidate hcandidate
    exact ⟨e', List.mem_cons_of_mem _ he', hmedia⟩

/-- The body that an object describes. -/
def RequestBody.ofEntries (doc : Canonical) (body : Entries) : Resolving (Option RequestBody) := do
  let .mapping content := Entries.get body "content" | return none
  let some chosen := choose (← candidates content) | return none
  let schema := chosen.media.get "schema"
  let type ←
    if schema.isNull then pure (defaultType chosen.format)
    else Schema.resolve doc Schema.defaultBudget schema
  return some {
    type, mediaType := chosen.mediaType, format := chosen.format
    required := (Entries.get body "required").isTrue
    description := (Entries.get body "description").text? }

theorem RequestBody.ofValue_eq (doc : Canonical) (v : Value) : ofValue doc v = (do
    match ← follow doc "requestBodies" "requestBodies" v with
    | some body => ofEntries doc body
    | none => return none) := by
  unfold ofValue
  congr 1
  funext found
  cases found <;> rfl

theorem RequestBody.same_ofEntries (h : Agree c c') {body : Entries} (hbody : IsGrounded c (.mapping body)) :
    Same (ofEntries c body) (ofEntries c' body) := by
  unfold ofEntries
  split
  · rename_i content hcontent
    have hmedia : ∀ e ∈ content, IsGrounded c e.2 := fun e he =>
      (refers_mapping.mp (hcontent ▸ refers_deep_get "content" hbody) e he).refers_deep
    refine Alike.lift_bind fun candidates hcandidates => ?_
    simp only
    split
    · rename_i chosen hchosen
      obtain ⟨e, he, hchosen⟩ := exists_of_mem_candidates hcandidates chosen (mem_of_choose hchosen)
      split
      · exact Alike.pure rfl
      · have hschema := refers_value_get "schema" (hmedia e he)
        rw [← hchosen] at hschema
        exact Same.bind (same_resolve h _ _ hschema) fun type => Alike.pure rfl
    · exact Alike.pure rfl
  · exact Alike.pure rfl

theorem RequestBody.same_ofValue (h : Agree c c') {v : Value} (hv : IsGrounded c v) :
    Same (ofValue c v) (ofValue c' v) := by
  rw [ofValue_eq, ofValue_eq]
  exact Alike.follow_bind h hv (Alike.pure rfl) fun _ hbody => same_ofEntries h hbody

/-! ### Responses and security -/

namespace Responses

theorem mem_of_mem_putKey {entries : Entries} {key : Scalar} {v : Value} {e : Scalar × Value}
    (h : e ∈ Entries.putKey entries key v) : e ∈ entries ∨ e.2 = v := by
  unfold Entries.putKey at h
  split at h
  · obtain ⟨e', he', rfl⟩ := List.mem_map.mp h
    split
    · exact .inr rfl
    · exact .inl he'
  · rcases List.mem_append.mp h with h | h
    · exact .inl h
    · exact .inr (List.mem_singleton.mp h ▸ rfl)

theorem exists_of_mem_ofWrites {writes : Entries} {e : Scalar × Value} (h : e ∈ Entries.ofWrites writes) :
    ∃ w ∈ writes, e.2 = w.2 := by
  have hfold : ∀ (writes entries : Entries), e ∈ writes.foldl (fun entries w => Entries.putKey entries w.1 w.2)
      entries → e ∈ entries ∨ ∃ w ∈ writes, e.2 = w.2 := by
    intro writes
    induction writes with
    | nil => exact fun entries he => .inl he
    | cons w rest ih =>
      intro entries he
      rcases ih _ he with he | ⟨w', hw', hvalue⟩
      · exact (mem_of_mem_putKey he).imp_right fun hvalue => ⟨w, List.mem_cons_self, hvalue⟩
      · exact .inr ⟨w', List.mem_cons_of_mem _ hw', hvalue⟩
  exact (hfold writes [] h).resolve_left List.not_mem_nil

theorem isGrounded_get {entries : Entries} (hentries : IsGrounded c (.mapping entries)) (status : String) :
    IsGrounded c (get (byStatus entries) status) := by
  unfold get
  cases hfound : (byStatus entries).lookup status with
  | none => exact refers_scalar _
  | some v =>
    obtain ⟨e, he, hv⟩ := List.mem_map.mp (mem_of_lookup hfound)
    obtain ⟨w, hw, hvalue⟩ := exists_of_mem_ofWrites he
    obtain ⟨entry, hentry, rfl⟩ := List.mem_map.mp hw
    cases hv
    rw [Option.getD_some, hvalue]
    exact (refers_mapping.mp hentries _ hentry).refers_deep

theorem same_jsonType (h : Agree c c') {content : Entries} (hcontent : IsGrounded c (.mapping content)) :
    Same (jsonType c content) (jsonType c' content) := by
  induction content with
  | nil => exact Alike.pure rfl
  | cons e rest ih =>
    have hall := refers_mapping.mp hcontent
    have hmedia : IsGrounded c e.2 := (hall e List.mem_cons_self).refers_deep
    have hrest := ih (refers_mapping.mpr fun e he => hall e (List.mem_cons_of_mem _ he))
    unfold jsonType
    refine Same.bind (same_lift _) fun mediaType => ?_
    split
    · split
      · rename_i schema hschema
        have hgrounded : IsGrounded c schema := refers_deep_of_get? (refers_entries hmedia) hschema
        exact Same.bind (same_resolve h _ _ hgrounded) fun type => Alike.pure rfl
      · exact hrest
    · exact hrest

theorem same_bodyTypeOf (h : Agree c c') {entries : Entries} (hentries : IsGrounded c (.mapping entries))
    (statuses : List String) :
    Same (bodyTypeOf c (byStatus entries) statuses) (bodyTypeOf c' (byStatus entries) statuses) := by
  induction statuses with
  | nil => exact Alike.pure rfl
  | cons status rest ih =>
    unfold bodyTypeOf
    refine Alike.follow_bind h (isGrounded_get hentries status) (Same.bind (Alike.pure rfl) ?_)
      fun response hresponse =>
        Same.bind (same_jsonType h (refers_entries (refers_deep_get "content" hresponse))) ?_
    all_goals
      rintro (_ | type)
      · exact ih
      · exact Alike.pure rfl

theorem same_header (h : Agree c c') {entry : Scalar × Value} (hentry : IsGrounded c entry.2) :
    Same (header c entry) (header c' entry) := by
  unfold header
  refine Same.bind (same_lift _) fun name => ?_
  split
  · exact Alike.pure rfl
  · refine Alike.follow_bind h hentry (Alike.pure rfl) fun found hfound => ?_
    simp only
    split
    · rename_i schema hschema
      have hgrounded : IsGrounded c (.mapping schema) := hschema ▸ refers_deep_get "schema" hfound
      exact Same.bind (same_resolve h _ _ hgrounded) fun type => Alike.pure rfl
    · exact Alike.pure rfl

theorem same_link (h : Agree c c') {entry : Scalar × Value} (hentry : IsGrounded c entry.2) :
    Same (link c entry) (link c' entry) := by
  unfold link
  exact Alike.follow_bind h hentry (Alike.pure rfl) fun found _ =>
    Same.bind (same_lift _) fun parameters => Alike.pure rfl

theorem isGrounded_of_entriesIfPresent {v : Value} (hv : IsGrounded c v) {entries : Entries}
    (h : v.entriesIfPresent = .ok entries) : ∀ e ∈ entries, IsGrounded c e.2 := by
  unfold Value.entriesIfPresent at h
  split at h
  · cases h
    exact fun e he => (refers_mapping.mp hv e he).refers_deep
  · split at h
    · cases h
    · cases h
      exact List.forall_mem_nil _

/-- **The responses of an operation come to the same in documents that agree.** -/
theorem same_ofValue (h : Agree c c') {v : Value} (hv : IsGrounded c v) : Same (ofValue c v) (ofValue c' v) := by
  cases v with
  | mapping entries =>
    unfold ofValue
    simp only
    refine Same.bind (same_bodyTypeOf h hv _) fun bodyType => ?_
    split
    · refine Alike.follow_bind h (isGrounded_get hv _) (Alike.pure rfl) fun response hresponse => ?_
      have hheaders : Same (headersOf c response) (headersOf c' response) := by
        unfold headersOf
        exact Alike.lift_bind fun entries hentries => Same.bind (Same.mapM fun e he => same_header h
          (isGrounded_of_entriesIfPresent (refers_deep_get "headers" hresponse) hentries e he))
          fun found => Alike.pure rfl
      have hlinks : Same (linksOf c response) (linksOf c' response) := by
        unfold linksOf
        exact Alike.lift_bind fun entries hentries => Same.bind (Same.mapM fun e he => same_link h
          (isGrounded_of_entriesIfPresent (refers_deep_get "links" hresponse) hentries e he))
          fun found => Alike.pure rfl
      exact Same.bind hheaders fun headers => Same.bind hlinks fun links => Alike.pure rfl
    · exact Alike.pure rfl
  | scalar | list | set => exact Alike.pure rfl

end Responses

theorem Requirement.same_ofEntry (h : Agree c c') (entry : Scalar × Value) :
    Same (ofEntry c entry) (ofEntry c' entry) := by
  have hraw : IsGrounded c ((Entries.getKey? (c.family "securitySchemes") entry.1).getD .null) := by
    unfold Entries.getKey?
    cases hfound : (c.family "securitySchemes").find? fun e => e.1.sameKey entry.1 with
    | none => exact refers_scalar _
    | some e =>
      exact (refers_mapping.mp (h.isGrounded_family _) e (List.mem_of_find?_eq_some hfound)).refers_deep
  unfold ofEntry
  rw [h.family]
  refine (alike_follow h hraw _ _).bind ?_
  rintro found _ ⟨rfl, -⟩
  split
  · exact Same.bind (same_lift _) fun scopes => Alike.pure rfl
  · exact Same.bind (Alike.pure rfl) fun scopes => Alike.pure rfl

theorem Requirement.same_ofOperation (h : Agree c c') {operation operation' : Entries}
    (hsecurity : Entries.get? operation' "security" = Entries.get? operation "security") :
    Same (ofOperation c operation) (ofOperation c' operation') := by
  have hstated : Entries.get c'.data "security" = Entries.get c.data "security" := by
    rw [Entries.get, h.data "security" (by decide)]
    rfl
  unfold ofOperation
  rw [hsecurity, hstated]
  exact Same.mapM fun entry _ => same_ofEntry h entry

/-! ### Routes -/

/-- The second route differs from the first only in the order of its parameters. -/
def Reorders (r r' : Route) : Prop := r.params.Perm r'.params ∧ r' = { r with params := r'.params }

/-- The routes found so far differ only in the order of their parameters, and name the next ones alike. -/
def ReordersAll (found found' : List Route × Name.Table) : Prop :=
  List.Forall₂ Reorders found.1 found'.1 ∧ found'.2 = found.2

/-- The operations have the same method and the same name, and routes that differ only in the order of the
parameters. -/
structure LikeOperations (c c' : Canonical) (kind : RouteKind) (item item' : Entries)
    (operation operation' : Operation) : Prop where
  method : operation'.1 = operation.1
  base : ∀ path, baseHandlerName operation'.2 operation'.1 path = baseHandlerName operation.2 operation.1 path
  route : ∀ path handlerName, Alike Reorders (ofOperation c kind path handlerName item operation)
    (ofOperation c' kind path handlerName item' operation')

section Operations

variable {kind : RouteKind} {item item' : Entries}

theorem alike_ofOperations {operations operations' : List Operation}
    (h : List.Forall₂ (LikeOperations c c' kind item item') operations operations') (path : Scalar)
    (names : Name.Table) :
    Alike ReordersAll (ofOperations c kind path item names operations)
      (ofOperations c' kind path item' names operations') := by
  induction h generalizing names with
  | nil => exact Alike.pure ⟨.nil, rfl⟩
  | cons hfirst _ ih =>
    unfold ofOperations
    refine Same.bind (same_lift _) fun path' => ?_
    rw [hfirst.base]
    refine (hfirst.route _ _).bind fun route route' hroute => (ih _).bind ?_
    rintro ⟨more, names⟩ ⟨more', _⟩ ⟨hmore, rfl⟩
    exact Alike.pure ⟨.cons hroute hmore, rfl⟩

/-- An operation whose parameters and whose request body may stand elsewhere. -/
theorem alike_ofOperation (h : Agree c c') {operation operation' : Entries} {method : String}
    (hoperation : IsGrounded c (.mapping operation))
    (hkeep : ∀ key, key ∉ ["parameters", "requestBody"] → Entries.get? operation' key = Entries.get? operation key)
    (hitem : ∀ key ∈ ["summary", "description"], Entries.get? item' key = Entries.get? item key)
    (hparams : Alike List.Perm
      (Parameter.resolveAll c (Entries.get item "parameters") (Entries.get operation "parameters"))
      (Parameter.resolveAll c' (Entries.get item' "parameters") (Entries.get operation' "parameters")))
    (hbody : Same (RequestBody.ofValue c (Entries.get operation "requestBody"))
      (RequestBody.ofValue c' (Entries.get operation' "requestBody"))) :
    LikeOperations c c' kind item item' (method, operation) (method, operation') := by
  have hget : ∀ key, key ∉ ["parameters", "requestBody"] → Entries.get operation' key = Entries.get operation key :=
    fun key hkey => Entries.get_congr (hkeep key hkey)
  have hgetItem : ∀ key ∈ ["summary", "description"], Entries.get item' key = Entries.get item key :=
    fun key hkey => Entries.get_congr (hitem key hkey)
  refine ⟨rfl, fun path => ?_, fun path handlerName => ?_⟩
  · unfold baseHandlerName
    simp only
    rw [hget "operationId" (by decide)]
  · unfold ofOperation
    simp only
    refine hparams.bind fun params params' hperm => ?_
    rw [hget "responses" (by decide)]
    refine Same.bind (Responses.same_ofValue h (refers_deep_get _ hoperation)) fun responses => ?_
    refine Same.bind hbody fun body => ?_
    refine Same.bind (Requirement.same_ofOperation h (hkeep "security" (by decide))) fun security => ?_
    rw [hget "tags" (by decide), hget "operationId" (by decide), hget "summary" (by decide),
      hget "description" (by decide), hget "deprecated" (by decide), hgetItem "summary" (by decide),
      hgetItem "description" (by decide)]
    exact Alike.pure ⟨hperm, rfl⟩

end Operations

/-! ### Parts that stay as they are -/

/-- No reference in what the entries hold leads into the paths of the document. -/
def AllGrounded (c : Canonical) (entries : Entries) : Prop := ∀ e ∈ entries, IsGrounded c e.2

theorem allGrounded_entries {v : Value} (hv : IsGrounded c v) : AllGrounded c v.entries := fun e he =>
  (refers_mapping.mp (refers_entries hv) e he).refers_deep

theorem AllGrounded.get {entries : Entries} (h : AllGrounded c entries) (key : String) :
    IsGrounded c (Entries.get entries key) := by
  rw [Entries.get]
  cases hv : Entries.get? entries key with
  | none => exact refers_scalar _
  | some v => exact h _ (Entries.mem_of_get? hv)

theorem Parameter.same_resolveAll (h : Agree c c') {pathLevel operationLevel : Value}
    (hpath : IsGrounded c pathLevel) (hoperation : IsGrounded c operationLevel) :
    Same (resolveAll c pathLevel operationLevel) (resolveAll c' pathLevel operationLevel) := by
  have hitems : ∀ {v : Value}, IsGrounded c v → ∀ item ∈ v.items?.getD [], IsGrounded c item := by
    intro v hv
    cases v with
    | list items => exact refers_list.mp hv
    | scalar | mapping | set => exact List.forall_mem_nil _
  unfold resolveAll
  refine Same.bind (Same.mapM fun v hv => same_ofValue h ?_) fun found => Alike.pure rfl
  exact (List.mem_append.mp hv).elim (hitems hpath v) (hitems hoperation v)

theorem LikeOperations.refl (h : Agree c c') {kind : RouteKind} {item item' : Entries} (hitem : AllGrounded c item)
    (hkeys : ∀ key ∈ ["parameters", "summary", "description"], Entries.get? item' key = Entries.get? item key)
    {operation : Operation} (hoperation : IsGrounded c (.mapping operation.2)) :
    LikeOperations c c' kind item item' operation operation := by
  have hparams := Parameter.same_resolveAll h (hitem.get "parameters") (refers_deep_get "parameters" hoperation)
  refine alike_ofOperation h hoperation (fun _ _ => rfl)
    (fun key hkey => hkeys key (List.mem_cons_of_mem _ hkey)) ?_
    (RequestBody.same_ofValue h (refers_deep_get _ hoperation))
  have hget : Entries.get item' "parameters" = Entries.get item "parameters" :=
    Entries.get_congr (hkeys "parameters" List.mem_cons_self)
  rw [hget]
  exact hparams.mono fun _ _ heq => heq ▸ .refl _

/-- Every operation of a path item is an object in it. -/
theorem isGrounded_of_mem_operations {item : Entries} (hitem : AllGrounded c item) :
    ∀ operation ∈ operations item, IsGrounded c (.mapping operation.2) := by
  have hentries : ∀ {v : Value} {entries : Entries}, v.entries? = some entries → IsGrounded c v →
      IsGrounded c (.mapping entries) := by
    intro v entries hv hgrounded
    cases v with
    | mapping => exact Option.some.inj hv ▸ hgrounded
    | scalar | list | set => cases hv
  intro operation hoperation
  rcases List.mem_append.mp hoperation with hmem | hmem
  · obtain ⟨method, -, hfound⟩ := List.mem_filterMap.mp hmem
    obtain ⟨entries, hget, rfl⟩ := Option.map_eq_some_iff.mp hfound
    exact hentries hget (hitem.get method)
  · obtain ⟨e, he, hfound⟩ := List.mem_filterMap.mp hmem
    obtain ⟨entries, hget, rfl⟩ := Option.map_eq_some_iff.mp hfound
    exact hentries hget (allGrounded_entries (hitem.get "additionalOperations") e he)

/-! ### Paths -/

/-- The routes of what stands at a path. -/
def ofPath (doc : Canonical) (kind : RouteKind) (path : Scalar) (names : Name.Table) (v : Value) :
    Resolving (List Route × Name.Table) := do
  match ← pathItem doc v with
  | some item => ofOperations doc kind path item names (operations item)
  | none => return ([], names)

theorem ofPaths_cons (doc : Canonical) (kind : RouteKind) (names : Name.Table) (path : Scalar) (v : Value)
    (rest : Entries) : ofPaths doc kind names ((path, v) :: rest) = (do
      let found ← ofPath doc kind path names v
      let more ← ofPaths doc kind found.2 rest
      return (found.1 ++ more.1, more.2)) := by
  rw [ofPaths, ofPath, bind_assoc]
  congr 1
  funext item
  cases item <;> rfl

theorem alike_ofPaths {kind : RouteKind} {paths paths' : Entries}
    (h : List.Forall₂ (fun e e' => e'.1 = e.1 ∧ ∀ names,
      Alike ReordersAll (ofPath c kind e.1 names e.2) (ofPath c' kind e.1 names e'.2)) paths paths')
    (names : Name.Table) : Alike ReordersAll (ofPaths c kind names paths) (ofPaths c' kind names paths') := by
  induction h generalizing names with
  | nil => exact Alike.pure ⟨.nil, rfl⟩
  | @cons e e' _ _ hfirst _ ih =>
    obtain ⟨hkey, hfirst⟩ := hfirst
    rw [ofPaths_cons c kind names e.1 e.2, ofPaths_cons c' kind names e'.1 e'.2, hkey]
    refine (hfirst names).bind ?_
    rintro ⟨routes, names⟩ ⟨routes', names'⟩ ⟨hroutes, hnames⟩
    obtain rfl : names' = names := hnames
    refine (ih names').bind ?_
    rintro ⟨more, names⟩ ⟨more', _⟩ ⟨hmore, rfl⟩
    exact Alike.pure ⟨List.rel_append hroutes hmore, rfl⟩

theorem mem_foldl_putKey {beside item : Entries} {e : Scalar × Value}
    (h : e ∈ beside.foldl (fun item e => Entries.putKey item e.1 e.2) item) :
    e ∈ item ∨ ∃ w ∈ beside, e.2 = w.2 := by
  induction beside generalizing item with
  | nil => exact .inl h
  | cons w rest ih =>
    rcases ih h with h | ⟨w', hw', hvalue⟩
    · exact (Responses.mem_of_mem_putKey h).imp_right fun hvalue => ⟨w, List.mem_cons_self, hvalue⟩
    · exact .inr ⟨w', List.mem_cons_of_mem _ hw', hvalue⟩

/-- What stands beside a reference overrides its target in both documents. -/
theorem alike_pathItem (h : Agree c c') {v : Value} (hv : IsGrounded c v) :
    Alike (fun found found' => found' = found ∧ ∀ item ∈ found, AllGrounded c item) (pathItem c v)
      (pathItem c' v) := by
  cases v with
  | mapping entries =>
    have hentries := allGrounded_entries hv
    unfold pathItem
    simp only
    split
    · rename_i ref href
      rw [target?_eq h (refers_ref hv href)]
      refine Alike.lift_bind fun target htarget => ?_
      split
      · rename_i target
        have hfound := allGrounded_entries (isGrounded_of_target? h htarget)
        refine Alike.pure ⟨rfl, forall_mem_some fun e he => ?_⟩
        rcases mem_foldl_putKey he with he | ⟨w, hw, hvalue⟩
        · exact hfound e he
        · exact hvalue ▸ hentries w (Entries.mem_of_mem_erase hw)
      · exact Same.bind (same_note _ _ _ _) fun _ => Alike.pure ⟨rfl, forall_mem_none⟩
    · exact Alike.pure ⟨rfl, forall_mem_some hentries⟩
  | scalar | list | set => exact Alike.pure ⟨rfl, forall_mem_none⟩

theorem alike_ofPath (h : Agree c c') {v : Value} (hv : IsGrounded c v) (kind : RouteKind) (path : Scalar)
    (names : Name.Table) : Alike ReordersAll (ofPath c kind path names v) (ofPath c' kind path names v) := by
  unfold ofPath
  refine (alike_pathItem h hv).bind ?_
  rintro _ found ⟨rfl, hfound⟩
  cases found with
  | none => exact Alike.pure ⟨.nil, rfl⟩
  | some item =>
    refine alike_ofOperations (List.forall₂_same.mpr fun operation hoperation => ?_) path names
    exact .refl h (hfound item rfl) (fun _ _ => rfl) (isGrounded_of_mem_operations (hfound item rfl) operation hoperation)

/-- **Documents that agree outside their paths have the same routes, up to the order of parameters, if their
paths do.** -/
theorem alike_ofDocument (h : Agree c c')
    (hpaths : List.Forall₂ (fun e e' => e'.1 = e.1 ∧ ∀ names,
      Alike ReordersAll (ofPath c .standard e.1 names e.2) (ofPath c' .standard e.1 names e'.2))
      (Entries.get c.data "paths").entries (Entries.get c'.data "paths").entries) :
    Alike (List.Forall₂ Reorders) (ofDocument c) (ofDocument c') := by
  have hwebhooks : Entries.get c'.data "webhooks" = Entries.get c.data "webhooks" := by
    rw [Entries.get, h.data "webhooks" (by decide)]
    rfl
  unfold ofDocument
  refine (alike_ofPaths hpaths _).bind ?_
  rintro ⟨paths, names⟩ ⟨paths', _⟩ ⟨hfound, rfl⟩
  rw [hwebhooks]
  have hgrounded := allGrounded_entries (refers_deep_get "webhooks" (isGrounded_data h.grounded))
  refine (alike_ofPaths (List.forall₂_same.mpr fun e he => ⟨rfl, fun names => ?_⟩) _).bind ?_
  · exact alike_ofPath h (hgrounded e he) _ _ names
  · rintro ⟨webhooks, names⟩ ⟨webhooks', _⟩ ⟨hmore, rfl⟩
    exact Alike.pure (List.rel_append hfound hmore)

end ContractSync.Route
