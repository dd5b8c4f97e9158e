import ContractSync.Model.Basic
import ContractSync.Proofs.Contract.References
import ContractSync.Proofs.Document.Entries
import ContractSync.Proofs.Resolving
import Mathlib.Data.List.Nodup
import Mathlib.Logic.Relation

/-!
# The schemas that a record is gathered from

An object schema is made of the members of its `allOf`, and these are made of theirs (`IsPart`). The walk
through the parts keeps the names that it has followed from the top and follows none of them again, so it
ends, however the schemas refer to each other (`propertiesOf_bound`). It leaves nothing out by that: a schema
whose name has been followed is one that the walk is in already (`exists_walk`). **So a record has a field for
each property that some schema of its closure declares, and no other** (`recordOf_closure`).
-/

namespace ContractSync.Model

open ContractSync.Contract (Canonical)
open ContractSync.Document
open ContractSync.Schema (DataType)
open Properties
open Relation (ReflTransGen)

variable {doc : Canonical} {followed : List String} {schema part : Entries} {member : Value}
  {ps qs : Properties}

/-! ### What a schema is made of -/

/-- The members of the `allOf` of a schema. -/
def membersOf (schema : Entries) : List Value := (Entries.get schema "allOf").items?.getD []

/-- The schema that a member of an `allOf` stands for: the member, or if it is a reference the mapping among
the named schemas that it leads to, and then under the name. -/
inductive StandsFor (doc : Canonical) : Value → Option String → Entries → Prop
  | inline {member : Entries} (h : ∀ ref, Entries.get member "$ref" ≠ .text ref) :
      StandsFor doc (.mapping member) none member
  | named {member target : Entries} {ref name : String} (href : Entries.get member "$ref" = .text ref)
      (hname : doc.componentName ref "schemas" = some name)
      (htarget : Entries.get doc.schemas name = .mapping target) :
      StandsFor doc (.mapping member) (some name) target

/-- The schema is one that a member of the `allOf` stands for. -/
def IsPart (doc : Canonical) (schema part : Entries) : Prop :=
  ∃ member ∈ membersOf schema, ∃ name, StandsFor doc member name part

/-- A schema, its parts, their parts and so on. -/
abbrev IsInClosure (doc : Canonical) : Entries → Entries → Prop := ReflTransGen (IsPart doc)

/-- The schema declares the property. -/
def Declares (schema : Entries) (property : String) : Prop :=
  ∃ own, Entries.get schema "properties" = .mapping own ∧ Entries.has own property = true

/-- The schema requires the property. -/
def Requires (schema : Entries) (property : String) : Prop :=
  ∃ parts, (Entries.get schema "required").parts = .ok parts ∧ .text property ∈ parts

/-- A member stands for one schema at most. -/
theorem StandsFor.unique {name name' : Option String} {part' : Entries} (h : StandsFor doc member name part)
    (h' : StandsFor doc member name' part') : name' = name ∧ part' = part := by
  cases h with
  | inline hinline =>
    cases h' with
    | inline => exact ⟨rfl, rfl⟩
    | named href => exact absurd href (hinline _)
  | named href hname htarget =>
    cases h' with
    | inline hinline => exact absurd href (hinline _)
    | named href' hname' htarget' =>
      cases Value.scalar.inj (href.symm.trans href')
      obtain rfl := Option.some.inj (hname.symm.trans hname')
      exact ⟨rfl, Value.mapping.inj (htarget'.symm.trans htarget)⟩

/-! ### The walk through the parts -/

/-- Where the walk is: the names that were followed on the way, and a schema. -/
abbrev Place := List String × Entries

/-- Where a member leads the walk, unless that was followed before. -/
def EntersBy (doc : Canonical) (followed : List String) (member : Value) (there : Place) : Prop :=
  ∃ name, StandsFor doc member name there.2 ∧ (∀ n ∈ name, n ∉ followed) ∧ there.1 = name.toList ++ followed

/-- The walk goes on from a schema to what its members lead to. -/
def Enters (doc : Canonical) (here there : Place) : Prop :=
  ∃ member ∈ membersOf here.2, EntersBy doc here.1 member there

/-- What the walk does with members one after the other: one that stands for nothing new is passed, of the
others the parts are gathered first and then what they state themselves. -/
inductive Gathers (doc : Canonical) : List String → List Value → Properties → Properties → Prop
  | nil {followed : List String} {ps : Properties} : Gathers doc followed [] ps ps
  | pass {followed : List String} {member : Value} {rest : List Value} {ps qs : Properties}
      (hpass : ∀ name part, StandsFor doc member name part → ∃ n ∈ name, n ∈ followed)
      (hrest : Gathers doc followed rest ps qs) : Gathers doc followed (member :: rest) ps qs
  | enter {followed : List String} {member : Value} {rest : List Value} {name : Option String} {part : Entries}
      {ps inner own qs : Properties} (hstands : StandsFor doc member name part) (hnew : ∀ n ∈ name, n ∉ followed)
      (hinner : Gathers doc (name.toList ++ followed) (membersOf part) ps inner)
      (hown : inner.addOwn part = .ok own) (hrest : Gathers doc followed rest own qs) :
      Gathers doc followed (member :: rest) ps qs

namespace Properties

/-- Adds the properties that a member of an `allOf` brings. -/
def addMember (expand : Expand) (ps : Properties) (member : Value) : Except Fault Properties :=
  match member.get "$ref" with
  | .scalar (.text ref) => expand ref ps
  | _ => addSchema expand ps member

theorem addMember_of_not_isMapping {expand : Expand} (h : member.isMapping = false) :
    addMember expand ps member = .ok ps := by
  cases member with
  | mapping => cases h
  | scalar | list | set => rfl

theorem addMember_named {expand : Expand} {member : Entries} {ref : String}
    (h : Entries.get member "$ref" = .text ref) : addMember expand ps (.mapping member) = expand ref ps := by
  have hget : (Value.mapping member).get "$ref" = .text ref := h
  rw [addMember, hget]

theorem addMember_inline {expand : Expand} {member : Entries} (h : ∀ ref, Entries.get member "$ref" ≠ .text ref) :
    addMember expand ps (.mapping member) = addSchema expand ps (.mapping member) := by
  rw [addMember]
  split
  · rename_i ref href
    exact absurd href (h ref)
  · rfl

/-- One member comes after the other. -/
theorem addItems_cons (expand : Expand) (ps : Properties) (member : Value) (rest : List Value) :
    addItems expand ps (member :: rest) =
      addMember expand ps member >>= fun mid => addItems expand mid rest := by
  rw [addItems, addMember]
  generalize member.get "$ref" = ref
  cases ref with
  | scalar s => cases s <;> rfl
  | list | mapping | set => rfl

/-- The members of a schema come first, then what it states itself. -/
theorem addSchema_eq_ok {expand : Expand} (h : addSchema expand ps (.mapping schema) = .ok qs) :
    ∃ inner, addItems expand ps (membersOf schema) = .ok inner ∧ inner.addOwn schema = .ok qs := by
  rw [addSchema] at h
  obtain ⟨inner, hinner, hown⟩ := bind_eq_ok.mp h
  refine ⟨inner, ?_, hown⟩
  have hall : ∀ entries : Entries, addAllOf expand ps entries = .ok inner →
      addItems expand ps ((Entries.get entries "allOf").items?.getD []) = .ok inner := by
    intro entries h
    induction entries with
    | nil => exact h
    | cons e rest ih =>
      obtain ⟨key, v⟩ := e
      rw [addAllOf] at h
      rw [Entries.get, Entries.get?_cons]
      split at h
      · rename_i hkey
        rw [if_pos hkey]
        cases v with
        | list items => exact h
        | scalar | mapping | set =>
          rw [addMembers.eq_def] at h
          split at h
          · rename_i heq
            cases heq
          · split at h
            · obtain ⟨_, -, rfl⟩ := map_eq_ok.mp h
              rfl
            · exact h
      · rename_i hkey
        rw [if_neg hkey]
        exact ih h
  exact hall schema hinner

/-! ### The walk comes to an end -/

/-- How many of the named schemas have not been followed. -/
def unfollowed (doc : Canonical) (followed : List String) : Nat :=
  (doc.schemas.filter fun e => followed.all fun name => e.1 != .text name).length

/-- A name that is followed is one less that is not. -/
theorem unfollowed_cons {name : String} {target : Entries} (hnew : followed.contains name = false)
    (htarget : Entries.get doc.schemas name = .mapping target) :
    unfollowed doc (name :: followed) < unfollowed doc followed := by
  have hnew : name ∉ followed := by simpa using hnew
  obtain ⟨v, hv⟩ : ∃ v, Entries.get? doc.schemas name = some v := by
    rw [Entries.get] at htarget
    cases hget : Entries.get? doc.schemas name with
    | some v => exact ⟨v, rfl⟩
    | none =>
      rw [hget] at htarget
      cases htarget
  have hsplit : (doc.schemas.filter fun e => (name :: followed).all fun name => e.1 != .text name) =
      (doc.schemas.filter fun e => followed.all fun name => e.1 != .text name).filter (·.1 != .text name) := by
    rw [List.filter_filter]
    rfl
  rw [unfollowed, unfollowed, hsplit, List.length_filter_lt_length_iff_exists]
  refine ⟨_, List.mem_filter.mpr ⟨Entries.mem_of_get? hv, ?_⟩, by simp⟩
  rw [List.all_eq_true]
  intro other hother
  have hne : name ≠ other := by
    rintro rfl
    exact hnew hother
  simpa using hne

/-- Where more names may be followed than there are, how many makes no difference. -/
theorem addReference_congr {bound bound' : Nat} (h : unfollowed doc followed < bound)
    (h' : unfollowed doc followed < bound') : addReference doc bound followed = addReference doc bound' followed := by
  induction bound generalizing bound' followed with
  | zero => exact absurd h (Nat.not_lt_zero _)
  | succ bound ih =>
    obtain ⟨bound', rfl⟩ := Nat.exists_eq_add_of_lt (Nat.zero_lt_of_lt h')
    rw [Nat.zero_add] at h' ⊢
    funext ref ps
    simp only [addReference]
    split
    · rfl
    · split
      · rfl
      · rename_i hnew
        split
        · rename_i htarget
          have hless := unfollowed_cons (Bool.eq_false_iff.mpr hnew) htarget
          have hdeeper := ih (Nat.lt_of_lt_of_le hless (Nat.le_of_lt_succ h))
            (Nat.lt_of_lt_of_le hless (Nat.le_of_lt_succ h'))
          rw [hdeeper]
        · rfl

/-- A reference leads to a schema that was not followed, or adds nothing. -/
theorem addReference_eq_ok {bound : Nat} {ref : String} (h : addReference doc (bound + 1) followed ref ps = .ok qs) :
    (qs = ps ∧ ∀ name target, doc.componentName ref "schemas" = some name →
        Entries.get doc.schemas name = .mapping target → name ∈ followed) ∨
      ∃ name target, doc.componentName ref "schemas" = some name ∧
        Entries.get doc.schemas name = .mapping target ∧ followed.contains name = false ∧
        addSchema (addReference doc bound (name :: followed)) ps (.mapping target) = .ok qs := by
  simp only [addReference] at h
  split at h
  · rename_i hname
    refine .inl ⟨(Except.ok.inj h).symm, fun name target hname' => ?_⟩
    cases hname.symm.trans hname'
  · rename_i name hname
    split at h
    · rename_i hfollowed
      refine .inl ⟨(Except.ok.inj h).symm, fun name' target hname' _ => ?_⟩
      rw [← Option.some.inj (hname.symm.trans hname')]
      simpa using hfollowed
    · rename_i hnew
      split at h
      · rename_i target htarget
        exact .inr ⟨name, target, hname, htarget, Bool.eq_false_iff.mpr hnew, h⟩
      · rename_i hnone
        refine .inl ⟨(Except.ok.inj h).symm, fun name' target hname' htarget => ?_⟩
        rw [← Option.some.inj (hname.symm.trans hname')] at htarget
        exact absurd htarget (hnone target)

theorem unfollowed_le (doc : Canonical) (followed : List String) : unfollowed doc followed ≤ doc.schemas.length :=
  List.length_filter_le ..

end Properties

/-- **The number of named schemas bounds the walk**: a larger bound gives the same properties. -/
theorem propertiesOf_bound {name : String} {bound : Nat} (h : doc.schemas.length + 1 ≤ bound) :
    addSchema (addReference doc bound [name]) {} (.mapping schema) = propertiesOf doc name schema := by
  have hle := unfollowed_le doc [name]
  have hsame : addReference doc bound [name] = addReference doc (doc.schemas.length + 1) [name] :=
    addReference_congr (by omega) (by omega)
  rw [propertiesOf, hsame]

theorem sizeOf_get_le (entries : Entries) (key : String) : sizeOf (Entries.get entries key) ≤ 1 + sizeOf entries := by
  induction entries with
  | nil => exact Nat.le_refl 2
  | cons e rest ih =>
    obtain ⟨k, v⟩ := e
    rw [Entries.get, Entries.get?_cons]
    simp only [List.cons.sizeOf_spec, Prod.mk.sizeOf_spec]
    split
    · rw [Option.getD_some]
      omega
    · rw [Entries.get] at ih
      omega

/-- The members of a schema are smaller than the schema. -/
theorem sizeOf_membersOf (schema : Entries) : sizeOf (membersOf schema) ≤ sizeOf (Value.mapping schema) := by
  have hle := sizeOf_get_le schema "allOf"
  rw [membersOf]
  cases hall : Entries.get schema "allOf" with
  | list items =>
    rw [hall] at hle
    simp only [Value.list.sizeOf_spec] at hle
    simp only [Value.items?, Option.getD_some, Value.mapping.sizeOf_spec]
    omega
  | scalar | mapping | set =>
    simp only [Value.items?, Option.getD_none, List.nil.sizeOf_spec, Value.mapping.sizeOf_spec]
    omega

/-- **The walk follows the members in order.** -/
theorem gathers_of_addItems {bound : Nat} (hbound : unfollowed doc followed < bound) {items : List Value}
    (h : addItems (addReference doc bound followed) ps items = .ok qs) : Gathers doc followed items ps qs := by
  -- Outside on how many names may still be followed, inside on the size of the members.
  induction bound generalizing followed items ps qs with
  | zero => exact absurd hbound (Nat.not_lt_zero _)
  | succ bound ih =>
    induction hsize : sizeOf items using Nat.strongRecOn generalizing items ps qs with
    | ind size ihsize =>
      subst hsize
      cases items with
      | nil =>
        rw [addItems] at h
        cases h
        exact .nil
      | cons member rest =>
        rw [addItems_cons] at h
        obtain ⟨mid, hmember, hrest⟩ := bind_eq_ok.mp h
        have hrest := ihsize _ (by simp only [List.cons.sizeOf_spec]; omega) hrest rfl
        cases member with
        | scalar | list | set =>
          rw [addMember_of_not_isMapping rfl] at hmember
          cases hmember
          exact .pass nofun hrest
        | mapping member =>
          by_cases hinline : ∀ ref, Entries.get member "$ref" ≠ .text ref
          · rw [addMember_inline hinline] at hmember
            obtain ⟨inner, hinner, hown⟩ := addSchema_eq_ok hmember
            refine .enter (.inline hinline) nofun (ihsize _ ?_ hinner rfl) hown hrest
            have hle := sizeOf_membersOf member
            simp only [List.cons.sizeOf_spec]
            omega
          · obtain ⟨ref, href⟩ := not_forall_not.mp hinline
            rw [addMember_named href] at hmember
            rcases addReference_eq_ok hmember with ⟨rfl, hpass⟩ | ⟨name, target, hname, htarget, hnew, hmember⟩
            · refine .pass (fun name part hstands => ?_) hrest
              cases hstands with
              | inline hinline => exact absurd href (hinline ref)
              | named href' hname htarget =>
                cases Value.scalar.inj (href.symm.trans href')
                exact ⟨_, rfl, hpass _ _ hname htarget⟩
            · have hless := unfollowed_cons hnew htarget
              obtain ⟨inner, hinner, hown⟩ := addSchema_eq_ok hmember
              refine .enter (.named href hname htarget) ?_ (ih (by simp; omega) hinner) hown hrest
              rintro _ ⟨⟩
              simpa using hnew

/-! ### The walk leaves nothing out -/

theorem StandsFor.get_schemas {name : String} (h : StandsFor doc member (some name) part) :
    Entries.get doc.schemas name = .mapping part := by
  cases h with
  | named _ _ htarget => exact htarget

/-- The walk goes where the closure leads. -/
theorem isInClosure_of_walk {here there : Place} (h : ReflTransGen (Enters doc) here there) :
    IsInClosure doc here.2 there.2 :=
  h.lift Prod.snd fun _ _ ⟨member, hmember, name, hstands, _⟩ => ⟨member, hmember, name, hstands⟩

section Walk

variable {name : String} {root : Entries} (hroot : Entries.get doc.schemas name = .mapping root)

include hroot

/-- To a schema whose name was followed the walk has come. -/
theorem exists_walk_of_followed {place : Place} (h : ReflTransGen (Enters doc) ([name], root) place) {n : String}
    (hn : n ∈ place.1) {target : Entries} (htarget : Entries.get doc.schemas n = .mapping target) :
    ∃ followed, ReflTransGen (Enters doc) ([name], root) (followed, target) := by
  induction h with
  | refl =>
    obtain rfl := List.mem_singleton.mp hn
    cases Value.mapping.inj (hroot.symm.trans htarget)
    exact ⟨_, .refl⟩
  | @tail before place hwalk henters ih =>
    obtain ⟨member, hmember, label, hstands, hnew, hfollowed⟩ := henters
    rw [hfollowed, List.mem_append, Option.mem_toList] at hn
    rcases hn with hlabel | hn
    · subst hlabel
      cases Value.mapping.inj (hstands.get_schemas.symm.trans htarget)
      exact ⟨place.1, hwalk.tail ⟨member, hmember, _, hstands, hnew, hfollowed⟩⟩
    · exact ih hn

/-- **The walk comes to every schema of the closure**: one that it does not enter because its name was
followed it has entered on the way. -/
theorem exists_walk (h : IsInClosure doc root part) :
    ∃ followed, ReflTransGen (Enters doc) ([name], root) (followed, part) := by
  induction h with
  | refl => exact ⟨_, .refl⟩
  | @tail before part _ hpart ih =>
    obtain ⟨followed, hwalk⟩ := ih
    obtain ⟨member, hmember, label, hstands⟩ := hpart
    by_cases hnew : ∀ n ∈ label, n ∉ followed
    · exact ⟨_, hwalk.tail ⟨member, hmember, label, hstands, hnew, rfl⟩⟩
    · simp only [not_forall, not_not] at hnew
      obtain ⟨n, hlabel, hfollowed⟩ := hnew
      rw [Option.mem_def] at hlabel
      subst hlabel
      exact exists_walk_of_followed hroot hwalk hfollowed hstands.get_schemas

end Walk

/-! ### What the walk gathers -/

section Gathered

variable {holds : Properties → Prop} {states : Entries → Prop} {items : List Value}

/-- **What is gathered holds what was held before and what the schemas state that the walk comes to.** -/
theorem Gathers.holds_iff (hown : ∀ {ps schema qs}, ps.addOwn schema = .ok qs → (holds qs ↔ holds ps ∨ states schema))
    (h : Gathers doc followed items ps qs) : holds qs ↔ holds ps ∨ ∃ member ∈ items, ∃ there,
      EntersBy doc followed member there ∧ ∃ place, ReflTransGen (Enters doc) there place ∧ states place.2 := by
  induction h with
  | nil => simp
  | @pass followed member rest ps qs hpass _ ih =>
    have hnone : ∀ there, ¬ EntersBy doc followed member there := by
      rintro there ⟨name, hstands, hnew, -⟩
      obtain ⟨n, hn, hfollowed⟩ := hpass name there.2 hstands
      exact hnew n hn hfollowed
    simp only [ih, List.exists_mem_cons_iff, hnone, false_and, exists_false, false_or]
  | @enter followed member rest name part ps inner own qs hstands hnew _ hadd _ ihinner ihrest =>
    -- The first member leads to one place alone.
    have hthere : ∀ there, EntersBy doc followed member there ↔ there = (name.toList ++ followed, part) := by
      rintro ⟨_, there⟩
      constructor
      · rintro ⟨name', hstands', -, hfollowed⟩
        obtain ⟨rfl, hpart⟩ := hstands.unique hstands'
        exact Prod.ext hfollowed hpart
      · rintro ⟨⟩
        exact ⟨name, hstands, hnew, rfl⟩
    have hfirst : (∃ place, ReflTransGen (Enters doc) (name.toList ++ followed, part) place ∧ states place.2) ↔
        (∃ member ∈ membersOf part, ∃ there, EntersBy doc (name.toList ++ followed) member there ∧
          ∃ place, ReflTransGen (Enters doc) there place ∧ states place.2) ∨ states part := by
      constructor
      · rintro ⟨place, hwalk, hstates⟩
        rcases hwalk.cases_head with rfl | ⟨there, ⟨member, hmember, henters⟩, hwalk⟩
        · exact .inr hstates
        · exact .inl ⟨member, hmember, there, henters, place, hwalk, hstates⟩
      · rintro (⟨member, hmember, there, henters, place, hwalk, hstates⟩ | hstates)
        · exact ⟨place, .head ⟨member, hmember, henters⟩ hwalk, hstates⟩
        · exact ⟨_, .refl, hstates⟩
    rw [ihrest, hown hadd, ihinner, List.exists_mem_cons_iff]
    simp only [hthere, exists_eq_left, hfirst, or_assoc]

/-- What every schema preserves holds in the end. -/
theorem Gathers.preserves (holds : Properties → Prop) (hown : ∀ {ps schema qs}, ps.addOwn schema = .ok qs → holds ps → holds qs)
    (h : Gathers doc followed items ps qs) (hps : holds ps) : holds qs := by
  induction h with
  | nil => exact hps
  | pass _ _ ih => exact ih hps
  | enter _ _ _ hadd _ ihinner ihrest => exact ihrest (hown hadd (ihinner hps))

end Gathered

/-- The properties of a named schema: what its members bring, and what it states itself. -/
theorem propertiesOf_eq_ok {name : String} (h : propertiesOf doc name schema = .ok qs) :
    ∃ inner, Gathers doc [name] (membersOf schema) {} inner ∧ inner.addOwn schema = .ok qs := by
  obtain ⟨inner, hinner, hown⟩ := addSchema_eq_ok h
  exact ⟨inner, gathers_of_addItems (Nat.lt_succ_of_le (unfollowed_le doc [name])) hinner, hown⟩

/-- **What is gathered for a named schema is what the schemas of its closure state.** -/
theorem propertiesOf_holds_iff (holds : Properties → Prop) {states : Entries → Prop} {name : String}
    (hschema : Entries.get doc.schemas name = .mapping schema) (h : propertiesOf doc name schema = .ok qs)
    (hempty : ¬ holds {})
    (hown : ∀ {ps schema qs}, ps.addOwn schema = .ok qs → (holds qs ↔ holds ps ∨ states schema)) :
    holds qs ↔ ∃ part, IsInClosure doc schema part ∧ states part := by
  obtain ⟨inner, hgathers, hadd⟩ := propertiesOf_eq_ok h
  rw [hown hadd, hgathers.holds_iff hown]
  constructor
  · rintro ((hfalse | ⟨member, hmember, there, henters, place, hwalk, hstates⟩) | hstates)
    · exact absurd hfalse hempty
    · have hwhole : ReflTransGen (Enters doc) ([name], schema) place := hwalk.head ⟨member, hmember, henters⟩
      exact ⟨place.2, isInClosure_of_walk hwhole, hstates⟩
    · exact ⟨schema, .refl, hstates⟩
  · rintro ⟨part, hpart, hstates⟩
    obtain ⟨followed, hwalk⟩ := exists_walk hschema hpart
    rcases hwalk.cases_head with heq | ⟨there, ⟨member, hmember, henters⟩, hwalk⟩
    · cases heq
      exact .inr hstates
    · exact .inl (.inr ⟨member, hmember, there, henters, _, hwalk, hstates⟩)

/-! ### What a schema states itself -/

theorem addOwn_eq_ok : ps.addOwn schema = .ok qs ↔ ∃ own names,
    (Entries.get schema "properties").entriesIfPresent = .ok own ∧
      requiredNames (Entries.get schema "required") = .ok names ∧
      qs = ⟨own.foldl (fun all e => Entries.putKey all e.1 e.2) ps.schemas, ps.required ++ names⟩ := by
  simp only [addOwn, bind_eq_ok, pure_eq_ok]
  constructor
  · rintro ⟨own, hown, names, hnames, rfl⟩
    exact ⟨own, names, hown, hnames, rfl⟩
  · rintro ⟨own, names, hown, hnames, rfl⟩
    exact ⟨own, hown, names, hnames, rfl⟩

/-- The properties that a schema declares are added. -/
theorem has_addOwn {key : String} (h : ps.addOwn schema = .ok qs) :
    Entries.has qs.schemas key = true ↔ Entries.has ps.schemas key = true ∨ Declares schema key := by
  obtain ⟨own, names, hown, -, rfl⟩ := addOwn_eq_ok.mp h
  have hdeclares : Declares schema key ↔ Entries.has own key = true := by
    unfold Declares
    unfold Value.entriesIfPresent at hown
    split at hown
    · rename_i hproperties
      rw [hproperties, ← Except.ok.inj hown]
      simp
    · rename_i hnone
      split at hown
      · cases hown
      · cases hown
        exact ⟨fun ⟨own, hproperties, _⟩ => absurd hproperties (hnone own), nofun⟩
  rw [hdeclares, Entries.has_foldl_putKey_iff, or_comm]

/-- A value that counts as absent has no parts. -/
theorem parts_eq_nil {v : Value} {parts : List Value} (habsent : v.isPresent = false) (h : v.parts = .ok parts) :
    parts = [] := by
  rw [← Bool.not_eq_true] at habsent
  cases v with
  | scalar s =>
    cases s with
    | text s =>
      obtain rfl : s = "" := by simpa [Value.isPresent] using habsent
      exact (Except.ok.inj h).symm
    | bytes data =>
      obtain rfl : data = [] := by simpa [Value.isPresent] using habsent
      exact (Except.ok.inj h).symm
    | null | bool | int | float | moment => cases h
  | list items =>
    obtain rfl : items = [] := by simpa [Value.isPresent] using habsent
    exact (Except.ok.inj h).symm
  | mapping entries =>
    obtain rfl : entries = [] := by simpa [Value.isPresent] using habsent
    exact (Except.ok.inj h).symm
  | set members =>
    obtain rfl : members = [] := by simpa [Value.isPresent] using habsent
    exact (Except.ok.inj h).symm

/-- The names that a schema requires are added. -/
theorem mem_required_addOwn {key : String} (h : ps.addOwn schema = .ok qs) :
    key ∈ qs.required ↔ key ∈ ps.required ∨ Requires schema key := by
  obtain ⟨own, names, -, hnames, rfl⟩ := addOwn_eq_ok.mp h
  have hrequires : Requires schema key ↔ key ∈ names := by
    rw [Requires]
    rw [requiredNames] at hnames
    split at hnames
    · obtain ⟨parts, hparts, rfl⟩ := map_eq_ok.mp hnames
      rw [List.mem_filterMap]
      constructor
      · rintro ⟨parts', hparts', hmem⟩
        cases hparts.symm.trans hparts'
        exact ⟨_, hmem, rfl⟩
      · rintro ⟨v, hmem, htext⟩
        rw [Contract.eq_text_of_text? htext] at hmem
        exact ⟨parts, hparts, hmem⟩
    · rename_i habsent
      cases hnames
      constructor
      · rintro ⟨parts, hparts, hmem⟩
        rw [parts_eq_nil (Bool.eq_false_iff.mpr habsent) hparts] at hmem
        cases hmem
      · exact nofun
  rw [List.mem_append, hrequires]

/-! ### The fields of a record -/

/-- The field is made from the definition of its property. -/
structure Field.IsDefinedBy (doc : Canonical) (definition : Value) (f : Field) : Prop where
  type : ∃ type, (Schema.resolve doc Schema.defaultBudget definition).Yields type ∧
    (f.type = type ∨ f.type = type.orNothing)
  description : f.description = descriptionOf definition
  deprecated : f.deprecated = (definition.get "deprecated").isTrue

theorem isOptional_orNothing (type : DataType) : type.orNothing.isOptional = true := by
  cases type <;> rfl

theorem nameText_eq_ok {key : Scalar} {name : String} (h : nameText key = .ok name) : key = .text name := by
  unfold nameText at h
  split at h
  · rw [Except.ok.inj h]
  · cases h

/-- There is one field for each property, in order. -/
theorem fieldsOf_forall₂ {required : List String} {names : Name.Table} {properties : Entries}
    {fields : List Field} (h : (fieldsOf doc required names properties).Yields fields) :
    List.Forall₂ (fun e f => e.1 = .text f.property ∧ f.IsDefinedBy doc e.2 ∧
      (f.property ∉ required → f.type.isOptional = true)) properties fields := by
  induction properties generalizing names fields with
  | nil =>
    rw [fieldsOf] at h
    rw [h.pure]
    exact .nil
  | cons e rest ih =>
    rw [fieldsOf] at h
    obtain ⟨type, htype, h⟩ := h.bind
    obtain ⟨property, hproperty, h⟩ := h.bind
    obtain ⟨more, hmore, h⟩ := h.bind
    rw [h.pure]
    refine .cons ⟨nameText_eq_ok hproperty.lift, ⟨⟨type, htype, ?_⟩, rfl, rfl⟩, fun hnot => ?_⟩ (ih hmore)
    · show DataType.orNothingIf _ type = type ∨ DataType.orNothingIf _ type = type.orNothing
      rw [DataType.orNothingIf]
      split
      · exact .inr rfl
      · exact .inl rfl
    · have hcontains : required.contains property = false := by simpa using hnot
      show (DataType.orNothingIf (!required.contains property) type).isOptional = true
      rw [hcontains]
      exact isOptional_orNothing type

/-- The fields are called what the keys are. -/
theorem textKeys_eq {R : Scalar × Value → Field → Prop} {properties : Entries} {fields : List Field}
    (h : List.Forall₂ (fun e f => e.1 = .text f.property ∧ R e f) properties fields) :
    Entries.textKeys properties = fields.map (·.property) := by
  induction h with
  | nil => rfl
  | cons hfirst _ ih =>
    rw [Entries.textKeys, List.filterMap_cons, hfirst.1, List.map_cons, ← ih]
    rfl

theorem exists_field_iff {R : Scalar × Value → Field → Prop} {properties : Entries} {fields : List Field}
    (h : List.Forall₂ (fun e f => e.1 = .text f.property ∧ R e f) properties fields) {key : String} :
    (∃ f ∈ fields, f.property = key) ↔ Entries.has properties key = true := by
  rw [← List.mem_map, ← textKeys_eq h, Entries.has_iff, Entries.textKeys, List.mem_filterMap]
  refine exists_congr fun e => and_congr_right fun _ => ?_
  cases e.1 <;> simp [Scalar.text?]

/-- **The record of a named schema is that of its closure.** The walk ends within the number of named schemas.
The fields are the properties that the schemas of the closure declare, each once. One that no schema of the
closure requires is optional, and one that the schema itself declares is as it says. -/
theorem recordOf_closure {name : String} {fields : List Field}
    (hschema : Entries.get doc.schemas name = .mapping schema)
    (h : (recordOf doc name schema).Yields (.record fields)) :
    (∀ bound, doc.schemas.length + 1 ≤ bound →
        addSchema (addReference doc bound [name]) {} (.mapping schema) = propertiesOf doc name schema) ∧
      (∀ key, (∃ f ∈ fields, f.property = key) ↔ ∃ part, IsInClosure doc schema part ∧ Declares part key) ∧
      (fields.map (·.property)).Nodup ∧
      (∀ f ∈ fields, (∀ part, IsInClosure doc schema part → ¬ Requires part f.property) →
        f.type.isOptional = true) ∧
      ∀ own key definition, Entries.get schema "properties" = .mapping own → (own.map (·.1)).Nodup →
        (.text key, definition) ∈ own → ∃ f ∈ fields, f.property = key ∧ f.IsDefinedBy doc definition := by
  unfold recordOf at h
  obtain ⟨properties, hproperties, h⟩ := h.bind
  obtain ⟨found, hfields, h⟩ := h.bind
  obtain rfl : fields = found := Shape.record.inj h.pure
  have hproperties := hproperties.lift
  have hforall := fieldsOf_forall₂ hfields
  obtain ⟨inner, hgathers, hadd⟩ := propertiesOf_eq_ok hproperties
  refine ⟨fun bound => propertiesOf_bound, fun key => ?_, ?_, fun f hf hnone => ?_,
    fun own key definition hown hnodup hmem => ?_⟩
  · rw [exists_field_iff hforall]
    exact propertiesOf_holds_iff (Entries.has ·.schemas key = true) hschema hproperties nofun has_addOwn
  · have hempty : (Entries.textKeys ({} : Properties).schemas).Nodup := List.nodup_nil
    have hown : ∀ {ps schema qs}, addOwn ps schema = .ok qs → (Entries.textKeys ps.schemas).Nodup →
        (Entries.textKeys qs.schemas).Nodup := by
      intro ps schema qs h hps
      obtain ⟨own, names, -, -, rfl⟩ := addOwn_eq_ok.mp h
      exact Entries.nodup_textKeys_foldl_putKey hps
    rw [← textKeys_eq hforall]
    exact hown hadd (hgathers.preserves (fun ps => (Entries.textKeys ps.schemas).Nodup) hown hempty)
  · obtain ⟨e, he, -, -, hoptional⟩ := Resolving.exists_left_of_forall₂ hforall.flip f hf
    refine hoptional fun hrequired => ?_
    obtain ⟨part, hpart, hrequires⟩ := (propertiesOf_holds_iff (f.property ∈ ·.required) hschema
      hproperties nofun mem_required_addOwn).mp hrequired
    exact hnone part hpart hrequires
  · obtain ⟨own', names, hown', -, rfl⟩ := addOwn_eq_ok.mp hadd
    rw [hown] at hown'
    cases hown'
    obtain ⟨f, hf, hkey, hdefined, -⟩ := Resolving.exists_left_of_forall₂ hforall _
      (Entries.mem_of_get? (Entries.get?_foldl_putKey hnodup hmem))
    exact ⟨f, hf, (Scalar.text.inj hkey).symm, hdefined⟩

/-! ### Two schemas that contain each other -/

def tailSchema : Value :=
  .object [("properties", .object [("tail", .object [("type", .text "boolean")])]),
    ("required", .list [.text "tail"])]

def petSchema : Entries :=
  [("allOf", .list [.object [("$ref", .text "#/components/schemas/Animal")], tailSchema]),
    ("properties", .object [("name", .object [("type", .text "string")]),
      ("kind", .object [("type", .text "integer")])])]

def animalSchema : Entries :=
  [("allOf", .list [.object [("$ref", .text "#/components/schemas/Pet")]]),
    ("properties", .object [("kind", .object [("type", .text "string")]),
      ("legs", .object [("type", .text "integer")])]),
    ("required", .list [.text "legs"])]

def animalSample : Canonical where
  data := [("components", .object [("schemas", .object [("Pet", .mapping petSchema),
    ("Animal", .mapping animalSchema)])])]
  dialect := .openApi "3.0.0"

/-- The properties of a record, and which of them are optional. -/
def fieldsIn : Shape → Option (List (String × Bool))
  | .record fields => some (fields.map fun f => (f.property, f.type.isOptional))
  | _ => none

/-- Each has the properties of both, and `kind` is what the schema itself says. -/
theorem recordOf_closure_animalSample :
    ∃ fields, (recordOf animalSample "Pet" petSchema).Yields (.record fields) ∧
      fields.map (fun f => (f.property, f.type.isOptional)) =
        [("kind", true), ("legs", false), ("tail", false), ("name", true)] ∧
      (∀ key, (∃ f ∈ fields, f.property = key) ↔
        ∃ part, IsInClosure animalSample petSchema part ∧ Declares part key) ∧
      ∃ f ∈ fields, f.property = "kind" ∧ f.IsDefinedBy animalSample (.object [("type", .text "integer")]) := by
  have hsample : (recordOf animalSample "Pet" petSchema).collect.1.toOption.bind fieldsIn =
      some [("kind", true), ("legs", false), ("tail", false), ("name", true)] := by decide +kernel
  obtain ⟨shape, hshape, hin⟩ := Option.bind_eq_some_iff.mp hsample
  obtain ⟨fields, rfl, hfields⟩ : ∃ fields, shape = .record fields ∧ fieldsIn (.record fields) = _ := by
    cases shape with
    | record fields => exact ⟨fields, rfl, hin⟩
    | union | literals | «alias» => cases hin
  have hyields := Resolving.yields_of_collect (eq_ok_of_toOption hshape)
  have hschema : Entries.get animalSample.schemas "Pet" = .mapping petSchema := by decide
  obtain ⟨-, hkeys, -, -, hown⟩ := recordOf_closure hschema hyields
  exact ⟨fields, hyields, Option.some.inj hfields, hkeys,
    hown _ "kind" (.object [("type", .text "integer")]) rfl (by decide) (by decide)⟩

end ContractSync.Model
