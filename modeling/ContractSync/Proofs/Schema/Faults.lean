import ContractSync.Proofs.Outcome
import ContractSync.Proofs.Schema.Forms
import ContractSync.Reference.Basic
import Mathlib

/-!
# Which schemas can be resolved

Resolving a schema asks for the types of others, with less budget (`Asks`): of the schemas inside it, and of
those that its references lead to. What can stop it is a reference, and only where it cannot be followed or,
in the places where a name is taken from it, suggests none (`Form.IsReadable`). **A schema is resolved if and
only if that is the case nowhere among the schemas that are asked for** (`resolve_returns_iff`), whatever was
noted before. Then what nothing says a type of is any value, and what leads nowhere is a placeholder or any
value.

Two things about a reference can stop the work on a document. A reference whose last segment names nothing
suggests the name of its document's file, and the URI of that document may be malformed: **it suggests a name
exactly if that is not so** (`typeName_ok_iff`). A segment that is used on a list has to be a position, and a
segment that looks like a number may write none: **a pointer can be followed exactly if no such segment meets
a list** (`follow_ok_iff`).
-/

namespace ContractSync.Reference

open ContractSync.Document

/-! ### Names -/

/-- The last segment of the reference names something, or its document is this one or has a well-formed URI. -/
def SuggestsName (ref : String) : Prop :=
  (∃ fragment, (ofString ref).fragment = some fragment ∧ Text.afterLast '/' fragment.toList ≠ []) ∨
    (ofString ref).document = "" ∨ (Uri.split (ofString ref).document.toList).isSome = true

theorem documentStem_ok_iff {document : String} :
    (∃ stem, documentStem document = .ok stem) ↔ document = "" ∨ (Uri.split document.toList).isSome = true := by
  unfold documentStem
  by_cases hempty : document = ""
  · simp [hempty]
  · rw [if_neg (by simpa using hempty)]
    cases Uri.split document.toList with
    | none => simp [hempty]
    | some uri => simp

/-- **A name is suggested unless the URI that it would be taken from is malformed.** -/
theorem typeName_ok_iff {ref : String} : (∃ name, typeName ref = .ok name) ↔ SuggestsName ref := by
  have hstem : (∃ name, (documentStem (ofString ref).document).map (·.getD "Unknown") = .ok name) ↔
      (ofString ref).document = "" ∨ (Uri.split (ofString ref).document.toList).isSome = true := by
    rw [← documentStem_ok_iff]
    cases documentStem (ofString ref).document <;> simp [Except.map]
  by_cases hlast : ((ofString ref).fragment.map fun f => Text.afterLast '/' f.toList).getD [] = []
  · have hnone : ¬ ∃ fragment, (ofString ref).fragment = some fragment ∧ Text.afterLast '/' fragment.toList ≠ [] := by
      rintro ⟨fragment, hfragment, hne⟩
      rw [hfragment] at hlast
      exact hne hlast
    rw [SuggestsName, or_iff_right hnone, ← hstem, typeName]
    simp only [hlast, List.isEmpty_nil, Bool.not_true, Bool.false_eq_true, if_false]
  · have hsome : ∃ fragment, (ofString ref).fragment = some fragment ∧ Text.afterLast '/' fragment.toList ≠ [] := by
      cases hfragment : (ofString ref).fragment with
      | none => exact absurd (by rw [hfragment]; rfl) hlast
      | some fragment => exact ⟨fragment, rfl, by simpa [hfragment] using hlast⟩
    refine iff_of_true ⟨_, if_pos ?_⟩ (.inl hsome)
    simpa using hlast

end ContractSync.Reference

namespace ContractSync.Text

/-- A number is written in digits that have a decimal value. -/
theorem decimalNumber?_isSome_iff {cs : List Char} :
    (decimalNumber? cs).isSome = true ↔ cs ≠ [] ∧ ∀ c ∈ cs, (decimalValue? c).isSome = true := by
  have hdigits : ∀ (cs : List Char) (n : Option Nat),
      (cs.foldl (fun n c => n.bind fun n => (decimalValue? c).map (10 * n + ·)) n).isSome = true ↔
        n.isSome = true ∧ ∀ c ∈ cs, (decimalValue? c).isSome = true := by
    intro cs
    induction cs with
    | nil => simp
    | cons c rest ih =>
      intro n
      rw [List.foldl_cons, ih, List.forall_mem_cons, ← and_assoc]
      cases n <;> simp
  unfold decimalNumber?
  cases cs with
  | nil => simp
  | cons c rest => rw [if_neg (by simp), hdigits]; simp

end ContractSync.Text

namespace ContractSync.Reference.Pointer

open ContractSync.Document

/-! ### Positions -/

/-- If the segment is made of digits, there are no more of them than a position may have, and all of them have
a decimal value. -/
def IsLegible (segment : String) : Prop :=
  (∀ c ∈ segment.toList, Text.isDigit c = true) →
    segment.length ≤ positionDigits ∧ ∀ c ∈ segment.toList, (Text.decimalValue? c).isSome = true

theorem position_ok_iff {segment : String} :
    (∃ found, position segment.toList = .ok found) ↔ IsLegible segment := by
  unfold position IsLegible
  rw [← String.length_toList]
  generalize segment.toList = cs
  by_cases hdigits : cs ≠ [] ∧ ∀ c ∈ cs, Text.isDigit c = true
  · rw [if_neg (by simpa using hdigits), imp_iff_right hdigits.2]
    by_cases hlong : positionDigits < cs.length
    · simp [if_pos hlong, Nat.not_le.mpr hlong]
    · rw [if_neg hlong, and_iff_right (Nat.not_lt.mp hlong), ← and_iff_right hdigits.1 (b := ∀ c ∈ cs, _),
        ← Text.decimalNumber?_isSome_iff]
      cases Text.decimalNumber? cs <;> simp
  · rw [if_pos (by simpa [Decidable.or_iff_not_imp_left] using hdigits)]
    refine iff_of_true ⟨_, rfl⟩ fun hall => ?_
    obtain rfl : cs = [] := Decidable.byContradiction fun hne => hdigits ⟨hne, hall⟩
    exact ⟨Nat.zero_le _, List.forall_mem_nil _⟩

/-! ### Walks -/

theorem step_ok_iff {node : Value} {segment : String} :
    (∃ found, step node segment = .ok found) ↔ ∀ items, node = .list items → IsLegible segment := by
  cases node with
  | list items =>
    simp only [Value.list.injEq, forall_eq', ← position_ok_iff, step]
    cases position segment.toList <;> simp [Except.map]
  | scalar | mapping | set => simp [step]

/-- **A pointer can be followed unless it comes to a list with a segment of digits that is no position.** -/
theorem follow_ok_iff {node : Value} {segments : List String} :
    (∃ found, follow node segments = .ok found) ↔
      ∀ before segment after items, segments = before ++ segment :: after →
        follow node before = .ok (some (.list items)) → IsLegible segment := by
  induction segments generalizing node with
  | nil => simp [follow]
  | cons segment rest ih =>
    constructor
    · rintro ⟨found, hfound⟩ before other after items heq hbefore
      rw [follow] at hfound
      obtain ⟨next, hnext, hfound⟩ := bind_eq_ok.mp hfound
      cases before with
      | nil =>
        cases heq
        cases hbefore
        exact step_ok_iff.mp ⟨next, hnext⟩ items rfl
      | cons first before =>
        cases heq
        rw [follow, hnext] at hbefore
        cases next with
        | none => cases hbefore
        | some next => exact ih.mp ⟨found, hfound⟩ before other after items rfl hbefore
    · intro h
      obtain ⟨next, hnext⟩ := step_ok_iff.mpr fun items hnode =>
        h [] segment rest items rfl (hnode ▸ rfl)
      rw [follow, hnext]
      cases next with
      | none => exact ⟨none, rfl⟩
      | some next =>
        refine ih.mpr fun before other after items heq hbefore => ?_
        refine h (segment :: before) other after items (by rw [heq]; rfl) ?_
        rw [follow, hnext]
        exact hbefore

end ContractSync.Reference.Pointer

namespace ContractSync.Schema

open ContractSync.Contract (Canonical)
open ContractSync.Document
open ContractSync.Reference (SuggestsName)
open Relation (ReflTransGen)
open Resolving (Gives Returns)

variable {doc : Canonical} {within next : Resolver} {type : DataType}

/-! ### References that can be followed -/

/-- The reference leads to a named schema, out of the document, or along a pointer that meets no list with a
segment of digits that is no position. -/
def CanFollow (doc : Canonical) (ref : String) : Prop :=
  doc.componentName ref "schemas" = none → ∀ pointer, Reference.toLocal ref doc.self = some pointer →
    ∀ before segment after items, Reference.Pointer.segments pointer = before ++ segment :: after →
      Reference.Pointer.follow (.mapping doc.data) before = .ok (some (.list items)) →
        Reference.Pointer.IsLegible segment

theorem ofReference_ok_iff {ref : String} : (∃ target, Target.ofReference doc ref = .ok target) ↔ CanFollow doc ref := by
  unfold Target.ofReference CanFollow
  cases doc.componentName ref "schemas" with
  | some component => simp
  | none =>
    have hmap : ∀ (f : Option Value → Target) (x : Except Fault (Option Value)),
        (∃ target, x.map f = .ok target) ↔ ∃ found, x = .ok found := by
      intro f x
      cases x <;> simp [Except.map]
    rw [hmap, Canonical.resolveReference]
    cases Reference.toLocal ref doc.self with
    | none => simp
    | some pointer => simpa [Reference.Pointer.resolve] using Reference.Pointer.follow_ok_iff

theorem targetName_ok_iff {target : String} : (∃ name, targetName target = .ok name) ↔
    ('#' ∈ target.toList ∨ '/' ∈ target.toList → SuggestsName target) := by
  rw [targetName, ← Reference.typeName_ok_iff]
  by_cases h : '#' ∈ target.toList ∨ '/' ∈ target.toList
  · rw [if_pos (by simpa using h), imp_iff_right h]
  · rw [if_neg (by simpa using h)]
    exact iff_of_true ⟨target, rfl⟩ fun hnot => absurd hnot h

/-- The targets of a discriminator that are references suggest names. -/
def HasNamedTargets (mapping : Entries) : Prop :=
  ∀ value target, (value, Value.text target) ∈ mapping → '#' ∈ target.toList ∨ '/' ∈ target.toList →
    SuggestsName target

theorem valuesFor_ok_iff {mapping : Entries} {name : String} :
    (∃ values, valuesFor mapping name = .ok values) ↔ HasNamedTargets mapping := by
  unfold valuesFor
  constructor
  · rintro ⟨values, h⟩ value target hmem
    obtain ⟨found, hfound, -⟩ := bind_eq_ok.mp h
    obtain ⟨_, hvalue⟩ := exists_of_mapM hfound _ hmem
    obtain ⟨name, hname, -⟩ := bind_eq_ok.mp hvalue
    exact targetName_ok_iff.mp ⟨name, hname⟩
  · intro h
    refine exists_bind_ok (exists_mapM fun e he => ?_) fun _ => ⟨_, rfl⟩
    obtain ⟨value, target⟩ := e
    dsimp only
    split
    · rename_i target
      exact exists_bind_ok (targetName_ok_iff.mpr (h value target he)) fun _ => ⟨_, rfl⟩
    · exact ⟨_, rfl⟩

/-! ### What is asked of other schemas -/

namespace Form

/-- The form asks for the type of the schema, with the budget that is left. -/
inductive Within (doc : Canonical) : Form → Value → Prop
  | items (schema : Value) : Within doc (array (some schema)) schema
  | values (schema : Value) : Within doc (map (some schema)) schema
  | inner (schema : Value) : Within doc (inner schema) schema
  | member {first member : Value} {others : List Value} {discriminator : Value} (hmember : member ∈ first :: others)
      (hinline : ∀ ref, member.get "$ref" ≠ .text ref) : Within doc (union first others discriminator) member
  | target {ref : String} {target : Entries} (h : Target.ofReference doc ref = .ok (.schema target)) :
      Within doc (reference ref) (.mapping target)

/-- The form asks for the type of the schema that a member refers to, with one level less. -/
inductive Beyond (doc : Canonical) : Form → Value → Prop
  | target {first member : Value} {others : List Value} {discriminator : Value} (hmember : member ∈ first :: others)
      {ref : String} (href : member.get "$ref" = .text ref) {target : Entries}
      (h : Target.ofReference doc ref = .ok (.schema target)) :
      Beyond doc (union first others discriminator) (.mapping target)

/-- No reference of the form stops the work: each can be followed, and where a name is taken from it or from a
target of a discriminator it suggests one. -/
def IsReadable (doc : Canonical) : Form → Prop
  | reference ref => CanFollow doc ref
  | dynamicReference ref => SuggestsName ref
  | union first others discriminator => ∀ member ∈ first :: others, ∀ ref, member.get "$ref" = .text ref →
      SuggestsName ref ∧ CanFollow doc ref ∧ HasNamedTargets (discriminator.get "mapping").entries
  | any | scalar _ _ | array _ | map _ | inner _ => True

end Form

/-! ### References -/

theorem ofReference_yields {ref : String} (h : (ofReference doc next ref).Yields type) : CanFollow doc ref ∧
    ∀ target, Target.ofReference doc ref = .ok (.schema target) → ∃ type, (next (.mapping target)).Yields type := by
  rw [ofReference_eq] at h
  obtain ⟨found, hfound, h⟩ := h.bind
  refine ⟨ofReference_ok_iff.mp ⟨found, hfound.lift⟩, fun target htarget => ?_⟩
  obtain rfl : found = .schema target := Except.ok.inj (hfound.lift.symm.trans htarget)
  exact ⟨type, h⟩

theorem ofReference_returns {ref : String} (hfollow : CanFollow doc ref)
    (hnext : ∀ target, Target.ofReference doc ref = .ok (.schema target) →
      ∃ type, Returns (next (.mapping target)) type) :
    ∃ type, Returns (ofReference doc next ref) type := by
  obtain ⟨target, htarget⟩ := ofReference_ok_iff.mpr hfollow
  have hresolve : ∃ type, Returns (target.resolve next ref) type := by
    cases target with
    | model component => exact ⟨_, .pure _⟩
    | schema target => exact hnext target htarget
    | chained => exact ⟨_, .pure _⟩
    | missing context => exact ⟨_, (Returns.note ref context).bind (.pure _)⟩
  obtain ⟨type, htype⟩ := hresolve
  exact ⟨type, by rw [ofReference_eq]; exact (Returns.lift htarget).bind htype⟩

theorem ofDynamicReference_yields {ref : String} (h : (ofDynamicReference doc ref).Yields type) : SuggestsName ref := by
  unfold ofDynamicReference at h
  obtain ⟨name, hname, -⟩ := h.bind
  exact Reference.typeName_ok_iff.mp ⟨name, hname.lift⟩

theorem ofDynamicReference_returns {ref : String} (h : SuggestsName ref) :
    ∃ type, Returns (ofDynamicReference doc ref) type := by
  obtain ⟨name, hname⟩ := Reference.typeName_ok_iff.mpr h
  exact ⟨_, (Returns.lift hname).bind (.pure _)⟩

/-! ### Members -/

section Member

variable {mapping : Entries} {position : Nat} {member : Value} {found : VariantLabel × DataType}

theorem memberAt_yields {ref : String} (href : member.get "$ref" = .text ref)
    (h : (memberAt doc within next mapping position member).Yields found) :
    SuggestsName ref ∧ HasNamedTargets mapping ∧ ∃ type, (ofReference doc next ref).Yields type := by
  unfold memberAt at h
  rw [href] at h
  obtain ⟨name, hname, h⟩ := h.bind
  obtain ⟨type, htype, h⟩ := h.bind
  obtain ⟨values, hvalues, -⟩ := h.bind
  exact ⟨Reference.typeName_ok_iff.mp ⟨name, hname.lift⟩, valuesFor_ok_iff.mp ⟨values, hvalues.lift⟩, type, htype⟩

theorem memberAt_returns
    (href : ∀ ref, member.get "$ref" = .text ref →
      SuggestsName ref ∧ HasNamedTargets mapping ∧ ∃ type, Returns (ofReference doc next ref) type)
    (hinline : (∀ ref, member.get "$ref" ≠ .text ref) → ∃ type, Returns (within member) type) :
    ∃ found, Returns (memberAt doc within next mapping position member) found := by
  unfold memberAt
  split
  · rename_i ref hget
    obtain ⟨hname, htargets, type, htype⟩ := href ref hget
    obtain ⟨name, hname⟩ := Reference.typeName_ok_iff.mpr hname
    obtain ⟨values, hvalues⟩ : ∃ values, valuesFor mapping name = .ok values := valuesFor_ok_iff.mpr htargets
    exact ⟨_, (Returns.lift hname).bind (htype.bind ((Returns.lift hvalues).bind (.pure _)))⟩
  · rename_i hnot
    obtain ⟨type, htype⟩ := hinline hnot
    exact ⟨_, htype.bind (.pure _)⟩

theorem members_yields {names : Name.Table} {alternatives : List Value} {variants : List (VariantLabel × DataType)}
    (h : (members doc within next mapping position names alternatives).Yields variants) (hmember : member ∈ alternatives) :
    ∃ position found, (memberAt doc within next mapping position member).Yields found := by
  have hall := members_forall₂ h (R := fun member _ => ∃ position found,
    (memberAt doc within next mapping position member).Yields found) fun position _ _ found h => ⟨position, found, h⟩
  obtain ⟨_, -, hfound⟩ := Resolving.exists_left_of_forall₂ hall member hmember
  exact hfound

theorem members_returns {alternatives : List Value}
    (h : ∀ position, ∀ member ∈ alternatives, ∃ found,
      Returns (memberAt doc within next mapping position member) found) (position : Nat) (names : Name.Table) :
    ∃ variants, Returns (members doc within next mapping position names alternatives) variants := by
  induction alternatives generalizing position names with
  | nil => exact ⟨_, .pure _⟩
  | cons member rest ih =>
    obtain ⟨found, hfound⟩ := h position member List.mem_cons_self
    obtain ⟨more, hmore⟩ := ih (fun position member hmem => h position member (List.mem_cons_of_mem _ hmem))
      (position + 1) (names.claim found.1.name).2
    rw [members]
    exact ⟨_, hfound.bind (hmore.bind (.pure _))⟩

end Member

/-! ### Forms -/

namespace Form

variable {form : Form}

/-- What a form asks for has a type if the form has one. -/
theorem resolve_yields (h : (form.resolve doc within next).Yields type) : form.IsReadable doc ∧
    (∀ s, form.Within doc s → ∃ type, (within s).Yields type) ∧
      ∀ s, form.Beyond doc s → ∃ type, (next s).Yields type := by
  cases form with
  | any | scalar => exact ⟨trivial, nofun, nofun⟩
  | array items | map values =>
    obtain ⟨inner, hinner, -⟩ := h.bind
    refine ⟨trivial, ?_, nofun⟩
    rintro s ⟨⟩
    exact ⟨inner, hinner⟩
  | inner schema =>
    refine ⟨trivial, ?_, nofun⟩
    rintro s ⟨⟩
    exact ⟨type, h⟩
  | reference ref =>
    obtain ⟨hfollow, htarget⟩ := ofReference_yields h
    refine ⟨hfollow, fun s hs => ?_, nofun⟩
    cases hs with
    | target hs => exact htarget _ hs
  | dynamicReference ref => exact ⟨ofDynamicReference_yields h, nofun, nofun⟩
  | union first others discriminator =>
    obtain ⟨variants, hvariants, -⟩ := h.bind
    refine ⟨fun member hmem ref href => ?_, ?_, ?_⟩
    · obtain ⟨position, found, hfound⟩ := members_yields hvariants hmem
      obtain ⟨hname, htargets, type, htype⟩ := memberAt_yields href hfound
      exact ⟨hname, (ofReference_yields htype).1, htargets⟩
    · intro s hs
      cases hs with
      | member hmem hinline =>
        obtain ⟨position, found, before, after, hfound⟩ := members_yields hvariants hmem
        obtain ⟨ref, href, -⟩ | ⟨-, htype⟩ := memberAt_gives hfound
        · exact absurd href (hinline ref)
        · exact ⟨_, htype.yields⟩
    · intro s hs
      cases hs with
      | target hmem href htarget =>
        obtain ⟨position, found, hfound⟩ := members_yields hvariants hmem
        obtain ⟨-, -, type, htype⟩ := memberAt_yields href hfound
        exact (ofReference_yields htype).2 _ htarget

/-- A form has a type if what it asks for has types, and can be read. -/
theorem resolve_returns (hreadable : form.IsReadable doc)
    (hwithin : ∀ s, form.Within doc s → ∃ type, Returns (within s) type)
    (hnext : ∀ s, form.Beyond doc s → ∃ type, Returns (next s) type) :
    ∃ type, Returns (form.resolve doc within next) type := by
  cases form with
  | any | scalar => exact ⟨_, .pure _⟩
  | array items =>
    cases items with
    | none => exact ⟨_, .pure _⟩
    | some items =>
      obtain ⟨type, htype⟩ := hwithin items (.items items)
      exact ⟨_, htype.bind (.pure _)⟩
  | map values =>
    cases values with
    | none => exact ⟨_, .pure _⟩
    | some values =>
      obtain ⟨type, htype⟩ := hwithin values (.values values)
      exact ⟨_, htype.bind (.pure _)⟩
  | inner schema => exact hwithin schema (.inner schema)
  | reference ref => exact ofReference_returns hreadable fun target htarget => hwithin _ (.target htarget)
  | dynamicReference ref => exact ofDynamicReference_returns hreadable
  | union first others discriminator =>
    have hmember : ∀ position, ∀ member ∈ first :: others, ∃ found,
        Returns (memberAt doc within next (discriminator.get "mapping").entries position member) found := by
      intro position member hmem
      refine memberAt_returns (fun ref href => ?_) fun hinline => hwithin member (.member hmem hinline)
      obtain ⟨hname, hfollow, htargets⟩ := hreadable member hmem ref href
      exact ⟨hname, htargets, ofReference_returns hfollow fun target htarget => hnext _ (.target hmem href htarget)⟩
    obtain ⟨variants, hvariants⟩ := members_returns hmember 0 {}
    exact ⟨_, hvariants.bind (.pure _)⟩

end Form

/-! ### Schemas -/

/-- To resolve the first schema within its budget asks for the type of the second within its own. -/
inductive Asks (doc : Canonical) : Nat × Value → Nat × Value → Prop
  | within {budget : Nat} {v s : Value} (h : (Form.ofValue v).1.Within doc s) : Asks doc (budget + 1, v) (budget, s)
  | beyond {budget : Nat} {v s : Value} (h : (Form.ofValue v).1.Beyond doc s) : Asks doc (budget + 1, v) (budget - 1, s)

/-- All schemas that are asked for, this one included, can be read. -/
def IsReadable (doc : Canonical) (budget : Nat) (v : Value) : Prop :=
  ∀ left w, ReflTransGen (Asks doc) (budget, v) (left + 1, w) → (Form.ofValue w).1.IsReadable doc

theorem isReadable_zero (v : Value) : IsReadable doc 0 v := by
  intro left w h
  cases h.cases_head with
  | inl heq => cases heq
  | inr h =>
    obtain ⟨_, hasks, -⟩ := h
    cases hasks

theorem isReadable_succ {budget : Nat} {v : Value} : IsReadable doc (budget + 1) v ↔
    (Form.ofValue v).1.IsReadable doc ∧ (∀ s, (Form.ofValue v).1.Within doc s → IsReadable doc budget s) ∧
      ∀ s, (Form.ofValue v).1.Beyond doc s → IsReadable doc (budget - 1) s := by
  constructor
  · intro h
    exact ⟨h budget v .refl, fun s hs left w hw => h left w (.head (.within hs) hw),
      fun s hs left w hw => h left w (.head (.beyond hs) hw)⟩
  · rintro ⟨hform, hwithin, hbeyond⟩ left w h
    obtain heq | ⟨_, hasks, hrest⟩ := h.cases_head
    · cases heq
      exact hform
    · cases hasks with
      | within hs => exact hwithin _ hs left w hrest
      | beyond hs => exact hbeyond _ hs left w hrest

theorem isReadable_of_yields {budget : Nat} {v : Value} (h : (resolve doc budget v).Yields type) :
    IsReadable doc budget v := by
  -- What is asked for has less budget, but the schema that a member refers to has two levels less.
  induction budget using Nat.strongRecOn generalizing v type with
  | ind budget ih =>
    cases budget with
    | zero => exact isReadable_zero v
    | succ budget =>
      rw [resolve_succ, ofNode_eq_form] at h
      obtain ⟨found, hfound, -⟩ := h.map
      obtain ⟨hform, hwithin, hbeyond⟩ := Form.resolve_yields hfound
      refine isReadable_succ.mpr ⟨hform, fun s hs => ?_, fun s hs => ?_⟩
      · obtain ⟨_, hs⟩ := hwithin s hs
        exact ih budget (by omega) hs
      · obtain ⟨_, hs⟩ := hbeyond s hs
        exact ih (budget - 1) (by omega) hs

theorem exists_returns_of_isReadable {budget : Nat} {v : Value} (h : IsReadable doc budget v) :
    ∃ type, Returns (resolve doc budget v) type := by
  induction budget using Nat.strongRecOn generalizing v with
  | ind budget ih =>
    cases budget with
    | zero => exact ⟨_, .pure _⟩
    | succ budget =>
      obtain ⟨hform, hwithin, hbeyond⟩ := isReadable_succ.mp h
      obtain ⟨type, htype⟩ := Form.resolve_returns hform
        (fun s hs => ih budget (by omega) (hwithin s hs)) fun s hs => ih (budget - 1) (by omega) (hbeyond s hs)
      rw [resolve_succ, ofNode_eq_form]
      exact ⟨_, htype.map⟩

/-! ### Placeholders -/

/-- The reference leads to no schema that could be resolved. -/
def Target.IsUnresolved : Target → Prop
  | chained | missing _ => True
  | model _ | schema _ => False

/-- What nothing is said of is any value; so is what a dynamic reference does not lead to. References that lead
nowhere are placeholders, in the variants of a union as well. -/
def Form.HasPlaceholders (doc : Canonical) : Form → DataType → Prop
  | any, type => type = .dynamic
  | reference ref, type => ∀ target, Target.ofReference doc ref = .ok target → target.IsUnresolved → type = .unknown ref
  | dynamicReference ref, type => ∀ name, Reference.typeName ref = .ok name →
      Entries.has doc.schemas (String.ofList (name.toList.dropWhile (· == '#'))) = false → type = .dynamic
  | union first others discriminator, type => ∃ variants,
      type = .union variants (discriminator.get "propertyName").text? ∧
        List.Forall₂ (fun member variant => ∀ ref target, member.get "$ref" = .text ref →
          Target.ofReference doc ref = .ok target → target.IsUnresolved → variant.2 = .unknown ref)
          (first :: others) variants
  | scalar _ _, _ | array _, _ | map _, _ | inner _, _ => True

theorem ofReference_unresolved {ref : String} {target : Target} (h : (ofReference doc next ref).Yields type)
    (htarget : Target.ofReference doc ref = .ok target) (hunresolved : target.IsUnresolved) : type = .unknown ref := by
  rw [ofReference_eq] at h
  obtain ⟨found, hfound, h⟩ := h.bind
  obtain rfl : found = target := Except.ok.inj (hfound.lift.symm.trans htarget)
  cases found with
  | chained => exact h.pure
  | missing context =>
    obtain ⟨-, -, h⟩ := h.bind
    exact h.pure
  | model | schema => exact hunresolved.elim

theorem ofDynamicReference_unresolved {ref name : String} (h : (ofDynamicReference doc ref).Yields type)
    (hname : Reference.typeName ref = .ok name)
    (habsent : Entries.has doc.schemas (String.ofList (name.toList.dropWhile (· == '#'))) = false) :
    type = .dynamic := by
  unfold ofDynamicReference at h
  obtain ⟨found, hfound, h⟩ := h.bind
  obtain rfl : found = name := Except.ok.inj (hfound.lift.symm.trans hname)
  rw [h.pure]
  exact if_neg (by rw [habsent]; exact Bool.false_ne_true)

theorem Form.resolve_hasPlaceholders {form : Form} (h : (form.resolve doc within next).Yields type) :
    form.HasPlaceholders doc type := by
  cases form with
  | any => exact h.pure
  | scalar | array | map | inner => trivial
  | reference ref => exact fun target htarget => ofReference_unresolved h htarget
  | dynamicReference ref => exact fun name hname => ofDynamicReference_unresolved h hname
  | union first others discriminator =>
    obtain ⟨variants, hvariants, h⟩ := h.bind
    refine ⟨variants, h.pure, ?_⟩
    refine members_forall₂ (R := fun member type => ∀ ref target, member.get "$ref" = .text ref →
      Target.ofReference doc ref = .ok target → target.IsUnresolved → type = .unknown ref) hvariants ?_
    intro _ member _ found hfound ref target href htarget hunresolved
    obtain ⟨before, after, hfound⟩ := hfound
    obtain ⟨ref', href', htype⟩ | ⟨hinline, -⟩ := memberAt_gives hfound
    · obtain rfl : ref' = ref := by simpa using href'.symm.trans href
      exact ofReference_unresolved htype.yields htarget hunresolved
    · exact absurd href (hinline ref)

/-- **A schema is resolved exactly if it can be read**, whatever was noted before. Then what cannot be typed is
any value, and references that lead nowhere are placeholders or any value. -/
theorem resolve_returns_iff (doc : Canonical) (budget : Nat) (v : Value) :
    ((∃ type, Returns (resolve doc budget v) type) ↔ IsReadable doc budget v) ∧
      ∀ type, (resolve doc budget v).Yields type → (budget = 0 → type = .dynamic) ∧
        (budget ≠ 0 → ∃ found, type = found.orNothingIf (Form.ofValue v).2 ∧
          (Form.ofValue v).1.HasPlaceholders doc found) := by
  refine ⟨⟨fun ⟨type, h⟩ => isReadable_of_yields h.yields, exists_returns_of_isReadable⟩, fun type h => ?_⟩
  cases budget with
  | zero => exact ⟨fun _ => h.pure, fun hne => absurd rfl hne⟩
  | succ budget =>
    rw [resolve_succ, ofNode_eq_form] at h
    obtain ⟨found, hfound, rfl⟩ := h.map
    exact ⟨fun hzero => absurd hzero (Nat.succ_ne_zero budget), fun _ => ⟨found, rfl, Form.resolve_hasPlaceholders hfound⟩⟩

/-- A document with a list. -/
def taggedContract : Canonical :=
  ⟨[(.text "tags", .list [.object [("name", .text "pets")]])], .openApi "3.1.0", none⟩

/-- One alternative is a reference to a schema that is absent. -/
def halfKnown : Value :=
  .object [("oneOf", .list [.object [("$ref", .text "#/components/schemas/Absent")], .object [("type", .text "string")]])]

/-- The reference leads nowhere, which stops nothing. -/
theorem resolve_returns_iff_halfKnown : ∃ found, (Form.ofValue halfKnown).1.HasPlaceholders taggedContract found ∧
    DataType.union [({ name := "Absent" }, .unknown "#/components/schemas/Absent"), ({ name := "String" }, .plainString)]
      none = found.orNothingIf false := by
  have htype : (resolve taggedContract 8 halfKnown).collect.1 =
      .ok (.union [({ name := "Absent" }, .unknown "#/components/schemas/Absent"), ({ name := "String" }, .plainString)]
        none) := by cbv
  obtain ⟨found, heq, hfound⟩ :=
    ((resolve_returns_iff taggedContract 8 halfKnown).2 _ (Resolving.yields_of_collect htype)).2 (by decide)
  exact ⟨found, hfound, heq⟩

/-- A dynamic reference to a document with a malformed URI, a pointer with a superscript for a position, and an
alternative in a document with a malformed URI. -/
def illegible : List Value :=
  [.object [("$dynamicRef", .text "http://[pets")], .object [("$ref", .text "#/tags/²/name")],
    .object [("oneOf", .list [.object [("$ref", .text "http://[pets")], .object [("type", .text "string")]])]]

/-- Each of them stops the work. -/
theorem resolve_stops :
    illegible.all (fun v => (resolve taggedContract defaultBudget v).collect.1.toOption.isNone) = true := by
  decide +kernel

end ContractSync.Schema
