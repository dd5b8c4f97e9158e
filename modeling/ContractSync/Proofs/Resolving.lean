import ContractSync.Diagnostics
import Mathlib.Data.List.Forall2

/-!
# What work on a document yields and notes

`Resolving.Yields work a` says that the work can succeed with `a`, whatever was noted before. What
the parts of the work yield follows from what the whole yields, as for computations without notes.

Two pieces of work are `Alike` if both succeed, with related results, or both fail, whatever was noted
before either of them. Work that is put together from like parts is alike.
-/

namespace ContractSync.Resolving

variable {α β : Type}

/-- The work succeeds with `a`, from some notes. -/
def Yields (work : Resolving α) (a : α) : Prop :=
  ∃ before after, StateT.run work.run before = (.ok a, after)

theorem yields_of_collect {work : Resolving α} {a : α} (h : work.collect.1 = .ok a) :
    work.Yields a :=
  ⟨{}, work.collect.2, Prod.ext h rfl⟩

theorem Yields.bind {work : Resolving α} {next : α → Resolving β} {b : β}
    (h : Yields (work >>= next) b) : ∃ a, work.Yields a ∧ (next a).Yields b := by
  obtain ⟨before, after, h⟩ := h
  rw [ExceptT.run_bind, StateT.run_bind] at h
  cases hw : StateT.run work.run before with
  | mk outcome between =>
    rw [hw] at h
    cases outcome with
    | error fault => cases h
    | ok a => exact ⟨a, ⟨before, between, hw⟩, ⟨between, after, h⟩⟩

theorem Yields.pure {a b : α} (h : Yields (Pure.pure a) b) : b = a := by
  obtain ⟨before, after, h⟩ := h
  cases h
  rfl

theorem Yields.lift {x : Except Fault α} {a : α} (h : Yields (liftM x : Resolving α) a) :
    x = .ok a := by
  obtain ⟨before, after, h⟩ := h
  cases h
  rfl

/-- A walk over a list has one result for each item of the list. -/
theorem Yields.forall₂_mapM {f : α → Resolving β} {items : List α} {results : List β}
    (h : Yields (items.mapM f) results) : List.Forall₂ (fun a b => (f a).Yields b) items results := by
  induction items generalizing results with
  | nil =>
    rw [List.mapM_nil] at h
    rw [h.pure]
    exact .nil
  | cons item rest ih =>
    rw [List.mapM_cons] at h
    obtain ⟨b, hb, h⟩ := h.bind
    obtain ⟨more, hmore, h⟩ := h.bind
    rw [h.pure]
    exact .cons hb (ih hmore)

theorem exists_left_of_forall₂ {R : α → β → Prop} {items : List α} {results : List β}
    (h : List.Forall₂ R items results) : ∀ a ∈ items, ∃ b ∈ results, R a b := by
  induction h with
  | nil => exact List.forall_mem_nil _
  | cons hfirst _ ih =>
    refine List.forall_mem_cons.mpr ⟨⟨_, List.mem_cons_self, hfirst⟩, fun a ha => ?_⟩
    obtain ⟨b, hb, hab⟩ := ih a ha
    exact ⟨b, List.mem_cons_of_mem _ hb, hab⟩

/-- Every result of a walk over a list comes from an item of the list. -/
theorem Yields.mapM {f : α → Resolving β} {items : List α} {results : List β}
    (h : Yields (items.mapM f) results) : ∀ b ∈ results, ∃ a ∈ items, (f a).Yields b :=
  exists_left_of_forall₂ h.forall₂_mapM.flip

/-! ### Work that comes to the same -/

/-- Both outcomes are results, and related, or both are faults. -/
def Matches {γ δ : Type} (R : γ → δ → Prop) : Except Fault γ → Except Fault δ → Prop
  | .ok a, .ok b => R a b
  | .error _, .error _ => True
  | _, _ => False

/-- Whatever was noted before, the two pieces of work come to matching outcomes. -/
def Alike {γ δ : Type} (R : γ → δ → Prop) (work : Resolving γ) (work' : Resolving δ) : Prop :=
  ∀ before before', Matches R (StateT.run work.run before).1 (StateT.run work'.run before').1

/-- Whatever was noted before, the two pieces of work come to the same result. -/
abbrev Same (work work' : Resolving α) : Prop := Alike Eq work work'

section Alike

variable {γ δ : Type} {R : α → γ → Prop} {S : β → δ → Prop} {work : Resolving α} {work' : Resolving γ}

theorem Alike.pure {a : α} {c : γ} (h : R a c) : Alike R (Pure.pure a) (Pure.pure c) := fun _ _ => h

theorem Alike.mono {R' : α → γ → Prop} (h : Alike R work work') (hR : ∀ a c, R a c → R' a c) :
    Alike R' work work' := by
  intro before before'
  have hwork := h before before'
  unfold Matches at hwork ⊢
  split at hwork
  · exact hR _ _ hwork
  · exact hwork
  · exact hwork.elim

theorem Alike.bind {next : α → Resolving β} {next' : γ → Resolving δ} (h : Alike R work work')
    (hnext : ∀ a c, R a c → Alike S (next a) (next' c)) : Alike S (work >>= next) (work' >>= next') := by
  intro before before'
  have hwork := h before before'
  rw [ExceptT.run_bind, StateT.run_bind, ExceptT.run_bind, StateT.run_bind]
  cases hw : StateT.run work.run before with
  | mk outcome between =>
    cases hw' : StateT.run work'.run before' with
    | mk outcome' between' =>
      rw [hw, hw'] at hwork
      cases outcome with
      | error fault =>
        cases outcome' with
        | error fault' => trivial
        | ok c => exact hwork.elim
      | ok a =>
        cases outcome' with
        | error fault' => exact hwork.elim
        | ok c => exact hnext a c hwork between between'

theorem Same.bind {work work' : Resolving α} {next next' : α → Resolving β} {T : β → β → Prop}
    (h : Same work work') (hnext : ∀ a, Alike T (next a) (next' a)) : Alike T (work >>= next) (work' >>= next') :=
  Alike.bind h fun a _ heq => heq ▸ hnext a

theorem same_lift (x : Except Fault α) : Same (liftM x : Resolving α) (liftM x) := by
  intro before before'
  cases x with
  | error => exact trivial
  | ok a => exact rfl

/-- Both go on with the same result, if there is one. -/
theorem Alike.lift_bind {x : Except Fault α} {next : α → Resolving β} {next' : α → Resolving δ}
    (h : ∀ a, x = .ok a → Alike S (next a) (next' a)) :
    Alike S ((liftM x : Resolving α) >>= next) ((liftM x : Resolving α) >>= next') := by
  cases x with
  | error fault => exact fun _ _ => trivial
  | ok a => exact fun before before' => h a rfl before before'

theorem same_note (ref context ref' context' : String) :
    Same (noteUnresolved ref context) (noteUnresolved ref' context') := fun _ _ => rfl

theorem Alike.mapM {R : α → γ → Prop} {S : β → δ → Prop} {f : α → Resolving β} {g : γ → Resolving δ}
    {items : List α} {items' : List γ} (hitems : List.Forall₂ R items items')
    (h : ∀ a c, R a c → Alike S (f a) (g c)) : Alike (List.Forall₂ S) (items.mapM f) (items'.mapM g) := by
  induction hitems with
  | nil =>
    rw [List.mapM_nil, List.mapM_nil]
    exact .pure .nil
  | cons hfirst _ ih =>
    rw [List.mapM_cons, List.mapM_cons]
    exact (h _ _ hfirst).bind fun b d hb => ih.bind fun bs ds hbs => .pure (.cons hb hbs)

theorem Same.mapM {f g : α → Resolving β} {items : List α} (h : ∀ a ∈ items, Same (f a) (g a)) :
    Same (items.mapM f) (items.mapM g) := by
  induction items with
  | nil =>
    rw [List.mapM_nil, List.mapM_nil]
    exact .pure rfl
  | cons a items ih =>
    rw [List.forall_mem_cons] at h
    rw [List.mapM_cons, List.mapM_cons]
    exact h.1.bind fun b => (ih h.2).bind fun bs => .pure rfl

/-- Two pieces of work in the other order. -/
theorem Same.swap_bind {γ δ : Type} {T : γ → δ → Prop} {first first' : Resolving α} {second second' : Resolving β}
    {next : α → β → Resolving γ} {next' : α → β → Resolving δ} (hfirst : Same first first')
    (hsecond : Same second second')
    (hnext : ∀ a b, first.Yields a → second.Yields b → Alike T (next a b) (next' a b)) :
    Alike T (do let a ← first; let b ← second; next a b) (do let b ← second'; let a ← first'; next' a b) := by
  intro before before'
  rw [ExceptT.run_bind, StateT.run_bind, ExceptT.run_bind, StateT.run_bind]
  cases hw : StateT.run first.run before with
  | mk outcome between =>
    cases hw' : StateT.run second'.run before' with
    | mk outcome' between' =>
      cases outcome with
      | error fault =>
        cases outcome' with
        | error fault' => trivial
        | ok b =>
          have hlater := hfirst before between'
          rw [hw] at hlater
          show Matches T (.error fault) (StateT.run (ExceptT.run (first' >>= fun a => next' a b)) between').1
          rw [ExceptT.run_bind, StateT.run_bind]
          cases hlast : StateT.run first'.run between' with
          | mk last after =>
            rw [hlast] at hlater
            cases last with
            | error fault' => trivial
            | ok a => exact hlater.elim
      | ok a =>
        have hother := hsecond between before'
        rw [hw'] at hother
        show Matches T (StateT.run (ExceptT.run (second >>= fun b => next a b)) between).1 _
        rw [ExceptT.run_bind, StateT.run_bind]
        cases hlast : StateT.run second.run between with
        | mk last after =>
          rw [hlast] at hother
          cases last with
          | error fault =>
            cases outcome' with
            | error fault' => trivial
            | ok b => exact hother.elim
          | ok b =>
            cases outcome' with
            | error fault' => exact hother.elim
            | ok b' =>
              obtain rfl : b = b' := hother
              have hlater := hfirst before between'
              rw [hw] at hlater
              show Matches T _ (StateT.run (ExceptT.run (first' >>= fun a => next' a b)) between').1
              rw [ExceptT.run_bind, StateT.run_bind]
              cases hrest : StateT.run first'.run between' with
              | mk rest after' =>
                rw [hrest] at hlater
                cases rest with
                | error fault' => exact hlater.elim
                | ok a' =>
                  obtain rfl : a = a' := hlater
                  exact hnext a b ⟨before, between, hw⟩ ⟨between, after, hlast⟩ after after'

/-- What one piece of work yields, the other yields with a related result. -/
theorem Alike.collect (h : Alike R work work') {a : α} (hwork : work.collect.1 = .ok a) :
    ∃ c, work'.collect.1 = .ok c ∧ R a c := by
  have hall := h {} {}
  have hrun : (StateT.run work.run {}).1 = .ok a := hwork
  rw [hrun] at hall
  cases hw : (StateT.run work'.run {}).1 with
  | error fault =>
    rw [hw] at hall
    exact hall.elim
  | ok c =>
    rw [hw] at hall
    exact ⟨c, hw, hall⟩

end Alike

end ContractSync.Resolving

/-!
## What work on a document notes

`Resolving.Gives work before a after` says that the work succeeds with `a` and leaves the notes `after` where
those before it were `before`. From what the whole work gives follows what its parts give.

Work `Returns` a result if it succeeds with it whatever was noted before. It `Records` references if it takes
no note away and the result tells which ones it adds. Both are shown for work that is put together by showing
them for its parts. Work that does nothing to notes but to note further references (`OnlyNotes`) **notes
nothing twice** (`OnlyNotes.nodup`), and **its outcome does not depend on what was noted before**
(`OnlyNotes.same`).
-/

namespace ContractSync.Resolving

variable {α β : Type} {work : Resolving α} {before after : Diagnostics} {a : α} {b : β}

/-- With the notes `before`, the work succeeds with `a` and leaves the notes `after`. -/
def Gives (work : Resolving α) (before : Diagnostics) (a : α) (after : Diagnostics) : Prop :=
  StateT.run work.run before = (.ok a, after)

theorem Gives.yields (h : Gives work before a after) : work.Yields a := ⟨before, after, h⟩

theorem Gives.bind {next : α → Resolving β} (h : Gives (work >>= next) before b after) :
    ∃ a between, Gives work before a between ∧ Gives (next a) between b after := by
  rw [Gives, ExceptT.run_bind, StateT.run_bind] at h
  cases hwork : StateT.run work.run before with
  | mk outcome between =>
    rw [hwork] at h
    cases outcome with
    | error fault => cases h
    | ok a => exact ⟨a, between, hwork, h⟩

theorem Gives.pure {a b : α} (h : Gives (Pure.pure a) before b after) : b = a ∧ after = before := by
  cases h
  exact ⟨rfl, rfl⟩

theorem Gives.map {f : α → β} (h : Gives (f <$> work) before b after) :
    ∃ a, Gives work before a after ∧ b = f a := by
  rw [← bind_pure_comp] at h
  obtain ⟨a, between, hwork, h⟩ := h.bind
  obtain ⟨hb, rfl⟩ := h.pure
  exact ⟨a, hwork, hb⟩

theorem Yields.map {f : α → β} (h : Yields (f <$> work) b) : ∃ a, work.Yields a ∧ b = f a := by
  obtain ⟨before, after, h⟩ := h
  obtain ⟨a, ha, hb⟩ := Gives.map h
  exact ⟨a, ha.yields, hb⟩

theorem Gives.lift {x : Except Fault α} (h : Gives (liftM x : Resolving α) before a after) :
    x = .ok a ∧ before = after := by
  cases h
  exact ⟨rfl, rfl⟩

theorem Gives.note {ref context : String} {u : Unit} (h : Gives (noteUnresolved ref context) before u after) :
    after = before.note ⟨ref, context⟩ := by
  cases h
  rfl

/-! ### Results whatever was noted -/

/-- Whatever was noted before, the work succeeds with `a`. -/
def Returns (work : Resolving α) (a : α) : Prop := ∀ before, ∃ after, Gives work before a after

theorem Returns.yields (h : Returns work a) : work.Yields a := ⟨{}, h {}⟩

theorem Returns.bind {next : α → Resolving β} (h : Returns work a) (hnext : Returns (next a) b) :
    Returns (work >>= next) b := by
  intro before
  obtain ⟨between, hwork⟩ := h before
  obtain ⟨after, hnext⟩ := hnext between
  refine ⟨after, ?_⟩
  rw [Gives, ExceptT.run_bind, StateT.run_bind, show StateT.run work.run before = (.ok a, between) from hwork]
  exact hnext

theorem Returns.pure (a : α) : Returns (Pure.pure a) a := fun before => ⟨before, rfl⟩

theorem Returns.map {f : α → β} (h : Returns work a) : Returns (f <$> work) (f a) := by
  rw [← bind_pure_comp]
  exact h.bind (.pure _)

theorem Returns.lift {x : Except Fault α} (h : x = .ok a) : Returns (liftM x : Resolving α) a :=
  fun before => ⟨before, by rw [h]; rfl⟩

theorem Returns.note (ref context : String) : Returns (noteUnresolved ref context) () :=
  fun before => ⟨before.note ⟨ref, context⟩, rfl⟩

/-! ### Notes that the result tells -/

/-- Where the work succeeds with `a`, the notes that it leaves are those before it and those in `P a`. -/
def Records (work : Resolving α) (P : α → Unresolved → Prop) : Prop :=
  ∀ before a after, Gives work before a after → ∀ u, u ∈ after.unresolved ↔ u ∈ before.unresolved ∨ P a u

section Records

variable {P : α → Unresolved → Prop} {Q : β → Unresolved → Prop}

theorem Records.pure {a : α} (h : ∀ u, ¬ P a u) : Records (Pure.pure a) P := by
  intro before b after hgives u
  obtain ⟨rfl, rfl⟩ := hgives.pure
  exact (or_iff_left (h u)).symm

theorem Records.map {f : α → β} (hwork : Records work P) (h : ∀ a u, Q (f a) u ↔ P a u) : Records (f <$> work) Q := by
  intro before b after hgives u
  obtain ⟨a, ha, rfl⟩ := hgives.map
  rw [hwork _ _ _ ha u, h]

theorem Records.lift_bind {x : Except Fault α} {next : α → Resolving β}
    (h : ∀ a, x = .ok a → Records (next a) Q) : Records ((liftM x : Resolving α) >>= next) Q := by
  intro before b after hgives u
  obtain ⟨a, between, ha, hb⟩ := hgives.bind
  obtain ⟨hx, rfl⟩ := ha.lift
  exact h a hx _ _ _ hb u

theorem Records.note_bind {ref context : String} {b : β} (h : ∀ u, Q b u ↔ u = ⟨ref, context⟩) :
    Records (do noteUnresolved ref context; return b) Q := by
  intro before b' after hgives u
  obtain ⟨_, between, hnote, hb⟩ := hgives.bind
  obtain ⟨rfl, rfl⟩ := hb.pure
  rw [hnote.note, Diagnostics.mem_note, h]

theorem Records.mapM {f : α → Resolving β} {items : List α} {R : α → Unresolved → Prop}
    (h : ∀ a ∈ items, Records (f a) fun _ => R a) : Records (items.mapM f) fun _ u => ∃ a ∈ items, R a u := by
  induction items with
  | nil => exact .pure (by simp)
  | cons a items ih =>
    rw [List.forall_mem_cons] at h
    intro before results after hgives u
    rw [List.mapM_cons] at hgives
    obtain ⟨b, between, hb, hgives⟩ := hgives.bind
    obtain ⟨more, _, hmore, hgives⟩ := hgives.bind
    obtain ⟨rfl, rfl⟩ := hgives.pure
    rw [ih h.2 _ _ _ hmore u, h.1 _ _ _ hb u, or_assoc]
    simp only [List.mem_cons, exists_eq_or_imp]

end Records

/-! ### Work that notes and does nothing else to notes -/

/-- Work that is put together from results, faults and notes of further references. -/
inductive OnlyNotes : ∀ {α : Type}, Resolving α → Prop
  | pure {α : Type} (a : α) : OnlyNotes (Pure.pure a)
  | lift {α : Type} (x : Except Fault α) : OnlyNotes (liftM x)
  | note (ref context : String) : OnlyNotes (noteUnresolved ref context)
  | bind {α β : Type} {work : Resolving α} {next : α → Resolving β} (hwork : OnlyNotes work)
      (hnext : ∀ a, OnlyNotes (next a)) : OnlyNotes (work >>= next)

namespace OnlyNotes

theorem map {f : α → β} (h : OnlyNotes work) : OnlyNotes (f <$> work) := by
  rw [← bind_pure_comp]
  exact h.bind fun _ => .pure _

theorem mapM {f : α → Resolving β} {items : List α} (h : ∀ a ∈ items, OnlyNotes (f a)) :
    OnlyNotes (items.mapM f) := by
  induction items with
  | nil => exact .pure []
  | cons a items ih =>
    rw [List.forall_mem_cons] at h
    rw [List.mapM_cons]
    exact h.1.bind fun b => (ih h.2).bind fun _ => .pure _

/-- **Nothing is noted twice**, whether the work succeeds or not. -/
theorem nodup (h : OnlyNotes work) {before : Diagnostics} (hbefore : before.unresolved.Nodup) :
    (StateT.run work.run before).2.unresolved.Nodup := by
  induction h generalizing before with
  | pure a => exact hbefore
  | lift x => cases x <;> exact hbefore
  | note ref context => exact Diagnostics.nodup_note hbefore _
  | @bind _ _ work next _ _ ihwork ihnext =>
    have hbetween := ihwork hbefore
    rw [ExceptT.run_bind, StateT.run_bind]
    cases hrun : StateT.run work.run before with
    | mk outcome between =>
      rw [hrun] at hbetween
      cases outcome with
      | error fault => exact hbetween
      | ok a => exact ihnext a hbetween

/-- **The outcome does not depend on what was noted before.** -/
theorem same (h : OnlyNotes work) : Same work work := by
  induction h with
  | pure a => exact .pure rfl
  | lift x => exact same_lift x
  | note ref context => exact same_note _ _ _ _
  | bind hwork hnext ihwork ihnext => exact ihwork.bind ihnext

theorem eq_of_yields (h : OnlyNotes work) {a b : α} (ha : work.Yields a) (hb : work.Yields b) : a = b := by
  obtain ⟨before, after, ha⟩ := ha
  obtain ⟨before', after', hb⟩ := hb
  have hall := h.same before before'
  rw [ha, hb] at hall
  exact hall

/-- What the work can succeed with, it always succeeds with. -/
theorem returns (h : OnlyNotes work) (ha : work.Yields a) : Returns work a := by
  intro before
  obtain ⟨first, last, ha⟩ := ha
  have hall := h.same first before
  rw [ha] at hall
  cases hrun : StateT.run work.run before with
  | mk outcome after =>
    rw [hrun] at hall
    cases outcome with
    | error fault => exact hall.elim
    | ok b =>
      obtain rfl : a = b := hall
      exact ⟨after, hrun⟩

/-- Which notes are added does not depend on what was noted before. -/
theorem records {P : α → Unresolved → Prop} (h : OnlyNotes work) (hrecords : Records work P) :
    Records work fun _ u => ∃ a, work.Yields a ∧ P a u := by
  intro before a after hgives u
  rw [hrecords _ _ _ hgives u]
  refine or_congr_right ⟨fun hu => ⟨a, hgives.yields, hu⟩, ?_⟩
  rintro ⟨b, hb, hu⟩
  rwa [h.eq_of_yields hgives.yields hb]

end OnlyNotes

end ContractSync.Resolving
