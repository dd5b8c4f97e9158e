import ContractSync.Workspace.FileTree

/-!
# Places in a tree of files

A path leads to the same place whenever it leads anywhere (`place`), and passes the same directories on the
way (`ways`): it can be followed exactly if these are there. A path hosts a file if the directories on its way
are there or can be made (`Hosts`). **What happens to the file at one path leaves alone what is at other
places**, except that directories are made where nothing was (`Touches`); so other paths host what they
hosted before (`Hosts.of_touches`).
-/

namespace ContractSync.FileTree

variable {t t' t'' : FileTree} {l : Location} {n : FileNode} {p q : PathName}

/-! ### What is put at a place -/

theorem get?_put_of_ne {l' : Location} (h : l' ≠ l) : (t.put l n).get? l' = t.get? l' := by
  have hne : (l' == l) = false := beq_eq_false_iff_ne.mpr h
  have hmap : ∀ nodes : List (Location × FileNode),
      (nodes.map fun e => if e.1 == l then (l, n) else e).lookup l' = nodes.lookup l' := by
    intro nodes
    induction nodes with
    | nil => rfl
    | cons e nodes ih =>
      obtain ⟨at_, node⟩ := e
      rw [List.map_cons]
      split
      · rename_i heq
        dsimp only at heq
        rw [List.lookup_cons, List.lookup_cons, hne, ih, eq_of_beq heq, hne]
      · rw [List.lookup_cons, List.lookup_cons, ih]
  unfold get? put
  split
  · rfl
  · split
    · exact hmap t.nodes
    · rw [List.lookup_append, List.lookup_cons, hne, List.lookup_nil, Option.or_none]

theorem get?_put_self (h : l.all isOutside = false) : (t.put l n).get? l = some n := by
  have hmap : ∀ nodes : List (Location × FileNode), (nodes.any fun e => e.1 == l) = true →
      (nodes.map fun e => if e.1 == l then (l, n) else e).lookup l = some n := by
    intro nodes hany
    induction nodes with
    | nil => cases hany
    | cons e nodes ih =>
      obtain ⟨at_, node⟩ := e
      rw [List.map_cons]
      split
      · rw [List.lookup_cons, beq_self_eq_true]
      · rename_i hne
        rw [List.any_cons, Bool.or_eq_true] at hany
        rw [List.lookup_cons, BEq.comm, Bool.eq_false_iff.mpr hne]
        exact ih (hany.resolve_left hne)
  have hnone : ∀ nodes : List (Location × FileNode), (nodes.any fun e => e.1 == l) = false →
      nodes.lookup l = none := by
    intro nodes hany
    induction nodes with
    | nil => rfl
    | cons e nodes ih =>
      rw [List.any_cons, Bool.or_eq_false_iff] at hany
      rw [List.lookup_cons, BEq.comm, hany.1]
      exact ih hany.2
  unfold get? put
  rw [h, if_neg Bool.false_ne_true]
  split
  · exact hmap t.nodes ‹_›
  · rename_i hany
    rw [List.lookup_append, hnone t.nodes (Bool.not_eq_true _ ▸ hany), Option.none_or, List.lookup_cons,
      beq_self_eq_true]

theorem not_isOutside (h : t.get? l ≠ some .directory) : l.all isOutside = false := by
  rw [← Bool.not_eq_true]
  intro houtside
  rw [get?, if_pos houtside] at h
  exact h rfl

/-! ### Places -/

/-- The places that the steps pass before the last one. -/
def passed : Location → List String → List Location
  | _, [] => []
  | l, step :: rest => l :: passed (next l step) rest

/-- The place that a path leads to. -/
def place (p : PathName) : Location := p.steps.foldl next (start p.root)

/-- The places on the way to it. -/
def ways (p : PathName) : List Location := passed (start p.root) p.steps

theorem passed_append (l : Location) (steps more : List String) :
    passed l (steps ++ more) = passed l steps ++ passed (steps.foldl next l) more := by
  induction steps generalizing l with
  | nil => rfl
  | cons step steps ih => rw [List.cons_append, passed, ih]; rfl

theorem steps_parent (h : p.steps ≠ []) : ∃ last, p.steps = p.parent.steps ++ [last] :=
  ⟨p.steps.getLast h, (List.dropLast_concat_getLast h).symm⟩

/-- On the way to a path is what is on the way to its directory, and the directory. -/
theorem ways_of_ne_nil (h : p.steps ≠ []) : ways p = ways p.parent ++ [place p.parent] := by
  obtain ⟨last, hsteps⟩ := steps_parent h
  rw [ways, hsteps, passed_append]
  rfl

theorem place_of_nil (h : p.steps = []) : t.get? (place p) = some .directory := by
  rw [place, h]
  cases p.root <;> rfl

theorem follow_of_directories {l : Location} {steps : List String}
    (h : ∀ w ∈ passed l steps, t.get? w = some .directory) : t.follow l steps = .ok (steps.foldl next l) := by
  induction steps generalizing l with
  | nil => rfl
  | cons step steps ih =>
    obtain ⟨hfirst, hrest⟩ := List.forall_mem_cons.mp h
    rw [follow, hfirst]
    exact ih hrest

theorem follow_of_missing {l : Location} {steps : List String}
    (h : ∀ w ∈ passed l steps, t.get? w = none ∨ t.get? w = some .directory)
    (hmissing : ∃ w ∈ passed l steps, t.get? w = none) : t.follow l steps = .error .notFound := by
  induction steps generalizing l with
  | nil =>
    obtain ⟨w, hw, -⟩ := hmissing
    cases hw
  | cons step steps ih =>
    obtain ⟨hfirst, hrest⟩ := List.forall_mem_cons.mp h
    rw [follow]
    obtain hnone | hthere := hfirst
    · rw [hnone]
    · rw [hthere]
      obtain ⟨w, hw, hnone⟩ := hmissing
      obtain rfl | hw := List.mem_cons.mp hw
      · rw [hthere] at hnone
        cases hnone
      · exact ih hrest ⟨w, hw, hnone⟩

/-- The directories on the way are there. -/
def IsOpen (t : FileTree) (p : PathName) : Prop := ∀ w ∈ ways p, t.get? w = some .directory

/-- The directories on the way are there or can be made. -/
def CanOpen (t : FileTree) (p : PathName) : Prop := ∀ w ∈ ways p, t.get? w = none ∨ t.get? w = some .directory

instance : Decidable (t.IsOpen p) := inferInstanceAs (Decidable (∀ w ∈ ways p, _))

instance : Decidable (t.CanOpen p) := inferInstanceAs (Decidable (∀ w ∈ ways p, _))

theorem IsOpen.locate (h : t.IsOpen p) : t.locate p = .ok (place p) := follow_of_directories h

theorem CanOpen.locate (h : t.CanOpen p) (hopen : ¬ t.IsOpen p) : t.locate p = .error .notFound := by
  refine follow_of_missing h ?_
  obtain ⟨w, hw⟩ := Classical.not_forall.mp hopen
  obtain ⟨hw, hne⟩ := Classical.not_imp.mp hw
  exact ⟨w, hw, (h w hw).resolve_right hne⟩

theorem IsOpen.kindOf_directory (h : t.IsOpen p) (hthere : t.get? (place p) = some .directory) :
    t.kindOf p = some .directory := by
  rw [kindOf, h.locate]
  dsimp only
  rw [hthere]
  rfl

theorem IsOpen.write (h : t.IsOpen p) (hplace : t.get? (place p) ≠ some .directory) (bytes : List UInt8) :
    t.write p bytes = .ok (t.put (place p) (.file bytes)) := by
  rw [FileTree.write, h.locate]
  simp only [bind, Except.bind]
  cases hnode : t.get? (place p) with
  | none => rfl
  | some node =>
    cases node with
    | file _ => rfl
    | directory => exact absurd hnode hplace

/-! ### Paths that host a file -/

/-- The bytes of the file that a path leads to, if there is one. -/
def contents (t : FileTree) (p : PathName) : Option (List UInt8) :=
  match t.get? (place p) with
  | some (.file bytes) => some bytes
  | _ => none

/-- The path leads to a file, or to a place where one can be: no directory is there, and those on the way
are there or can be made. -/
structure Hosts (t : FileTree) (p : PathName) : Prop where
  canOpen : t.CanOpen p
  apart : place p ∉ ways p
  noDirectory : t.get? (place p) ≠ some .directory
  reached : t.get? (place p) ≠ none → t.IsOpen p

theorem hosts_iff : t.Hosts p ↔ t.CanOpen p ∧ place p ∉ ways p ∧ t.get? (place p) ≠ some .directory ∧
    (t.get? (place p) ≠ none → t.IsOpen p) :=
  ⟨fun h => ⟨h.canOpen, h.apart, h.noDirectory, h.reached⟩, fun ⟨h₁, h₂, h₃, h₄⟩ => ⟨h₁, h₂, h₃, h₄⟩⟩

instance : Decidable (t.Hosts p) := decidable_of_iff' _ hosts_iff

/-- What is at the place of a path may have changed; elsewhere directories may have been made on its way. -/
def Touches (p : PathName) (t t' : FileTree) : Prop :=
  ∀ l ≠ place p, t'.get? l = t.get? l ∨ (l ∈ ways p ∧ t.get? l = none ∧ t'.get? l = some .directory)

theorem Touches.refl (p : PathName) (t : FileTree) : Touches p t t := fun _ _ => .inl rfl

theorem Hosts.get?_place (h : t.Hosts p) : t.get? (place p) = (t.contents p).map .file := by
  unfold contents
  cases hget : t.get? (place p) with
  | none => rfl
  | some node =>
    cases node with
    | file bytes => rfl
    | directory => exact absurd hget h.noDirectory

/-- Something is at the path if it leads to a file. -/
theorem Hosts.isSome_kindOf (h : t.Hosts p) : (t.kindOf p).isSome = (t.contents p).isSome := by
  rw [kindOf]
  by_cases hopen : t.IsOpen p
  · rw [hopen.locate]
    dsimp only
    rw [h.get?_place, Option.isSome_map, Option.isSome_map]
  · rw [h.canOpen.locate hopen]
    have hnone : t.get? (place p) = none := Classical.not_not.mp fun hthere => hopen (h.reached hthere)
    rw [h.get?_place, Option.map_eq_none_iff] at hnone
    rw [hnone]
    rfl

theorem Hosts.read {bytes : List UInt8} (h : t.Hosts p) (hbytes : t.contents p = some bytes) :
    t.read p = .ok bytes := by
  have hplace := h.get?_place
  rw [hbytes] at hplace
  rw [FileTree.read, (h.reached (hplace ▸ Option.some_ne_none _)).locate]
  simp only [bind, Except.bind, hplace, Option.map_some]
  rfl

theorem Touches.get?_directory (h : Touches p t t') (hl : l ≠ place p) (hdirectory : t.get? l = some .directory) :
    t'.get? l = some .directory := by
  obtain heq | ⟨-, -, hmade⟩ := h l hl
  · exact heq.trans hdirectory
  · exact hmade

/-- The file at another path is left alone. -/
theorem Touches.get?_place (h : Touches p t t') (hne : place q ≠ place p) (hway : place q ∉ ways p) :
    t'.get? (place q) = t.get? (place q) :=
  (h (place q) hne).resolve_right fun hmade => hway hmade.1

theorem Touches.contents (h : Touches p t t') (hne : place q ≠ place p) (hway : place q ∉ ways p) :
    t'.contents q = t.contents q := by
  rw [FileTree.contents, h.get?_place hne hway]
  rfl

/-- **Another path hosts what it hosted before.** -/
theorem Hosts.of_touches (h : t.Hosts q) (htouches : Touches p t t') (hne : place q ≠ place p)
    (hway : place q ∉ ways p) (hback : place p ∉ ways q) : t'.Hosts q := by
  have hplace := htouches.get?_place hne hway
  refine ⟨fun w hw => ?_, h.apart, hplace ▸ h.noDirectory, fun hthere w hw => ?_⟩
  · have hw' : w ≠ place p := fun heq => hback (heq ▸ hw)
    obtain heq | ⟨-, -, hmade⟩ := htouches w hw'
    · exact heq ▸ h.canOpen w hw
    · exact .inr hmade
  · rw [hplace] at hthere
    exact htouches.get?_directory (fun heq => hback (heq ▸ hw)) (h.reached hthere w hw)

end ContractSync.FileTree

/-!
## Files in a session

What reading and writing come to in a session. **A text can be written wherever a path hosts a file**: the
directories on the way are made as far as they are missing, and no other place is touched
(`writeText_runs`). Reading finds the bytes that are at the place of the path (`readText_runs`).
-/

namespace ContractSync

namespace Session

open FileTree (place ways)
open Workspace (ensureDirectory)

variable {α β : Type} {s s' s'' : Session} {p : PathName}

/-- The work ends with a result, in a session. -/
def Runs (work : StateM Session α) (s : Session) (a : α) (s' : Session) : Prop := StateT.run work s = (a, s')

theorem Runs.pure (a : α) (s : Session) : Runs (Pure.pure a) s a s := rfl

theorem Runs.bind {work : StateM Session α} {next : α → StateM Session β} {a : α} {b : β}
    (h : Runs work s a s') (hnext : Runs (next a) s' b s'') : Runs (work >>= next) s b s'' := by
  rw [Runs, StateT.run_bind, h]
  exact hnext

/-- Work that can fail, a step of which has succeeded. -/
theorem Runs.bind_ok {ε : Type} {work : ExceptT ε (StateM Session) α}
    {next : α → ExceptT ε (StateM Session) β} {a : α} {b : Except ε β} (h : Runs work.run s (.ok a) s')
    (hnext : Runs (next a).run s' b s'') : Runs (work >>= next).run s b s'' := by
  rw [ExceptT.run_bind]
  exact h.bind hnext

theorem Runs.lift_bind {ε : Type} {work : StateM Session α} {next : α → ExceptT ε (StateM Session) β} {a : α}
    {b : Except ε β} (h : Runs work s a s') (hnext : Runs (next a).run s' b s'') :
    Runs (liftM work >>= next).run s b s'' := by
  have hlift : (liftM work : ExceptT ε (StateM Session) α) = ExceptT.lift work := rfl
  rw [hlift, ExceptT.run_bind_lift]
  exact h.bind hnext

theorem kindOf_runs (p : PathName) (s : Session) :
    Runs (Workspace.kindOf p) s (s.files.kindOf p) s := rfl

theorem isPresent_runs (p : PathName) (s : Session) :
    Runs (Workspace.isPresent p) s (s.files.kindOf p).isSome s := rfl

theorem sayLine_runs (line : String) (s : Session) :
    ∃ s', Runs (Workspace.sayLine line) s () s' ∧ s'.files = s.files := ⟨_, rfl, rfl⟩

theorem change_runs_ok {f : FileTree → Except FileFault FileTree} {t : FileTree} (h : f s.files = .ok t) :
    Runs (change f) s (.ok ()) { s with files := t } := by
  rw [Runs, change, StateT.run_modifyGet, h]
  rfl

theorem change_runs_error {f : FileTree → Except FileFault FileTree} {fault : FileFault}
    (h : f s.files = .error fault) : Runs (change f) s (.error fault) s := by
  rw [Runs, change, StateT.run_modifyGet, h]
  rfl

/-! ### Directories -/

/-- All these places are directories now, and nothing else has changed. -/
structure Opens (places : List Location) (t t' : FileTree) : Prop where
  there : ∀ l ∈ places, t'.get? l = some .directory
  kept : ∀ l, l ∉ places → t'.get? l = t.get? l

theorem Opens.directory {places : List Location} {t t' : FileTree} (h : Opens places t t') {l : Location}
    (hl : t.get? l = some .directory) : t'.get? l = some .directory := by
  by_cases hmem : l ∈ places
  · exact h.there l hmem
  · exact (h.kept l hmem).trans hl

/-- A directory whose way is open is there afterwards. -/
theorem makeDirectory_runs (hopen : s.files.IsOpen p)
    (hfree : s.files.get? (place p) = none ∨ s.files.get? (place p) = some .directory) :
    ∃ result s', Runs (Workspace.makeDirectory p) s result s' ∧
      (result = .ok () ∨ result = .error .alreadyThere) ∧
      s'.files.kindOf p = some .directory ∧ Opens [place p] s.files s'.files := by
  obtain hnone | hthere := hfree
  · have hvacant : s.files.get? (place p) ≠ some .directory := hnone ▸ (Option.some_ne_none _).symm
    have hput : (s.files.put (place p) .directory).get? (place p) = some .directory :=
      FileTree.get?_put_self (FileTree.not_isOutside hvacant)
    have hmake : s.files.makeDirectory p = .ok (s.files.put (place p) .directory) := by
      rw [FileTree.makeDirectory, hopen.locate]
      simp only [bind, Except.bind, hnone]
      rfl
    have hopens : Opens [place p] s.files (s.files.put (place p) .directory) :=
      ⟨List.forall_mem_singleton.mpr hput, fun l hl => FileTree.get?_put_of_ne (List.ne_of_not_mem_cons hl)⟩
    exact ⟨_, _, change_runs_ok hmake, .inl rfl,
      FileTree.IsOpen.kindOf_directory (fun w hw => hopens.directory (hopen w hw)) hput, hopens⟩
  · have hmake : s.files.makeDirectory p = .error .alreadyThere := by
      rw [FileTree.makeDirectory, hopen.locate]
      simp only [bind, Except.bind, hthere]
      rfl
    exact ⟨_, s, change_runs_error hmake, .inr rfl, hopen.kindOf_directory hthere,
      List.forall_mem_singleton.mpr hthere, fun _ _ => rfl⟩

theorem ensureDirectory_of_open {depth : Nat} (hopen : s.files.IsOpen p)
    (hfree : s.files.get? (place p) = none ∨ s.files.get? (place p) = some .directory) :
    ∃ s', Runs (ensureDirectory depth p) s (.ok ()) s' ∧ Opens [place p] s.files s'.files := by
  obtain ⟨result, s', hmake, hresult, hkind, hopens⟩ := makeDirectory_runs hopen hfree
  unfold ensureDirectory
  refine ⟨s', hmake.bind ?_, hopens⟩
  obtain rfl | rfl := hresult
  · exact .pure _ _
  · refine (kindOf_runs p s').bind ?_
    rw [if_pos hkind]
    exact .pure _ _

/-- **A directory is there afterwards** if those on its way are there or can be made. -/
theorem ensureDirectory_runs {depth : Nat} (hdepth : p.steps.length ≤ depth) (hways : s.files.CanOpen p)
    (hfree : s.files.get? (place p) = none ∨ s.files.get? (place p) = some .directory) :
    ∃ s', Runs (ensureDirectory depth p) s (.ok ()) s' ∧ Opens (ways p ++ [place p]) s.files s'.files := by
  induction depth generalizing p with
  | zero =>
    have hnil : p.steps = [] := List.length_eq_zero_iff.mp (Nat.le_zero.mp hdepth)
    have hways : ways p = [] := by rw [ways, hnil]; rfl
    rw [hways]
    exact ensureDirectory_of_open (fun w hw => absurd (hways ▸ hw) List.not_mem_nil) hfree
  | succ depth ih =>
    by_cases hopen : s.files.IsOpen p
    · obtain ⟨s', hrun, hopens⟩ := ensureDirectory_of_open hopen hfree
      exact ⟨s', hrun, List.forall_mem_append.mpr ⟨fun w hw => hopens.directory (hopen w hw), hopens.there⟩,
        fun l hl => hopens.kept l fun hmem => hl (List.mem_append_right _ hmem)⟩
    · have hmissing : Runs (Workspace.makeDirectory p) s (.error .notFound) s := by
        refine change_runs_error ?_
        rw [FileTree.makeDirectory, hways.locate hopen]
        rfl
      have hne : p.steps ≠ [] := by
        intro hnil
        refine hopen fun w hw => ?_
        rw [ways, hnil] at hw
        cases hw
      have hsplit := FileTree.ways_of_ne_nil hne
      rw [FileTree.CanOpen, hsplit, List.forall_mem_append, List.forall_mem_singleton] at hways
      have hshort : p.parent.steps.length ≤ depth := by
        rw [PathName.parent, List.length_dropLast]
        exact Nat.sub_le_of_le_add hdepth
      obtain ⟨s₁, hparent, hopens⟩ := ih hshort hways.1 hways.2
      rw [← hsplit] at hopens
      have hfree₁ : s₁.files.get? (place p) = none ∨ s₁.files.get? (place p) = some .directory := by
        by_cases hway : place p ∈ ways p
        · exact .inr (hopens.there _ hway)
        · rwa [hopens.kept _ hway]
      obtain ⟨result, s₂, hmake, hresult, hkind, hopens₂⟩ := makeDirectory_runs hopens.there hfree₁
      refine ⟨s₂, ?_, List.forall_mem_append.mpr
        ⟨fun w hw => hopens₂.directory (hopens.there w hw), hopens₂.there⟩, fun l hl => ?_⟩
      · unfold ensureDirectory
        refine hmissing.bind (hparent.bind (hmake.bind ?_))
        obtain rfl | rfl := hresult
        · exact .pure _ _
        · refine (kindOf_runs p s₂).bind ?_
          rw [if_pos ⟨by decide, hkind⟩]
          exact .pure _ _
      · rw [List.mem_append, not_or] at hl
        exact (hopens₂.kept l hl.2).trans (hopens.kept l hl.1)

/-! ### Files -/

/-- The text of bytes that were read. -/
def textOf (bytes : List UInt8) : Except ReadFault (List Char) :=
  match Text.Utf8.decode bytes with
  | .error failure => .error (.encoding failure)
  | .ok text => .ok (Text.unifyLineEnds text)

/-- Reading finds the bytes at the place of the path. -/
theorem readText_runs {bytes : List UInt8} (h : s.files.Hosts p) (hbytes : s.files.contents p = some bytes) :
    Runs (Workspace.readText p) s (textOf bytes) s := by
  have hread : Runs (Workspace.read p) s (.ok bytes) s := by
    rw [← h.read hbytes]
    rfl
  refine hread.bind ?_
  cases hdecode : Text.Utf8.decode bytes with
  | error failure =>
    rw [textOf, hdecode]
    simp only [hdecode]
    exact .pure _ _
  | ok text =>
    rw [textOf, hdecode]
    simp only [hdecode]
    exact .pure _ _

/-- **A text can be written where a path hosts a file**, and nothing else changes but that directories on the
way are made. -/
theorem writeText_runs (h : s.files.Hosts p) (text : List Char) :
    ∃ s', Runs (Workspace.writeText p text) s (.ok ()) s' ∧
      s'.files.get? (place p) = some (.file (Text.Utf8.encode text)) ∧
      FileTree.Touches p s.files s'.files := by
  have hne : p.steps ≠ [] := fun hnil => h.noDirectory (FileTree.place_of_nil hnil)
  have hsplit := FileTree.ways_of_ne_nil hne
  have hways := h.canOpen
  rw [FileTree.CanOpen, hsplit, List.forall_mem_append, List.forall_mem_singleton] at hways
  obtain ⟨s₁, hensure, hopens⟩ := ensureDirectory_runs (Nat.le_refl _) hways.1 hways.2
  rw [← hsplit] at hopens
  have hplace : s₁.files.get? (place p) ≠ some .directory := by
    rw [hopens.kept _ h.apart]
    exact h.noDirectory
  have hwrite : Runs (Workspace.write p (Text.Utf8.encode text)) s₁ (.ok ()) _ :=
    change_runs_ok (FileTree.IsOpen.write hopens.there hplace _)
  refine ⟨_, hensure.bind (hwrite.bind (.pure _ _)), FileTree.get?_put_self (FileTree.not_isOutside hplace),
    fun l hl => ?_⟩
  dsimp only
  rw [FileTree.get?_put_of_ne hl]
  by_cases hway : l ∈ ways p
  · obtain hnone | hthere := h.canOpen l hway
    · exact .inr ⟨hway, hnone, hopens.there l hway⟩
    · exact .inl ((hopens.there l hway).trans hthere.symm)
  · exact .inl (hopens.kept l hway)

end Session

end ContractSync
