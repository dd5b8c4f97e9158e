import ContractSync.Proofs.Workspace.FileTree
import ContractSync.Sync.File

/-!
# Files kept in step, each on its own

A job is a file and how it is brought up to date. **One job** ends in one of four ways: the file cannot be
read, or cannot be brought up to date, and stays; it is up to date already; or it is written anew
(`syncFile_runs`). **Many jobs** do not get in each other's way: what becomes of a file depends on what the
file held at the start, whatever becomes of the others, and each is reported once (`Batch.fate`,
`Batch.files`, `Batch.kept`).
-/

namespace ContractSync.Sync

open FileTree (place ways Touches)
open Session (Runs)

/-! ### Reports -/

namespace Report

variable {r r' : Report}

/-- The files that the report is about. -/
def files (r : Report) : List PathName := r.written ++ r.unchanged ++ r.failed.map (·.1)

theorem append_eq (r r' : Report) : r ++ r' =
    ⟨r.written ++ r'.written, r.unchanged ++ r'.unchanged, r.failed ++ r'.failed, r.warnings ++ r'.warnings⟩ :=
  rfl

theorem append_assoc (r r' r'' : Report) : r ++ r' ++ r'' = r ++ (r' ++ r'') := by
  simp only [append_eq, List.append_assoc]

theorem append_empty (r : Report) : r ++ ({} : Report) = r := by
  simp only [append_eq, List.append_nil]

theorem foldl_append (r : Report) (reports : List Report) :
    reports.foldl append r = r ++ reports.foldl append {} := by
  induction reports generalizing r with
  | nil => exact (append_empty r).symm
  | cons first reports ih =>
    rw [List.foldl_cons, List.foldl_cons, ih, ih (append {} first)]
    exact append_assoc r first _

theorem perm_swap {α : Type} (a a' b b' : List α) : (a ++ a' ++ (b ++ b')).Perm (a ++ b ++ (a' ++ b')) := by
  rw [List.append_assoc, List.append_assoc]
  exact (List.perm_append_comm_assoc a' b b').append_left a

theorem files_append (r r' : Report) : (r ++ r').files.Perm (r.files ++ r'.files) := by
  simp only [files, append_eq, List.map_append]
  exact ((perm_swap r.written _ r.unchanged _).append_right _).trans (perm_swap _ _ _ _)

/-- What the first report says of files, the second one says too. -/
structure Within (r r' : Report) : Prop where
  written : r.written ⊆ r'.written
  unchanged : r.unchanged ⊆ r'.unchanged
  failed : r.failed ⊆ r'.failed

theorem within_append_left (r r' : Report) : r.Within (r ++ r') :=
  ⟨List.subset_append_left _ _, List.subset_append_left _ _, List.subset_append_left _ _⟩

theorem within_append_right (r r' : Report) : r'.Within (r ++ r') :=
  ⟨List.subset_append_right _ _, List.subset_append_right _ _, List.subset_append_right _ _⟩

end Report

/-! ### One file -/

/-- The text that the bytes of a file count as; a missing file counts as an empty one. -/
def sourceOf (p : PathName) : Option (List UInt8) → Except SyncError (List Char)
  | none => .ok []
  | some bytes => (Session.textOf bytes).mapError fun fault => ⟨.readFailed fault, some p.toString⟩

/-- A file, and how its text is brought up to date. -/
structure Job where
  path : PathName
  update : List Char → Except Halt (List Char)

/-- What becomes of the file of a job, by its bytes before and after, and what the report says of it. -/
inductive Fate (report : Report) (job : Job) (before : Option (List UInt8)) : Option (List UInt8) → Prop where
  | unread {e : SyncError} (hread : sourceOf job.path before = .error e)
      (hreport : (job.path, e.message) ∈ report.failed) : Fate report job before before
  | refused {old : List Char} {e : SyncError} (hread : sourceOf job.path before = .ok old)
      (hupdate : job.update old = .error (.error e)) (hreport : (job.path, e.message) ∈ report.failed) :
      Fate report job before before
  | unchanged {old : List Char} (hread : sourceOf job.path before = .ok old)
      (hupdate : job.update old = .ok old) (hthere : before.isSome = true)
      (hreport : job.path ∈ report.unchanged) : Fate report job before before
  | written {old new : List Char} (hread : sourceOf job.path before = .ok old)
      (hupdate : job.update old = .ok new) (hchanged : new ≠ old ∨ before = none)
      (hreport : job.path ∈ report.written) : Fate report job before (some (Text.Utf8.encode new))

theorem Fate.mono {r r' : Report} {job : Job} {before after : Option (List UInt8)}
    (h : Fate r job before after) (hwithin : r.Within r') : Fate r' job before after := by
  cases h with
  | unread hread hreport => exact .unread hread (hwithin.failed hreport)
  | refused hread hupdate hreport => exact .refused hread hupdate (hwithin.failed hreport)
  | unchanged hread hupdate hthere hreport => exact .unchanged hread hupdate hthere (hwithin.unchanged hreport)
  | written hread hupdate hchanged hreport => exact .written hread hupdate hchanged (hwithin.written hreport)

/-- What one job comes to. -/
structure Processes (job : Job) (t t' : FileTree) (report : Report) : Prop where
  fate : Fate report job (t.contents job.path) (t'.contents job.path)
  files : report.files = [job.path]
  touches : Touches job.path t t'

variable {s s' : Session} {p : PathName} {job : Job}

theorem readSource_runs (h : s.files.Hosts p) :
    Runs (readSource p) s (sourceOf p (s.files.contents p)) s := by
  refine (Session.isPresent_runs p s).bind ?_
  rw [h.isSome_kindOf]
  cases hbytes : s.files.contents p with
  | none => exact .pure _ _
  | some bytes =>
    rw [Option.isSome_some, if_pos rfl]
    refine (Session.readText_runs h hbytes).bind ?_
    rw [sourceOf]
    cases Session.textOf bytes <;> exact .pure _ _

/-- The text is written unless the file is there and holds it. -/
theorem writeSource_runs (h : s.files.Hosts job.path) {old new : List Char}
    (hread : sourceOf job.path (s.files.contents job.path) = .ok old) (hupdate : job.update old = .ok new) :
    ∃ report s', Runs (writeSource job.path old new) s report s' ∧ Processes job s.files s'.files report := by
  by_cases hsame : new = old ∧ (s.files.contents job.path).isSome = true
  · obtain ⟨rfl, hthere⟩ := hsame
    refine ⟨{ unchanged := [job.path] }, s, ?_, .unchanged hread hupdate hthere
      (List.mem_singleton_self _), rfl, .refl _ _⟩
    unfold writeSource
    rw [if_pos (beq_self_eq_true _)]
    refine (Session.isPresent_runs _ s).bind ?_
    rw [h.isSome_kindOf, hthere]
    exact .pure _ _
  · obtain ⟨s', hwrite, hplace, htouches⟩ := Session.writeText_runs h new
    have hcontents : s'.files.contents job.path = some (Text.Utf8.encode new) := by
      rw [FileTree.contents, hplace]
    have hchanged : new ≠ old ∨ s.files.contents job.path = none := by
      rw [← Option.not_isSome_iff_eq_none]
      exact Classical.not_and_iff_not_or_not.mp hsame
    refine ⟨{ written := [job.path] }, s', ?_, ?_, rfl, htouches⟩
    · unfold writeSource
      split
      · rename_i heq
        refine (Session.isPresent_runs _ s).bind ?_
        have hmissing := hchanged.resolve_left fun hne => hne (eq_of_beq heq).symm
        rw [h.isSome_kindOf, hmissing]
        exact hwrite.bind (.pure _ _)
      · exact hwrite.bind (.pure _ _)
    · rw [hcontents]
      exact .written hread hupdate hchanged (List.mem_singleton_self _)

/-- The work on a job that brings its file up to date, in every session in which the path hosts one. -/
def Serves (work : ExceptT Fault (StateM Session) Report) (job : Job) : Prop :=
  ∀ s : Session, s.files.Hosts job.path →
    ∃ report s', Runs work.run s (.ok report) s' ∧ Processes job s.files s'.files report

/-- **One job**: an error on the way concerns this file alone, and goes into the report. -/
theorem syncFile_serves (hfault : ∀ old f, job.update old ≠ .error (.fault f)) :
    Serves (syncFile job.path fun old => (job.update old).map fun source => { source }) job := by
  intro s h
  have hfailed : ∀ e, Fate (.failure job.path e) job (s.files.contents job.path) (s.files.contents job.path) →
      Processes job s.files s.files (.failure job.path e) := fun e hfate => ⟨hfate, rfl, .refl _ _⟩
  have hread := readSource_runs h
  cases hold : sourceOf job.path (s.files.contents job.path) with
  | error e =>
    rw [hold] at hread
    exact ⟨_, s, hread.lift_bind (.pure _ _), hfailed e (.unread hold (List.mem_singleton_self _))⟩
  | ok old =>
    rw [hold] at hread
    cases hupdate : job.update old with
    | error halt =>
      cases halt with
      | error e =>
        refine ⟨.failure job.path e, s, hread.lift_bind ?_,
          hfailed e (.refused hold hupdate (List.mem_singleton_self _))⟩
        simp only [hupdate, Except.map]
        exact .pure _ _
      | fault f => exact absurd hupdate (hfault old f)
    | ok new =>
      obtain ⟨report, s', hwrite, hprocesses⟩ := writeSource_runs h hold hupdate
      refine ⟨report, s', hread.lift_bind ?_, hprocesses⟩
      simp only [hupdate, Except.map]
      exact hwrite.lift_bind (.pure _ _)

/-! ### Many files -/

/-- Files that can be kept in step side by side: each path hosts one, no two lead to the same place, and none
is on the way to another. -/
structure Layout (t : FileTree) (paths : List PathName) : Prop where
  hosts : ∀ p ∈ paths, t.Hosts p
  distinct : (paths.map place).Nodup
  apart : ∀ p ∈ paths, ∀ q ∈ paths, place p ∉ ways q

/-- Jobs done one after the other, each on the tree that the ones before it leave. -/
inductive Batch : List Job → FileTree → FileTree → Report → Prop where
  | nil (t : FileTree) : Batch [] t t {}
  | cons {job : Job} {jobs : List Job} {t t₁ t₂ : FileTree} {r r' : Report} (hfirst : Processes job t t₁ r)
      (hrest : Batch jobs t₁ t₂ r') : Batch (job :: jobs) t t₂ (r ++ r')

variable {jobs jobs' : List Job} {t t₁ t₂ t' : FileTree} {r r' : Report} {paths : List PathName}

theorem Layout.of_append {more : List PathName} (h : Layout t (paths ++ more)) : Layout t paths where
  hosts p hp := h.hosts p (List.mem_append_left more hp)
  distinct := h.distinct.sublist ((List.sublist_append_left paths more).map place)
  apart p hp q hq := h.apart p (List.mem_append_left more hp) q (List.mem_append_left more hq)

/-- The files that are still to come are not disturbed. -/
theorem Layout.of_touches (h : Layout t (p :: paths)) (htouches : Touches p t t') : Layout t' paths := by
  obtain ⟨hfirst, hdistinct⟩ := List.nodup_cons.mp h.distinct
  refine ⟨fun q hq => ?_, hdistinct, fun q hq => ?_⟩
  · have hq' := List.mem_cons_of_mem p hq
    exact (h.hosts q hq').of_touches htouches (fun heq => hfirst (heq ▸ List.mem_map_of_mem hq))
      (h.apart q hq' p List.mem_cons_self) (h.apart p List.mem_cons_self q hq')
  · exact fun q' hq' => h.apart q (List.mem_cons_of_mem p hq) q' (List.mem_cons_of_mem p hq')

namespace Batch

theorem append (h : Batch jobs t t₁ r) (h' : Batch jobs' t₁ t₂ r') : Batch (jobs ++ jobs') t t₂ (r ++ r') := by
  induction h with
  | nil => exact h'
  | cons hfirst _ ih =>
    rw [Report.append_assoc]
    exact .cons hfirst (ih h')

theorem singleton (h : Processes job t t' r) : Batch [job] t t' r :=
  Report.append_empty r ▸ .cons h (.nil t')

theorem layout (h : Batch jobs t t' r) (hlayout : Layout t (jobs.map Job.path ++ paths)) : Layout t' paths := by
  induction h with
  | nil => exact hlayout
  | cons hfirst _ ih => exact ih (hlayout.of_touches hfirst.touches)

/-- **No other file is touched**; elsewhere only directories are made, where nothing was. -/
theorem kept (h : Batch jobs t t' r) : ∀ l, l ∉ jobs.map (place ·.path) → t'.get? l = t.get? l ∨
    (∃ job ∈ jobs, l ∈ ways job.path) ∧ t.get? l = none ∧ t'.get? l = some .directory := by
  induction h with
  | nil => exact fun _ _ => .inl rfl
  | @cons job jobs t t₁ t₂ r r' hfirst _ ih =>
    intro l hl
    rw [List.map_cons, List.mem_cons, not_or] at hl
    obtain heq | ⟨hway, hnone, hmade⟩ := hfirst.touches l hl.1
    · obtain heq' | ⟨⟨other, hother, hway⟩, hnone, hmade⟩ := ih l hl.2
      · exact .inl (heq'.trans heq)
      · exact .inr ⟨⟨other, List.mem_cons_of_mem job hother, hway⟩, heq ▸ hnone, hmade⟩
    · refine .inr ⟨⟨job, List.mem_cons_self, hway⟩, hnone, ?_⟩
      obtain heq' | ⟨-, hnone', -⟩ := ih l hl.2
      · exact heq'.trans hmade
      · rw [hmade] at hnone'
        cases hnone'

/-- **Each file is reported once.** -/
theorem files (h : Batch jobs t t' r) : r.files.Perm (jobs.map Job.path) := by
  induction h with
  | nil => exact .refl _
  | cons hfirst _ ih =>
    refine (Report.files_append _ _).trans ?_
    rw [hfirst.files]
    exact ih.cons _

/-- **What becomes of a file** depends on what it held at the start, whatever becomes of the others. -/
theorem fate (h : Batch jobs t t' r) (hlayout : Layout t (jobs.map Job.path)) :
    ∀ job ∈ jobs, Fate r job (t.contents job.path) (t'.contents job.path) := by
  induction h with
  | nil => exact List.forall_mem_nil _
  | @cons job jobs t t₁ t₂ r r' hfirst hrest ih =>
    have hlater := hlayout.of_touches hfirst.touches
    have hplaces := (List.nodup_cons.mp hlayout.distinct).1
    have hmem : ∀ other ∈ jobs, other.path ∈ job.path :: jobs.map Job.path :=
      fun other hother => List.mem_cons_of_mem _ (List.mem_map_of_mem hother)
    rw [List.map_map] at hplaces
    refine List.forall_mem_cons.mpr ⟨?_, fun other hother => ?_⟩
    · -- The jobs to come leave the file of the first one alone.
      have hsame : t₂.get? (place job.path) = t₁.get? (place job.path) := by
        refine (hrest.kept _ hplaces).resolve_right fun hmade => ?_
        obtain ⟨⟨other, hother, hway⟩, -⟩ := hmade
        exact hlayout.apart _ List.mem_cons_self _ (hmem other hother) hway
      have hcontents : t₂.contents job.path = t₁.contents job.path := by
        rw [FileTree.contents, hsame]
        rfl
      rw [hcontents]
      exact hfirst.fate.mono (Report.within_append_left r r')
    · have hsame : t₁.contents other.path = t.contents other.path :=
        hfirst.touches.contents (fun heq => hplaces (heq ▸ List.mem_map_of_mem hother))
          (hlayout.apart _ (hmem other hother) _ List.mem_cons_self)
      rw [← hsame]
      exact (ih hlater other hother).mono (Report.within_append_right r r')

end Batch

/-- Work on one job after the other. -/
theorem mapM_runs {α : Type} {work : α → ExceptT Fault (StateM Session) Report} {jobOf : α → Job}
    {items : List α} (hwork : ∀ a ∈ items, Serves (work a) (jobOf a))
    (hlayout : Layout s.files ((items.map jobOf).map Job.path)) :
    ∃ reports s', Runs (items.mapM work).run s (.ok reports) s' ∧
      Batch (items.map jobOf) s.files s'.files (reports.foldl Report.append {}) := by
  induction items generalizing s with
  | nil => exact ⟨[], s, rfl, .nil _⟩
  | cons a items ih =>
    obtain ⟨hfirst, hrest⟩ := List.forall_mem_cons.mp hwork
    obtain ⟨report, s₁, hrun, hprocesses⟩ := hfirst s (hlayout.hosts _ List.mem_cons_self)
    obtain ⟨reports, s₂, hruns, hbatch⟩ := ih hrest (hlayout.of_touches hprocesses.touches)
    refine ⟨report :: reports, s₂, ?_, ?_⟩
    · rw [List.mapM_cons]
      exact hrun.bind_ok (hruns.bind_ok (.pure _ _))
    · rw [List.foldl_cons, Report.foldl_append]
      exact .cons hprocesses hbatch

end ContractSync.Sync
