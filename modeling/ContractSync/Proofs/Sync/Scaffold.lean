import ContractSync.Proofs.Name.Module
import ContractSync.Proofs.Sync.File
import ContractSync.Proofs.Sync.Handlers
import ContractSync.Sync.Scaffold

/-!
# Scaffolding, file by file

Scaffolding works on the modules of the groups, on their index and on the configuration file, each a job of
its own. **What becomes of each of these files depends on what it held before, whatever becomes of the
others; no other file changes, and the report names each of them once** (`scaffold_isolates`). Groups have
modules of different names, none of them that of the index (`modulePaths_distinct`).
-/

namespace ContractSync.Sync

open FileTree (place ways)
open Session (Runs)

variable {routes : List Route} {group : String} {directory : PathName} {config : Option PathName}
  {s s' : Session}

/-! ### Groups -/

theorem mem_groupNames : group ∈ groupNames routes ↔ ∃ route ∈ routes, groupOf route = group := by
  rw [groupNames, (List.mergeSort_perm _ _).mem_iff, List.mem_eraseDups, List.mem_map]

/-- Each group is worked on once. -/
theorem nodup_groupNames (routes : List Route) : (groupNames routes).Nodup := by
  have hlacking : lacking [] (routes.map groupOf) = (routes.map groupOf).eraseDups := by
    refine congrArg List.eraseDups (List.filter_eq_self.mpr fun _ _ => ?_)
    rfl
  rw [groupNames, (List.mergeSort_perm _ _).nodup_iff, ← hlacking]
  exact nodup_lacking [] _

/-- The groups come in alphabetical order. -/
theorem ascending_groupNames (routes : List Route) : (groupNames routes).Pairwise (· < ·) := by
  have hsorted := @List.pairwise_mergeSort _ (fun a b : String => decide (a ≤ b))
    (fun a b c hab hbc => decide_eq_true (String.le_trans (of_decide_eq_true hab) (of_decide_eq_true hbc)))
    (fun a b => by rw [Bool.or_eq_true, decide_eq_true_iff, decide_eq_true_iff]; exact String.le_total a b)
    (routes.map groupOf).eraseDups
  refine (hsorted.and (nodup_groupNames routes)).imp fun {a b} h => ?_
  exact String.not_le.mp fun hba => h.2 (String.le_antisymm (of_decide_eq_true h.1) hba)

theorem moduleName_of_mem_groupNames (h : group ∈ groupNames routes) : Name.moduleName group = group := by
  obtain ⟨route, -, rfl⟩ := mem_groupNames.mp h
  exact Name.moduleName_moduleName _

/-! ### Paths -/

/-- A file in a directory. -/
def filePath (directory : PathName) (name : String) : PathName := ⟨directory.root, directory.steps ++ [name]⟩

/-- The module of a group. -/
def modulePath (directory : PathName) (group : String) : PathName := filePath directory (group ++ ".rs")

/-- The index of modules. -/
def indexPath (directory : PathName) : PathName := filePath directory ("mod" ++ ".rs")

/-- The modules of all groups, and their index. -/
def modulePaths (directory : PathName) (routes : List Route) : List PathName :=
  (groupNames routes).map (modulePath directory) ++ [indexPath directory]

theorem append_of_file {name : String} (h : '/' ∉ name.toList) (hstep : PathName.isStep name.toList = true) :
    directory.append name = filePath directory name := by
  have hroot : PathName.rootOf name.toList = .relative := by
    unfold PathName.rootOf
    split
    · simp_all
    · simp_all
    · simp_all
    · rfl
  have hread : PathName.ofString name = ⟨.relative, [name]⟩ := by
    rw [PathName.ofString, hroot, Text.splitAt_eq_singleton h, List.filter_cons_of_pos hstep, List.filter_nil,
      List.map_cons, String.ofList_toList, List.map_nil]
  rw [PathName.append, hread]
  rfl

theorem getLast?_rust_file (name : String) : (name ++ ".rs").toList.getLast? = some 's' := by
  rw [String.toList_append, List.getLast?_append]
  rfl

theorem append_of_rust_file {name : String} (h : ∀ c ∈ name.toList, Text.isWordChar c = true) :
    directory.append (name ++ ".rs") = filePath directory (name ++ ".rs") := by
  refine append_of_file ?_ ?_
  · rw [String.toList_append, List.mem_append, not_or]
    exact ⟨fun hslash => absurd (h '/' hslash) (by decide), by decide⟩
  · rw [PathName.isStep, Bool.and_eq_true, bne_iff_ne, bne_iff_ne]
    have hlast := getLast?_rust_file name
    constructor <;> (intro heq; rw [heq] at hlast; cases hlast)

theorem append_groupFile (h : group ∈ groupNames routes) :
    directory.append (Emit.groupFile group) = modulePath directory group := by
  rw [Emit.groupFile, moduleName_of_mem_groupNames h]
  refine append_of_rust_file ?_
  rw [← moduleName_of_mem_groupNames h]
  exact fun c => Name.isWordChar_of_mem_moduleName c

theorem append_indexFile : directory.append Emit.indexFile = indexPath directory := by
  have hfile : Emit.indexFile = "mod" ++ ".rs" := by decide
  rw [hfile]
  exact append_of_rust_file (by decide)

theorem place_rust_file (directory : PathName) (name : String) :
    place (filePath directory (name ++ ".rs")) = place directory ++ [name ++ ".rs"] := by
  have hup : name ++ ".rs" ≠ ".." := by
    intro heq
    have hlast := getLast?_rust_file name
    rw [heq] at hlast
    cases hlast
  rw [place, filePath, List.foldl_append]
  exact if_neg hup

/-- **The modules and their index are different files.** -/
theorem modulePaths_distinct (directory : PathName) (routes : List Route) :
    ((modulePaths directory routes).map place).Nodup := by
  have hmodules : (groupNames routes).map (place ∘ modulePath directory) =
      (groupNames routes).map fun name => place directory ++ [name ++ ".rs"] :=
    List.map_congr_left fun group _ => place_rust_file directory group
  have hplaces : (modulePaths directory routes).map place =
      (groupNames routes ++ ["mod"]).map fun name => place directory ++ [name ++ ".rs"] := by
    rw [modulePaths, List.map_append, List.map_map, hmodules, List.map_append, List.map_singleton,
      List.map_singleton, indexPath, place_rust_file]
  have hnames : (groupNames routes ++ ["mod"]).Nodup := by
    refine List.nodup_append.mpr ⟨nodup_groupNames routes, List.nodup_singleton _, ?_⟩
    rintro group hgroup other hother rfl
    have hkeyword := Name.moduleName_ne_keyword group
    rw [moduleName_of_mem_groupNames hgroup, List.mem_singleton.mp hother] at hkeyword
    exact absurd hkeyword (by decide)
  rw [hplaces]
  refine List.Pairwise.map _ (fun a b hne heq => hne ?_) hnames
  exact String.append_left_inj ".rs" |>.mp (List.cons.inj (List.append_cancel_left heq)).1

/-! ### Jobs -/

/-- The module of a group gets a handler for each route of the group. -/
def moduleJob (directory : PathName) (routes : List Route) (group : String) : Job where
  path := modulePath directory group
  update old := updateHandlers old (inGroup routes group) (some (modulePath directory group).toString)

/-- The index declares the modules of all groups. -/
def indexJob (directory : PathName) (routes : List Route) : Job where
  path := indexPath directory
  update old := .ok (updateIndex old (groupNames routes))

/-- The configuration file gets the registrations of all groups, or of none if one fails. -/
def registrationJob (routes : List Route) (path : PathName) : Job where
  path := path
  update old := (registerGroups old routes (some path.toString)).mapError .error

/-- All that is worked on. -/
def jobs (directory : PathName) (routes : List Route) (config : Option PathName) : List Job :=
  (groupNames routes).map (moduleJob directory routes) ++
    (indexJob directory routes :: config.toList.map (registrationJob routes))

theorem jobs_paths : (jobs directory routes config).map Job.path = modulePaths directory routes ++ config.toList := by
  have hmodules : Job.path ∘ moduleJob directory routes = modulePath directory := funext fun _ => rfl
  have hconfig : Job.path ∘ registrationJob routes = id := funext fun _ => rfl
  rw [jobs, List.map_append, List.map_map, List.map_cons, List.map_map, hmodules, hconfig, List.map_id,
    modulePaths, List.append_assoc]
  rfl

theorem HandlerModule.withQueryStruct_snd (m : HandlerModule) (route : Route) :
    (m.withQueryStruct route).2 = structOf route := by
  unfold withQueryStruct structOf
  split
  · rename_i hnone
    rw [hnone]
    rfl
  · rename_i name code hfound
    rw [hfound]
    split <;> rfl

theorem HandlerModule.exists_addRoute {route : Route} (h : Emits route) (m : HandlerModule) :
    ∃ m', m.addRoute route = .ok m' := by
  obtain ⟨arguments, stub, harguments, hstub⟩ := h
  by_cases hknown : route.handlerName ∈ m.functions
  · exact ⟨m, addRoute_of_known hknown⟩
  · exact ⟨_, addRoute_of_new hknown (Prod.ext rfl (m.withQueryStruct_snd route)) harguments hstub⟩

theorem HandlerModule.exists_foldlM_addRoute (h : ∀ route ∈ routes, Emits route) (m : HandlerModule) :
    ∃ m', routes.foldlM addRoute m = .ok m' := by
  induction routes generalizing m with
  | nil => exact ⟨m, rfl⟩
  | cons route routes ih =>
    obtain ⟨hroute, hroutes⟩ := List.forall_mem_cons.mp h
    obtain ⟨between, hadd⟩ := exists_addRoute hroute m
    rw [List.foldlM_cons, hadd]
    exact ih hroutes between

/-- A module that cannot be brought up to date is one that cannot be read. -/
theorem updateHandlers_ne_fault (h : ∀ route ∈ routes, HandlerModule.Emits route) (source : List Char)
    (path : Option String) (f : Fault) : updateHandlers source routes path ≠ .error (.fault f) := by
  unfold updateHandlers
  cases HandlerModule.ofSource source path with
  | error e =>
    intro hfault
    cases hfault
  | ok start =>
    obtain ⟨m, hadd⟩ := HandlerModule.exists_foldlM_addRoute h start
    rw [mapError_ok]
    simp only [hadd, bind, Except.bind, mapError_ok]
    intro hfault
    cases hfault

/-! ### The whole run -/

/-- Work that is announced. -/
theorem announced_serves {job : Job} (line : String) (hfault : ∀ old f, job.update old ≠ .error (.fault f)) :
    Serves (do
      Workspace.sayLine (m := StateM Session) line
      syncFile job.path fun old => (job.update old).map fun source => { source }) job := by
  intro s h
  obtain ⟨s₁, hsay, hfiles⟩ := Session.sayLine_runs line s
  rw [← hfiles] at h ⊢
  obtain ⟨report, s', hrun, hprocesses⟩ := syncFile_serves hfault s₁ h
  exact ⟨report, s', hsay.lift_bind hrun, hprocesses⟩

theorem syncGroup_serves (hemits : ∀ route ∈ routes, HandlerModule.Emits route)
    (hmem : group ∈ groupNames routes) :
    Serves (syncGroup directory routes group) (moduleJob directory routes group) := by
  have hfault : ∀ old f, (moduleJob directory routes group).update old ≠ .error (.fault f) := fun old f =>
    updateHandlers_ne_fault (fun route hroute => hemits route (List.mem_filter.mp hroute).1) old _ f
  have hserves := fun line => announced_serves line hfault
  unfold syncGroup
  dsimp only
  rw [append_groupFile hmem]
  exact hserves _

theorem syncIndex_serves : Serves (syncIndex directory routes) (indexJob directory routes) := by
  have hfault : ∀ old f, (indexJob directory routes).update old ≠ .error (.fault f) := fun _ _ h => by cases h
  have hserves := syncFile_serves hfault
  unfold syncIndex
  rw [append_indexFile]
  exact hserves

theorem syncRegistrations_serves (path : PathName) :
    Serves (syncRegistrations path routes) (registrationJob routes path) := by
  have hfault : ∀ old f, (registrationJob routes path).update old ≠ .error (.fault f) := by
    intro old f
    dsimp only [registrationJob]
    cases registerGroups old routes (some path.toString) with
    | error e => exact fun h => by cases h
    | ok text => exact fun h => by cases h
  have hserves := announced_serves ("  -> Injecting route registrations into " ++ path.toString) hfault
  exact hserves

/-- **The run for the routes** does all jobs, one after the other. -/
theorem syncRoutes_runs (hne : routes ≠ []) (hemits : ∀ route ∈ routes, HandlerModule.Emits route)
    (hlayout : Layout s.files ((jobs directory routes config).map Job.path)) :
    ∃ report s', Runs (syncRoutes routes directory config).run s (.ok report) s' ∧
      Batch (jobs directory routes config) s.files s'.files report := by
  have hsome : routes.isEmpty = false := List.isEmpty_eq_false_iff.mpr hne
  rw [jobs, List.map_append] at hlayout
  obtain ⟨modules, s₁, hmodules, hbatch₁⟩ :=
    mapM_runs (fun group hgroup => syncGroup_serves hemits hgroup) hlayout.of_append
  have hlayout₁ := hbatch₁.layout hlayout
  obtain ⟨index, s₂, hindex, hprocesses⟩ := syncIndex_serves s₁ (hlayout₁.hosts _ List.mem_cons_self)
  have hlayout₂ := hlayout₁.of_touches hprocesses.touches
  have hregistrations : ∃ registrations s',
      Runs (config.elim (pure {}) fun path => syncRegistrations path routes).run s₂ (.ok registrations) s' ∧
      Batch (config.toList.map (registrationJob routes)) s₂.files s'.files registrations := by
    cases config with
    | none => exact ⟨{}, s₂, rfl, .nil _⟩
    | some path =>
      obtain ⟨registrations, s', hrun, hlast⟩ :=
        syncRegistrations_serves path s₂ (hlayout₂.hosts _ List.mem_cons_self)
      exact ⟨registrations, s', hrun, .singleton hlast⟩
  obtain ⟨registrations, s₃, hrun, hbatch₃⟩ := hregistrations
  refine ⟨modules.foldl Report.append {} ++ index ++ registrations, s₃, ?_, ?_⟩
  · unfold syncRoutes
    rw [hsome, if_neg Bool.false_ne_true]
    refine hmodules.bind_ok (hindex.bind_ok ?_)
    cases config <;> exact hrun.bind_ok (.pure _ _)
  · rw [Report.append_assoc]
    exact hbatch₁.append (.cons hprocesses hbatch₃)

/-- **Failures stay with their files.** Each module, the index and the configuration file end as the work on
what they held at the start leaves them, or as they were if that fails; the report names each of them once,
and elsewhere nothing changes but that directories are made where nothing was. -/
theorem scaffold_isolates {doc : Contract.Canonical} (hroutes : (Route.ofDocument doc).collect.1 = .ok routes)
    (hne : routes ≠ []) (hemits : ∀ route ∈ routes, HandlerModule.Emits route)
    (hhosts : ∀ p ∈ modulePaths directory routes ++ config.toList, s.files.Hosts p)
    (hapart : ∀ p ∈ modulePaths directory routes ++ config.toList,
      ∀ q ∈ modulePaths directory routes ++ config.toList, place p ∉ ways q)
    (hconfig : ∀ path ∈ config, ∀ p ∈ modulePaths directory routes, place path ≠ place p) :
    ∃ report s', Runs (scaffold doc directory config).run s (.ok report) s' ∧
      (∀ job ∈ jobs directory routes config,
        Fate report job (s.files.contents job.path) (s'.files.contents job.path)) ∧
      (∀ l, l ∉ (jobs directory routes config).map (place ·.path) → s'.files.get? l = s.files.get? l ∨
        s.files.get? l = none ∧ s'.files.get? l = some .directory) ∧
      report.files.Perm ((jobs directory routes config).map Job.path) ∧
      ((jobs directory routes config).map Job.path).Nodup ∧
      (groupNames routes).Pairwise (· < ·) ∧
      (∀ group, group ∈ groupNames routes ↔ ∃ route ∈ routes, groupOf route = group) := by
  have hdistinct : ((modulePaths directory routes ++ config.toList).map place).Nodup := by
    rw [List.map_append]
    refine List.nodup_append.mpr ⟨modulePaths_distinct directory routes, ?_, ?_⟩
    · cases config <;> simp
    · intro l hl l' hl' heq
      obtain ⟨p, hp, rfl⟩ := List.mem_map.mp hl
      obtain ⟨path, hpath, rfl⟩ := List.mem_map.mp hl'
      exact hconfig path (Option.mem_toList.mp hpath) p hp heq.symm
  have hlayout : Layout s.files ((jobs directory routes config).map Job.path) := by
    rw [jobs_paths]
    exact ⟨hhosts, hdistinct, hapart⟩
  obtain ⟨report, s', hrun, hbatch⟩ := syncRoutes_runs hne hemits hlayout
  have hcollect : (Route.ofDocument doc).collect =
      (.ok routes, (Route.ofDocument doc).collect.2) := Prod.ext hroutes rfl
  refine ⟨{ warnings := (Route.ofDocument doc).collect.2.messages } ++ report, s', ?_, fun job hjob => ?_,
    fun l hl => ?_, ?_, ?_, ascending_groupNames routes, fun _ => mem_groupNames⟩
  · unfold scaffold
    rw [hcollect]
    exact hrun.bind_ok (.pure _ _)
  · exact (hbatch.fate hlayout job hjob).mono (Report.within_append_right _ _)
  · exact (hbatch.kept l hl).imp_right And.right
  · exact hbatch.files
  · rw [jobs_paths]
    exact .of_map place hdistinct

/-! ### A directory with broken files -/

/-- Two operations with different tags. -/
def taggedDocument : Document.Entries :=
  [(.text "openapi", .text "3.1.0"),
   (.text "paths", .object [
     ("/users", .object [("get", .object [("tags", .list [.text "Users"])])]),
     ("/posts", .object [("get", .object [("tags", .list [.text "Posts"])])])])]

/-- A module that cannot be read as code, an index that is no text, and a configuration file without
configuration function; the module of the other tag is missing. -/
def brokenSession : Session where
  files := ⟨[(["src"], .directory), (["src", "handlers"], .directory),
    (["src", "handlers", "users.rs"], .file [0x7b]), (["src", "handlers", "mod.rs"], .file [0xff]),
    (["src", "routes.rs"], .file [0x0a, 0x3b])]⟩

/-- The directory and the configuration file of the session. -/
def brokenDirectory : PathName := ⟨.relative, ["src", "handlers"]⟩

def brokenConfig : PathName := ⟨.relative, ["src", "routes.rs"]⟩

theorem scaffold_isolates_brokenSession :
    ∃ doc routes report s', Contract.normalize taggedDocument = .ok doc ∧
      (Route.ofDocument doc).collect.1 = .ok routes ∧ routes.map groupOf = ["users", "posts"] ∧
      Runs (scaffold doc brokenDirectory (some brokenConfig)).run brokenSession (.ok report) s' ∧
      ∀ job ∈ jobs brokenDirectory routes (some brokenConfig),
        Fate report job (brokenSession.files.contents job.path) (s'.files.contents job.path) := by
  have hfacts : ∃ found ∈ Emit.routesOf? taggedDocument, found.2.isEmpty = false ∧
      (∀ route ∈ found.2, (Emit.handlerArguments route (HandlerModule.structOf route) >>=
        Emit.handlerStub route).toOption.isSome = true) ∧ found.2.map groupOf = ["users", "posts"] := by
    decide
  obtain ⟨⟨doc, routes⟩, hfound, hne, hemits, hgroups⟩ := hfacts
  obtain ⟨hdoc, hroutes⟩ := Emit.routesOf?_eq_some hfound
  have hmodules : ∀ p ∈ modulePaths brokenDirectory routes,
      p ∈ ["users", "posts", "mod"].map (modulePath brokenDirectory) := by
    refine List.forall_mem_append.mpr ⟨List.forall_mem_map.mpr fun group hgroup => List.mem_map_of_mem ?_,
      List.forall_mem_singleton.mpr (by decide)⟩
    obtain ⟨route, hroute, rfl⟩ := mem_groupNames.mp hgroup
    have hmem : groupOf route ∈ routes.map groupOf := List.mem_map_of_mem hroute
    rw [hgroups] at hmem
    exact List.mem_append_left ["mod"] hmem
  have hpaths : ∀ p ∈ modulePaths brokenDirectory routes ++ (some brokenConfig).toList,
      p ∈ ["users", "posts", "mod"].map (modulePath brokenDirectory) ++ [brokenConfig] :=
    List.forall_mem_append.mpr ⟨fun p hp => List.mem_append_left _ (hmodules p hp),
      fun p hp => List.mem_append_right _ hp⟩
  have hlayout : ∀ p ∈ ["users", "posts", "mod"].map (modulePath brokenDirectory) ++ [brokenConfig],
      brokenSession.files.Hosts p ∧
        ∀ q ∈ ["users", "posts", "mod"].map (modulePath brokenDirectory) ++ [brokenConfig], place p ∉ ways q := by
    decide
  have hconfig : ∀ p ∈ ["users", "posts", "mod"].map (modulePath brokenDirectory),
      place brokenConfig ≠ place p := by decide
  obtain ⟨report, s', hrun, hfates, -⟩ := @scaffold_isolates routes brokenDirectory (some brokenConfig)
    brokenSession doc hroutes (List.isEmpty_eq_false_iff.mp hne)
    (fun route hroute => emits_of_isSome (hemits route hroute)) (fun p hp => (hlayout p (hpaths p hp)).1)
    (fun p hp q hq => (hlayout p (hpaths p hp)).2 q (hpaths q hq))
    (forall_mem_some fun p hp => hconfig p (hmodules p hp))
  exact ⟨doc, routes, report, s', hdoc, hroutes, hgroups, hrun, hfates⟩

end ContractSync.Sync
