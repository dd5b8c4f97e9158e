import ContractSync.Proofs.Edit.Import
import ContractSync.Proofs.Edit.Registration
import ContractSync.Proofs.Name.Words
import ContractSync.Proofs.Text.Parts
import ContractSync.Sync.Index

/-!
# The index of modules converges

A line without boundaries in it goes between the `opening` and the `ending` of a text, and is a line of the
result (`lines_between`). So an import that was added is found again (`addImport_again`). An index is its start
with the declarations of some modules behind its first line (`withModules`); each group puts the
declaration of its module there unless there is one (`Declares.addImport`), and so does the run over all
groups (`Declares.foldl`). **The index of a list of groups declares each of their modules once, and another
update changes nothing** (`updateIndex_converges`).
-/

namespace ContractSync.Edit

/-! ### The place for new lines -/

/-- The first line of a text, with a line feed at its end. -/
def opening (source : List Char) : List Char := firstLine source ++ ['\n']

/-- The text behind its first line. -/
def ending (source : List Char) : List Char := (Text.cutAt '\n' source).2.getD []

/-- Some line of the text says the same as a key. -/
def HasLine (source key : List Char) : Prop := ∃ line ∈ Text.lines source, importKey line = key

theorem firstLine_eq (source : List Char) : firstLine source = source.takeWhile (· != '\n') := by
  rw [firstLine, Text.cutAt]
  split
  · rename_i hnone
    have hcut := List.takeWhile_append_dropWhile (p := (· != '\n')) (l := source)
    rw [hnone, List.append_nil] at hcut
    exact hcut.symm
  · rfl

theorem newline_notMem_firstLine (source : List Char) : '\n' ∉ firstLine source := by
  intro h
  rw [firstLine_eq] at h
  exact absurd (List.all_eq_true.mp List.all_takeWhile _ h) (by decide)

theorem cutAt_opening (source more : List Char) :
    Text.cutAt '\n' (opening source ++ more) = (firstLine source, some more) := by
  have hline : ∀ c ∈ firstLine source, (c != '\n') = true := fun c hc =>
    bne_iff_ne.mpr fun h => newline_notMem_firstLine source (h ▸ hc)
  have hdrop : (firstLine source ++ '\n' :: more).dropWhile (· != '\n') = '\n' :: more := by
    rw [List.dropWhile_append_of_pos hline, List.dropWhile_cons_of_neg (by decide)]
  have htake : (firstLine source ++ '\n' :: more).takeWhile (· != '\n') = firstLine source := by
    rw [List.takeWhile_append_of_pos hline, List.takeWhile_cons_of_neg (by decide), List.append_nil]
  rw [opening, List.append_assoc, List.singleton_append, Text.cutAt, hdrop, htake]

theorem opening_opening (source more : List Char) : opening (opening source ++ more) = opening source := by
  rw [opening, firstLine, cutAt_opening, opening]

theorem ending_opening (source more : List Char) : ending (opening source ++ more) = more := by
  rw [ending, cutAt_opening]
  rfl

/-- The place for new lines is between two lines; a text without line feeds is ended first. -/
theorem lines_opening_ending (source : List Char) :
    Text.lines (opening source) ++ Text.lines (ending source) = Text.lines source ∨
      '\n' ∉ source ∧
        Text.lines (opening source) ++ Text.lines (ending source) = Text.lines source ++ [[]] := by
  rcases hcut : Text.cutAt '\n' source with ⟨front, _ | behind⟩
  · obtain rfl := Text.eq_of_cutAt_eq_none hcut
    have hfirst : firstLine front = front := by rw [firstLine, hcut]
    have hending : ending front = [] := by rw [ending, hcut]; rfl
    rw [opening, hfirst, hending, Text.lines, List.append_nil]
    exact (Text.lines_feed front).imp_right (And.intro (hfirst ▸ newline_notMem_firstLine front))
  · obtain rfl := Text.eq_of_cutAt_eq_some hcut
    have hfirst : firstLine (front ++ '\n' :: behind) = front := by rw [firstLine, hcut]
    have hending : ending (front ++ '\n' :: behind) = behind := by rw [ending, hcut]; rfl
    rw [opening, hfirst, hending, Text.lines_append_feed front behind]
    exact .inl rfl

/-- A line between the opening and what is behind it is a line of the text. -/
theorem lines_between {line : List Char} (hline : ∀ c ∈ line, Text.isLineBoundary c = false)
    (source behind : List Char) :
    Text.lines (opening source ++ (line ++ '\n' :: behind)) =
      Text.lines (opening source) ++ line :: Text.lines behind := by
  rw [opening, List.append_assoc, List.singleton_append, Text.lines_append_feed, Text.lines_line hline]

/-! ### A line is added once -/

variable {source : List Char} {text : String}

theorem newline_notMem {line : List Char} (hline : ∀ c ∈ line, Text.isLineBoundary c = false) :
    '\n' ∉ line := fun h => absurd (hline _ h) (by decide)

theorem addImport_of_hasLine (hline : ∀ c ∈ Text.trim text.toList, Text.isLineBoundary c = false)
    (h : HasLine source (importKey (Text.trim text.toList))) : addImport source text = source := by
  rw [addImport]
  simp only [(hasImport_eq_true_iff (newline_notMem hline)).mpr h, if_true]

theorem addImport_of_not_hasLine (hline : ∀ c ∈ Text.trim text.toList, Text.isLineBoundary c = false)
    (h : ¬ HasLine source (importKey (Text.trim text.toList))) :
    addImport source text =
      if source = [] then Text.trim text.toList ++ ['\n']
      else opening source ++ (Text.trim text.toList ++ '\n' :: ending source) := by
  have hhas : hasImport source (importKey (Text.trim text.toList)) = false :=
    Bool.eq_false_iff.mpr fun hhas => h ((hasImport_eq_true_iff (newline_notMem hline)).mp hhas)
  rw [addImport]
  simp only [hhas, Bool.false_eq_true, if_false]
  rcases hcut : Text.cutAt '\n' source with ⟨front, _ | behind⟩
  · obtain rfl := Text.eq_of_cutAt_eq_none hcut
    rw [opening, ending, firstLine, hcut]
    cases front <;> simp
  · obtain rfl := Text.eq_of_cutAt_eq_some hcut
    rw [opening, ending, firstLine, hcut]
    simp

/-- The line that was added is there. -/
theorem hasLine_addImport (hline : ∀ c ∈ Text.trim text.toList, Text.isLineBoundary c = false) :
    HasLine (addImport source text) (importKey (Text.trim text.toList)) := by
  by_cases h : HasLine source (importKey (Text.trim text.toList))
  · rwa [addImport_of_hasLine hline h]
  refine ⟨Text.trim text.toList, ?_, rfl⟩
  rw [addImport_of_not_hasLine hline h]
  split
  · rw [Text.lines_line hline]
    exact List.mem_cons_self
  · rw [lines_between hline]
    exact List.mem_append_right _ List.mem_cons_self

theorem addImport_again (hline : ∀ c ∈ Text.trim text.toList, Text.isLineBoundary c = false) :
    addImport (addImport source text) text = addImport source text :=
  addImport_of_hasLine hline (hasLine_addImport hline)

end ContractSync.Edit

namespace ContractSync.Sync

open Edit (HasLine ending opening)

/-! ### Declarations of modules -/

/-- The key of the line that declares a module. -/
def moduleKey (name : String) : List Char := "pub mod ".toList ++ name.toList

/-- The line that declares a module. -/
def moduleLine (name : String) : List Char := moduleKey name ++ [';']

theorem moduleKey_ne_nil (name : String) : moduleKey name ≠ [] := by
  have hlead : "pub mod ".toList ≠ [] := by decide
  exact List.append_ne_nil_of_left_ne_nil hlead _

theorem moduleKey_inj {a b : String} (h : moduleKey a = moduleKey b) : a = b := by
  unfold moduleKey at h
  exact String.toList_inj.mp (List.append_cancel_left h)

theorem toList_groupDeclaration (group : String) :
    (Emit.groupDeclaration group).toList = moduleLine (Name.moduleName group) := by
  unfold Emit.groupDeclaration moduleLine moduleKey
  simp only [String.toList_append]
  rfl

/-- The last character of a module's name is neither blank nor a semicolon. -/
theorem getLast?_moduleKey {group : String} {c : Char}
    (h : (moduleKey (Name.moduleName group)).getLast? = some c) :
    Text.isBlank c = false ∧ (c == ';') = false := by
  have hne : (Name.moduleName group).toList ≠ [] := by
    intro hnil
    have hplain := Name.isPlainName_moduleName group
    rw [Rust.IsPlainName, hnil] at hplain
    cases hplain
  unfold moduleKey at h
  rw [List.getLast?_append_of_ne_nil _ hne] at h
  have hword := Name.isWordChar_of_mem_moduleName c (List.mem_of_getLast? h)
  constructor
  · refine Bool.eq_false_iff.mpr fun hblank => ?_
    rw [Text.not_isWordChar_of_isBlank hblank] at hword
    cases hword
  · refine Bool.eq_false_iff.mpr fun hmark => ?_
    rw [beq_iff_eq.mp hmark] at hword
    exact absurd hword (by decide)

theorem trim_moduleLine (name : String) : Text.trim (moduleLine name) = moduleLine name := by
  refine Text.trim_eq_self (fun c hc => ?_) fun c hc => ?_
  · cases hc
    decide
  · rw [moduleLine, List.getLast?_concat] at hc
    cases hc
    decide

theorem importKey_moduleLine (group : String) :
    Edit.importKey (moduleLine (Name.moduleName group)) = moduleKey (Name.moduleName group) := by
  have hdrop : Text.dropEndWhile (· == ';') (moduleLine (Name.moduleName group)) =
      moduleKey (Name.moduleName group) := by
    rw [moduleLine, Text.dropEndWhile, List.reverse_concat, List.dropWhile_cons_of_pos (by rfl)]
    exact Text.dropEndWhile_eq_self fun c hc => (getLast?_moduleKey hc).2
  rw [Edit.importKey, trim_moduleLine, hdrop]
  refine Text.trim_eq_self (fun c hc => ?_) fun c hc => (getLast?_moduleKey hc).1
  cases hc
  decide

theorem not_isLineBoundary_moduleLine (group : String) :
    ∀ c ∈ moduleLine (Name.moduleName group), Text.isLineBoundary c = false := by
  have hname : ∀ c ∈ (Name.moduleName group).toList, Text.isLineBoundary c = false := fun c hc =>
    Bool.eq_false_iff.mpr fun hboundary => by
      have hword := Name.isWordChar_of_mem_moduleName c hc
      rw [Text.not_isWordChar_of_isBlank (Text.isBlank_of_isLineBoundary hboundary)] at hword
      cases hword
  exact List.forall_mem_append.mpr ⟨List.forall_mem_append.mpr ⟨by decide, hname⟩, by decide⟩

/-! ### An index and its declarations -/

/-- An index with the declarations of modules behind its first line. -/
def withModules (start : List Char) (names : List String) : List Char :=
  if names = [] then start
  else opening start ++ (names.flatMap (fun name => moduleLine name ++ ['\n']) ++ ending start)

/-- The names are those of the modules of groups that an index has no declaration of, each once. -/
structure Lacks (start : List Char) (groups names : List String) : Prop where
  nodup : names.Nodup
  mem_iff : ∀ name, name ∈ names ↔
    (∃ group ∈ groups, Name.moduleName group = name) ∧ ¬ HasLine start (moduleKey name)

variable {start : List Char} {groups names : List String} {group : String}

theorem withModules_ne_nil (hstart : start ≠ []) (names : List String) : withModules start names ≠ [] := by
  rw [withModules]
  split
  · exact hstart
  · exact List.append_ne_nil_of_left_ne_nil (List.append_ne_nil_of_right_ne_nil _ (List.cons_ne_nil _ _)) _

theorem lines_modules (hnames : ∀ name ∈ names, ∃ group, Name.moduleName group = name)
    (behind : List Char) :
    Text.lines (names.flatMap (fun name => moduleLine name ++ ['\n']) ++ behind) =
      names.map moduleLine ++ Text.lines behind := by
  induction names with
  | nil => rfl
  | cons name names ih =>
    obtain ⟨⟨group, rfl⟩, hrest⟩ := List.forall_mem_cons.mp hnames
    rw [List.flatMap_cons, List.append_assoc, List.append_assoc, List.singleton_append,
      Text.lines_line (not_isLineBoundary_moduleLine group), ih hrest]
    rfl

theorem Lacks.exists_group (h : Lacks start groups names) :
    ∀ name ∈ names, ∃ group, Name.moduleName group = name := fun name hname =>
  let ⟨group, _, hgroup⟩ := ((h.mem_iff name).mp hname).1
  ⟨group, hgroup⟩

/-- The lines of an index with declarations. -/
theorem lines_withModules (hnames : ∀ name ∈ names, ∃ group, Name.moduleName group = name)
    (hne : names ≠ []) :
    Text.lines (withModules start names) =
      Text.lines (opening start) ++ (names.map moduleLine ++ Text.lines (ending start)) := by
  rw [withModules, if_neg hne, opening, List.append_assoc, List.singleton_append,
    Text.lines_append_feed, lines_modules hnames]

/-- A module is declared if it was or if it is one of those that were added. -/
theorem hasLine_withModules (hnames : ∀ name ∈ names, ∃ group, Name.moduleName group = name) :
    HasLine (withModules start names) (moduleKey (Name.moduleName group)) ↔
      HasLine start (moduleKey (Name.moduleName group)) ∨ Name.moduleName group ∈ names := by
  by_cases hne : names = []
  · rw [withModules, if_pos hne, hne]
    simp only [List.not_mem_nil, or_false]
  have hadded : (∃ line ∈ names.map moduleLine, Edit.importKey line = moduleKey (Name.moduleName group)) ↔
      Name.moduleName group ∈ names := by
    constructor
    · rintro ⟨_, hline, hkey⟩
      obtain ⟨name, hname, rfl⟩ := List.mem_map.mp hline
      obtain ⟨other, rfl⟩ := hnames name hname
      rw [importKey_moduleLine] at hkey
      have hsame := moduleKey_inj hkey
      rw [hsame] at hname
      exact hname
    · exact fun hname => ⟨_, List.mem_map_of_mem hname, importKey_moduleLine group⟩
  have hstart : (∃ line ∈ Text.lines (opening start) ++ Text.lines (ending start),
      Edit.importKey line = moduleKey (Name.moduleName group)) ↔
        HasLine start (moduleKey (Name.moduleName group)) := by
    have hblank : Edit.importKey [] = [] := by decide
    rcases Edit.lines_opening_ending start with hlines | ⟨-, hlines⟩
    · rw [hlines, HasLine]
    · rw [hlines, HasLine]
      simp only [List.mem_append, List.mem_singleton, or_and_right, exists_or, exists_eq_left]
      refine or_iff_left fun hkey => ?_
      rw [hblank] at hkey
      exact moduleKey_ne_nil _ hkey.symm
  rw [← hadded, ← hstart, HasLine, lines_withModules hnames hne]
  generalize moduleKey (Name.moduleName group) = key
  simp only [List.mem_append, or_and_right, exists_or]
  rw [← or_assoc, or_right_comm]

/-- One more declaration goes in front of those that were added. -/
theorem addImport_withModules (hstart : start ≠ [])
    (hnames : ∀ name ∈ names, ∃ group, Name.moduleName group = name) (group : String) :
    (HasLine (withModules start names) (moduleKey (Name.moduleName group)) →
      Edit.addImport (withModules start names) (Emit.groupDeclaration group) = withModules start names) ∧
    (¬ HasLine (withModules start names) (moduleKey (Name.moduleName group)) →
      Edit.addImport (withModules start names) (Emit.groupDeclaration group) =
        withModules start (Name.moduleName group :: names)) := by
  have htrim : Text.trim (Emit.groupDeclaration group).toList = moduleLine (Name.moduleName group) := by
    rw [toList_groupDeclaration, trim_moduleLine]
  have hline : ∀ c ∈ Text.trim (Emit.groupDeclaration group).toList, Text.isLineBoundary c = false :=
    htrim ▸ not_isLineBoundary_moduleLine group
  have hkey : Edit.importKey (Text.trim (Emit.groupDeclaration group).toList) =
      moduleKey (Name.moduleName group) := by
    rw [htrim, importKey_moduleLine]
  rw [← hkey]
  refine ⟨Edit.addImport_of_hasLine hline, fun h => ?_⟩
  rw [Edit.addImport_of_not_hasLine hline h, if_neg (withModules_ne_nil hstart names), htrim]
  by_cases hempty : names = []
  · subst hempty
    simp [withModules]
  · simp [withModules, hempty, Edit.opening_opening, Edit.ending_opening]

/-- **A group puts the declaration of its module there, unless there is one.** -/
theorem Lacks.addImport (h : Lacks start groups names) (hstart : start ≠ []) (group : String) :
    ∃ names', Lacks start (groups ++ [group]) names' ∧
      Edit.addImport (withModules start names) (Emit.groupDeclaration group) = withModules start names' := by
  obtain ⟨hthere, hnew⟩ := addImport_withModules hstart h.exists_group group
  have hmem : ∀ name, (∃ other ∈ groups ++ [group], Name.moduleName other = name) ↔
      (∃ other ∈ groups, Name.moduleName other = name) ∨ Name.moduleName group = name := by
    simp [or_and_right, exists_or]
  by_cases hline : HasLine (withModules start names) (moduleKey (Name.moduleName group))
  · refine ⟨names, ⟨h.nodup, fun name => ?_⟩, hthere hline⟩
    rw [hmem, h.mem_iff, or_and_right]
    refine (or_iff_left_iff_imp.mpr ?_).symm
    rintro ⟨rfl, hnone⟩
    exact (h.mem_iff _).mp (((hasLine_withModules h.exists_group).mp hline).resolve_left hnone)
  · refine ⟨_, ⟨List.nodup_cons.mpr ⟨fun hname => hline ?_, h.nodup⟩, fun name => ?_⟩, hnew hline⟩
    · exact (hasLine_withModules h.exists_group).mpr (.inr hname)
    · rw [List.mem_cons, hmem, h.mem_iff, or_and_right, or_comm, eq_comm]
      refine or_congr_right (iff_self_and.mpr ?_)
      rintro rfl hthere
      exact hline ((hasLine_withModules h.exists_group).mpr (.inl hthere))

/-- So does a run over several groups. -/
theorem Lacks.foldl (hstart : start ≠ []) (more : List String) (h : Lacks start groups names) :
    ∃ names', Lacks start (groups ++ more) names' ∧
      more.foldl (fun source group => Edit.addImport source (Emit.groupDeclaration group))
        (withModules start names) = withModules start names' := by
  induction more generalizing groups names with
  | nil => exact ⟨names, by rwa [List.append_nil], rfl⟩
  | cons group more ih =>
    obtain ⟨names₁, h₁, hfirst⟩ := h.addImport hstart group
    obtain ⟨names₂, h₂, hrest⟩ := ih h₁
    rw [List.append_assoc, List.singleton_append] at h₂
    exact ⟨names₂, h₂, by rw [List.foldl_cons, hfirst, hrest]⟩

/-- A module of the groups is declared in their index. -/
theorem Lacks.hasLine (h : Lacks start groups names) (hgroup : group ∈ groups) :
    HasLine (withModules start names) (moduleKey (Name.moduleName group)) := by
  refine (hasLine_withModules h.exists_group).mpr ?_
  by_cases hthere : HasLine start (moduleKey (Name.moduleName group))
  · exact .inl hthere
  · exact .inr ((h.mem_iff _).mpr ⟨⟨group, hgroup, rfl⟩, hthere⟩)

/-- The text that an update of an index starts from. -/
def indexStart (source : List Char) : List Char :=
  if source.isEmpty then Emit.indexHeader.toList else source

theorem indexStart_ne_nil (source : List Char) : indexStart source ≠ [] := by
  rw [indexStart]
  split
  · decide
  · rename_i h
    exact fun hnil => h (List.isEmpty_iff.mpr hnil)

theorem indexStart_of_ne_nil {source : List Char} (h : source ≠ []) : indexStart source = source :=
  if_neg fun hempty => h (List.isEmpty_iff.mp hempty)

/-- The update of an index declares the modules that it lacks. -/
theorem updateIndex_eq (source : List Char) (groups : List String) :
    ∃ names, Lacks (indexStart source) groups names ∧
      updateIndex source groups = withModules (indexStart source) names := by
  have hnone : Lacks (indexStart source) [] [] := ⟨List.nodup_nil, by simp⟩
  obtain ⟨names, h, hfold⟩ := hnone.foldl (indexStart_ne_nil source)
    (groups.mergeSort fun a b => decide (b ≤ a))
  refine ⟨names, ⟨h.nodup, fun name => ?_⟩, hfold⟩
  rw [h.mem_iff, List.nil_append]
  simp only [List.mem_mergeSort]

/-- An index stays as it is if its modules are declared again. -/
theorem Lacks.updateIndex_again (h : Lacks start groups names) (hstart : start ≠ [])
    {again : List String} (hagain : ∀ group ∈ again, group ∈ groups) :
    updateIndex (withModules start names) again = withModules start names := by
  have hfixed : ∀ more : List String, (∀ group ∈ more, group ∈ groups) →
      more.foldl (fun source group => Edit.addImport source (Emit.groupDeclaration group))
        (withModules start names) = withModules start names := by
    intro more hmore
    induction more with
    | nil => rfl
    | cons group more ih =>
      obtain ⟨hgroup, hrest⟩ := List.forall_mem_cons.mp hmore
      rw [List.foldl_cons, (addImport_withModules hstart h.exists_group group).1 (h.hasLine hgroup), ih hrest]
  have hindex := indexStart_of_ne_nil (withModules_ne_nil hstart names)
  rw [indexStart] at hindex
  rw [updateIndex]
  simp only [hindex]
  exact hfixed _ fun group hgroup => hagain group (List.mem_mergeSort.mp hgroup)

/-- **An index converges.** An update keeps the lines that there are (the header if there are none) and adds
one line for each module of the groups without a declaration; a second update with groups among the same
changes nothing. An import in general is added once. -/
theorem updateIndex_converges (source : List Char) (groups : List String) :
    (∃ names before behind, Lacks (indexStart source) groups names ∧
      updateIndex source groups = withModules (indexStart source) names ∧
      Text.lines (updateIndex source groups) = before ++ (names.map moduleLine ++ behind) ∧
      (before ++ behind = Text.lines (indexStart source) ∨ '\n' ∉ indexStart source ∧
        before ++ behind = Text.lines (indexStart source) ++ [[]])) ∧
    (∀ again : List String, (∀ group ∈ again, group ∈ groups) →
      updateIndex (updateIndex source groups) again = updateIndex source groups) ∧
    ∀ (text : String) (path : Option String),
      (∀ c ∈ Text.trim text.toList, Text.isLineBoundary c = false) →
        ∃ result, Edit.apply source (.addImport text) path = .ok result ∧
          Edit.apply result (.addImport text) path = .ok result := by
  obtain ⟨names, h, hupdate⟩ := updateIndex_eq source groups
  refine ⟨?_, fun again hagain => ?_, fun text path hline => ?_⟩
  · by_cases hne : names = []
    · refine ⟨names, Text.lines (indexStart source), [], h, hupdate, ?_, .inl (List.append_nil _)⟩
      rw [hupdate, hne, withModules, if_pos rfl, List.map_nil, List.append_nil, List.append_nil]
    · refine ⟨names, _, _, h, hupdate, ?_, Edit.lines_opening_ending _⟩
      rw [hupdate, lines_withModules h.exists_group hne]
  · rw [hupdate]
    exact h.updateIndex_again (indexStart_ne_nil source) hagain
  · exact ⟨_, rfl, congrArg Except.ok (Edit.addImport_again hline)⟩

/-- An index without a line feed, and groups of one module. -/
theorem updateIndex_converges_pets :
    (∀ group ∈ ["pets", "Pets", "pets"], group ∈ ["Pets", "owners", "pets"]) ∧
      updateIndex (updateIndex "mod pets;".toList ["Pets", "owners", "pets"]) ["pets", "Pets", "pets"] =
        updateIndex "mod pets;".toList ["Pets", "owners", "pets"] ∧
      (∀ c ∈ Text.trim " use pets;; ".toList, Text.isLineBoundary c = false) ∧
      ∃ result, Edit.apply "mod pets;".toList (.addImport " use pets;; ") none = .ok result ∧
        Edit.apply result (.addImport " use pets;; ") none = .ok result := by
  have hagain : ∀ group ∈ ["pets", "Pets", "pets"], group ∈ ["Pets", "owners", "pets"] := by decide
  have hline : ∀ c ∈ Text.trim " use pets;; ".toList, Text.isLineBoundary c = false := by decide
  obtain ⟨-, hupdate, himport⟩ := updateIndex_converges "mod pets;".toList ["Pets", "owners", "pets"]
  exact ⟨hagain, hupdate _ hagain, hline, himport _ none hline⟩

end ContractSync.Sync
