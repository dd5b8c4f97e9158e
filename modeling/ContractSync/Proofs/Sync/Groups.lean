import ContractSync.Proofs.Emit.Registration
import ContractSync.Proofs.Name.Module
import ContractSync.Proofs.Route.Merging
import ContractSync.Proofs.Rust.ItemText
import ContractSync.Proofs.Sync.Scaffold
import Mathlib.Data.List.Sort
import Mathlib.Data.String.Basic

/-!
# Groups as modules

The module of a group is named three times: by its file, by its declaration in the index and in the path of
each handler. Some of these are made from the tag of the routes, some from the name of the group, which was
made from the tag before. **All of them name the same module, however often the name is converted**
(`moduleName_agrees`): the name is one identifier, in small letters and not reserved, and another conversion
changes nothing.
-/

namespace ContractSync.Rust

open TokenTree (flattenAll)

/-! ### Declarations of modules -/

/-- A module that is declared and stands elsewhere. -/
theorem Item.read_module {visibility keyword name semicolon : Token} (hpub : visibility.isWord "pub" = true)
    (hkeyword : keyword.isWord "mod" = true) (hname : name.kind = .ident)
    (hsemicolon : semicolon.isPunct ";" = true) (stop : Nat) :
    Item.read stop [.leaf visibility, .leaf keyword, .leaf name, .leaf semicolon] =
      .ok { kind := .module, name := some name.text, stop := semicolon.stop, rest := [] } := by
  have hword : keyword.text = "mod" := by
    rw [Token.isWord, Bool.and_eq_true, beq_iff_eq, beq_iff_eq] at hkeyword
    exact hkeyword.2
  have hskip : Item.skipQualifiers (Entry.dropVisibility
      [.leaf visibility, .leaf keyword, .leaf name, .leaf semicolon]) =
        [.leaf keyword, .leaf name, .leaf semicolon] :=
    (IsFront.pub hpub).skip (by rw [hword]; decide) ⟨name, [.leaf semicolon], rfl⟩
  have hfirst : Item.keyword [.leaf keyword, .leaf name, .leaf semicolon] = "mod" := hword
  have hmark : ∀ tree ∈ [TokenTree.leaf name], ["\x7b", ";"].any tree.isPunct = false := by
    refine List.forall_mem_singleton.mpr ?_
    simp [TokenTree.isPunct, TokenTree.head, Token.isPunct, hname]
  have hfound : ["\x7b", ";"].any (TokenTree.leaf semicolon).isPunct = true := by
    simp [TokenTree.isPunct, TokenTree.head, hsemicolon]
  have hscan : Item.scanTo stop ["\x7b", ";"] [.leaf name, .leaf semicolon] = .ok (.leaf semicolon, []) :=
    Item.scanTo_append hmark hfound
  have hnamed : Item.nameAt stop .module [.leaf name, .leaf semicolon] = .ok name.text := if_pos hname
  rw [Item.read, hskip, Item.readKeyword, hfirst, if_neg (by decide), if_neg (by decide), if_neg (by decide),
    if_pos rfl, List.tail_cons]
  simp only [hnamed, Item.readBlock, hscan, bind, Except.bind]
  rfl

/-- **The declaration of a module is read as such.** -/
theorem parse_moduleDeclaration {name : String} (h : IsIdentifier name) :
    ∃ tree node, parse ("pub mod " ++ name ++ ";").toList = .ok tree ∧ tree.root.children = [node] ∧
      node.itemKind? = some .module ∧ node.name? = some name := by
  have hlead : Writes Anything "pub mod ".toList [⟨.ident, "pub", 0, 0⟩, ⟨.ident, "mod", 0, 0⟩] :=
    .const rfl (by decide +kernel)
  have hend : Writes Anything ";".toList [⟨.punct, ";", 0, 0⟩] := .const rfl (by decide)
  have hgap : IsGap ";".toList := Lexer.isGap_of_mem_gapMarks (d := ';') (by decide)
  have hwrites := (hlead.and (Writes.identifier h)).append hend fun rest _ => hgap.append (by decide) rest
  rw [← String.toList_append, ← String.toList_append] at hwrites
  obtain ⟨ts, hts, hbare⟩ := hwrites.tokenize trivial
  have hflat : ts.map Token.bare = flattenAll [.leaf ⟨.ident, "pub", 0, 0⟩, .leaf ⟨.ident, "mod", 0, 0⟩,
      .leaf ⟨.ident, name, 0, 0⟩, .leaf ⟨.punct, ";", 0, 0⟩] := hbare
  obtain ⟨there, rfl, hthere, htrees⟩ := exists_trees_of_bare hflat rfl
  obtain ⟨a, there₁, rfl, ha, h₁⟩ := List.map_eq_cons_iff.mp htrees
  obtain ⟨b, there₂, rfl, hb, h₂⟩ := List.map_eq_cons_iff.mp h₁
  obtain ⟨c, there₃, rfl, hc, h₃⟩ := List.map_eq_cons_iff.mp h₂
  obtain ⟨d, rfl, hd⟩ := List.map_eq_singleton_iff.mp h₃
  obtain ⟨visibility, rfl, hvisibility⟩ := TokenTree.eq_leaf_of_bare ha
  obtain ⟨keyword, rfl, hkeyword⟩ := TokenTree.eq_leaf_of_bare hb
  obtain ⟨t, rfl, ht⟩ := TokenTree.eq_leaf_of_bare hc
  obtain ⟨semicolon, rfl, hsemicolon⟩ := TokenTree.eq_leaf_of_bare hd
  have hread := Item.read_module (Token.isWord_of_bare hvisibility) (Token.isWord_of_bare hkeyword)
    (show t.kind = .ident from congrArg Token.kind ht) (Token.isPunct_of_bare hsemicolon) 0
  have hident : visibility.kind = .ident := congrArg Token.kind hvisibility
  have hmark : ∀ text, visibility.isPunct text = false := fun text => by
    rw [Token.isPunct, hident]
    rfl
  have hitems := Items.item (congrArg Attribute.Lead.rest (Attribute.lead_of_not_hash (hmark "#") _)) (hmark ";")
    hread rfl Items.nil Items.nil
  rw [Attribute.lead_of_not_hash (hmark "#"), List.nil_append] at hitems
  exact ⟨_, _, parse_eq_ok_iff.mpr ⟨_, _, ⟨hts, hthere, hitems⟩, rfl⟩, rfl, rfl,
    congrArg some (congrArg Token.text ht)⟩

end ContractSync.Rust

namespace ContractSync.Sync

open Name (IsSmallName IsSnake isKeyword moduleName snake)
open Rust (IsIdentifier Node)

/-! ### The file of a group -/

/-- A file is called what stands in front of the last dot. -/
theorem stem_rust_file (directory : PathName) {name : String} (hne : name.toList ≠ []) :
    (filePath directory (name ++ ".rs")).stem = name := by
  have hname : (filePath directory (name ++ ".rs")).name = name ++ ".rs" := by
    rw [filePath, PathName.name, List.getLast?_concat, Option.getD_some]
  have hsuffix : ".rs".toList.reverse = ['s', 'r', '.'] := by decide
  have hback : (name ++ ".rs").toList.reverse = 's' :: 'r' :: '.' :: name.toList.reverse := by
    rw [String.toList_append, List.reverse_append, hsuffix]
    rfl
  have hfull : name.toList.reverse.isEmpty = false := by
    rw [List.isEmpty_reverse, List.isEmpty_eq_false_iff]
    exact hne
  have hcut : ∀ front, Text.cutAt '.' ('s' :: 'r' :: '.' :: front) = (['s', 'r'], some front) := fun _ => rfl
  rw [PathName.stem, hname, PathName.splitName, hback, hcut]
  simp only [hfull, List.isEmpty_cons, Bool.or_self, Bool.false_eq_true, if_false, List.reverse_reverse,
    String.ofList_toList]

/-- **The file of a group is named for its module**, whatever directory it is in. -/
theorem stem_groupFile (directory : PathName) (tag : String) :
    (directory.append (Emit.groupFile tag)).stem = moduleName tag := by
  rw [Emit.groupFile, append_of_rust_file fun c hc => Name.isWordChar_of_mem_moduleName c hc]
  exact stem_rust_file directory (Name.isSmallName_moduleName tag).isWord.nonempty

/-- **A tag and the name of its module name the same module**, in each place where one is named. The name is one
identifier, in small letters and not reserved, so that no group has the file of the index. -/
theorem moduleName_agrees (tag : String) :
    Rust.tokenize (moduleName tag).toList = .ok [⟨.ident, moduleName tag, 0, (moduleName tag).length⟩] ∧
      IsSmallName (moduleName tag) ∧ isKeyword (moduleName tag) = false ∧
      Emit.groupFile tag ≠ Emit.indexFile ∧ moduleName (moduleName tag) = moduleName tag ∧
      (∀ name ∈ [tag, moduleName tag], Emit.groupFile name = moduleName tag ++ ".rs" ∧
        (∀ directory : PathName, (directory.append (Emit.groupFile name)).stem = moduleName tag) ∧
        (∃ tree node, Rust.parse (Emit.groupDeclaration name).toList = .ok tree ∧ tree.root.children = [node] ∧
          node.itemKind? = some .module ∧ node.name? = some (moduleName tag)) ∧
        ∀ handler, (Emit.handlerPath name handler).toList =
          Rust.pathText ["handlers", moduleName tag, handler]) ∧
      snake (snake tag) = snake tag ∧ ∀ name, (∃ other, snake other = name) ↔ IsSnake name := by
  have hagain := Name.moduleName_moduleName tag
  have hkeyword := Name.moduleName_ne_keyword tag
  have hindex : Emit.groupFile tag ≠ Emit.indexFile := by
    have hfile : Emit.indexFile = "mod" ++ ".rs" := by decide
    rw [Emit.groupFile, hfile]
    intro heq
    rw [String.append_left_inj ".rs" |>.mp heq] at hkeyword
    exact absurd hkeyword (by decide)
  have hsame : ∀ name ∈ [tag, moduleName tag], moduleName name = moduleName tag :=
    List.forall_mem_cons.mpr ⟨rfl, List.forall_mem_singleton.mpr hagain⟩
  have hident : IsIdentifier (moduleName tag) :=
    Rust.isIdentifier_iff.mpr (.inl (Name.isPlainName_moduleName tag))
  refine ⟨(Name.isBare_moduleName tag).token, Name.isSmallName_moduleName tag, hkeyword, hindex, hagain,
    fun name hname => ⟨?_, fun directory => ?_, ?_, fun handler => ?_⟩,
    Name.snake_eq_self_iff.mpr (Name.isSnake_snake tag), fun name => Name.exists_snake_eq_iff⟩
  · rw [Emit.groupFile, hsame name hname]
  · rw [stem_groupFile, hsame name hname]
  · rw [Emit.groupDeclaration, hsame name hname]
    exact Rust.parse_moduleDeclaration hident
  · rw [Emit.handlerPath_eq, hsame name hname, String.toList_ofList]

/-! ### Groups as they are met -/

variable {routes routes' : List Route} {names names' : List String} {directory : PathName} {config : Option PathName}

/-- One more route goes behind those of its group, or makes a new group, which comes last. -/
def addToGroup (groups : List (String × List Route)) (route : Route) : List (String × List Route) :=
  if groups.any (·.1 == groupOf route) then
    groups.map fun group => if group.1 == groupOf route then (group.1, group.2 ++ [route]) else group
  else groups ++ [(groupOf route, [route])]

/-- The groups of routes, in the order in which they are met. -/
def grouped (routes : List Route) : List (String × List Route) := routes.foldl addToGroup []

theorem inGroup_concat_self (routes : List Route) (route : Route) :
    inGroup (routes ++ [route]) (groupOf route) = inGroup routes (groupOf route) ++ [route] := by
  simp only [inGroup, List.filter_append, List.filter_singleton, beq_self_eq_true, cond_true]

theorem inGroup_concat_of_ne {route : Route} {name : String} (h : groupOf route ≠ name) (routes : List Route) :
    inGroup (routes ++ [route]) name = inGroup routes name := by
  simp only [inGroup, List.filter_append, List.filter_singleton, beq_eq_false_iff_ne.mpr h, cond_false,
    List.append_nil]

theorem inGroup_eq_nil {name : String} (h : name ∉ routes.map groupOf) : inGroup routes name = [] := by
  refine List.filter_eq_nil_iff.mpr fun route hroute hname => h ?_
  rw [← beq_iff_eq.mp hname]
  exact List.mem_map_of_mem hroute

/-- Each group has the routes of its name, in order. -/
theorem grouped_eq (routes : List Route) :
    grouped routes = (routes.map groupOf).eraseDups.map fun name => (name, inGroup routes name) := by
  induction routes using List.reverseRecOn with
  | nil => rfl
  | append_singleton routes route ih =>
    have hany : (grouped routes).any (·.1 == groupOf route) = true ↔ groupOf route ∈ routes.map groupOf := by
      rw [ih, List.any_map, List.any_eq_true, ← List.mem_eraseDups]
      simp only [Function.comp, beq_iff_eq, exists_eq_right]
    rw [grouped, List.foldl_append, List.foldl_cons, List.foldl_nil, ← grouped, addToGroup, List.map_append,
      List.map_singleton]
    -- The route belongs to a group that was met before, or opens one at the end.
    by_cases hmet : groupOf route ∈ routes.map groupOf
    · rw [if_pos (hany.mpr hmet), eraseDups_concat_of_mem hmet, ih, List.map_map]
      refine List.map_congr_left fun name _ => ?_
      rw [Function.comp]
      split <;> rename_i hname
      · have hname : name = groupOf route := beq_iff_eq.mp hname
        rw [hname, inGroup_concat_self]
      · rw [inGroup_concat_of_ne fun heq => hname (beq_iff_eq.mpr heq.symm)]
    · rw [if_neg (mt hany.mp hmet), eraseDups_concat_of_notMem hmet, ih, List.map_append, List.map_singleton,
        inGroup_concat_self, inGroup_eq_nil hmet]
      refine congrArg (· ++ _) (List.map_congr_left fun name hname => ?_)
      rw [inGroup_concat_of_ne]
      rintro rfl
      exact hmet (List.mem_eraseDups.mp hname)

/-- The names of the groups that are met are worked on in alphabetical order. -/
theorem groupNames_eq (routes : List Route) :
    groupNames routes = ((grouped routes).map (·.1)).mergeSort fun a b => decide (a ≤ b) := by
  rw [groupNames, grouped_eq, List.map_map]
  refine congrArg (List.mergeSort · _) ?_
  exact (List.map_id _).symm

/-! ### Groups that interleave -/

/-- The same routes, those of each group in the same order. -/
structure Interleaves (routes routes' : List Route) : Prop where
  perm : routes.Perm routes'
  within : ∀ name, inGroup routes' name = inGroup routes name

namespace Interleaves

theorem trans {routes'' : List Route} (h : Interleaves routes routes') (h' : Interleaves routes' routes'') :
    Interleaves routes routes'' :=
  ⟨h.perm.trans h'.perm, fun name => (h'.within name).trans (h.within name)⟩

/-- Neighbours of different groups may change places. -/
theorem swap {a b : Route} (h : groupOf a ≠ groupOf b) (before behind : List Route) :
    Interleaves (before ++ a :: b :: behind) (before ++ b :: a :: behind) := by
  have hpair : ∀ p : Route → Bool, ¬ (p a = true ∧ p b = true) → [b, a].filter p = [a, b].filter p := by
    intro p hp
    cases ha : p a <;> cases hb : p b <;> simp_all
  refine ⟨(List.Perm.swap b a behind).append_left before, fun name => ?_⟩
  have hname := hpair (groupOf · == name) fun hboth =>
    h ((beq_iff_eq.mp hboth.1).trans (beq_iff_eq.mp hboth.2).symm)
  show (before ++ ([b, a] ++ behind)).filter _ = (before ++ ([a, b] ++ behind)).filter _
  rw [List.filter_append, List.filter_append, List.filter_append, List.filter_append, hname]

variable (h : Interleaves routes routes')
include h

/-- The groups are the same; they are met in another order. -/
theorem grouped_perm : (grouped routes).Perm (grouped routes') := by
  have hnodup : ∀ routes : List Route, (routes.map groupOf).eraseDups.Nodup := fun routes =>
    (List.mergeSort_perm _ _).nodup_iff.mp (nodup_groupNames routes)
  have hnames : (routes.map groupOf).eraseDups.Perm (routes'.map groupOf).eraseDups := by
    refine (List.perm_ext_iff_of_nodup (hnodup routes) (hnodup routes')).mpr fun name => ?_
    rw [List.mem_eraseDups, List.mem_eraseDups, (h.perm.map groupOf).mem_iff]
  rw [grouped_eq, grouped_eq]
  simp only [h.within]
  exact hnames.map _

theorem groupNames_eq : groupNames routes' = groupNames routes := by
  refine (ascending_groupNames routes').eq_of_mem_iff (ascending_groupNames routes) fun name => ?_
  rw [mem_groupNames, mem_groupNames]
  exact exists_congr fun route => and_congr_left fun _ => h.perm.symm.mem_iff

theorem registerGroups_eq (source : List Char) (path : Option String) :
    registerGroups source routes' path = registerGroups source routes path := by
  unfold registerGroups
  simp only [h.groupNames_eq, h.within]

theorem jobs_eq : jobs directory routes' config = jobs directory routes config := by
  have hmodule : moduleJob directory routes' = moduleJob directory routes := funext fun name => by
    simp only [moduleJob, h.within]
  have hindex : indexJob directory routes' = indexJob directory routes := by
    simp only [indexJob, h.groupNames_eq]
  have hregistration : registrationJob routes' = registrationJob routes := funext fun path => by
    simp only [registrationJob, h.registerGroups_eq]
  rw [jobs, jobs, h.groupNames_eq, hmodule, hindex, hregistration]

theorem syncRoutes_eq (m : Type → Type) [Monad m] [Workspace m] :
    syncRoutes (m := m) routes' directory config = syncRoutes routes directory config := by
  have hgroup : syncGroup (m := m) directory routes' = syncGroup directory routes := funext fun name => by
    simp only [syncGroup, h.within]
  have hindex : syncIndex (m := m) directory routes' = syncIndex directory routes := by
    simp only [syncIndex, h.groupNames_eq]
  have hregistrations : ∀ path, syncRegistrations (m := m) path routes' = syncRegistrations path routes := fun path => by
    simp only [syncRegistrations, h.registerGroups_eq]
  have hempty : routes'.isEmpty = routes.isEmpty := h.perm.symm.isEmpty_eq
  unfold syncRoutes
  simp only [hempty, h.groupNames_eq, hgroup, hindex, hregistrations]

end Interleaves

/-- The index does not depend on the order in which the groups are named. -/
theorem updateIndex_perm (hperm : names.Perm names') (source : List Char) :
    updateIndex source names' = updateIndex source names := by
  have hsorted : (names'.mergeSort fun a b => decide (b ≤ a)) = names.mergeSort fun a b => decide (b ≤ a) := by
    have hmerge : ∀ names : List String, (names.mergeSort fun a b => decide (b ≤ a)).Pairwise (· ≥ ·) :=
      List.pairwise_mergeSort' (· ≥ ·)
    refine List.Perm.eq_of_pairwise' (hmerge names') (hmerge names) ?_
    exact (List.mergeSort_perm _ _).trans (hperm.symm.trans (List.mergeSort_perm _ _).symm)
  rw [updateIndex, updateIndex, hsorted]

/-- **How the groups of routes interleave leaves no trace in the files.** The groups are met in another order, but
each file is brought up to date in the same way, whatever it holds, and the whole run does the same. -/
theorem syncRoutes_interleaved (h : Interleaves routes routes') (directory : PathName) (config : Option PathName) :
    (grouped routes).Perm (grouped routes') ∧
      (∀ source, updateIndex source ((grouped routes').map (·.1)) = updateIndex source (groupNames routes)) ∧
      (∀ source path, registerGroups source routes' path = registerGroups source routes path) ∧
      jobs directory routes' config = jobs directory routes config ∧
      ∀ (m : Type → Type) [Monad m] [Workspace m],
        syncRoutes (m := m) routes' directory config = syncRoutes routes directory config := by
  have hnames : (groupNames routes).Perm ((grouped routes').map (·.1)) := by
    rw [← h.groupNames_eq, groupNames_eq]
    exact List.mergeSort_perm _ _
  exact ⟨h.grouped_perm, updateIndex_perm hnames, h.registerGroups_eq, h.jobs_eq, h.syncRoutes_eq⟩

/-- Two routes of one group, under different tags. -/
def listUsers : Route := { path := "/users", method := "get", handlerName := "list_users", tags := ["User Accounts"] }

def addUser : Route := { path := "/users", method := "post", handlerName := "add_user", tags := ["user-accounts"] }

/-- A route of another group. -/
def listPets : Route := { path := "/pets", method := "get", handlerName := "list_pets", tags := ["pets"] }

/-- The groups are met in two orders, and the same is done. -/
theorem syncRoutes_interleaved_pets :
    Interleaves [listUsers, addUser, listPets] [listPets, listUsers, addUser] ∧
      (grouped [listUsers, addUser, listPets]).map (·.1) = ["user_accounts", "pets"] ∧
      (grouped [listPets, listUsers, addUser]).map (·.1) = ["pets", "user_accounts"] ∧
      jobs ⟨.relative, ["src"]⟩ [listPets, listUsers, addUser] none =
        jobs ⟨.relative, ["src"]⟩ [listUsers, addUser, listPets] none := by
  have hlist : groupOf listUsers ≠ groupOf listPets := by decide +kernel
  have hadd : groupOf addUser ≠ groupOf listPets := by decide +kernel
  have h : Interleaves [listUsers, addUser, listPets] [listPets, listUsers, addUser] :=
    (Interleaves.swap hadd [listUsers] []).trans (Interleaves.swap hlist [] [addUser])
  exact ⟨h, by decide +kernel, by decide +kernel, (syncRoutes_interleaved h _ none).2.2.2.1⟩

end ContractSync.Sync
