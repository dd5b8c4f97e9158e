import ContractSync.Proofs.Edit.Keep
import ContractSync.Proofs.Emit.Pieces
import ContractSync.Proofs.Rust.ItemText
import ContractSync.Proofs.Rust.Writing
import ContractSync.Proofs.Sync.Growth
import ContractSync.Sync.Tests

/-!
# The file of tests grows

**A test is written as one function** (`exists_testFunction`): the path of the route stands in a literal,
the method in a call or in a literal of its own, and whatever they hold, the braces of the function are
found where they were written.

**A file of tests only grows** (`updateTests_grows`): what was there stays in front, each handler of the
service that had no test gets one function, and a second run adds nothing. Handlers with a raw name are
left out, since no name can hold a raw marker behind other letters: their tests are not found again
(`updateTests_again`).
-/

namespace ContractSync.Emit

open Rust (Anything IsCode IsIdentifier IsItemText IsPlainName Passes Token TokenTree
  Writes)

variable {route : Route} {app : String}

/-- The attribute of a test. -/
def testAttribute : List TokenTree :=
  [.leaf ⟨.punct, "#", 0, 0⟩,
    .group ⟨.punct, "[", 0, 0⟩
      [.leaf ⟨.ident, "actix_web", 0, 0⟩, .leaf ⟨.punct, "::", 0, 0⟩, .leaf ⟨.ident, "test", 0, 0⟩]
      ⟨.punct, "]", 0, 0⟩]

theorem passes_bodySetup (body : Option Route.RequestBody) (due : List String) :
    Passes Anything due due (bodySetup body).toList := by
  have hnil : Passes Anything due due [] := ⟨_, .nil, rfl⟩
  unfold bodySetup
  split
  · exact hnil
  · split
    · exact (Passes.const rfl (by decide)).balanced due
    · exact (Passes.const rfl (by decide)).balanced due
    · exact (Passes.const rfl (by decide)).balanced due
    · exact hnil
    · exact hnil

/-- What stands between the braces of a test. -/
def testBody (route : Route) (app : String) : List Char :=
  "    let app = test::init_service(App::new().configure(".toList ++ (app.toList ++ (")).await;\n".toList
    ++ ("    let req = test::TestRequest::".toList ++ ((requestCall route.method).toList ++ (".uri(".toList
    ++ ((quoted (sampleUri route)).toList ++ (")\n".toList ++ ((bodySetup route.body).toList
    ++ ("        .to_request();\n".toList ++ ("    let resp = test::call_service(&app, req).await;\n".toList
    ++ ("    assert_ne!(resp.status(), actix_web::http::StatusCode::NOT_FOUND, ".toList
    ++ "\"Route should exist\");\n".toList)))))))))))

theorem passes_testBody (hmethod : IsQuotable route.method) (happ : IsCode app) :
    Passes Anything [] [] (testBody route app) := by
  have hsetup : Passes Anything [] [")", ")"]
      "    let app = test::init_service(App::new().configure(".toList :=
    .const rfl (by decide)
  have happ' : Passes Anything [")", ")"] [] (app.toList ++ ")).await;\n".toList) :=
    (happ.passes.balanced _).append (.const rfl (by decide))
      fun rest _ => ⟨.of_isCalm (by decide +kernel), rfl⟩
  have hrequest : Passes Anything [] [] "    let req = test::TestRequest::".toList :=
    .const rfl (by decide)
  have huri : Passes Anything [] [")"] ".uri(".toList := .const rfl (by decide)
  have hpath := Passes.leaf (writes_quoted (sampleUri route)) nofun [")"]
  have hclose : Passes Anything [")"] [] ")\n".toList := .const rfl (by decide)
  have hsend : Passes Anything [] [] "        .to_request();\n".toList :=
    .const rfl (by decide)
  have hcall : Passes Anything [] [] "    let resp = test::call_service(&app, req).await;\n".toList :=
    .const rfl (by decide)
  have hassert : Passes Anything [] [")"]
      "    assert_ne!(resp.status(), actix_web::http::StatusCode::NOT_FOUND, ".toList :=
    .const rfl (by decide)
  have hmessage : Passes Anything [")"] [] "\"Route should exist\");\n".toList :=
    .const rfl (by decide)
  have hall := hsetup.and (happ'.and (hrequest.and ((passes_requestCall hmethod).and (huri.and
    (hpath.and (hclose.and ((passes_bodySetup route.body []).and (hsend.and
      (hcall.and (hassert.and hmessage))))))))))
  unfold testBody
  rwa [List.append_assoc app.toList] at hall

theorem isIdentifier_testName (h : IsPlainName route.handlerName) : IsIdentifier (testName route) := by
  refine Rust.isIdentifier_iff.mpr (.inl ?_)
  rw [testName, String.toList_append]
  exact @Rust.isPlainName_append "test_".toList _ (by decide) (Rust.isIdentChar_of_mem_plainName h)

theorem testFunction_toList (route : Route) (app : String) :
    (testFunction route app).toList = "#[actix_web::test]\nasync fn ".toList ++
      ((testName route).toList ++ ("() \x7b\n".toList ++ (testBody route app ++ "\x7d\n".toList))) := by
  have hend : "\"Route should exist\");\n\x7d\n".toList =
      "\"Route should exist\");\n".toList ++ "\x7d\n".toList := by decide
  unfold testFunction testBody
  simp only [String.toList_append, List.append_assoc]
  rw [hend]

/-- The tokens up to the body of a function with this name; `more` stands behind the name. -/
def testHead (name : String) (more : List TokenTree) : List Token :=
  TokenTree.flattenAll testAttribute ++ ⟨.ident, "async", 0, 0⟩ :: ⟨.ident, "fn", 0, 0⟩ ::
    ⟨.ident, name, 0, 0⟩ :: (TokenTree.flattenAll more ++
      [⟨.punct, "(", 0, 0⟩, ⟨.punct, ")", 0, 0⟩, ⟨.punct, "\x7b", 0, 0⟩])

/-- What is written as the head of a test and the body of one is a function. -/
theorem exists_test {head : List Char} {name : String} {more : List TokenTree}
    (hhead : Writes Anything head (testHead name more)) (hnested : TokenTree.isNestedAll more = true)
    (hmore : ∀ tree ∈ more, ["\x7b", ";"].any tree.isPunct = false)
    (hmethod : IsQuotable route.method) (happ : IsCode app) :
    ∃ node, IsItemText (head ++ (testBody route app ++ "\x7d\n".toList)) node ∧
      node.itemKind? = some .function ∧ node.name? = some name := by
  obtain ⟨body, hbody, hnest⟩ := passes_testBody hmethod happ
  have hclose : Writes Anything "\x7d\n".toList [⟨.punct, "\x7d", 0, 0⟩] := .const rfl (by decide)
  have hall := hhead.and (hbody.and hclose)
  obtain ⟨node, hnode, hkind, hname, -⟩ := Rust.exists_function testAttribute
    [.leaf ⟨.ident, "async", 0, 0⟩] (more ++ [.group ⟨.punct, "(", 0, 0⟩ [] ⟨.punct, ")", 0, 0⟩]) body
    (by simpa [testHead, TokenTree.flattenAll_append, TokenTree.flattenAll, TokenTree.flatten] using hall)
    (.cons rfl rfl .nil) (.async rfl)
    (by simp only [TokenTree.isNestedAll_append, hnested]; rfl)
    (List.forall_mem_append.mpr ⟨hmore, by decide⟩) hnest
  exact ⟨node, hnode, hkind, hname⟩

/-- **A test is one function**, named for the handler of its route. -/
theorem exists_testFunction (hmethod : IsQuotable route.method) (happ : IsCode app)
    (hname : IsPlainName route.handlerName) :
    ∃ node, IsItemText (testFunction route app).toList node ∧ node.itemKind? = some .function ∧
      node.name? = some (testName route) := by
  have hlead : Writes Anything "#[actix_web::test]\nasync fn ".toList
      (TokenTree.flattenAll testAttribute ++ [⟨.ident, "async", 0, 0⟩, ⟨.ident, "fn", 0, 0⟩]) :=
    .const rfl (by decide)
  have hopen : Writes Anything "() \x7b\n".toList
      (TokenTree.flattenAll [] ++ [⟨.punct, "(", 0, 0⟩, ⟨.punct, ")", 0, 0⟩, ⟨.punct, "\x7b", 0, 0⟩]) :=
    .const rfl (by decide)
  have hhead := hlead.and ((Writes.identifier (isIdentifier_testName hname)).append hopen
    fun rest _ => Rust.IsGap.append (by decide +kernel) (by decide) rest)
  rw [testFunction_toList, ← List.append_assoc, ← List.append_assoc, List.append_assoc _ _ "() \x7b\n".toList]
  exact exists_test hhead rfl (List.forall_mem_nil _) hmethod happ

end ContractSync.Emit

namespace ContractSync.Sync

open Emit (IsQuotable testName)
open Rust (IsCode IsPlainName Node Tree)

namespace TestFile

variable {app : String} {file : TestFile} {tree : Tree} {routes : List Route}

/-- The file is a text with these functions. -/
structure Holds (file : TestFile) (tree : Tree) : Prop where
  grown : Grown file.source tree
  functions : ∀ name, name ∈ file.functions ↔ name ∈ tree.functionNames

/-- The route asks for a test that is to be written. -/
def Lacks (functions : List String) (routes : List Route) (name : String) : Prop :=
  name ∉ functions ∧ ∃ route ∈ routes, route.kind = .standard ∧ testName route = name

/-- A route whose test can be written. -/
structure IsTestable (route : Route) : Prop where
  name : IsPlainName route.handlerName
  method : IsQuotable route.method

theorem addRoute_of_known {route : Route}
    (h : route.kind = .standard → testName route ∈ file.functions) : file.addRoute app route = file := by
  unfold addRoute
  split
  · rfl
  · rename_i hkind
    exact if_pos (List.contains_iff_mem.mpr (h hkind))

theorem foldl_addRoute_of_known
    (h : ∀ route ∈ routes, route.kind = .standard → testName route ∈ file.functions) :
    routes.foldl (addRoute app) file = file := by
  induction routes with
  | nil => rfl
  | cons route routes ih =>
    obtain ⟨hroute, hroutes⟩ := List.forall_mem_cons.mp h
    rw [List.foldl_cons, addRoute_of_known hroute, ih hroutes]

/-- **One route**: a test that is missing is one function more. -/
theorem Holds.addRoute (h : file.Holds tree) (happ : IsCode app) {route : Route}
    (hroute : IsTestable route) (hkind : route.kind = .standard)
    (hnew : testName route ∉ file.functions) :
    ∃ after, (file.addRoute app route).Holds after ∧ file.source <+: (file.addRoute app route).source ∧
      after.functionNames = tree.functionNames ++ [testName route] := by
  obtain ⟨node, hnode, hfunction, hname⟩ := Emit.exists_testFunction hroute.method happ hroute.name
  obtain ⟨front, after, heq, hkept, hgrown, -, hnames⟩ := h.grown.append hnode
  have hnames := (hnames .function).trans (congrArg _ (Node.nameOf_self hfunction hname))
  have hadd : file.addRoute app route =
      ⟨appendBlock file.source (Emit.testFunction route app).toList, testName route :: file.functions⟩ := by
    unfold TestFile.addRoute
    simp only [hkind]
    rw [if_neg fun h => hnew (List.contains_iff_mem.mp h)]
  rw [hadd]
  refine ⟨after, ⟨hgrown, fun name => ?_⟩, heq ▸ hkept.trans (List.prefix_append _ _), hnames⟩
  rw [Tree.functionNames_eq, hnames, List.mem_cons, List.mem_append, List.mem_singleton, h.functions,
    or_comm]
  rfl

/-- **All routes**: what is added is what was missing, each name once. -/
theorem Holds.foldl_addRoute (h : file.Holds tree) (happ : IsCode app)
    (hroutes : ∀ route ∈ routes, route.kind = .standard → IsTestable route) :
    ∃ after added, (routes.foldl (TestFile.addRoute app) file).Holds after ∧
      file.source <+: (routes.foldl (TestFile.addRoute app) file).source ∧
      after.functionNames = tree.functionNames ++ added ∧ added.Nodup ∧
      ∀ name, name ∈ added ↔ Lacks tree.functionNames routes name := by
  induction routes generalizing file tree with
  | nil =>
    refine ⟨tree, [], h, List.prefix_refl _, (List.append_nil _).symm, .nil, fun name => ?_⟩
    exact iff_of_false nofun fun ⟨_, _, hmem, _⟩ => nomatch hmem
  | cons route routes ih =>
    obtain ⟨hroute, hroutes⟩ := List.forall_mem_cons.mp hroutes
    rw [List.foldl_cons]
    by_cases hknown : route.kind = .standard → testName route ∈ file.functions
    · -- Nothing is asked for, or nothing is missing.
      rw [addRoute_of_known hknown]
      obtain ⟨after, added, hafter, hkept, hnames, hnodup, hadded⟩ := ih h hroutes
      refine ⟨after, added, hafter, hkept, hnames, hnodup, fun name => (hadded name).trans ?_⟩
      refine and_congr_right fun hnot => ⟨fun ⟨r, hr, hrest⟩ => ⟨r, List.mem_cons_of_mem _ hr, hrest⟩, ?_⟩
      rintro ⟨r, hr, hkind, rfl⟩
      rcases List.mem_cons.mp hr with rfl | hr
      · exact absurd ((h.functions _).mp (hknown hkind)) hnot
      · exact ⟨r, hr, hkind, rfl⟩
    · rw [Classical.not_imp] at hknown
      obtain ⟨hkind, hnew⟩ := hknown
      obtain ⟨between, hbetween, hfirst, hone⟩ := h.addRoute happ (hroute hkind) hkind hnew
      obtain ⟨after, added, hafter, hkept, hnames, hnodup, hadded⟩ := ih hbetween hroutes
      have hnew' : testName route ∉ tree.functionNames := fun hmem => hnew ((h.functions _).mpr hmem)
      refine ⟨after, testName route :: added, hafter, hfirst.trans hkept, ?_, ?_, fun name => ?_⟩
      · rw [hnames, hone, List.append_assoc, List.singleton_append]
      · refine List.nodup_cons.mpr ⟨fun hmem => ?_, hnodup⟩
        exact ((hadded _).mp hmem).1 (hone ▸ List.mem_append_right _ (List.mem_singleton_self _))
      · rw [List.mem_cons, hadded, Lacks, hone, List.mem_append, List.mem_singleton, not_or]
        constructor
        · rintro (rfl | ⟨⟨hnot, -⟩, r, hr, hrest⟩)
          · exact ⟨hnew', route, List.mem_cons_self, hkind, rfl⟩
          · exact ⟨hnot, r, List.mem_cons_of_mem _ hr, hrest⟩
        · rintro ⟨hnot, r, hr, hstandard, rfl⟩
          by_cases hsame : testName r = testName route
          · exact .inl hsame
          · rcases List.mem_cons.mp hr with rfl | hr
            · exact absurd rfl hsame
            · exact .inr ⟨⟨hnot, hsame⟩, r, hr, hstandard, rfl⟩

theorem ofSource_of_grown {source : List Char} (h : Grown source tree)
    (hblank : Text.isAllBlank source = false) (path : Option String) :
    ofSource source path = .ok ⟨source, tree.functionNames⟩ := by
  rw [ofSource, hblank, if_neg Bool.false_ne_true, Edit.readSource_eq_ok.mpr h.parsed]
  rfl

/-- Where a file of tests starts: at the head, or at the text that is there. -/
theorem exists_ofSource {source : List Char} (path : Option String)
    (h : Text.isAllBlank source = true ∨ ∃ tree, Grown source tree) :
    ∃ start tree, ofSource source path = .ok start ∧ start.Holds tree ∧
      tree.functionNames = functionsOf source ∧ Text.isAllBlank start.source = false ∧
      (Text.isAllBlank source = false → start.source = source) := by
  by_cases hblank : Text.isAllBlank source = true
  · have htext : Emit.testHeader.toList = _ := Text.toList_append_eq (Text.toList_const rfl) (Text.toList_const rfl)
    have hhead : ∃ tree ∈ grownOf? Emit.testHeader.toList, tree.functionNames = [] := by
      rw [htext]
      decide +kernel
    have hnotBlank : Text.isAllBlank Emit.testHeader.toList = false := by
      rw [htext]
      decide
    obtain ⟨tree, htree, hnone⟩ := hhead
    have hgrown := Grown.of_grownOf? (Option.mem_def.mp htree)
    refine ⟨⟨Emit.testHeader.toList, []⟩, tree, if_pos hblank, ⟨hgrown, fun name => by rw [hnone]⟩,
      hnone.trans (functionsOf_of_isAllBlank hblank).symm, hnotBlank, fun h => ?_⟩
    rw [hblank] at h
    cases h
  · obtain ⟨tree, htree⟩ := h.resolve_left hblank
    rw [Bool.not_eq_true] at hblank
    exact ⟨⟨source, tree.functionNames⟩, tree, ofSource_of_grown htree hblank path,
      ⟨htree, fun _ => Iff.rfl⟩, (functionsOf_eq htree.parsed).symm, hblank, fun _ => rfl⟩

end TestFile

/-- **A file of tests only grows.** What was there stays in front; each handler of the service that had no
test gets one function, webhooks get none, and a second run changes nothing. -/
theorem updateTests_grows {source : List Char} {routes : List Route} {app : String}
    (path : Option String) (hsource : Text.isAllBlank source = true ∨ ∃ tree, Grown source tree)
    (happ : IsCode app)
    (hroutes : ∀ route ∈ routes, route.kind = .standard → TestFile.IsTestable route) :
    ∃ result after added, updateTests source routes app path = .ok result ∧
      Rust.parse result = .ok after ∧ (Text.isAllBlank source = false → source <+: result) ∧
      after.functionNames = functionsOf source ++ added ∧ added.Nodup ∧
      (∀ name, name ∈ added ↔ TestFile.Lacks (functionsOf source) routes name) ∧
      updateTests result routes app path = .ok result := by
  obtain ⟨start, tree, hstart, hholds, hnames, hblank, hsame⟩ := TestFile.exists_ofSource path hsource
  obtain ⟨after, added, hafter, hkept, hadd, hnodup, hmem⟩ := hholds.foldl_addRoute happ hroutes
  rw [hnames] at hadd hmem
  have hrun : updateTests source routes app path =
      .ok (routes.foldl (TestFile.addRoute app) start).source := by
    rw [updateTests, hstart]
    rfl
  refine ⟨_, after, added, hrun, hafter.grown.parsed, fun h => hsame h ▸ hkept, hadd, hnodup, hmem, ?_⟩
  -- The second run finds every test.
  have hgrown := hafter.grown
  generalize (routes.foldl (TestFile.addRoute app) start).source = result at hgrown hkept
  rw [updateTests,
    TestFile.ofSource_of_grown hgrown (not_isAllBlank_of_extends hkept hblank) path]
  refine congrArg (fun file => Except.ok (TestFile.source file))
    (TestFile.foldl_addRoute_of_known fun route hroute hkind => ?_)
  show testName route ∈ after.functionNames
  rw [hadd, List.mem_append, hmem]
  by_cases hold : testName route ∈ functionsOf source
  · exact .inl hold
  · exact .inr ⟨hold, route, hroute, hkind, rfl⟩

/-- A file with a test, in front of a comment, and two routes: one has its test, the other one has none. -/
def growSample : List Char := "async fn test_a() \x7b\x7d\n// end".toList

def growRoutes : List Route :=
  [{ path := "/\"\\", method := "get", handlerName := "a" },
    { path := "/é", method := "query", handlerName := "b" },
    { path := "/", method := "post", handlerName := "c", kind := .webhook }]

theorem updateTests_grows_commentSample :
    (Text.isAllBlank growSample = true ∨ ∃ tree, Grown growSample tree) ∧
      (∀ route ∈ growRoutes, route.kind = .standard → TestFile.IsTestable route) ∧
      ∃ result after added, updateTests growSample growRoutes = .ok result ∧
        Rust.parse result = .ok after ∧ (Text.isAllBlank growSample = false → growSample <+: result) ∧
        after.functionNames = functionsOf growSample ++ added ∧ added.Nodup ∧
        (∀ name, name ∈ added ↔ TestFile.Lacks (functionsOf growSample) growRoutes name) ∧
        updateTests result growRoutes = .ok result := by
  have htext : growSample = _ := Text.toList_const rfl
  have hsample : ∃ tree ∈ (Rust.parse growSample).toOption, IsClosedText growSample := by
    rw [htext]
    decide +kernel
  obtain ⟨tree, htree, hclosed⟩ := hsample
  have hgrown : Grown growSample tree := ⟨eq_ok_of_toOption htree, hclosed⟩
  have hroutes : ∀ route ∈ growRoutes, route.kind = .standard → TestFile.IsTestable route := by
    have hall : ∀ route ∈ growRoutes, IsPlainName route.handlerName ∧ IsQuotable route.method := by
      decide
    exact fun route hroute _ => ⟨(hall route hroute).1, (hall route hroute).2⟩
  have happ : IsCode defaultApp :=
    @Rust.isCode_path ["crate", "http", "routes", "config"] nofun (by decide)
  exact ⟨.inr ⟨tree, hgrown⟩, hroutes, updateTests_grows none (.inr ⟨tree, hgrown⟩) happ hroutes⟩

theorem appendBlock_ne_self {source block : List Char} (h : block ≠ []) :
    appendBlock source block ≠ source := by
  have hlong : source.length ≤ (closeLines source).length := by
    rw [closeLines]
    split
    · exact Nat.le_refl _
    split <;> exact List.length_append ▸ Nat.le_add_right _ _
  have hpos := List.length_pos_iff.mpr h
  intro heq
  have hlength := congrArg List.length heq
  rw [appendBlock] at hlength
  split at hlength <;> rw [List.length_append] at hlength <;> omega

/-- A handler with a raw name, as the method gives it where the path says nothing. -/
def rawRoute : Route := { path := "/", method := "r#match", handlerName := "r#match" }

/-- A test with a raw name is read as a function with the first part of the name. -/
theorem exists_rawTest :
    ∃ node, Rust.IsItemText (Emit.testFunction rawRoute defaultApp).toList node ∧
      node.itemKind? = some .function ∧ node.name? = some "test_r" := by
  have happ : IsCode defaultApp :=
    @Rust.isCode_path ["crate", "http", "routes", "config"] nofun (by decide)
  have hhead : Rust.Writes Rust.Anything "#[actix_web::test]\nasync fn test_r#match() \x7b\n".toList
      (Emit.testHead "test_r" [.leaf ⟨.punct, "#", 0, 0⟩, .leaf ⟨.ident, "match", 0, 0⟩]) :=
    .const rfl (by decide)
  have htext : "#[actix_web::test]\nasync fn test_r#match() \x7b\n".toList =
      "#[actix_web::test]\nasync fn ".toList ++
        ((testName rawRoute).toList ++ "() \x7b\n".toList) := by decide
  rw [Emit.testFunction_toList, ← List.append_assoc (testName rawRoute).toList, ← List.append_assoc,
    ← htext]
  exact Emit.exists_test hhead rfl (by decide) (by decide : IsQuotable "r#match") happ

/-- **A test whose handler has a raw name is written again**: it is read as a function with another
name. -/
theorem updateTests_again :
    Rust.IsIdentifier rawRoute.handlerName ∧ IsQuotable rawRoute.method ∧
      ∃ first second, updateTests [] [rawRoute] = .ok first ∧
        updateTests first [rawRoute] = .ok second ∧ second ≠ first := by
  refine ⟨by decide, by decide, ?_⟩
  have hadd : ∀ {source : List Char} {functions : List String}, testName rawRoute ∉ functions →
      TestFile.addRoute defaultApp ⟨source, functions⟩ rawRoute =
        ⟨appendBlock source (Emit.testFunction rawRoute defaultApp).toList,
          testName rawRoute :: functions⟩ := fun h => if_neg fun hmem => h (List.contains_iff_mem.mp hmem)
  have hrun : ∀ {source : List Char} {start : TestFile}, TestFile.ofSource source none = .ok start →
      testName rawRoute ∉ start.functions → updateTests source [rawRoute] =
        .ok (appendBlock start.source (Emit.testFunction rawRoute defaultApp).toList) := by
    intro source start hstart hnew
    rw [updateTests, hstart]
    exact congrArg (fun file => Except.ok (TestFile.source file)) (hadd hnew)
  obtain ⟨start, tree, hstart, hholds, hnames, hblank, -⟩ :=
    @TestFile.exists_ofSource [] none (.inl rfl)
  obtain ⟨node, hnode, hkind, hname⟩ := exists_rawTest
  obtain ⟨front, after, heq, hkept, hgrown, -, hafter⟩ := hholds.grown.append hnode
  rw [functionsOf_of_isAllBlank rfl] at hnames
  have hnone : testName rawRoute ∉ start.functions := by
    rw [hholds.functions, hnames]
    nofun
  have hlost : testName rawRoute ∉ after.functionNames := by
    rw [Tree.functionNames_eq, hafter, ← Tree.functionNames_eq, hnames, Node.nameOf_self hkind hname]
    decide
  have hnext := TestFile.ofSource_of_grown hgrown
    (not_isAllBlank_of_extends (heq ▸ hkept.trans (List.prefix_append _ _)) hblank) none
  have hblock : (Emit.testFunction rawRoute defaultApp).toList ≠ [] := by
    rw [Emit.testFunction_toList]
    exact List.append_ne_nil_of_left_ne_nil (by decide) _
  exact ⟨_, _, hrun hstart hnone, hrun hnext hlost, appendBlock_ne_self hblock⟩

end ContractSync.Sync
