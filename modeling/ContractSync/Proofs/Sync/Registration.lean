import ContractSync.Proofs.Emit.Registration
import ContractSync.Proofs.Sync.Growth
import ContractSync.Sync.Registration

/-!
# Registering the routes of a group

A text with a configuration function takes one statement after another at the end of the function's body
(`IsRegistry.insert`). What occurs in the body then is what occurred there and what occurs in the
statement. **All standard routes of a group are registered once, in their order, and a second run finds
them** (`registerRoutes_inserts`), as long as no handler's name is the beginning of one before it that goes
on with something else than a word character: such a handler counts as registered (`registerRoutes_loses`).
-/

namespace ContractSync.Rust

/-- The tokens of a text, wherever it stands. -/
def marksOf (text : List Char) : List Token :=
  ((tokenize text).toOption.getD []).map Token.bare

theorem marksOf_eq {text : List Char} {ts : List Token} (h : tokenize text = .ok ts) :
    marksOf text = ts.map Token.bare := by
  rw [marksOf, h]
  rfl

theorem Token.map_bare_carry (ts : List Token) (e : Edges) :
    (ts.map (·.carry e)).map Token.bare = ts.map Token.bare := by
  rw [List.map_map]
  rfl

end ContractSync.Rust

namespace ContractSync.Sync

open Edit (IsStatement between)
open Emit (IsOneLine IsQuotable)
open Rust (BodyIn Edges IsIdentifier Node Span Token Tree marksOf tokenize)
open Rust.TokenTree (flattenAll)
open Text (boundedHere isBlank occursBounded)

/-! ### A text with a configuration function -/

/-- The text is read, and its configuration function has this body. -/
def HasConfig (source : List Char) (body : Span) : Prop :=
  ∃ tree n, Rust.parse source = .ok tree ∧
    tree.find? Emit.configFunction [.function] = some n ∧ n.body? = some body

/-- The body of the configuration function is closed between these tokens. -/
structure IsRegistry (source : List Char) (body : Span) (front back : List Token) : Prop where
  found : HasConfig source body
  tokens : tokenize source = .ok (front ++ back)
  closer : back.head?.map Token.start = some body.stop

variable {source : List Char} {body : Span} {front back : List Token}

theorem HasConfig.exists_isRegistry (h : HasConfig source body) :
    ∃ front back, IsRegistry source body front back := by
  obtain ⟨tree, n, h, hfound, hbody⟩ := h
  obtain ⟨nodes, b, members, front, back, rfl, rfl, hb⟩ := Edit.exists_bodyIn h hfound (by decide) hbody
  refine ⟨front ++ b.opener :: flattenAll b.inner, b.closer :: back, ⟨_, n, h, hfound, hbody⟩, ?_, rfl⟩
  rw [hb.tokens]
  simp

/-- A key without blanks. -/
structure IsSolid (key : List Char) : Prop where
  ne_nil : key ≠ []
  solid : ∀ c ∈ key, isBlank c = false

/-- A blank cuts a text in two. -/
theorem IsSolid.cut {key a b : List Char} {c : Char} (h : IsSolid key) (hc : isBlank c = true) :
    occursBounded key (a ++ c :: b) = (occursBounded key a || occursBounded key b) := by
  refine Text.occursBounded_cut (Text.not_isWordChar_of_isBlank hc) fun hmem => ?_
  rw [h.solid c hmem] at hc
  cases hc

theorem IsSolid.blanks_append {key w b : List Char} (h : IsSolid key) (hw : ∀ c ∈ w, isBlank c = true) :
    occursBounded key (w ++ b) = occursBounded key b := by
  induction w with
  | nil => rfl
  | cons c w ih =>
    obtain ⟨hc, hw⟩ := List.forall_mem_cons.mp hw
    have hcut := h.cut (a := []) (b := w ++ b) hc
    have hnil : occursBounded key [] = false :=
      Text.not_occursBounded_blanks (List.forall_mem_nil _) h.ne_nil h.solid
    rw [hnil, Bool.false_or, ih hw] at hcut
    exact hcut

theorem IsSolid.append_blanks {key w a : List Char} (h : IsSolid key) (hw : ∀ c ∈ w, isBlank c = true) :
    occursBounded key (a ++ w) = occursBounded key a := by
  cases w with
  | nil => rw [List.append_nil]
  | cons c w =>
    obtain ⟨hc, hw⟩ := List.forall_mem_cons.mp hw
    rw [h.cut hc, Text.not_occursBounded_blanks hw h.ne_nil h.solid, Bool.or_false]

/-- What occurs in a body with a statement at its end. -/
theorem IsSolid.inserted {key q x y statement : List Char} (h : IsSolid key)
    (hx : ∀ c ∈ x, isBlank c = true) (hy : ∀ c ∈ y, isBlank c = true) :
    occursBounded key (q ++ '\n' :: (x ++ (statement ++ '\n' :: y))) =
      (occursBounded key q || occursBounded key statement) := by
  rw [h.cut (by decide), h.blanks_append hx, h.cut (by decide),
    Text.not_occursBounded_blanks hy h.ne_nil h.solid, Bool.or_false]

/-- Tokens are divided in one way only at a place. -/
theorem eq_of_head_start {as bs cs ds : List Token} {p : Nat} (heq : as ++ bs = cs ++ ds)
    (hnodup : ((as ++ bs).map Token.start).Nodup) (hb : bs.head?.map Token.start = some p)
    (hd : ds.head?.map Token.start = some p) : as = cs ∧ bs = ds := by
  have hclash : ∀ {xs ys zs : List Token}, ((xs ++ (ys ++ zs)).map Token.start).Nodup →
      (ys ++ zs).head?.map Token.start = some p → zs.head?.map Token.start = some p → ys = [] := by
    intro xs ys zs hnodup hy hz
    cases ys with
    | nil => rfl
    | cons t ys =>
      obtain ⟨u, hu, hstart⟩ := Option.map_eq_some_iff.mp hz
      rw [List.map_append, List.cons_append, List.map_cons] at hnodup
      have hnotin := (List.nodup_cons.mp (List.nodup_append.mp hnodup).2.1).1
      refine absurd (List.mem_map.mpr ⟨u, List.mem_append_right _ (List.mem_of_mem_head? hu), ?_⟩) hnotin
      exact hstart.trans (Option.some.inj hy).symm
  rcases List.append_eq_append_iff.mp heq with ⟨z, rfl, rfl⟩ | ⟨z, rfl, rfl⟩
  · obtain rfl := hclash hnodup hb hd
    exact ⟨(List.append_nil _).symm, rfl⟩
  · obtain rfl := hclash (by rwa [heq] at hnodup) hd hb
    exact ⟨List.append_nil _, rfl⟩

/-- A key that is there keeps the text as it is. -/
theorem IsRegistry.known (h : IsRegistry source body front back) {statement key : String}
    (hkey : occursBounded key.toList (between source body) = true) (path : Option String) :
    Edit.insertRegistration source Emit.configFunction statement key path = .ok source := by
  obtain ⟨tree, n, hparse, hfound, hbody⟩ := h.found
  exact (Edit.insertRegistration_eq hparse hfound hbody path).trans (congrArg _ (if_pos hkey))

/-- **One statement more**: no other token changes, and what occurs in the body is what occurred there and
what occurs in the statement. -/
theorem IsRegistry.insert (h : IsRegistry source body front back) {statement key : String}
    (hstatement : IsStatement statement.toList) (hne : statement.toList ≠ [])
    (hkey : occursBounded key.toList (between source body) = false) (path : Option String) :
    ∃ result body' inserted back',
      Edit.insertRegistration source Emit.configFunction statement key path = .ok result ∧
      IsRegistry result body' (front ++ inserted) back' ∧
      inserted.map Token.bare = marksOf statement.toList ∧
      back'.map Token.bare = back.map Token.bare ∧
      ∀ k, IsSolid k → occursBounded k (between result body') =
        (occursBounded k (between source body) || occursBounded k statement.toList) := by
  obtain ⟨⟨tree, n, hparse, hfound, hbody⟩, htokens, hcloser⟩ := h
  obtain ⟨nodes, b, members, ahead, beyond, rfl, rfl, hb⟩ :=
    Edit.exists_bodyIn hparse hfound (by decide) hbody
  obtain ⟨-, -, -, hlt⟩ := hb.run_closer
  have hopen : b.opener.start < b.closer.start := Nat.lt_of_lt_of_le hb.opener_bounds.1 hb.opener_bounds.2
  obtain ⟨us, inserted, hus, hof⟩ := hstatement.balanced
  obtain ⟨rfl, hnested⟩ := Rust.TokenTree.ofTokens_eq_ok_iff.mp hof
  have hmembers : b.members .function = .ok [] := rfl
  obtain rfl : members = [] := Except.ok.inj (hb.members.symm.trans hmembers)
  obtain ⟨a, w, x, y, htake, hresult, hw, hfeed, hx, hy⟩ :=
    @Edit.insertInBody_eq source n b.span statement.toList (hstatement.lines hne) hopen (Nat.le_of_lt hlt)
  obtain ⟨htokens', hparse', hstart⟩ := Edit.parse_statement hb htake hw hfeed hx hy hus hnested
  -- The tokens are divided in front of the closing brace.
  have hdivided : front = ahead ++ b.opener :: flattenAll b.inner ∧ back = b.closer :: beyond := by
    have hsame : front ++ back = (ahead ++ b.opener :: flattenAll b.inner) ++ b.closer :: beyond := by
      refine Except.ok.inj (htokens.symm.trans (hb.tokens.trans ?_))
      simp
    exact eq_of_head_start hsame (Rust.Lexer.run_of_lexFrom htokens).start_nodup hcloser rfl
  obtain ⟨rfl, rfl⟩ := hdivided
  refine ⟨_, ⟨b.opener.start, (a ++ '\n' :: (x ++ (statement.toList ++ '\n' :: y))).length⟩,
    (flattenAll inserted).map (Token.shift (a.length + 1 + x.length)),
    (b.closer :: beyond).map (·.carry (.behind b.closer.start
      (a ++ '\n' :: (x ++ (statement.toList ++ '\n' :: y))).length)), ?_, ⟨?_, htokens', ?_⟩, ?_, ?_, ?_⟩
  · refine (Edit.insertRegistration_eq hparse hfound hbody path).trans ?_
    rw [if_neg (by rw [hkey]; exact Bool.false_ne_true), hresult]
    rfl
  · refine ⟨_, _, hparse', (Tree.find?_carry rfl _ _).trans (congrArg (Option.map _) hfound), ?_⟩
    exact hb.body?_carry _
  · refine congrArg some (show (if b.closer.start < b.closer.start then _ else _) = _ from ?_)
    rw [if_neg (Nat.lt_irrefl _), Nat.sub_self, Nat.zero_add]
  · rw [Token.map_bare_shift, Rust.marksOf_eq hus]
  · exact Rust.Token.map_bare_carry _ _
  · intro k hk
    have hold : between source b.span = a.drop (b.opener.start + 1) ++ w := by
      rw [between, Text.slice]
      show (source.take b.span.stop).drop (b.opener.start + 1) = _
      rw [htake, List.drop_append_of_le_length hstart]
    rw [hold, hk.append_blanks hw, between, Text.slice, List.take_left,
      List.drop_append_of_le_length hstart, hk.inserted hx hy]

/-! ### All routes -/

/-- The path of a route's handler. -/
def keyOf (group : String) (route : Route) : String := Emit.handlerPath group route.handlerName

/-- The statement that registers a route. -/
def statementOf (group : String) (route : Route) : String :=
  Emit.registration route (keyOf group route)

/-- A route that can be registered by a statement. -/
structure IsRegistrable (route : Route) : Prop where
  name : IsIdentifier route.handlerName
  line : IsOneLine route
  path : ¬ [':', ':'] <:+: route.path.toList
  method : IsQuotable route.method

/-- The routes of the service. -/
def standardRoutes (routes : List Route) : List Route := routes.filter (·.kind == .standard)

/-- The routes of the service whose handlers do not occur in a body. -/
def missingRoutes (group : String) (content : List Char) (routes : List Route) : List Route :=
  (standardRoutes routes).filter fun route => !occursBounded (keyOf group route).toList content

/-- No handler's name is the beginning of one before it, with no word character behind it. -/
def IsApart (routes : List Route) : Prop :=
  (standardRoutes routes).Pairwise fun r s =>
    boundedHere s.handlerName.toList r.handlerName.toList = false

variable {group : String} {routes : List Route}

/-- Distinct names of ASCII letters, digits and underscores are apart. -/
theorem isApart_of_isWordChar (hnodup : ((standardRoutes routes).map Route.handlerName).Nodup)
    (hword : ∀ route ∈ routes, ∀ c ∈ route.handlerName.toList, Text.isWordChar c = true) :
    IsApart routes := by
  refine (List.pairwise_map.mp hnodup).imp_of_mem fun {r s} hr _ hne => ?_
  rw [← Bool.not_eq_true, Text.boundedHere_iff]
  rintro ⟨more, hmore, hbound⟩
  cases more with
  | nil =>
    rw [List.append_nil] at hmore
    exact hne (String.toList_inj.mp hmore)
  | cons c more =>
    have hc := hword r (List.mem_filter.mp hr).1 c (hmore ▸ by simp)
    rw [Text.startsInWord, hc] at hbound
    cases hbound

theorem isSolid_keyOf {route : Route} (h : IsIdentifier route.handlerName) :
    IsSolid (keyOf group route).toList := by
  refine ⟨?_, fun c hc => Emit.not_isBlank_of_isPathChar (Emit.isPathChar_of_mem_handlerPath h c hc)⟩
  rw [keyOf, Emit.handlerPath_toList]
  exact List.append_ne_nil_of_left_ne_nil (List.append_ne_nil_of_right_ne_nil _ (List.cons_ne_nil _ _)) _

theorem statementOf_ne_nil (route : Route) : (statementOf group route).toList ≠ [] := by
  rw [statementOf, Emit.registration_toList]
  exact List.append_ne_nil_of_right_ne_nil _ (List.cons_ne_nil _ _)

theorem isStatement_statementOf {route : Route} (h : IsRegistrable route) :
    IsStatement (statementOf group route).toList :=
  Emit.isStatement_registration h.line h.method h.name

/-- A statement holds the path of another handler if the names say so. -/
theorem occursBounded_statementOf {route : Route} (h : IsRegistrable route) {route' : Route}
    (h' : IsIdentifier route'.handlerName) :
    occursBounded (keyOf group route').toList (statementOf group route).toList =
      boundedHere route'.handlerName.toList route.handlerName.toList :=
  Emit.occursBounded_registration h.path h.name h'

theorem boundedHere_self (key : List Char) : boundedHere key key = true :=
  Text.boundedHere_iff.mpr ⟨[], (List.append_nil key).symm, rfl⟩

theorem registerRoute_standard {route : Route} (hkind : route.kind = .standard) (path : Option String)
    (source : List Char) : registerRoute group path source route =
      Edit.insertRegistration source Emit.configFunction (statementOf group route) (keyOf group route)
        path := by
  rw [registerRoute, hkind]
  rfl

theorem standardRoutes_webhook {route : Route} (hkind : route.kind = .webhook) (routes : List Route) :
    standardRoutes (route :: routes) = standardRoutes routes := by
  rw [standardRoutes, List.filter_cons_of_neg (by rw [hkind]; decide), standardRoutes]

theorem standardRoutes_standard {route : Route} (hkind : route.kind = .standard)
    (routes : List Route) : standardRoutes (route :: routes) = route :: standardRoutes routes := by
  rw [standardRoutes, List.filter_cons_of_pos (by rw [hkind]; decide), standardRoutes]

/-- **All routes, one after another.** -/
theorem IsRegistry.register (h : IsRegistry source body front back)
    (hroutes : ∀ route ∈ routes, IsRegistrable route) (hapart : IsApart routes) (path : Option String) :
    ∃ result body' inserted back',
      routes.foldlM (registerRoute group path) source = .ok result ∧
      IsRegistry result body' (front ++ inserted) back' ∧
      inserted.map Token.bare = (missingRoutes group (between source body) routes).flatMap
        (fun route => marksOf (statementOf group route).toList) ∧
      back'.map Token.bare = back.map Token.bare ∧
      (∀ k, IsSolid k → occursBounded k (between source body) = true →
        occursBounded k (between result body') = true) ∧
      ∀ route ∈ standardRoutes routes,
        occursBounded (keyOf group route).toList (between result body') = true := by
  induction routes generalizing source body front back with
  | nil =>
    exact ⟨source, body, [], back, rfl, by rwa [List.append_nil], rfl, rfl, fun _ _ h => h,
      List.forall_mem_nil _⟩
  | cons route routes ih =>
    obtain ⟨hroute, hroutes⟩ := List.forall_mem_cons.mp hroutes
    rw [List.foldlM_cons]
    cases hkind : route.kind with
    | webhook =>
      have hskip : registerRoute group path source route = .ok source := by rw [registerRoute, hkind]
      rw [IsApart, standardRoutes_webhook hkind] at hapart
      rw [hskip, missingRoutes, standardRoutes_webhook hkind]
      exact ih h hroutes hapart
    | standard =>
      rw [IsApart, standardRoutes_standard hkind, List.pairwise_cons] at hapart
      obtain ⟨hhead, hapart⟩ := hapart
      rw [registerRoute_standard hkind, missingRoutes, standardRoutes_standard hkind]
      by_cases hkey : occursBounded (keyOf group route).toList (between source body) = true
      · -- The handler is there already.
        obtain ⟨result, body', inserted, back', hrun, hresult, hinserted, hback, hmono, hall⟩ :=
          ih h hroutes hapart
        rw [h.known hkey, List.filter_cons_of_neg (by rw [hkey]; decide)]
        exact ⟨result, body', inserted, back', hrun, hresult, hinserted, hback, hmono,
          List.forall_mem_cons.mpr ⟨hmono _ (isSolid_keyOf hroute.name) hkey, hall⟩⟩
      · rw [Bool.not_eq_true] at hkey
        obtain ⟨between', body', inserted, back', hinsert, hnext, hmarks, hback, hoccurs⟩ :=
          h.insert (isStatement_statementOf hroute) (statementOf_ne_nil route) hkey path
        obtain ⟨result, body'', inserted', back'', hrun, hresult, hinserted, hback', hmono, hall⟩ :=
          ih hnext hroutes hapart
        -- The statement holds the path of no handler behind it.
        have hmissing : missingRoutes group (between between' body') routes =
            missingRoutes group (between source body) routes := by
          refine List.filter_congr fun s hs => ?_
          have hname := (hroutes s (List.mem_filter.mp hs).1).name
          have hnone := @occursBounded_statementOf group route hroute s hname
          rw [hhead s hs] at hnone
          rw [hoccurs _ (isSolid_keyOf hname), hnone, Bool.or_false]
        have hself : occursBounded (keyOf group route).toList (between between' body') = true := by
          rw [hoccurs _ (isSolid_keyOf hroute.name),
            occursBounded_statementOf hroute hroute.name, boundedHere_self, Bool.or_true]
        refine ⟨result, body'', inserted ++ inserted', back'', ?_, ?_, ?_, hback'.trans hback, ?_, ?_⟩
        · rw [hinsert]
          exact hrun
        · rwa [← List.append_assoc]
        · rw [List.map_append, hmarks, hinserted, hmissing, List.filter_cons_of_pos (by rw [hkey]; rfl),
            List.flatMap_cons]
          rfl
        · exact fun k hk hold => hmono k hk (by rw [hoccurs k hk, hold]; rfl)
        · exact List.forall_mem_cons.mpr ⟨hmono _ (isSolid_keyOf hroute.name) hself, hall⟩

theorem IsRegistry.not_isAllBlank (h : IsRegistry source body front back) :
    Text.isAllBlank source = false := by
  rw [← Bool.not_eq_true]
  intro hblank
  have hrun := Rust.Lexer.run_blanks (List.all_eq_true.mp hblank) 0 []
  rw [List.append_nil] at hrun
  have hnil : front ++ back = [] :=
    Except.ok.inj (h.tokens.symm.trans (Rust.Lexer.lexFrom_of_run hrun))
  have hcloser := h.closer
  rw [(List.append_eq_nil_iff.mp hnil).2] at hcloser
  cases hcloser

/-- Nothing is to be done where all handlers occur. -/
theorem IsRegistry.foldlM_known (h : IsRegistry source body front back)
    (hall : ∀ route ∈ standardRoutes routes,
      occursBounded (keyOf group route).toList (between source body) = true) (path : Option String) :
    routes.foldlM (registerRoute group path) source = .ok source := by
  induction routes with
  | nil => rfl
  | cons route routes ih =>
    rw [List.foldlM_cons]
    cases hkind : route.kind with
    | webhook =>
      have hskip : registerRoute group path source route = .ok source := by rw [registerRoute, hkind]
      rw [standardRoutes_webhook hkind] at hall
      rw [hskip]
      exact ih hall
    | standard =>
      rw [standardRoutes_standard hkind] at hall
      obtain ⟨hroute, hall⟩ := List.forall_mem_cons.mp hall
      rw [registerRoute_standard hkind, h.known hroute]
      exact ih hall

/-- Where registration starts: at the text, or at a configuration file that registers nothing. -/
def startText (source : List Char) : List Char :=
  if Text.isAllBlank source then (Emit.configScaffold Emit.defaultHandlers).toList else source

theorem registerRoutes_eq (source : List Char) (group : String) (routes : List Route)
    (path : Option String) : registerRoutes source group routes path =
      routes.foldlM (registerRoute group path) (startText source) := rfl

/-- The configuration file that registers nothing. -/
theorem exists_hasConfig_scaffold :
    ∃ body, HasConfig (startText []) body ∧ Text.isAllBlank (between (startText []) body) = true := by
  have hconst : ∀ {text : String} {cs : List Char}, text = String.ofList cs → text.toList = cs :=
    Text.toList_const
  have htext : startText [] = _ :=
    Text.toList_append_eq (Text.toList_append_eq (Text.toList_append_eq (Text.toList_append_eq
      (hconst rfl) (hconst rfl)) (hconst rfl)) (hconst rfl)) (hconst rfl)
  have htree : ∃ tree ∈ grownOf? (startText []),
      ∃ n ∈ tree.find? Emit.configFunction [.function],
        ∃ body ∈ n.body?, Text.isAllBlank (between (startText []) body) = true := by
    rw [htext]
    decide +kernel
  obtain ⟨tree, htree, n, hn, body, hbody, hblank⟩ := htree
  exact ⟨body, ⟨tree, n, (Grown.of_grownOf? (Option.mem_def.mp htree)).parsed, hn, hbody⟩, hblank⟩

/-- **Registration is exact and stable.** Each standard route whose handler does not occur in the body of
the configuration function gets its statement at the end of the body, in the order of the routes; no other
token changes, and a second run changes nothing. -/
theorem registerRoutes_inserts {source : List Char} {group : String} {routes : List Route}
    (path : Option String) (hsource : Text.isAllBlank source = true ∨ ∃ body, HasConfig source body)
    (hroutes : ∀ route ∈ routes, IsRegistrable route) (hapart : IsApart routes) :
    ∃ body front back result body' inserted back',
      IsRegistry (startText source) body front back ∧
      registerRoutes source group routes path = .ok result ∧
      IsRegistry result body' (front ++ inserted) back' ∧
      inserted.map Token.bare = (missingRoutes group (between (startText source) body) routes).flatMap
        (fun route => marksOf (statementOf group route).toList) ∧
      back'.map Token.bare = back.map Token.bare ∧
      registerRoutes result group routes path = .ok result := by
  have hstart : ∃ body, HasConfig (startText source) body := by
    by_cases hblank : Text.isAllBlank source = true
    · have hscaffold : startText source = startText [] := if_pos hblank
      obtain ⟨body, hconfig, -⟩ := exists_hasConfig_scaffold
      exact ⟨body, hscaffold ▸ hconfig⟩
    · have hkept : startText source = source := if_neg hblank
      exact hkept.symm ▸ hsource.resolve_left hblank
  obtain ⟨body, hconfig⟩ := hstart
  obtain ⟨front, back, h⟩ := hconfig.exists_isRegistry
  obtain ⟨result, body', inserted, back', hrun, hresult, hinserted, hback, -, hall⟩ :=
    @IsRegistry.register _ _ _ _ group _ h hroutes hapart path
  refine ⟨body, front, back, result, body', inserted, back', h, hrun, hresult, hinserted, hback, ?_⟩
  have hkept : startText result = result := if_neg (by rw [hresult.not_isAllBlank]; nofun)
  rw [registerRoutes_eq, hkept]
  exact hresult.foldlM_known hall path

/-- A configuration function that registers a route, and a comment in it. -/
def registrySample : List Char :=
  "fn config(c: &mut C) \x7b\n    x(handlers::pets::b); // end\n\x7d\n".toList

def registryRoutes : List Route :=
  [{ path := "/\"\\", method := "get", handlerName := "a" },
    { path := "/b", method := "post", handlerName := "b" },
    { path := "/c", method := "put", handlerName := "c", kind := .webhook },
    { path := "/a", method := "query", handlerName := "ab" }]

theorem registerRoutes_inserts_commentSample :
    (∃ body, HasConfig registrySample body) ∧ (∀ route ∈ registryRoutes, IsRegistrable route) ∧
      IsApart registryRoutes ∧
      ∃ body front back result body' inserted back',
        IsRegistry (startText registrySample) body front back ∧
        registerRoutes registrySample "Pets" registryRoutes = .ok result ∧
        IsRegistry result body' (front ++ inserted) back' ∧
        inserted.map Token.bare =
          (missingRoutes "Pets" (between (startText registrySample) body) registryRoutes).flatMap
            (fun route => marksOf (statementOf "Pets" route).toList) ∧
        back'.map Token.bare = back.map Token.bare ∧
        registerRoutes result "Pets" registryRoutes = .ok result := by
  have htext : registrySample = _ := Text.toList_const rfl
  have htree : ∃ tree ∈ grownOf? registrySample,
      ∃ n ∈ tree.find? Emit.configFunction [.function], n.body?.isSome = true := by
    rw [htext]
    decide +kernel
  obtain ⟨tree, htree, n, hn, hsome⟩ := htree
  obtain ⟨body, hbody⟩ := Option.isSome_iff_exists.mp hsome
  have hconfig : ∃ body, HasConfig registrySample body :=
    ⟨body, tree, n, (Grown.of_grownOf? (Option.mem_def.mp htree)).parsed, hn, hbody⟩
  have hall : ∀ route ∈ registryRoutes, IsIdentifier route.handlerName ∧
      (∀ c ∈ route.path.toList, Text.isLineBoundary c = false) ∧
      (∀ c ∈ route.method.toList, Text.isLineBoundary c = false) ∧
      ¬ [':', ':'] <:+: route.path.toList ∧ IsQuotable route.method := by decide
  have hroutes : ∀ route ∈ registryRoutes, IsRegistrable route := fun route hroute =>
    have ⟨hname, hpath, hmethod, hcolons, hquotable⟩ := hall route hroute
    ⟨hname, ⟨hpath, hmethod⟩, hcolons, hquotable⟩
  have hapart : (standardRoutes registryRoutes).Pairwise fun r s =>
      boundedHere s.handlerName.toList r.handlerName.toList = false := by decide
  exact ⟨hconfig, hroutes, hapart, registerRoutes_inserts none (.inr hconfig) hroutes hapart⟩

/-- Handlers with the names that the methods give them where the path says nothing. -/
def accentRoute : Route := { path := "/", method := "aé", handlerName := "aé" }

def plainRoute : Route := { path := "/", method := "a", handlerName := "a" }

/-- **A handler is not registered behind one whose name goes on with an accented letter**: with its route
and without, the text is the same. -/
theorem registerRoutes_loses :
    (∀ route ∈ [accentRoute, plainRoute], IsRegistrable route) ∧
      accentRoute.handlerName ≠ plainRoute.handlerName ∧
      ∃ body result, HasConfig (startText []) body ∧
        missingRoutes "default" (between (startText []) body) [accentRoute, plainRoute] =
          [accentRoute, plainRoute] ∧
        registerRoutes [] "default" [accentRoute, plainRoute] = .ok result ∧
        registerRoutes [] "default" [accentRoute] = .ok result := by
  have hall : ∀ route ∈ [accentRoute, plainRoute], IsIdentifier route.handlerName ∧
      (∀ c ∈ route.path.toList, Text.isLineBoundary c = false) ∧
      (∀ c ∈ route.method.toList, Text.isLineBoundary c = false) ∧
      ¬ [':', ':'] <:+: route.path.toList ∧ IsQuotable route.method := by decide
  have hroutes : ∀ route ∈ [accentRoute, plainRoute], IsRegistrable route := fun route hroute =>
    have ⟨hname, hpath, hmethod, hcolons, hquotable⟩ := hall route hroute
    ⟨hname, ⟨hpath, hmethod⟩, hcolons, hquotable⟩
  obtain ⟨haccent, hplain⟩ := List.forall_mem_cons.mp hroutes
  have hplain := (List.forall_mem_singleton.mp hplain).name
  obtain ⟨body, hconfig, hblank⟩ := exists_hasConfig_scaffold
  obtain ⟨front, back, h⟩ := hconfig.exists_isRegistry
  have hnone : ∀ {route : Route}, IsIdentifier route.handlerName →
      occursBounded (keyOf "default" route).toList (between (startText []) body) = false := fun hname =>
    have hsolid : IsSolid (keyOf "default" _).toList := isSolid_keyOf hname
    Text.not_occursBounded_blanks (List.all_eq_true.mp hblank) hsolid.ne_nil hsolid.solid
  obtain ⟨result, body', inserted, back', hinsert, hresult, -, -, hoccurs⟩ :=
    h.insert (isStatement_statementOf haccent) (statementOf_ne_nil accentRoute) (hnone haccent.name) none
  -- The statement holds the path of the other handler up to the accent.
  have hknown : occursBounded (keyOf "default" plainRoute).toList (between result body') = true := by
    rw [hoccurs _ (isSolid_keyOf hplain), occursBounded_statementOf haccent hplain, Bool.or_eq_true]
    exact .inr (by decide)
  refine ⟨hroutes, by decide, body, result, hconfig, ?_, ?_, ?_⟩
  · rw [missingRoutes, standardRoutes_standard rfl, standardRoutes_standard rfl, standardRoutes,
      List.filter_nil, List.filter_cons_of_pos (by rw [hnone haccent.name]; rfl),
      List.filter_cons_of_pos (by rw [hnone hplain]; rfl), List.filter_nil]
  · rw [registerRoutes_eq, List.foldlM_cons, registerRoute_standard rfl, hinsert]
    show registerRoute "default" none result plainRoute >>= _ = _
    rw [registerRoute_standard rfl, hresult.known hknown]
    rfl
  · rw [registerRoutes_eq, List.foldlM_cons, registerRoute_standard rfl, hinsert]
    rfl

end ContractSync.Sync
