import ContractSync.Emit.Extractor
import ContractSync.Proofs.Emit.Pieces
import ContractSync.Proofs.Emit.TypeText
import ContractSync.Proofs.Name.Bare
import ContractSync.Proofs.Outcome
import ContractSync.Proofs.Route.TypeNames

/-!
# The arguments of a handler

Each argument of a handler is a name with a type, put together from the names and types of the route.
**The arguments of a route stand between the parentheses of its handler, whatever the parameters, the
security schemes and the scopes are called** (`isPart_handlerArguments`).

The name of an argument is that of a variable or parameter, or a word for what has no name: several variables, the
query, the body and the authentication. The parameters of a route are distinct by name and place
(`nodup_params`), but a place does not show in the name of the argument. **The arguments of a handler have
distinct names exactly if no two of what they are taken from are spelled the same**
(`argumentNames_nodup_iff`); the argument for the authentication never meets another one.

A header `X-Id` and a cookie `x_id` are spelled the same, and so are a cookie `Body` and the body.
-/

namespace ContractSync.Emit

open Name (IsWord)
open Route (Parameter RequestBody Requirement)
open Rust (Anything IsTypeCode Passes Writes)
open Rust.Lexer (IsBreak)

variable {route : Route} {queryStruct : Option String}

/-- The text leaves the delimiters as they are, in front of what goes on neither with a name nor with a
number. -/
def IsPart (text : String) : Prop := Passes IsBreak [] [] text.toList

namespace IsPart

variable {text : String}

theorem of_type (h : IsTypeCode text) : IsPart text := h.writes.passes []

theorem word (h : IsWord text) : IsPart text := of_type (.word h)

theorem fixed (h : ⟨text, [], []⟩ ∈ pieces) : IsPart text := (passes_piece h).mono fun _ _ => trivial

/-- A part behind a fixed text. -/
theorem behind {lead : String} (hlead : Passes Anything [] [] lead.toList) (h : IsPart text) :
    IsPart (lead ++ text) := by
  rw [IsPart, String.toList_append]
  exact hlead.and h

/-- A part between a fixed text and a closing bracket. -/
theorem bracket {lead : String} (hlead : Passes Anything [] [] lead.toList) (h : IsPart text) :
    IsPart (lead ++ text ++ ">") := by
  have hclose : Passes Anything [] [] ">".toList := passes_piece (by simp [pieces])
  rw [IsPart, String.toList_append, String.toList_append, List.append_assoc]
  exact (hlead.and (Passes.append h hclose fun rest _ =>
    isBreak_piece (by simp [breakPieces]) rest)).mono fun _ _ => trivial

/-- Parts with commas between them. -/
theorem join {texts : List String} (h : ∀ text ∈ texts, IsPart text) :
    IsPart (", ".intercalate texts) := by
  induction texts with
  | nil => exact ⟨[], .nil, rfl⟩
  | cons first texts ih =>
    obtain ⟨hfirst, htexts⟩ := List.forall_mem_cons.mp h
    cases texts with
    | nil => rwa [String.intercalate_singleton]
    | cons next texts =>
      have hcomma : Passes Anything [] [] ", ".toList := passes_piece (by simp [pieces])
      rw [String.intercalate_cons_cons, IsPart, String.toList_append, String.toList_append,
        List.append_assoc]
      exact hfirst.append (hcomma.and (ih htexts)) fun rest _ => by
        rw [List.append_assoc]
        exact isBreak_piece (by simp [breakPieces]) _

theorem tuple {types : List String} (h : ∀ type ∈ types, IsPart type) : IsPart (tupleText types) := by
  unfold tupleText
  split
  · exact List.forall_mem_singleton.mp h
  · have hopen : Passes Anything [] [")"] "(".toList := passes_piece (by simp [pieces])
    have hclose : Passes Anything [")"] [] ")".toList := passes_piece (by simp [pieces])
    rw [IsPart, String.toList_append, String.toList_append, List.append_assoc]
    exact (hopen.and (((join h).balanced [")"]).append hclose fun rest _ =>
      isBreak_piece (by simp [breakPieces]) rest)).mono fun _ _ => trivial

/-- A name with its type. -/
theorem argument {name type : String} (hname : Rust.IsIdentifier name) (htype : IsPart type) :
    IsPart (argument name type) := by
  have hcolon : Passes Anything [] [] ": ".toList := passes_piece (by simp [pieces])
  rw [IsPart, Emit.argument, String.toList_append, String.toList_append, List.append_assoc]
  exact (Passes.leaf (Writes.identifier hname) nofun []).append (hcolon.and htype) fun rest _ => by
    rw [List.append_assoc]
    exact (isBreak_piece (by simp [breakPieces]) _).1

end IsPart

/-! ### The single arguments -/

theorem isPart_pathArgument (h : route.IsWorded) : ∀ text ∈ pathArgument route, IsPart text := by
  have htypes : ∀ type ∈ pathTypes route, IsPart type := by
    intro type htype
    obtain ⟨name, -, rfl⟩ := List.mem_map.mp htype
    split
    · rename_i p hfound
      have hp := (List.mem_filter.mp (List.mem_of_find?_eq_some hfound)).1
      exact .of_type (isTypeCode_typeText (h.params p hp).required)
    · exact .word ⟨by decide, by decide⟩
  have htype : IsPart ("web::Path<" ++ tupleText (pathTypes route) ++ ">") :=
    .bracket (passes_piece (by simp [pieces])) (.tuple htypes)
  unfold pathArgument
  split
  · exact forall_mem_none
  · refine forall_mem_some (.argument ?_ htype)
    split
    · exact Name.isIdentifier_fieldName _
    · exact isIdentifier_given (by simp [givenNames])

theorem isPart_queryArgument (h : route.IsWorded) (hstruct : ∀ name ∈ queryStruct, IsWord name) :
    ∀ text ∈ queryArgument route queryStruct, IsPart text := by
  unfold queryArgument
  split
  · rename_i p rest hparams
    have hp : p ∈ route.params :=
      (List.mem_filter.mp (hparams ▸ List.mem_cons_self : p ∈ route.paramsIn .queryString)).1
    exact forall_mem_some (.argument (Name.isIdentifier_fieldName _) (.bracket
      (passes_piece (by simp [pieces])) (.of_type (isTypeCode_typeText (h.params p hp).required))))
  · refine forall_mem_some (.argument (isIdentifier_given (by simp [givenNames]))
      (.bracket (passes_piece (by simp [pieces])) (.word ?_)))
    cases queryStruct with
    | some name => exact hstruct name rfl
    | none => exact ⟨by decide, by decide⟩
  · exact forall_mem_none

theorem isPart_bodyExtractor {body : RequestBody} (h : body.type.IsWorded) :
    IsPart (bodyExtractor body) := by
  have htype := IsPart.of_type (isTypeCode_typeText h)
  have hbytes : IsPart ("web::" ++ "Bytes") :=
    .behind (passes_piece (by simp [pieces])) (.word ⟨by decide, by decide⟩)
  have hoption : ∀ extractor, IsPart extractor →
      IsPart (if body.required then extractor else "Option<" ++ extractor ++ ">") := by
    intro extractor hextractor
    split
    · exact hextractor
    · exact .bracket (passes_piece (by simp [pieces])) hextractor
  unfold bodyExtractor
  refine hoption _ ?_
  split
  · exact .bracket (passes_piece (by simp [pieces])) htype
  · exact .bracket (passes_piece (by simp [pieces])) htype
  · exact .word ⟨by decide, by decide⟩
  · exact .word ⟨by decide, by decide⟩
  · exact hbytes

theorem isPart_schemeText (name : String) : IsPart (schemeText name) :=
  .behind (passes_piece (by simp [pieces]))
    (.word (Name.isWord_pascal ⟨by decide, by decide⟩ name))

theorem isPart_scope (scope : String) : IsPart ("security::scopes::" ++ Name.pascal scope) := by
  have hlead : Passes Anything [] [] "security::scopes::".toList := passes_piece (by simp [pieces])
  by_cases hempty : (Name.pascal scope).toList = []
  · rw [IsPart, String.toList_append, hempty, List.append_nil]
    exact hlead.mono fun _ _ => trivial
  · exact .behind hlead (.word ⟨hempty, fun c hc =>
      Name.isWordChar_of_isAlphanum (Name.alphanum_of_mem_pascal c hc)⟩)

theorem isPart_securityArgument {security : List Requirement} {found : Option String}
    (h : securityArgument security = .ok found) : ∀ text ∈ found, IsPart text := by
  cases security with
  | nil =>
    cases h
    exact forall_mem_none
  | cons r rest =>
    rw [securityArgument] at h
    split at h
    · rename_i name _
      have hscheme := isPart_schemeText name
      have hlead : Passes Anything [] []
          ("security::Authenticated<" ++ schemeText name ++ ", ").toList := by
        rw [String.toList_append, String.toList_append, List.append_assoc]
        exact (passes_piece (by simp [pieces])).and (hscheme.append
          (passes_piece (by simp [pieces])) fun rest _ => isBreak_piece (by simp [breakPieces]) rest)
      rw [← Except.ok.inj h]
      refine forall_mem_some (.argument (isIdentifier_given (by simp [givenNames])) (.bracket (passes_piece (by simp [pieces])) ?_))
      split
      · exact hscheme
      · refine .bracket hlead (.tuple fun text htext => ?_)
        obtain ⟨scope, -, rfl⟩ := List.mem_map.mp htext
        exact isPart_scope scope
    · cases h

/-- **The arguments of a route** are parts of a list of arguments. -/
theorem isPart_handlerArguments (h : route.IsWorded) (hstruct : ∀ name ∈ queryStruct, IsWord name)
    {arguments : List String} (harguments : handlerArguments route queryStruct = .ok arguments) :
    ∀ text ∈ arguments, IsPart text := by
  obtain ⟨security, hsecurity, hlist⟩ := bind_eq_ok.mp harguments
  have hheader : IsPart "web::Header<String>" := .fixed (by simp [pieces])
  have hcookie : IsPart ("web::" ++ "Cookie") :=
    .behind (passes_piece (by simp [pieces])) (.word ⟨by decide, by decide⟩)
  have hnamed : ∀ (place : Route.Place) (type : String), IsPart type → ∀ text ∈ (route.paramsIn place).map
      (fun p => argument (Name.fieldName p.name) type), IsPart text := by
    intro place type htype text htext
    obtain ⟨p, -, rfl⟩ := List.mem_map.mp htext
    exact .argument (Name.isIdentifier_fieldName _) htype
  have hbody : ∀ text ∈ route.body.map fun body => argument "body" (bodyExtractor body),
      IsPart text := by
    intro text htext
    obtain ⟨body, hbody, rfl⟩ := Option.map_eq_some_iff.mp htext
    exact .argument (isIdentifier_given (by simp [givenNames])) (isPart_bodyExtractor (h.body body hbody))
  rw [pure_eq_ok.mp hlist]
  simp only [List.forall_mem_append, Option.mem_toList]
  exact ⟨⟨⟨⟨⟨isPart_pathArgument h, isPart_queryArgument h hstruct⟩, hnamed .header _ hheader⟩,
    hnamed .cookie _ hcookie⟩, hbody⟩, isPart_securityArgument hsecurity⟩

/-- A route has arguments as soon as its security scheme has a name. -/
theorem exists_handlerArguments (hscheme : ∀ r ∈ route.security.head?, ∃ name, r.schemeName = .text name)
    (queryStruct : Option String) : ∃ arguments, handlerArguments route queryStruct = .ok arguments := by
  have hsecurity : ∃ found, securityArgument route.security = .ok found := by
    cases hlist : route.security with
    | nil => exact ⟨none, rfl⟩
    | cons r rest =>
      obtain ⟨name, hname⟩ := hscheme r (by rw [hlist]; rfl)
      rw [securityArgument, hname]
      exact ⟨_, rfl⟩
  obtain ⟨found, hfound⟩ := hsecurity
  exact ⟨_, by rw [handlerArguments, hfound]; rfl⟩

end ContractSync.Emit

namespace ContractSync

open ContractSync.Contract (Canonical)
open ContractSync.Document

/-! ### Parameters by name and place -/

namespace Route

/-- **The parameters of a route are distinct by name and place.** -/
theorem nodup_params {doc : Canonical} {routes : List Route} (h : (ofDocument doc).Yields routes) {route : Route}
    (hroute : route ∈ routes) : (route.params.map Parameter.key).Nodup := by
  obtain ⟨kind, path, handlerName, item, operation, hoperation⟩ := ofDocument_isOfOperation h route hroute
  unfold ofOperation at hoperation
  -- Only the parameters of what an operation is made of matter.
  obtain ⟨params, hparams, hoperation⟩ := hoperation.bind
  obtain ⟨responses, -, hoperation⟩ := hoperation.bind
  obtain ⟨body, -, hoperation⟩ := hoperation.bind
  obtain ⟨security, -, hoperation⟩ := hoperation.bind
  rw [hoperation.pure]
  unfold Parameter.resolveAll at hparams
  obtain ⟨found, -, hparams⟩ := hparams.bind
  rw [hparams.pure]
  exact Parameter.nodup_foldl_merge _

/-! ### What arguments are taken from -/

/-- What an argument of a handler is taken from, except the authentication. -/
inductive Source where
  /-- All variables of a path that has several. -/
  | variablesOfPath
  /-- The one variable of a path. -/
  | pathVariable (name : String)
  /-- All query parameters. -/
  | query
  /-- A parameter that has an argument of its own. -/
  | parameter (key : String × Place)
  /-- The body. -/
  | body
  deriving DecidableEq

namespace Source

/-- What the argument is named for. -/
def word : Source → String
  | variablesOfPath => "path"
  | pathVariable name => name
  | query => "query"
  | parameter key => key.1
  | body => "body"

/-- The position of the argument among those from other places. -/
def position : Source → Nat
  | variablesOfPath | pathVariable _ => 0
  | query | parameter (_, .queryString) => 1
  | parameter (_, .header) => 2
  | parameter (_, .cookie) => 3
  | body => 4
  | parameter _ => 5

theorem nodup_append {front behind : List Source} (n : Nat) (hfront : front.Nodup ∧ ∀ s ∈ front, s.position < n)
    (hbehind : behind.Nodup ∧ ∀ s ∈ behind, s.position = n) :
    (front ++ behind).Nodup ∧ ∀ s ∈ front ++ behind, s.position < n + 1 := by
  refine ⟨List.nodup_append'.mpr ⟨hfront.1, hbehind.1, fun s hs hs' => ?_⟩, List.forall_mem_append.mpr ⟨?_, ?_⟩⟩
  · exact absurd (hbehind.2 s hs') (Nat.ne_of_lt (hfront.2 s hs))
  · exact fun s hs => Nat.lt_succ_of_lt (hfront.2 s hs)
  · exact fun s hs => Nat.lt_succ_of_le (Nat.le_of_eq (hbehind.2 s hs))

end Source

/-- What the argument for the path is taken from. -/
def pathSources (route : Route) : List Source :=
  match variableNames route.path with
  | [] => []
  | [name] => [.pathVariable name]
  | _ => [.variablesOfPath]

/-- What the argument for the query is taken from. -/
def querySources (route : Route) : List Source :=
  match route.paramsIn .queryString, route.paramsIn .query with
  | p :: _, _ => [.parameter p.key]
  | [], _ :: _ => [.query]
  | [], [] => []

/-- What the arguments for the parameters in one place are taken from. -/
def sourcesIn (route : Route) (place : Place) : List Source :=
  (route.paramsIn place).map fun p => .parameter p.key

/-- What the arguments of a route are taken from. -/
def sources (route : Route) : List Source :=
  pathSources route ++ querySources route ++ sourcesIn route .header ++ sourcesIn route .cookie
    ++ (route.body.map fun _ => Source.body).toList

variable (route : Route)

theorem place_of_mem_paramsIn {route : Route} {place : Place} {p : Parameter} (h : p ∈ route.paramsIn place) :
    p.place = place :=
  beq_iff_eq.mp (List.mem_filter.mp h).2

theorem nodup_pathSources : (pathSources route).Nodup ∧ ∀ s ∈ pathSources route, s.position < 1 := by
  unfold pathSources
  split
  · exact ⟨List.nodup_nil, List.forall_mem_nil _⟩
  · exact ⟨List.nodup_singleton _, List.forall_mem_singleton.mpr Nat.zero_lt_one⟩
  · exact ⟨List.nodup_singleton _, List.forall_mem_singleton.mpr Nat.zero_lt_one⟩

theorem nodup_querySources : (querySources route).Nodup ∧ ∀ s ∈ querySources route, s.position = 1 := by
  unfold querySources
  split
  · rename_i p rest hparams
    have hplace := place_of_mem_paramsIn (hparams ▸ List.mem_cons_self : p ∈ route.paramsIn .queryString)
    refine ⟨List.nodup_singleton _, List.forall_mem_singleton.mpr ?_⟩
    rw [Parameter.key, hplace]
    rfl
  · exact ⟨List.nodup_singleton _, List.forall_mem_singleton.mpr rfl⟩
  · exact ⟨List.nodup_nil, List.forall_mem_nil _⟩

theorem nodup_sourcesIn {route : Route} (h : (route.params.map Parameter.key).Nodup) (place : Place) :
    (sourcesIn route place).Nodup ∧
      ∀ s ∈ sourcesIn route place, s.position = (Source.parameter ("", place)).position := by
  have hkeys : ((route.paramsIn place).map Parameter.key).Nodup :=
    (List.filter_sublist.map Parameter.key).nodup h
  constructor
  · have hmap := hkeys.map (f := Source.parameter) fun _ _ => Source.parameter.inj
    rwa [List.map_map] at hmap
  · refine List.forall_mem_map.mpr fun p hp => ?_
    rw [Parameter.key, place_of_mem_paramsIn hp]
    cases place <;> rfl

/-- The arguments of a route are taken from different things. -/
theorem nodup_sources {route : Route} (h : (route.params.map Parameter.key).Nodup) : (sources route).Nodup := by
  have hbody : (route.body.map fun _ => Source.body).toList.Nodup ∧
      ∀ s ∈ (route.body.map fun _ => Source.body).toList, s.position = 4 := by
    cases route.body with
    | none => exact ⟨List.nodup_nil, List.forall_mem_nil _⟩
    | some body => exact ⟨List.nodup_singleton _, List.forall_mem_singleton.mpr rfl⟩
  -- Each part lies behind the others by its position, and is distinct in itself.
  have hquery := Source.nodup_append 1 (nodup_pathSources route) (nodup_querySources route)
  have hheaders := Source.nodup_append 2 hquery (nodup_sourcesIn h .header)
  have hcookies := Source.nodup_append 3 hheaders (nodup_sourcesIn h .cookie)
  exact (Source.nodup_append 4 hcookies hbody).1

end Route

/-! ### The names of arguments -/

namespace Emit

open ContractSync.Name (IsWord fieldName spelling)
open ContractSync.Route (Place Requirement Source sources pathSources querySources sourcesIn)
open ContractSync.Rust (IsIdentifier)

variable {route : Route} {queryStruct : Option String}

/-- The name of an argument: what stands in front of the colon. -/
def argumentName (text : String) : String := String.ofList (text.toList.takeWhile (· != ':'))

theorem argumentName_argument {name : String} (h : IsIdentifier name) (type : String) :
    argumentName (argument name type) = name := by
  have hcolon : ∀ c ∈ name.toList, (c != ':') = true := by
    intro c hc
    rw [bne_iff_ne]
    rintro rfl
    have hchar := Rust.isIdentChar_of_mem_identifier h hc (by decide)
    rw [Rust.Lexer.not_isIdentChar_of_mark (by decide)] at hchar
    cases hchar
  have hbehind : ": ".toList = [':', ' '] := rfl
  rw [argumentName, argument, String.toList_append, String.toList_append, hbehind, List.append_assoc,
    List.takeWhile_append_of_pos hcolon, List.cons_append, List.takeWhile_cons_of_neg (by decide), List.append_nil,
    String.ofList_toList]

theorem argumentName_field (name type : String) : argumentName (argument (fieldName name) type) = fieldName name :=
  argumentName_argument (Name.isIdentifier_fieldName name) type

theorem argumentName_given {name : String} (h : name ∈ givenNames) (type : String) :
    argumentName (argument name type) = name := argumentName_argument (isIdentifier_given h) type

/-- An argument tells its name and its type. -/
theorem argument_inj {name name' type type' : String} (h : IsIdentifier name) (h' : IsIdentifier name')
    (heq : argument name type = argument name' type') : name = name' ∧ type = type' := by
  have hname : name = name' := by rw [← argumentName_argument h type, heq, argumentName_argument h' type']
  subst hname
  have hsplit : ∀ t, (argument name t).toList = (name ++ ": ").toList ++ t.toList := fun _ => String.toList_append
  have hchars := congrArg String.toList heq
  rw [hsplit, hsplit] at hchars
  exact ⟨rfl, String.toList_inj.mp (List.append_cancel_left hchars)⟩

/-- The words that are given as names of arguments are their own field names. -/
theorem fieldName_words : fieldName "path" = "path" ∧ fieldName "query" = "query" ∧ fieldName "body" = "body" := by
  decide +kernel

/-- The names of the arguments that are taken from something. -/
def namesOf (sources : List Source) : List String := sources.map fun s => fieldName s.word

theorem names_pathArgument : (pathArgument route).toList.map argumentName = namesOf (pathSources route) := by
  unfold pathArgument pathSources
  generalize Route.variableNames route.path = names
  match names with
  | [] => rfl
  | [name] =>
    rw [Option.toList_some, List.map_singleton, argumentName_field]
    rfl
  | _ :: _ :: _ =>
    rw [Option.toList_some, List.map_singleton, argumentName_given (by simp [givenNames])]
    exact congrArg ([·]) fieldName_words.1.symm

theorem names_queryArgument :
    (queryArgument route queryStruct).toList.map argumentName = namesOf (querySources route) := by
  unfold queryArgument querySources
  generalize route.paramsIn .queryString = whole
  generalize route.paramsIn .query = params
  match whole, params with
  | p :: _, _ =>
    rw [Option.toList_some, List.map_singleton, argumentName_field]
    rfl
  | [], _ :: _ =>
    rw [Option.toList_some, List.map_singleton, argumentName_given (by simp [givenNames])]
    exact congrArg ([·]) fieldName_words.2.1.symm
  | [], [] => rfl

theorem names_paramsIn (place : Place) (type : String) : ((route.paramsIn place).map fun p =>
    argument (fieldName p.name) type).map argumentName = namesOf (sourcesIn route place) := by
  rw [sourcesIn, namesOf, List.map_map, List.map_map]
  refine List.map_congr_left fun p _ => ?_
  rw [Function.comp, Function.comp, argumentName_field]
  rfl

theorem names_body : (route.body.map fun body => argument "body" (bodyExtractor body)).toList.map argumentName =
    namesOf (route.body.map fun _ => Source.body).toList := by
  cases route.body with
  | none => rfl
  | some body =>
    rw [Option.map_some, Option.toList_some, List.map_singleton, argumentName_given (by simp [givenNames])]
    exact congrArg ([·]) fieldName_words.2.2.symm

/-- The name of the argument for the authentication. -/
def authNames (security : List Requirement) : List String := if security.isEmpty then [] else ["_auth"]

theorem names_securityArgument {security : List Requirement} {found : Option String}
    (h : securityArgument security = .ok found) : found.toList.map argumentName = authNames security := by
  cases security with
  | nil =>
    cases h
    rfl
  | cons r rest =>
    rw [securityArgument] at h
    split at h
    · rw [← Except.ok.inj h, Option.toList_some, List.map_singleton, argumentName_given (by simp [givenNames])]
      rfl
    · cases h

/-- **The arguments of a handler are named for what they are taken from**, in this order. -/
theorem names_handlerArguments {arguments : List String} (h : handlerArguments route queryStruct = .ok arguments) :
    arguments.map argumentName = namesOf (sources route) ++ authNames route.security := by
  obtain ⟨security, hsecurity, hlist⟩ := bind_eq_ok.mp h
  rw [pure_eq_ok.mp hlist]
  simp only [List.map_append, names_pathArgument, names_queryArgument, names_paramsIn, names_body,
    names_securityArgument hsecurity, sources, namesOf]

theorem isIdentifier_of_mem_names {name : String} (h : name ∈ namesOf (sources route) ++ authNames route.security) :
    IsIdentifier name := by
  rcases List.mem_append.mp h with h | h
  · obtain ⟨s, -, rfl⟩ := List.mem_map.mp h
    exact Name.isIdentifier_fieldName _
  · unfold authNames at h
    split at h
    · cases h
    · exact isIdentifier_given (List.mem_singleton.mp h ▸ by simp [givenNames])

/-- The name of the argument for the authentication is that of no other one. -/
theorem auth_notMem (found : List Source) : "_auth" ∉ namesOf found := by
  intro h
  obtain ⟨s, -, hname⟩ := List.mem_map.mp h
  exact Name.head?_fieldName s.word (by rw [hname]; decide)

theorem nodup_names_iff {found : List Source} (h : found.Nodup) (security : List Requirement) :
    (namesOf found ++ authNames security).Nodup ↔
      ∀ s ∈ found, ∀ t ∈ found, spelling s.word = spelling t.word → s = t := by
  have hauth : (namesOf found ++ authNames security).Nodup ↔ (namesOf found).Nodup := by
    unfold authNames
    split
    · rw [List.append_nil]
    · rw [List.nodup_append_comm, List.singleton_append, List.nodup_cons]
      exact and_iff_right (auth_notMem found)
  rw [hauth, namesOf, List.nodup_map_iff_inj_on h]
  simp only [Name.fieldName_eq_iff]

/-- **The arguments of a handler have distinct names exactly if no two of what they are taken from are spelled the
same.** -/
theorem argumentNames_nodup_iff {doc : Contract.Canonical} {routes : List Route}
    (hroutes : (Route.ofDocument doc).Yields routes) (hroute : route ∈ routes)
    (hscheme : ∀ r ∈ route.security.head?, ∃ name, r.schemeName = .text name) (queryStruct : Option String) :
    ∃ arguments, handlerArguments route queryStruct = .ok arguments ∧
      arguments.map argumentName = namesOf (sources route) ++ authNames route.security ∧
      (∀ argument ∈ arguments, IsIdentifier (argumentName argument)) ∧
      ((arguments.map argumentName).Nodup ↔
        ∀ s ∈ sources route, ∀ t ∈ sources route, spelling s.word = spelling t.word → s = t) := by
  obtain ⟨arguments, harguments⟩ := exists_handlerArguments hscheme queryStruct
  have hnames := names_handlerArguments harguments
  refine ⟨arguments, harguments, hnames, fun argument hargument => ?_, ?_⟩
  · exact isIdentifier_of_mem_names (hnames ▸ List.mem_map_of_mem hargument)
  · rw [hnames]
    exact nodup_names_iff (Route.nodup_sources (Route.nodup_params hroutes hroute)) _

/-- A document with an operation that takes the number of a pet and a cookie. -/
def cookieSample (cookie : String) : Contract.Canonical where
  data := [(.text "paths", .object [("/pets/\x7bid\x7d", .object [("get", .object [("parameters", .list
    [.object [("name", .text "id"), ("in", .text "path")],
      .object [("name", .text cookie), ("in", .text "cookie")]])])])])]
  dialect := .openApi "3.1.0"

theorem argumentNames_nodup_iff_cookieSample : ∃ routes,
    (Route.ofDocument (cookieSample "session")).collect.1 = .ok routes ∧ ∃ route ∈ routes, ∃ arguments,
      handlerArguments route none = .ok arguments ∧ arguments.map argumentName = ["id", "session"] ∧
      (arguments.map argumentName).Nodup := by
  have hsample : (Route.ofDocument (cookieSample "session")).collect.1.toOption.map
      (·.map fun r => (sources r, r.security.length)) =
        some [([.pathVariable "id", .parameter ("session", .cookie)], 0)] := by decide +kernel
  obtain ⟨routes, hroutes, hparts⟩ := Option.map_eq_some_iff.mp hsample
  have hroutes := eq_ok_of_toOption hroutes
  obtain ⟨route, rfl, hroute⟩ := List.map_eq_singleton_iff.mp hparts
  obtain ⟨hsources, hlength⟩ := Prod.mk.inj hroute
  have hsecurity : route.security = [] := List.length_eq_zero_iff.mp hlength
  obtain ⟨arguments, harguments, hnames, -, hdistinct⟩ :=
    argumentNames_nodup_iff (Resolving.yields_of_collect hroutes) (List.mem_singleton_self route)
      (by rw [hsecurity]; exact forall_mem_none) none
  refine ⟨[route], hroutes, route, List.mem_singleton_self _, arguments, harguments, ?_, hdistinct.mpr ?_⟩
  · rw [hnames, hsources, hsecurity]
    decide +kernel
  · rw [hsources]
    decide +kernel

/-- The path and the cookie are different places for parameters of one name. -/
theorem argumentNames_clash : ∃ routes, (Route.ofDocument (cookieSample "id")).collect.1 = .ok routes ∧
    ∃ route ∈ routes, handlerArguments route none = .ok ["id: web::Path<String>", "id: web::Cookie"] ∧
      ¬ (["id: web::Path<String>", "id: web::Cookie"].map argumentName).Nodup := by
  have hsample : (Route.ofDocument (cookieSample "id")).collect.1.toOption.map
      (·.map fun r => (handlerArguments r none).toOption) =
        some [some ["id: web::Path<String>", "id: web::Cookie"]] := by decide +kernel
  obtain ⟨routes, hroutes, hparts⟩ := Option.map_eq_some_iff.mp hsample
  obtain ⟨route, rfl, harguments⟩ := List.map_eq_singleton_iff.mp hparts
  exact ⟨[route], eq_ok_of_toOption hroutes, route, List.mem_singleton_self _, eq_ok_of_toOption harguments,
    by decide +kernel⟩

end Emit

end ContractSync
