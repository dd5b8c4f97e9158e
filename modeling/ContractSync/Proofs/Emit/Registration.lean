import ContractSync.Proofs.Edit.Registration
import ContractSync.Proofs.Emit.Pieces
import ContractSync.Proofs.Name.Words
import ContractSync.Proofs.Rust.Writing
import ContractSync.Proofs.Text.Bounded
import Mathlib.Data.List.Infix

/-!
# The text of a registration

A route whose path and method stand on a line is registered by a statement (`isStatement_registration`).
**The statement holds the path of a handler of the same group just where the last names say so**
(`occursBounded_registration`): neither the path of the route nor its method can hold one.
-/

namespace ContractSync.Emit

open Edit (IsStatement)
open Rust (Anything IsCode IsIdentifier Passes TokenTree)
open Text (isBlank isLineBoundary isWordChar occursBounded boundedHere)

variable {route : Route} {group handler : String}

/-! ### The path of a handler -/

theorem handlerPath_eq (group handler : String) :
    handlerPath group handler =
      String.ofList (Rust.pathText ["handlers", Name.moduleName group, handler]) := by
  rw [← String.toList_inj, String.toList_ofList]
  unfold handlerPath
  simp only [String.toList_append, Rust.pathText, List.map_cons, List.map_nil,
    List.intercalate_cons_cons, List.intercalate_singleton, List.append_assoc]
  rfl

theorem isCode_handlerPath (h : IsIdentifier handler) : IsCode (handlerPath group handler) := by
  rw [handlerPath_eq]
  refine Rust.isCode_path (List.cons_ne_nil _ _) ?_
  refine List.forall_mem_cons.mpr ⟨by decide, List.forall_mem_cons.mpr ⟨?_,
    List.forall_mem_singleton.mpr h⟩⟩
  exact Rust.isIdentifier_iff.mpr (.inl (Name.isPlainName_moduleName group))

/-- What stands in front of the last name. -/
def groupPath (group : String) : List Char := ':' :: (Name.moduleName group).toList ++ [':', ':']

theorem handlerPath_toList (group handler : String) :
    (handlerPath group handler).toList =
      "handlers".toList ++ ':' :: groupPath group ++ handler.toList := by
  have hlead : "handlers::".toList = "handlers".toList ++ [':', ':'] := by decide
  have hmark : "::".toList = [':', ':'] := by decide
  have htext : (handlerPath group handler).toList =
      "handlers::".toList ++ ((Name.moduleName group).toList ++ ("::".toList ++ handler.toList)) := by
    unfold handlerPath
    simp only [String.toList_append, List.append_assoc]
  have hparts := congrArg₂ (fun a b => a ++ ((Name.moduleName group).toList ++ (b ++ handler.toList)))
    hlead hmark
  rw [htext.trans hparts, groupPath]
  simp only [List.append_assoc, List.cons_append, List.nil_append]

/-- What the characters of a path are. -/
def isPathChar (c : Char) : Bool := Rust.Lexer.isIdentChar c || c == ':' || c == '#'

theorem isPathChar_fixed : (∀ c ∈ "handlers".toList, isPathChar c = true) ∧ isPathChar ':' = true ∧
    isPathChar '#' = true ∧ isPathChar 'r' = true := by decide +kernel

theorem isPathChar_of_mem_identifier (h : IsIdentifier handler) :
    ∀ c ∈ handler.toList, isPathChar c = true ∧ c ≠ ':' := by
  have hcolon : Rust.Lexer.isIdentChar ':' = false := Rust.Lexer.not_isIdentChar_of_mark (by decide)
  have hplain : ∀ {cs : List Char}, Rust.isPlainName cs = true →
      ∀ c ∈ cs, isPathChar c = true ∧ c ≠ ':' := by
    intro cs hcs c hc
    have hident := Rust.isIdentChar_of_mem_plainName hcs c hc
    refine ⟨by rw [isPathChar, hident]; rfl, ?_⟩
    rintro rfl
    rw [hcolon] at hident
    cases hident
  rcases Rust.isIdentifier_iff.mp h with h | ⟨rest, hrest, h⟩
  · exact hplain h
  · rw [hrest]
    obtain ⟨-, -, hhash, hr⟩ := isPathChar_fixed
    exact List.forall_mem_cons.mpr ⟨⟨hr, by decide⟩, List.forall_mem_cons.mpr ⟨⟨hhash, by decide⟩,
      hplain h⟩⟩

theorem isPathChar_of_mem_handlerPath (h : IsIdentifier handler) :
    ∀ c ∈ (handlerPath group handler).toList, isPathChar c = true := by
  have hmodule : ∀ c ∈ (Name.moduleName group).toList, isPathChar c = true := fun c hc => by
    rw [isPathChar, Rust.Lexer.isIdentChar_of_isWordChar (Name.isWordChar_of_mem_moduleName c hc)]
    rfl
  obtain ⟨hlead, hcolon, -, -⟩ := isPathChar_fixed
  have hgroup : ∀ c ∈ groupPath group, isPathChar c = true := by
    refine List.forall_mem_append.mpr ⟨List.forall_mem_cons.mpr ⟨hcolon, hmodule⟩, ?_⟩
    exact List.forall_mem_cons.mpr ⟨hcolon, List.forall_mem_singleton.mpr hcolon⟩
  rw [handlerPath_toList]
  refine List.forall_mem_append.mpr ⟨List.forall_mem_append.mpr ⟨hlead,
    List.forall_mem_cons.mpr ⟨hcolon, hgroup⟩⟩, fun c hc => (isPathChar_of_mem_identifier h c hc).1⟩

theorem not_isBlank_of_isPathChar {c : Char} (h : isPathChar c = true) : isBlank c = false := by
  rw [← Bool.not_eq_true]
  intro hblank
  have halnum := Text.not_isAlphanumeric_of_isBlank hblank
  rw [isPathChar, Rust.Lexer.isIdentChar, halnum] at h
  simp only [Bool.or_false, Bool.or_eq_true, beq_iff_eq] at h
  rcases h with (rfl | rfl) | rfl <;> exact absurd hblank (by decide)

/-! ### The call for a method -/

/-- The method has a builder, or stands in capitals in a literal. -/
theorem methodCall_toList (method : String) :
    (∃ m ∈ builderMethods, (methodCall method).toList = (m ++ "()").toList) ∨
      (methodCall method).toList = "method(actix_web::http::Method::from_bytes(b".toList ++
        '"' :: (Text.upper method.toList ++ '"' :: ").unwrap())".toList) := by
  by_cases hknown : builderMethods.contains (Route.lowerMethod method) = true
  · exact .inl ⟨_, List.contains_iff_mem.mp hknown, congrArg String.toList (if_pos hknown)⟩
  · right
    have hcall : methodCall method = "method(" ++ methodValue method ++ ")" := if_neg hknown
    have hopen : "method(".toList ++ ("actix_web::http::Method::from_bytes(".toList ++ ['b']) =
        "method(actix_web::http::Method::from_bytes(b".toList := by decide
    have hclose : ").unwrap()".toList ++ ")".toList = ").unwrap())".toList := by decide
    have hparts := congrArg₂ (fun a b => a ++ '"' :: (Text.upper method.toList ++ '"' :: b)) hopen hclose
    refine Eq.trans ?_ hparts
    rw [hcall, String.toList_append, String.toList_append, methodValue_toList]
    simp only [List.append_assoc, List.cons_append, List.nil_append]

/-- A path of a handler does not begin there. -/
theorem not_infix_methodCall {method : String} (h : "handlers::".toList <:+:
    ").route(web::".toList ++ ((methodCall method).toList ++ ".to".toList)) : False := by
  have hquote : '"' ∉ "handlers::".toList := by decide
  rcases methodCall_toList method with ⟨m, hm, hcall⟩ | hcall
  · have hnone : ∀ m ∈ builderMethods, ¬ "handlers::".toList <:+:
        ").route(web::".toList ++ ((m ++ "()").toList ++ ".to".toList) := by decide
    exact hnone m hm (hcall ▸ h)
  · have hopen : ").route(web::".toList ++ "method(actix_web::http::Method::from_bytes(b".toList =
        ").route(web::method(actix_web::http::Method::from_bytes(b".toList := by decide
    rw [hcall] at h
    simp only [List.append_assoc, List.cons_append] at h
    rw [← List.append_assoc] at h
    rcases Text.infix_cut hquote h with h | h
    · exact absurd h (by decide)
    rcases Text.infix_cut hquote h with h | h
    · exact Text.h_notMem_upper _ (h.subset (by decide))
    · exact absurd h (by decide)

/-! ### The path of a route -/

/-- Escaping brings no pair of colons. -/
theorem infix_of_infix_escape {cs : List Char} (h : [':', ':'] <:+: escapeChars cs) :
    [':', ':'] <:+: cs := by
  induction cs with
  | nil => exact h
  | cons c cs ih =>
    rw [escapeChars_cons] at h
    split at h
    · -- What is escaped is no colon.
      rename_i hc
      have hrest : [':', ':'] <:+: ([] : List Char) ∨ [':', ':'] <:+: c :: escapeChars cs :=
        Text.infix_cut (a := []) (by decide) h
      rcases hrest with hrest | hrest
      · exact absurd (List.infix_nil.mp hrest) (List.cons_ne_nil _ _)
      rcases Text.infix_cut (a := []) (by rcases hc with rfl | rfl <;> decide) hrest with hrest | hrest
      · exact absurd (List.infix_nil.mp hrest) (List.cons_ne_nil _ _)
      · exact (ih hrest).trans (List.suffix_cons c cs).isInfix
    · rw [List.singleton_append] at h
      rcases List.infix_cons_iff.mp h with hfirst | h
      · obtain ⟨hc, hnext⟩ := List.cons_prefix_cons.mp hfirst
        cases cs with
        | nil => exact absurd (List.prefix_nil.mp hnext) (List.cons_ne_nil _ _)
        | cons d cs =>
          rw [escapeChars_cons] at hnext
          split at hnext
          · exact absurd (List.cons_prefix_cons.mp hnext).1 (by decide)
          · obtain ⟨hd, -⟩ := List.cons_prefix_cons.mp hnext
            exact hc ▸ hd ▸ ⟨[], cs, rfl⟩
      · exact (ih h).trans (List.suffix_cons c cs).isInfix

/-! ### The statement -/

/-- The statement up to the path of the handler. -/
def statementLead (route : Route) : List Char :=
  "cfg.service(web::resource(".toList ++ ((quoted route.path).toList ++ (").route(web::".toList ++
    ((methodCall route.method).toList ++ ".to".toList)))

theorem registration_toList (route : Route) (key : String) :
    (registration route key).toList =
      statementLead route ++ '(' :: (key.toList ++ ')' :: "));".toList) := by
  have hopen : ".to(".toList = ".to".toList ++ ['('] := by decide
  have hclose : ")));".toList = ')' :: "));".toList := by decide
  have htext : (registration route key).toList = "cfg.service(web::resource(".toList ++
      ((quoted route.path).toList ++ (").route(web::".toList ++ ((methodCall route.method).toList ++
        (".to(".toList ++ (key.toList ++ ")));".toList))))) := by
    unfold registration
    simp only [String.toList_append, List.append_assoc]
  have hparts := congrArg₂ (fun a b => "cfg.service(web::resource(".toList ++
      ((quoted route.path).toList ++ (").route(web::".toList ++ ((methodCall route.method).toList ++
        (a ++ (key.toList ++ b)))))) hopen hclose
  rw [htext.trans hparts]
  unfold statementLead
  simp only [List.append_assoc, List.singleton_append]

/-- The path of a handler does not begin in front of where it stands. -/
theorem not_infix_statementLead (hpath : ¬ [':', ':'] <:+: route.path.toList) :
    ¬ "handlers::".toList <:+: statementLead route := by
  have hquote : '"' ∉ "handlers::".toList := by decide
  have hmark : [':', ':'] <:+: "handlers::".toList := by decide
  intro h
  unfold statementLead at h
  rw [quoted_toList] at h
  simp only [List.cons_append, List.append_assoc, List.nil_append] at h
  rcases Text.infix_cut hquote h with h | h
  · exact absurd h (by decide)
  rcases Text.infix_cut hquote h with h | h
  · exact hpath (infix_of_infix_escape (hmark.trans h))
  · exact not_infix_methodCall h

/-- **What the statement holds**: the path of another handler of the group if its last name is the
beginning of this one, with no word character behind it. -/
theorem occursBounded_registration (hpath : ¬ [':', ':'] <:+: route.path.toList)
    {handler' : String} (h : IsIdentifier handler) (h' : IsIdentifier handler') :
    occursBounded (handlerPath group handler').toList
        (registration route (handlerPath group handler)).toList =
      boundedHere handler'.toList handler.toList := by
  have hchars := @isPathChar_of_mem_handlerPath group handler' h'
  have hparen : ∀ c ∈ ['(', ')'], c ∉ (handlerPath group handler').toList := by
    have hnone : ∀ c ∈ ['(', ')'], isPathChar c = false := by decide +kernel
    intro c hc hmem
    have := hchars c hmem
    rw [hnone c hc] at this
    cases this
  have hlong : "handlers::".toList <:+: (handlerPath group handler').toList := by
    have hlead : "handlers".toList ++ [':', ':'] = "handlers::".toList := by decide
    rw [handlerPath_toList, groupPath]
    refine ⟨[], (Name.moduleName group).toList ++ ([':', ':'] ++ handler'.toList), ?_⟩
    rw [← hlead]
    simp only [List.append_assoc, List.cons_append, List.nil_append]
  have hlead : occursBounded (handlerPath group handler').toList (statementLead route) = false := by
    rw [← Bool.not_eq_true]
    exact fun h => not_infix_statementLead hpath (hlong.trans (Text.infix_of_occursBounded h))
  have htail : occursBounded (handlerPath group handler').toList "));".toList = false := by
    rw [← Bool.not_eq_true]
    exact fun h => absurd (hlong.trans (Text.infix_of_occursBounded h)) (by decide)
  have hcolon : ':' ∉ "handlers".toList := by decide
  rw [registration_toList, Text.occursBounded_cut (by decide) (hparen '(' (by simp)),
    Text.occursBounded_cut (by decide) (hparen ')' (by simp)), hlead, htail, Bool.or_false, Bool.false_or,
    handlerPath_toList, handlerPath_toList]
  exact Text.occursBounded_path hcolon (fun hc => (isPathChar_of_mem_identifier h _ hc).2 rfl)
    fun hc => (isPathChar_of_mem_identifier h' _ hc).2 rfl

theorem passes_registration (hmethod : IsQuotable route.method) {key : String} (hkey : IsCode key) :
    Passes Anything [] [] (registration route key).toList := by
  have hresource : Passes Anything [] [")", ")"] "cfg.service(web::resource(".toList :=
    .const rfl (by decide)
  have hpath := Passes.leaf (writes_quoted route.path) nofun [")", ")"]
  have hroute : Passes Anything [")", ")"] [")", ")"] ").route(web::".toList := .const rfl (by decide)
  have hto : Passes Anything [")", ")"] [")", ")", ")"] ".to(".toList := .const rfl (by decide)
  have hend : Passes Anything [")", ")", ")"] [] ")));".toList := .const rfl (by decide)
  have hhandler := (hkey.passes.balanced [")", ")", ")"]).append hend
    fun rest _ => ⟨.of_isCalm (by decide +kernel), rfl⟩
  have hall := hresource.and (hpath.and (hroute.and (((passes_methodCall hmethod).balanced _).and
    (hto.and hhandler))))
  unfold registration
  simpa only [String.toList_append, List.append_assoc] using hall

/-- The path and the method of the route stand on one line. -/
structure IsOneLine (route : Route) : Prop where
  path : ∀ c ∈ route.path.toList, isLineBoundary c = false
  method : ∀ c ∈ route.method.toList, isLineBoundary c = false

theorem not_isLineBoundary_methodCall {method : String}
    (h : ∀ c ∈ method.toList, isLineBoundary c = false) :
    ∀ c ∈ (methodCall method).toList, isLineBoundary c = false := by
  rcases methodCall_toList method with ⟨m, hm, hcall⟩ | hcall
  · have hall : ∀ m ∈ builderMethods, ∀ c ∈ (m ++ "()").toList, isLineBoundary c = false := by
      decide
    rw [hcall]
    exact hall m hm
  · have hlead : ∀ c ∈ "method(actix_web::http::Method::from_bytes(b".toList,
        isLineBoundary c = false := by decide
    have htail : ∀ c ∈ '"' :: ").unwrap())".toList, isLineBoundary c = false := by decide
    rw [hcall]
    refine List.forall_mem_append.mpr ⟨hlead, List.forall_mem_cons.mpr ⟨by decide, ?_⟩⟩
    exact List.forall_mem_append.mpr ⟨Text.not_isLineBoundary_upper h, htail⟩

/-- **A registration is a statement.** -/
theorem isStatement_registration (hline : IsOneLine route) (hmethod : IsQuotable route.method)
    (h : IsIdentifier handler) :
    IsStatement (registration route (handlerPath group handler)).toList := by
  have hpath : IsCode (handlerPath group handler) := isCode_handlerPath h
  obtain ⟨trees, htokens, hnested⟩ := (passes_registration hmethod hpath).exists_trees trivial
  refine ⟨?_, ?_, _, trees, htokens, TokenTree.ofTokens_eq_ok_iff.mpr ⟨rfl, hnested⟩⟩
  · have hkey : ∀ c ∈ (handlerPath group handler).toList, isLineBoundary c = false := fun c hc => by
      rw [← Bool.not_eq_true]
      intro hboundary
      have := not_isBlank_of_isPathChar (isPathChar_of_mem_handlerPath h c hc)
      rw [Text.isBlank_of_isLineBoundary hboundary] at this
      cases this
    have hescaped : ∀ c ∈ escapeChars route.path.toList, isLineBoundary c = false := by
      intro c hc
      obtain ⟨d, hd, hc⟩ := List.mem_flatMap.mp hc
      split at hc
      · rcases List.mem_cons.mp hc with rfl | hc
        · decide
        · exact List.mem_singleton.mp hc ▸ hline.path d hd
      · exact List.mem_singleton.mp hc ▸ hline.path d hd
    have hfixed : (∀ c ∈ "cfg.service(web::resource(".toList, isLineBoundary c = false) ∧
        (∀ c ∈ ").route(web::".toList, isLineBoundary c = false) ∧
        (∀ c ∈ ".to".toList, isLineBoundary c = false) ∧
        (∀ c ∈ "));".toList, isLineBoundary c = false) := by decide
    rw [registration_toList]
    unfold statementLead
    rw [quoted_toList]
    simp only [List.forall_mem_append, List.forall_mem_cons]
    exact ⟨⟨hfixed.1, ⟨by decide, hescaped, by decide, List.forall_mem_nil _⟩, hfixed.2.1,
      not_isLineBoundary_methodCall hline.method, hfixed.2.2.1⟩, by decide, hkey, by decide, hfixed.2.2.2⟩
  · have hfirst : "cfg.service(web::resource(".toList.head? = some 'c' := by decide
    have hlast : "));".toList.getLast? = some ';' := by decide
    rw [registration_toList]
    refine Text.trim_eq_self (fun c hc => ?_) fun c hc => ?_
    · unfold statementLead at hc
      rw [List.append_assoc, List.head?_append, hfirst] at hc
      cases hc
      decide
    · rw [List.getLast?_append, List.getLast?_cons, List.getLast?_append, List.getLast?_cons, hlast] at hc
      cases hc
      exact (by decide : isBlank ';' = false)

end ContractSync.Emit
