import ContractSync.Proofs.Edit.Keep
import ContractSync.Proofs.Edit.Registration
import ContractSync.Proofs.Rust.AttributeList
import ContractSync.Proofs.Rust.Dressable
import ContractSync.Proofs.Rust.Insert
import ContractSync.Proofs.Rust.Word

/-!
# Entries of attributes

The declaration that an attribute is added to is found in the text, and other attributes can stand in front of
it (`exists_declared`). Between the parentheses of an attribute there can be something else: **the text is
read as it was, carried** (`Declared.exists_argsIn`).

A new entry goes behind the last character between the parentheses that is not blank. There it is read, unless
the place is in a comment up to the end of its line, which takes the entry along (`ArgsIn.exists_entered`).
**In any case the name of the entry occurs bounded between the parentheses.**
-/

namespace ContractSync.Edit

open Rust (Attributes Edges IsPath Node PathTokens Span Token TokenTree Tree parse tokenize)
open Rust.Lexer
open Rust.TokenTree (flattenAll isNestedAll)

variable {source text : List Char} {declaration group : String} {n : Node} {args : Span}

/-! ### The declaration -/

/-- A struct or an enum that is found in a text. Its attributes `own` stand between the tokens `front` and
`back`, and in a text with other attributes between these it is found with them. -/
structure Declared (source : List Char) (declaration : String) (n : Node) (own : List TokenTree)
    (inner : List Node) (front back : List Token) : Prop where
  attributes : Attributes own inner n.attributes
  nested : isNestedAll own = true
  tokens : tokenize source = .ok (front ++ (flattenAll own ++ back))
  place : back.head?.map Token.start = some n.itemStart
  border : ∀ t ∈ front.getLast?, t.isBorder = true
  dressed : ∀ {e : Edges} {text : List Char} {new : List TokenTree} {attributes : List Node},
    Attributes new (inner.map (Node.carry e)) attributes → isNestedAll new = true →
    tokenize text = .ok (front.map (·.carry e) ++ (flattenAll new ++ back.map (·.carry e))) →
    ∃ after, parse text = .ok after ∧
      after.find? declaration [.struct_, .enum_] = some (n.withAttributes e attributes)

theorem exists_declared {tree : Tree} (h : parse source = .ok tree)
    (hfound : tree.find? declaration [.struct_, .enum_] = some n) :
    ∃ own inner front back, Declared source declaration n own inner front back := by
  obtain ⟨trees, nodes, hreads, rfl⟩ := Rust.parse_eq_ok_iff.mp h
  obtain ⟨hmem, kind, hkind, hitem⟩ := Tree.of_find? hfound
  have hdata : n.isData = true := by
    rw [Node.isData, hitem]
    revert hkind
    cases kind <;> decide
  have hn : n ∈ Node.walkAll nodes := by
    rcases Node.mem_walk_mk.mp hmem with rfl | hmem
    · cases hdata
    · exact hmem
  have hapart := (run_of_lexFrom hreads.tokens).start_nodup
  obtain ⟨own, inner, front, back, hdress⟩ := hreads.items.dressable hreads.nested hapart hn hdata
  refine ⟨own, inner, front, back, hdress.attributes, hdress.nested, ?_, hdress.place, hdress.border,
    fun hnew hnested htokens => ?_⟩
  · rw [hreads.tokens, hdress.tokens]
  · exact hreads.exists_withAttributes hdata hdress hfound hnew hnested htokens

/-! ### Parentheses in a text -/

/-- Parentheses in a text, with the tokens around and between them. -/
structure ArgsIn (source : List Char) (args : Span) (left : List Token) (opener : Token)
    (held : List Token) (closer : Token) (right : List Token) : Prop where
  tokens : tokenize source = .ok (left ++ opener :: (held ++ closer :: right))
  isOpen : opener.text = "("
  closes : opener.closes closer = true
  span : args = ⟨opener.start, closer.start⟩

namespace ArgsIn

variable {left held right : List Token} {opener closer : Token}

/-- The tokens up to the closing parenthesis. -/
theorem run_stop (h : ArgsIn source args left opener held closer right) :
    Run 0 source (left ++ opener :: held) args.stop (source.drop args.stop) := by
  have hall := run_of_lexFrom h.tokens
  have hsplit : left ++ opener :: (held ++ closer :: right) = (left ++ opener :: held) ++ closer :: right := by
    simp
  rw [hsplit] at hall
  rw [h.span]
  exact hall.cut_before.1

theorem stop_opener (h : ArgsIn source args left opener held closer right) : opener.stop = args.start + 1 := by
  have hstop := h.run_stop.stop_eq (t := opener) (by simp)
  rw [h.isOpen] at hstop
  rw [hstop, h.span]
  rfl

theorem run_start (h : ArgsIn source args left opener held closer right) :
    Run 0 source (left ++ [opener]) (args.start + 1) (source.drop (args.start + 1)) := by
  have hcut := h.run_stop.cut_behind.1
  rwa [h.stop_opener] at hcut

/-- The text is made of what stands in front of the parentheses, between and behind them. -/
theorem bounds (h : ArgsIn source args left opener held closer right) :
    args.start + 1 ≤ args.stop ∧ args.stop < source.length := by
  have hopener := h.run_stop.ordered.2.1 opener (by simp)
  have hcloser := (run_of_lexFrom h.tokens).ordered.2.1 closer (by simp)
  have hstop := h.stop_opener
  rw [h.span] at hopener hstop ⊢
  dsimp only at *
  omega

theorem length_between (h : ArgsIn source args left opener held closer right) :
    (between source args).length = args.stop - (args.start + 1) := by
  have hbounds := h.bounds
  rw [between, Text.slice, List.length_drop, List.length_take]
  omega

theorem drop_start (h : ArgsIn source args left opener held closer right) :
    source.drop (args.start + 1) = between source args ++ source.drop args.stop := by
  have hbounds := h.bounds
  rw [between, Text.slice, List.drop_take]
  have hdrop : source.drop args.stop =
      (source.drop (args.start + 1)).drop (args.stop - (args.start + 1)) := by
    rw [List.drop_drop]
    congr 1
    omega
  rw [hdrop, List.take_append_drop]

theorem source_eq (h : ArgsIn source args left opener held closer right) :
    source = source.take (args.start + 1) ++ (between source args ++ source.drop args.stop) := by
  rw [← h.drop_start, List.take_append_drop]

/-- The tokens between the parentheses. -/
theorem run_between (h : ArgsIn source args left opener held closer right) :
    Run (args.start + 1) (between source args ++ source.drop args.stop) held args.stop
      (source.drop args.stop) := by
  have hcut := h.run_stop.cut_behind.2
  rwa [h.stop_opener, h.drop_start] at hcut

/-- A token that stands between the parentheses is held. -/
theorem mem_held (h : ArgsIn source args left opener held closer right) {t : Token}
    (ht : t ∈ left ++ opener :: (held ++ closer :: right)) (hstart : args.start < t.start)
    (hstop : t.stop ≤ args.stop) : t ∈ held := by
  have hsplit : left ++ opener :: (held ++ closer :: right) = (left ++ opener :: held) ++ closer :: right := by
    simp
  have hall := run_of_lexFrom h.tokens
  rw [hsplit] at hall ht
  rcases List.mem_append.mp ht with ht | ht
  · rw [List.append_cons] at ht
    refine (List.mem_append.mp ht).resolve_left fun ht => ?_
    have := h.run_start.ordered.2.1 t ht
    omega
  · have := hall.cut_before.2.ordered.2.1 t ht
    rw [h.span] at hstop
    dsimp only at hstop
    omega

theorem of_mem_held (h : ArgsIn source args left opener held closer right) {t : Token} (ht : t ∈ held) :
    args.start < t.start ∧ t.stop ≤ args.stop := by
  have := h.run_between.ordered.2.1 t ht
  omega

theorem drop_stop (h : ArgsIn source args left opener held closer right) :
    ∃ rest, source.drop args.stop = ')' :: rest := by
  have hchar := (run_of_lexFrom h.tokens).getElem?_start (t := closer) (by simp)
  have hcloser : closer.text = ")" := by
    have hcloses := h.closes
    simp only [Token.closes, Token.isPunct, h.isOpen, Bool.or_eq_true, Bool.and_eq_true, beq_iff_eq] at hcloses
    simp at hcloses
    exact hcloses.2.2
  rw [Nat.sub_zero, hcloser, ← List.head?_drop] at hchar
  rw [h.span]
  obtain ⟨rest, hrest⟩ := List.head?_eq_some_iff.mp hchar
  exact ⟨rest, hrest⟩

/-! ### Other tokens between the parentheses -/

/-- Where the closing parenthesis is carried to. -/
theorem move_behind (h : ArgsIn source args left opener held closer right) (d : Nat) :
    args.move (Edges.behind args.stop d).start = ⟨args.start, d⟩ := by
  have hbounds := h.bounds
  rw [Span.move, Span.mk.injEq]
  constructor
  · exact if_pos (by omega)
  · show (if args.stop < args.stop then _ else args.stop - args.stop + d) = d
    rw [if_neg (Nat.lt_irrefl _), Nat.sub_self, Nat.zero_add]

/-- What is met up to the closing parenthesis takes the place of what was there. -/
theorem tokenize_new (h : ArgsIn source args left opener held closer right) {text : List Char} {new : List Token}
    (hrun : Run 0 (text ++ source.drop args.stop) (left ++ opener :: new) text.length (source.drop args.stop)) :
    tokenize (text ++ source.drop args.stop) = .ok (left ++ opener :: new ++
      (closer :: right).map (·.carry (.behind args.stop text.length))) := by
  refine Rust.tokenize_behind h.run_stop ?_ hrun
  rw [h.tokens]
  simp

/-- The parentheses where other tokens stand between them. -/
theorem of_tokens (h : ArgsIn source args left opener held closer right) {d : Nat} {new : List Token}
    (htokens : tokenize text =
      .ok (left ++ opener :: new ++ (closer :: right).map (·.carry (.behind args.stop d)))) :
    ArgsIn text ⟨args.start, d⟩ left opener new (closer.carry (.behind args.stop d))
      (right.map (·.carry (.behind args.stop d))) := by
  refine ⟨by rw [htokens]; simp, h.isOpen, h.closes, ?_⟩
  have hstop : (Edges.behind args.stop d).start args.stop = d := congrArg Span.stop (h.move_behind d)
  rw [Span.mk.injEq]
  exact ⟨congrArg Span.start h.span,
    hstop.symm.trans (congrArg (fun s : Span => (Edges.behind args.stop d).start s.stop) h.span)⟩

end ArgsIn

/-! ### The arguments of a group -/

theorem mem_groupArgs : args ∈ groupArgs n group ↔
    ∃ m ∈ n.attributes, ∃ isInner, m.shape = .attribute (some group) (some args) isInner := by
  rw [groupArgs, List.mem_filterMap]
  refine exists_congr fun m => and_congr_right fun _ => ?_
  cases m.shape with
  | «attribute» path arguments isInner =>
    by_cases hpath : path = some group
    · simp [hpath]
    · simp [hpath]
  | file | item | field | variant => simp

/-- The arguments of a group where the attributes are carried and more are behind them. -/
theorem mem_groupArgs_carry {n' : Node} {e : Edges} {more : List Node}
    (h : n'.attributes = n.attributes.map (Node.carry e) ++ more) :
    args ∈ groupArgs n' group ↔ (∃ old ∈ groupArgs n group, old.move e.start = args) ∨
      ∃ m ∈ more, ∃ isInner, m.shape = .attribute (some group) (some args) isInner := by
  have hcarry : ∀ {m : Node} {isInner : Bool},
      (m.carry e).shape = .attribute (some group) (some args) isInner ↔
        ∃ old, m.shape = .attribute (some group) (some old) isInner ∧ old.move e.start = args := by
    intro m isInner
    rw [Node.shape_carry]
    cases m.shape with
    | «attribute» path arguments inner =>
      cases arguments with
      | none => simp [Rust.Shape.carry]
      | some old =>
        simp only [Rust.Shape.carry, Option.map_some, Rust.Shape.attribute.injEq, Option.some.injEq]
        constructor
        · rintro ⟨rfl, hold, rfl⟩
          exact ⟨old, ⟨rfl, rfl, rfl⟩, hold⟩
        · rintro ⟨_, ⟨rfl, rfl, rfl⟩, hold⟩
          exact ⟨rfl, hold, rfl⟩
    | file | item | field | variant => simp [Rust.Shape.carry]
  rw [mem_groupArgs, h]
  simp only [List.mem_append, or_and_right, exists_or, List.mem_map, mem_groupArgs]
  refine or_congr_left ?_
  constructor
  · rintro ⟨_, ⟨m, hm, rfl⟩, isInner, hshape⟩
    obtain ⟨old, hold, hmove⟩ := hcarry.mp hshape
    exact ⟨old, ⟨m, hm, isInner, hold⟩, hmove⟩
  · rintro ⟨old, ⟨m, hm, isInner, hold⟩, hmove⟩
    exact ⟨_, ⟨m, hm, rfl⟩, isInner, hcarry.mpr ⟨old, hold, hmove⟩⟩

/-- **The parentheses of an attribute can hold something else**: in a text with other tokens between them the
declaration is found as it was, carried. -/
theorem Declared.exists_argsIn {own : List TokenTree} {inner : List Node} {front back : List Token}
    (h : Declared source declaration n own inner front back) (hargs : args ∈ groupArgs n group) :
    ∃ left opener held closer right, ArgsIn source args left opener held closer right ∧
      (∃ trees, flattenAll trees = held ∧ isNestedAll trees = true) ∧
      ∀ {e : Edges} {text : List Char} {new : List Token},
        (∃ trees, flattenAll trees = new ∧ isNestedAll trees = true) →
        tokenize text =
          .ok ((left ++ [opener]).map (·.carry e) ++ (new ++ (closer :: right).map (·.carry e))) →
        ∃ after, parse text = .ok after ∧ after.find? declaration [.struct_, .enum_] =
          some (n.withAttributes e (n.attributes.map (Node.carry e))) := by
  obtain ⟨m, hm, isInner, hshape⟩ := mem_groupArgs.mp hargs
  obtain ⟨ahead, opener, held, closer, behind, hflat, hopen, hcloses, hheld, hspan, harguments⟩ :=
    h.attributes.exists_arguments h.nested hm hshape
  have hin : ArgsIn source args (front ++ ahead) opener (flattenAll held) closer (behind ++ back) := by
    refine ⟨?_, hopen, hcloses, hspan⟩
    rw [h.tokens, hflat]
    simp
  refine ⟨_, _, _, _, _, hin, ⟨held, rfl, hheld⟩, ?_⟩
  rintro e text new ⟨trees, rfl, hnested⟩ htokens
  obtain ⟨trees', hattributes, hnested', hflat'⟩ := harguments e trees hnested
  refine h.dressed hattributes hnested' ?_
  rw [htokens, hflat']
  simp

/-! ### The last name of an entry -/

theorem upTo_eq {name more : List Char} (hname : ':' ∉ name)
    (hmore : more = [] ∨ ∃ rest, more = ':' :: ':' :: rest) : lastSegment.upTo (name ++ more) = name := by
  induction name with
  | nil =>
    rcases hmore with rfl | ⟨rest, rfl⟩
    · rfl
    · rfl
  | cons c name ih =>
    rw [List.mem_cons, not_or] at hname
    rw [List.cons_append, lastSegment.upTo, ih hname.2]
    rintro - rfl -
    exact hname.1 rfl

theorem lastSegment_eq {lead name : List Char} (hname : ':' ∉ name)
    (hlead : lead = [] ∨ ∃ more, lead = more ++ [':', ':']) : lastSegment (lead ++ name) = name := by
  rw [lastSegment, List.reverse_append, upTo_eq, List.reverse_reverse]
  · rwa [List.mem_reverse]
  · rcases hlead with rfl | ⟨more, rfl⟩
    · exact .inl rfl
    · exact .inr ⟨more.reverse, by simp⟩

/-- The last name of a path is one of its tokens, and no word character stands in front of it. -/
theorem exists_lastSegment {path : String} {ts : List Token} (h : PathTokens path ts) :
    ∃ lead, path.toList = lead ++ lastSegment path.toList ∧ (∀ x ∈ lead.getLast?, Text.isWordChar x = false) ∧
      ∃ t ∈ ts, t.kind = .ident ∧ t.text.toList = lastSegment path.toList := by
  obtain ⟨lead, t, ht, hkind, hpath, hname, hlead⟩ := h.exists_name
  have hcolon : ':' ∉ t.text.toList := fun hmem => by
    have hident := Rust.isIdentChar_of_mem_identifier hname hmem (by decide)
    rw [not_isIdentChar_of_mark (by decide)] at hident
    cases hident
  have hlast : lastSegment path.toList = t.text.toList := by rw [hpath, lastSegment_eq hcolon hlead]
  refine ⟨lead, by rw [hlast, hpath], fun x hx => ?_, t, ht, hkind, hlast.symm⟩
  rcases hlead with rfl | ⟨more, rfl⟩
  · cases hx
  · rw [List.getLast?_append] at hx
    cases hx
    decide

/-- The last name of a path occurs bounded where the path stands apart. -/
theorem occursBounded_lastSegment {path : String} {ts : List Token} (h : PathTokens path ts)
    {front more : List Char} (hfront : ∀ x ∈ front.getLast?, Text.isWordChar x = false)
    (hmore : Text.startsInWord more = false) :
    Text.occursBounded (lastSegment path.toList) (front ++ (path.toList ++ more)) = true := by
  obtain ⟨lead, hpath, hlead, -⟩ := exists_lastSegment h
  have hparts : front ++ (path.toList ++ more) = (front ++ lead) ++ (lastSegment path.toList ++ more) := by
    conv => lhs; rw [hpath]
    simp
  rw [hparts]
  refine Text.occursBounded_of_parts (fun x hx => ?_) hmore
  rw [List.getLast?_append] at hx
  cases hlast : lead.getLast? with
  | some y =>
    rw [hlast] at hx
    cases hx
    exact hlead x hlast
  | none =>
    rw [hlast] at hx
    exact hfront x hx

theorem occursBounded_path_self {path : String} {ts : List Token} (h : PathTokens path ts) :
    Text.occursBounded (lastSegment path.toList) path.toList = true := by
  have hbounded := @occursBounded_lastSegment _ _ h [] [] nofun rfl
  rwa [List.nil_append, List.append_nil] at hbounded

/-! ### One more entry -/

/-- Where an entry goes between parentheses: behind the last character that is not blank. -/
def entryPlace (source : List Char) (args : Span) : Nat :=
  args.start + 1 + (Text.trimEnd (between source args)).length

theorem isGap_of_calm {rest : List Char} (h : Calm rest) : Rust.IsGap rest := by
  refine h.startsWith_eq_false fun c hc => ?_
  rw [Bool.or_eq_true] at hc
  rcases hc with hc | hc
  · exact not_isCalm_of_isIdentChar hc
  · have hmem := List.contains_iff_mem.mp hc
    exact not_isCalm_of_mem (by revert hmem; simp; tauto)

/-- The text between the parentheses, with an entry. -/
structure Entered (source : List Char) (args : Span) (entry : String) (left : List Token) (opener : Token)
    (held : List Token) (content : List Char) (added : List Token) : Prop where
  text : addEntry source args entry.toList = source.take (args.start + 1) ++ content ++ source.drop args.stop
  run : Run 0 (source.take (args.start + 1) ++ content ++ source.drop args.stop)
    (left ++ opener :: (held ++ added)) (source.take (args.start + 1) ++ content).length
    (source.drop args.stop)
  plain : ∀ t ∈ added, t.isOpener = false ∧ t.isCloser = false
  bounded : Text.occursBounded (lastSegment entry.toList) content = true
  shown : ¬ Rust.InLineComment source (entryPlace source args) →
    ∃ t ∈ added, t.kind = .ident ∧ t.text.toList = lastSegment entry.toList
  hidden : Rust.InLineComment source (entryPlace source args) →
    added = [] ∧ (between source args).length ≤ content.length

namespace Entered

variable {entry : String} {left held added : List Token} {opener : Token} {content : List Char}

theorem between_eq (h : Entered source args entry left opener held content added)
    (hlength : (source.take (args.start + 1)).length = args.start + 1) :
    between (addEntry source args entry.toList) ⟨args.start, (source.take (args.start + 1) ++ content).length⟩ =
      content := by
  have hslice := Text.slice_between (source.take (args.start + 1)) content (source.drop args.stop)
  rwa [hlength, ← h.text] at hslice

/-- The tokens between the parentheses are those of nested trees. -/
theorem nested (h : Entered source args entry left opener held content added)
    (hheld : ∃ trees, flattenAll trees = held ∧ isNestedAll trees = true) :
    ∃ trees, flattenAll trees = held ++ added ∧ isNestedAll trees = true := by
  obtain ⟨trees, rfl, hnested⟩ := hheld
  obtain ⟨hleaves, hleavesNested⟩ := Rust.nested_leaves h.plain
  refine ⟨trees ++ added.map .leaf, ?_, ?_⟩
  · rw [Rust.TokenTree.flattenAll_append, hleaves]
  · rw [Rust.TokenTree.isNestedAll_append, hnested, hleavesNested]
    rfl

end Entered

namespace ArgsIn

variable {left held right as : List Token} {opener closer : Token} {entry : String}

/-- Behind the opening parenthesis the text can be any other. -/
theorem run_front (h : ArgsIn source args left opener held closer right) (u : List Char) :
    Run 0 (source.take (args.start + 1) ++ u) (left ++ [opener]) (args.start + 1) u := by
  have hborder : opener.isBorder = true := by
    rw [Token.isBorder, Token.isOpener_of_closes h.closes, Bool.or_true]
    rfl
  have hrun := h.run_start
  rw [← h.stop_opener] at hrun ⊢
  refine Run.congr_border (u := source.drop opener.stop) ?_ hborder u
  rwa [List.take_append_drop]

theorem length_take (h : ArgsIn source args left opener held closer right) :
    (source.take (args.start + 1)).length = args.start + 1 := by
  have hbounds := h.bounds
  rw [List.length_take]
  omega

/-- The entry is the only one. -/
theorem enter_blank (h : ArgsIn source args left opener held closer right) (hentry : PathTokens entry as)
    (hblank : Text.isAllBlank (between source args) = true) :
    Entered source args entry left opener held entry.toList (as.map (Token.shift (args.start + 1))) := by
  have hlength := h.length_take
  have hheld : held = [] := h.run_between.eq_nil_of_blanks (List.all_eq_true.mp hblank)
  have hkept := Text.trimEnd_eq_nil hblank
  obtain ⟨rest, hrest⟩ := h.drop_stop
  obtain ⟨lead, hpath, -, t, ht, hkind, hname⟩ := exists_lastSegment hentry
  refine ⟨?_, ?_, List.forall_mem_map.mpr hentry.chain.plain, ?_, fun _ => ?_, fun hline => absurd hline ?_⟩
  · rw [addEntry, if_pos hblank]
    rfl
  · have hgap : Rust.IsGap (source.drop args.stop) := by
      rw [hrest]
      exact isGap_of_calm (.of_isCalm (by decide +kernel))
    have hrun := (h.run_front (entry.toList ++ source.drop args.stop)).trans
      (by simpa using (hentry.lexes _ hgap).shift (args.start + 1))
    rw [hheld, List.length_append, hlength, List.append_assoc, Nat.add_comm (args.start + 1)]
    simpa using hrun
  · exact occursBounded_path_self hentry
  · exact ⟨_, List.mem_map_of_mem ht, hkind, hname⟩
  · have hcomma := h.run_front [',']
    rw [entryPlace, hkept, List.length_nil, Nat.add_zero]
    have hnone := Run.not_inLineComment (a := source.take (args.start + 1)) (by rwa [hlength])
      (source.drop (args.start + 1))
    rwa [List.take_append_drop, hlength] at hnone

end ArgsIn

/-- What separates an entry from those in front of it. -/
theorem exists_separator (source : List Char) (args : Span) (entry : List Char)
    (hfilled : Text.isAllBlank (between source args) = false) :
    ∃ sep marks, addEntry source args entry =
        Text.splice source (entryPlace source args) (entryPlace source args) (sep ++ entry) ∧
      Rust.Lexes Rust.Anything sep marks ∧ (∀ t ∈ marks, t.isOpener = false ∧ t.isCloser = false) ∧
      (∀ x ∈ sep.getLast?, Text.isWordChar x = false) ∧ sep ≠ [] ∧ '\n' ∉ sep ∧
      ∀ u, Calm (sep ++ u) ∧ startsWith (· == '/') (sep ++ u) = false := by
  rw [addEntry, if_neg (by rw [hfilled]; exact Bool.false_ne_true)]
  have hblank : ∀ x ∈ some ' ', Text.isWordChar x = false := by
    rintro x ⟨⟩
    decide
  by_cases hcomma : (Text.trimEnd (between source args)).getLast? = some ','
  · refine ⟨[' '], [], ?_, .of_tokens (by decide), List.forall_mem_nil _, hblank, List.cons_ne_nil _ _,
      by decide, fun u => ⟨?_, rfl⟩⟩
    · simp only [hcomma, beq_self_eq_true, if_true]
      rfl
    · exact .of_isBlank (by decide)
  · refine ⟨[',', ' '], [⟨.punct, ",", 0, 1⟩], ?_, .of_tokens (by decide), by decide,
      hblank, List.cons_ne_nil _ _, by decide, fun u => ⟨.of_isCalm (by decide +kernel), rfl⟩⟩
    simp only [beq_iff_eq, hcomma, if_false]
    rfl

/-- What stands between parentheses up to its last character that is not blank, and the blanks behind. -/
structure Kept (source : List Char) (args : Span) (kept w : List Char) : Prop where
  content : between source args = kept ++ w
  blank : ∀ c ∈ w, Text.isBlank c = true
  nonempty : kept ≠ []
  firm : ∀ c ∈ kept.getLast?, Text.isBlank c = false
  place : entryPlace source args = args.start + 1 + kept.length

theorem exists_kept (h : Text.isAllBlank (between source args) = false) : ∃ kept w, Kept source args kept w := by
  obtain ⟨w, hcontent, hw, hfirm⟩ := Text.dropEndWhile_append Text.isBlank (between source args)
  refine ⟨Text.trimEnd (between source args), w, hcontent, hw, fun hnil => ?_, hfirm, rfl⟩
  have hall : between source args = w := by
    conv => lhs; rw [hcontent]
    exact congrArg (· ++ w) hnil
  rw [hall, Text.isAllBlank, List.all_eq_true.mpr hw] at h
  cases h

namespace ArgsIn

variable {left held right as : List Token} {opener closer : Token} {entry : String} {kept w x : List Char}

theorem source_kept (h : ArgsIn source args left opener held closer right) (hkept : Kept source args kept w) :
    source = source.take (args.start + 1) ++ kept ++ (w ++ source.drop args.stop) := by
  conv => lhs; rw [h.source_eq, hkept.content]
  simp

/-- The text with something else behind what is kept. -/
theorem splice_kept (h : ArgsIn source args left opener held closer right) (hkept : Kept source args kept w)
    (x : List Char) : Text.splice source (entryPlace source args) (entryPlace source args) x =
      source.take (args.start + 1) ++ (kept ++ (x ++ w)) ++ source.drop args.stop := by
  have hplace : entryPlace source args = (source.take (args.start + 1) ++ kept).length := by
    rw [hkept.place, List.length_append, h.length_take]
  have hcut : ∀ {cs a b : List Char}, cs = a ++ b → Text.splice cs a.length a.length x = a ++ x ++ b := by
    rintro _ a b rfl
    rw [Text.splice, List.take_left, List.drop_left]
  rw [hplace, hcut (h.source_kept hkept)]
  simp

/-- What is put behind others is read where it stands, or a comment takes it along. -/
theorem kept_cases (h : ArgsIn source args left opener held closer right) (hkept : Kept source args kept w)
    {xs : List Token} (hx : Rust.Lexes Rust.IsGap x xs) (hfeed : '\n' ∉ x)
    (hcalm : ∀ u, Calm (x ++ u) ∧ startsWith (· == '/') (x ++ u) = false) :
    let text := source.take (args.start + 1) ++ (kept ++ (x ++ w))
    (¬ Rust.InLineComment source (entryPlace source args) ∧
      Run 0 (text ++ source.drop args.stop)
        (left ++ opener :: (held ++ xs.map (Token.shift (entryPlace source args)))) text.length
        (source.drop args.stop)) ∨
    (Rust.InLineComment source (entryPlace source args) ∧
      Run 0 (text ++ source.drop args.stop) (left ++ opener :: held) text.length (source.drop args.stop)) := by
  intro text
  obtain ⟨rest, hrest⟩ := h.drop_stop
  have hsource := h.source_kept hkept
  generalize ha : source.take (args.start + 1) ++ kept = a at hsource
  have hlength : a.length = entryPlace source args := by
    rw [← ha, hkept.place, List.length_append, h.length_take]
  have htext : text ++ source.drop args.stop = a ++ (x ++ (w ++ source.drop args.stop)) := by
    rw [← ha]
    simp [text]
  have hend : text.length = a.length + x.length + w.length := by
    rw [← ha]
    simp only [text, List.length_append]
    omega
  rw [htext, hend, hlength]
  -- The opening parenthesis is there, so there is a last token.
  obtain ⟨ts, t, hconcat⟩ : ∃ ts t, left ++ opener :: held = ts ++ [t] := by
    rcases List.eq_nil_or_concat (left ++ opener :: held) with hnil | ⟨ts, t, hts⟩
    · simp at hnil
    · exact ⟨ts, t, by rw [hts, List.concat_eq_append]⟩
  have hrun := h.run_stop
  rw [hconcat] at hrun ⊢
  generalize source.drop args.stop = r at *
  subst hrest
  rw [hsource] at hrun
  have hfirm : ∀ x ∈ a.getLast?, Text.isBlank x = false := by
    rw [← ha, List.getLast?_append_of_ne_nil _ hkept.nonempty]
    exact hkept.firm
  have hcases := hrun.place_cases hkept.blank rfl rfl hfirm
  rw [← hsource, hlength] at hcases
  refine hcases.imp (And.imp_right fun hfree => ?_) (And.imp_right fun htaken => htaken x hfeed)
  have hgap : Rust.IsGap (w ++ ')' :: rest) := by
    refine isGap_of_calm ?_
    cases w with
    | nil => exact .of_isCalm (by decide +kernel)
    | cons c w => exact .of_isBlank (hkept.blank c List.mem_cons_self)
  have hentered := (hx (w ++ ')' :: rest) hgap).shift (entryPlace source args)
  rw [Nat.zero_add, Nat.add_comm] at hentered
  have hall := ((hfree _ (hcalm _).1 (hcalm _).2).trans hentered).trans (run_blanks hkept.blank _ (')' :: rest))
  rw [← hconcat, List.append_nil, List.append_assoc] at hall
  exact hall

/-- The entry is behind others. -/
theorem enter_filled (h : ArgsIn source args left opener held closer right) (hentry : PathTokens entry as)
    (hfilled : Text.isAllBlank (between source args) = false) :
    ∃ content added, Entered source args entry left opener held content added := by
  obtain ⟨sep, marks, htext, hsep, hmarks, hlast, hne, hfeed, hcalm⟩ :=
    exists_separator source args entry.toList hfilled
  obtain ⟨kept, w, hkept⟩ := exists_kept hfilled
  rw [h.splice_kept hkept] at htext
  have hbounded : Text.occursBounded (lastSegment entry.toList) (kept ++ (sep ++ entry.toList ++ w)) = true := by
    have hmore : Text.startsInWord w = false := by
      cases w with
      | nil => rfl
      | cons x w => exact Text.not_isWordChar_of_isBlank (hkept.blank x List.mem_cons_self)
    have hfront : ∀ x ∈ (kept ++ sep).getLast?, Text.isWordChar x = false := by
      rwa [List.getLast?_append_of_ne_nil _ hne]
    have hbounded := occursBounded_lastSegment hentry hfront hmore
    simpa using hbounded
  have hfeed' : '\n' ∉ sep ++ entry.toList := by
    rw [List.mem_append, not_or]
    exact ⟨hfeed, hentry.line⟩
  have hcases := h.kept_cases hkept (hsep.and hentry.lexes) hfeed' fun u => by
    rw [List.append_assoc]
    exact hcalm _
  rcases hcases with ⟨hnone, hrun⟩ | ⟨hline, hrun⟩
  · obtain ⟨lead, -, -, u, hu, hkind, hname⟩ := exists_lastSegment hentry
    refine ⟨_, _, htext, hrun, ?_, hbounded, fun _ => ?_, fun hline => absurd hline hnone⟩
    · exact List.forall_mem_map.mpr
        (List.forall_mem_append.mpr ⟨hmarks, List.forall_mem_map.mpr hentry.chain.plain⟩)
    · exact ⟨_, List.mem_map_of_mem (List.mem_append_right _ (List.mem_map_of_mem hu)), hkind, hname⟩
  · refine ⟨_, [], htext, ?_, nofun, hbounded, fun hnone => absurd hline hnone, fun _ => ⟨rfl, ?_⟩⟩
    · rwa [List.append_nil]
    · rw [hkept.content]
      simp only [List.length_append]
      omega

/-- An entry between parentheses. -/
theorem exists_entered (h : ArgsIn source args left opener held closer right) (hentry : PathTokens entry as) :
    ∃ content added, Entered source args entry left opener held content added := by
  cases hblank : Text.isAllBlank (between source args) with
  | true => exact ⟨_, _, h.enter_blank hentry hblank⟩
  | false => exact h.enter_filled hentry hblank

end ArgsIn

end ContractSync.Edit
