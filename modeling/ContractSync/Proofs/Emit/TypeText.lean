import ContractSync.Emit.Text
import ContractSync.Proofs.Rust.RetypeField
import ContractSync.Proofs.Rust.Writing
import ContractSync.Proofs.Schema.TypeNames

/-!
# The text of a type

Types are written as words, paths and angle brackets. `IsTypePiece` says what a piece of such a text is like:
it has no delimiters, stands on one line, and closes and opens a certain number of angle brackets. **The
text of a type whose names are words leaves no bracket open** (`isTypeCode_typeText`), so that it can be
written wherever a type is asked for.
-/

namespace ContractSync.Rust

open Lexer
open TokenTree (flattenAll isNestedAll)

/-- The token is no delimiter and no mark that ends an item. -/
def Token.IsInner (t : Token) : Prop := t.isOpener = false ∧ t.isCloser = false ∧ t.isPunct ";" = false

instance : DecidablePred Token.IsInner := fun _ => inferInstanceAs (Decidable (_ ∧ _ ∧ _))

/-- In front of what `next` admits, the text is lexed to such tokens. -/
def WritesInner (next : List Char → Prop) (text : List Char) : Prop :=
  ∃ marks, Writes next text marks ∧ ∀ t ∈ marks, t.IsInner

namespace WritesInner

variable {next next' : List Char → Prop} {a b : List Char}

theorem append (ha : WritesInner next a) (hb : WritesInner next' b)
    (hnext : ∀ rest, next' rest → next (b ++ rest)) : WritesInner next' (a ++ b) := by
  obtain ⟨ms, hms, hinner⟩ := ha
  obtain ⟨ns, hns, hinner'⟩ := hb
  exact ⟨ms ++ ns, hms.append hns hnext, List.forall_mem_append.mpr ⟨hinner, hinner'⟩⟩

theorem const {text : String} {cs : List Char} (htext : text = String.ofList cs)
    (h : ∃ marks ∈ marksOf? cs, ∀ t ∈ marks, t.IsInner) : WritesInner Anything text.toList := by
  obtain ⟨marks, hmarks, hinner⟩ := h
  exact ⟨marks, .const htext hmarks, hinner⟩

theorem mono (h : WritesInner next a) (hnext : ∀ rest, next' rest → next rest) : WritesInner next' a :=
  let ⟨marks, hmarks, hinner⟩ := h
  ⟨marks, hmarks.mono hnext, hinner⟩

/-- Such tokens leave the delimiters as they are. -/
theorem passes (h : WritesInner next a) (due : List String) : Passes next due due a := by
  obtain ⟨marks, hmarks, hinner⟩ := h
  refine ⟨marks, hmarks, ?_⟩
  clear hmarks
  induction marks with
  | nil => rfl
  | cons t marks ih =>
    obtain ⟨⟨hopen, hclose, -⟩, hmarks⟩ := List.forall_mem_cons.mp hinner
    rw [nest_cons, Token.nest, hopen, hclose]
    exact ih hmarks

end WritesInner

/-- A piece of the text of a type: from its first character on it is lexed to these tokens, which close and
open so many angle brackets. -/
structure IsTypePiece (next : List Char → Prop) (text : List Char) (ts : List Token)
    (closed opened : Nat) : Prop where
  lexes : Lexes next text ts
  first : ts.head?.map Token.start = some 0
  inner : ∀ t ∈ ts, t.IsInner
  depth : ∀ angle, Entry.depthBehind (angle + closed) (ts.map .leaf) = some (angle + opened)
  line : '\n' ∉ text

namespace IsTypePiece

variable {next next' : List Char → Prop} {a b : List Char} {ts us : List Token}
  {closed between opened : Nat}

/-- **Two pieces, one behind the other.** -/
theorem append (ha : IsTypePiece next a ts closed between) (hb : IsTypePiece next' b us between opened)
    (hnext : ∀ rest, next' rest → next (b ++ rest)) :
    IsTypePiece next' (a ++ b) (ts ++ us.map (Token.shift a.length)) closed opened where
  lexes := ha.lexes.append hb.lexes hnext
  first := by
    obtain ⟨t, ht, hstart⟩ := Option.map_eq_some_iff.mp ha.first
    rw [List.head?_append, ht, Option.some_or, Option.map_some, hstart]
  inner := by
    refine List.forall_mem_append.mpr ⟨ha.inner, fun t ht => ?_⟩
    obtain ⟨u, hu, rfl⟩ := List.mem_map.mp ht
    exact hb.inner u hu
  depth angle := by
    have hmoved : (us.map (Token.shift a.length)).map TokenTree.leaf =
        (us.map TokenTree.leaf).map (TokenTree.carry (.same (· + a.length))) := by
      rw [List.map_map, List.map_map]
      exact List.map_congr_left fun _ _ => rfl
    rw [List.map_append, Entry.depthBehind_append (ha.depth angle), hmoved, Entry.depthBehind_carry,
      hb.depth]
  line := by
    rw [List.mem_append, not_or]
    exact ⟨ha.line, hb.line⟩

theorem and (ha : IsTypePiece Anything a ts closed between) (hb : IsTypePiece next b us between opened) :
    IsTypePiece next (a ++ b) (ts ++ us.map (Token.shift a.length)) closed opened :=
  ha.append hb fun _ _ => trivial

/-- Further brackets may be open around the piece. -/
theorem inside (h : IsTypePiece next a ts closed opened) (more : Nat) :
    IsTypePiece next a ts (closed + more) (opened + more) :=
  { h with
    depth := fun angle => by
      have hdepth := h.depth (angle + more)
      rwa [Nat.add_right_comm, Nat.add_assoc, Nat.add_right_comm angle, Nat.add_assoc] at hdepth }

/-- A fixed piece. -/
theorem const {text : String} {cs : List Char} (htext : text = String.ofList cs)
    (h : tokensOf? cs = some ts)
    (hplain : '\n' ∉ cs ∧ ts.head?.map Token.start = some 0 ∧ ∀ t ∈ ts, t.IsInner)
    (hdepth : ∀ angle, Entry.depthBehind (angle + closed) (ts.map .leaf) = some (angle + opened)) :
    IsTypePiece Anything text.toList ts closed opened := by
  rw [Text.toList_const htext]
  exact ⟨.of_tokens h, hplain.2.1, hplain.2.2, hdepth, hplain.1⟩

end IsTypePiece

/-- The text is a type, from its first character to its last one. -/
def IsTypeCode (text : String) : Prop :=
  ∃ ts, IsTypePiece IsBreak text.toList ts 0 0 ∧ ts.getLast?.map Token.stop = some text.toList.length

namespace IsTypeCode

variable {type : String}

theorem word {name : String} (h : Name.IsWord name) : IsTypeCode name := by
  have hpunct : ∀ text, Token.isPunct
      ⟨wordKind name.toList, String.ofList name.toList, 0, name.toList.length⟩ text = false :=
    fun text => by rw [Token.isPunct, beq_false_of_ne (wordKind_ne_punct _), Bool.false_and]
  refine ⟨_, ⟨fun rest hrest => run_word h.nonempty h.chars hrest, rfl, List.forall_mem_singleton.mpr ⟨?_, ?_, hpunct _⟩, fun angle => ?_,
    fun hline => ?_⟩, rfl⟩
  · simp only [Token.isOpener, hpunct, Bool.or_self]
  · simp only [Token.isCloser, hpunct, Bool.or_self]
  · refine Entry.depthBehind_eq_self (List.forall_mem_singleton.mpr fun mark _ => ?_) _
    exact hpunct mark
  · exact absurd (h.chars _ hline) (by decide)

/-- A type behind a fixed piece. -/
theorem behind {lead : String} {head : List Token} (hlead : IsTypePiece Anything lead.toList head 0 0)
    (h : IsTypeCode type) : IsTypeCode (lead ++ type) := by
  obtain ⟨ts, hts, hlast⟩ := h
  rw [IsTypeCode, String.toList_append]
  refine ⟨_, hlead.and hts, ?_⟩
  obtain ⟨t, ht, hstop⟩ := Option.map_eq_some_iff.mp hlast
  rw [List.getLast?_append, List.getLast?_map, ht, Option.map_some, Option.some_or, Option.map_some,
    List.length_append, Nat.add_comm, ← hstop]
  rfl

/-- A type between a piece that opens a bracket and one that closes it. -/
theorem bracket {lead : String} (head : List Token) (hlead : IsTypePiece Anything lead.toList head 0 1)
    (h : IsTypeCode type) : IsTypeCode (lead ++ type ++ ">") := by
  obtain ⟨ts, hts, -⟩ := h
  have hclose : IsTypePiece Anything ">".toList [⟨.punct, ">", 0, 1⟩] 1 0 :=
    .const rfl (by decide) (by decide) fun _ => rfl
  have hall := hlead.and ((hts.inside 1).append hclose fun rest _ =>
    IsBreak.append (by decide +kernel) (by decide) rest)
  have hlength : ">".toList.length = 1 := by decide
  rw [IsTypeCode, String.toList_append, String.toList_append, List.append_assoc]
  refine ⟨_, { hall with lexes := fun rest _ => hall.lexes rest trivial }, ?_⟩
  rw [List.map_append, List.map_map, List.map_singleton, ← List.append_assoc, List.getLast?_concat,
    List.length_append, List.length_append, hlength]
  simp only [Option.map_some, Function.comp, Token.shift]
  congr 1
  omega

/-- A type as trees. -/
theorem spells (h : IsTypeCode type) :
    ∃ trees, Spells type.toList trees ∧ Entry.depthBehind 0 trees = some 0 := by
  obtain ⟨ts, hts, hlast⟩ := h
  have hchain : IsChain ts type.toList.length :=
    ⟨fun t ht => ⟨(hts.inner t ht).1, (hts.inner t ht).2.1⟩, hts.first, hlast⟩
  exact ⟨_, hchain.spells (hts.lexes.tokenize (by decide)), hts.depth 0⟩

/-- What a type is lexed to. -/
theorem writes (h : IsTypeCode type) : WritesInner IsBreak type.toList := by
  obtain ⟨ts, hts, -⟩ := h
  refine ⟨_, ⟨ts, hts.lexes, rfl⟩, fun t ht => ?_⟩
  obtain ⟨u, hu, rfl⟩ := List.mem_map.mp ht
  exact hts.inner u hu

/-- A type stands on one line. -/
theorem newline_notMem (h : IsTypeCode type) : '\n' ∉ type.toList := by
  obtain ⟨ts, hts, -⟩ := h
  exact hts.line

end IsTypeCode

end ContractSync.Rust

namespace ContractSync.Emit

open Rust (Anything IsTypeCode IsTypePiece)
open Schema (DataType)

theorem isTypeCode_dynamicText : IsTypeCode dynamicText := by
  have hlead : IsTypePiece Anything "serde_json::".toList
      [⟨.ident, "serde_json", 0, 10⟩, ⟨.punct, "::", 10, 12⟩] 0 0 :=
    .const rfl (by decide) (by decide) fun _ => rfl
  have hvalue : IsTypeCode "Value" := .word ⟨by decide, by decide⟩
  exact hvalue.behind hlead

theorem isTypeCode_vec {type : String} (h : IsTypeCode type) : IsTypeCode ("Vec<" ++ type ++ ">") :=
  .bracket [⟨.ident, "Vec", 0, 3⟩, ⟨.punct, "<", 3, 4⟩]
    (.const rfl (by decide) (by decide) fun _ => rfl) h

theorem isTypeCode_stringText {format text : String} (h : stringTexts.lookup format = some text) :
    IsTypeCode text := by
  have htime : IsTypeCode ("DateTime<" ++ "Utc" ++ ">") :=
    .bracket [⟨.ident, "DateTime", 0, 8⟩, ⟨.punct, "<", 8, 9⟩]
      (.const rfl (by decide) (by decide) fun _ => rfl) (.word ⟨by decide, by decide⟩)
  have hbytes : IsTypeCode ("Vec<" ++ "u8" ++ ">") := isTypeCode_vec (.word ⟨by decide, by decide⟩)
  have htexts : ∀ entry ∈ stringTexts, IsTypeCode entry.2 := by
    simp only [stringTexts, List.forall_mem_cons]
    exact ⟨.word ⟨by decide, by decide⟩, htime, .word ⟨by decide, by decide⟩, hbytes,
      List.forall_mem_nil _⟩
  exact htexts (format, text) (mem_of_lookup h)

theorem isTypeCode_scalarText (kind : Schema.ScalarKind) (format : Option String) :
    IsTypeCode (scalarText kind format) := by
  cases kind with
  | integer | number =>
    unfold scalarText
    simp only
    split <;> exact .word ⟨by decide, by decide⟩
  | boolean => exact (.word ⟨by decide, by decide⟩ : IsTypeCode "bool")
  | string =>
    show IsTypeCode ((format.bind fun f => stringTexts.lookup f).getD "String")
    cases hfound : format.bind fun f => stringTexts.lookup f with
    | none => exact (.word ⟨by decide, by decide⟩ : IsTypeCode "String")
    | some text =>
      obtain ⟨f, -, hf⟩ := Option.bind_eq_some_iff.mp hfound
      exact isTypeCode_stringText hf

/-- **The text of a type whose names are words is a type.** -/
theorem isTypeCode_typeText : ∀ {type : DataType}, type.IsWorded → IsTypeCode (typeText type)
  | .scalar kind format, _ => isTypeCode_scalarText kind format
  | .array _, h => isTypeCode_vec (isTypeCode_typeText h)
  | .map _, h =>
    .bracket [⟨.ident, "HashMap", 0, 7⟩, ⟨.punct, "<", 7, 8⟩, ⟨.ident, "String", 8, 14⟩, ⟨.punct, ",", 14, 15⟩]
      (.const rfl (by decide) (by decide) fun _ => rfl) (isTypeCode_typeText h)
  | .optional _, h =>
    .bracket [⟨.ident, "Option", 0, 6⟩, ⟨.punct, "<", 6, 7⟩]
      (.const rfl (by decide) (by decide) fun _ => rfl) (isTypeCode_typeText h)
  | .reference _, h => .word h
  | .union _ _, _ | .dynamic, _ | .unknown _, _ => isTypeCode_dynamicText

end ContractSync.Emit
