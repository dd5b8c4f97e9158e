import ContractSync.Proofs.Rust.FieldText
import ContractSync.Proofs.Rust.Identifier

/-!
# Text that is written to be read

Written code is put together from pieces: fixed texts, names, literals, types. `Writes next text marks`
says that a piece is lexed to tokens like `marks` wherever it stands, as long as the text behind it is one
that `next` admits. **Pieces are put together with their tokens** (`Writes.append`). A fixed text that ends
where nothing can go on with it is lexed as it is on its own, whatever follows (`Writes.const`).

Delimiters are counted along: `nest` follows those that are open from piece to piece (`Passes`), and
tokens that leave none open are those of nested trees (`exists_trees_of_nest`).
-/

namespace ContractSync.Rust

open Lexer
open TokenTree (build flattenAll flattenAll_map_move isNestedAll isNestedAll_map_move ofTokens)

/-! ### Tokens without their places -/

/-- The token as it is anywhere. -/
def Token.bare (t : Token) : Token := t.move fun _ => 0

/-- The tree as it is anywhere. -/
def TokenTree.bare (tree : TokenTree) : TokenTree := tree.move fun _ => 0

theorem Token.map_bare_shift (ts : List Token) (n : Nat) :
    (ts.map (Token.shift n)).map Token.bare = ts.map Token.bare := by
  rw [List.map_map]
  rfl

theorem Token.isPunct_of_bare {t : Token} {mark : String} (h : t.bare = ⟨.punct, mark, 0, 0⟩) :
    t.isPunct mark = true := by
  show t.bare.isPunct mark = true
  rw [h]
  simp [Token.isPunct]

theorem Token.isWord_of_bare {t : Token} {word : String} (h : t.bare = ⟨.ident, word, 0, 0⟩) :
    t.isWord word = true := by
  show t.bare.isWord word = true
  rw [h]
  simp [Token.isWord]

/-! ### Pieces of text -/

/-- In front of what `next` admits, the text is lexed to these tokens. -/
def Lexes (next : List Char → Prop) (text : List Char) (ts : List Token) : Prop :=
  ∀ rest, next rest → Run 0 (text ++ rest) ts text.length rest

/-- In front of what `next` admits, the text is lexed to tokens like these. -/
def Writes (next : List Char → Prop) (text : List Char) (marks : List Token) : Prop :=
  ∃ ts, Lexes next text ts ∧ ts.map Token.bare = marks

/-- Any text may follow. -/
def Anything : List Char → Prop := fun _ => True

section Pieces

variable {next next' : List Char → Prop} {a b : List Char}

namespace Lexes

variable {ts us : List Token}

theorem nil : Lexes next [] [] := fun _ _ => .refl _ _

theorem append (ha : Lexes next a ts) (hb : Lexes next' b us)
    (hnext : ∀ rest, next' rest → next (b ++ rest)) :
    Lexes next' (a ++ b) (ts ++ us.map (Token.shift a.length)) := by
  intro rest hrest
  have hrun := (ha (b ++ rest) (hnext rest hrest)).trans
    (Nat.zero_add a.length ▸ (hb rest hrest).shift a.length)
  rw [← List.append_assoc] at hrun
  rwa [List.length_append, Nat.add_comm a.length]

theorem and (ha : Lexes Anything a ts) (hb : Lexes next b us) :
    Lexes next (a ++ b) (ts ++ us.map (Token.shift a.length)) :=
  ha.append hb fun _ _ => trivial

theorem tokenize (h : Lexes next a ts) (hnil : next []) : Rust.tokenize a = .ok ts := by
  have hrun := h [] hnil
  rw [List.append_nil] at hrun
  exact lexFrom_of_run hrun

end Lexes

namespace Writes

variable {ms ns : List Token}

theorem mono (h : Writes next a ms) (hnext : ∀ rest, next' rest → next rest) : Writes next' a ms := by
  obtain ⟨ts, hts, hms⟩ := h
  exact ⟨ts, fun rest hrest => hts rest (hnext rest hrest), hms⟩

theorem nil : Writes next [] [] := ⟨[], .nil, rfl⟩

/-- **Two pieces, one behind the other.** -/
theorem append (ha : Writes next a ms) (hb : Writes next' b ns)
    (hnext : ∀ rest, next' rest → next (b ++ rest)) : Writes next' (a ++ b) (ms ++ ns) := by
  obtain ⟨ts, hts, rfl⟩ := ha
  obtain ⟨us, hus, rfl⟩ := hb
  refine ⟨_, hts.append hus hnext, ?_⟩
  rw [List.map_append, Token.map_bare_shift]

/-- A piece that does not mind what follows, and another one. -/
theorem and (ha : Writes Anything a ms) (hb : Writes next b ns) : Writes next (a ++ b) (ms ++ ns) :=
  ha.append hb fun _ _ => trivial

/-- A piece at the end of a text. -/
theorem tokenize (h : Writes next a ms) (hnil : next []) :
    ∃ ts, Rust.tokenize a = .ok ts ∧ ts.map Token.bare = ms := by
  obtain ⟨ts, hts, hms⟩ := h
  exact ⟨ts, hts.tokenize hnil, hms⟩

/-- An identifier. -/
theorem identifier {name : String} (h : IsIdentifier name) :
    Writes IsGap name.toList [⟨.ident, name, 0, 0⟩] :=
  ⟨_, fun _ hrest => run_identifier h hrest, by rw [String.ofList_toList]; rfl⟩

/-- What stands for trees on its own. -/
theorem spelled {trees : List TokenTree} (h : Spells a trees) :
    Writes (fun rest => Calm rest ∧ startsWith (· == '/') rest = false) a
      (flattenAll (trees.map TokenTree.bare)) :=
  ⟨_, fun _ hrest => h.run hrest.1 hrest.2, (flattenAll_map_move trees).symm⟩

/-- A comment up to the end of its line. -/
theorem comment {line : List Char} (hline : '\n' ∉ line) :
    Writes Anything ('/' :: '/' :: (line ++ ['\n'])) [] := by
  refine ⟨[], fun rest _ => ?_, rfl⟩
  have hrun := Run.skip (p := 0) (@step_lineComment _ ('\n' :: rest) hline rfl)
    (.skip (w := []) (step_newline rest) (.refl _ _))
  have hend : 0 + ('/' :: line).length + 1 + ([] : List Char).length + 1 =
      ('/' :: '/' :: (line ++ ['\n'])).length := by
    simp
  rw [hend] at hrun
  simpa using hrun

/-- Blanks. -/
theorem blanks (h : Text.isAllBlank a = true) : Writes Anything a [] :=
  ⟨[], fun rest _ => Nat.zero_add a.length ▸ run_blanks (List.all_eq_true.mp h) 0 rest, rfl⟩

end Writes

end Pieces

/-! ### Fixed texts -/

namespace Lexer

/-- Marks that nothing goes on. -/
def singleMarks : List Char :=
  ['(', ')', '[', ']', '\x7b', '\x7d', ',', ';', '<', '>', '&', '!', '?', '.', '#']

/-- Marks that another one may go on. -/
def pairMarks : List Char := [':', '-', '=']

/-- What goes on no word. -/
def gapMarks : List Char :=
  [' ', '\n', '(', ')', '[', ']', '\x7b', '\x7d', ',', ';', '<', '>', '&', '!', '?', '.', ':', '-', '=']

/-- What the text `c :: w` starts with, as far as that is plain to see: ASCII words, numbers without a
point, marks, literals and comments whose ends stand in the text. -/
def fixedStep (c : Char) (w : List Char) : Option Step :=
  if c = ' ' ∨ c = '\n' then some ⟨none, 0⟩
  else if c ∈ singleMarks then some ⟨some .punct, 0⟩
  else if c ∈ pairMarks then
    if w = [] then none else some ⟨some .punct, if startsWith (isPair c) w then 1 else 0⟩
  else if c = '"' then (quotedLength '"' w).map fun n => ⟨some .literal, n⟩
  else if c = '/' then
    if startsWith (· == '/') w ∧ '\n' ∈ w then some ⟨none, (w.takeWhile (· != '\n')).length⟩ else none
  else if c.isAlpha ∨ c = '_' then
    if startsWith (gapMarks.contains ·) (w.dropWhile Text.isWordChar) ∨
        c ≠ 'r' ∧ c ≠ 'b' ∧ startsWith (· == '#') (w.dropWhile Text.isWordChar) then
      some ⟨some .ident, (w.takeWhile Text.isWordChar).length⟩
    else none
  else if Text.isDigit c ∧ isIdentStart c = false then
    if startsWith (fun d => gapMarks.contains d && d != '.') (w.dropWhile Text.isWordChar) then
      some ⟨some .literal, (w.takeWhile Text.isWordChar).length⟩
    else none
  else none

theorem isGap_of_mem_gapMarks {d : Char} (h : d ∈ gapMarks) : IsGap [d] := by
  have hmarks : ∀ d ∈ gapMarks, (Text.isBlank d = true ∨ Text.inRanges Text.markRanges d = true) ∧
      ['"', '\'', '#'].contains d = false := by decide
  obtain ⟨hkind, hquote⟩ := hmarks d h
  rw [IsGap, startsWith, hquote, Bool.or_false]
  exact hkind.elim not_isIdentChar_of_isBlank not_isIdentChar_of_mark

theorem step_single {m : Char} (h : m ∈ singleMarks) (rest : List Char) :
    step m rest = .ok ⟨some .punct, 0⟩ := by
  have hmarks : ∀ m ∈ singleMarks, Text.inRanges Text.markRanges m = true := by decide
  have hblank := Text.not_isBlank_of_mark (hmarks m h)
  have hident := not_isIdentStart_of_mark (hmarks m h)
  have hdigit := not_isDigit_of_mark (hmarks m h)
  have hpair : startsWith (isPair m) rest = false := by
    cases rest with
    | nil => rfl
    | cons c rest =>
      simp only [singleMarks, List.mem_cons, List.not_mem_nil, or_false] at h
      rcases h with rfl | rfl | rfl | rfl | rfl | rfl | rfl | rfl | rfl | rfl | rfl | rfl | rfl |
        rfl | rfl <;> simp [startsWith, isPair]
  simp only [singleMarks, List.mem_cons, List.not_mem_nil, or_false] at h
  rcases h with rfl | rfl | rfl | rfl | rfl | rfl | rfl | rfl | rfl | rfl | rfl | rfl | rfl | rfl |
    rfl <;> simp [step, tokenStep, rawMarker, hblank, hident, hdigit, hpair]

theorem step_pairMark {m : Char} (h : m ∈ pairMarks) (rest : List Char) :
    step m rest = .ok ⟨some .punct, if startsWith (isPair m) rest then 1 else 0⟩ := by
  have hmarks : ∀ m ∈ pairMarks, Text.inRanges Text.markRanges m = true := by decide
  have hblank := Text.not_isBlank_of_mark (hmarks m h)
  have hident := not_isIdentStart_of_mark (hmarks m h)
  have hdigit := not_isDigit_of_mark (hmarks m h)
  simp only [pairMarks, List.mem_cons, List.not_mem_nil, or_false] at h
  rcases h with rfl | rfl | rfl <;> simp [step, tokenStep, rawMarker, hblank, hident, hdigit]

theorem step_quote {w : List Char} {n : Nat} (h : quotedLength '"' w = some n) (rest : List Char) :
    step '"' (w ++ rest) = .ok ⟨some .literal, n⟩ := by
  have hclass : Text.isBlank '"' = false ∧ isIdentStart '"' = false :=
    ⟨by decide, not_isIdentStart_of_mark (by decide)⟩
  have hlong : quotedLength '"' (w ++ rest) = some n := by
    have hle := quotedLength_le h
    have hlength : (w.take n).length = n := List.length_take_of_le hle
    rw [← List.take_append_drop n w, ← hlength] at h
    simp only [List.length_take, List.take_append_drop] at h
    have htake : quotedLength '"' (w.take n ++ w.drop n) = some (w.take n).length := by
      rw [List.take_append_drop, hlength, h, Nat.min_eq_left hle]
    have hcut : quotedLength '"' (w.take n ++ (w.drop n ++ rest)) = some (w.take n).length :=
      quotedLength_congr htake
    rwa [← List.append_assoc, List.take_append_drop, hlength] at hcut
  simp [step, tokenStep, rawMarker, literal, hclass, hlong]

/-- A word that cannot begin a raw literal ends in front of a hash mark. -/
theorem step_hashed {c : Char} {w rest : List Char} (hc : isIdentStart c = true)
    (hw : ∀ d ∈ w, isIdentChar d = true) (hraw : c ≠ 'r' ∧ c ≠ 'b') :
    step c (w ++ '#' :: rest) = .ok ⟨some .ident, w.length⟩ := by
  have hhash : isIdentChar '#' = false := not_isIdentChar_of_mem (by simp)
  have hmarker : rawMarker c (w ++ '#' :: rest) = none := by
    unfold rawMarker
    rw [if_neg hraw.1]
    split
    · exact absurd rfl hraw.2
    · rfl
  have hlength : identLength (w ++ '#' :: rest) = w.length :=
    takeWhile_append_length.mpr ⟨hw, by rw [startsWith, hhash]⟩
  rw [step_eq_tokenStep hc, tokenStep, hmarker]
  simp [hraw, hc, hlength]

/-- What is plain to see is what the lexer takes, whatever follows. -/
theorem step_of_fixedStep {c : Char} {w : List Char} {s : Step} (h : fixedStep c w = some s)
    (rest : List Char) : s.further ≤ w.length ∧ step c (w ++ rest) = .ok s := by
  unfold fixedStep at h
  split at h
  · rename_i hblank
    cases h
    exact ⟨Nat.zero_le _, step_blank (by rcases hblank with rfl | rfl <;> decide) _⟩
  split at h
  · rename_i hmark
    cases h
    exact ⟨Nat.zero_le _, step_single hmark _⟩
  split at h
  · rename_i hmark
    split at h
    · cases h
    · rename_i hne
      cases h
      obtain ⟨d, w, rfl⟩ := List.exists_cons_of_ne_nil hne
      refine ⟨?_, step_pairMark hmark _⟩
      show (if _ then 1 else 0) ≤ _
      split <;> simp
  split at h
  · rename_i hquote
    obtain ⟨n, hn, rfl⟩ := Option.map_eq_some_iff.mp h
    exact ⟨quotedLength_le hn, hquote ▸ step_quote hn rest⟩
  split at h
  · rename_i hslash
    split at h
    · rename_i hline
      cases h
      obtain ⟨hline, hmem⟩ := hline
      have hblank : Text.isBlank '/' = false := by decide
      have hshort : (w.takeWhile (· != '\n')).length ≠ w.length := by
        intro hall
        have hwhole : w.takeWhile (· != '\n') = w := (List.takeWhile_prefix _).eq_of_length hall
        exact absurd (List.all_eq_true.mp List.all_takeWhile _ (hwhole.symm ▸ hmem)) (by decide)
      obtain ⟨d, w, rfl⟩ := List.exists_cons_of_ne_nil (List.ne_nil_of_mem hmem)
      refine ⟨(List.takeWhile_prefix _).length_le, ?_⟩
      rw [hslash, step, hblank, if_neg Bool.false_ne_true, if_pos ⟨rfl, hline⟩, List.takeWhile_append,
        if_neg hshort]
    · cases h
  have hwords : ∀ d ∈ w.takeWhile Text.isWordChar, isIdentChar d = true := fun d hd =>
    isIdentChar_of_isWordChar (List.all_eq_true.mp List.all_takeWhile d hd)
  have hsplit : w ++ rest = w.takeWhile Text.isWordChar ++ (w.dropWhile Text.isWordChar ++ rest) := by
    rw [← List.append_assoc, List.takeWhile_append_dropWhile]
  split at h
  · rename_i hstart
    split at h
    · rename_i hgap
      cases h
      refine ⟨(List.takeWhile_prefix _).length_le, ?_⟩
      have hc : isIdentStart c = true := by
        rw [isIdentStart, Bool.or_eq_true, beq_iff_eq]
        exact hstart.symm.imp_right Text.isLetter_of_isAlpha
      rw [hsplit]
      generalize w.dropWhile Text.isWordChar = more at hgap
      cases more with
      | nil => simp [startsWith] at hgap
      | cons d more =>
        rcases hgap with hgap | ⟨hr, hb, hgap⟩
        · exact step_plainName hc hwords (isGap_of_mem_gapMarks (List.contains_iff_mem.mp hgap))
        · obtain rfl := beq_iff_eq.mp hgap
          exact step_hashed hc hwords ⟨hr, hb⟩
    · cases h
  split at h
  · rename_i hdigit
    split at h
    · rename_i hbreak
      cases h
      refine ⟨(List.takeWhile_prefix _).length_le, ?_⟩
      rw [hsplit]
      generalize w.dropWhile Text.isWordChar = more at hbreak
      cases more with
      | nil => cases hbreak
      | cons d more =>
        obtain ⟨hgap, hpoint⟩ := Bool.and_eq_true _ _ ▸ hbreak
        have hd : IsBreak [d] := ⟨isGap_of_mem_gapMarks (List.contains_iff_mem.mp hgap),
          beq_eq_false_iff_ne.mpr (bne_iff_ne.mp hpoint)⟩
        exact step_number hdigit.1 hdigit.2 hwords (hd.append (List.cons_ne_nil d []) _)
    · cases h
  · cases h

/-- The tokens of a fixed text that starts at a position. -/
def fixedTokens : Nat → Nat → List Char → Option (List Token)
  | _, _, [] => some []
  | 0, _, _ :: _ => none
  | fuel + 1, position, c :: w =>
    (fixedStep c w).bind fun s =>
      let stop := position + s.further + 1
      (fixedTokens fuel stop (w.drop s.further)).map fun ts =>
        (s.kind.map fun kind => ⟨kind, String.ofList (c :: w.take s.further), position, stop⟩).toList ++ ts

theorem run_of_fixedTokens {fuel position : Nat} {text : List Char} {ts : List Token}
    (h : fixedTokens fuel position text = some ts) (rest : List Char) :
    Run position (text ++ rest) ts (position + text.length) rest := by
  induction fuel generalizing position text ts with
  | zero =>
    cases text with
    | nil => cases h; exact .refl _ _
    | cons c w => cases h
  | succ fuel ih =>
    cases text with
    | nil => cases h; exact .refl _ _
    | cons c w =>
      rw [fixedTokens] at h
      obtain ⟨⟨kind, n⟩, hs, h⟩ := Option.bind_eq_some_iff.mp h
      obtain ⟨more, hmore, rfl⟩ := Option.map_eq_some_iff.mp h
      obtain ⟨a, b, rfl, rfl⟩ : ∃ a b, w = a ++ b ∧ a.length = n :=
        ⟨w.take n, w.drop n, (List.take_append_drop n w).symm,
          List.length_take_of_le (step_of_fixedStep hs []).1⟩
      simp only [List.drop_left, List.take_left] at hmore ⊢
      have hstep := (step_of_fixedStep hs rest).2
      have hrun := ih hmore
      have hend : position + a.length + 1 + b.length = position + (c :: (a ++ b)).length := by
        simp only [List.length_cons, List.length_append]
        omega
      rw [List.append_assoc] at hstep
      rw [hend] at hrun
      rw [List.cons_append, List.append_assoc]
      cases kind with
      | none => exact .skip hstep hrun
      | some kind => exact .emit hstep hrun

end Lexer

/-- The tokens of a fixed text, if it is plain to see what they are. -/
def tokensOf? (text : List Char) : Option (List Token) := fixedTokens text.length 0 text

/-- The same without their places. -/
def marksOf? (text : List Char) : Option (List Token) := (tokensOf? text).map (List.map Token.bare)

theorem Lexes.of_tokens {text : List Char} {ts : List Token} (h : tokensOf? text = some ts) :
    Lexes Anything text ts := fun rest _ =>
  Nat.zero_add text.length ▸ run_of_fixedTokens h rest

theorem Writes.of_marks {text : List Char} {marks : List Token} (h : marksOf? text = some marks) :
    Writes Anything text marks := by
  obtain ⟨ts, hts, rfl⟩ := Option.map_eq_some_iff.mp h
  exact ⟨ts, .of_tokens hts, rfl⟩

/-- **A fixed text is lexed as it looks, whatever follows.** -/
theorem Writes.const {text : String} {cs : List Char} {marks : List Token} (htext : text = String.ofList cs)
    (h : marksOf? cs = some marks) : Writes Anything text.toList marks := by
  rw [Text.toList_const htext]
  exact .of_marks h

/-! ### Delimiters -/

/-- The delimiter that closes what the token opens. -/
def Token.partner (t : Token) : String :=
  if t.text = "(" then ")" else if t.text = "[" then "]" else "\x7d"

/-- The delimiters that are to come behind the token, the next one first, if those before it are these;
none if the token is a delimiter that does not fit. -/
def Token.nest (due : List String) (t : Token) : Option (List String) :=
  if t.isOpener then some (t.partner :: due)
  else if t.isCloser then if due.head? = some t.text then some due.tail else none
  else some due

/-- The delimiters that are to come behind the tokens. -/
def nest (due : List String) (ts : List Token) : Option (List String) := ts.foldlM Token.nest due

theorem nest_cons (due : List String) (t : Token) (ts : List Token) :
    nest due (t :: ts) = (t.nest due).bind (nest · ts) :=
  List.foldlM_cons

theorem nest_append {due due' : List String} {ts : List Token} (h : nest due ts = some due')
    (us : List Token) : nest due (ts ++ us) = nest due' us := by
  rw [nest, List.foldlM_append]
  exact congrArg (Option.bind · fun due => nest due us) h

/-- Other delimiters may be due behind. -/
theorem nest_behind {due due' : List String} {ts : List Token} (h : nest due ts = some due')
    (more : List String) : nest (due ++ more) ts = some (due' ++ more) := by
  induction ts generalizing due with
  | nil => cases h; rfl
  | cons t ts ih =>
    rw [nest_cons] at h ⊢
    obtain ⟨due'', hdue, h⟩ := Option.bind_eq_some_iff.mp h
    refine Option.bind_eq_some_iff.mpr ⟨due'' ++ more, ?_, ih h⟩
    rw [Token.nest] at hdue ⊢
    split at hdue
    · rename_i hopen
      rw [if_pos hopen, ← Option.some.inj hdue]
      rfl
    split at hdue
    · rename_i hopen hclose
      rw [if_neg hopen, if_pos hclose]
      cases due with
      | nil => simp at hdue
      | cons closer due =>
        split at hdue
        · rename_i hhead
          rw [← Option.some.inj hdue]
          exact if_pos hhead
        · cases hdue
    · rename_i hopen hclose
      rw [if_neg hopen, if_neg hclose, ← Option.some.inj hdue]

theorem nest_map_bare (due : List String) (ts : List Token) :
    nest due (ts.map Token.bare) = nest due ts := by
  rw [nest, List.foldlM_map]
  rfl

theorem Token.text_of_closes {opener closer : Token} (h : opener.closes closer = true) :
    closer.text = opener.partner := by
  simp only [closes, isPunct, Bool.or_eq_true, Bool.and_eq_true, beq_iff_eq] at h
  rcases h with (⟨ho, hc⟩ | ⟨ho, hc⟩) | ⟨ho, hc⟩ <;> rw [partner, ho.2, hc.2] <;> decide

/-- A group leaves the delimiters as they were if what stands in it does. -/
theorem nest_group {opener closer : Token} (h : opener.closes closer = true) {inner : List Token}
    (hinner : ∀ due, nest due inner = some due) (due : List String) (behind : List Token) :
    nest due (opener :: (inner ++ closer :: behind)) = nest due behind := by
  have hclose : closer.isCloser = true := Token.isCloser_of_closes h
  have hdue : closer.nest (opener.partner :: due) = some due := by
    rw [Token.nest, Token.not_isOpener_of_isCloser hclose, if_neg Bool.false_ne_true, if_pos hclose]
    exact if_pos (congrArg some (Token.text_of_closes h).symm)
  rw [nest_cons, Token.nest, if_pos (Token.isOpener_of_closes h), Option.bind_some,
    nest_append (hinner _), nest_cons, hdue, Option.bind_some]

mutual

theorem nest_flatten {tree : TokenTree} (h : tree.isNested = true) (due : List String) :
    nest due tree.flatten = some due := by
  cases tree with
  | leaf t =>
    rw [TokenTree.isNested, Bool.and_eq_true, Bool.not_eq_true', Bool.not_eq_true'] at h
    rw [TokenTree.flatten, nest_cons, Token.nest, h.1, h.2]
    rfl
  | group opener inner closer =>
    rw [TokenTree.isNested, Bool.and_eq_true] at h
    rw [TokenTree.flatten]
    exact nest_group h.1 (nest_flattenAll h.2) due []

/-- The tokens of nested trees leave the delimiters as they were. -/
theorem nest_flattenAll {trees : List TokenTree} (h : isNestedAll trees = true)
    (due : List String) : nest due (flattenAll trees) = some due := by
  cases trees with
  | nil => rfl
  | cons tree rest =>
    rw [isNestedAll, Bool.and_eq_true] at h
    rw [flattenAll, nest_append (nest_flatten h.1 due), nest_flattenAll h.2]

end

theorem Token.closes_of_partner {opener closer : Token} (hopen : opener.isOpener = true)
    (hclose : closer.isCloser = true) (h : closer.text = opener.partner) :
    opener.closes closer = true := by
  simp only [isOpener, isCloser, isPunct, Bool.or_eq_true, Bool.and_eq_true, beq_iff_eq] at hopen hclose
  rcases hopen with (ho | ho) | ho <;> rw [partner, ho.2] at h <;>
    simp [closes, isPunct, ho.1, ho.2] at h ⊢ <;> rw [h] <;> rcases hclose with (hc | hc) | hc <;>
      simp [hc.1]

theorem build_of_nest {stack : List (Token × List TokenTree)} {current : List TokenTree}
    {ts : List Token} (hstack : ∀ frame ∈ stack, frame.1.isOpener = true)
    (h : nest (stack.map fun frame => frame.1.partner) ts = some []) :
    ∃ trees, build stack current ts = .ok trees := by
  induction ts generalizing stack current with
  | nil =>
    obtain rfl := List.map_eq_nil_iff.mp (Option.some.inj h)
    exact ⟨current.reverse, by rw [build]⟩
  | cons t rest ih =>
    rw [nest_cons] at h
    obtain ⟨due, hdue, h⟩ := Option.bind_eq_some_iff.mp h
    rw [Token.nest] at hdue
    rw [build.eq_def]
    simp only
    split at hdue
    · rename_i hopen
      rw [if_pos hopen]
      cases hdue
      exact ih (List.forall_mem_cons.mpr ⟨hopen, hstack⟩) h
    split at hdue
    · rename_i hopen hclose
      rw [if_neg hopen, if_pos hclose]
      cases stack with
      | nil => cases hdue
      | cons frame stack =>
        obtain ⟨hframe, hstack⟩ := List.forall_mem_cons.mp hstack
        split at hdue
        · rename_i htext
          cases hdue
          simp only [Token.closes_of_partner hframe hclose (Option.some.inj htext).symm, if_true]
          exact ih hstack h
        · cases hdue
    · rename_i hopen hclose
      cases hdue
      rw [if_neg hopen, if_neg hclose]
      exact ih hstack h

/-- **Tokens that leave no delimiter open are those of nested trees.** -/
theorem exists_trees_of_nest {ts : List Token} (h : nest [] ts = some []) :
    ∃ trees, flattenAll trees = ts ∧ isNestedAll trees = true := by
  obtain ⟨trees, htrees⟩ := @build_of_nest [] [] ts nofun h
  exact ⟨trees, TokenTree.ofTokens_eq_ok_iff.mp htrees⟩

/-- Tokens like those of nested trees are those of trees like them. -/
theorem exists_trees_of_bare {ts : List Token} {trees : List TokenTree}
    (h : ts.map Token.bare = flattenAll trees) (hnested : isNestedAll trees = true) :
    ∃ there, flattenAll there = ts ∧ isNestedAll there = true ∧ there.map TokenTree.bare = trees := by
  have hnest : nest [] ts = some [] := by
    rw [← nest_map_bare, h, nest_flattenAll hnested]
  obtain ⟨there, rfl, hthere⟩ := exists_trees_of_nest hnest
  refine ⟨there, rfl, hthere, TokenTree.flattenAll_injective ?_ hnested ?_⟩
  · exact (isNestedAll_map_move there).trans hthere
  · exact (flattenAll_map_move there).trans h

/-! ### Pieces that open and close -/

/-- In front of what `next` admits, the text is lexed and takes the delimiters that are due from one list
to another. -/
def Passes (next : List Char → Prop) (due due' : List String) (text : List Char) : Prop :=
  ∃ marks, Writes next text marks ∧ nest due marks = some due'

namespace Passes

variable {next next' : List Char → Prop} {a b : List Char} {due due' due'' : List String}

theorem append (ha : Passes next due due' a) (hb : Passes next' due' due'' b)
    (hnext : ∀ rest, next' rest → next (b ++ rest)) : Passes next' due due'' (a ++ b) := by
  obtain ⟨ms, hms, hdue⟩ := ha
  obtain ⟨ns, hns, hdue'⟩ := hb
  exact ⟨ms ++ ns, hms.append hns hnext, by rw [nest_append hdue, hdue']⟩

theorem and (ha : Passes Anything due due' a) (hb : Passes next due' due'' b) :
    Passes next due due'' (a ++ b) :=
  ha.append hb fun _ _ => trivial

theorem mono (h : Passes next due due' a) (hnext : ∀ rest, next' rest → next rest) :
    Passes next' due due' a :=
  let ⟨marks, hmarks, hdue⟩ := h
  ⟨marks, hmarks.mono hnext, hdue⟩

theorem of_marks (h : (marksOf? a).bind (nest due) = some due') : Passes Anything due due' a := by
  obtain ⟨marks, hmarks, hdue⟩ := Option.bind_eq_some_iff.mp h
  exact ⟨marks, .of_marks hmarks, hdue⟩

theorem const {text : String} {cs : List Char} (htext : text = String.ofList cs)
    (h : (marksOf? cs).bind (nest due) = some due') : Passes Anything due due' text.toList := by
  rw [Text.toList_const htext]
  exact .of_marks h

/-- A token that is no delimiter. -/
theorem leaf {t : Token} (h : Writes next a [t]) (ht : t.kind ≠ .punct) (due : List String) :
    Passes next due due a := by
  have hpunct : ∀ text, t.isPunct text = false := fun text => by
    rw [Token.isPunct, beq_false_of_ne ht, Bool.false_and]
  refine ⟨_, h, ?_⟩
  rw [nest_cons, Token.nest, Token.isOpener, Token.isCloser]
  simp only [hpunct]
  rfl

/-- What leaves no delimiter open takes any that are due along. -/
theorem balanced (h : Passes next [] [] a) (due : List String) : Passes next due due a := by
  obtain ⟨marks, hmarks, hdue⟩ := h
  exact ⟨marks, hmarks, nest_behind hdue due⟩

/-- Balanced code at the end of a text. -/
theorem exists_trees (h : Passes next [] [] a) (hnil : next []) :
    ∃ trees, Rust.tokenize a = .ok (flattenAll trees) ∧ isNestedAll trees = true := by
  obtain ⟨marks, hmarks, hdue⟩ := h
  obtain ⟨ts, hts, rfl⟩ := hmarks.tokenize hnil
  rw [nest_map_bare] at hdue
  obtain ⟨trees, rfl, htrees⟩ := exists_trees_of_nest hdue
  exact ⟨trees, hts, htrees⟩

theorem of_trees {trees : List TokenTree} (h : Writes next a (flattenAll trees))
    (hnested : isNestedAll trees = true) : Passes next due due a :=
  ⟨_, h, nest_flattenAll hnested due⟩

end Passes

end ContractSync.Rust

/-!
## Paths

`IsCode` says that a text is lexed from its first character to its last one and that its delimiters are
balanced. **Identifiers joined by pairs of colons are code** (`isCode_path`): such a path can be put where
code is written.
-/

namespace ContractSync.Rust

open Lexer
open TokenTree (flattenAll isNestedAll)

/-- The text is code on its own. -/
def IsCode (text : String) : Prop := ∃ trees, Spells text.toList trees

/-- Code in front of a text that goes on with none of it. -/
theorem IsCode.passes {text : String} (h : IsCode text) :
    Passes (fun rest => Calm rest ∧ startsWith (· == '/') rest = false) [] [] text.toList := by
  obtain ⟨trees, htrees⟩ := h
  exact .of_trees (.spelled htrees) ((TokenTree.isNestedAll_map_move trees).trans htrees.nested)

/-- What the tokens of a path are like: no delimiters, from the first character to the last one. -/
structure IsChain (ts : List Token) (length : Nat) : Prop where
  plain : ∀ t ∈ ts, t.isOpener = false ∧ t.isCloser = false
  first : ts.head?.map Token.start = some 0
  last : ts.getLast?.map Token.stop = some length

theorem IsChain.single {t : Token} (hopen : t.isOpener = false) (hclose : t.isCloser = false)
    (hstart : t.start = 0) : IsChain [t] t.stop :=
  ⟨List.forall_mem_singleton.mpr ⟨hopen, hclose⟩, congrArg some hstart, rfl⟩

theorem IsChain.append {as bs : List Token} {m n : Nat} (ha : IsChain as m) (hb : IsChain bs n) :
    IsChain (as ++ bs.map (Token.shift m)) (n + m) := by
  refine ⟨List.forall_mem_append.mpr ⟨ha.plain, fun t ht => ?_⟩, ?_, ?_⟩
  · obtain ⟨u, hu, rfl⟩ := List.mem_map.mp ht
    exact hb.plain u hu
  · obtain ⟨t, ht, hstart⟩ := Option.map_eq_some_iff.mp ha.first
    rw [List.head?_append, ht, Option.some_or, Option.map_some, hstart]
  · obtain ⟨t, ht, hstop⟩ := Option.map_eq_some_iff.mp hb.last
    rw [List.getLast?_append, List.getLast?_map, ht, Option.map_some, Option.some_or,
      Option.map_some, ← hstop]
    rfl

/-- Tokens that are no delimiters, as trees. -/
theorem nested_leaves {ts : List Token} (h : ∀ t ∈ ts, t.isOpener = false ∧ t.isCloser = false) :
    flattenAll (ts.map TokenTree.leaf) = ts ∧ isNestedAll (ts.map TokenTree.leaf) = true := by
  induction ts with
  | nil => exact ⟨rfl, rfl⟩
  | cons t ts ih =>
    obtain ⟨⟨hopen, hclose⟩, hts⟩ := List.forall_mem_cons.mp h
    obtain ⟨hflat, hnested⟩ := ih hts
    rw [List.map_cons, flattenAll, isNestedAll, hflat, hnested, TokenTree.isNested, hopen, hclose]
    exact ⟨rfl, rfl⟩

theorem IsChain.spells {ts : List Token} {text : List Char} (h : IsChain ts text.length)
    (htokens : tokenize text = .ok ts) : Spells text (ts.map TokenTree.leaf) := by
  obtain ⟨hflat, hnested⟩ := nested_leaves h.plain
  refine ⟨hflat.symm ▸ htokens, hnested, ?_, ?_⟩
  · rw [List.head?_map, Option.map_map]
    exact h.first
  · rw [List.getLast?_map, Option.map_map]
    exact h.last

/-- Identifiers joined by pairs of colons. -/
def pathText (names : List String) : List Char :=
  List.intercalate [':', ':'] (names.map String.toList)

theorem pathText_cons (name next : String) (names : List String) :
    pathText (name :: next :: names) = name.toList ++ (':' :: ':' :: pathText (next :: names)) := by
  rw [pathText, pathText, List.map_cons, List.map_cons, List.intercalate_cons_cons, List.append_assoc]
  rfl

/-- The tokens of a path, without their places. -/
def pathMarks : List String → List Token
  | [] => []
  | [name] => [⟨.ident, name, 0, 0⟩]
  | name :: names => ⟨.ident, name, 0, 0⟩ :: ⟨.punct, "::", 0, 0⟩ :: pathMarks names

/-- **A path is lexed to its names** and the colons between them. -/
theorem exists_lexes_path {names : List String} (hne : names ≠ []) (h : ∀ name ∈ names, IsIdentifier name) :
    ∃ ts, Lexes IsGap (pathText names) ts ∧ IsChain ts (pathText names).length ∧
      ts.map Token.bare = pathMarks names := by
  have hident : ∀ name : String, IsChain [⟨.ident, String.ofList name.toList, 0, name.toList.length⟩]
      name.toList.length := fun _ => .single rfl rfl rfl
  have hbare : ∀ name : String, Token.bare ⟨.ident, String.ofList name.toList, 0, name.toList.length⟩ =
      ⟨.ident, name, 0, 0⟩ := fun name => by rw [String.ofList_toList]; rfl
  induction names with
  | nil => exact absurd rfl hne
  | cons name names ih =>
    obtain ⟨hname, hnames⟩ := List.forall_mem_cons.mp h
    cases names with
    | nil =>
      have htext : pathText [name] = name.toList := List.intercalate_singleton
      rw [htext]
      exact ⟨_, fun rest hrest => run_identifier hname hrest, hident name, by rw [List.map_singleton, hbare]; rfl⟩
    | cons next names =>
      obtain ⟨ts, hts, hchain, hmarks⟩ := ih (List.cons_ne_nil _ _) hnames
      have hcolons : Lexes Anything [':', ':'] [⟨.punct, "::", 0, 2⟩] := .of_tokens (by decide)
      have hgap : ∀ rest, IsGap (([':', ':'] ++ pathText (next :: names)) ++ rest) := fun rest => by
        have hcolon : isIdentChar ':' = false := not_isIdentChar_of_mark (by decide)
        rw [IsGap, List.append_assoc, List.cons_append, startsWith, hcolon]
        rfl
      have hlexes : Lexes IsGap name.toList [⟨.ident, String.ofList name.toList, 0, name.toList.length⟩] :=
        fun rest hrest => run_identifier hname hrest
      have hall := hlexes.append (hcolons.and hts) fun rest _ => hgap rest
      have hlength : (pathText (name :: next :: names)).length =
          (pathText (next :: names)).length + 2 + name.toList.length := by
        rw [pathText_cons, List.length_append, List.length_cons, List.length_cons, Nat.add_comm]
      have hmark : IsChain [⟨.punct, "::", 0, 2⟩] 2 := .single rfl rfl rfl
      refine ⟨_, by rw [pathText_cons]; exact hall, ?_, ?_⟩
      · rw [hlength]
        exact (hident name).append (hmark.append hchain)
      · rw [List.map_append, Token.map_bare_shift, List.map_append, Token.map_bare_shift, hmarks,
          List.map_singleton, hbare]
        rfl

/-- **A path is code.** -/
theorem isCode_path {names : List String} (hne : names ≠ []) (h : ∀ name ∈ names, IsIdentifier name) :
    IsCode (String.ofList (pathText names)) := by
  obtain ⟨ts, hts, hchain, -⟩ := exists_lexes_path hne h
  have hspells := hchain.spells (hts.tokenize rfl)
  rw [← String.toList_ofList (l := pathText names)] at hspells
  exact ⟨_, hspells⟩

end ContractSync.Rust
