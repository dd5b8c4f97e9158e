import ContractSync.Contract.Canonical
import ContractSync.Proofs.Document.Entries
import ContractSync.Proofs.Text.Parts
import ContractSync.Reference.Pointer
import Mathlib.Tactic.Tauto

/-!
# Written keys and paths

A key is written in a pointer with `~0` for `~`, `~1` for `/` and `%25` for `%` (`escape`). A written segment
is read in three passes, each undoing one kind of mark in what the pass before it has left: slashes first,
tildes next, percent escapes last. Read in this order, **every key comes back**
(`decodeSegment_escape`).

What is read as a percent escape is read as bytes, and the bytes as UTF-8. A written key has no other escape than
`%25`, so all of its bytes are ASCII.
-/

namespace ContractSync.Text.Utf8

/-- The byte of an ASCII character is that character. -/
theorem next_ascii {c : Char} (h : c.toNat < 128) (rest : List UInt8) :
    next (UInt8.ofNat c.toNat) rest = (.ok c, 0) := by
  have hbyte : (UInt8.ofNat c.toNat).toNat = c.toNat := by
    rw [UInt8.toNat_ofNat', Nat.mod_eq_of_lt (by omega)]
  have htail : tailLength (UInt8.ofNat c.toNat) = some 0 := by
    rw [tailLength, if_pos (by rw [UInt8.lt_iff_toNat_lt, hbyte]; exact h)]
  simp only [next, htail, continuation, List.length_nil, if_true, leadBits, hbyte, List.foldl_nil,
    Char.ofNat_toNat]

/-- ASCII is read as it stands. -/
theorem decodeLossy_ascii {cs : List Char} (h : ∀ c ∈ cs, c.toNat < 128) :
    decodeLossy (cs.map fun c => UInt8.ofNat c.toNat) = cs := by
  induction cs with
  | nil => rw [List.map_nil, decodeLossy]
  | cons c cs ih =>
    obtain ⟨hc, hcs⟩ := List.forall_mem_cons.mp h
    rw [List.map_cons, decodeLossy, next_ascii hc]
    simp only [List.drop_zero, ih hcs]

end ContractSync.Text.Utf8

namespace ContractSync.Reference.Percent

/-! ### Percent signs -/

/-- The text with its percent signs escaped. -/
def escape (cs : List Char) : List Char := cs.flatMap fun c => if c = '%' then ['%', '2', '5'] else [c]

theorem escape_cons_percent (cs : List Char) : escape ('%' :: cs) = '%' :: '2' :: '5' :: escape cs := rfl

theorem escape_cons_of_ne {c : Char} (h : c ≠ '%') (cs : List Char) : escape (c :: cs) = c :: escape cs := by
  rw [escape, List.flatMap_cons, if_neg h]
  rfl

theorem escape_append (cs more : List Char) : escape (cs ++ more) = escape cs ++ escape more :=
  List.flatMap_append

theorem bytes_cons_of_ne {c : Char} (h : c ≠ '%') (cs : List Char) :
    bytes (c :: cs) = UInt8.ofNat c.toNat :: bytes cs := by
  rw [bytes]
  rintro - - - rfl
  exact absurd rfl h

/-- The bytes of an escaped text are those of the text. -/
theorem bytes_escape (cs : List Char) : bytes (escape cs) = cs.map fun c => UInt8.ofNat c.toNat := by
  induction cs with
  | nil => rfl
  | cons c cs ih =>
    by_cases hc : c = '%'
    · have hbyte : byte? '2' '5' = some 37 := by decide
      rw [hc, escape_cons_percent, bytes, hbyte, ih]
      rfl
    · rw [escape_cons_of_ne hc, bytes_cons_of_ne hc, ih, List.map_cons]

/-- ASCII characters go to the stretch that is read at its end. -/
theorem decodeAfter_append {ascii : List Char} (h : ∀ c ∈ ascii, c.toNat < 128) (stretch rest : List Char) :
    decodeAfter stretch (ascii ++ rest) = decodeAfter (ascii.reverse ++ stretch) rest := by
  induction ascii generalizing stretch with
  | nil => rfl
  | cons c ascii ih =>
    obtain ⟨hc, hascii⟩ := List.forall_mem_cons.mp h
    rw [List.cons_append, decodeAfter, if_pos hc, ih hascii, List.reverse_cons, List.append_assoc,
      List.singleton_append]

theorem escape_ascii {cs : List Char} (h : ∀ c ∈ cs, c.toNat < 128) : ∀ c ∈ escape cs, c.toNat < 128 := by
  intro d hd
  obtain ⟨c, hc, hd⟩ := List.mem_flatMap.mp hd
  split at hd
  · have hmark : ∀ e ∈ ['%', '2', '5'], e.toNat < 128 := by decide
    exact hmark d hd
  · rw [List.mem_singleton.mp hd]
    exact h c hc

/-- Behind an ASCII text whose escaped form is the stretch before, an escaped text is read as it was. -/
theorem decodeAfter_escape {front : List Char} (hfront : ∀ c ∈ front, c.toNat < 128) (cs : List Char) :
    decodeAfter (escape front).reverse (escape cs) = front ++ cs := by
  have hread : ∀ {front : List Char}, (∀ c ∈ front, c.toNat < 128) →
      Text.Utf8.decodeLossy (bytes (escape front).reverse.reverse) = front := by
    intro front hfront
    rw [List.reverse_reverse, bytes_escape, Text.Utf8.decodeLossy_ascii hfront]
  induction cs generalizing front with
  | nil => exact (hread hfront).trans (List.append_nil front).symm
  | cons c cs ih =>
    by_cases hc : c.toNat < 128
    · -- The character joins the stretch, escaped or not.
      have hsingle : ∀ d ∈ [c], d.toNat < 128 := List.forall_mem_singleton.mpr hc
      rw [← List.singleton_append, escape_append, decodeAfter_append (escape_ascii hsingle), ← List.reverse_append,
        ← escape_append, ih (List.forall_mem_append.mpr ⟨hfront, hsingle⟩), List.append_assoc]
    · -- The character ends the stretch, and an empty one starts behind it.
      have hne : c ≠ '%' := by
        rintro rfl
        exact hc (by decide)
      have hrest : decodeAfter [] (escape cs) = cs := ih (List.forall_mem_nil _)
      rw [escape_cons_of_ne hne, decodeAfter, if_neg hc, hread hfront, hrest]

/-- **Every text comes back from its escaped form.** -/
theorem decode_escape (cs : List Char) : decode (escape cs) = cs :=
  decodeAfter_escape (List.forall_mem_nil _) cs

end ContractSync.Reference.Percent

namespace ContractSync.Reference.Pointer

/-! ### Keys -/

/-- How a character of a key is written in a pointer. -/
def escapeChar (c : Char) : List Char :=
  if c = '~' then ['~', '0']
  else if c = '/' then ['~', '1']
  else if c = '%' then ['%', '2', '5']
  else [c]

/-- A key as it is written in a pointer. -/
def escape (key : List Char) : List Char := key.flatMap escapeChar

/-- A character that is written as it stands. -/
def IsPlain (c : Char) : Prop := c ≠ '~' ∧ c ≠ '/' ∧ c ≠ '%'

theorem mark_or_isPlain (c : Char) : c = '~' ∨ c = '/' ∨ c = '%' ∨ IsPlain c := by
  unfold IsPlain
  tauto

theorem escape_cons (c : Char) (key : List Char) : escape (c :: key) = escapeChar c ++ escape key := rfl

theorem escapeChar_of_isPlain {c : Char} (h : IsPlain c) : escapeChar c = [c] := by
  rw [escapeChar, if_neg h.1, if_neg h.2.1, if_neg h.2.2]

/-- A text without marks is written as it stands. -/
theorem escape_eq_self {key : List Char} (h : ∀ c ∈ key, IsPlain c) : escape key = key := by
  induction key with
  | nil => rfl
  | cons c key ih =>
    obtain ⟨hc, hkey⟩ := List.forall_mem_cons.mp h
    rw [escape_cons, escapeChar_of_isPlain hc, ih hkey, List.singleton_append]

/-- A written key stays within one segment. -/
theorem slash_notMem_escape (key : List Char) : '/' ∉ escape key := by
  intro h
  obtain ⟨c, -, hc⟩ := List.mem_flatMap.mp h
  rcases mark_or_isPlain c with rfl | rfl | rfl | hplain
  · exact absurd hc (by decide)
  · exact absurd hc (by decide)
  · exact absurd hc (by decide)
  · rw [escapeChar_of_isPlain hplain, List.mem_singleton] at hc
    exact hplain.2.1 hc.symm

/-- Only the empty key is written as the empty text. -/
theorem escape_ne_nil {key : List Char} (h : key ≠ []) : escape key ≠ [] := by
  obtain ⟨c, key, rfl⟩ := List.exists_cons_of_ne_nil h
  rw [escape_cons]
  rcases mark_or_isPlain c with rfl | rfl | rfl | hplain
  · exact List.cons_ne_nil _ _
  · exact List.cons_ne_nil _ _
  · exact List.cons_ne_nil _ _
  · rw [escapeChar_of_isPlain hplain]
    exact List.cons_ne_nil _ _

/-! ### Written keys are read -/

/-- What is left of a written key when its slashes are read. -/
def escapeTilde (key : List Char) : List Char :=
  key.flatMap fun c => if c = '/' then ['/'] else escapeChar c

theorem escapeTilde_cons (c : Char) (key : List Char) :
    escapeTilde (c :: key) = (if c = '/' then ['/'] else escapeChar c) ++ escapeTilde key := rfl

theorem unescapeSlash_cons {c : Char} (h : c ≠ '~') (cs : List Char) :
    unescapeSlash (c :: cs) = c :: unescapeSlash cs := by
  rw [unescapeSlash]
  rintro - rfl
  exact absurd rfl h

theorem unescapeTilde_cons {c : Char} (h : c ≠ '~') (cs : List Char) :
    unescapeTilde (c :: cs) = c :: unescapeTilde cs := by
  rw [unescapeTilde]
  rintro - rfl
  exact absurd rfl h

/-- A tilde that stands for itself is not the start of a slash, since a zero is written behind it. -/
theorem unescapeSlash_escape (key : List Char) : unescapeSlash (escape key) = escapeTilde key := by
  induction key with
  | nil => rfl
  | cons c key ih =>
    rw [escape_cons, escapeTilde_cons, ← ih]
    rcases mark_or_isPlain c with rfl | rfl | rfl | hplain
    · rfl
    · rfl
    · rfl
    · rw [if_neg hplain.2.1, escapeChar_of_isPlain hplain]
      exact unescapeSlash_cons hplain.1 _

theorem unescapeTilde_escapeTilde (key : List Char) : unescapeTilde (escapeTilde key) = Percent.escape key := by
  induction key with
  | nil => rfl
  | cons c key ih =>
    rw [escapeTilde_cons]
    rcases mark_or_isPlain c with rfl | rfl | rfl | hplain
    · rw [Percent.escape_cons_of_ne (by decide), ← ih]
      rfl
    · rw [Percent.escape_cons_of_ne (by decide), ← ih]
      rfl
    · rw [Percent.escape_cons_percent, ← ih]
      rfl
    · rw [if_neg hplain.2.1, escapeChar_of_isPlain hplain, Percent.escape_cons_of_ne hplain.2.2, ← ih]
      exact unescapeTilde_cons hplain.1 _

/-- **Every key comes back from its written form.** -/
theorem decodeSegment_escape (key : String) : decodeSegment (escape key.toList) = key := by
  rw [decodeSegment, unescapeSlash_escape, unescapeTilde_escapeTilde, Percent.decode_escape, String.ofList_toList]

/-- A text without marks is read as it stands. -/
theorem decodeSegment_eq_self {key : String} (h : ∀ c ∈ key.toList, IsPlain c) : decodeSegment key.toList = key := by
  have hread := decodeSegment_escape key
  rwa [escape_eq_self h] at hread

end ContractSync.Reference.Pointer

/-!
## What references lead to

A path of keys and positions is written as a pointer (`writtenPath`), and a component as a reference to its place
(`componentReference`). Two functions read what is written: `resolve` reads every segment of a pointer and follows
them, and `componentName` compares the segments as they stand and reads the last one only.

**Both find what was written** (`addressing_exact`). A pointer leads to the value at its path (`At`), whatever
characters the keys hold; the slashes at the start of a pointer are dropped as a run, so that the first key may not
be empty. A reference to a component has the component's name, also behind the document's own name. And where a
reference has a component's name, its family holds under that name what the pointer leads to.
-/

namespace ContractSync.Text

/-- The number that ASCII digits write. -/
theorem decimalNumber?_ascii {cs : List Char} (hne : cs ≠ []) (h : ∀ c ∈ cs, c.isDigit = true) :
    decimalNumber? cs = some (Nat.ofDigitChars 10 cs 0) := by
  have hvalue : ∀ {c : Char}, c.isDigit = true → decimalValue? c = some (c.toNat - '0'.toNat) := by
    intro c hc
    have hrange : 48 ≤ c.toNat ∧ c.toNat ≤ 57 := by
      rw [Char.isDigit, Bool.and_eq_true, decide_eq_true_eq, decide_eq_true_eq] at hc
      exact ⟨UInt32.le_iff_toNat_le.mp hc.1, UInt32.le_iff_toNat_le.mp hc.2⟩
    have hfirst : decimalRanges.find? (fun r => r.1 ≤ c.toNat && c.toNat ≤ r.2) = some (48, 57) :=
      List.find?_cons_of_pos (by simpa using hrange)
    have hdecade : (c.toNat - 48) % 10 = c.toNat - 48 := Nat.mod_eq_of_lt (by omega)
    rw [decimalValue?, hfirst, Option.map_some, hdecade]
    rfl
  have hdigits : ∀ {cs : List Char} {n : Nat}, (∀ c ∈ cs, c.isDigit = true) →
      cs.foldl (fun n c => n.bind fun n => (decimalValue? c).map (10 * n + ·)) (some n) =
        some (Nat.ofDigitChars 10 cs n) := by
    intro cs n h
    induction cs generalizing n with
    | nil => rfl
    | cons c cs ih =>
      obtain ⟨hc, hcs⟩ := List.forall_mem_cons.mp h
      rw [List.foldl_cons, Option.bind_some, hvalue hc, Option.map_some, ih hcs]
      rfl
  rw [decimalNumber?, if_neg (by simpa using hne), hdigits h]

end ContractSync.Text

namespace ContractSync.Reference.Pointer

open ContractSync.Document

/-! ### Paths -/

/-- One step down a tree: to a key of a mapping, or to a position in a list. -/
inductive Step where
  | key (name : String)
  | index (n : Nat)
  deriving DecidableEq, Repr

/-- A step as it is written in a pointer: a key in its written form, a position in decimal digits. -/
def Step.written : Step → List Char
  | .key name => escape name.toList
  | .index n => (toString n).toList

/-- The segment that a written step is read as. -/
def Step.segment : Step → String
  | .key name => name
  | .index n => toString n

/-- A path as a pointer. -/
def writtenPath (path : List Step) : String := String.ofList ('#' :: path.flatMap fun step => '/' :: step.written)

/-- A tree of mappings and lists. No mapping has a string twice among its keys, and the number of a list's items has
no more digits than a position may have, which is more than four thousand. -/
inductive IsTree : Value → Prop where
  | leaf {v : Value} (hlist : v.items? = none) (hmapping : v.entries? = none) : IsTree v
  | list {items : List Value} (hlength : (Nat.toDigits 10 items.length).length ≤ positionDigits)
      (hitems : ∀ item ∈ items, IsTree item) : IsTree (.list items)
  | mapping {entries : Entries} (hkeys : (Entries.textKeys entries).Nodup) (hvalues : ∀ e ∈ entries, IsTree e.2) :
    IsTree (.mapping entries)

/-- A mapping with one key. -/
theorem IsTree.object_single {key : String} {v : Value} (h : IsTree v) : IsTree (.object [(key, v)]) :=
  .mapping (List.pairwise_singleton _ key) (List.forall_mem_singleton.mpr h)

/-- The value stands at the end of the path. -/
inductive At : Value → List Step → Value → Prop where
  | root (v : Value) : At v [] v
  | key {entries : Entries} {name : String} {child v : Value} {path : List Step}
      (hentry : (.text name, child) ∈ entries) (h : At child path v) : At (.mapping entries) (.key name :: path) v
  | index {items : List Value} {n : Nat} {child v : Value} {path : List Step}
      (hitem : items[n]? = some child) (h : At child path v) : At (.list items) (.index n :: path) v

/-- A smaller number has no more digits. -/
theorem length_toDigits_mono {m n : Nat} (h : m ≤ n) :
    (Nat.toDigits 10 m).length ≤ (Nat.toDigits 10 n).length := by
  have hpos : 0 < (Nat.toDigits 10 n).length := List.length_pos_iff.mpr Nat.toDigits_ne_nil
  have hlt := (Nat.length_toDigits_le_iff (by decide) hpos).mp (Nat.le_refl _)
  exact (Nat.length_toDigits_le_iff (by decide) hpos).mpr (Nat.lt_of_le_of_lt h hlt)

theorem position_toString {n : Nat} (h : (Nat.toDigits 10 n).length ≤ positionDigits) :
    position (toString n).toList = .ok (some n) := by
  have hdigits : ∀ c ∈ Nat.toDigits 10 n, c.isDigit = true := fun c hc =>
    Nat.isDigit_of_mem_toDigits (by decide) (by decide) hc
  have hall : (Nat.toDigits 10 n).all Text.isDigit = true :=
    List.all_eq_true.mpr fun c hc => Text.isDigit_of_ascii (hdigits c hc)
  have hempty : (Nat.toDigits 10 n).isEmpty = false := by simp
  have hnumber : Text.decimalNumber? (Nat.toDigits 10 n) = some n := by
    rw [Text.decimalNumber?_ascii Nat.toDigits_ne_nil hdigits, Nat.ofDigitChars_toDigits (by decide) (by decide)]
  rw [Nat.toString_eq_repr, Nat.toList_repr, position, hempty, hall, if_neg (by decide), if_neg (Nat.not_lt.mpr h),
    hnumber]

/-- The segments of a path are followed to its end. -/
theorem follow_path {root v : Value} {path : List Step} (hroot : IsTree root) (h : At root path v) :
    follow root (path.map Step.segment) = .ok (some v) := by
  induction h with
  | root v => rfl
  | key hentry h ih =>
    cases hroot with
    | leaf _ hmapping => cases hmapping
    | mapping hkeys hvalues =>
      rw [List.map_cons, follow, step, Step.segment, Entries.get?_of_mem hkeys hentry]
      exact ih (hvalues _ hentry)
  | @index items n child v path hitem h ih =>
    cases hroot with
    | leaf hlist _ => cases hlist
    | list hlength hitems =>
      -- A position in a list is smaller than the number of its items, and so has no more digits.
      obtain ⟨hn, hchild⟩ := List.getElem?_eq_some_iff.mp hitem
      have hposition := position_toString (Nat.le_trans (length_toDigits_mono (Nat.le_of_lt hn)) hlength)
      rw [List.map_cons, follow, step, Step.segment, hposition, Except.map, Option.bind_some, hitem]
      exact ih (hitems _ (hchild ▸ List.getElem_mem hn))

/-! ### Written paths are read -/

theorem isPlain_of_mem_toString {n : Nat} : ∀ c ∈ (toString n).toList, IsPlain c := by
  intro c hc
  rw [Nat.toString_eq_repr, Nat.toList_repr] at hc
  have hdigit := Nat.isDigit_of_mem_toDigits (by decide) (by decide) hc
  refine ⟨?_, ?_, ?_⟩ <;>
  · rintro rfl
    cases hdigit

theorem decodeSegment_written (step : Step) : decodeSegment step.written = step.segment := by
  cases step with
  | key name => exact decodeSegment_escape name
  | index n => exact decodeSegment_eq_self isPlain_of_mem_toString

theorem slash_notMem_written (step : Step) : '/' ∉ step.written := by
  cases step with
  | key name => exact slash_notMem_escape _
  | index n => exact fun h => (isPlain_of_mem_toString _ h).2.1 rfl

/-- A step is written as nothing only if it leads to the empty key. -/
theorem written_ne_nil {step : Step} (h : step ≠ .key "") : step.written ≠ [] := by
  cases step with
  | key name =>
    refine escape_ne_nil fun hnil => h ?_
    rw [String.toList_eq_nil_iff.mp hnil]
  | index n =>
    rw [Step.written, Nat.toString_eq_repr, Nat.toList_repr]
    exact Nat.toDigits_ne_nil

/-- A text with slashes between its pieces is divided into them. -/
theorem splitAt_written (first : Step) (path : List Step) :
    Text.splitAt '/' (first.written ++ path.flatMap fun step => '/' :: step.written) =
      (first :: path).map Step.written := by
  induction path generalizing first with
  | nil => rw [List.flatMap_nil, List.append_nil, Text.splitAt_eq_singleton (slash_notMem_written first)]; rfl
  | cons next path ih =>
    rw [List.flatMap_cons, List.cons_append, Text.splitAt_append (slash_notMem_written first), ih]
    rfl

theorem segments_writtenPath {path : List Step} (h : path.head? ≠ some (.key "")) :
    segments (writtenPath path) = path.map Step.segment := by
  cases path with
  | nil => rfl
  | cons first path =>
    -- The run of slashes at the start ends with the first one, since the first step is written as something.
    obtain ⟨c, cs, hwritten⟩ := List.exists_cons_of_ne_nil (written_ne_nil fun heq => h (congrArg some heq))
    have hc : ¬c = '/' := by
      rintro rfl
      exact slash_notMem_written first (hwritten ▸ List.mem_cons_self)
    have hpieces : writtenSegments (writtenPath (first :: path)).toList = (first :: path).map Step.written := by
      rw [← splitAt_written, hwritten, writtenPath, String.toList_ofList, writtenSegments, List.flatMap_cons, hwritten,
        List.dropWhile_cons_of_pos (by rfl), List.cons_append, List.dropWhile_cons_of_neg (by decide)]
      simp only
      rw [List.dropWhile_cons_of_pos (by rfl), List.cons_append, List.dropWhile_cons_of_neg (by simpa using hc)]
    rw [segments, hpieces, List.map_map]
    exact List.map_congr_left fun step _ => decodeSegment_written step

/-- A pointer leads to the value at its path. -/
theorem resolve_writtenPath {root v : Value} {path : List Step} (hroot : IsTree root) (h : At root path v)
    (hfirst : path.head? ≠ some (.key "")) : resolve root (writtenPath path) = .ok (some v) := by
  rw [resolve, segments_writtenPath hfirst]
  exact follow_path hroot h

end ContractSync.Reference.Pointer

namespace ContractSync.Reference

open ContractSync.Contract (Canonical)
open ContractSync.Document Pointer

/-! ### References to components -/

/-- The pieces of a local pointer, as they stand. -/
def pieces (pointer : List Char) : List (List Char) :=
  Text.splitAt '/' ((pointer.dropWhile (· == '#')).dropWhile (· == '/'))

/-- The segments of a pointer are its pieces, as they are read. -/
theorem segments_eq_map_pieces {pointer : String} (h : pieces pointer.toList ≠ [[]]) :
    segments pointer = (pieces pointer.toList).map decodeSegment := by
  unfold segments writtenSegments
  split
  · rename_i hnil
    rw [pieces, hnil] at h
    exact absurd rfl h
  · rfl

/-- The pieces of the pointer to a component. -/
theorem pieces_component {pointer family : String} {segment : List Char}
    (h : pointer.toList = '#' :: '/' :: ("components".toList ++ '/' :: (family.toList ++ '/' :: segment)))
    (hfamily : '/' ∉ family.toList) (hsegment : '/' ∉ segment) :
    pieces pointer.toList = ["components".toList, family.toList, segment] := by
  have hcomponents : '/' ∉ "components".toList := by decide
  rw [h, ← Text.splitAt_eq_singleton hsegment, ← Text.splitAt_append hfamily, ← Text.splitAt_append hcomponents]
  rfl

/-- A reference has a component's name if its pointer has three pieces, the first two as they stand and the last one
as it is read. -/
theorem componentName_eq_some_iff {exact family name : String} {self : Option String} :
    componentName exact self family = some name ↔
      ∃ pointer segment, toLocal exact self = some pointer ∧
        pieces pointer.toList = ["components".toList, family.toList, segment] ∧
        decodeSegment segment = name ∧ name ≠ "" := by
  unfold componentName pieces
  refine ⟨fun h => ?_, ?_⟩
  · obtain ⟨pointer, hpointer, h⟩ := Option.bind_eq_some_iff.mp h
    split at h
    · rename_i components found segment hpieces
      split at h
      · rename_i hfound
        rw [Bool.and_eq_true, beq_iff_eq, beq_iff_eq] at hfound
        obtain ⟨rfl, rfl⟩ := hfound
        simp only at h
        split at h
        · cases h
        · rename_i hempty
          cases h
          exact ⟨pointer, segment, hpointer, hpieces, rfl, by simpa using hempty⟩
      · cases h
    · cases h
  · rintro ⟨pointer, segment, hpointer, hpieces, rfl, hname⟩
    have hempty : (decodeSegment segment).isEmpty = false := by simpa using hname
    rw [hpointer]
    simp only [Option.bind_eq_bind, Option.bind_some, hpieces, BEq.rfl, Bool.and_self, if_true, hempty,
      Bool.false_eq_true, if_false]

/-- What starts with a hash mark is a pointer into this document. -/
theorem toLocal_of_hash {exact : String} (h : exact.toList.head? = some '#') (self : Option String) :
    toLocal exact self = some exact := by
  obtain ⟨fragment, hwritten⟩ := List.head?_eq_some_iff.mp h
  have hkind : (ofString exact).kind = .inDocument := by
    unfold ofString
    rw [hwritten]
    rfl
  unfold toLocal
  simp only [hkind, if_true]

/-- A pointer behind the document's own name leads into this document. -/
theorem toLocal_behind_self {self pointer : String} {fragment : List Char} (hself : '#' ∉ self.toList)
    (h : pointer.toList = '#' :: fragment) : toLocal (self ++ pointer) (some self) = some pointer := by
  by_cases hempty : self = ""
  · rw [hempty, String.empty_append]
    exact toLocal_of_hash (by rw [h]; rfl) _
  have hwritten : "#" ++ String.ofList fragment = pointer := by
    rw [← String.toList_inj, String.toList_append, @String.toList_ofList fragment, h]
    rfl
  have hparts : Text.cutAt '#' (self ++ pointer).toList = (self.toList, some fragment) := by
    rw [String.toList_append, h, Text.cutAt_append hself]
  have hkind : (ofString (self ++ pointer)).kind ≠ .inDocument := by
    have hisEmpty : self.toList.isEmpty = false := by simpa using hempty
    unfold ofString
    simp only [hparts, hisEmpty, Bool.false_and, Bool.false_eq_true, if_false]
    split <;> exact nofun
  have hfragment : (ofString (self ++ pointer)).fragment = some (String.ofList fragment) := by
    unfold ofString
    simp only [hparts, Option.map_some]
  have hdocument : (ofString (self ++ pointer)).document = self := by
    unfold ofString
    simp only [hparts, String.ofList_toList]
  have hnames : namesSelf self self = true := if_pos (beq_self_eq_true self)
  unfold toLocal
  simp only [if_neg hkind, hfragment, hdocument, hnames, if_true, hwritten, Option.bind_eq_bind, Option.bind_some]

/-! ### The place of a component -/

/-- A name without the marks of a reference. -/
def IsPlainName (name : String) : Prop := ∀ c ∈ name.toList, IsPlain c ∧ c ≠ '#'

/-- The reference to a component. -/
def componentReference (family name : String) : String :=
  "#/components/" ++ family ++ "/" ++ String.ofList (escape name.toList)

variable {family name : String}

theorem IsPlainName.slash_notMem (h : IsPlainName family) : '/' ∉ family.toList :=
  fun hmem => (h _ hmem).1.2.1 rfl

theorem toList_componentReference (family name : String) : (componentReference family name).toList =
    '#' :: '/' :: ("components".toList ++ '/' :: (family.toList ++ '/' :: escape name.toList)) := by
  have hmark : "#/components/".toList = '#' :: '/' :: ("components".toList ++ ['/']) := by decide
  have hslash : "/".toList = ['/'] := by decide
  rw [componentReference, String.toList_append, String.toList_append, String.toList_append, hmark, hslash,
    @String.toList_ofList (escape name.toList)]
  simp only [List.cons_append, List.append_assoc, List.nil_append]

/-- A reference that leads to the place of a component has the component's name. -/
theorem componentName_of_toLocal {exact : String} {self : Option String} (hfamily : '/' ∉ family.toList)
    (hname : name ≠ "") (h : toLocal exact self = some (componentReference family name)) :
    componentName exact self family = some name :=
  componentName_eq_some_iff.mpr ⟨_, _, h,
    pieces_component (toList_componentReference family name) hfamily (slash_notMem_escape _),
    decodeSegment_escape name, hname⟩

/-! ### By name and by pointer -/

/-- What is at the key is a mapping, if anything is. -/
def HoldsMapping (entries : Entries) (key : String) : Prop :=
  ∀ v, Entries.get? entries key = some v → v.isMapping = true

/-- The components of a document are a mapping, and so are those of the family. -/
def HasMappings (c : Canonical) (family : String) : Prop :=
  HoldsMapping c.data "components" ∧ HoldsMapping c.components family

/-- A pointer goes on in the mapping at a key; where there is none, it leads nowhere. -/
theorem follow_key {entries : Entries} {key : String} (h : HoldsMapping entries key) (next : String)
    (rest : List String) :
    follow (.mapping entries) (key :: next :: rest) =
      follow (.mapping (Entries.get entries key).entries) (next :: rest) := by
  cases hfound : Entries.get? entries key with
  | none =>
    rw [follow, step, hfound, Entries.get, hfound]
    rfl
  | some v =>
    obtain ⟨found, hv⟩ := Option.isSome_iff_exists.mp (h v hfound)
    have hmapping : v = .mapping found := by
      cases v with
      | mapping => exact congrArg _ (Option.some.inj hv)
      | scalar | list | set => cases hv
    rw [follow, step, hfound, Entries.get, hfound, hmapping]
    rfl

/-- **A component's name and the pointer lead to the same value.** -/
theorem resolveReference_of_componentName {c : Canonical} {ref : String} (hfamily : IsPlainName family)
    (h : HasMappings c family) (hname : c.componentName ref family = some name) :
    c.resolveReference ref = .ok (Entries.get? (c.family family) name) := by
  obtain ⟨pointer, segment, hpointer, hpieces, hsegment, -⟩ := componentName_eq_some_iff.mp hname
  have hcomponents : decodeSegment "components".toList = "components" := by decide +kernel
  -- The family is compared as it stands, but read by the pointer: without marks that is the same.
  have hplain : decodeSegment family.toList = family := decodeSegment_eq_self fun c hc => (hfamily c hc).1
  have hsegments : segments pointer = ["components", family, name] := by
    rw [segments_eq_map_pieces (by rw [hpieces]; exact nofun), hpieces, List.map_cons, List.map_cons, List.map_cons,
      List.map_nil, hcomponents, hplain, hsegment]
  have hwalk : follow (.mapping c.data) ["components", family, name] =
      follow (.mapping (c.family family)) [name] :=
    (follow_key h.1 family [name]).trans (follow_key h.2 name [])
  have hlast : follow (.mapping (c.family family)) [name] = .ok (Entries.get? (c.family family) name) := by
    rw [follow, step]
    cases Entries.get? (c.family family) name <;> rfl
  unfold Canonical.resolveReference
  simp only [hpointer]
  rw [resolve, hsegments, hwalk, hlast]

/-! ### All references -/

/-- **References lead where they are written to lead.** The pointer of a path leads to the value at its end. The
reference to a component has its name, alone and behind the document's own name. Where a reference has a
component's name, the pointer leads to what the family holds under it. -/
theorem addressing_exact :
    (∀ (root v : Value) (path : List Step), IsTree root → At root path v → path.head? ≠ some (.key "") →
      resolve root (writtenPath path) = .ok (some v)) ∧
    (∀ family name : String, IsPlainName family → name ≠ "" →
      (∀ self, componentName (componentReference family name) self family = some name) ∧
      ∀ self : String, '#' ∉ self.toList →
        componentName (self ++ componentReference family name) (some self) family = some name) ∧
    ∀ (c : Canonical) (ref family name : String), IsPlainName family → HasMappings c family →
      c.componentName ref family = some name →
      c.resolveReference ref = .ok (Entries.get? (c.family family) name) := by
  refine ⟨fun root v path hroot h hfirst => resolve_writtenPath hroot h hfirst, ?_,
    fun c ref family name hfamily h hname => resolveReference_of_componentName hfamily h hname⟩
  intro family name hfamily hname
  have hwritten := toList_componentReference family name
  have hhash : (componentReference family name).toList.head? = some '#' := by rw [hwritten]; rfl
  exact ⟨fun self => componentName_of_toLocal hfamily.slash_notMem hname (toLocal_of_hash hhash self),
    fun self hself => componentName_of_toLocal hfamily.slash_notMem hname (toLocal_behind_self hself hwritten)⟩

/-- A component whose name holds every mark, in a document with a name of its own. -/
def markedSample : Canonical where
  data := [("components", .object [("schemas", .object [("a/b~%# c", .object [("~1", .list [.null, .text "d"])])])])]
  dialect := .openApi "3.2.0"
  self := some "https://example.com/api"

/-- The place of that component, behind the name of the document. -/
def markedReference : String := "https://example.com/api#/components/schemas/a~1b~0%25# c"

theorem addressing_exact_marked :
    resolve (.mapping markedSample.data) "#/components/schemas/a~1b~0%25# c/~01/1" = .ok (some (.text "d")) ∧
      markedSample.componentName markedReference "schemas" = some "a/b~%# c" ∧
      markedSample.resolveReference markedReference = .ok (some (.object [("~1", .list [.null, .text "d"])])) := by
  obtain ⟨hpointers, hnames, hagree⟩ := addressing_exact
  have hfamily : IsPlainName "schemas" := by unfold IsPlainName IsPlain; decide
  have hname : markedSample.componentName markedReference "schemas" = some "a/b~%# c" :=
    (hnames "schemas" "a/b~%# c" hfamily (by decide)).2 "https://example.com/api" (by decide)
  have hmappings : HasMappings markedSample "schemas" := by
    constructor <;> rintro v hv <;> cases hv <;> rfl
  refine ⟨?_, hname, hagree markedSample _ "schemas" _ hfamily hmappings hname⟩
  refine hpointers _ _ [.key "components", .key "schemas", .key "a/b~%# c", .key "~1", .index 1] ?_ ?_ nofun
  · have hleaf : ∀ s, IsTree (.scalar s) := fun s => .leaf rfl rfl
    have hlist : IsTree (.list [.null, .text "d"]) :=
      .list (by decide) (List.forall_mem_cons.mpr ⟨hleaf _, List.forall_mem_singleton.mpr (hleaf _)⟩)
    exact .object_single (.object_single (.object_single (.object_single hlist)))
  · exact .key (List.mem_singleton.mpr rfl) (.key (List.mem_singleton.mpr rfl) (.key (List.mem_singleton.mpr rfl)
      (.key (List.mem_singleton.mpr rfl) (.index rfl (.root _)))))

end ContractSync.Reference
