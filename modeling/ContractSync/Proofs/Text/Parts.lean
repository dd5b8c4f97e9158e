import ContractSync.Text.Basic

/-!
# Parts of a text

A part of a text that is replaced reads what it was replaced by (`slice_splice`), and replacing it by
itself changes nothing (`splice_slice`). Parts that are apart can be replaced in any order (`splice_comm`).
A part of one text is a part of every text that this one stands
in (`slice_append_left`, `slice_append_right`).
-/

namespace ContractSync.Text

/-- The characters of a fixed text. -/
theorem toList_const {text : String} {cs : List Char} (h : text = String.ofList cs) : text.toList = cs := by
  rw [h, String.toList_ofList]

/-- The characters of two texts, one behind the other. -/
theorem toList_append_eq {a b : String} {as bs : List Char} (ha : a.toList = as) (hb : b.toList = bs) :
    (a ++ b).toList = as ++ bs := by
  rw [String.toList_append, ha, hb]

/-- What holds of all parts and of what stands between them holds of all that is joined. -/
theorem forall_mem_intercalate {α : Type} {P : α → Prop} {sep : List α} {parts : List (List α)}
    (hsep : ∀ a ∈ sep, P a) (h : ∀ part ∈ parts, ∀ a ∈ part, P a) :
    ∀ a ∈ sep.intercalate parts, P a := by
  induction parts with
  | nil => exact fun _ => nofun
  | cons part parts ih =>
    obtain ⟨hpart, hparts⟩ := List.forall_mem_cons.mp h
    cases parts with
    | nil => simpa using hpart
    | cons next parts =>
      rw [List.intercalate_cons_cons, List.forall_mem_append, List.forall_mem_append]
      exact ⟨⟨hpart, hsep⟩, ih hparts⟩

variable {cs new : List Char} {start stop : Nat}

theorem splice_slice (h : start ≤ stop) : splice cs start stop (slice cs start stop) = cs := by
  have htake : (cs.take stop).take start = cs.take start := by
    rw [List.take_take, Nat.min_eq_left h]
  rw [splice, slice, ← htake, List.take_append_drop, List.take_append_drop]

/-- A part between two others is replaced. -/
theorem splice_append (a old b new : List Char) :
    splice (a ++ old ++ b) a.length (a.length + old.length) new = a ++ new ++ b := by
  have htake : (a ++ old ++ b).take a.length = a := by
    rw [List.append_assoc, List.take_left]
  have hdrop : (a ++ old ++ b).drop (a.length + old.length) = b := by
    rw [← List.length_append, List.drop_left]
  rw [splice, htake, hdrop]

/-- Parts that are apart can be replaced in any order. -/
theorem splice_comm (a b : List Char) {first last : Nat} (hpart : start ≤ stop) (hapart : stop ≤ first)
    (hother : first ≤ last) (hlast : last ≤ cs.length) :
    splice (splice cs start stop a) (start + a.length + (first - stop))
        (start + a.length + (last - stop)) b =
      splice (splice cs first last b) start stop a := by
  obtain ⟨z, v, y, u, x, rfl, rfl, rfl, rfl, rfl⟩ : ∃ z v y u x, cs = x ++ (u ++ (y ++ (v ++ z))) ∧
      start = x.length ∧ stop = x.length + u.length ∧ first = x.length + u.length + y.length ∧
      last = x.length + u.length + y.length + v.length := by
    refine ⟨cs.drop last, (cs.drop first).take (last - first), (cs.drop stop).take (first - stop),
      (cs.drop start).take (stop - start), cs.take start, ?_, ?_, ?_, ?_, ?_⟩
    · have hjoin : ∀ {i j : Nat}, i ≤ j → (cs.drop i).take (j - i) ++ cs.drop j = cs.drop i := by
        intro i j h
        obtain ⟨k, rfl⟩ := Nat.exists_eq_add_of_le h
        rw [Nat.add_sub_cancel_left, ← List.drop_drop, List.take_append_drop]
      rw [hjoin hother, hjoin hapart, hjoin hpart, List.take_append_drop]
    all_goals simp only [List.length_take, List.length_drop]; omega
  have hfirst := splice_append x u (y ++ (v ++ z)) a
  have hsecond := splice_append (x ++ u ++ y) v z b
  have hfirst' := splice_append x u (y ++ b ++ z) a
  have hsecond' := splice_append (x ++ a ++ y) v z b
  simp only [List.length_append, List.append_assoc, ← Nat.add_assoc] at hfirst hsecond hfirst' hsecond'
  rw [hfirst, hsecond, hfirst', ← hsecond']
  congr 1 <;> omega

/-- What stands in front of a part stays there when the part is replaced. -/
theorem getElem?_splice_before {i : Nat} (h : i < start) (hle : start ≤ cs.length) :
    (splice cs start stop new)[i]? = cs[i]? := by
  have hlength : i < (cs.take start).length := by
    rw [List.length_take]
    omega
  rw [splice, List.append_assoc, List.getElem?_append_left hlength, List.getElem?_take_of_lt h]

/-- What stands behind a part still stands behind it when the part is replaced. -/
theorem getElem?_splice_behind {i : Nat} (hle : start ≤ cs.length) :
    (splice cs start stop new)[start + new.length + i]? = cs[stop + i]? := by
  have hlength : (cs.take start ++ new).length = start + new.length := by
    rw [List.length_append, List.length_take, Nat.min_eq_left hle]
  rw [splice, ← hlength, List.getElem?_append_right (Nat.le_add_right ..), Nat.add_sub_cancel_left,
    List.getElem?_drop]

theorem length_splice (h : start ≤ cs.length) :
    (splice cs start stop new).length = start + new.length + (cs.length - stop) := by
  rw [splice, List.length_append, List.length_append, List.length_take, List.length_drop,
    Nat.min_eq_left h]

theorem slice_splice (h : start ≤ cs.length) :
    slice (splice cs start stop new) start (start + new.length) = new := by
  have hlength : (cs.take start).length = start := by
    rw [List.length_take, Nat.min_eq_left h]
  rw [slice, splice, List.take_left' (by rw [List.length_append, hlength]),
    List.drop_left' hlength]

theorem slice_append_left (h : stop ≤ cs.length) (more : List Char) :
    slice (cs ++ more) start stop = slice cs start stop := by
  rw [slice, slice, List.take_append_of_le_length h]

theorem slice_append_right (front cs : List Char) (start stop : Nat) :
    slice (front ++ cs) (start + front.length) (stop + front.length) = slice cs start stop := by
  rw [slice, slice, Nat.add_comm stop, List.take_length_add_append, Nat.add_comm start,
    ← List.drop_drop, List.drop_left]

theorem slice_between (a b c : List Char) : slice (a ++ b ++ c) a.length (a ++ b).length = b := by
  rw [slice, List.take_left, List.drop_left]

/-! ### Ends of a text -/

theorem dropEndWhile_eq_self {p : Char → Bool} (h : ∀ c, cs.getLast? = some c → p c = false) :
    dropEndWhile p cs = cs := by
  rcases cs.eq_nil_or_concat with rfl | ⟨front, c, rfl⟩
  · rfl
  rw [List.concat_eq_append] at h ⊢
  have hc := h c List.getLast?_concat
  rw [dropEndWhile, List.reverse_concat, List.dropWhile_cons_of_neg (by rw [hc]; exact nofun),
    List.reverse_cons, List.reverse_reverse]

/-- A text is trimmed if no blank character stands at its ends. -/
theorem trim_eq_self (hfirst : ∀ c, cs.head? = some c → isBlank c = false)
    (hlast : ∀ c, cs.getLast? = some c → isBlank c = false) : trim cs = cs := by
  have hstart : trimStart cs = cs := by
    cases cs with
    | nil => rfl
    | cons c cs => rw [trimStart, List.dropWhile_cons_of_neg (by rw [hfirst c rfl]; exact nofun)]
  rw [trim, hstart, trimEnd, dropEndWhile_eq_self hlast]

theorem mem_of_mem_dropEndWhile {p : Char → Bool} {c : Char} (h : c ∈ dropEndWhile p cs) :
    c ∈ cs := by
  rw [dropEndWhile, List.mem_reverse] at h
  exact List.mem_reverse.mp ((List.dropWhile_suffix p).subset h)

theorem mem_of_mem_trim {c : Char} (h : c ∈ trim cs) : c ∈ cs :=
  (List.dropWhile_suffix isBlank).subset (mem_of_mem_dropEndWhile h)

/-- What is dropped at the end of a text, and what the text ends with then. -/
theorem dropEndWhile_append (p : Char → Bool) (cs : List Char) :
    ∃ dropped, cs = dropEndWhile p cs ++ dropped ∧ (∀ c ∈ dropped, p c = true) ∧
      ∀ c, (dropEndWhile p cs).getLast? = some c → p c = false := by
  refine ⟨(cs.reverse.takeWhile p).reverse, ?_, fun c hc => ?_, fun c hc => ?_⟩
  · rw [dropEndWhile, ← List.reverse_append, List.takeWhile_append_dropWhile, List.reverse_reverse]
  · exact List.all_eq_true.mp List.all_takeWhile c (List.mem_reverse.mp hc)
  · rw [dropEndWhile, List.getLast?_reverse] at hc
    have hhead := List.head?_dropWhile_not p cs.reverse
    rw [hc] at hhead
    simpa using hhead

/-- Nothing is left of blanks. -/
theorem trimEnd_eq_nil (h : isAllBlank cs = true) : trimEnd cs = [] := by
  obtain ⟨-, -, -, hlast⟩ := dropEndWhile_append isBlank cs
  refine List.getLast?_eq_none_iff.mp (Option.eq_none_iff_forall_ne_some.mpr fun c hc => ?_)
  have hblank := hlast c hc
  rw [List.all_eq_true.mp h c (mem_of_mem_dropEndWhile (List.mem_of_getLast? hc))] at hblank
  cases hblank

/-! ### Lines -/

/-- The line of a position, up to the position: the text in front of it is empty or ends with a line
feed. -/
theorem take_lineStart (cs : List Char) (position : Nat) :
    ∃ line, cs.take position = cs.take (lineStart cs position) ++ line ∧
      slice cs (lineStart cs position) position = line ∧ '\n' ∉ line ∧
      lineStart cs position ≤ position ∧
      (0 < lineStart cs position → ∃ front, cs.take (lineStart cs position) = front ++ ['\n']) := by
  obtain ⟨line, htake, hline, hlast⟩ := dropEndWhile_append (· != '\n') (cs.take position)
  have hlength := congrArg List.length htake
  rw [List.length_take, List.length_append] at hlength
  have hstart : cs.take (lineStart cs position) = dropEndWhile (· != '\n') (cs.take position) := by
    have hprefix : dropEndWhile (· != '\n') (cs.take position) <+: cs :=
      (List.prefix_append _ line).trans (htake ▸ List.take_prefix ..)
    rw [lineStart, ← List.prefix_iff_eq_take.mp hprefix]
  refine ⟨line, by rw [hstart]; exact htake, ?_, fun h => ?_, ?_, fun hpos => ?_⟩
  · have hdrop : (dropEndWhile (· != '\n') (cs.take position) ++ line).drop (lineStart cs position) =
        line := List.drop_left
    rw [← htake] at hdrop
    exact hdrop
  · exact bne_iff_ne.mp (hline _ h) rfl
  · rw [lineStart]
    omega
  · rcases (dropEndWhile (· != '\n') (cs.take position)).eq_nil_or_concat with hnil | ⟨front, c, hc⟩
    · rw [lineStart, hnil] at hpos
      exact absurd hpos (Nat.lt_irrefl 0)
    · rw [List.concat_eq_append] at hc
      have hfeed := hlast c (by rw [hc, List.getLast?_concat])
      obtain rfl : c = '\n' := by simpa using hfeed
      exact ⟨front, hstart.trans hc⟩

/-- A text without line boundaries is one line. -/
theorem lines_eq_singleton (hne : cs ≠ []) (h : ∀ c ∈ cs, isLineBoundary c = false) :
    lines cs = [cs] := by
  induction cs with
  | nil => exact absurd rfl hne
  | cons c cs ih =>
    obtain ⟨hc, hcs⟩ := List.forall_mem_cons.mp h
    have hreturn : isLineBoundary '\r' = true := by decide
    have hcons : lines (c :: cs) = pushFront c (lines cs) := by
      rw [lines]
      · rw [hc, if_neg Bool.false_ne_true]
      · rintro _ rfl
        rw [hreturn] at hc
        cases hc
    rw [hcons]
    cases cs with
    | nil => rfl
    | cons d cs =>
      rw [ih (List.cons_ne_nil _ _) hcs]
      rfl

/-! ### The first line -/

theorem eq_of_cutAt_eq_none {sep : Char} {front : List Char} (h : cutAt sep cs = (front, none)) :
    front = cs := by
  rw [cutAt] at h
  split at h
  · exact (Prod.mk.inj h).1.symm
  · cases h

theorem eq_of_cutAt_eq_some {sep : Char} {front behind : List Char}
    (h : cutAt sep cs = (front, some behind)) : cs = front ++ sep :: behind := by
  rw [cutAt] at h
  split at h
  · cases h
  · rename_i c rest hdrop
    cases h
    have hc : c = sep := by
      have hhead := List.head?_dropWhile_not (· != sep) cs
      rw [hdrop] at hhead
      simpa using hhead
    rw [← hc, ← hdrop, hc, List.takeWhile_append_dropWhile]

/-- What stands in front of the first separator, and what stands behind it. -/
theorem cutAt_append {sep : Char} {front : List Char} (h : sep ∉ front) (behind : List Char) :
    cutAt sep (front ++ sep :: behind) = (front, some behind) := by
  have hfront : ∀ c ∈ front, (c != sep) = true := fun c hc => bne_iff_ne.mpr fun heq => h (heq ▸ hc)
  rw [cutAt, List.dropWhile_append_of_pos hfront, List.takeWhile_append_of_pos hfront,
    List.dropWhile_cons_of_neg (by simp), List.takeWhile_cons_of_neg (by simp), List.append_nil]

/-! ### Pieces -/

section Pieces

variable {sep : Char} {piece : List Char}

theorem splitAt_eq_singleton (h : sep ∉ piece) : splitAt sep piece = [piece] := by
  induction piece with
  | nil => rfl
  | cons c piece ih =>
    rw [List.mem_cons, not_or] at h
    rw [splitAt, if_neg (Ne.symm h.1), ih h.2, pushFront]

/-- The first piece, and the pieces behind it. -/
theorem splitAt_append (h : sep ∉ piece) (rest : List Char) :
    splitAt sep (piece ++ sep :: rest) = piece :: splitAt sep rest := by
  induction piece with
  | nil => rw [List.nil_append, splitAt, if_pos rfl]
  | cons c piece ih =>
    rw [List.mem_cons, not_or] at h
    rw [List.cons_append, splitAt, if_neg (Ne.symm h.1), ih h.2, pushFront]

theorem splitAt_ne_nil (sep : Char) (cs : List Char) : splitAt sep cs ≠ [] := by
  cases cs with
  | nil => exact List.cons_ne_nil _ _
  | cons c cs =>
    rw [splitAt]
    split
    · exact List.cons_ne_nil _ _
    · unfold pushFront
      split <;> exact List.cons_ne_nil _ _

/-- The last piece is what stands behind the last separator, if there is one. -/
theorem splitAt_last {pieces : List (List Char)} {last : List Char} (h : splitAt sep cs = pieces ++ [last]) :
    sep ∉ last ∧ (pieces = [] → cs = last) ∧ (pieces ≠ [] → ∃ front, cs = front ++ sep :: last) := by
  induction cs generalizing pieces last with
  | nil =>
    have hempty : [] ++ [[]] = pieces ++ [last] := h
    obtain ⟨rfl, hlast⟩ := List.append_inj' hempty rfl
    cases hlast
    exact ⟨List.not_mem_nil, fun _ => rfl, fun hne => absurd rfl hne⟩
  | cons c cs ih =>
    rw [splitAt] at h
    split at h
    · rename_i hc
      cases pieces with
      | nil => exact absurd (List.cons.inj h).2 (splitAt_ne_nil sep cs)
      | cons p ps =>
        obtain ⟨hmem, hsingle, hfront⟩ := ih (List.cons.inj h).2
        refine ⟨hmem, nofun, fun _ => ?_⟩
        by_cases hps : ps = []
        · exact ⟨[], by rw [hc, hsingle hps]; rfl⟩
        · obtain ⟨front, rfl⟩ := hfront hps
          exact ⟨c :: front, rfl⟩
    · rename_i hc
      obtain ⟨line, more, hsplit⟩ := List.exists_cons_of_ne_nil (splitAt_ne_nil sep cs)
      rw [hsplit, pushFront] at h
      cases pieces with
      | nil =>
        obtain ⟨rfl, rfl⟩ := List.cons.inj h
        obtain ⟨hmem, hsingle, -⟩ := @ih [] _ hsplit
        exact ⟨by simp [hmem, Ne.symm hc], fun _ => by rw [hsingle rfl], fun hne => absurd rfl hne⟩
      | cons p ps =>
        have hpieces : splitAt sep cs = (line :: ps) ++ [last] := hsplit.trans (by rw [(List.cons.inj h).2]; rfl)
        obtain ⟨hmem, -, hfront⟩ := ih hpieces
        obtain ⟨front, rfl⟩ := hfront (List.cons_ne_nil _ _)
        exact ⟨hmem, nofun, fun _ => ⟨c :: front, rfl⟩⟩

theorem afterLast_append (h : sep ∉ piece) (front : List Char) : afterLast sep (front ++ sep :: piece) = piece := by
  have hall : ∀ c ∈ piece.reverse, (c != sep) = true := fun c hc =>
    bne_iff_ne.mpr fun heq => h (heq ▸ List.mem_reverse.mp hc)
  rw [afterLast, List.reverse_append, List.reverse_cons, List.append_assoc, List.takeWhile_append_of_pos hall]
  simp

/-- What stands behind the last separator of a text is the last piece of any end of it that holds one. -/
theorem afterLast_of_suffix {pieces : List (List Char)} {text last : List Char}
    (h : splitAt sep cs = pieces ++ [last]) (hne : pieces ≠ []) (hsuffix : cs <:+ text) :
    afterLast sep text = last := by
  obtain ⟨hlast, -, hfront⟩ := splitAt_last h
  obtain ⟨front, rfl⟩ := hfront hne
  obtain ⟨before, rfl⟩ := hsuffix
  rw [← List.append_assoc]
  exact afterLast_append hlast _

end Pieces

end ContractSync.Text

/-!
## Lines of a text

A line feed ends a line whatever stands in front of it: **the lines of a text are those up to a line feed
and those behind it** (`lines_append_feed`), and a line feed at the end of a text adds one empty line at most
(`lines_feed`).
-/

namespace ContractSync.Text

theorem lines_cons_feed (rest : List Char) : lines ('\n' :: rest) = [] :: lines rest := by
  have hfeed : isLineBoundary '\n' = true := by decide
  rw [lines, hfeed, if_pos rfl]
  rintro _ ⟨⟩

/-- A first line without boundaries in it. -/
theorem lines_line {line : List Char} (h : ∀ c ∈ line, isLineBoundary c = false) (rest : List Char) :
    lines (line ++ '\n' :: rest) = line :: lines rest := by
  induction line with
  | nil => exact lines_cons_feed rest
  | cons c line ih =>
    obtain ⟨hc, hline⟩ := List.forall_mem_cons.mp h
    have hreturn : isLineBoundary '\r' = true := by decide
    rw [List.cons_append, lines]
    · rw [hc, if_neg Bool.false_ne_true, ih hline, pushFront]
    · rintro _ rfl
      rw [hreturn] at hc
      cases hc

theorem pushFront_append {c : Char} {before : List (List Char)} (h : before ≠ [])
    (behind : List (List Char)) : pushFront c (before ++ behind) = pushFront c before ++ behind := by
  cases before with
  | nil => exact absurd rfl h
  | cons line before => rfl

theorem lines_ne_nil {cs : List Char} (h : cs ≠ []) : lines cs ≠ [] := by
  fun_cases lines cs with
  | case1 => exact absurd rfl h
  | case2 rest => exact List.cons_ne_nil _ _
  | case3 c rest _ hboundary => exact List.cons_ne_nil _ _
  | case4 c rest _ hboundary =>
    cases lines rest with
    | nil => exact List.cons_ne_nil _ _
    | cons line others => exact List.cons_ne_nil _ _

/-- A line feed behind a carriage return belongs to it; in front of all else the lines are as they are. -/
theorem lines_cons_feed_append {c : Char} {rest behind : List Char}
    (hreturn : ∀ more, c = '\r' → rest = '\n' :: more → False)
    (ih : lines (rest ++ '\n' :: behind) = lines (rest ++ ['\n']) ++ lines behind) :
    lines (c :: rest ++ '\n' :: behind) = lines (c :: rest ++ ['\n']) ++ lines behind := by
  by_cases hfirst : c = '\r' ∧ rest = []
  · obtain ⟨rfl, rfl⟩ := hfirst
    rfl
  have hplain : ∀ tail more, c = '\r' → rest ++ '\n' :: tail = '\n' :: more → False := by
    rintro tail more rfl hmore
    cases rest with
    | nil => exact hfirst ⟨rfl, rfl⟩
    | cons d rest =>
      obtain ⟨rfl, -⟩ := List.cons.inj hmore
      exact hreturn rest rfl rfl
  have hne : lines (rest ++ ['\n']) ≠ [] := lines_ne_nil (List.append_ne_nil_of_right_ne_nil _ (List.cons_ne_nil _ _))
  rw [List.cons_append, List.cons_append, lines, lines, ih]
  · split
    · rfl
    · exact pushFront_append hne _
  · exact hplain []
  · exact hplain behind

/-- **A text is cut at a line feed.** -/
theorem lines_append_feed (front behind : List Char) :
    lines (front ++ '\n' :: behind) = lines (front ++ ['\n']) ++ lines behind := by
  fun_induction lines front with
  | case1 => exact lines_cons_feed behind
  | case2 rest ih =>
    rw [List.cons_append, List.cons_append, lines, List.cons_append, List.cons_append, lines, ih]
    rfl
  | case3 c rest hreturn _ ih => exact lines_cons_feed_append hreturn ih
  | case4 c rest hreturn _ ih => exact lines_cons_feed_append hreturn ih

/-- A line feed ends the last line of a text, or is an empty line behind it. -/
theorem lines_feed (cs : List Char) :
    lines (cs ++ ['\n']) = lines cs ∨ lines (cs ++ ['\n']) = lines cs ++ [[]] := by
  fun_induction lines cs with
  | case1 => exact .inr rfl
  | case2 rest ih =>
    rw [List.cons_append, List.cons_append, lines, List.cons_append]
    exact ih.imp (congrArg ([] :: ·)) (congrArg ([] :: ·))
  | case3 c rest hreturn hboundary ih =>
    by_cases hfirst : c = '\r' ∧ rest = []
    · obtain ⟨rfl, rfl⟩ := hfirst
      exact .inl rfl
    rw [List.cons_append, lines, if_pos hboundary]
    · exact ih.imp (congrArg ([] :: ·)) (congrArg ([] :: ·))
    · rintro more rfl hmore
      cases rest with
      | nil => exact hfirst ⟨rfl, rfl⟩
      | cons d rest =>
        obtain ⟨rfl, -⟩ := List.cons.inj hmore
        exact hreturn rest rfl rfl
  | case4 c rest hreturn hboundary ih =>
    have hplain : ∀ more, c = '\r' → rest ++ ['\n'] = '\n' :: more → False := by
      rintro more rfl -
      exact hboundary (by decide)
    rw [List.cons_append, lines, if_neg hboundary]
    · cases rest with
      | nil => exact .inl rfl
      | cons d rest =>
        refine ih.imp (congrArg (pushFront c)) fun hempty => ?_
        rw [hempty, pushFront_append (lines_ne_nil (List.cons_ne_nil d rest))]
    · exact hplain

end ContractSync.Text
