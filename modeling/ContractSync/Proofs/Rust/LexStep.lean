import ContractSync.Proofs.Text.Ranges
import ContractSync.Rust.Lexer

/-!
# What a step of the lexer looks at

A step takes some characters of the text and leaves the rest. It looks at the rest as well, but only
to see that what it takes does not go on: **a step is the same before another rest that goes on
nothing the first rest does not** (`step_congr`, `Quieter`). A rest that begins with the same letters
is such a rest (`Quieter.of_append`), and so is one that begins with a separator (`Quieter.of_calm`).
-/

namespace ContractSync.Rust.Lexer

open ContractSync.Text (isBlank isDigit)

/-! ### The first character of a text in two parts -/

theorem startsWith_append {p : Char → Bool} {w r : List Char} (h : w ≠ []) :
    startsWith p (w ++ r) = startsWith p w := by
  cases w with
  | nil => exact absurd rfl h
  | cons c w => rfl

theorem startsWith_append_mono {p : Char → Bool} {w r r' : List Char}
    (hq : startsWith p r' = true → startsWith p r = true) (h : startsWith p (w ++ r') = true) :
    startsWith p (w ++ r) = true := by
  cases w with
  | nil => exact hq h
  | cons c w => exact h

/-- What is taken while a property holds is the part `w`. -/
theorem takeWhile_append_length {p : Char → Bool} {w r : List Char} :
    ((w ++ r).takeWhile p).length = w.length ↔
      (∀ c ∈ w, p c = true) ∧ startsWith p r = false := by
  induction w with
  | nil =>
    cases r with
    | nil => simp [startsWith]
    | cons c r => cases hc : p c <;> simp [startsWith, hc]
  | cons c w ih => cases hc : p c <;> simp [hc, ih]

theorem takeWhile_length_congr {p : Char → Bool} {w r r' : List Char}
    (hq : startsWith p r' = true → startsWith p r = true)
    (h : ((w ++ r).takeWhile p).length = w.length) :
    ((w ++ r').takeWhile p).length = w.length := by
  rw [takeWhile_append_length] at h ⊢
  refine ⟨h.1, ?_⟩
  rw [← Bool.not_eq_true]
  exact fun h' => absurd (hq h') (by simp [h.2])

/-! ### Texts that end somewhere -/

theorem map_add_eq_some {o : Option Nat} {n k : Nat} :
    o.map (· + k) = some (n + k) ↔ o = some n := by
  cases o with
  | none => simp
  | some m => simp

theorem commentLength_cons_cons (depth : Nat) (c d : Char) (rest : List Char) :
    commentLength depth (c :: d :: rest) =
      if c = '/' ∧ d = '*' then (commentLength (depth + 1) rest).map (· + 2)
      else if c = '*' ∧ d = '/' then
        if depth ≤ 1 then some 2 else (commentLength (depth - 1) rest).map (· + 2)
      else (commentLength depth (d :: rest)).map (· + 1) := by
  by_cases hopen : c = '/' ∧ d = '*'
  · obtain ⟨rfl, rfl⟩ := hopen
    rfl
  · rw [if_neg hopen]
    by_cases hclose : c = '*' ∧ d = '/'
    · obtain ⟨rfl, rfl⟩ := hclose
      rfl
    · rw [if_neg hclose]
      exact commentLength.eq_3 depth c (d :: rest)
        (fun rest' hc hrest => hopen ⟨hc, (List.cons.inj hrest).1⟩)
        (fun rest' hc hrest => hclose ⟨hc, (List.cons.inj hrest).1⟩)

theorem two_le_commentLength {depth n : Nat} {cs : List Char}
    (h : commentLength depth cs = some n) : 2 ≤ n := by
  fun_induction commentLength depth cs generalizing n with
  | case1 depth rest ih =>
    obtain ⟨m, hm, rfl⟩ := Option.map_eq_some_iff.mp h
    have := ih hm
    omega
  | case2 depth rest hdepth =>
    cases h
    exact Nat.le_refl 2
  | case3 depth rest hdepth ih =>
    obtain ⟨m, hm, rfl⟩ := Option.map_eq_some_iff.mp h
    have := ih hm
    omega
  | case4 depth c rest _ _ ih =>
    obtain ⟨m, hm, rfl⟩ := Option.map_eq_some_iff.mp h
    have := ih hm
    omega
  | case5 => cases h

theorem commentLength_congr {depth : Nat} {w r r' : List Char}
    (h : commentLength depth (w ++ r) = some w.length) :
    commentLength depth (w ++ r') = some w.length := by
  match w with
  | [] => exact absurd (two_le_commentLength h) (by simp)
  | [c] => exact absurd (two_le_commentLength h) (by simp)
  | c :: d :: w =>
    simp only [List.cons_append, List.length_cons, commentLength_cons_cons] at h ⊢
    split at h
    · rename_i hopen
      rw [if_pos hopen, commentLength_congr (map_add_eq_some.mp h)]
      rfl
    · rename_i hopen
      rw [if_neg hopen]
      split at h
      · rename_i hclose
        rw [if_pos hclose]
        split at h
        · rename_i hdepth
          rw [if_pos hdepth]
          exact h
        · rename_i hdepth
          rw [if_neg hdepth, commentLength_congr (map_add_eq_some.mp h)]
          rfl
      · rename_i hclose
        have hrest : commentLength depth ((d :: w) ++ r) = some (d :: w).length :=
          map_add_eq_some.mp h
        rw [if_neg hclose, ← List.cons_append, commentLength_congr hrest]
        rfl
termination_by w.length

theorem quotedLength_cons (quote c : Char) (rest : List Char) :
    quotedLength quote (c :: rest) =
      if c = '\\' then
        match rest with
        | [] => none
        | _ :: rest => (quotedLength quote rest).map (· + 2)
      else if c = quote then some 1 else (quotedLength quote rest).map (· + 1) := by
  by_cases hc : c = '\\'
  · rw [hc, if_pos rfl]
    cases rest <;> rfl
  · rw [if_neg hc]
    exact quotedLength.eq_4 quote c rest (fun h => hc h)

theorem one_le_quotedLength {quote : Char} {n : Nat} {cs : List Char}
    (h : quotedLength quote cs = some n) : 1 ≤ n := by
  cases cs with
  | nil => cases h
  | cons c rest =>
    rw [quotedLength_cons] at h
    split at h
    · split at h
      · cases h
      · obtain ⟨m, -, rfl⟩ := Option.map_eq_some_iff.mp h
        omega
    · split at h
      · cases h
        exact Nat.le_refl 1
      · obtain ⟨m, -, rfl⟩ := Option.map_eq_some_iff.mp h
        omega

theorem quotedLength_congr {quote : Char} {w r r' : List Char}
    (h : quotedLength quote (w ++ r) = some w.length) :
    quotedLength quote (w ++ r') = some w.length := by
  match w with
  | [] => exact absurd (one_le_quotedLength h) (by simp)
  | [c] =>
    simp only [List.cons_append, List.nil_append, List.length_cons, quotedLength_cons] at h ⊢
    split at h
    · -- a backslash would have taken one more character along
      cases r with
      | nil => cases h
      | cons x r =>
        obtain ⟨m, -, hm⟩ := Option.map_eq_some_iff.mp h
        simp at hm
    · rename_i hc
      rw [if_neg hc]
      split at h
      · rename_i hquote
        rw [if_pos hquote]
        exact h
      · exact absurd (one_le_quotedLength (map_add_eq_some.mp h)) (by simp)
  | c :: x :: w =>
    rw [List.cons_append, quotedLength_cons] at h ⊢
    split at h
    · rename_i hc
      rw [if_pos hc]
      have hrest : quotedLength quote (w ++ r) = some w.length := map_add_eq_some.mp h
      simp only [List.cons_append, quotedLength_congr hrest]
      rfl
    · rename_i hc
      rw [if_neg hc]
      split at h
      · cases h
      · rename_i hquote
        have hrest : quotedLength quote ((x :: w) ++ r) = some (x :: w).length :=
          map_add_eq_some.mp h
        rw [if_neg hquote, quotedLength_congr hrest]
        rfl
termination_by w.length

theorem lt_rawLength {hashes n : Nat} {cs : List Char} (h : rawLength hashes cs = some n) :
    hashes < n := by
  fun_induction rawLength hashes cs generalizing n with
  | case1 => cases h
  | case2 c rest _ =>
    cases h
    omega
  | case3 c rest _ ih =>
    obtain ⟨m, hm, rfl⟩ := Option.map_eq_some_iff.mp h
    have := ih hm
    omega

theorem isPrefixOf_append_congr {p w r r' : List Char} (hlen : p.length ≤ w.length) :
    p.isPrefixOf (w ++ r) = p.isPrefixOf (w ++ r') := by
  have hin : ∀ r, p <+: w ++ r ↔ p <+: w := fun r =>
    ⟨fun h => List.prefix_of_prefix_length_le h (List.prefix_append w r) hlen,
      List.prefix_append_of_prefix⟩
  rw [Bool.eq_iff_iff, List.isPrefixOf_iff_prefix, List.isPrefixOf_iff_prefix, hin, hin]

theorem rawLength_congr {hashes : Nat} {w r r' : List Char}
    (h : rawLength hashes (w ++ r) = some w.length) :
    rawLength hashes (w ++ r') = some w.length := by
  induction w with
  | nil => exact absurd (lt_rawLength h) (by simp)
  | cons c w ih =>
    have hlong : hashes < w.length + 1 := lt_rawLength h
    simp only [List.cons_append, List.length_cons, rawLength] at h ⊢
    rw [isPrefixOf_append_congr (by rw [List.length_replicate]; exact Nat.le_of_lt_succ hlong)] at h
    split at h
    · rename_i hend
      rw [if_pos hend]
      exact h
    · rename_i hend
      rw [if_neg hend, ih (map_add_eq_some.mp h)]
      rfl

theorem isIdentChar_of_isDigit {c : Char} (h : isDigit c = true) : isIdentChar c = true := by
  simp [isIdentChar, Text.isAlphanumeric_of_isDigit h]

theorem startsWith_mono {p q : Char → Bool} (hpq : ∀ c, p c = true → q c = true) {cs : List Char}
    (h : startsWith p cs = true) : startsWith q cs = true := by
  cases cs with
  | nil => cases h
  | cons c cs => exact hpq c h

theorem numberLength_eq_zero_iff {cs : List Char} :
    numberLength cs = 0 ↔ startsWith isIdentChar cs = false ∧
      ¬ (startsWith (· == '.') cs = true ∧ startsWith isDigit (cs.drop 1) = true) := by
  cases cs with
  | nil => simp [numberLength, startsWith]
  | cons c cs => simp [numberLength, startsWith]

theorem numberLength_congr {w r r' : List Char}
    (hident : startsWith isIdentChar r' = true → startsWith isIdentChar r = true)
    (hpoint : startsWith (· == '.') r' = true ∧ startsWith isDigit (r'.drop 1) = true →
      startsWith (· == '.') r = true ∧ startsWith isDigit (r.drop 1) = true)
    (h : numberLength (w ++ r) = w.length) : numberLength (w ++ r') = w.length := by
  induction w with
  | nil =>
    rw [List.nil_append, List.length_nil, numberLength_eq_zero_iff] at h ⊢
    refine ⟨?_, fun h' => h.2 (hpoint h')⟩
    rw [← Bool.not_eq_true]
    exact fun h' => absurd h.1 (by rw [hident h']; simp)
  | cons c w ih =>
    simp only [List.cons_append, numberLength, List.length_cons] at h ⊢
    split at h
    · rename_i hc
      have hrest : numberLength (w ++ r) = w.length := by omega
      have hdigit : startsWith isDigit (w ++ r) = true → startsWith isDigit (w ++ r') = true := by
        intro hd
        cases w with
        | nil =>
          -- the digit behind the point would have been taken
          have := (numberLength_eq_zero_iff.mp hrest).1
          rw [startsWith_mono (fun _ => isIdentChar_of_isDigit) hd] at this
          cases this
        | cons d w => exact hd
      rw [if_pos, ih hrest]
      rw [Bool.or_eq_true, Bool.and_eq_true] at hc ⊢
      exact hc.imp_right fun hc => ⟨hc.1, hdigit hc.2⟩
    · omega

/-! ### Raw strings -/

theorem rawHashes_cons (c : Char) (cs : List Char) :
    rawHashes (c :: cs) =
      if c = '#' then (rawHashes cs).map (· + 1) else if c = '"' then some 0 else none := by
  by_cases hc : c = '#'
  · subst hc
    simp only [rawHashes, List.dropWhile_cons, List.takeWhile_cons, beq_self_eq_true, if_true]
    split
    · rfl
    · rfl
  · by_cases hq : c = '"'
    · simp [rawHashes, hq, startsWith]
    · simp [rawHashes, hc, hq, startsWith]

theorem rawHashes_congr {w r r' : List Char} {n : Nat} (h : rawHashes (w ++ r) = some n)
    (hn : n < w.length) : rawHashes (w ++ r') = some n := by
  induction w generalizing n with
  | nil => exact absurd hn (Nat.not_lt_zero n)
  | cons c w ih =>
    rw [List.cons_append, rawHashes_cons] at h ⊢
    split at h
    · rename_i hc
      obtain ⟨m, hm, rfl⟩ := Option.map_eq_some_iff.mp h
      rw [if_pos hc, ih hm (by simpa using hn)]
      rfl
    · rename_i hc
      rw [if_neg hc]
      exact h

theorem rawHashes_eq_none_congr {w r r' : List Char}
    (hq : rawHashes r = none → rawHashes r' = none) (h : rawHashes (w ++ r) = none) :
    rawHashes (w ++ r') = none := by
  induction w with
  | nil => exact hq h
  | cons c w ih =>
    rw [List.cons_append, rawHashes_cons] at h ⊢
    split at h
    · rename_i hc
      rw [if_pos hc, ih (Option.map_eq_none_iff.mp h)]
      rfl
    · rename_i hc
      rw [if_neg hc]
      exact h

theorem rawMarker_congr {c : Char} {w r r' : List Char} {hashes marker : Nat}
    (h : rawMarker c (w ++ r) = some (hashes, marker)) (hw : marker < w.length) :
    rawMarker c (w ++ r') = some (hashes, marker) := by
  unfold rawMarker at h ⊢
  split at h
  · rename_i hc
    obtain ⟨n, hn, hmarker⟩ := Option.map_eq_some_iff.mp h
    cases hmarker
    rw [if_pos hc, rawHashes_congr hn (by omega)]
    rfl
  · rename_i hc
    rw [if_neg hc]
    cases w with
    | nil => exact absurd hw (Nat.not_lt_zero _)
    | cons d w =>
      simp only [List.cons_append] at h ⊢
      split at h
      · rename_i rest heq
        cases heq
        obtain ⟨n, hn, hmarker⟩ := Option.map_eq_some_iff.mp h
        cases hmarker
        show (rawHashes (w ++ r')).map (fun n => (n, n + 2)) = _
        rw [rawHashes_congr hn (by simp at hw; omega)]
        rfl
      · cases h

/-! ### A step before another rest -/

/-- The second rest goes on nothing that the first rest does not, be it a pair with the character `c`. -/
structure Quieter (c : Char) (r r' : List Char) : Prop where
  ident : startsWith isIdentChar r' = true → startsWith isIdentChar r = true
  quote : startsWith (· == '"') r' = true → startsWith (· == '"') r = true
  apostrophe : startsWith (· == '\'') r' = startsWith (· == '\'') r
  star : startsWith (· == '*') r' = true → startsWith (· == '*') r = true
  pair : startsWith (isPair c) r' = true → startsWith (isPair c) r = true
  raw : rawHashes r = none → rawHashes r' = none
  rawIdent : startsWith (· == '#') r' = true ∧ startsWith isIdentStart (r'.drop 1) = true →
    startsWith (· == '#') r = true ∧ startsWith isIdentStart (r.drop 1) = true
  point : startsWith (· == '.') r' = true ∧ startsWith isDigit (r'.drop 1) = true →
    startsWith (· == '.') r = true ∧ startsWith isDigit (r.drop 1) = true

theorem literal_eq_ok {skip n : Nat} {problem : Problem} {kind : Option TokenKind}
    {length : Option Nat} :
    literal skip problem length = .ok ⟨kind, n⟩ ↔
      kind = some .literal ∧ ∃ m, length = some m ∧ n = skip + m := by
  cases length with
  | none => simp [literal]
  | some m =>
    simp only [literal, Except.ok.injEq, Step.mk.injEq, Option.some.injEq, exists_eq_left']
    exact and_congr eq_comm eq_comm

/-- A quoted literal whose opening quote stands first in `w`. -/
theorem literal_congr {problem : Problem} {quote : Char} {w r : List Char}
    {kind : Option TokenKind}
    (h : literal 1 problem (quotedLength quote ((w ++ r).drop 1)) = .ok ⟨kind, w.length⟩)
    (r' : List Char) :
    w ≠ [] ∧
      literal 1 problem (quotedLength quote ((w ++ r').drop 1)) = .ok ⟨kind, w.length⟩ := by
  rw [literal_eq_ok] at h
  obtain ⟨hkind, m, hm, hlen⟩ := h
  cases w with
  | nil => simp at hlen; omega
  | cons c w =>
    obtain rfl : m = w.length := by simp at hlen; omega
    refine ⟨List.cons_ne_nil c w, literal_eq_ok.mpr ⟨hkind, w.length, ?_, hlen⟩⟩
    exact quotedLength_congr hm

theorem isIdentChar_of_isIdentStart {c : Char} (h : isIdentStart c = true) :
    isIdentChar c = true := by
  rw [isIdentStart, Bool.or_eq_true] at h
  rw [isIdentChar, Bool.or_eq_true]
  exact h.imp_right Text.isAlphanumeric_of_isLetter

theorem identLength_pos {cs : List Char} (h : startsWith isIdentStart cs = true) :
    0 < identLength cs := by
  cases cs with
  | nil => cases h
  | cons c cs =>
    have hc : isIdentChar c = true := isIdentChar_of_isIdentStart h
    simp [identLength, hc]

theorem quoteOrLifetime_congr {c : Char} {w r r' : List Char} {kind : Option TokenKind}
    (h : quoteOrLifetime (w ++ r) = .ok ⟨kind, w.length⟩) (hq : Quieter c r r') :
    quoteOrLifetime (w ++ r') = .ok ⟨kind, w.length⟩ := by
  unfold quoteOrLifetime at h ⊢
  cases w with
  | nil =>
    exfalso
    split at h
    · obtain ⟨-, m, hm, hlen⟩ := literal_eq_ok.mp h
      have := one_le_quotedLength hm
      simp at hlen
      omega
    · split at h
      · rename_i hstart
        have := identLength_pos hstart
        simp only [Except.ok.injEq, Step.mk.injEq, List.length_nil] at h
        omega
      · cases h
  | cons x w =>
    have hsecond : startsWith (· == '\'') (w ++ r') = startsWith (· == '\'') (w ++ r) := by
      cases w with
      | nil => exact hq.apostrophe
      | cons y w => rfl
    have hcond : (startsWith (· == '\\') (x :: w ++ r') ||
        startsWith (· == '\'') ((x :: w ++ r').drop 1)) =
        (startsWith (· == '\\') (x :: w ++ r) ||
          startsWith (· == '\'') ((x :: w ++ r).drop 1)) :=
      congrArg (startsWith (· == '\\') (x :: w) || ·) hsecond
    rw [hcond]
    split at h
    · rename_i hquoted
      rw [if_pos hquoted]
      obtain ⟨hkind, m, hm, hlen⟩ := literal_eq_ok.mp h
      obtain rfl : m = (x :: w).length := by omega
      exact literal_eq_ok.mpr ⟨hkind, _, quotedLength_congr hm, hlen⟩
    · rename_i hquoted
      rw [if_neg hquoted]
      split at h
      · rename_i hstart
        have hstart' : startsWith isIdentStart (x :: w ++ r') = true := hstart
        rw [if_pos hstart']
        simp only [Except.ok.injEq, Step.mk.injEq] at h ⊢
        exact ⟨h.1, takeWhile_length_congr hq.ident h.2⟩
      · cases h

/-- The step of a comment up to the end of its line. -/
theorem lineComment_congr {w r r' : List Char} (h : startsWith (· == '/') (w ++ r) = true)
    (hlen : ((w ++ r).takeWhile (· != '\n')).length = w.length)
    (hline : startsWith (· != '\n') r' = true → startsWith (· != '\n') r = true) :
    startsWith (· == '/') (w ++ r') = true ∧
      ((w ++ r').takeWhile (· != '\n')).length = w.length := by
  refine ⟨?_, takeWhile_length_congr hline hlen⟩
  cases w with
  | nil =>
    exfalso
    cases r with
    | nil => cases h
    | cons x r =>
      obtain rfl : x = '/' := beq_iff_eq.mp h
      simp at hlen
  | cons x w => exact h

/-- The step of a raw string. -/
theorem rawString_congr {hashes marker n : Nat} {w r r' : List Char}
    (h : rawLength hashes ((w ++ r).drop marker) = some n) (hlen : w.length = marker + n) :
    rawLength hashes ((w ++ r').drop marker) = some n := by
  have hdrop : ∀ r, (w ++ r).drop marker = w.drop marker ++ r := fun r =>
    List.drop_append_of_le_length (by omega)
  obtain rfl : n = (w.drop marker).length := by rw [List.length_drop]; omega
  rw [hdrop] at h ⊢
  exact rawLength_congr h

/-- The step of a block comment. -/
theorem blockComment_congr {w r : List Char} {n : Nat}
    (h : commentLength 1 ((w ++ r).drop 1) = some n) (hlen : w.length = n + 1) (r' : List Char) :
    startsWith (· == '*') (w ++ r') = startsWith (· == '*') (w ++ r) ∧
      commentLength 1 ((w ++ r').drop 1) = some n := by
  cases w with
  | nil => simp at hlen
  | cons x w =>
    obtain rfl : n = w.length := by simpa using hlen.symm
    exact ⟨rfl, commentLength_congr h⟩

/-- A marker that is none before one rest is none before a quieter one, if the letter `c` alone does
not go on as an identifier. -/
theorem rawMarker_eq_none_congr {c : Char} {w r r' : List Char}
    (h : rawMarker c (w ++ r) = none) (hq : Quieter c r r')
    (hend : c = 'b' → w = [] → startsWith isIdentChar r = false) :
    rawMarker c (w ++ r') = none := by
  unfold rawMarker at h ⊢
  split at h
  · rename_i hc
    rw [if_pos hc, rawHashes_eq_none_congr hq.raw (Option.map_eq_none_iff.mp h)]
    rfl
  · rename_i hc
    rw [if_neg hc]
    split
    · rename_i rest heq
      cases w with
      | nil =>
        exfalso
        have hident : startsWith isIdentChar r' = true := by
          rw [← List.nil_append r', heq]
          exact (by decide : isIdentChar 'r' = true)
        have hnot := hend rfl rfl
        rw [hq.ident hident] at hnot
        cases hnot
      | cons x w =>
        cases heq
        show (rawHashes (w ++ r')).map (fun n => (n, n + 2)) = none
        rw [rawHashes_eq_none_congr hq.raw (Option.map_eq_none_iff.mp h)]
        rfl
    · rfl

/-- The step of a raw identifier. -/
theorem rawIdent_congr {c : Char} {w r r' : List Char} (hstart : startsWith (· == '#') (w ++ r) = true)
    (hident : startsWith isIdentStart ((w ++ r).drop 1) = true)
    (hlen : 1 + identLength ((w ++ r).drop 1) = w.length) (hq : Quieter c r r') :
    startsWith (· == '#') (w ++ r') = true ∧
      startsWith isIdentStart ((w ++ r').drop 1) = true ∧
      1 + identLength ((w ++ r').drop 1) = w.length := by
  cases w with
  | nil => simp at hlen
  | cons x w =>
    have hlen' : identLength (w ++ r) = w.length := by
      rw [List.length_cons, Nat.add_comm] at hlen
      exact Nat.add_right_cancel hlen
    have hne : w ≠ [] := by
      rintro rfl
      have := identLength_pos hident
      simp at this hlen'
      omega
    refine ⟨hstart, ?_, ?_⟩
    · exact (startsWith_append hne).trans ((startsWith_append hne).symm.trans hident)
    · show 1 + identLength (w ++ r') = _
      rw [identLength, takeWhile_length_congr hq.ident hlen', List.length_cons, Nat.add_comm]

/-- What is no raw identifier before one rest is none before a quieter one. -/
theorem not_rawIdent_congr {c : Char} {w r r' : List Char}
    (h : ¬ (startsWith (· == '#') (w ++ r) = true ∧
      startsWith isIdentStart ((w ++ r).drop 1) = true))
    (hlen : identLength (w ++ r) = w.length) (hq : Quieter c r r') :
    ¬ (startsWith (· == '#') (w ++ r') = true ∧
      startsWith isIdentStart ((w ++ r').drop 1) = true) := by
  cases w with
  | nil => exact fun h' => h (hq.rawIdent h')
  | cons x w =>
    rintro ⟨hx, -⟩
    obtain rfl : x = '#' := beq_iff_eq.mp hx
    have hchar := (takeWhile_append_length.mp hlen).1 '#' List.mem_cons_self
    exact absurd hchar (by decide +kernel)

theorem punct_congr {c : Char} {w r r' : List Char} (hq : Quieter c r r')
    (hlen : (if startsWith (isPair c) (w ++ r) = true then 1 else 0) = w.length) :
    (if startsWith (isPair c) (w ++ r') = true then 1 else 0) = w.length := by
  cases w with
  | nil =>
    rw [List.nil_append] at hlen ⊢
    split at hlen
    · cases hlen
    · rename_i hpair
      rw [if_neg fun h' => hpair (hq.pair h')]
      rfl
  | cons x w => exact hlen

theorem tokenStep_congr {c : Char} {w r r' : List Char} {kind : Option TokenKind}
    (h : tokenStep c (w ++ r) = .ok ⟨kind, w.length⟩) (hq : Quieter c r r') :
    tokenStep c (w ++ r') = .ok ⟨kind, w.length⟩ := by
  unfold tokenStep at h ⊢
  cases hm : rawMarker c (w ++ r) with
  | some found =>
    obtain ⟨hashes, marker⟩ := found
    simp only [hm] at h
    split at h
    · rename_i n hn
      simp only [Except.ok.injEq, Step.mk.injEq] at h
      have hlt := lt_rawLength hn
      rw [rawMarker_congr hm (by omega)]
      simp only [rawString_congr hn h.2.symm, h]
    · cases h
  | none =>
    simp only [hm] at h
    have hend : c = 'b' → w = [] → startsWith isIdentChar r = false := by
      rintro rfl rfl
      split at h
      · exact absurd rfl (literal_congr (w := []) h r').1
      split at h
      · exact absurd rfl (literal_congr (w := []) h r').1
      rw [if_neg (fun h => absurd h.1 (by decide)), if_pos (by decide)] at h
      simp only [Except.ok.injEq, Step.mk.injEq] at h
      exact (takeWhile_append_length.mp h.2).2
    rw [rawMarker_eq_none_congr hm hq hend]
    simp only
    by_cases hb : c = 'b' ∧ startsWith (· == '"') (w ++ r) = true
    · rw [if_pos hb] at h
      obtain ⟨hne, hliteral⟩ := literal_congr h r'
      rw [startsWith_append hne] at hb
      rw [if_pos ⟨hb.1, (startsWith_append hne).trans hb.2⟩, hliteral]
    have hb' : ¬ (c = 'b' ∧ startsWith (· == '"') (w ++ r') = true) := fun h' =>
      hb ⟨h'.1, startsWith_append_mono hq.quote h'.2⟩
    rw [if_neg hb] at h
    rw [if_neg hb']
    by_cases hbyte : c = 'b' ∧ startsWith (· == '\'') (w ++ r) = true
    · rw [if_pos hbyte] at h
      obtain ⟨hne, hliteral⟩ := literal_congr h r'
      rw [startsWith_append hne] at hbyte
      rw [if_pos ⟨hbyte.1, (startsWith_append hne).trans hbyte.2⟩, hliteral]
    have hbyte' : ¬ (c = 'b' ∧ startsWith (· == '\'') (w ++ r') = true) := fun h' =>
      hbyte ⟨h'.1, startsWith_append_mono (hq.apostrophe.symm ▸ id) h'.2⟩
    rw [if_neg hbyte] at h
    rw [if_neg hbyte']
    by_cases hraw : c = 'r' ∧ startsWith (· == '#') (w ++ r) = true ∧
        startsWith isIdentStart ((w ++ r).drop 1) = true
    · rw [if_pos hraw] at h
      simp only [Except.ok.injEq, Step.mk.injEq] at h
      obtain ⟨hstart, hident, hlen⟩ := rawIdent_congr hraw.2.1 hraw.2.2 h.2 hq
      rw [if_pos ⟨hraw.1, hstart, hident⟩, hlen, h.1]
    rw [if_neg hraw] at h
    have hraw' : ¬ (c = 'r' ∧ startsWith (· == '#') (w ++ r') = true ∧
        startsWith isIdentStart ((w ++ r').drop 1) = true) := by
      rintro ⟨rfl, h'⟩
      rw [if_pos (by decide)] at h
      simp only [Except.ok.injEq, Step.mk.injEq] at h
      exact not_rawIdent_congr (fun hr => hraw ⟨rfl, hr⟩) h.2 hq h'
    rw [if_neg hraw']
    split at h
    · rename_i hident
      rw [if_pos hident]
      simp only [Except.ok.injEq, Step.mk.injEq] at h ⊢
      exact ⟨h.1, takeWhile_length_congr hq.ident h.2⟩
    rename_i hident
    rw [if_neg hident]
    split at h
    · rename_i hquote
      rw [if_pos hquote]
      obtain ⟨hkind, m, hm, hlen⟩ := literal_eq_ok.mp h
      obtain rfl : m = w.length := by omega
      exact literal_eq_ok.mpr ⟨hkind, _, quotedLength_congr hm, hlen⟩
    rename_i hquote
    rw [if_neg hquote]
    split at h
    · rename_i hapostrophe
      rw [if_pos hapostrophe]
      exact quoteOrLifetime_congr h hq
    rename_i hapostrophe
    rw [if_neg hapostrophe]
    split at h
    · rename_i hdigit
      rw [if_pos hdigit]
      simp only [Except.ok.injEq, Step.mk.injEq] at h ⊢
      exact ⟨h.1, numberLength_congr hq.ident hq.point h.2⟩
    · rename_i hdigit
      rw [if_neg hdigit]
      simp only [Except.ok.injEq, Step.mk.injEq] at h ⊢
      exact ⟨h.1, punct_congr hq h.2⟩

/-- A step is the same before a quieter rest. A lone slash must not meet another one, and a comment up
to the end of its line needs that end. -/
theorem step_congr {c : Char} {w r r' : List Char} {kind : Option TokenKind}
    (h : step c (w ++ r) = .ok ⟨kind, w.length⟩) (hq : Quieter c r r')
    (hslash : c = '/' → w = [] → startsWith (· == '/') r' = true →
      startsWith (· == '/') r = true)
    (hline : kind = none → startsWith (· != '\n') r' = true → startsWith (· != '\n') r = true) :
    step c (w ++ r') = .ok ⟨kind, w.length⟩ := by
  unfold step at h ⊢
  by_cases hblank : isBlank c = true
  · rw [if_pos hblank] at h ⊢
    exact h
  rw [if_neg hblank] at h ⊢
  by_cases hlc : c = '/' ∧ startsWith (· == '/') (w ++ r) = true
  · rw [if_pos hlc] at h
    simp only [Except.ok.injEq, Step.mk.injEq] at h
    obtain ⟨hstart, hlen⟩ := lineComment_congr hlc.2 h.2 (hline h.1.symm)
    rw [if_pos ⟨hlc.1, hstart⟩, hlen, ← h.1]
  have hlc' : ¬ (c = '/' ∧ startsWith (· == '/') (w ++ r') = true) := by
    rintro ⟨hc, h'⟩
    cases w with
    | nil => exact hlc ⟨hc, hslash hc rfl h'⟩
    | cons x w => exact hlc ⟨hc, h'⟩
  rw [if_neg hlc] at h
  rw [if_neg hlc']
  by_cases hbc : c = '/' ∧ startsWith (· == '*') (w ++ r) = true
  · rw [if_pos hbc] at h
    split at h
    · rename_i n hn
      simp only [Except.ok.injEq, Step.mk.injEq] at h
      obtain ⟨hstar, hcomment⟩ := blockComment_congr hn h.2.symm r'
      rw [if_pos ⟨hbc.1, hstar.trans hbc.2⟩, hcomment]
      simp only [h]
    · cases h
  have hbc' : ¬ (c = '/' ∧ startsWith (· == '*') (w ++ r') = true) := fun h' =>
    hbc ⟨h'.1, startsWith_append_mono hq.star h'.2⟩
  rw [if_neg hbc] at h
  rw [if_neg hbc']
  exact tokenStep_congr h hq

theorem tokenStep_kind {c : Char} {rest : List Char} {found : Step}
    (h : tokenStep c rest = .ok found) : found.kind ≠ none := by
  have hliteral : ∀ {skip problem length}, literal skip problem length = .ok found →
      found.kind ≠ none := by
    intro skip problem length h
    rw [(literal_eq_ok.mp h).1]
    simp
  unfold tokenStep quoteOrLifetime at h
  split at h
  · split at h
    · cases h
      simp
    · cases h
  split at h
  · exact hliteral h
  split at h
  · exact hliteral h
  split at h
  · cases h
    simp
  split at h
  · cases h
    simp
  split at h
  · exact hliteral h
  split at h
  · split at h
    · exact hliteral h
    split at h
    · cases h
      simp
    · cases h
  split at h
  · cases h
    simp
  · cases h
    simp

/-- What is passed over is passed over before any rest, a comment up to the end of its line only if
that end is there. -/
theorem skip_congr {c : Char} {w r r' : List Char} (h : step c (w ++ r) = .ok ⟨none, w.length⟩)
    (hline : startsWith (· != '\n') r' = true → startsWith (· != '\n') r = true) :
    step c (w ++ r') = .ok ⟨none, w.length⟩ := by
  unfold step at h ⊢
  split at h
  · rename_i hblank
    rw [if_pos hblank]
    exact h
  rename_i hblank
  rw [if_neg hblank]
  split at h
  · rename_i hlc
    simp only [Except.ok.injEq, Step.mk.injEq] at h
    obtain ⟨hstart, hlen⟩ := lineComment_congr hlc.2 h.2 hline
    rw [if_pos ⟨hlc.1, hstart⟩, hlen]
  rename_i hlc
  split at h
  · rename_i hbc
    split at h
    · rename_i n hn
      simp only [Except.ok.injEq, Step.mk.injEq] at h
      obtain ⟨hstar, hcomment⟩ := blockComment_congr hn h.2.symm r'
      have hlc' : ¬ (c = '/' ∧ startsWith (· == '/') (w ++ r') = true) := by
        cases w with
        | nil => cases h.2
        | cons x w => exact hlc
      rw [if_neg hlc', if_pos ⟨hbc.1, hstar.trans hbc.2⟩, hcomment]
      simp only [h]
    · cases h
  · exact absurd rfl (tokenStep_kind h)

/-! ### Quieter rests -/

/-- A character that goes on no token: neither a part of an identifier nor the second character of a
pair, a quote, a hash mark or a point. -/
def isCalm (x : Char) : Bool :=
  !isIdentChar x && !(['"', '\'', '*', '#', '.', ':', '>'].contains x)

/-- The text is empty or begins with a calm character. -/
def Calm (cs : List Char) : Prop := startsWith (fun x => !isCalm x) cs = false

theorem Calm.startsWith_eq_false {p : Char → Bool} {cs : List Char} (h : Calm cs)
    (hp : ∀ x, p x = true → isCalm x = false) : startsWith p cs = false := by
  cases cs with
  | nil => rfl
  | cons x cs =>
    have hx : isCalm x = true := by simpa [Calm, startsWith] using h
    rw [startsWith, ← Bool.not_eq_true]
    intro hpx
    rw [hp x hpx] at hx
    cases hx

theorem not_isCalm_of_mem {x : Char} (h : x ∈ ['"', '\'', '*', '#', '.', ':', '>']) :
    isCalm x = false := by
  simp only [isCalm, List.contains_iff_mem.mpr h, Bool.not_true, Bool.and_false]

theorem not_isCalm_of_isIdentChar {x : Char} (h : isIdentChar x = true) : isCalm x = false := by
  simp [isCalm, h]

theorem isCalm_of_isBlank {x : Char} (h : isBlank x = true) : isCalm x = true := by
  have hident : isIdentChar x = false := by
    rw [isIdentChar, Text.not_isAlphanumeric_of_isBlank h, Bool.or_false]
    exact beq_eq_false_iff_ne.mpr fun e => absurd (e ▸ h) (by decide)
  have hlist : ['"', '\'', '*', '#', '.', ':', '>'].contains x = false := by
    rw [← Bool.not_eq_true, List.contains_iff_mem]
    intro hmem
    have hnone : (['"', '\'', '*', '#', '.', ':', '>'].all fun y => !isBlank y) = true := by
      decide
    have hx := List.all_eq_true.mp hnone x hmem
    rw [h] at hx
    cases hx
  rw [isCalm, hident, hlist]
  rfl

theorem Calm.of_isCalm {x : Char} {cs : List Char} (h : isCalm x = true) : Calm (x :: cs) := by
  rw [Calm, startsWith, h]
  rfl

theorem Calm.of_isBlank {x : Char} {cs : List Char} (h : isBlank x = true) : Calm (x :: cs) :=
  .of_isCalm (isCalm_of_isBlank h)

theorem rawHashes_eq_none_of_calm {cs : List Char} (h : Calm cs) : rawHashes cs = none := by
  cases cs with
  | nil => rfl
  | cons x cs =>
    have hx : isCalm x = true := by simpa [Calm, startsWith] using h
    have hhash : x ≠ '#' := by
      rintro rfl
      rw [not_isCalm_of_mem (by decide)] at hx
      cases hx
    have hquote : x ≠ '"' := by
      rintro rfl
      rw [not_isCalm_of_mem (by decide)] at hx
      cases hx
    rw [rawHashes_cons, if_neg hhash, if_neg hquote]

theorem isPair_second {c x : Char} (h : isPair c x = true) : x = ':' ∨ x = '>' := by
  simp only [isPair, Bool.or_eq_true, Bool.and_eq_true, beq_iff_eq] at h
  rcases h with (h | h) | h
  · exact .inl h.2
  · exact .inr h.2
  · exact .inr h.2

/-- A calm text behind the rest makes it no less quiet. -/
theorem Quieter.of_calm {c : Char} {cs : List Char} (h : Calm cs) (a : List Char) :
    Quieter c a (a ++ cs) := by
  -- a test that no calm character passes looks no further than `a`
  have hfirst : ∀ p : Char → Bool, (∀ x, p x = true → isCalm x = false) →
      startsWith p (a ++ cs) = startsWith p a := by
    intro p hp
    cases a with
    | nil => exact h.startsWith_eq_false hp
    | cons x a => rfl
  have hsecond : ∀ p : Char → Bool, (∀ x, p x = true → isCalm x = false) → a ≠ [] →
      startsWith p ((a ++ cs).drop 1) = startsWith p (a.drop 1) := by
    intro p hp hne
    match a with
    | [] => exact absurd rfl hne
    | [x] => exact h.startsWith_eq_false hp
    | x :: y :: a => rfl
  have hmem : ∀ y ∈ ['"', '\'', '*', '#', '.', ':', '>'], ∀ x, (x == y) = true → isCalm x = false :=
    fun y hy x hx => not_isCalm_of_mem (by rw [beq_iff_eq.mp hx]; exact hy)
  have hident : ∀ x, isIdentChar x = true → isCalm x = false :=
    fun _ => not_isCalm_of_isIdentChar
  have hne : ∀ y ∈ ['"', '\'', '*', '#', '.', ':', '>'],
      startsWith (· == y) (a ++ cs) = true → a ≠ [] := by
    rintro y hy hstart rfl
    rw [hfirst _ (hmem y hy)] at hstart
    cases hstart
  refine ⟨?_, ?_, ?_, ?_, ?_, ?_, ?_, ?_⟩
  · exact fun h' => hfirst _ hident ▸ h'
  · exact fun h' => hfirst _ (hmem '"' (by decide)) ▸ h'
  · exact hfirst _ (hmem '\'' (by decide))
  · exact fun h' => hfirst _ (hmem '*' (by decide)) ▸ h'
  · refine fun h' => hfirst _ (fun x hx => ?_) ▸ h'
    rcases isPair_second hx with rfl | rfl
    · exact not_isCalm_of_mem (by decide)
    · exact not_isCalm_of_mem (by decide)
  · intro hraw
    rw [← List.append_nil a] at hraw
    exact rawHashes_eq_none_congr (fun _ => rawHashes_eq_none_of_calm h) hraw
  · rintro ⟨hhash, hstart⟩
    rw [hsecond _ (fun x hx => hident x (isIdentChar_of_isIdentStart hx))
      (hne '#' (by decide) hhash)] at hstart
    exact ⟨hfirst _ (hmem '#' (by decide)) ▸ hhash, hstart⟩
  · rintro ⟨hpoint, hdigit⟩
    rw [hsecond _ (fun x hx => hident x (isIdentChar_of_isDigit hx))
      (hne '.' (by decide) hpoint)] at hdigit
    exact ⟨hfirst _ (hmem '.' (by decide)) ▸ hpoint, hdigit⟩

theorem rawHashes_append_congr {a : List Char} (hne : a ≠ []) (hlast : a.getLast hne ≠ '#')
    (r r' : List Char) : rawHashes (a ++ r) = rawHashes (a ++ r') := by
  induction a with
  | nil => exact absurd rfl hne
  | cons x a ih =>
    rw [List.cons_append, List.cons_append, rawHashes_cons, rawHashes_cons]
    cases a with
    | nil =>
      have hx : x ≠ '#' := hlast
      rw [if_neg hx, if_neg hx]
    | cons y a => rw [ih (List.cons_ne_nil y a) hlast]

/-- Rests that begin with the same characters are as quiet as each other, if no hash mark and no point
ends what they share. -/
theorem Quieter.of_append {c : Char} {a : List Char} (hne : a ≠ [])
    (hlast : a.getLast hne ≠ '#' ∧ a.getLast hne ≠ '.') (r r' : List Char) :
    Quieter c (a ++ r) (a ++ r') := by
  have hraw := rawHashes_append_congr hne hlast.1 r r'
  match a with
  | [] => exact absurd rfl hne
  | [x] =>
    refine ⟨id, id, rfl, id, id, fun h => hraw ▸ h, ?_, ?_⟩
    · exact fun h => absurd (beq_iff_eq.mp h.1) hlast.1
    · exact fun h => absurd (beq_iff_eq.mp h.1) hlast.2
  | x :: y :: a => exact ⟨id, id, rfl, id, id, fun h => hraw ▸ h, id, id⟩

/-! ### A step takes what is there -/

theorem commentLength_le {depth n : Nat} {cs : List Char} (h : commentLength depth cs = some n) :
    n ≤ cs.length := by
  fun_induction commentLength depth cs generalizing n with
  | case1 depth rest ih =>
    obtain ⟨m, hm, rfl⟩ := Option.map_eq_some_iff.mp h
    simpa using ih hm
  | case2 depth rest hdepth =>
    cases h
    simp
  | case3 depth rest hdepth ih =>
    obtain ⟨m, hm, rfl⟩ := Option.map_eq_some_iff.mp h
    simpa using ih hm
  | case4 depth c rest _ _ ih =>
    obtain ⟨m, hm, rfl⟩ := Option.map_eq_some_iff.mp h
    simpa using ih hm
  | case5 => cases h

theorem quotedLength_le {quote : Char} {n : Nat} {cs : List Char}
    (h : quotedLength quote cs = some n) : n ≤ cs.length := by
  fun_induction quotedLength quote cs generalizing n with
  | case1 => cases h
  | case2 => cases h
  | case3 c rest ih =>
    obtain ⟨m, hm, rfl⟩ := Option.map_eq_some_iff.mp h
    simpa using ih hm
  | case4 rest =>
    cases h
    simp
  | case5 c rest _ _ ih =>
    obtain ⟨m, hm, rfl⟩ := Option.map_eq_some_iff.mp h
    simpa using ih hm

theorem rawLength_le {hashes n : Nat} {cs : List Char} (h : rawLength hashes cs = some n) :
    n ≤ cs.length := by
  fun_induction rawLength hashes cs generalizing n with
  | case1 => cases h
  | case2 c rest hend =>
    cases h
    have := (List.isPrefixOf_iff_prefix.mp hend.2).length_le
    simp at this
    simp
    omega
  | case3 c rest _ ih =>
    obtain ⟨m, hm, rfl⟩ := Option.map_eq_some_iff.mp h
    simpa using ih hm

theorem numberLength_le (cs : List Char) : numberLength cs ≤ cs.length := by
  fun_induction numberLength cs with
  | case1 => exact Nat.le_refl 0
  | case2 c rest _ ih => simpa using ih
  | case3 c rest _ => exact Nat.zero_le _

theorem identLength_le (cs : List Char) : identLength cs ≤ cs.length :=
  (List.takeWhile_prefix _).length_le

theorem length_pos_of_startsWith {p : Char → Bool} {cs : List Char} (h : startsWith p cs = true) :
    0 < cs.length := by
  cases cs with
  | nil => cases h
  | cons c cs => exact Nat.succ_pos _

theorem literal_further_le {skip : Nat} {problem : Problem} {quote : Char} {rest : List Char}
    {found : Step} (h : literal skip problem (quotedLength quote (rest.drop skip)) = .ok found) :
    found.further ≤ rest.length := by
  obtain ⟨kind, further⟩ := found
  obtain ⟨-, m, hm, rfl⟩ := literal_eq_ok.mp h
  have hpos := one_le_quotedLength hm
  have hle := quotedLength_le hm
  rw [List.length_drop] at hle
  show skip + m ≤ rest.length
  omega

theorem quoteOrLifetime_further_le {rest : List Char} {found : Step}
    (h : quoteOrLifetime rest = .ok found) : found.further ≤ rest.length := by
  unfold quoteOrLifetime at h
  split at h
  · exact literal_further_le h
  · split at h
    · cases h
      exact identLength_le rest
    · cases h

theorem tokenStep_further_le {c : Char} {rest : List Char} {found : Step}
    (h : tokenStep c rest = .ok found) : found.further ≤ rest.length := by
  unfold tokenStep at h
  split at h
  · split at h
    · rename_i hashes marker _ _ n hn
      cases h
      have hpos := lt_rawLength hn
      have hle := rawLength_le hn
      rw [List.length_drop] at hle
      show marker + n ≤ rest.length
      omega
    · cases h
  split at h
  · exact literal_further_le h
  split at h
  · exact literal_further_le h
  split at h
  · rename_i hraw
    cases h
    have hpos := length_pos_of_startsWith hraw.2.1
    have hle := identLength_le (rest.drop 1)
    rw [List.length_drop] at hle
    show 1 + identLength (rest.drop 1) ≤ rest.length
    omega
  split at h
  · cases h
    exact identLength_le rest
  split at h
  · exact literal_further_le h
  split at h
  · exact quoteOrLifetime_further_le h
  split at h
  · cases h
    exact numberLength_le rest
  · cases h
    show (if startsWith (isPair c) rest = true then 1 else 0) ≤ rest.length
    split
    · rename_i hpair
      exact length_pos_of_startsWith hpair
    · exact Nat.zero_le _

/-- A step takes no more than there is. -/
theorem step_further_le {c : Char} {rest : List Char} {found : Step}
    (h : step c rest = .ok found) : found.further ≤ rest.length := by
  unfold step at h
  split at h
  · cases h
    exact Nat.zero_le _
  split at h
  · cases h
    exact (List.takeWhile_prefix _).length_le
  split at h
  · rename_i hstar
    split at h
    · rename_i n hn
      cases h
      have hpos := length_pos_of_startsWith hstar.2
      have hle := commentLength_le hn
      rw [List.length_drop] at hle
      show n + 1 ≤ rest.length
      omega
    · cases h
  · exact tokenStep_further_le h

end ContractSync.Rust.Lexer
