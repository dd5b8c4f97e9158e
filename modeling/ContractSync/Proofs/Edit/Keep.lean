import ContractSync.Edit.Apply
import ContractSync.Proofs.Outcome
import ContractSync.Proofs.Rust.Grow
import ContractSync.Proofs.Rust.Refill
import ContractSync.Proofs.Text.Parts

/-!
# What an edit keeps

An edit puts characters between others and takes blank ones away: **the characters of a text that are not
blank are found in the edited text, in the same order** (`apply_keeps`). Two edits are different: a field
that is given another type loses the old one, and a struct without fields that has its body on one line
loses what stands between the braces (`apply_drops`).
-/

/-!
## The target of an edit

An edit reads the text and finds its declaration by name. Both succeed just where the parser and the search
do (`readSource_eq_ok`, `target_eq_ok`). **The body of the declaration is a group of the text, and can be
filled with something else** (`exists_bodyIn`).
-/

namespace ContractSync.Edit

open Rust (BodyIn ItemKind Node Span Tree)

variable {source : List Char} {tree : Tree} {n : Node} {path : Option String}

theorem readSource_eq_ok : readSource source path = .ok tree ↔ Rust.parse source = .ok tree :=
  mapError_eq_ok

theorem target_eq_ok {name : String} {kinds : List ItemKind} :
    target tree name kinds path = .ok n ↔ tree.find? name kinds = some n := by
  rw [target]
  cases tree.find? name kinds with
  | none => exact ⟨nofun, nofun⟩
  | some m => rw [Except.ok.injEq, Option.some.injEq]

/-- The body of a declaration that is found stands in the text. -/
theorem exists_bodyIn {name : String} {kind : ItemKind} {body : Span}
    (h : Rust.parse source = .ok tree) (hfound : tree.find? name [kind] = some n)
    (hblock : kind ∉ [.module, .trait_, .impl]) (hbody : n.body? = some body) :
    ∃ nodes b members front back, tree = ⟨source, .mk .file 0 0 source.length nodes, 0⟩ ∧
      b.span = body ∧ BodyIn source nodes n kind b members front back := by
  obtain ⟨trees, nodes, hreads, rfl⟩ := Rust.parse_eq_ok_iff.mp h
  obtain ⟨hmem, found, hfound, hkind⟩ := Tree.of_find? hfound
  obtain rfl := List.mem_singleton.mp hfound
  have hmem' : n ∈ Node.walkAll nodes := by
    rcases Node.mem_walk_mk.mp hmem with rfl | hmem
    · cases hkind
    · exact hmem
  obtain ⟨b, members, front, back, hspan, hb⟩ := hreads.bodyIn hmem' hkind hblock hbody
  exact ⟨nodes, b, members, front, back, rfl, hspan, hb⟩

end ContractSync.Edit

/-! ## What is kept -/

namespace ContractSync.Edit

open Rust (Node Span)

variable {cs source result : List Char}

/-! ### Characters that are not blank -/

theorem compact_append (a b : List Char) : compact (a ++ b) = compact a ++ compact b :=
  List.filter_append ..

theorem compact_eq_nil (h : Text.isAllBlank cs = true) : compact cs = [] := by
  rw [compact, List.filter_eq_nil_iff]
  intro c hc
  rw [List.all_eq_true.mp h c hc]
  exact nofun

/-- The second text has all characters of the first one that are not blank, in the same order. -/
def Keeps (source result : List Char) : Prop := (compact source).Sublist (compact result)

instance (source result : List Char) : Decidable (Keeps source result) :=
  inferInstanceAs (Decidable ((compact source).Sublist (compact result)))

theorem Keeps.refl (cs : List Char) : Keeps cs cs := List.Sublist.refl _

theorem Keeps.trans {a b c : List Char} (h : Keeps a b) (h' : Keeps b c) : Keeps a c :=
  List.Sublist.trans h h'

theorem Keeps.of_sublist {a b : List Char} (h : a.Sublist b) : Keeps a b := h.filter _

theorem compact_trimEnd (cs : List Char) : compact (Text.trimEnd cs) = compact cs := by
  obtain ⟨w, hcs, hw, -⟩ := Text.dropEndWhile_append Text.isBlank cs
  conv => rhs; rw [hcs, compact_append, compact_eq_nil (List.all_eq_true.mpr hw), List.append_nil]
  rfl

/-! ### Parts put between others -/

/-- Nothing is lost where a text is put between two parts. -/
theorem keeps_insert (cs : List Char) (position : Nat) (new : List Char) :
    Keeps cs (Text.splice cs position position new) := by
  refine .of_sublist ?_
  conv => lhs; rw [← List.take_append_drop position cs]
  rw [Text.splice, List.append_assoc]
  exact (List.sublist_append_right ..).append_left _

/-- A part that is trimmed, between others. -/
theorem keeps_rebuild (cs : List Char) (start stop : Nat) (x y : List Char) :
    Keeps cs (cs.take start ++ (x ++ (Text.trimEnd (Text.slice cs start stop) ++
      (y ++ cs.drop stop)))) := by
  have hparts : (compact (cs.take start) ++ (compact (Text.slice cs start stop) ++
      compact (cs.drop stop))).Sublist (compact (cs.take start ++ (x ++
        (Text.trimEnd (Text.slice cs start stop) ++ (y ++ cs.drop stop))))) := by
    simp only [compact_append, compact_trimEnd]
    exact .append_left (.trans (.append_left (List.sublist_append_right ..) _)
      (List.sublist_append_right ..)) _
  refine List.Sublist.trans ?_ hparts
  rw [← compact_append, ← compact_append]
  refine Keeps.of_sublist ?_
  by_cases h : start ≤ stop
  · have hcs : Text.splice cs start stop (Text.slice cs start stop) = cs := Text.splice_slice h
    rw [Text.splice, List.append_assoc] at hcs
    exact hcs.symm ▸ List.Sublist.refl cs
  · -- Then the two parts overlap.
    conv => lhs; rw [← List.take_append_drop start cs]
    refine .append_left (.trans ?_ (List.sublist_append_right ..)) _
    rw [show start = stop + (start - stop) by omega, ← List.drop_drop]
    exact List.drop_sublist ..

/-- A part up to its last character that is not blank. -/
theorem take_trimEnd (cs : List Char) (start stop : Nat) :
    cs.take (start + (Text.trimEnd (Text.slice cs start stop)).length) =
      cs.take start ++ Text.trimEnd (Text.slice cs start stop) := by
  have hslice : Text.slice cs start stop <+: cs.drop start := by
    rw [Text.slice, List.drop_take]
    exact List.take_prefix _ _
  have htrim : Text.trimEnd (Text.slice cs start stop) <+: Text.slice cs start stop := by
    rw [Text.trimEnd, Text.dropEndWhile, ← List.reverse_suffix, List.reverse_reverse]
    exact List.dropWhile_suffix _
  rw [List.take_add, ← List.prefix_iff_eq_take.mp (htrim.trans hslice)]

/-! ### The edits, one by one -/

theorem insertInBody_keeps (source : List Char) (function : Node) (body : Span)
    (statement : List Char) : Keeps source (insertInBody source function body statement) := by
  rw [insertInBody]
  split
  · exact keeps_insert ..
  · have hkeeps := keeps_rebuild source (body.start + 1) body.stop []
      (((statementLines statement).map Text.trim).flatMap
        (fun line => ['\n'] ++ Text.indentAt source function.itemStart ++ indentUnit ++ line) ++
        ['\n'] ++ Text.indentAt source function.itemStart)
    dsimp only
    rw [take_trimEnd]
    simpa only [List.append_assoc, List.nil_append] using hkeeps

end ContractSync.Edit

/-!
## Where a line goes in a body

In front of the closing brace of a body a text is cut in one of two places: behind the last line, if the
brace stands on a line of its own (`exists_cut_of_lines`), or behind the last character that is not blank
(`exists_cut_of_line`). **Either way only blanks are cut away, and they reach back to one line feed at
most**, so that the cut is inside no comment and no token.
-/

namespace ContractSync.Edit

open Rust (Span)

variable {source : List Char} {body : Span}

theorem isBlank_of_mem_indentAt {position : Nat} {c : Char} (h : c ∈ Text.indentAt source position) :
    Text.isBlank c = true :=
  List.all_eq_true.mp List.all_takeWhile c h

theorem isBlank_of_mem_indentUnit {c : Char} (h : c ∈ indentUnit) : Text.isBlank c = true :=
  List.all_eq_true.mp (by decide : indentUnit.all Text.isBlank = true) c h

theorem isBlank_of_mem_indentAt_append {position : Nat} {c : Char}
    (h : c ∈ Text.indentAt source position ++ indentUnit) : Text.isBlank c = true :=
  (List.mem_append.mp h).elim isBlank_of_mem_indentAt isBlank_of_mem_indentUnit

/-- The closing brace stands on a line of its own. -/
theorem exists_cut_of_lines (hopen : body.start < Text.lineStart source body.stop)
    (hblank : Text.isAllBlank (Text.slice source (Text.lineStart source body.stop) body.stop) = true) :
    ∃ a line, source.take body.stop = a ++ '\n' :: line ∧
      source.take (Text.lineStart source body.stop) = a ++ ['\n'] ∧
      source.drop (Text.lineStart source body.stop) = line ++ source.drop body.stop ∧
      Text.slice source (Text.lineStart source body.stop) body.stop = line ∧
      (∀ c ∈ line, Text.isBlank c = true) ∧ '\n' ∉ line := by
  obtain ⟨line, htake, hslice, hfeed, -, hfront⟩ := Text.take_lineStart source body.stop
  obtain ⟨a, hfront⟩ := hfront (by omega)
  rw [hslice] at hblank
  refine ⟨a, line, ?_, hfront, ?_, hslice, List.all_eq_true.mp hblank, hfeed⟩
  · rw [htake, hfront]
    simp
  · have hall := List.take_append_drop body.stop source
    rw [htake, List.append_assoc] at hall
    exact List.append_cancel_left
      ((List.take_append_drop (Text.lineStart source body.stop) source).trans hall.symm)

/-- The closing brace stands on the line of something else. -/
theorem exists_cut_of_line {start : Nat} (hstart : body.start < start) (hle : start ≤ body.stop)
    (hstop : body.stop ≤ source.length)
    (hmulti : ¬ (body.start < Text.lineStart source body.stop ∧
      Text.isAllBlank (Text.slice source (Text.lineStart source body.stop) body.stop) = true)) :
    ∃ w, source.take body.stop =
        source.take start ++ Text.trimEnd (Text.slice source start body.stop) ++ w ∧
      (∀ c ∈ w, Text.isBlank c = true) ∧ '\n' ∉ w := by
  obtain ⟨w, hcontent, hw, -⟩ := Text.dropEndWhile_append Text.isBlank
    (Text.slice source start body.stop)
  have htake : (source.take body.stop).take start = source.take start := by
    rw [List.take_take, Nat.min_eq_left hle]
  refine ⟨w, ?_, hw, ?_⟩
  · rw [List.append_assoc, Text.trimEnd, ← hcontent, Text.slice, ← htake, List.take_append_drop]
  -- The blanks are those of the last line, for a longer row of blanks would hold it.
  have hsuffix : w <:+ Text.slice source start body.stop := ⟨_, hcontent.symm⟩
  obtain ⟨line, hline, hslice, hfeed, -, -⟩ := Text.take_lineStart source body.stop
  have hline : line <:+ source.take body.stop := ⟨_, hline.symm⟩
  rcases List.suffix_or_suffix_of_suffix (hsuffix.trans (List.drop_suffix ..)) hline with h | h
  · exact fun hmem => hfeed (h.subset hmem)
  · exfalso
    refine hmulti ⟨?_, ?_⟩
    · have hcontent := hsuffix.length_le
      have hlen := h.length_le
      rw [← hslice] at hlen
      simp only [Text.slice, List.length_drop, List.length_take] at hcontent hlen
      omega
    · rw [hslice]
      exact List.all_eq_true.mpr fun c hc => hw c (h.subset hc)

end ContractSync.Edit
