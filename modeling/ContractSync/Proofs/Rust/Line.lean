import ContractSync.Proofs.Rust.Run
import Mathlib.Control.Monad.Basic

/-!
# Texts on lines of their own

A text that can be lexed leaves nothing open at its end, and nothing that it ends with goes on over the end
of a line. So **what stands on the lines behind it is lexed as it is on its own** (`tokenize_lines`): the
tokens are those of both texts, the second ones moved, and if the second text cannot be lexed, its failure
shows, moved alike.
-/

namespace ContractSync.Rust

namespace Lexer

theorem step_newline (rest : List Char) : step '\n' rest = .ok ⟨none, 0⟩ := by
  have hblank : Text.isBlank '\n' = true := by decide
  rw [step, if_pos hblank]

/-- A text that is lexed on its own is lexed alike on a line of its own. -/
theorem run_line {a : List Char} {ts : List Token} (h : tokenize a = .ok ts) (b : List Char) :
    Run 0 (a ++ '\n' :: b) ts (a.length + 1) b := by
  have hblank : Text.isBlank '\n' = true := by decide
  have hrun := (run_of_lexFrom h).congr_before_calm (u := '\n' :: b) (.of_isBlank hblank)
    (fun _ => rfl) (fun h => by cases h)
  have hbreak : Run a.length ('\n' :: b) [] (a.length + 1) b :=
    .skip (w := []) (step_newline b) (.refl _ _)
  rw [Nat.zero_add] at hrun
  have h := hrun.trans hbreak
  rwa [List.append_nil] at h

/-- At another position a text has the same tokens, or the same failure, moved. -/
theorem lexFrom_shift (p d : Nat) (cs : List Char) :
    lexFrom (p + d) cs =
      ((lexFrom p cs).map (·.map (Token.shift d))).mapError (Failure.shift d) := by
  -- A step may take any number of characters, so the induction is on the length of what is left.
  induction hlen : cs.length using Nat.strongRecOn generalizing p cs with
  | ind len ih =>
    cases cs with
    | nil =>
      rw [lexFrom, lexFrom]
      rfl
    | cons c rest =>
      rw [lexFrom, lexFrom]
      cases hs : step c rest with
      | error failure =>
        -- A step knows the distance from its first character only; the position is added behind it.
        refine congrArg Except.error ?_
        rw [Failure.shift, Failure.shift, Failure.shift, Nat.add_assoc]
      | ok found =>
        obtain ⟨kind, further⟩ := found
        have hlt : (rest.drop further).length < len := by
          rw [← hlen, List.length_drop, List.length_cons]
          omega
        have hnext : p + d + further + 1 = p + further + 1 + d := by omega
        have hrest := ih _ hlt (p + further + 1) (rest.drop further) rfl
        simp only
        rw [hnext, hrest]
        cases kind with
        | none => rfl
        | some kind => cases lexFrom (p + further + 1) (rest.drop further) <;> rfl

end Lexer

open Lexer

/-- Behind a text on lines of its own another one is lexed as it is on its own. -/
theorem tokenize_line {a : List Char} {ts : List Token} (h : tokenize a = .ok ts) (b : List Char) :
    tokenize (a ++ '\n' :: b) =
      ((tokenize b).map fun us => ts ++ us.map (Token.shift (a.length + 1))).mapError
        (Failure.shift (a.length + 1)) := by
  have hmoved := lexFrom_shift 0 (a.length + 1) b
  rw [Nat.zero_add] at hmoved
  rw [tokenize, (run_line h b).lexFrom_eq, hmoved, ← tokenize]
  cases tokenize b <;> rfl

theorem tokenize_line_split {a b : List Char} {ts all : List Token} (ha : tokenize a = .ok ts)
    (h : tokenize (a ++ '\n' :: b) = .ok all) :
    ∃ us, tokenize b = .ok us ∧ all = ts ++ us.map (Token.shift (a.length + 1)) := by
  rw [tokenize_line ha, mapError_eq_ok, map_eq_ok] at h
  obtain ⟨us, hus, rfl⟩ := h
  exact ⟨us, hus, rfl⟩

/-- The lines of the first text are counted with those of the second. -/
theorem lineOf_line (a b : List Char) (position : Nat) :
    Text.lineOf (a ++ '\n' :: b) (position + (a.length + 1)) =
      Text.lineOf b position + (a.count '\n' + 1) := by
  have htake : (a ++ '\n' :: b).take (position + (a.length + 1)) = a ++ '\n' :: b.take position := by
    rw [Nat.add_comm, Nat.add_assoc, Nat.add_comm 1, List.take_length_add_append, List.take_succ_cons]
  rw [Text.lineOf, Text.lineOf, htake, List.count_append, List.count_cons_self]
  omega

/-- **The end of a line divides a text for the lexer**, if what stands before it can be lexed. Both texts have
tokens exactly if the second one has, and these are the tokens of both; else the failure is that of the second
text, at its place there. -/
theorem tokenize_lines {a : List Char} {ts : List Token} (ha : tokenize a = .ok ts) (b : List Char) :
    ((∃ all, tokenize (a ++ '\n' :: b) = .ok all) ↔ ∃ us, tokenize b = .ok us) ∧
      (∀ us, tokenize b = .ok us →
        tokenize (a ++ '\n' :: b) = .ok (ts ++ us.map (Token.shift (a.length + 1)))) ∧
      ∀ failure, tokenize b = .error failure →
        tokenize (a ++ '\n' :: b) = .error ⟨failure.problem, failure.offset + (a.length + 1)⟩ ∧
          Text.lineOf (a ++ '\n' :: b) (failure.offset + (a.length + 1)) =
            failure.line b + (a.count '\n' + 1) := by
  have hboth := tokenize_line ha b
  refine ⟨⟨fun ⟨all, hall⟩ => ?_, fun ⟨us, hus⟩ => ?_⟩, fun us hus => ?_, fun failure hfailure => ⟨?_, ?_⟩⟩
  · obtain ⟨us, hus, -⟩ := tokenize_line_split ha hall
    exact ⟨us, hus⟩
  · rw [hus] at hboth
    exact ⟨_, hboth⟩
  · rw [hus] at hboth
    exact hboth
  · rw [hfailure] at hboth
    exact hboth
  · exact lineOf_line a b failure.offset

/-- A comment with an apostrophe in it, at the end of a line, and a comment that is not closed behind it. -/
theorem tokenize_lines_openComment : ∃ ts,
    tokenize "r#x // it's".toList = .ok ts ∧
      tokenize ("r#x // it's".toList ++ '\n' :: "y /* z".toList) = .error ⟨.unterminatedComment, 14⟩ := by
  have hfirst : tokenize "r#x // it's".toList = .ok [⟨.ident, "r#x", 0, 3⟩] := by decide +kernel
  have hsecond : tokenize "y /* z".toList = .error ⟨.unterminatedComment, 2⟩ := by decide +kernel
  exact ⟨_, hfirst, ((tokenize_lines hfirst _).2.2 _ hsecond).1⟩

end ContractSync.Rust
