import Cppkg.Diff.LongScript
import Cppkg.Lib.Lines

/-!
# Comparing texts

`diffLines` reads two texts line by line, trims the lines and leaves out the empty ones — both only
if asked to — and compares what is left.  `normalized` says what is left, without the loop and
without the stream.
-/

set_option autoImplicit false

namespace Cppkg
namespace Diff

/-! ## Normalized texts -/

/-- `line` without the white space around it. -/
def stripped (line : Str) : Str := (line.dropWhile Fmts.isspace).rdropWhile Fmts.isspace

theorem trim_eq_stripped (line : Str) : Fmts.trim line = stripped line := Fmts.trim_eq line

/-- The lines of a text that count: stripped, and without those that are then empty, as asked. -/
def normalized (ignoreEmptyLines trimSpaces : Bool) (text : Str) : StringsT :=
  ((Text.lines '\n' text).map fun line ↦ if trimSpaces = true then stripped line else line).filter
    fun line ↦ !ignoreEmptyLines || !line.isEmpty

/-- The first line of a text, and the others. -/
theorem normalized_of_ne_nil (ignoreEmptyLines trimSpaces : Bool) {text : Str} (h : text ≠ []) :
    normalized ignoreEmptyLines trimSpaces text =
      let line := text.takeWhile (· != '\n')
      let line := if trimSpaces = true then stripped line else line
      let rest := normalized ignoreEmptyLines trimSpaces (text.dropWhile (· != '\n')).tail
      if ignoreEmptyLines = false ∨ line.length > 0 then line :: rest else rest := by
  have hkeep : ∀ line : Str, (!ignoreEmptyLines || !line.isEmpty) = true ↔
      ignoreEmptyLines = false ∨ line.length > 0 := by
    intro line
    cases line <;> simp
  rw [normalized, Text.lines_of_ne_nil h, List.map_cons, List.filter_cons]
  simp only [hkeep]
  rfl

/-- The state of `processLines`: the lines so far, and the text that is left. -/
def LinesInv (ignoreEmptyLines trimSpaces : Bool) (text : Str) : StringsT × Str → Prop
  | (lines, str) => lines ++ normalized ignoreEmptyLines trimSpaces str
    = normalized ignoreEmptyLines trimSpaces text

/-- **The lines `processLines` returns.** -/
theorem processLines_returns (text : Str) (ignoreEmptyLines trimSpaces : Bool) :
    (processLines text ignoreEmptyLines trimSpaces).Returns
      (normalized ignoreEmptyLines trimSpaces text) := by
  rw [← Run.wp_eq_iff, processLines]
  refine Run.wp_loop (LinesInv ignoreEmptyLines trimSpaces text) (fun s ↦ s.2.length) ?_ rfl
  rintro ⟨lines, str⟩ hlines
  rw [LinesInv] at hlines
  cases str with
  | nil => simpa [getline, normalized] using hlines
  | cons c str =>
    have hshort : ((c :: str).dropWhile (· != '\n')).tail.length < (c :: str).length := by
      have := List.length_dropWhile_le (· != '\n') (c :: str)
      rw [List.length_tail]
      rw [List.length_cons] at *
      omega
    simp only [normalized_of_ne_nil _ _ (List.cons_ne_nil c str)] at hlines
    simp only [getline, trim_eq_stripped]
    generalize (if trimSpaces = true then stripped ((c :: str).takeWhile (· != '\n'))
      else (c :: str).takeWhile (· != '\n')) = line at hlines ⊢
    by_cases hkeep : ignoreEmptyLines = false ∨ line.length > 0
    · rw [if_pos hkeep] at hlines ⊢
      simp only [Run.wp_pure, Run.round_inl]
      exact ⟨by simpa [LinesInv] using hlines, hshort⟩
    · rw [if_neg hkeep] at hlines ⊢
      simp only [Run.wp_pure, Run.round_inl]
      exact ⟨hlines, hshort⟩

/-! ## The message -/

/-- **Texts.**  For texts of up to 16383 lines that count, the message is empty exactly when these
lines are the same. -/
theorem diffLines_empty_iff (expect got : Str) (ignoreEmptyLines trimSpaces : Bool)
    (hsize : (normalized ignoreEmptyLines trimSpaces expect).length +
      (normalized ignoreEmptyLines trimSpaces got).length ≤ 16383) :
    ∃ msg, (diffLines expect got ignoreEmptyLines trimSpaces).Returns msg ∧
      (msg = [] ↔ normalized ignoreEmptyLines trimSpaces expect
        = normalized ignoreEmptyLines trimSpaces got) := by
  obtain ⟨msg, hret, hiff⟩ : EmptyIffEqual defaultBatchLimit
      (normalized ignoreEmptyLines trimSpaces expect)
      (normalized ignoreEmptyLines trimSpaces got) :=
    emptyIffEqual_of_le (by decide) (.inr hsize) (by omega)
  refine ⟨msg, ?_, hiff⟩
  rw [diffLines, Run.returns_bind]
  refine ⟨_, processLines_returns expect ignoreEmptyLines trimSpaces, ?_⟩
  rw [Run.returns_bind]
  exact ⟨_, processLines_returns got ignoreEmptyLines trimSpaces, hret⟩

theorem diffLines_empty_iff_small :
    ∃ msg, (diffLines [' ', 'a', '\n', '\n', 'b'] ['a', '\n', 'b', '\n'] true true).Returns msg ∧
      (msg = [] ↔ normalized true true [' ', 'a', '\n', '\n', 'b']
        = normalized true true ['a', '\n', 'b', '\n']) :=
  diffLines_empty_iff [' ', 'a', '\n', '\n', 'b'] ['a', '\n', 'b', '\n'] true true
    (by decide +kernel)

end Diff
end Cppkg
