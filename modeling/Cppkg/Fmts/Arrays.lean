import Cppkg.Fmts.Trim
import Cppkg.Lib.Escape
import Cppkg.Lib.Run

/-!
# Arrays, from `fmts/fmts.hpp`

An array of strings is written between brackets, with a delimiter between its elements.  A
`fmts::String` writes an `arrDelim` in front of every character of its own that is a symbol, and
`arrDelim` is the delimiter as well.  So an array can look like another one:
`toString_unambiguous_iff` says which do.
-/

set_option autoImplicit false

namespace Cppkg
namespace Fmts

/-- Symbol for the start of an array as string. -/
def arrBegin : Char := '['

/-- Symbol for the end of an array as string. -/
def arrEnd : Char := ']'

/-- Symbol for the delimiter between elements of an array as string. -/
def arrDelim : Char := '\\'

def pairDelim : Char := ':'

/-- What C++ leaves undefined. -/
inductive Fault
  /-- A string is read past its end. -/
  | outOfRange
  deriving DecidableEq, Repr

/-- `modified[i]`. -/
def charAt (modified : Str) (i : ℕ) : Run Fault Char :=
  match modified[i]? with
  | some c => pure c
  | none => .fail .outOfRange

/-- The characters that are broken. -/
def isSymbol (c : Char) : Bool := c == arrBegin || c == arrEnd || c == arrDelim || c == pairDelim

/-- `String::operator std::string`: a copy of the raw string `val`, in which `arrDelim` is inserted
in front of every symbol.  The state is the copy, and the `i` and `n` of the loop. -/
def stdString (val : Str) : Run Fault Str :=
  Run.loop (fun (modified, i, n) ↦ do
    if i < n then
      let c ← charAt modified i
      if isSymbol c = true then
        let modified := modified.take i ++ arrDelim :: modified.drop i
        pure (.inl (modified, i + 1 + 1, n + 1))
      else pure (.inl (modified, i + 1, n))
    else pure (.inr modified)) (val, 0, val.length)

/-- Stream a `fmts::String` to `s`. -/
def toStream (s val : Str) : Run Fault Str := do
  let str ← stdString val
  pure (s ++ str)

/-- Stream values as an array delimited by `delim`. -/
def arrToStream (s : Str) (vals : List Str) (delim : Str) : Run Fault Str :=
  match vals with
  | [] => pure s
  | val :: vals => do
    let s ← toStream s val
    vals.foldlM (fun s val ↦ toStream (s ++ delim) val) s

/-- Return string representation of values between iterators. -/
def toString (vals : List Str) : Run Fault Str := do
  let s ← arrToStream [arrBegin] vals [arrDelim]
  pure (s ++ [arrEnd])

/-! ## What is written -/

open Escape

/-- What a string is written as. -/
def broken (val : Str) : Str := encode arrDelim isSymbol (val.map some)

/-- The state of the loop of `stdString`: what is before `i` is broken, and what is after it is
not. -/
def BreakInv (val : Str) : Str × ℕ × ℕ → Prop
  | (modified, i, n) => ∃ done rest, val = done ++ rest ∧ modified = broken done ++ rest ∧
    i = (broken done).length ∧ n = modified.length

theorem broken_concat (done : Str) (c : Char) :
    broken (done ++ [c]) = broken done ++ if isSymbol c = true then [arrDelim, c] else [c] := by
  simp [broken, token]

/-- `stdString` breaks the symbols. -/
theorem stdString_returns (val : Str) : (stdString val).Returns (broken val) := by
  rw [← Run.wp_eq_iff]
  refine Run.wp_loop (BreakInv val) (fun s ↦ s.2.2 - s.2.1) ?_ ⟨[], val, rfl, rfl, rfl, rfl⟩
  rintro ⟨modified, i, n⟩ ⟨done, rest, rfl, rfl, rfl, rfl⟩
  simp only
  cases rest with
  | nil => simp
  | cons c rest =>
    have hc : charAt (broken done ++ c :: rest) (broken done).length = pure c := by
      rw [charAt, List.getElem?_append_right (Nat.le_refl _), Nat.sub_self, List.getElem?_cons_zero]
    have hlt : (broken done).length < (broken done ++ c :: rest).length := by simp
    simp only [if_pos hlt, hc, Run.wp_bind, Run.wp_pure]
    split
    · rename_i hsym
      simp only [Run.wp_pure, Run.round_inl, List.take_left, List.drop_left]
      refine ⟨⟨done ++ [c], rest, by simp, ?_, ?_, ?_⟩, ?_⟩
      · simp [broken_concat, hsym]
      · simp [broken_concat, hsym]
      · simp only [List.length_append, List.length_cons]
        omega
      · simp only [List.length_append, List.length_cons]
        omega
    · rename_i hsym
      simp only [Run.wp_pure, Run.round_inl]
      refine ⟨⟨done ++ [c], rest, by simp, ?_, ?_, rfl⟩, ?_⟩
      · simp [broken_concat, hsym]
      · simp [broken_concat, hsym]
      · simp only [List.length_append, List.length_cons]
        omega

/-! ## Escaping, for its own sake -/

theorem broken_append (val val' : Str) : broken (val ++ val') = broken val ++ broken val' := by
  rw [broken, List.map_append, encode_append]
  rfl

/-- What is written can be read back. -/
theorem broken_injective : Function.Injective broken := fun _ _ h ↦ encode_map_inj rfl h

theorem isSymbol_iff {c : Char} :
    isSymbol c = true ↔ c = '[' ∨ c = ']' ∨ c = '\\' ∨ c = ':' := by
  simp [isSymbol, arrBegin, arrEnd, arrDelim, pairDelim, or_assoc]

/-- What is written, character by character. -/
theorem broken_eq_flatMap (val : Str) : broken val = val.flatMap fun c ↦
    if c = '[' ∨ c = ']' ∨ c = '\\' ∨ c = ':' then ['\\', c] else [c] := by
  induction val using List.reverseRecOn with
  | nil => rfl
  | append_singleton val c ih =>
    rw [broken_concat, ih, List.flatMap_append, List.flatMap_singleton]
    simp only [isSymbol_iff, arrDelim]

/-- **`stdString` escapes.**  The loop ends for every string, with a backslash in front of every
bracket, backslash and colon and nothing else changed.  So a string may be converted piece by piece,
and no two strings are converted to the same. -/
theorem stdString_escapes :
    (∀ val, (stdString val).Returns (val.flatMap fun c ↦
      if c = '[' ∨ c = ']' ∨ c = '\\' ∨ c = ':' then ['\\', c] else [c])) ∧
    (∀ val val' out out', (stdString val).Returns out → (stdString val').Returns out' →
      (stdString (val ++ val')).Returns (out ++ out')) ∧
    ∀ val val' out, (stdString val).Returns out → (stdString val').Returns out → val = val' := by
  refine ⟨fun val ↦ ?_, fun val val' out out' h h' ↦ ?_, fun val val' out h h' ↦ ?_⟩
  · rw [← broken_eq_flatMap]
    exact stdString_returns val
  · rw [h.unique (stdString_returns val), h'.unique (stdString_returns val'), ← broken_append]
    exact stdString_returns (val ++ val')
  · have heq := (stdString_returns val).unique h
    rw [← (stdString_returns val').unique h'] at heq
    exact broken_injective heq

theorem stdString_escapes_hi :
    (stdString ['h', '\\', 'i', ':', '[']).Returns ['h', '\\', '\\', 'i', '\\', ':', '\\', '['] :=
  stdString_escapes.2.1 ['h', '\\'] ['i', ':', '['] ['h', '\\', '\\']
    ['i', '\\', ':', '\\', '['] (stdString_escapes.1 _) (stdString_escapes.1 _)

/-! ## Streams and arrays -/

theorem toStream_returns (s val : Str) : (toStream s val).Returns (s ++ broken val) := by
  rw [← Run.wp_eq_iff, toStream, Run.wp_bind, (stdString_returns val).wp_iff]
  simp

theorem arrToStream_returns (s : Str) (vals : List Str) : (arrToStream s vals [arrDelim]).Returns
    (s ++ encode arrDelim isSymbol (tokens vals)) := by
  cases vals with
  | nil => simp [arrToStream, tokens]
  | cons val vals =>
    rw [← Run.wp_eq_iff, arrToStream, Run.wp_bind, (toStream_returns s val).wp_iff]
    induction vals generalizing s val with
    | nil => simp [tokens, broken]
    | cons val' vals ih =>
      rw [List.foldlM_cons, Run.wp_bind, (toStream_returns _ val').wp_iff]
      have h := ih (s ++ broken val ++ [arrDelim]) val'
      simpa [tokens, broken] using h

/-- **What `toString` returns.** -/
theorem toString_returns (vals : List Str) : (toString vals).Returns
    ([arrBegin] ++ encode arrDelim isSymbol (tokens vals) ++ [arrEnd]) := by
  rw [← Run.wp_eq_iff, toString, Run.wp_bind, (arrToStream_returns [arrBegin] vals).wp_iff]
  simp

/-- **Which arrays are unambiguous** among those with as many elements: those in which no element
begins or ends with `arrDelim` next to another, and, unless no element has an `arrDelim`, no element
between two others is empty. -/
theorem toString_unambiguous_iff (xs : List Str) :
    (∃ s, (toString xs).Returns s ∧
      ∀ ys : List Str, ys.length = xs.length → (toString ys).Returns s → ys = xs) ↔
    Unique arrDelim xs := by
  rw [← @texts_unique_iff _ arrDelim isSymbol xs _ rfl]
  constructor
  · rintro ⟨s, hs, h⟩ ys hlen he
    refine h ys hlen ?_
    have := toString_returns ys
    rwa [he, (toString_returns xs).unique hs] at this
  · intro h
    refine ⟨_, toString_returns xs, fun ys hlen hys ↦ h ys hlen ?_⟩
    simpa using (toString_returns ys).unique hys

/-- The arrays of an empty element and `\`, in either order. -/
theorem not_toString_inj : ¬ ∀ (xs ys : List Str) (s : Str), xs.length = ys.length →
    (toString xs).Returns s → (toString ys).Returns s → xs = ys := by
  intro h
  have := h [[], ['\\']] [['\\'], []] _ rfl (toString_returns _) (toString_returns _)
  exact absurd this (by decide)

end Fmts
end Cppkg
