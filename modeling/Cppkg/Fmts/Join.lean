import Cppkg.Fmts.Pair
import Cppkg.Lib.Delimiter

/-!
# Joining with any delimiter, from `fmts/fmts.hpp`

`join` and `pairToStream` write `fmts::String`s with a delimiter of the caller's choice between
them.  The delimiter is not escaped.  `delim_unambiguous_iff` says with which ones everything can be
read back: `:` is one, `, ` and the `arrDelim` of arrays are not.
-/

set_option autoImplicit false

namespace Cppkg
namespace Fmts

namespace Arrays

open Escape

/-- The values as one string, delimited by `delim`. -/
def join (delim : Str) (vals : List Str) : Run Fault Str := arrToStream [] vals delim

theorem arrToStream_delimited (s delim : Str) (vals : List Str) :
    (arrToStream s vals delim).Returns (s ++ delimited arrDelim isSymbol delim vals) := by
  cases vals with
  | nil => simp [arrToStream, delimited]
  | cons val vals =>
    rw [← Run.wp_eq_iff, arrToStream, Run.wp_bind, (toStream_returns s val).wp_iff]
    induction vals generalizing s val with
    | nil => simp [delimited, broken]
    | cons val' vals ih =>
      rw [List.foldlM_cons, Run.wp_bind, (toStream_returns _ val').wp_iff]
      have h := ih (s ++ broken val ++ delim) val'
      simpa [delimited, broken] using h

theorem join_returns (delim : Str) (vals : List Str) :
    (join delim vals).Returns (delimited arrDelim isSymbol delim vals) :=
  arrToStream_delimited [] delim vals

/-- A pair is written as an array of two without the brackets. -/
theorem pairToStream_returns (delim k v : Str) :
    (pairToStream [] (k, v) delim).Returns (delimited arrDelim isSymbol delim [k, v]) := by
  rw [← Run.wp_eq_iff, pairToStream, Run.wp_bind, (toStream_returns [] k).wp_iff,
    (toStream_returns _ v).wp_iff]
  simp [delimited, broken]

/-- The delimiter is not what some string is converted to, and it has a character other than
`arrDelim`. -/
def GoodDelim (delim : Str) : Prop :=
  (∀ val, ¬ (stdString val).Returns delim) ∧ ∃ c ∈ delim, c ≠ arrDelim

theorem goodDelim_iff {delim : Str} : GoodDelim delim ↔ Delimits arrDelim isSymbol delim := by
  refine and_congr_left' (forall_congr' fun val ↦ not_congr ⟨fun h ↦ ?_, fun h ↦ ?_⟩)
  · exact (stdString_returns val).unique h
  · exact h ▸ stdString_returns val

/-- A delimiter that begins with a symbol is good, unless that is `arrDelim`. -/
theorem goodDelim_cons {c : Char} (hc : isSymbol c = true) (hne : c ≠ arrDelim) (delim : Str) :
    GoodDelim (c :: delim) := by
  refine goodDelim_iff.mpr ⟨fun val hval ↦ ?_, c, List.mem_cons_self, hne⟩
  rw [not_special_head hval hne] at hc
  cases hc

/-- A delimiter without symbols is not. -/
theorem not_goodDelim {delim : Str} (h : ∀ c ∈ delim, isSymbol c = false) : ¬ GoodDelim delim := by
  have hplain : broken delim = delim := by
    rw [broken_eq_flatMap, List.flatMap_congr fun c hc ↦ if_neg fun hsym ↦
      absurd (isSymbol_iff.mpr hsym) (by simp [h c hc]), List.flatMap_singleton']
  have hreturns := stdString_returns delim
  rw [hplain] at hreturns
  exact fun hgood ↦ hgood.1 delim hreturns

/-- **With which delimiters nothing is lost**: no two arrays, if they are not empty, are joined to
the same string exactly if the delimiter is good; and the same goes for pairs. -/
theorem delim_unambiguous_iff (delim : Str) :
    ((∀ xs ys s, xs ≠ [] → ys ≠ [] → (join delim xs).Returns s → (join delim ys).Returns s →
        xs = ys) ↔ GoodDelim delim) ∧
      ((∀ p q s, (pairToStream [] p delim).Returns s → (pairToStream [] q delim).Returns s →
        p = q) ↔ GoodDelim delim) := by
  constructor
  · rw [goodDelim_iff, ← delimited_inj_iff rfl]
    constructor
    · intro h xs ys hxs hys hsame
      exact h xs ys _ hxs hys (join_returns delim xs) (hsame ▸ join_returns delim ys)
    · intro h xs ys s hxs hys hx hy
      refine h xs ys hxs hys ?_
      rw [(join_returns delim xs).unique hx, (join_returns delim ys).unique hy]
  · rw [goodDelim_iff, ← delimited_two_inj_iff rfl]
    constructor
    · intro h k v k' v' hsame
      exact Prod.mk.inj (h (k, v) (k', v') _ (pairToStream_returns delim k v)
        (hsame ▸ pairToStream_returns delim k' v'))
    · rintro h ⟨k, v⟩ ⟨k', v'⟩ s hp hq
      refine Prod.mk.injEq .. ▸ h k v k' v' ?_
      rw [(pairToStream_returns delim k v).unique hp, (pairToStream_returns delim k' v').unique hq]

end Arrays
end Fmts
end Cppkg
