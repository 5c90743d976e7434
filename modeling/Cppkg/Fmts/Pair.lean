import Cppkg.Fmts.Arrays

/-!
# Pairs, from `fmts/fmts.hpp`

A pair of strings is written with `pairDelim` between the two.  A `fmts::String` writes an
`arrDelim` in front of every symbol, and `pairDelim` is one, so the delimiter is the only
`pairDelim` that has no `arrDelim` of its own in front of it.  That makes pairs unambiguous, as
arrays are not.
-/

set_option autoImplicit false

namespace Cppkg
namespace Fmts

/-- Stream pair `p` to `s` given specified `delim` between first and second elements. -/
def pairToStream (s : Str) (p : Str × Str) (delim : Str) : Run Fault Str := do
  let s ← toStream s p.1
  toStream (s ++ delim) p.2

namespace Pair

/-- Stream pair using default delim. -/
def toStream (s : Str) (p : Str × Str) : Run Fault Str := pairToStream s p [pairDelim]

/-- Return string representation of a pair. -/
def toString (p : Str × Str) : Run Fault Str := toStream [] p

open Escape

/-- What `toString` returns. -/
theorem toString_returns (k v : Str) :
    (toString (k, v)).Returns (broken k ++ pairDelim :: broken v) := by
  rw [← Run.wp_eq_iff, toString, toStream, pairToStream, Run.wp_bind,
    (toStream_returns [] k).wp_iff, (toStream_returns _ v).wp_iff]
  simp

/-- **Pairs are unambiguous.**  No other pair is written the same, and the `pairDelim` that stands
right behind the first element is the only one that is not escaped. -/
theorem toString_unambiguous (k v : Str) :
    ∃ key s, (stdString k).Returns key ∧ (toString (k, v)).Returns s ∧
      (∀ k' v', (toString (k', v')).Returns s → k' = k ∧ v' = v) ∧
      ∀ i, s[i]? = some pairDelim ∧ ¬ Escaped arrDelim s i ↔ i = key.length := by
  refine ⟨_, _, stdString_returns k, toString_returns k v, fun k' v' h ↦ ?_, fun i ↦ ?_⟩
  · exact encode_delim_inj rfl rfl (by decide) ((toString_returns k' v').unique h)
  · exact delim_iff rfl rfl (by decide) k v i

end Pair
end Fmts
end Cppkg
