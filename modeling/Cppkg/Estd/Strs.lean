import Cppkg.Fmts.Trim

/-!
# Prefixes and affixes, from `estd/src/strs.cpp`

`hasPrefix` compares as much of the two strings as there is of both; `hasAffix` first looks whether
the string is long enough.  So a string that is too short has its prefix if it is the beginning of
it, and never has its affix.
-/

set_option autoImplicit false

namespace Cppkg
namespace Estd

/-- `std::equal` on a range and on what begins where a second range does; `none` if that is read
past its end. -/
def equal : Str → Str → Option Bool
  | [], _ => some true
  | _ :: _, [] => none
  | c :: range, c' :: other => if c = c' then equal range other else some false

def hasPrefix (str pre : Str) : Option Bool :=
  let n := str.length
  let nprefix := pre.length
  equal (str.take (min n nprefix)) pre

def hasAffix (str affix : Str) : Option Bool :=
  let n := str.length
  let naffix := affix.length
  if n < naffix then some false
  else equal (str.drop (n - naffix)) affix

/-! ## What they compare -/

/-- Nothing is read past the end of a range that is long enough. -/
theorem equal_eq {range other : Str} (h : range.length ≤ other.length) :
    equal range other = some (decide (range <+: other)) := by
  induction range generalizing other with
  | nil => simp [equal]
  | cons c range ih =>
    cases other with
    | nil => simp at h
    | cons c' other =>
      rw [equal]
      split
      · rename_i hc
        rw [ih (by simpa using h)]
        simp [List.cons_prefix_cons, hc]
      · rename_i hc
        simp [List.cons_prefix_cons, hc]

/-- What `hasPrefix` looks at is the beginning of both or of neither. -/
theorem take_prefix_iff (str pre : Str) :
    str.take (min str.length pre.length) <+: pre ↔ pre <+: str ∨ str <+: pre := by
  have htake : str.take (min str.length pre.length) <+: str := List.take_prefix ..
  have hlen : (str.take (min str.length pre.length)).length ≤ pre.length := by
    rw [List.length_take]
    omega
  constructor
  · intro h
    rcases Nat.le_total str.length pre.length with hle | hle
    · rw [Nat.min_eq_left hle, List.take_length] at h
      exact .inr h
    · rw [Nat.min_eq_right hle] at h htake
      have heq := h.eq_of_length (by rw [List.length_take]; omega)
      exact .inl (heq ▸ htake)
  · rintro (h | h)
    · exact List.prefix_of_prefix_length_le htake h hlen
    · exact htake.trans h

/-- **What `hasPrefix` says**: one of the two is the beginning of the other. -/
theorem hasPrefix_eq (str pre : Str) :
    hasPrefix str pre = some (decide (pre <+: str ∨ str <+: pre)) := by
  rw [hasPrefix, equal_eq (by rw [List.length_take]; omega)]
  simp only [take_prefix_iff]

/-- **What `hasAffix` says.** -/
theorem hasAffix_eq (str affix : Str) : hasAffix str affix = some (decide (affix <:+ str)) := by
  rw [hasAffix]
  split
  · rename_i h
    have hno : ¬ affix <:+ str := fun hs ↦ absurd hs.length_le (by omega)
    simp [hno]
  · rw [equal_eq (by rw [List.length_drop]; omega)]
    congr 2
    rw [eq_iff_iff]
    constructor
    · intro h
      have heq := h.eq_of_length (by rw [List.length_drop]; omega)
      exact heq ▸ List.drop_suffix ..
    · intro h
      exact (List.suffix_iff_eq_drop.mp h) ▸ List.prefix_rfl

/-- **Prefixes and affixes are mirror images** if the string is not a part of the prefix that is
shorter than it. -/
theorem hasPrefix_mirror_iff (str pre : Str) :
    (hasPrefix str pre = hasAffix str.reverse pre.reverse ∧
      (hasPrefix str pre = some true ↔ ∃ t, str = pre ++ t)) ↔
    pre.length ≤ str.length ∨ ¬ str <+: pre := by
  have hex : (∃ t, str = pre ++ t) ↔ pre <+: str := by
    simp only [List.prefix_iff_exists_append_eq, eq_comm]
  rw [hasPrefix_eq, hasAffix_eq, hex]
  simp only [Option.some.injEq, decide_eq_decide, decide_eq_true_eq, List.reverse_suffix]
  constructor
  · rintro ⟨h, -⟩
    by_contra hc
    rw [not_or, not_not, Nat.not_le] at hc
    have hle := (h.mp (.inr hc.2)).length_le
    omega
  · intro h
    have hiff : pre <+: str ∨ str <+: pre ↔ pre <+: str := by
      refine or_iff_left_of_imp fun hs ↦ ?_
      have heq := hs.eq_of_length_le (h.resolve_right (not_not_intro hs))
      exact heq ▸ List.prefix_rfl
    exact ⟨hiff, hiff⟩

/-- `ab` has the prefix `abc`. -/
theorem not_hasPrefix_mirror : ¬ ∀ str pre : Str,
    hasPrefix str pre = hasAffix str.reverse pre.reverse ∧
      (hasPrefix str pre = some true ↔ ∃ t, str = pre ++ t) := by
  intro h
  exact absurd (h ['a', 'b'] ['a', 'b', 'c']).1 (by decide)

end Estd
end Cppkg
