import Cppkg.Diff.Backtrace

/-!
# What the trace holds

The rows of `myersDiffTrace`, read from the flat vector that is returned: row 0 is all zeros, and
row `r` holds, for each diagonal that a path of cost `r - 1` can end on, how far along it such a
path can get.  A path may leave the grid; there is nothing to match outside of it.
-/

set_option autoImplicit false

namespace Cppkg
namespace Diff

open Grid

variable {α : Type}

/-- The columns at which paths of cost `d` end on diagonal `k`. -/
def endings (G : Grid) (d : ℕ) (k : ℤ) : Set ℕ := {x | ∃ y : ℕ, (y : ℤ) = x - k ∧ G.Reach d x y}

/-- `furthest` is the furthest of them. -/
theorem isGreatest_furthest {G : Grid} {d : ℕ} {k : ℤ} (hk : OnDiag d k) :
    IsGreatest (endings G d k) (G.furthest d k) := by
  obtain ⟨hle, hreach⟩ := G.reach_furthest hk
  refine ⟨⟨_, Int.toNat_of_nonneg (by omega), hreach⟩, ?_⟩
  rintro x ⟨y, hy, hxy⟩
  have h := hxy.le_furthest.2
  rwa [show (x : ℤ) - y = k by omega] at h

/-- What the flat vector `cells` is to the edit graph `G`. -/
structure FurthestTrace (G : Grid) (cells : List ℤ) : Prop where
  /-- One row for each cost up to the edit distance, and one more. -/
  length : cells.length = (G.dist + 1) * (width G).toNat
  /-- The first row is all zeros. -/
  zeros : ∀ i < (width G).toNat, cells[i]? = some 0
  /-- Every other row holds the furthest-reaching points of the round before it. -/
  furthest : ∀ r, 1 ≤ r → r ≤ G.dist → ∀ k, OnDiag (r - 1) k →
    ∃ x : ℕ, cells[r * (width G).toNat + slot (width G) k]? = some (x : ℤ) ∧
      IsGreatest (endings G (r - 1) k) x

/-- The rows of the search make up such a vector. -/
theorem Trace.furthestTrace {G : Grid} {rows : List (List ℤ)} (h : Trace G (G.dist + 1) rows) :
    FurthestTrace G rows.flatten := by
  have hrow : ∀ r ≤ G.dist, ∃ row, rows[r]? = some row ∧ Row G r row := by
    intro r hr
    have hlt : r < rows.length := by rw [h.length]; omega
    exact ⟨rows[r], List.getElem?_eq_getElem hlt, h.row r _ (List.getElem?_eq_getElem hlt)⟩
  refine ⟨?_, fun i hi ↦ ?_, fun r hr hle k hk ↦ ?_⟩
  · rw [length_flatten h.length_row, h.length]
  · obtain ⟨row, hr, hzero⟩ := hrow 0 (Nat.zero_le _)
    have hflat := getElem?_flatten h.length_row hr hi
    rw [Nat.zero_mul, Nat.zero_add] at hflat
    rw [hflat, show row = List.replicate (width G).toNat 0 from hzero, List.getElem?_replicate,
      if_pos hi]
  · obtain ⟨row, hr', hcosts⟩ := hrow r hle
    obtain ⟨d, rfl⟩ := Nat.exists_eq_add_of_le' hr
    rw [Nat.add_sub_cancel] at hk ⊢
    refine ⟨G.furthest d k, ?_, isGreatest_furthest hk⟩
    rw [getElem?_flatten h.length_row hr' (slot_lt (width_pos G) k)]
    exact hcosts.2.2 k hk

/-- **The furthest-reaching lemma.**  The trace that `myersDiffTrace` returns holds one row for each
cost up to the edit distance and one more, and in each row but the first the furthest-reaching
points. -/
theorem myersDiffTrace_furthest (cmp : α → α → Bool) (orig updated : List α)
    (hsize : orig.length + updated.length ≤ 16383) :
    ∃ trace, (myersDiffTrace wrapping cmp orig updated).Returns trace ∧
      FurthestTrace (ofLists cmp orig updated) trace := by
  have hdist := (ofLists cmp orig updated).dist_le_add
  rw [ofLists_n, ofLists_m] at hdist
  obtain ⟨trace, htrace, rows, rfl, hrows⟩ :=
    @myersDiffTrace_wp α wrapping cmp orig updated
      (by omega) (by omega)
  exact ⟨_, htrace, hrows.furthestTrace⟩

theorem myersDiffTrace_furthest_ab :
    ['A', 'B'].length + ['B', 'C'].length ≤ 16383 ∧
      ∃ trace, (myersDiffTrace wrapping (· == ·) ['A', 'B'] ['B', 'C']).Returns trace ∧
        FurthestTrace (ofLists (· == ·) ['A', 'B'] ['B', 'C']) trace :=
  ⟨by decide, myersDiffTrace_furthest (· == ·) ['A', 'B'] ['B', 'C'] (by decide)⟩

end Diff
end Cppkg
