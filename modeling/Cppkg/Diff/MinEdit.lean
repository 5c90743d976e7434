import Cppkg.Diff.Script

/-!
# The minimum number of edits

`myersDiffMinEdit` is a second copy of the forward search.  It keeps no trace, it gives up one round
earlier — when only the dearest possible script is left, it answers without searching for it — and
it tests for the corner in its own way.  It computes the same number: the edit distance, which is
also how many entries of the script of `myersDiff` are not `eq`, and what a longest common
subsequence leaves over.
-/

set_option autoImplicit false

namespace Cppkg
namespace Diff

open Grid

variable {α : Type} {ix : IndexStore} {cmp : α → α → Bool} {orig updated : List α}
variable {d : ℕ} {costs : List ℤ}

/-- The state of a round, as in `RoundInv`; the number of edits is known once the corner is
reached. -/
def MinRoundInv (G : Grid) (d : ℕ) (minEdits : ℤ) : ℤ × List ℤ × Bool × ℤ → Prop
  | (k, costs, cont, edits) => RoundInv G d (k, costs, cont) ∧
    edits = if cont = true then minEdits else (d : ℤ)

/-- What round `d` leaves behind. -/
def MinRoundEnd (G : Grid) (d : ℕ) (minEdits : ℤ) : List ℤ × Bool × ℤ → Prop
  | (costs, cont, edits) =>
    (d < G.dist → cont = true ∧ edits = minEdits ∧ Row G (d + 1) costs) ∧
    (d = G.dist → cont = false ∧ edits = d)

/-- **One round of `myersDiffMinEdit`.** -/
theorem minEditDiags_wp (hsize : orig.length + updated.length ≤ 32767)
    (hd : d ≤ (ofLists cmp orig updated).dist) (hd' : d ≤ 32765)
    (hrow : Row (ofLists cmp orig updated) d costs) (minEdits : ℤ) :
    (minEditDiags ix cmp orig updated orig.length updated.length
      (width (ofLists cmp orig updated)) d costs minEdits).wp
        (MinRoundEnd (ofLists cmp orig updated) d minEdits) := by
  generalize hG : ofLists cmp orig updated = G at *
  have hn : G.n = orig.length := by rw [← hG]; rfl
  have hm : G.m = updated.length := by rw [← hG]; rfl
  have hdist := G.dist_le_add
  obtain ⟨hc1, hc2, hc3⟩ := G.onDiag_corner
  rw [minEditDiags, ix.put_of_fits (by omega) (by omega)]
  simp only [Run.wp_bind, Run.wp_pure]
  refine Run.wp_loop (MinRoundInv G d minEdits) (fun s ↦ (d + 2 - s.1).toNat) ?_ ?_
  · rintro ⟨k, costs, cont, edits⟩ ⟨⟨h1, h2, h3, hinv, hcont⟩, hedits⟩
    simp only
    by_cases hgo : k ≤ d ∧ cont = true
    · have hk : OnDiag d k := ⟨h1, hgo.1, h3⟩
      have hdone := furthest_done_iff hk hd
      have hcont' := hcont.mp hgo.2
      have hnext := hinv.next hk hd
      rw [if_pos hgo.2] at hedits
      simp only [if_pos hgo, Run.wp_bind]
      subst hG
      refine extend_wp hsize hk hd (hinv.old hgo.1) ?_
      rw [ix.put_of_fits (by omega) (by omega)]
      rw [hn, hm] at hdone hcont' hcont
      simp only [Run.wp_pure, Run.wp_ite, ge_iff_le, hdone]
      split
      · simp only [Run.round_inl]
        exact ⟨⟨⟨by omega, by omega, by omega, hnext, by simp; omega⟩, rfl⟩, by omega⟩
      · simp only [Run.round_inl, hgo.2]
        exact ⟨⟨⟨by omega, by omega, by omega, hnext, by simp; omega⟩, hedits⟩, by omega⟩
    · simp only [if_neg hgo, Run.wp_pure, Run.round_inr]
      refine ⟨fun hlt ↦ ?_, fun heq ↦ ?_⟩
      · have hct : cont = true := hcont.mpr (.inl hlt)
        rw [if_pos hct] at hedits
        exact ⟨hct, hedits, hinv.row (by by_contra hc; exact hgo ⟨by omega, hct⟩)⟩
      · have hct : cont = false := by
          by_contra hc
          have hct : cont = true := by simpa using hc
          have := hcont.mp hct
          exact hgo ⟨by omega, hct⟩
        exact ⟨hct, by simpa [hct] using hedits⟩
  · exact ⟨⟨by omega, by omega, by omega, hrow.diagInv, by simp only [true_iff]; omega⟩, rfl⟩

/-- The state of the search before round `iedit`. -/
def MinSearchInv (G : Grid) (maxEdit : ℤ) : ℤ × List ℤ × Bool × ℤ → Prop
  | (iedit, costs, cont, minEdits) => ∃ d : ℕ, iedit = d ∧ d ≤ G.dist + 1 ∧
    (cont = true ↔ d ≤ G.dist) ∧ (d ≤ G.dist → Row G d costs) ∧
    minEdits = if cont = true then maxEdit else (G.dist : ℤ)

/-- **`myersDiffMinEdit` returns the edit distance.**  The sizes may be anything that fits an
`IndexT`, except for the one case in which the last round would need a counter past its largest
value. -/
theorem myersDiffMinEdit_returns (hsize : orig.length + updated.length ≤ 32767)
    (hdist : (ofLists cmp orig updated).dist ≤ 32765 ∨ orig.length + updated.length ≤ 32766) :
    (myersDiffMinEdit ix cmp orig updated).Returns (ofLists cmp orig updated).dist := by
  rw [← Run.wp_eq_iff]
  generalize hG : ofLists cmp orig updated = G at *
  have hn : G.n = orig.length := by rw [← hG]; rfl
  have hm : G.m = updated.length := by rw [← hG]; rfl
  have hw : width G = 2 * (G.n + G.m) + 1 := rfl
  have hle := G.dist_le_add
  rw [myersDiffMinEdit, ix.put_of_fits (by omega) (by omega),
    ix.put_of_fits (by omega) (by omega)]
  simp only [Run.wp_bind, Run.wp_pure]
  rw [ix.put_of_fits (by omega) (by omega)]
  simp only [Run.wp_pure]
  rw [show 2 * ((orig.length : ℤ) + updated.length) + 1 = width G by rw [hw, hn, hm],
    sizeT_of_fits (by omega) (by omega), zeros, if_pos (by rw [vectorMax]; omega)]
  simp only [Run.wp_pure]
  refine Run.wp_loop (MinSearchInv G (orig.length + updated.length))
    (fun s ↦ (G.dist + 1 - s.1).toNat) ?_ ?_
  · rintro ⟨iedit, costs, cont, minEdits⟩ ⟨d, rfl, hd, hcont, hrow, hedits⟩
    simp only
    by_cases hgo : (d : ℤ) < orig.length + updated.length ∧ cont = true
    · have hd' := hcont.mp hgo.2
      simp only [if_pos hgo, Run.wp_bind]
      subst hG
      refine Run.wp_mono (minEditDiags_wp hsize hd' (by omega) (hrow hd') minEdits) ?_
      rintro ⟨costs', cont', minEdits'⟩ ⟨hlt, heq⟩
      rw [ix.put_of_fits (by omega) (by omega)]
      simp only [Run.wp_pure, Run.round_inl]
      rcases Nat.lt_or_eq_of_le hd' with h | h
      · obtain ⟨hc, he, hr⟩ := hlt h
        rw [if_pos hgo.2] at hedits
        exact ⟨⟨d + 1, by omega, by omega, by simp only [hc, true_iff]; omega, fun _ ↦ hr,
          by rw [hc, he, if_pos rfl, hedits]⟩, by omega⟩
      · obtain ⟨hc, he⟩ := heq h
        exact ⟨⟨d + 1, by omega, by omega, by simp only [hc, Bool.false_eq_true, false_iff]; omega,
          fun _ ↦ by omega, by rw [hc, he, h]; rfl⟩, by omega⟩
    · simp only [if_neg hgo, Run.wp_pure, Run.round_inr, hedits]
      have hval : (if cont = true then (orig.length : ℤ) + updated.length else (G.dist : ℤ))
          = G.dist := by
        split
        · rename_i hc
          have hge : ¬ (d : ℤ) < orig.length + updated.length := fun h ↦ hgo ⟨h, hc⟩
          have := hcont.mp hc
          omega
        · rfl
      rw [hval, sizeT_of_fits (by omega) (by omega)]
  · exact ⟨0, rfl, by omega, by simp, fun _ ↦ rfl, rfl⟩

theorem length_filter_ne_eq (diffs : List (Diff α)) {ms : List Move}
    (h : diffs.map Diff.action = ms.map actionOf) :
    (diffs.filter (·.action != .eq)).length = cost ms := by
  have h1 : (diffs.filter (·.action != .eq)).length =
      (diffs.map Diff.action).countP (· != .eq) := by
    rw [List.countP_map, List.countP_eq_length_filter]
    rfl
  rw [h1, h, List.countP_map, cost]
  refine List.countP_congr fun mv _ ↦ ?_
  cases mv <;> simp [actionOf]

/-- **Both searches are optimal, and agree.**  The number of entries of the script that are not
`eq`, the value of `myersDiffMinEdit` and what a longest common subsequence leaves over are one and
the same. -/
theorem minEdit_eq_script_eq_lcs (cmp : α → α → Bool) (orig updated : List α)
    (hsize : orig.length + updated.length ≤ 16383) :
    ∃ (diffs : List (Diff α)) (edits : ℤ),
      (myersDiff wrapping cmp orig updated).Returns diffs ∧
      (myersDiffMinEdit wrapping cmp orig updated).Returns edits ∧
      ((diffs.filter (·.action != .eq)).length : ℤ) = edits ∧
      ∃ l : ℕ, IsLcsLength cmp orig updated l ∧
        edits = orig.length + updated.length - 2 * l := by
  obtain ⟨diffs, hret, -, hact⟩ := @myersDiff_wp _ wrapping cmp _ _ hsize
  have hmin := @myersDiffMinEdit_returns _ wrapping cmp orig updated (by omega) (.inr (by omega))
  have hlcs := dist_add_two_mul (@isLcsLength_best _ _ cmp orig updated)
  refine ⟨diffs, _, hret, hmin, ?_, _, isLcsLength_best, by omega⟩
  rw [length_filter_ne_eq diffs hact, cost_best]

theorem minEdit_eq_script_eq_lcs_small :
    ∃ (diffs : List (Diff Char)) (edits : ℤ),
      (myersDiff wrapping (· == ·) ['A', 'B', 'C'] ['B', 'C', 'D']).Returns diffs ∧
      (myersDiffMinEdit wrapping (· == ·) ['A', 'B', 'C'] ['B', 'C', 'D']).Returns edits ∧
      ((diffs.filter (·.action != .eq)).length : ℤ) = edits ∧
      ∃ l : ℕ, IsLcsLength (· == ·) ['A', 'B', 'C'] ['B', 'C', 'D'] l ∧ edits = 3 + 3 - 2 * l :=
  minEdit_eq_script_eq_lcs (· == ·) ['A', 'B', 'C'] ['B', 'C', 'D'] (by decide)

end Diff
end Cppkg
