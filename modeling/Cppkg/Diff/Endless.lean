import Cppkg.Diff.MinEdit
import Cppkg.Diff.Overflow

/-!
# Comparisons that do not end

There are two, one on either side of the sizes that are meant to be compared.

The counter of the diagonals of `myersDiffMinEdit` is an `IndexT` that goes up by two as long as it
is at most the number of the round.  Round 32766 tests it with 32766, so that the next value would
have to be 32768, which an `IndexT` does not hold: the counter starts over at -32768 and never gets
past the test.  A search gets to that round only if there are 32767 elements in total, and nothing
in common.

`safeDiffMsgHelper` calls itself for what is behind a batch.  Batches of no lines leave everything
behind, so that with a limit of zero each call makes the next one with the arguments it got.
-/

set_option autoImplicit false

namespace Cppkg
namespace Diff

open Grid

variable {α : Type} {cmp : α → α → Bool} {orig updated : List α} {costs : List ℤ}

/-! ## A counter that starts over -/

/-- The state of the endless round of `myersDiffMinEdit`, as in `StuckInv`. -/
def MinStuckInv (G : Grid) : ℤ × List ℤ × Bool × ℤ → Prop
  | (k, costs, cont, _) => StuckInv G (k, costs, cont)

/-- The round never ends, and commits no fault on the way. -/
theorem minEditDiags_safe_stuck (hsize : orig.length + updated.length = 32767)
    (hdist : (ofLists cmp orig updated).dist = 32767)
    (hrow : Row (ofLists cmp orig updated) 32766 costs) (minEdits : ℤ) :
    (minEditDiags wrapping cmp orig updated orig.length updated.length
      (width (ofLists cmp orig updated)) 32766 costs minEdits).safe fun _ ↦ False := by
  rw [minEditDiags, wrapping_put, show toIndexT (-32766) = -32766 by decide]
  simp only [Run.safe_bind, Run.safe_pure]
  refine Run.safe_loop (MinStuckInv (ofLists cmp orig updated)) ?_
    ⟨rfl, hrow, by decide, by decide, fun h ↦ absurd h (by decide)⟩
  rintro ⟨k, costs, cont, edits⟩ ⟨hcont, hstuck⟩
  have hgo : k ≤ 32766 ∧ cont = true := ⟨hstuck.range.2, hcont⟩
  simp only [if_pos hgo, Run.safe_bind]
  refine Run.safe_mono (Run.safe_of_wp (hstuck.extend_wp hsize hdist)) ?_
  rintro ⟨costs', x, y⟩ ⟨hfar, hnext⟩
  rw [ofLists_n, ofLists_m] at hfar
  simp only [wrapping_put, Run.safe_pure, if_neg hfar, Run.round_inl]
  exact ⟨hcont, hnext⟩

/-- The state of the search that gets to the endless round. -/
def MinStuckSearchInv (G : Grid) : ℤ × List ℤ × Bool × ℤ → Prop
  | (iedit, costs, cont, _) => cont = true ∧ ∃ d : ℕ, iedit = d ∧ d ≤ 32766 ∧ Row G d costs

/-- **A search for 32767 edits goes on forever.** -/
theorem not_halts_myersDiffMinEdit_stuck (hsize : orig.length + updated.length = 32767)
    (hdist : (ofLists cmp orig updated).dist = 32767) :
    ¬ (myersDiffMinEdit wrapping cmp orig updated).Halts := by
  have hw : 2 * ((orig.length : ℤ) + updated.length) + 1 = width (ofLists cmp orig updated) := rfl
  have hw' : width (ofLists cmp orig updated) = 65535 := by omega
  refine Run.not_halts_of_safe ?_
  rw [myersDiffMinEdit, wrapping_put, wrapping_put, toIndexT_of_fits (by omega) (by omega),
    toIndexT_of_fits (by omega) (by omega)]
  simp only [Run.safe_bind, Run.safe_pure, wrapping_put]
  rw [toIndexT_of_fits (by omega) (by omega), hw, sizeT_of_fits (by omega) (by omega), zeros,
    if_pos (by rw [vectorMax]; omega)]
  simp only [Run.safe_pure]
  refine Run.safe_loop (MinStuckSearchInv (ofLists cmp orig updated)) ?_
    ⟨rfl, 0, rfl, by omega, rfl⟩
  rintro ⟨iedit, costs, cont, minEdits⟩ ⟨hcont, d, rfl, hd, hrow⟩
  have hgo : (d : ℤ) < orig.length + updated.length ∧ cont = true := ⟨by omega, hcont⟩
  simp only [if_pos hgo, Run.safe_bind]
  rcases Nat.lt_or_eq_of_le hd with hlt | rfl
  · -- every round before the last one ends, short of the corner
    refine Run.safe_mono (Run.safe_of_wp
      (minEditDiags_wp (by omega) (by omega) (by omega) hrow minEdits)) ?_
    rintro ⟨costs', cont', edits'⟩ ⟨hnext, -⟩
    obtain ⟨hcont', -, hrow'⟩ := hnext (by omega)
    rw [toIndexT_of_fits (by omega) (by omega)]
    simp only [Run.safe_pure, Run.round_inl]
    exact ⟨hcont', d + 1, by omega, by omega, hrow'⟩
  · exact Run.safe_mono (minEditDiags_safe_stuck hsize hdist hrow minEdits) fun _ h ↦ h.elim

/-- **When `myersDiffMinEdit` ends.**  Of the inputs whose total size fits an `IndexT`, it ends on
all that are smaller than the largest, and on those of the largest size that have a pair of elements
in common. -/
theorem halts_myersDiffMinEdit_iff (cmp : α → α → Bool) (orig updated : List α)
    (hsize : orig.length + updated.length ≤ 32767) :
    (myersDiffMinEdit wrapping cmp orig updated).Halts ↔
      orig.length + updated.length ≤ 32766 ∨ ∃ a ∈ orig, ∃ b ∈ updated, cmp a b = true := by
  constructor
  · intro hhalts
    by_contra hcond
    push Not at hcond
    obtain ⟨hlt, hnone⟩ := hcond
    have hsum : orig.length + updated.length = 32767 := by omega
    have hdist := dist_eq_add_iff.mpr hnone
    exact not_halts_myersDiffMinEdit_stuck hsum (by omega) hhalts
  · rintro (hlt | ⟨a, ha, b, hb, hab⟩)
    · exact (myersDiffMinEdit_returns hsize (.inr hlt)).halts
    · have hne : (ofLists cmp orig updated).dist ≠ orig.length + updated.length :=
        fun heq ↦ dist_eq_add_iff.mp heq a ha b hb hab
      have hpar := dist_parity cmp orig updated
      have hle := (ofLists cmp orig updated).dist_le_add
      rw [ofLists_n, ofLists_m] at hle
      exact (myersDiffMinEdit_returns hsize (.inl (by omega))).halts

theorem halts_myersDiffMinEdit_single :
    (myersDiffMinEdit wrapping (· == ·) ['A'] ['A']).Halts ↔
      (['A'].length + ['A'].length ≤ 32766 ∨
        ∃ a ∈ ['A'], ∃ b ∈ ['A'], (a == b) = true) :=
  halts_myersDiffMinEdit_iff (· == ·) ['A'] ['A'] (by decide)

/-- 32767 added lines. -/
theorem not_halts_myersDiffMinEdit_added :
    ([] : List Char).length + (List.replicate 32767 'A').length ≤ 32767 ∧
      ¬ (myersDiffMinEdit wrapping (· == ·) [] (List.replicate 32767 'A')).Halts := by
  have hlen : ([] : List Char).length + (List.replicate 32767 'A').length = 32767 := by
    rw [List.length_replicate, List.length_nil]
  have hdist : (ofLists (· == ·) [] (List.replicate 32767 'A')).dist
      = ([] : List Char).length + (List.replicate 32767 'A').length :=
    dist_eq_add_iff.mpr fun a ha ↦ absurd ha List.not_mem_nil
  exact ⟨hlen.le, not_halts_myersDiffMinEdit_stuck hlen (hdist.trans hlen)⟩

/-! ## Batches of no lines -/

variable {limit : ℕ} {expect got : StringsT}

/-- A call with a limit of zero makes the next one with the same lines. -/
theorem helperCall_zero_wp (diffs : MsgDiffT) (h : ¬ (expect = [] ∧ got = [])) :
    (helperCall 0 (diffs, expect, got)).wp fun o ↦
      ∃ diffs', o = .inl (diffs', expect, got) := by
  refine Run.wp_mono (helperCall_wp (.inl (by decide)) diffs) ?_
  rintro (⟨diffs', expect', got'⟩ | diffs') hcall
  · obtain ⟨-, rfl, rfl, -⟩ := hcall
    have htaken : taken (firstBatch 0 expect got) = 0 := by
      simpa using taken_firstBatch_le 0 expect got
    have hgiven : given (firstBatch 0 expect got) = 0 := by
      simpa using given_firstBatch_le 0 expect got
    exact ⟨diffs', by rw [htaken, hgiven, List.drop_zero, List.drop_zero]⟩
  · obtain ⟨⟨hexpect, hgot⟩, -⟩ := hcall
    exact absurd ⟨List.length_eq_zero_iff.mp (Nat.le_zero.mp hexpect),
      List.length_eq_zero_iff.mp (Nat.le_zero.mp hgot)⟩ h

/-- **With a limit of zero, lines are never done with.** -/
theorem not_halts_safeDiffMsgHelper_zero (diffs : MsgDiffT) (h : ¬ (expect = [] ∧ got = [])) :
    ¬ (safeDiffMsgHelper diffs expect got 0).Halts := by
  refine Run.not_halts_of_safe (Run.safe_loop (fun s ↦ s.2 = (expect, got)) ?_ rfl)
  rintro ⟨diffs, -⟩ rfl
  refine Run.safe_mono (Run.safe_of_wp (helperCall_zero_wp diffs h)) ?_
  rintro - ⟨diffs', rfl⟩
  rfl

/-- Without any lines there is nothing to recurse on. -/
theorem safeDiffMsgHelper_nil (limit : ℕ) : (safeDiffMsgHelper [] [] [] limit).Returns [] := by
  refine Run.returns_loop.mpr (.inl ?_)
  have hle : ([] : StringsT).length ≤ limit ∧ ([] : StringsT).length ≤ limit :=
    ⟨Nat.zero_le limit, Nat.zero_le limit⟩
  have hdiff : (myersDiff wrapping equalTo ([] : StringsT) []).Returns [] :=
    ⟨6, by decide +kernel⟩
  simp only [helperCall, if_pos hle, Run.returns_bind]
  exact ⟨[], hdiff, [], ⟨1, rfl⟩, Run.returns_pure.mpr rfl⟩

/-- A script of any length is rendered, or refused. -/
theorem halts_toString (diffs : MsgDiffT) : (MsgDiffT.toString diffs).Halts := by
  rcases Int.lt_or_le (toIndexT diffs.length) 0 with hneg | hpos
  · rw [MsgDiffT.toString]
    simp only [if_pos hneg]
    exact (Run.fails_fail.mpr rfl).halts
  · exact (toString_returns (Int.toNat_of_nonneg hpos).symm).halts

/-- **When `safeDiffMsg` ends.**  With a limit whose first batch fits the search, the recursion gets
to its base case, and the message is done, for every positive limit — and for a limit of zero when
there is nothing to compare. -/
theorem halts_safeDiffMsg_iff (expect got : StringsT) (limit : ℕ) (hlimit : limit ≤ 8191) :
    ((∃ diffs, (safeDiffMsgHelper [] expect got limit).Returns diffs) ↔
      0 < limit ∨ (expect = [] ∧ got = [])) ∧
    ((safeDiffMsg expect got limit).Halts ↔ 0 < limit ∨ (expect = [] ∧ got = [])) := by
  have hreturns : 0 < limit ∨ (expect = [] ∧ got = []) →
      ∃ diffs, (safeDiffMsgHelper [] expect got limit).Returns diffs := by
    rintro (hpos | ⟨rfl, rfl⟩)
    · obtain ⟨diffs, hret, -⟩ := @safeDiffMsgHelper_wp limit expect got hpos (.inl hlimit)
      exact ⟨diffs, hret⟩
    · exact ⟨[], safeDiffMsgHelper_nil limit⟩
  have hcond : (safeDiffMsgHelper [] expect got limit).Halts →
      0 < limit ∨ (expect = [] ∧ got = []) := by
    intro hhalts
    by_contra hnot
    obtain ⟨hzero, hlines⟩ := not_or.mp hnot
    obtain rfl : limit = 0 := by omega
    exact not_halts_safeDiffMsgHelper_zero [] hlines hhalts
  refine ⟨⟨fun ⟨diffs, hret⟩ ↦ hcond hret.halts, hreturns⟩,
    fun hhalts ↦ hcond (Run.Halts.of_bind hhalts), fun h ↦ ?_⟩
  obtain ⟨diffs, hret⟩ := hreturns h
  exact hret.halts_bind (halts_toString diffs)

theorem halts_safeDiffMsg_two :
    ((∃ diffs, (safeDiffMsgHelper [] [['a'], ['b'], ['c']] [['b']] 2).Returns diffs) ↔
      0 < 2 ∨ ([['a'], ['b'], ['c']] = ([] : StringsT) ∧ [['b']] = ([] : StringsT))) ∧
    ((safeDiffMsg [['a'], ['b'], ['c']] [['b']] 2).Halts ↔
      0 < 2 ∨ ([['a'], ['b'], ['c']] = ([] : StringsT) ∧ [['b']] = ([] : StringsT))) :=
  halts_safeDiffMsg_iff [['a'], ['b'], ['c']] [['b']] 2 (by decide)

/-- A single line is too much for a limit of zero. -/
theorem not_halts_safeDiffMsg_zero :
    0 ≤ 8191 ∧ ¬ (safeDiffMsgHelper [] [['a']] [] 0).Halts ∧
      ¬ (safeDiffMsg [['a']] [] 0).Halts := by
  have hlines : ¬ ([['a']] = ([] : StringsT) ∧ ([] : StringsT) = []) := by decide
  have hhelper := not_halts_safeDiffMsgHelper_zero [] hlines
  exact ⟨by decide, hhelper, fun h ↦ hhelper (Run.Halts.of_bind h)⟩

end Diff
end Cppkg
