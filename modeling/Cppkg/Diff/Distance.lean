import Cppkg.Diff.Batch
import Cppkg.Diff.MinEdit
import Cppkg.Lib.Alignment

/-!
# What the number of edits is good for

The number of edits that `myersDiffMinEdit` counts is a distance between sequences if the comparator
is an equivalence, `minEdit_metric`.  For every comparator it depends only on what is between the
lines that the two sequences begin and end with in common, and so does the number of changes in the
script of `myersDiff`, `changes_context`.  A script that is put together from batches has no fewer
changes, and as many if there is one batch only, `batched_changes`.
-/

set_option autoImplicit false

namespace Cppkg
namespace Diff

open Grid

variable {α : Type} {cmp : α → α → Bool} {orig updated : List α}

/-- How many entries of a script are not `eq`. -/
def changes (diffs : List (Diff α)) : ℕ := (diffs.filter (·.action != .eq)).length

/-- The script has as many changes as there are edits. -/
theorem myersDiff_changes (cmp : α → α → Bool) (orig updated : List α)
    (hsize : orig.length + updated.length ≤ 16383) :
    ∃ diffs : List (Diff α), (myersDiff wrapping cmp orig updated).Returns diffs ∧
      changes diffs = (ofLists cmp orig updated).dist := by
  obtain ⟨diffs, hret, -, hact⟩ := @myersDiff_wp _ wrapping cmp _ _ hsize
  exact ⟨diffs, hret, (length_filter_ne_eq diffs hact).trans cost_best⟩

/-- **The number of edits is a distance.**  It is `0` only for sequences whose elements are the same
one by one, it is the same from `updated` to `orig`, and it is not made smaller by a detour. -/
theorem minEdit_metric (cmp : α → α → Bool) (hcmp : Equivalence fun a b ↦ cmp a b = true)
    (orig updated other : List α) (h₁ : orig.length + updated.length ≤ 32766)
    (h₂ : updated.length + other.length ≤ 32766) (h₃ : orig.length + other.length ≤ 32766) :
    ∃ there back on direct : ℤ,
      (myersDiffMinEdit wrapping cmp orig updated).Returns there ∧
      (myersDiffMinEdit wrapping cmp updated orig).Returns back ∧
      (myersDiffMinEdit wrapping cmp updated other).Returns on ∧
      (myersDiffMinEdit wrapping cmp orig other).Returns direct ∧
      (there = 0 ↔ List.Forall₂ (fun a b ↦ cmp a b = true) orig updated) ∧
      back = there ∧ direct ≤ there + on := by
  have hret : ∀ xs ys : List α, xs.length + ys.length ≤ 32766 →
      (myersDiffMinEdit wrapping cmp xs ys).Returns (ofLists cmp xs ys).dist := fun xs ys h ↦
    myersDiffMinEdit_returns (by omega) (.inr h)
  have hflip : (fun b a ↦ cmp a b) = cmp := by
    funext b a
    exact Bool.eq_iff_iff.mpr ⟨hcmp.symm, hcmp.symm⟩
  have hback := dist_swap cmp orig updated
  rw [hflip] at hback
  have htrans : ∀ a b c, cmp a b = true → cmp b c = true → cmp a c = true := fun _ _ _ ↦ hcmp.trans
  have hdetour := dist_triangle htrans orig updated other
  refine ⟨_, _, _, _, hret _ _ h₁, hret _ _ (by omega), hret _ _ h₂, hret _ _ h₃, ?_, ?_, ?_⟩
  · exact Int.natCast_eq_zero.trans dist_eq_zero_iff
  · exact congrArg _ hback
  · exact_mod_cast hdetour

/-- Three sequences. -/
theorem minEdit_metric_small : ∃ there back on direct : ℤ,
    (myersDiffMinEdit wrapping (· == ·) ['A', 'B'] ['B', 'C']).Returns there ∧
    (myersDiffMinEdit wrapping (· == ·) ['B', 'C'] ['A', 'B']).Returns back ∧
    (myersDiffMinEdit wrapping (· == ·) ['B', 'C'] ['C']).Returns on ∧
    (myersDiffMinEdit wrapping (· == ·) ['A', 'B'] ['C']).Returns direct ∧
    (there = 0 ↔ List.Forall₂ (fun a b ↦ (a == b) = true) ['A', 'B'] ['B', 'C']) ∧
    back = there ∧ direct ≤ there + on :=
  minEdit_metric (· == ·) ⟨beq_self_eq_true, fun h ↦ beq_iff_eq.mpr (beq_iff_eq.mp h).symm,
    fun h h' ↦ beq_iff_eq.mpr ((beq_iff_eq.mp h).trans (beq_iff_eq.mp h'))⟩
    ['A', 'B'] ['B', 'C'] ['C'] (by decide) (by decide) (by decide)

/-- **Only what is in between counts.**  What the two sequences begin with and what they end with,
if the comparator matches it element by element, changes neither the number of edits nor the number
of changes in the script. -/
theorem changes_context (cmp : α → α → Bool) (top top' bottom bottom' orig updated : List α)
    (htop : List.Forall₂ (fun a b ↦ cmp a b = true) top top')
    (hbottom : List.Forall₂ (fun a b ↦ cmp a b = true) bottom bottom')
    (hsize : (top ++ orig ++ bottom).length + (top' ++ updated ++ bottom').length ≤ 16383) :
    ∃ (edits : ℕ) (diffs diffs' : List (Diff α)),
      (myersDiffMinEdit wrapping cmp orig updated).Returns edits ∧
      (myersDiffMinEdit wrapping cmp (top ++ orig ++ bottom)
        (top' ++ updated ++ bottom')).Returns edits ∧
      (myersDiff wrapping cmp orig updated).Returns diffs ∧
      (myersDiff wrapping cmp (top ++ orig ++ bottom) (top' ++ updated ++ bottom')).Returns diffs' ∧
      changes diffs = edits ∧ changes diffs' = edits := by
  have hsize' : orig.length + updated.length ≤ 16383 := by
    simp only [List.length_append] at hsize
    omega
  have hdist : (ofLists cmp (top ++ orig ++ bottom) (top' ++ updated ++ bottom')).dist
      = (ofLists cmp orig updated).dist := by
    rw [dist_append_right hbottom, dist_append htop]
  obtain ⟨diffs, hret, hchanges⟩ := myersDiff_changes cmp orig updated hsize'
  obtain ⟨diffs', hret', hchanges'⟩ := myersDiff_changes cmp _ _ hsize
  have hedits' := @myersDiffMinEdit_returns _ wrapping cmp _ _ (by omega : _ ≤ 32767)
    (.inr (Nat.le_trans hsize (by decide)))
  rw [hdist] at hchanges' hedits'
  exact ⟨_, diffs, diffs', myersDiffMinEdit_returns (by omega) (.inr (by omega)), hedits', hret,
    hret', hchanges, hchanges'⟩

/-- One line that changes, and one on each side that does not. -/
theorem changes_context_small : ∃ (edits : ℕ) (diffs diffs' : List (Diff Char)),
    (myersDiffMinEdit wrapping (· == ·) ['B'] ['X']).Returns edits ∧
    (myersDiffMinEdit wrapping (· == ·) (['A'] ++ ['B'] ++ ['C'])
      (['A'] ++ ['X'] ++ ['C'])).Returns edits ∧
    (myersDiff wrapping (· == ·) ['B'] ['X']).Returns diffs ∧
    (myersDiff wrapping (· == ·) (['A'] ++ ['B'] ++ ['C'])
      (['A'] ++ ['X'] ++ ['C'])).Returns diffs' ∧
    changes diffs = edits ∧ changes diffs' = edits :=
  changes_context (· == ·) ['A'] ['A'] ['C'] ['C'] ['B'] ['X'] (.cons rfl .nil) (.cons rfl .nil)
    (by decide)

/-! ## Batches -/

/-- Each entry is one line less to deal with, or two. -/
theorem changes_add_two_mul (diffs : List (Diff α)) :
    changes diffs + 2 * diffs.countP (·.action == .eq)
      = (fromOrig diffs).length + (intoUpdated diffs).length := by
  induction diffs with
  | nil => rfl
  | cons diff diffs ih =>
    obtain ⟨val, o, u, action⟩ := diff
    cases action <;> simp [changes, fromOrig, intoUpdated] at ih ⊢ <;> omega

/-- The lines that a script keeps are matched. -/
theorem Turns.aligned {expect got : StringsT} {diffs : MsgDiffT} (h : Turns expect got diffs) :
    Aligned equalTo expect got (diffs.countP (·.action == .eq)) := by
  obtain ⟨htaken, hgiven⟩ := h
  induction diffs generalizing expect got with
  | nil =>
    obtain rfl := htaken
    obtain rfl := hgiven
    exact .nil
  | cons diff diffs ih =>
    obtain ⟨val, o, u, action⟩ := diff
    obtain rfl := htaken
    obtain rfl := hgiven
    cases action with
    | eq =>
      have hval : equalTo val val = true := beq_self_eq_true val
      rw [List.countP_cons_of_pos (by rfl)]
      exact .keep hval (ih rfl rfl)
    | add =>
      rw [List.countP_cons_of_neg (by simp)]
      exact .right val (ih rfl rfl)
    | del =>
      rw [List.countP_cons_of_neg (by simp)]
      exact .left val (ih rfl rfl)

/-- **Batches report no less than there is.**  Whatever the limit is, the script that is put
together has at least as many changes as the lines that are not in a longest common subsequence, and
no more than that if there is only one batch. -/
theorem batched_changes (limit : ℕ) (hlimit : 1 ≤ limit) (hlimit' : limit ≤ 8191)
    (expect got : StringsT) (l : ℕ) (hl : IsLcsLength equalTo expect got l) :
    ∃ diffs, (safeDiffMsgHelper [] expect got limit).Returns diffs ∧
      expect.length + got.length ≤ changes diffs + 2 * l ∧
      (expect.length ≤ limit ∧ got.length ≤ limit →
        changes diffs + 2 * l = expect.length + got.length) := by
  obtain ⟨diffs, hret, hturns, hact⟩ := @safeDiffMsgHelper_wp limit expect got hlimit (.inl hlimit')
  have hdist := dist_add_two_mul hl
  have hle := hturns.aligned.dist_le
  have hlines := changes_add_two_mul diffs
  have htaken := congrArg List.length hturns.taken
  have hgiven := congrArg List.length hturns.given
  rw [List.length_map] at htaken hgiven
  refine ⟨diffs, hret, by omega, fun hone ↦ ?_⟩
  rw [batched_of_le hone] at hact
  have hbest : changes diffs = (ofLists equalTo expect got).dist :=
    (length_filter_ne_eq diffs hact).trans cost_best
  omega

/-- Two lines in batches of one. -/
theorem batched_changes_small : ∃ diffs,
    (safeDiffMsgHelper [] [['a'], ['b']] [['b']] 1).Returns diffs ∧
      [['a'], ['b']].length + [['b']].length ≤ changes diffs + 2 * 1 ∧
      ([['a'], ['b']].length ≤ 1 ∧ [['b']].length ≤ 1 →
        changes diffs + 2 * 1 = [['a'], ['b']].length + [['b']].length) := by
  refine batched_changes 1 (by decide) (by decide) [['a'], ['b']] [['b']] 1 ⟨?_, ?_⟩
  · exact ⟨[['b']], [['b']], .cons _ (.refl _), .refl _, .cons (by decide) .nil, rfl⟩
  · rintro l ⟨s, t, -, ht, hst, rfl⟩
    exact hst.length_eq.trans_le ht.length_le

end Diff
end Cppkg
