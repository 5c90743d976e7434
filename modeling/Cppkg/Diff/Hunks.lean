import Cppkg.Diff.Script
import Mathlib.Data.List.Infix

/-!
# Hunks

A hunk is a run of entries none of which is `eq`.  The two tests `prevk < nextk`, of the trace and
of the backtrace, settle in which order a hunk is written: its deletions come before its additions.
-/

set_option autoImplicit false

namespace Cppkg
namespace Diff

open Grid

variable {α : Type} {diffs run : List (Diff α)}

/-- No addition is immediately followed by a deletion. -/
def Canonical (diffs : List (Diff α)) : Prop :=
  diffs.IsChain fun a b ↦ ¬ (a.action = .add ∧ b.action = .del)

theorem canonical_of_actions {ms : List Move} (hact : diffs.map Diff.action = ms.map actionOf)
    (hms : ms.IsChain fun a b ↦ ¬ (a = .down ∧ b = .right)) : Canonical diffs := by
  have h : (diffs.map Diff.action).IsChain fun a b ↦ ¬ (a = .add ∧ b = .del) := by
    rw [hact]
    refine List.isChain_map_of_isChain actionOf ?_ hms
    intro a b hab
    cases a <;> cases b <;> simp_all [actionOf]
  exact (List.isChain_map Diff.action).mp h

/-- In a canonical script, the deletions of a hunk precede its additions. -/
theorem Canonical.hunk (h : Canonical run) (hne : ∀ diff ∈ run, diff.action ≠ .eq) :
    ∃ dels adds, run = dels ++ adds ∧ (∀ diff ∈ dels, diff.action = .del) ∧
      ∀ diff ∈ adds, diff.action = .add := by
  induction run with
  | nil => exact ⟨[], [], by simp⟩
  | cons a run ih =>
    obtain ⟨hhead, htail⟩ := List.isChain_cons.mp h
    obtain ⟨dels, adds, rfl, hdels, hadds⟩ := ih htail fun d hd ↦ hne d (List.mem_cons_of_mem a hd)
    cases ha : a.action with
    | eq => exact absurd ha (hne a List.mem_cons_self)
    | del => exact ⟨a :: dels, adds, rfl, List.forall_mem_cons.mpr ⟨ha, hdels⟩, hadds⟩
    | add =>
      cases dels with
      | nil => exact ⟨[], a :: adds, rfl, by simp, List.forall_mem_cons.mpr ⟨ha, hadds⟩⟩
      | cons b dels => exact absurd ⟨ha, hdels b List.mem_cons_self⟩ (hhead b rfl)

/-- **Hunks are canonical.**  In the script of `myersDiff` no addition is immediately followed by a
deletion, so that every hunk is its deletions followed by its additions. -/
theorem myersDiff_canonical (cmp : α → α → Bool) (orig updated : List α)
    (hsize : orig.length + updated.length ≤ 16383) :
    ∃ diffs, (myersDiff wrapping cmp orig updated).Returns diffs ∧
      (∀ i a b, diffs[i]? = some a → diffs[i + 1]? = some b →
        ¬ (a.action = .add ∧ b.action = .del)) ∧
      ∀ run, run <:+: diffs → (∀ diff ∈ run, diff.action ≠ .eq) →
        ∃ dels adds, run = dels ++ adds ∧ (∀ diff ∈ dels, diff.action = .del) ∧
          ∀ diff ∈ adds, diff.action = .add := by
  obtain ⟨diffs, hret, -, hact⟩ := @myersDiff_wp _ wrapping cmp _ _ hsize
  have hcanonical := canonical_of_actions hact (isChain_moves onDiag_corner)
  refine ⟨diffs, hret, ?_, ?_⟩
  · intro i a b ha hb
    obtain ⟨hi, rfl⟩ := List.getElem?_eq_some_iff.mp ha
    obtain ⟨hi', rfl⟩ := List.getElem?_eq_some_iff.mp hb
    exact hcanonical.getElem i hi'
  · intro run hrun hne
    have hrun' : Canonical run := List.IsChain.infix hcanonical hrun
    exact hrun'.hunk hne

theorem myersDiff_canonical_small :
    ∃ diffs, (myersDiff wrapping (· == ·) ['A', 'B', 'C'] ['B', 'D']).Returns diffs ∧
      (∀ i a b, diffs[i]? = some a → diffs[i + 1]? = some b →
        ¬ (a.action = .add ∧ b.action = .del)) ∧
      ∀ run, run <:+: diffs → (∀ diff ∈ run, diff.action ≠ .eq) →
        ∃ dels adds, run = dels ++ adds ∧ (∀ diff ∈ dels, diff.action = .del) ∧
          ∀ diff ∈ adds, diff.action = .add :=
  myersDiff_canonical (· == ·) ['A', 'B', 'C'] ['B', 'D'] (by decide)

end Diff
end Cppkg
