import Cppkg.Diff.Script

/-!
# What is stored is what was computed

Three functions of `diff/myers_diff.hpp` keep coordinates, diagonals, costs and counters in an
`IndexT`.  This file is about the stores into them, and about the subscripts computed from them.

## What is here

* `Exact` — a function of the header, run with stores that refuse a value that does not fit,
  returns.  So no store changed a value and no access was out of range.
* `myersDiffTrace_refinedBy`, `myersDiffBacktrace_refinedBy` and `myersDiff_refinedBy` — for
  sequences of every size, whatever the functions return with `checking` they return with all
  stores: a run in which every value fits is the run of the compiled program.
* `indexT_exact` — up to 16383 elements in total, all three are exact.

Between two stores the source computes in `int` and in `size_t`.  A conversion to `size_t` is
written out in the model, and `int` has room for what is computed in it, which is at most the
product of two values of `IndexT` and a few more of them.
-/

set_option autoImplicit false

namespace Cppkg
namespace Diff

variable {α β : Type} {cmp : α → α → Bool} {orig updated : List α}

/-- **The values of `f` fit, and so do its subscripts.**  With `checking`, which stops at a value
that does not fit its `IndexT`, `f` returns; no access is out of range, for that is a fault as well.
The value is the same with all other stores: with those of the compiled program, and with stores
that have room for every number. -/
def Exact (f : IndexStore → Run Fault β) : Prop :=
  ∃ b, (f checking).Returns b ∧ ∀ ix : IndexStore, (f ix).Returns b

/-! ## Runs without a lost bit -/

open Run (RefinedBy)

variable (ix : IndexStore)

/-- A store that does not refuse the value stores it as it is. -/
theorem put_refinedBy (z : ℤ) : (checking.put z).RefinedBy (ix.put z) := by
  simp only [checking]
  split
  · rename_i hfits
    rw [ix.put_of_fits hfits.1 hfits.2]
    exact .refl _
  · exact Run.fail_refinedBy _ _

section Search

variable {n m : ℤ}

theorem slide_refinedBy (p : PointT) : (slide checking cmp orig updated n m p).RefinedBy
    (slide ix cmp orig updated n m p) := by
  refine RefinedBy.loop (fun ⟨x, y⟩ ↦ ?_) p
  refine .ite (.bind (.refl _) fun a ↦ .bind (.refl _) fun b ↦ .ite ?_ (.refl _)) (.refl _)
  exact .bind (put_refinedBy ix _) fun x ↦ .bind (put_refinedBy ix _) fun y ↦ .refl _

theorem enter_refinedBy (iedit k prevk nextk : ℤ) : (enter checking iedit k prevk nextk).RefinedBy
    (enter ix iedit k prevk nextk) :=
  .ite (.refl _) (put_refinedBy ix _)

theorem extend_refinedBy (ncost iedit k : ℤ) (costs : List ℤ) :
    (extend checking cmp orig updated n m ncost iedit k costs).RefinedBy
      (extend ix cmp orig updated n m ncost iedit k costs) := by
  refine .bind (.refl _) fun prevk ↦ .bind (.refl _) fun nextk ↦ ?_
  refine .bind (enter_refinedBy ix iedit k prevk nextk) fun x ↦ ?_
  refine .bind (put_refinedBy ix _) fun y ↦ ?_
  exact .bind (slide_refinedBy ix (x, y)) fun p ↦ .refl _

theorem traceDiags_refinedBy (ncost iedit : ℤ) (costs : List ℤ) :
    (traceDiags checking cmp orig updated n m ncost iedit costs).RefinedBy
      (traceDiags ix cmp orig updated n m ncost iedit costs) := by
  refine .bind (put_refinedBy ix _) fun k ↦ RefinedBy.loop (fun ⟨k, costs, cont⟩ ↦ ?_) _
  refine .ite (.bind (extend_refinedBy ix ncost iedit k costs) fun ⟨costs, x, y⟩ ↦ ?_) (.refl _)
  exact .bind (put_refinedBy ix _) fun k ↦ .refl _

end Search

/-- The search, round by round. -/
theorem myersDiffTrace_refinedBy : (myersDiffTrace checking cmp orig updated).RefinedBy
    (myersDiffTrace ix cmp orig updated) := by
  refine .bind (put_refinedBy ix _) fun n ↦ .bind (put_refinedBy ix _) fun m ↦ ?_
  refine .bind (put_refinedBy ix _) fun maxEdit ↦ .bind (.refl _) fun costs ↦ ?_
  refine RefinedBy.loop (fun ⟨iedit, costs, trace, cont⟩ ↦ ?_) _
  refine .ite (.bind (traceDiags_refinedBy ix _ _ _) fun ⟨costs, cont⟩ ↦ ?_) (.refl _)
  exact .bind (put_refinedBy ix _) fun iedit ↦ .refl _

theorem popDiag_refinedBy (prev p : PointT) (points : List PointT) :
    (popDiag checking prev p points).RefinedBy (popDiag ix prev p points) := by
  refine RefinedBy.loop (fun ⟨x, y, points⟩ ↦ .ite ?_ (.refl _)) _
  exact .bind (put_refinedBy ix _) fun x ↦ .bind (put_refinedBy ix _) fun y ↦ .refl _

theorem stepBack_refinedBy (traces : List ℤ) (ncost iedit : ℤ) (p : PointT)
    (points : List PointT) : (stepBack checking traces ncost iedit p points).RefinedBy
      (stepBack ix traces ncost iedit p points) := by
  refine .bind (put_refinedBy ix _) fun k ↦ .bind (.refl _) fun down ↦ ?_
  refine .bind (put_refinedBy ix _) fun prevK ↦ .bind (.refl _) fun prevX ↦ ?_
  refine .bind (put_refinedBy ix _) fun prevY ↦ ?_
  exact .bind (popDiag_refinedBy ix (prevX, prevY) p points) fun points ↦ .refl _

theorem followBack_refinedBy (traces : List ℤ) (ncost iedit : ℤ) (p : PointT)
    (points : List PointT) : (followBack checking traces ncost iedit p points).RefinedBy
      (followBack ix traces ncost iedit p points) := by
  refine RefinedBy.loop (fun ⟨iedit, p, points⟩ ↦ .ite ?_ (.refl _)) _
  refine .bind (stepBack_refinedBy ix traces ncost iedit p points) fun ⟨p, points⟩ ↦ ?_
  exact .bind (put_refinedBy ix _) fun iedit ↦ .refl _

/-- The way back, step by step. -/
theorem myersDiffBacktrace_refinedBy : (myersDiffBacktrace checking cmp orig updated).RefinedBy
    (myersDiffBacktrace ix cmp orig updated) := by
  refine .bind (put_refinedBy ix _) fun x ↦ .bind (put_refinedBy ix _) fun y ↦ ?_
  refine .bind (put_refinedBy ix _) fun ncost ↦ .bind (myersDiffTrace_refinedBy ix) fun traces ↦ ?_
  refine .bind (put_refinedBy ix _) fun ntraces ↦ .bind (put_refinedBy ix _) fun iedit ↦ ?_
  exact followBack_refinedBy ix traces ncost iedit (x, y) []

theorem myersDiff_refinedBy : (myersDiff checking cmp orig updated).RefinedBy
    (myersDiff ix cmp orig updated) := by
  refine .bind (put_refinedBy ix _) fun x ↦ .bind (put_refinedBy ix _) fun y ↦ ?_
  exact .bind (myersDiffBacktrace_refinedBy ix) fun points ↦ .refl _

/-! ## Sequences that are short enough -/

/-- What returns with `checking` is exact, if the stores are all there is to it. -/
theorem Exact.of_wp {f : IndexStore → Run Fault β} {Q : β → Prop} (h : (f checking).wp Q)
    (hf : ∀ ix, (f checking).RefinedBy (f ix)) : Exact f := by
  obtain ⟨b, hret, -⟩ := h
  exact ⟨b, hret, fun ix ↦ hf ix b hret⟩

/-- **No store loses a bit.**  Up to 16383 elements in total, the search, the way back and the
script store into an `IndexT` only what fits, although a path may run past the corner of the grid
and the width of a row is almost all an `IndexT` can hold, and they read and write only what is
there. -/
theorem indexT_exact (cmp : α → α → Bool) (orig updated : List α)
    (hsize : orig.length + updated.length ≤ 16383) :
    Exact (fun ix ↦ myersDiffTrace ix cmp orig updated) ∧
    Exact (fun ix ↦ myersDiffBacktrace ix cmp orig updated) ∧
    Exact (fun ix ↦ myersDiff ix cmp orig updated) := by
  have hdist := (Grid.ofLists cmp orig updated).dist_le_add
  have hn : (Grid.ofLists cmp orig updated).n = orig.length := rfl
  have hm : (Grid.ofLists cmp orig updated).m = updated.length := rfl
  have hback : (myersDiffBacktrace checking cmp orig updated).wp fun _ ↦ True :=
    myersDiffBacktrace_wp hsize trivial
  refine ⟨?_, ?_, ?_⟩
  · exact .of_wp (myersDiffTrace_wp (by omega) (by omega)) myersDiffTrace_refinedBy
  · exact .of_wp hback myersDiffBacktrace_refinedBy
  · exact .of_wp (myersDiff_wp hsize) myersDiff_refinedBy

theorem indexT_exact_abc :
    Exact (fun ix ↦ myersDiffTrace ix (· == ·) ['A', 'B', 'C'] ['B', 'C', 'D']) ∧
    Exact (fun ix ↦ myersDiffBacktrace ix (· == ·) ['A', 'B', 'C'] ['B', 'C', 'D']) ∧
    Exact (fun ix ↦ myersDiff ix (· == ·) ['A', 'B', 'C'] ['B', 'C', 'D']) :=
  indexT_exact (· == ·) ['A', 'B', 'C'] ['B', 'C', 'D'] (by decide)

end Diff
end Cppkg
