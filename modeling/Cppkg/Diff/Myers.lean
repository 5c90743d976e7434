import Cppkg.Lib.Run
import Mathlib.Algebra.Group.Int.Defs
import Mathlib.Data.Int.Basic

/-!
# `diff/myers_diff.hpp`

The functions of the header, as the header computes them.  Coordinates, costs and loop counters
are held in `IndexT`, a sixteen-bit integer, and every store of a computed value into an `IndexT`
variable is written out as `ix.put`: what such a store does to a value that does not fit is a
parameter of the model.  `wrapping` is the compiled program, which keeps the low sixteen bits.
`checking` stops instead, so a run of it that returns is a run in which every stored value was the
mathematical one.  What is copied from one `IndexT` to another, and the constants, fit as they are.

Sequences are lists.  An access outside a sequence, which the source leaves undefined, is a fault
of the run.  The loops are loops: nothing here says that they end.
-/

set_option autoImplicit false
set_option linter.dupNamespace false

namespace Cppkg
namespace Diff

/-- How a run of the code can go wrong. -/
inductive Fault
  /-- Undefined behaviour: an element, a range or a size that does not exist. -/
  | outOfRange
  /-- A value did not fit its type (`checking` only). -/
  | overflow
  /-- `std::length_error`, thrown by a container that is asked for too many elements. -/
  | lengthError
  deriving DecidableEq, Repr

/-! ## Integers and sequences -/

/-- The low sixteen bits of `z`, as a signed number: a conversion to `IndexT`. -/
def toIndexT (z : ℤ) : ℤ := (z + 32768) % 65536 - 32768

theorem toIndexT_of_fits {z : ℤ} (h₁ : -32768 ≤ z) (h₂ : z ≤ 32767) : toIndexT z = z := by
  rw [toIndexT]; omega

/-- A way of storing a value into an `IndexT`, which leaves a value that fits alone. -/
structure IndexStore where
  /-- What the variable holds after the store. -/
  put : ℤ → Run Fault ℤ
  /-- A value that fits is stored as it is. -/
  put_of_fits : ∀ {z : ℤ}, -32768 ≤ z → z ≤ 32767 → put z = pure z

/-- Stores as they are compiled. -/
def wrapping : IndexStore where
  put z := pure (toIndexT z)
  put_of_fits h₁ h₂ := by rw [toIndexT_of_fits h₁ h₂]

/-- Stores that refuse a value that does not fit. -/
def checking : IndexStore where
  put z := if -32768 ≤ z ∧ z ≤ 32767 then pure z else .fail .overflow
  put_of_fits h₁ h₂ := by rw [if_pos ⟨h₁, h₂⟩]

@[simp] theorem wrapping_put (z : ℤ) : wrapping.put z = pure (toIndexT z) := rfl

/-- A conversion to `size_t`. -/
def sizeT (z : ℤ) : ℤ := z % 2 ^ 64

theorem sizeT_of_fits {z : ℤ} (h₁ : 0 ≤ z) (h₂ : z < 2 ^ 64) : sizeT z = z :=
  Int.emod_eq_of_lt h₁ h₂

variable {α : Type}

/-- `*std::next(begin, i)`, or `v[i]`. -/
def deref (l : List α) (i : ℤ) : Run Fault α :=
  if 0 ≤ i then
    match l[i.toNat]? with
    | some a => pure a
    | none => .fail .outOfRange
  else .fail .outOfRange

theorem deref_eq {l : List α} {i : ℤ} {a : α} (hi : 0 ≤ i) (h : l[i.toNat]? = some a) :
    deref l i = pure a := by
  rw [deref, if_pos hi, h]

theorem deref_natCast {l : List α} {i : ℕ} {a : α} (h : l[i]? = some a) : deref l i = pure a :=
  deref_eq (Int.natCast_nonneg i) h

/-- `v[i] = a`. -/
def assign (l : List α) (i : ℤ) (a : α) : Run Fault (List α) :=
  if 0 ≤ i ∧ i < l.length then pure (l.set i.toNat a) else .fail .outOfRange

theorem assign_eq {l : List α} {i : ℤ} {a : α} (hi : 0 ≤ i) (h : i < l.length) :
    assign l i a = pure (l.set i.toNat a) := by
  rw [assign, if_pos ⟨hi, h⟩]

/-- The largest size of a `std::vector<IndexT>`. -/
def vectorMax : ℤ := 2 ^ 62 - 1

/-- `std::vector<IndexT> v(size, 0)`. -/
def zeros (size : ℤ) : Run Fault (List ℤ) :=
  if size ≤ vectorMax then pure (List.replicate size.toNat 0) else .fail .lengthError

/-- A point: a position in the original sequence and one in the updated sequence. -/
abbrev PointT := ℤ × ℤ

/-! ## The forward search -/

variable (ix : IndexStore) (cmp : α → α → Bool)

section Search

variable (orig updated : List α) (n m : ℤ)

/-- Follow the diagonal as long as the comparator allows. -/
def slide : PointT → Run Fault PointT :=
  Run.loop fun (x, y) ↦ do
    if x < n ∧ y < m then
      let a ← deref orig x
      let b ← deref updated y
      if cmp a b = true then
        let x ← ix.put (x + 1)
        let y ← ix.put (y + 1)
        pure (.inl (x, y))
      else pure (.inr (x, y))
    else pure (.inr (x, y))

/-- Where the best path of cost `iedit` comes onto diagonal `k`, given the costs of the two
neighbouring diagonals. -/
def enter (iedit k prevk nextk : ℤ) : Run Fault ℤ :=
  if k = -iedit ∨ (k ≠ iedit ∧ prevk < nextk) then pure nextk else ix.put (prevk + 1)

/-- The body of the inner loop, which the two searches share: extend the best path of cost `iedit`
to diagonal `k`.  Returns the updated costs and the point reached. -/
def extend (ncost iedit k : ℤ) (costs : List ℤ) : Run Fault (List ℤ × PointT) := do
  let prevk ← deref costs (sizeT (ncost + k - 1) % ncost)
  let nextk ← deref costs (sizeT (ncost + k + 1) % ncost)
  let x ← enter ix iedit k prevk nextk
  let y ← ix.put (x - k)
  let (x, y) ← slide ix cmp orig updated n m (x, y)
  let costs ← assign costs (sizeT (ncost + k) % ncost) x
  pure (costs, (x, y))

/-- The inner loop of `myersDiffMinEdit`: all diagonals at cost `iedit`. -/
def minEditDiags (ncost iedit : ℤ) (costs : List ℤ) (minEdits : ℤ) :
    Run Fault (List ℤ × Bool × ℤ) := do
  let k ← ix.put (-iedit)
  Run.loop (fun (k, costs, cont, minEdits) ↦ do
    if k ≤ iedit ∧ cont = true then
      let (costs, x, y) ← extend ix cmp orig updated n m ncost iedit k costs
      let k ← ix.put (k + 2)
      if x ≥ n ∧ y ≥ m then pure (.inl (k, costs, false, iedit))
      else pure (.inl (k, costs, cont, minEdits))
    else pure (.inr (costs, cont, minEdits))) (k, costs, true, minEdits)

/-- The inner loop of `myersDiffTrace`. -/
def traceDiags (ncost iedit : ℤ) (costs : List ℤ) : Run Fault (List ℤ × Bool) := do
  let k ← ix.put (-iedit)
  Run.loop (fun (k, costs, cont) ↦ do
    if k ≤ iedit ∧ cont = true then
      let (costs, x, y) ← extend ix cmp orig updated n m ncost iedit k costs
      let k ← ix.put (k + 2)
      pure (.inl (k, costs, decide (x < n ∨ y < m)))
    else pure (.inr (costs, cont))) (k, costs, true)

end Search

/-- The minimum number of edits between `orig` and `updated`. -/
def myersDiffMinEdit (orig updated : List α) : Run Fault ℤ := do
  let n ← ix.put orig.length
  let m ← ix.put updated.length
  let maxEdit ← ix.put (n + m)
  let ncost := sizeT (2 * maxEdit + 1)
  let costs ← zeros ncost
  let minEdits ← Run.loop (fun (iedit, costs, cont, minEdits) ↦ do
    if iedit < maxEdit ∧ cont = true then
      let (costs, cont, minEdits) ←
        minEditDiags ix cmp orig updated n m ncost iedit costs minEdits
      let iedit ← ix.put (iedit + 1)
      pure (.inl (iedit, costs, cont, minEdits))
    else pure (.inr minEdits)) ((0 : ℤ), costs, true, maxEdit)
  pure (sizeT minEdits)

/-- The diff trace: the costs before every round, one row of width `ncost` after the other. -/
def myersDiffTrace (orig updated : List α) : Run Fault (List ℤ) := do
  let n ← ix.put orig.length
  let m ← ix.put updated.length
  let maxEdit ← ix.put (n + m)
  let ncost := sizeT (2 * maxEdit + 1)
  let costs ← zeros ncost
  Run.loop (fun (iedit, costs, trace, cont) ↦ do
    if iedit ≤ maxEdit ∧ cont = true then
      let trace := trace ++ costs
      let (costs, cont) ← traceDiags ix cmp orig updated n m ncost iedit costs
      let iedit ← ix.put (iedit + 1)
      pure (.inl (iedit, costs, trace, cont))
    else pure (.inr trace)) ((0 : ℤ), costs, [], true)

/-! ## The way back -/

/-- Push the points of a diagonal run, from its end back to `prev`. -/
def popDiag (prev p : PointT) (points : List PointT) : Run Fault (List PointT) :=
  Run.loop (fun (x, y, points) ↦ do
    if x > prev.1 ∧ y > prev.2 then
      let x ← ix.put (x - 1)
      let y ← ix.put (y - 1)
      pure (.inl (x, y, points ++ [(x, y)]))
    else pure (.inr points)) (p.1, p.2, points)

/-- Was diagonal `k` entered by a step down, at cost `iedit`?  The arithmetic in the subscripts is
that of `int`, whose remainder truncates. -/
def enteredDown (traces : List ℤ) (ncost iedit k : ℤ) : Run Fault Bool := do
  if k = -iedit then pure true
  else if k = iedit then pure false
  else
    let prevk ← deref traces (iedit * ncost + Int.tmod (ncost + k - 1) ncost)
    let nextk ← deref traces (iedit * ncost + Int.tmod (ncost + k + 1) ncost)
    pure (decide (prevk < nextk))

/-- The body of the backtracking loop: from the point `p` of cost `iedit`, find the point of cost
`iedit - 1` it was reached from, and push what lies between. -/
def stepBack (traces : List ℤ) (ncost iedit : ℤ) (p : PointT) (points : List PointT) :
    Run Fault (PointT × List PointT) := do
  let k ← ix.put (p.1 - p.2)
  let down ← enteredDown traces ncost iedit k
  let prevK ← ix.put (if down = true then k + 1 else k - 1)
  let prevX ← deref traces (iedit * ncost + Int.tmod (ncost + prevK) ncost)
  let prevY ← ix.put (prevX - prevK)
  let points ← popDiag ix (prevX, prevY) p points
  pure ((prevX, prevY), if iedit > 0 then points ++ [(prevX, prevY)] else points)

/-- The backtracking loop, from the point `p` of cost `iedit`. -/
def followBack (traces : List ℤ) (ncost iedit : ℤ) (p : PointT) (points : List PointT) :
    Run Fault (List PointT) :=
  Run.loop (fun (iedit, p, points) ↦ do
    if iedit ≥ 0 then
      let (p, points) ← stepBack ix traces ncost iedit p points
      let iedit ← ix.put (iedit - 1)
      pure (.inl (iedit, p, points))
    else pure (.inr points)) (iedit, p, points)

/-- The points of the path the search found, from the last one back to the origin. -/
def myersDiffBacktrace (orig updated : List α) : Run Fault (List PointT) := do
  let x ← ix.put orig.length
  let y ← ix.put updated.length
  let ncost ← ix.put (2 * (x + y) + 1)
  let traces ← myersDiffTrace ix cmp orig updated
  let ntraces ← ix.put (traces.length / sizeT ncost)
  let iedit ← ix.put (ntraces - 1)
  followBack ix traces ncost iedit (x, y) []

/-! ## The script -/

/-- What an entry of the script does. -/
inductive Action
  /-- The element is in both sequences. -/
  | eq
  /-- The element was added. -/
  | add
  /-- The element was deleted. -/
  | del
  deriving DecidableEq, Repr

/-- An entry of the script. -/
structure Diff (α : Type) where
  /-- The element. -/
  val : α
  /-- Its position in the original sequence, or `-1`. -/
  orig : ℤ
  /-- Its position in the updated sequence, or `-1`. -/
  updated : ℤ
  /-- What happens to it. -/
  action : Action
  deriving DecidableEq, Repr

/-- The entry for the step from `next` to `prev`: the loop over the points runs backwards. -/
def diffOf (orig updated : List α) (prev next : PointT) : Run Fault (Diff α) := do
  if next.1 = prev.1 then
    let val ← deref updated next.2
    pure ⟨val, -1, next.2, .add⟩
  else if next.2 = prev.2 then
    let val ← deref orig next.1
    pure ⟨val, next.1, -1, .del⟩
  else
    let val ← deref orig next.1
    pure ⟨val, next.1, next.2, .eq⟩

/-- The entries for a list of points, in the order of the points. -/
def diffsOf (orig updated : List α) : PointT → List PointT → Run Fault (List (Diff α))
  | _, [] => pure []
  | prev, next :: points => do
    let diff ← diffOf orig updated prev next
    let diffs ← diffsOf orig updated next points
    pure (diff :: diffs)

/-- A minimum-cost list of differences between `orig` and `updated`. -/
def myersDiff (orig updated : List α) : Run Fault (List (Diff α)) := do
  let x ← ix.put orig.length
  let y ← ix.put updated.length
  let points ← myersDiffBacktrace ix cmp orig updated
  let diffs ← diffsOf orig updated (x, y) points
  pure diffs.reverse

/-- The example of the source's tests. -/
example : (myersDiff wrapping (· == ·) ['A', 'B', 'C', 'A', 'B', 'B', 'A']
    ['C', 'B', 'A', 'B', 'A', 'C']).eval 40 = some (.ok [
      ⟨'A', 0, -1, .del⟩, ⟨'B', 1, -1, .del⟩, ⟨'C', 2, 0, .eq⟩, ⟨'B', -1, 1, .add⟩,
      ⟨'A', 3, 2, .eq⟩, ⟨'B', 4, 3, .eq⟩, ⟨'B', 5, -1, .del⟩, ⟨'A', 6, 4, .eq⟩,
      ⟨'C', -1, 5, .add⟩]) := by
  decide +kernel

end Diff
end Cppkg
