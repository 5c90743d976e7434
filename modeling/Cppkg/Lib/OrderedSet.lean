import Mathlib.Data.List.Nodup

/-!
# Ordered sets

An ordered set is a list without repetitions: a set whose elements have an order, which is the one
they were put in.  Adding an element that is there already changes nothing, neither the set nor the
order; taking one out keeps the order of the others.

`OrderedSet.step` runs a list of operations.  It fails in one case, an insertion past the end.
-/

set_option autoImplicit false

/-- A set with an order. -/
structure OrderedSet (α : Type) where
  elems : List α
  nodup : elems.Nodup

namespace OrderedSet

variable {α : Type}

@[ext] theorem ext {s t : OrderedSet α} (h : s.elems = t.elems) : s = t := by
  cases s
  cases t
  cases h
  rfl

/-- The empty set. -/
def empty : OrderedSet α := ⟨[], .nil⟩

/-- A list without repetitions stays so when an element is put anywhere that it does not have. -/
theorem nodup_insert {l : List α} (hl : l.Nodup) {a : α} (ha : a ∉ l) (i : ℕ) :
    (l.take i ++ a :: l.drop i).Nodup := by
  rw [List.perm_middle.nodup_iff, List.take_append_drop]
  exact List.nodup_cons.mpr ⟨ha, hl⟩

/-- Take out the last element. -/
def popBack (s : OrderedSet α) : OrderedSet α :=
  ⟨s.elems.dropLast, s.nodup.sublist (List.dropLast_sublist _)⟩

theorem popBack_of_nil {s : OrderedSet α} (h : s.elems = []) : s.popBack = s :=
  ext ((congrArg List.dropLast h).trans h.symm)

variable [DecidableEq α] (s : OrderedSet α)

/-- Put `a` before the element at `i`, or at the end if that is where `i` is. -/
def insert (i : ℕ) (a : α) : OrderedSet α :=
  if h : a ∈ s.elems then s
  else ⟨s.elems.take i ++ a :: s.elems.drop i, nodup_insert s.nodup h i⟩

/-- Put `a` at the end. -/
def pushBack (a : α) : OrderedSet α := s.insert s.elems.length a

/-- Take out `a`. -/
def erase (a : α) : OrderedSet α := ⟨s.elems.filter (· ≠ a), s.nodup.filter _⟩

/-- The set of the elements of a list, in the order of their first occurrences. -/
def ofList (l : List α) : OrderedSet α := l.foldl pushBack empty

/-- The operations. -/
inductive Op (α : Type)
  | pushBack (a : α)
  | insert (i : ℕ) (a : α)
  | erase (a : α)
  | popBack
  | clear
  deriving DecidableEq, Repr

/-- The element that an operation adds. -/
def Op.added : Op α → Option α
  | .pushBack a | .insert _ a => some a
  | _ => none

/-- Carry out an operation. -/
def step : Op α → Option (OrderedSet α)
  | .pushBack a => some (s.pushBack a)
  | .insert i a => if i ≤ s.elems.length then some (s.insert i a) else none
  | .erase a => some (s.erase a)
  | .popBack => some s.popBack
  | .clear => some empty

variable {s}

theorem insert_of_mem {i : ℕ} {a : α} (h : a ∈ s.elems) : s.insert i a = s := dif_pos h

theorem elems_insert_of_notMem {i : ℕ} {a : α} (h : a ∉ s.elems) :
    (s.insert i a).elems = s.elems.take i ++ a :: s.elems.drop i := by
  rw [insert, dif_neg h]

/-- Taking out the element at `i`. -/
theorem elems_erase_getElem {i : ℕ} {a : α} (h : s.elems[i]? = some a) :
    (s.erase a).elems = s.elems.eraseIdx i := by
  obtain ⟨hi, rfl⟩ := List.getElem?_eq_some_iff.mp h
  rw [← s.nodup.erase_getElem i hi, s.nodup.erase_eq_filter, erase]
  refine List.filter_congr fun b _ ↦ ?_
  by_cases hb : b = s.elems[i] <;> simp [hb]

theorem erase_of_notMem {a : α} (h : a ∉ s.elems) : s.erase a = s := by
  refine ext (List.filter_eq_self.mpr fun b hb ↦ decide_eq_true ?_)
  rintro rfl
  exact h hb

end OrderedSet
