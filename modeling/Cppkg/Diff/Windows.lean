import Cppkg.Diff.Render
import Cppkg.Diff.Script

/-!
# Which lines a message has, and what is printed on them

A message has one line for each entry within three entries of a difference.  The numbers on it come
from counters that run along with the rendering; `Windows` says that they are the positions of the
line in the two sequences, and that no change is left out or printed twice.
-/

set_option autoImplicit false

namespace Cppkg
namespace Diff

variable {diffs : MsgDiffT} {expected got : StringsT}

/-! ## Entries and their numbers -/

/-- The entries that a message has a line for, in order. -/
def shownEntries (diffs : MsgDiffT) : List ℕ := (List.range diffs.length).filter (near diffs)

/-- How many lines of the original sequence come before entry `i`. -/
def origNumber (diffs : MsgDiffT) (i : ℕ) : ℕ := (fromOrig (diffs.take i)).length

/-- How many lines of the updated sequence come before entry `i`. -/
def updatedNumber (diffs : MsgDiffT) (i : ℕ) : ℕ := (intoUpdated (diffs.take i)).length

/-- The line for entry `i`. -/
def lineOf (diffs : MsgDiffT) (i : ℕ) : Str :=
  match diffs[i]? with
  | some diff => diffLineFormat diff.val diff.action (origNumber diffs i) (updatedNumber diffs i)
  | none => []

/-- What the message `msg` of the script `diffs` says about the two sequences. -/
structure Windows (expected got : StringsT) (diffs : MsgDiffT) (msg : Str) : Prop where
  /-- The message is the lines for the entries that are shown, … -/
  lines : msg = ((shownEntries diffs).map (lineOf diffs)).flatten
  /-- … which are those within three entries of a difference. -/
  shown : ∀ i, i ∈ shownEntries diffs ↔ i < diffs.length ∧
    ∃ (j : ℕ) (diff : Diff Str), diffs[j]? = some diff ∧ diff.action ≠ .eq ∧ j ≤ i + 3 ∧ i ≤ j + 3
  /-- An unchanged line is line `origNumber` of one sequence and `updatedNumber` of the other. -/
  eq_line : ∀ i diff, diffs[i]? = some diff → diff.action = .eq →
    expected[origNumber diffs i]? = some diff.val ∧ got[updatedNumber diffs i]? = some diff.val
  del_line : ∀ i diff, diffs[i]? = some diff → diff.action = .del →
    expected[origNumber diffs i]? = some diff.val
  add_line : ∀ i diff, diffs[i]? = some diff → diff.action = .add →
    got[updatedNumber diffs i]? = some diff.val
  /-- A line that is removed is printed exactly once, … -/
  del_once : ∀ diff ∈ diffs, diff.action = .del → ∃ o : ℕ, diff.orig = o ∧
    ∃! i, i ∈ shownEntries diffs ∧ (diffs[i]?).map Diff.action = some .del ∧ origNumber diffs i = o
  /-- … and so is one that is added. -/
  add_once : ∀ diff ∈ diffs, diff.action = .add → ∃ u : ℕ, diff.updated = u ∧
    ∃! i, i ∈ shownEntries diffs ∧ (diffs[i]?).map Diff.action = some .add ∧
      updatedNumber diffs i = u

/-! ## The lines -/

theorem length_fromOrig_cons (diff : Diff Str) :
    (fromOrig (diff :: diffs)).length = diff.action.takes + (fromOrig diffs).length := by
  cases h : diff.action <;> simp [fromOrig, h, Action.takes, Nat.add_comm]

theorem length_intoUpdated_cons (diff : Diff Str) :
    (intoUpdated (diff :: diffs)).length = diff.action.gives + (intoUpdated diffs).length := by
  cases h : diff.action <;> simp [intoUpdated, h, Action.gives, Nat.add_comm]

/-- The running counters count the entries before. -/
theorem shownLines_eq {shown : ℕ → Bool} {i o u : ℕ} :
    shownLines shown i o u diffs = ((List.range diffs.length).filter fun j ↦ shown (i + j)).map
      fun j ↦ ((diffs[j]?).map fun diff ↦ diffLineFormat diff.val diff.action
        ((o + origNumber diffs j : ℕ) : ℤ) ((u + updatedNumber diffs j : ℕ) : ℤ)).getD [] := by
  induction diffs generalizing i o u with
  | nil => rfl
  | cons diff diffs ih =>
    have hshown : (fun j ↦ shown (i + 1 + j)) = (fun j ↦ shown (i + j)) ∘ Nat.succ := by
      funext j
      rw [Function.comp_apply, Nat.succ_eq_add_one, Nat.add_assoc, Nat.add_comm 1]
    have horig (j : ℕ) : origNumber (diff :: diffs) (j + 1)
        = diff.action.takes + origNumber diffs j := by
      rw [origNumber, List.take_succ_cons, length_fromOrig_cons, origNumber]
    have hupdated (j : ℕ) : updatedNumber (diff :: diffs) (j + 1)
        = diff.action.gives + updatedNumber diffs j := by
      rw [updatedNumber, List.take_succ_cons, length_intoUpdated_cons, updatedNumber]
    have hfirst : origNumber (diff :: diffs) 0 = 0 ∧ updatedNumber (diff :: diffs) 0 = 0 :=
      ⟨rfl, rfl⟩
    rw [shownLines, ih, hshown, List.length_cons, List.range_succ_eq_map, List.filter_cons,
      List.filter_map, Nat.add_zero]
    split <;> simp [horig, hupdated, hfirst, Nat.add_assoc, Function.comp_def]

theorem rendered_eq : rendered diffs = ((shownEntries diffs).map (lineOf diffs)).flatten := by
  rw [rendered, shownLines_eq, shownEntries]
  simp only [Nat.zero_add]
  congr 2
  funext i
  rw [lineOf]
  cases diffs[i]? <;> rfl

theorem mem_shownEntries {i : ℕ} : i ∈ shownEntries diffs ↔ i < diffs.length ∧
    ∃ (j : ℕ) (diff : Diff Str), diffs[j]? = some diff ∧ diff.action ≠ .eq ∧
      j ≤ i + 3 ∧ i ≤ j + 3 := by
  rw [shownEntries, List.mem_filter, List.mem_range, near_iff]

/-- A difference is near itself. -/
theorem mem_shownEntries_self {i : ℕ} {diff : Diff Str} (hi : diffs[i]? = some diff)
    (hne : diff.action ≠ .eq) : i ∈ shownEntries diffs :=
  mem_shownEntries.mpr
    ⟨(List.getElem?_eq_some_iff.mp hi).1, i, diff, hi, hne, by omega, by omega⟩

/-! ## The numbers -/

section filter

variable {α : Type} {l : List α} {p : α → Bool} {a : α} {i j : ℕ}

/-- Where an element is that a filter keeps. -/
theorem getElem?_filter_take (hi : l[i]? = some a) (ha : p a = true) :
    (l.filter p)[((l.take i).filter p).length]? = some a := by
  obtain ⟨hlt, rfl⟩ := List.getElem?_eq_some_iff.mp hi
  have hsplit : l = l.take i ++ l[i] :: l.drop (i + 1) := by
    rw [← List.drop_eq_getElem_cons hlt, List.take_append_drop]
  have hfilter : l.filter p = (l.take i).filter p ++ l[i] :: (l.drop (i + 1)).filter p := by
    conv => lhs; rw [hsplit]
    rw [List.filter_append, List.filter_cons_of_pos ha]
  rw [hfilter, List.getElem?_append_right (Nat.le_refl _), Nat.sub_self, List.getElem?_cons_zero]

/-- What a filter keeps, it keeps in order. -/
theorem length_filter_take_lt (hi : l[i]? = some a) (ha : p a = true) (hij : i < j) :
    ((l.take i).filter p).length < ((l.take j).filter p).length := by
  have hi' : (l.take j)[i]? = some a := by rwa [List.getElem?_take_of_lt hij]
  have h := getElem?_filter_take hi' ha
  rw [List.take_take, Nat.min_eq_left (Nat.le_of_lt hij)] at h
  exact (List.getElem?_eq_some_iff.mp h).1

end filter

variable {i i' : ℕ} {diff diff' : Diff Str}

theorem Replays.orig_at (h : Replays equalTo expected got diffs) (hi : diffs[i]? = some diff)
    (hne : diff.action ≠ .add) :
    diff.orig = origNumber diffs i ∧ expected[origNumber diffs i]? = some diff.val := by
  have hfrom : (fromOrig diffs)[origNumber diffs i]? = some diff :=
    getElem?_filter_take hi (by simpa using hne)
  have hval : expected[origNumber diffs i]? = some diff.val := by
    rw [← h.orig_val, List.getElem?_map, hfrom, Option.map_some]
  refine ⟨?_, hval⟩
  have hpos := congrArg (·[origNumber diffs i]?) h.orig_pos
  simp only [List.getElem?_map, hfrom, Option.map_some] at hpos
  rw [List.getElem?_range (List.getElem?_eq_some_iff.mp hval).1, Option.map_some] at hpos
  exact Option.some.inj hpos

theorem Replays.updated_at (h : Replays equalTo expected got diffs) (hi : diffs[i]? = some diff)
    (hne : diff.action ≠ .del) :
    diff.updated = updatedNumber diffs i ∧ got[updatedNumber diffs i]? = some diff.val := by
  have hinto : (intoUpdated diffs)[updatedNumber diffs i]? = some diff :=
    getElem?_filter_take hi (by simpa using hne)
  have hlt : updatedNumber diffs i < got.length := by
    have := congrArg List.length h.updated_pos
    simp only [List.length_map, List.length_range] at this
    exact this ▸ (List.getElem?_eq_some_iff.mp hinto).1
  have hpos := congrArg (·[updatedNumber diffs i]?) h.updated_pos
  simp only [List.getElem?_map, hinto, Option.map_some, List.getElem?_range hlt] at hpos
  have hupdated : diff.updated = updatedNumber diffs i := Option.some.inj hpos
  refine ⟨hupdated, ?_⟩
  have hmem := List.mem_of_getElem? hi
  cases hact : diff.action with
  | del => exact absurd hact hne
  | add =>
    obtain ⟨j, hj, hval⟩ := h.add_val diff hmem hact
    obtain rfl : j = updatedNumber diffs i := Int.ofNat.inj (hj.symm.trans hupdated)
    exact hval
  | eq =>
    obtain ⟨k, j, a, b, hk, hj, ha, hb, hab⟩ := h.eq_cmp diff hmem hact
    obtain rfl : j = updatedNumber diffs i := Int.ofNat.inj (hj.symm.trans hupdated)
    obtain ⟨horig, hval⟩ := h.orig_at hi (by simp [hact])
    obtain rfl : k = origNumber diffs i := Int.ofNat.inj (hk.symm.trans horig)
    have hab' : a = b := by simpa [equalTo] using hab
    rw [hb, ← hab', ← ha, hval]

/-- A removed line has its number to itself. -/
theorem origNumber_inj (hi : diffs[i]? = some diff) (hne : diff.action ≠ .add)
    (hi' : diffs[i']? = some diff') (hne' : diff'.action ≠ .add)
    (h : origNumber diffs i = origNumber diffs i') : i = i' := by
  rcases Nat.lt_trichotomy i i' with hlt | heq | hlt
  · exact absurd h (Nat.ne_of_lt (length_filter_take_lt hi (by simpa using hne) hlt))
  · exact heq
  · exact absurd h.symm (Nat.ne_of_lt (length_filter_take_lt hi' (by simpa using hne') hlt))

/-- An added line has its number to itself. -/
theorem updatedNumber_inj (hi : diffs[i]? = some diff) (hne : diff.action ≠ .del)
    (hi' : diffs[i']? = some diff') (hne' : diff'.action ≠ .del)
    (h : updatedNumber diffs i = updatedNumber diffs i') : i = i' := by
  rcases Nat.lt_trichotomy i i' with hlt | heq | hlt
  · exact absurd h (Nat.ne_of_lt (length_filter_take_lt hi (by simpa using hne) hlt))
  · exact heq
  · exact absurd h.symm (Nat.ne_of_lt (length_filter_take_lt hi' (by simpa using hne') hlt))

/-! ## The message -/

/-- **The message of a script** that replays. -/
theorem windows_rendered (h : Replays equalTo expected got diffs) :
    Windows expected got diffs (rendered diffs) where
  lines := rendered_eq
  shown i := mem_shownEntries
  eq_line i diff hi hact :=
    ⟨(h.orig_at hi (by simp [hact])).2, (h.updated_at hi (by simp [hact])).2⟩
  del_line i diff hi hact := (h.orig_at hi (by simp [hact])).2
  add_line i diff hi hact := (h.updated_at hi (by simp [hact])).2
  del_once diff hdiff hact := by
    obtain ⟨i, hi⟩ := List.mem_iff_getElem?.mp hdiff
    refine ⟨origNumber diffs i, (h.orig_at hi (by simp [hact])).1, i, ?_, ?_⟩
    · exact ⟨mem_shownEntries_self hi (by simp [hact]), by simp [hi, hact], rfl⟩
    · rintro i' ⟨-, hdel, hnumber⟩
      obtain ⟨diff', hi', hact'⟩ := Option.map_eq_some_iff.mp hdel
      exact origNumber_inj hi' (by simp [hact']) hi (by simp [hact]) hnumber
  add_once diff hdiff hact := by
    obtain ⟨i, hi⟩ := List.mem_iff_getElem?.mp hdiff
    refine ⟨updatedNumber diffs i, (h.updated_at hi (by simp [hact])).1, i, ?_, ?_⟩
    · exact ⟨mem_shownEntries_self hi (by simp [hact]), by simp [hi, hact], rfl⟩
    · rintro i' ⟨-, hadd, hnumber⟩
      obtain ⟨diff', hi', hact'⟩ := Option.map_eq_some_iff.mp hadd
      exact updatedNumber_inj hi' (by simp [hact']) hi (by simp [hact]) hnumber

/-- **What `diffMsg` prints**: the lines within three of a change of the script that `myersDiff`
finds, numbered by their positions. -/
theorem diffMsg_windows (expected got : StringsT) (hsize : expected.length + got.length ≤ 16383) :
    ∃ diffs msg, (myersDiff wrapping equalTo expected got).Returns diffs ∧
      (diffMsg expected got).Returns msg ∧ Windows expected got diffs msg := by
  obtain ⟨diffs, hret, hscript, -⟩ := @myersDiff_wp _ wrapping equalTo _ _ hsize
  have hlen := hscript.length_le
  refine ⟨diffs, rendered diffs, hret, ?_, windows_rendered hscript.replays⟩
  rw [← Run.wp_eq_iff, diffMsg, Run.wp_bind, hret.wp_iff,
    (toString_returns_of_le (by omega)).wp_iff]

theorem diffMsg_windows_small :
    ∃ diffs msg, (myersDiff wrapping equalTo [['a'], ['b']] [['b'], ['c']]).Returns diffs ∧
      (diffMsg [['a'], ['b']] [['b'], ['c']]).Returns msg ∧
      Windows [['a'], ['b']] [['b'], ['c']] diffs msg :=
  diffMsg_windows [['a'], ['b']] [['b'], ['c']] (by decide)

end Diff
end Cppkg
