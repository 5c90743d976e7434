import Cppkg.Diff.Backtrace

/-!
# What the script of `myersDiff` says

`Script` is the meaning of a list of differences: read from left to right it consumes both
sequences, an element of each for an `eq` entry and an element of one of them for the others.
`myersDiff_wp` says that `myersDiff` returns a script, and that its actions are the moves of the
cheapest path; `Replays` spells out what being a script means entry by entry, and `patch` carries a
script out.
-/

set_option autoImplicit false
set_option linter.dupNamespace false

namespace Cppkg
namespace Diff

open Grid

variable {α : Type} {ix : IndexStore} {cmp : α → α → Bool} {orig updated : List α}

/-! ## Scripts -/

/-- `diffs` leads from the sequence `orig` to the sequence `updated`, the first of whose elements
are at positions `x` and `y`. -/
inductive Script (cmp : α → α → Bool) : ℕ → ℕ → List α → List α → List (Diff α) → Prop
  | nil (x y : ℕ) : Script cmp x y [] [] []
  | eq {x y : ℕ} {a b : α} {orig updated : List α} {diffs : List (Diff α)} (hab : cmp a b = true)
      (h : Script cmp (x + 1) (y + 1) orig updated diffs) :
      Script cmp x y (a :: orig) (b :: updated) (⟨a, x, y, .eq⟩ :: diffs)
  | add {x y : ℕ} {b : α} {orig updated : List α} {diffs : List (Diff α)}
      (h : Script cmp x (y + 1) orig updated diffs) :
      Script cmp x y orig (b :: updated) (⟨b, -1, y, .add⟩ :: diffs)
  | del {x y : ℕ} {a : α} {orig updated : List α} {diffs : List (Diff α)}
      (h : Script cmp (x + 1) y orig updated diffs) :
      Script cmp x y (a :: orig) updated (⟨a, x, -1, .del⟩ :: diffs)

/-- Carry out a script on the original sequence. -/
def patch : List (Diff α) → List α → List α
  | [], orig => orig
  | ⟨_, _, _, .eq⟩ :: diffs, a :: orig => a :: patch diffs orig
  | ⟨_, _, _, .eq⟩ :: diffs, [] => patch diffs []
  | ⟨_, _, _, .del⟩ :: diffs, orig => patch diffs orig.tail
  | ⟨val, _, _, .add⟩ :: diffs, orig => val :: patch diffs orig

/-- The entries that take an element of the original sequence. -/
def fromOrig (diffs : List (Diff α)) : List (Diff α) := diffs.filter (·.action != .add)

/-- The entries that give an element of the updated sequence. -/
def intoUpdated (diffs : List (Diff α)) : List (Diff α) := diffs.filter (·.action != .del)

/-- The script `diffs` replays exactly, entry by entry. -/
structure Replays (cmp : α → α → Bool) (orig updated : List α) (diffs : List (Diff α)) : Prop where
  /-- The `eq` and `del` entries carry the positions of the original sequence, in order, … -/
  orig_pos : (fromOrig diffs).map Diff.orig = (List.range orig.length).map ((↑) : ℕ → ℤ)
  /-- … each with the element at its position. -/
  orig_val : (fromOrig diffs).map Diff.val = orig
  /-- The `eq` and `add` entries carry the positions of the updated sequence, in order. -/
  updated_pos : (intoUpdated diffs).map Diff.updated
    = (List.range updated.length).map ((↑) : ℕ → ℤ)
  /-- An `add` entry carries the element at its position. -/
  add_val : ∀ diff ∈ diffs, diff.action = .add →
    ∃ j : ℕ, diff.updated = j ∧ updated[j]? = some diff.val
  /-- An `eq` entry relates the elements at its two positions by the comparator. -/
  eq_cmp : ∀ diff ∈ diffs, diff.action = .eq → ∃ (i j : ℕ) (a b : α), diff.orig = i ∧
    diff.updated = j ∧ orig[i]? = some a ∧ updated[j]? = some b ∧ cmp a b = true
  /-- An `add` entry has no position in the original sequence. -/
  add_orig : ∀ diff ∈ diffs, diff.action = .add → diff.orig = -1
  /-- A `del` entry has no position in the updated sequence. -/
  del_updated : ∀ diff ∈ diffs, diff.action = .del → diff.updated = -1

namespace Script

variable {x y : ℕ} {diffs : List (Diff α)}

theorem orig_pos (h : Script cmp x y orig updated diffs) :
    (fromOrig diffs).map Diff.orig = (List.range' x orig.length).map ((↑) : ℕ → ℤ) := by
  induction h with
  | nil => rfl
  | eq _ _ ih => simpa [fromOrig, List.range'_succ] using ih
  | add _ ih => simpa [fromOrig] using ih
  | del _ ih => simpa [fromOrig, List.range'_succ] using ih

theorem orig_val (h : Script cmp x y orig updated diffs) :
    (fromOrig diffs).map Diff.val = orig := by
  induction h with
  | nil => rfl
  | eq _ _ ih => simpa [fromOrig] using ih
  | add _ ih => simpa [fromOrig] using ih
  | del _ ih => simpa [fromOrig] using ih

theorem updated_pos (h : Script cmp x y orig updated diffs) :
    (intoUpdated diffs).map Diff.updated
      = (List.range' y updated.length).map ((↑) : ℕ → ℤ) := by
  induction h with
  | nil => rfl
  | eq _ _ ih => simpa [intoUpdated, List.range'_succ] using ih
  | add _ ih => simpa [intoUpdated, List.range'_succ] using ih
  | del _ ih => simpa [intoUpdated] using ih

/-- What one entry of a script says about the two sequences. -/
def Entry (cmp : α → α → Bool) (orig updated : List α) (diff : Diff α) : Prop :=
  match diff.action with
  | .eq => ∃ (i j : ℕ) (b : α), diff.orig = i ∧ diff.updated = j ∧
      orig[i]? = some diff.val ∧ updated[j]? = some b ∧ cmp diff.val b = true
  | .add => diff.orig = -1 ∧ ∃ j : ℕ, diff.updated = j ∧ updated[j]? = some diff.val
  | .del => diff.updated = -1

/-- Every entry of a script says what it should. -/
theorem entry {os us : List α} (h : Script cmp x y os us diffs) (ho : orig.drop x = os)
    (hu : updated.drop y = us) : ∀ diff ∈ diffs, Entry cmp orig updated diff := by
  have next : ∀ {l t : List α} {i : ℕ} {a : α}, l.drop i = a :: t →
      l[i]? = some a ∧ l.drop (i + 1) = t := by
    intro l t i a h
    refine ⟨?_, ?_⟩
    · rw [← List.head?_drop, h, List.head?_cons]
    · rw [← List.tail_drop, h, List.tail_cons]
  induction h with
  | nil => simp
  | @eq x y a b _ _ _ hab _ ih =>
    intro diff hdiff
    rcases List.mem_cons.mp hdiff with rfl | hdiff
    · exact ⟨x, y, b, rfl, rfl, (next ho).1, (next hu).1, hab⟩
    · exact ih (next ho).2 (next hu).2 diff hdiff
  | @add x y b _ _ _ _ ih =>
    intro diff hdiff
    rcases List.mem_cons.mp hdiff with rfl | hdiff
    · exact ⟨rfl, y, rfl, (next hu).1⟩
    · exact ih ho (next hu).2 diff hdiff
  | @del x y a _ _ _ _ ih =>
    intro diff hdiff
    rcases List.mem_cons.mp hdiff with rfl | hdiff
    · exact rfl
    · exact ih (next ho).2 hu diff hdiff

/-- **A script replays.** -/
theorem replays (h : Script cmp 0 0 orig updated diffs) : Replays cmp orig updated diffs where
  orig_pos := by rw [h.orig_pos, List.range_eq_range']
  orig_val := h.orig_val
  updated_pos := by rw [h.updated_pos, List.range_eq_range']
  add_val diff hdiff hact := by
    have he := h.entry rfl rfl diff hdiff
    rw [Entry, hact] at he
    obtain ⟨-, j, hj, hv⟩ := he
    exact ⟨j, hj, hv⟩
  eq_cmp diff hdiff hact := by
    have he := h.entry rfl rfl diff hdiff
    rw [Entry, hact] at he
    obtain ⟨i, j, b, hi, hj, hv, hb, hc⟩ := he
    exact ⟨i, j, diff.val, b, hi, hj, hv, hb, hc⟩
  add_orig diff hdiff hact := by
    have he := h.entry rfl rfl diff hdiff
    rw [Entry, hact] at he
    exact he.1
  del_updated diff hdiff hact := by
    have he := h.entry rfl rfl diff hdiff
    rwa [Entry, hact] at he

/-- Carrying out a script gives the updated sequence, if the comparator is equality. -/
theorem patch_eq (h : Script cmp x y orig updated diffs)
    (hcmp : ∀ a b, cmp a b = true → a = b) : patch diffs orig = updated := by
  induction h with
  | nil => rfl
  | eq hab _ ih => rw [patch, ih, hcmp _ _ hab]
  | add _ ih => rw [patch, ih]
  | del _ ih => rw [patch, List.tail_cons, ih]

/-- What is left of a script after its first element. -/
theorem length_le (h : Script cmp x y orig updated diffs) :
    diffs.length ≤ orig.length + updated.length := by
  induction h <;> simp only [List.length_cons, List.length_nil] <;> omega

end Script

/-! ## The script `myersDiff` returns -/

/-- The entry for a move. -/
def actionOf : Move → Action
  | .diag => .eq
  | .right => .del
  | .down => .add

/-- Classifying the points of a walk, from its end to its start, prepends the walk's entries to the
script of what comes after it. -/
theorem diffsOf_wp {ms : List Move} {x y : ℕ} (hw : (ofLists cmp orig updated).Walk 0 0 ms x y)
    {tail : List (Diff α)} (htail : Script cmp x y (orig.drop x) (updated.drop y) tail)
    (hx : x ≤ orig.length) (hy : y ≤ updated.length) :
    (diffsOf orig updated ((x : ℤ), (y : ℤ)) (starts 0 0 ms).reverse).wp fun diffs ↦
      Script cmp 0 0 orig updated (diffs.reverse ++ tail) ∧
        diffs.reverse.map Diff.action = ms.map actionOf := by
  induction ms using List.reverseRecOn generalizing x y tail with
  | nil =>
    cases hw
    simp only [starts, List.reverse_nil, diffsOf, Run.wp_pure, List.nil_append, List.map_nil,
      and_true]
    simpa using htail
  | append_singleton ms mv ih =>
    obtain ⟨x', y', h1, h2⟩ := hw.of_append
    have hst : starts 0 0 (ms ++ [mv]) = starts 0 0 ms ++ [((x' : ℤ), (y' : ℤ))] := by
      rw [starts_append h1]
      cases mv <;> rfl
    -- one entry, then the rest of the walk
    have key : ∀ diff : Diff α, diff.action = actionOf mv →
        Script cmp x' y' (orig.drop x') (updated.drop y') (diff :: tail) →
        x' ≤ orig.length → y' ≤ updated.length →
        diffOf orig updated ((x : ℤ), (y : ℤ)) ((x' : ℤ), (y' : ℤ)) = pure diff →
        (diffsOf orig updated ((x : ℤ), (y : ℤ)) (starts 0 0 (ms ++ [mv])).reverse).wp fun diffs ↦
          Script cmp 0 0 orig updated (diffs.reverse ++ tail) ∧
            diffs.reverse.map Diff.action = (ms ++ [mv]).map actionOf := by
      intro diff hact hscript hx' hy' hdiff
      rw [hst, List.reverse_append, List.reverse_singleton, List.singleton_append, diffsOf, hdiff]
      simp only [Run.wp_bind, Run.wp_pure]
      refine Run.wp_mono (ih h1 hscript hx' hy') ?_
      rintro diffs ⟨hs, ha⟩
      refine ⟨by simpa using hs, ?_⟩
      rw [List.reverse_cons, List.map_append, List.map_append, ha]
      simp [hact]
    cases h2 with
    | diag hit h =>
      cases h
      obtain ⟨a, b, ha, hb, hab⟩ := (hit_ofLists cmp).mp hit
      obtain ⟨hx', rfl⟩ := List.getElem?_eq_some_iff.mp ha
      obtain ⟨hy', rfl⟩ := List.getElem?_eq_some_iff.mp hb
      refine key ⟨orig[x'], x', y', .eq⟩ rfl ?_ (by omega) (by omega) ?_
      · rw [List.drop_eq_getElem_cons hx', List.drop_eq_getElem_cons hy']
        exact .eq hab htail
      · rw [diffOf, if_neg (by simp only; omega), if_neg (by simp only; omega),
          deref_natCast ha]
        rfl
    | right h =>
      cases h
      have ha : orig[x']? = some orig[x'] := List.getElem?_eq_getElem (by omega)
      refine key ⟨orig[x'], x', -1, .del⟩ rfl ?_ (by omega) hy ?_
      · rw [List.drop_eq_getElem_cons (by omega)]
        exact .del htail
      · rw [diffOf, if_neg (by simp only; omega), if_pos rfl,
          deref_natCast ha]
        rfl
    | down h =>
      cases h
      have hb : updated[y']? = some updated[y'] := List.getElem?_eq_getElem (by omega)
      refine key ⟨updated[y'], -1, y', .add⟩ rfl ?_ hx (by omega) ?_
      · rw [List.drop_eq_getElem_cons (by omega : y' < updated.length)]
        exact .add htail
      · rw [diffOf, if_pos rfl, deref_natCast hb]
        rfl

/-- **What `myersDiff` returns**: the script of the cheapest path through the edit graph. -/
theorem myersDiff_wp (hsize : orig.length + updated.length ≤ 16383) :
    (myersDiff ix cmp orig updated).wp fun diffs ↦
      Script cmp 0 0 orig updated diffs ∧
        diffs.map Diff.action = (ofLists cmp orig updated).best.map actionOf := by
  rw [myersDiff, ix.put_of_fits (by omega) (by omega), ix.put_of_fits (by omega) (by omega)]
  simp only [Run.wp_bind, Run.wp_pure]
  refine myersDiffBacktrace_wp hsize ?_
  have hnil : Script cmp orig.length updated.length (orig.drop orig.length)
      (updated.drop updated.length) [] := by
    simpa using Script.nil orig.length updated.length
  have h := diffsOf_wp (ofLists cmp orig updated).walk_best hnil (Nat.le_refl _) (Nat.le_refl _)
  refine Run.wp_mono h fun diffs hdiffs ↦ ?_
  simpa using hdiffs

/-- **Replay.**  The script that `myersDiff` returns replays exactly, for every comparator; if the
comparator is equality, carrying it out turns the original sequence into the updated one. -/
theorem myersDiff_replays (cmp : α → α → Bool) (orig updated : List α)
    (hsize : orig.length + updated.length ≤ 16383) :
    ∃ diffs, (myersDiff wrapping cmp orig updated).Returns diffs ∧
      Replays cmp orig updated diffs ∧
      ((∀ a b, cmp a b = true ↔ a = b) → patch diffs orig = updated) := by
  obtain ⟨diffs, hret, hscript, -⟩ := @myersDiff_wp _ wrapping cmp _ _ hsize
  exact ⟨diffs, hret, hscript.replays, fun hcmp ↦ hscript.patch_eq fun a b ↦ (hcmp a b).mp⟩

theorem myersDiff_replays_small :
    ∃ diffs, (myersDiff wrapping (· == ·) ['A', 'B', 'C'] ['B', 'C', 'D']).Returns diffs ∧
      Replays (· == ·) ['A', 'B', 'C'] ['B', 'C', 'D'] diffs ∧
      ((∀ a b : Char, (a == b) = true ↔ a = b) →
        patch diffs ['A', 'B', 'C'] = ['B', 'C', 'D']) :=
  myersDiff_replays (· == ·) ['A', 'B', 'C'] ['B', 'C', 'D'] (by decide)

end Diff
end Cppkg
