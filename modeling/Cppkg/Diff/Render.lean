import Cppkg.Diff.Msg

/-!
# What a message shows

`MsgDiffT.toString` marks the entries within three of a difference and writes those, with running
line numbers.  `rendered` is the same message without the loops, the flags and the indices;
`toString_returns` says that the code writes it — of the entries it gets to see, whose number is the
length of the script cut down to an `IndexT`.
-/

set_option autoImplicit false

namespace Cppkg
namespace Diff

/-! ## The message of a script -/

/-- Is there a difference within three entries of entry `i`? -/
def near (diffs : MsgDiffT) (i : ℕ) : Bool :=
  ((diffs.take (i + 4)).drop (i - 3)).any (·.action != .eq)

/-- The lines for `diffs`, the first of which is entry `i` and comes after `o` lines of the original
and `u` lines of the updated sequence. -/
def shownLines (shown : ℕ → Bool) : ℕ → ℕ → ℕ → MsgDiffT → List Str
  | _, _, _, [] => []
  | i, o, u, diff :: diffs =>
    let rest := shownLines shown (i + 1) (o + diff.action.takes) (u + diff.action.gives) diffs
    if shown i = true then diffLineFormat diff.val diff.action o u :: rest else rest

/-- The message for a script. -/
def rendered (diffs : MsgDiffT) : Str := (shownLines (near diffs) 0 0 0 diffs).flatten

variable {diffs : MsgDiffT}

theorem near_iff {i : ℕ} : near diffs i = true ↔
    ∃ (j : ℕ) (diff : Diff Str), diffs[j]? = some diff ∧ diff.action ≠ .eq ∧
      j ≤ i + 3 ∧ i ≤ j + 3 := by
  simp only [near, List.any_eq_true, List.mem_iff_getElem?, List.getElem?_drop, bne_iff_ne,
    List.getElem?_take, Option.ite_none_right_eq_some]
  constructor
  · rintro ⟨diff, ⟨j, hlt, hj⟩, hne⟩
    exact ⟨i - 3 + j, diff, hj, hne, by omega, by omega⟩
  · rintro ⟨j, diff, hj, hne, h1, h2⟩
    refine ⟨diff, ⟨j - (i - 3), by omega, ?_⟩, hne⟩
    rw [show i - 3 + (j - (i - 3)) = j by omega, hj]

/-- What a further entry brings near. -/
theorem near_take_succ {p : ℕ} {diff : Diff Str} (hp : diffs[p]? = some diff) (i : ℕ) :
    near (diffs.take (p + 1)) i
      = (near (diffs.take p) i || (diff.action != .eq && decide (p ≤ i + 3 ∧ i ≤ p + 3))) := by
  rw [Bool.eq_iff_iff, Bool.or_eq_true, Bool.and_eq_true, bne_iff_ne, decide_eq_true_eq, near_iff,
    near_iff]
  simp only [List.getElem?_take, Option.ite_none_right_eq_some]
  constructor
  · rintro ⟨j, diff', ⟨hlt, hj⟩, hne, h1, h2⟩
    rcases Nat.lt_or_eq_of_le (Nat.le_of_lt_succ hlt) with hlt' | rfl
    · exact .inl ⟨j, diff', ⟨hlt', hj⟩, hne, h1, h2⟩
    · rw [hp, Option.some.injEq] at hj
      exact .inr ⟨hj ▸ hne, h1, h2⟩
  · rintro (⟨j, diff', ⟨hlt, hj⟩, hne, h1, h2⟩ | ⟨hne, h1, h2⟩)
    · exact ⟨j, diff', ⟨by omega, hj⟩, hne, h1, h2⟩
    · exact ⟨p, diff, ⟨by omega, hp⟩, hne, h1, h2⟩

/-! ## The loops -/

theorem memset_wp {Q : List Bool → Prop} {shown : List Bool} {first last : ℤ} (h₁ : 0 ≤ first)
    (h₂ : first ≤ last + 1) (h₃ : last < shown.length)
    (hQ : Q (shown.mapIdx fun i s ↦ s || (decide (first ≤ i) && decide (i ≤ last)))) :
    (memset shown first last).wp Q := by
  rw [memset, if_pos ⟨h₁, h₂, h₃⟩]
  simpa using hQ

/-- The state of `markShown` before entry `i`: the entries near a difference before it are
marked. -/
def MarkInv (diffs : MsgDiffT) (n : ℕ) : ℤ × List Bool → Prop
  | (i, shown) => ∃ p : ℕ, i = p ∧ p ≤ n ∧ shown = (List.range n).map (near (diffs.take p))

/-- `markShown` marks the entries near a difference. -/
theorem markShown_wp {n : ℕ} (hn : n ≤ diffs.length) (hn' : n ≤ 32767) :
    (markShown diffs n).Returns ((List.range n).map (near (diffs.take n))) := by
  rw [← Run.wp_eq_iff]
  refine Run.wp_loop (MarkInv diffs n) (fun s ↦ (n - s.1).toNat) ?_ ?_
  · rintro ⟨i, shown⟩ ⟨p, rfl, hp, rfl⟩
    simp only
    by_cases hlt : (p : ℤ) < n
    · obtain ⟨diff, hget⟩ : ∃ diff, diffs[p]? = some diff :=
        ⟨_, List.getElem?_eq_getElem (by omega)⟩
      simp only [if_pos hlt, deref_natCast hget, Run.wp_bind, Run.wp_pure,
        toIndexT_of_fits (show -32768 ≤ (p : ℤ) + 1 by omega) (by omega)]
      by_cases heq : diff.action = .eq
      · simp only [if_pos heq, Run.wp_pure, Run.round_inl]
        refine ⟨⟨p + 1, rfl, by omega, List.map_congr_left fun i _ ↦ ?_⟩, by omega⟩
        simp [near_take_succ hget, heq]
      · have hfirst : toIndexT (max 0 ((p : ℤ) - linesBefore)) = max 0 ((p : ℤ) - 3) :=
          toIndexT_of_fits (by rw [linesBefore]; omega) (by rw [linesBefore]; omega)
        have hlast : toIndexT (min ((n : ℤ) - 1) (p + linesAfter)) = min ((n : ℤ) - 1) (p + 3) :=
          toIndexT_of_fits (by rw [linesAfter]; omega) (by rw [linesAfter]; omega)
        simp only [if_neg heq, Run.wp_bind, hfirst, hlast]
        refine memset_wp (by omega) (by omega)
          (by rw [List.length_map, List.length_range]; omega) ?_
        simp only [Run.wp_pure, Run.round_inl]
        refine ⟨⟨p + 1, rfl, by omega, ?_⟩, by omega⟩
        refine List.ext_getElem (by simp) fun i hi _ ↦ ?_
        have hi' : i < n := by simpa using hi
        have hne : (diff.action != .eq) = true := by simpa using heq
        simp only [List.getElem_mapIdx, List.getElem_map, List.getElem_range,
          near_take_succ hget, hne, Bool.true_and, ← Bool.decide_and]
        congr 2
        rw [eq_iff_iff]
        omega
    · obtain rfl : p = n := by omega
      simp only [if_neg hlt, Run.wp_pure, Run.round_inr]
  · refine ⟨0, rfl, Nat.zero_le _, ?_⟩
    have hnear : near ([] : MsgDiffT) = fun _ ↦ false := funext fun i ↦ by simp [near]
    simp [hnear, List.map_const']

/-- The state of `writeShown` before entry `i`: what is written, and what is still to be. -/
def WriteInv (diffs : MsgDiffT) (n : ℕ) (shown : ℕ → Bool) : ℤ × ℤ × ℤ × Str → Prop
  | (i, oidx, uidx, out) => ∃ p o u : ℕ, i = p ∧ oidx = o ∧ uidx = u ∧ p ≤ n ∧
    out ++ (shownLines shown p o u ((diffs.take n).drop p)).flatten
      = (shownLines shown 0 0 0 (diffs.take n)).flatten

/-- `writeShown` writes the entries that are marked. -/
theorem writeShown_wp {n : ℕ} (hn : n ≤ diffs.length) (hn' : n ≤ 32767) (shown : ℕ → Bool) :
    (writeShown diffs n ((List.range n).map shown)).Returns
      (shownLines shown 0 0 0 (diffs.take n)).flatten := by
  rw [← Run.wp_eq_iff]
  refine Run.wp_loop (WriteInv diffs n shown) (fun s ↦ (n - s.1).toNat) ?_ ?_
  · rintro ⟨i, oidx, uidx, out⟩ ⟨p, o, u, rfl, rfl, rfl, hp, hout⟩
    simp only
    by_cases hlt : (p : ℤ) < n
    · obtain ⟨diff, hget⟩ : ∃ diff, diffs[p]? = some diff :=
        ⟨_, List.getElem?_eq_getElem (by omega)⟩
      have hflag : ((List.range n).map shown)[p]? = some (shown p) := by
        rw [List.getElem?_map, List.getElem?_range (by omega), Option.map_some]
      have hdrop : (diffs.take n).drop p = diff :: (diffs.take n).drop (p + 1) := by
        rw [List.drop_eq_getElem_cons (by simp; omega), List.getElem_take,
          (List.getElem?_eq_some_iff.mp hget).2]
      simp only [if_pos hlt, deref_natCast hget, deref_natCast hflag, Run.wp_bind, Run.wp_pure,
        toIndexT_of_fits (show -32768 ≤ (p : ℤ) + 1 by omega) (by omega), Run.round_inl]
      refine ⟨⟨p + 1, o + diff.action.takes, u + diff.action.gives, rfl, by push_cast; rfl,
        by push_cast; rfl, by omega, ?_⟩, by omega⟩
      rw [hdrop, shownLines] at hout
      rw [← hout]
      split <;> simp
    · obtain rfl : p = n := by omega
      simp only [if_neg hlt, Run.wp_pure, Run.round_inr]
      simpa [shownLines] using hout
  · exact ⟨0, 0, 0, rfl, rfl, rfl, Nat.zero_le _, by simp⟩

/-! ## The message -/

/-- **What `MsgDiffT.toString` returns**: the message for as many entries as fit an `IndexT`. -/
theorem toString_returns {n : ℕ} (hn : toIndexT diffs.length = n) :
    (MsgDiffT.toString diffs).Returns (rendered (diffs.take n)) := by
  have hle : n ≤ diffs.length ∧ n ≤ 32767 := by rw [toIndexT] at hn; omega
  rw [← Run.wp_eq_iff, MsgDiffT.toString]
  simp only [hn, if_neg (show ¬ (n : ℤ) < 0 by omega), Run.wp_bind]
  rw [(markShown_wp hle.1 hle.2).wp_iff, (writeShown_wp hle.1 hle.2 _).wp_iff, rendered]

/-- A script of up to 32767 entries is rendered in full. -/
theorem toString_returns_of_le (h : diffs.length ≤ 32767) :
    (MsgDiffT.toString diffs).Returns (rendered diffs) := by
  have := @toString_returns diffs _ (toIndexT_of_fits (by omega) (by omega))
  rwa [List.take_length] at this

/-- A script whose length is cut down to a negative number is not rendered at all. -/
theorem not_returns_toString (h : toIndexT diffs.length < 0) (msg : Str) :
    ¬ (MsgDiffT.toString diffs).Returns msg := by
  rw [MsgDiffT.toString, if_pos h]
  exact Run.returns_fail

/-! ## When a message is empty -/

theorem diffLineFormat_ne_nil (val : Str) (action : Action) (orig updated : ℤ) :
    diffLineFormat val action orig updated ≠ [] := by
  simp [diffLineFormat]

theorem shownLines_flatten_eq_nil {shown : ℕ → Bool} {i o u : ℕ} :
    (shownLines shown i o u diffs).flatten = [] ↔ ∀ j < diffs.length, shown (i + j) = false := by
  induction diffs generalizing i o u with
  | nil => simp [shownLines]
  | cons diff diffs ih =>
    rw [shownLines]
    split
    · rename_i hs
      refine iff_of_false (by simp [diffLineFormat_ne_nil]) fun h ↦ ?_
      have := h 0 (by simp)
      simp [hs] at this
    · rename_i hs
      rw [ih]
      constructor
      · intro h j hj
        cases j with
        | zero => simpa using hs
        | succ j =>
          rw [show i + (j + 1) = i + 1 + j by omega]
          exact h j (by simpa using hj)
      · intro h j hj
        rw [show i + 1 + j = i + (j + 1) by omega]
        exact h (j + 1) (by simpa using hj)

/-- **A message is empty exactly when its script has no difference.** -/
theorem rendered_eq_nil : rendered diffs = [] ↔ ∀ diff ∈ diffs, diff.action = .eq := by
  rw [rendered, shownLines_flatten_eq_nil]
  constructor
  · intro h diff hdiff
    obtain ⟨j, hj⟩ := List.mem_iff_getElem?.mp hdiff
    have hlt := (List.getElem?_eq_some_iff.mp hj).1
    by_contra hne
    have : near diffs j = true := near_iff.mpr ⟨j, diff, hj, hne, by omega, by omega⟩
    have h' := h j hlt
    rw [Nat.zero_add, this] at h'
    simp at h'
  · intro h j _
    rw [← Bool.not_eq_true, near_iff]
    rintro ⟨i, diff, hi, hne, -⟩
    exact hne (h diff (List.mem_of_getElem? hi))

end Diff
end Cppkg
