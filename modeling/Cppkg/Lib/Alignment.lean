import Cppkg.Lib.CommonSubseq

/-!
# The edit distance as a distance

`Aligned` says that two lists can be read side by side so that a number of elements of one are
matched with elements of the other.  This is the same as a common subsequence, but grows element by
element, which is what the facts about the edit distance need:

* it is a distance, `dist_swap`, `dist_triangle` and `dist_eq_zero_iff`, as far as the comparators
  are like equality;
* what is matched at the two ends does not count, `dist_append` and `dist_append_right`, whatever
  the comparator is.
-/

set_option autoImplicit false

namespace Grid

variable {α β γ : Type}

/-- `l` elements of `xs` are matched with elements of `ys`, in order. -/
inductive Aligned (cmp : α → β → Bool) : List α → List β → ℕ → Prop
  | nil : Aligned cmp [] [] 0
  | keep {a : α} {b : β} {xs : List α} {ys : List β} {l : ℕ} (hab : cmp a b = true)
      (h : Aligned cmp xs ys l) : Aligned cmp (a :: xs) (b :: ys) (l + 1)
  | left {xs : List α} {ys : List β} {l : ℕ} (a : α) (h : Aligned cmp xs ys l) :
      Aligned cmp (a :: xs) ys l
  | right {xs : List α} {ys : List β} {l : ℕ} (b : β) (h : Aligned cmp xs ys l) :
      Aligned cmp xs (b :: ys) l

variable {cmp : α → β → Bool} {a : α} {b : β} {xs xs' : List α} {ys ys' : List β} {zs : List γ}
  {l l' : ℕ}

/-! ## Common subsequences -/

theorem aligned_nil_left (cmp : α → β → Bool) (ys : List β) : Aligned cmp [] ys 0 := by
  induction ys with
  | nil => exact .nil
  | cons b ys ih => exact .right b ih

theorem Aligned.of_sublist {s : List α} {t : List β} (hs : s.Sublist xs) (ht : t.Sublist ys)
    (hst : List.Forall₂ (fun a b ↦ cmp a b = true) s t) : Aligned cmp xs ys s.length := by
  induction hs generalizing t ys with
  | slnil => exact aligned_nil_left cmp ys
  | cons a _ ih => exact .left a (ih ht hst)
  | @cons_cons s xs a _ ih =>
    obtain ⟨b, t, hab, htail, rfl⟩ := List.forall₂_cons_left_iff.mp hst
    induction ys with
    | nil => cases ht
    | cons b' ys ihys =>
      cases ht with
      | cons _ ht => exact .right b' (ihys ht)
      | cons_cons _ ht => exact .keep hab (ih ht htail)

/-- **Alignments are common subsequences.** -/
theorem aligned_iff : Aligned cmp xs ys l ↔ CommonSubseq cmp xs ys l := by
  constructor
  · intro h
    induction h with
    | nil => exact ⟨[], [], .slnil, .slnil, .nil, rfl⟩
    | keep hab _ ih =>
      obtain ⟨s, t, hs, ht, hst, rfl⟩ := ih
      exact ⟨_ :: s, _ :: t, hs.cons_cons _, ht.cons_cons _, .cons hab hst, rfl⟩
    | left a _ ih =>
      obtain ⟨s, t, hs, ht, hst, rfl⟩ := ih
      exact ⟨s, t, hs.cons a, ht, hst, rfl⟩
    | right b _ ih =>
      obtain ⟨s, t, hs, ht, hst, rfl⟩ := ih
      exact ⟨s, t, hs, ht.cons b, hst, rfl⟩
  · rintro ⟨s, t, hs, ht, hst, rfl⟩
    exact .of_sublist hs ht hst

theorem Aligned.dist_le (h : Aligned cmp xs ys l) :
    (ofLists cmp xs ys).dist + 2 * l ≤ xs.length + ys.length :=
  (aligned_iff.mp h).dist_le

/-- An alignment that leaves over no more than the distance. -/
theorem exists_aligned (cmp : α → β → Bool) (xs : List α) (ys : List β) :
    ∃ l, Aligned cmp xs ys l ∧ (ofLists cmp xs ys).dist + 2 * l = xs.length + ys.length :=
  ⟨_, aligned_iff.mpr isLcsLength_best.1, dist_add_two_mul isLcsLength_best⟩

/-! ## A distance -/

theorem Aligned.swap (h : Aligned cmp xs ys l) : Aligned (fun b a ↦ cmp a b) ys xs l := by
  induction h with
  | nil => exact .nil
  | keep hab _ ih => exact .keep hab ih
  | left a _ ih => exact .right a ih
  | right b _ ih => exact .left b ih

/-- **It is the same in both directions.** -/
theorem dist_swap (cmp : α → β → Bool) (xs : List α) (ys : List β) :
    (ofLists (fun b a ↦ cmp a b) ys xs).dist = (ofLists cmp xs ys).dist := by
  obtain ⟨l, hl, hdist⟩ := exists_aligned cmp xs ys
  obtain ⟨l', hl', hdist'⟩ := exists_aligned (fun b a ↦ cmp a b) ys xs
  have h := hl.swap.dist_le
  have h' : (ofLists cmp xs ys).dist + 2 * l' ≤ xs.length + ys.length := hl'.swap.dist_le
  omega

/-- What is matched twice is matched; of the elements in the middle, no other can be matched on both
sides. -/
theorem Aligned.trans {cmp' : β → γ → Bool} {cmp'' : α → γ → Bool}
    (hcmp : ∀ a b c, cmp a b = true → cmp' b c = true → cmp'' a c = true)
    (h : Aligned cmp xs ys l) (h' : Aligned cmp' ys zs l') :
    ∃ k, Aligned cmp'' xs zs k ∧ l + l' ≤ ys.length + k := by
  induction h generalizing zs l' with
  | nil =>
    generalize hys : ([] : List β) = ys at h'
    induction h' with
    | nil => exact ⟨0, .nil, by simp⟩
    | keep | left => cases hys
    | right c _ ih =>
      obtain ⟨k, hk, hle⟩ := ih hys
      exact ⟨k, .right c hk, hle⟩
  | left a _ ih =>
    obtain ⟨k, hk, hle⟩ := ih h'
    exact ⟨k, .left a hk, hle⟩
  | @keep a b xs ys l hab _ ih =>
    generalize hys : b :: ys = ys' at h'
    induction h' with
    | nil => cases hys
    | keep hbc h' =>
      obtain ⟨rfl, rfl⟩ := List.cons.inj hys
      obtain ⟨k, hk, hle⟩ := ih h'
      exact ⟨k + 1, .keep (hcmp _ _ _ hab hbc) hk, by simp only [List.length_cons]; omega⟩
    | left _ h' =>
      obtain ⟨rfl, rfl⟩ := List.cons.inj hys
      obtain ⟨k, hk, hle⟩ := ih h'
      exact ⟨k, .left a hk, by simp only [List.length_cons]; omega⟩
    | right c _ ihc =>
      obtain ⟨k, hk, hle⟩ := ihc hys
      exact ⟨k, .right c hk, hle⟩
  | @right xs ys l b _ ih =>
    generalize hys : b :: ys = ys' at h'
    induction h' with
    | nil => cases hys
    | keep hbc h' =>
      obtain ⟨rfl, rfl⟩ := List.cons.inj hys
      obtain ⟨k, hk, hle⟩ := ih h'
      exact ⟨k, .right _ hk, by simp only [List.length_cons]; omega⟩
    | left _ h' =>
      obtain ⟨rfl, rfl⟩ := List.cons.inj hys
      obtain ⟨k, hk, hle⟩ := ih h'
      exact ⟨k, hk, by simp only [List.length_cons]; omega⟩
    | right c _ ihc =>
      obtain ⟨k, hk, hle⟩ := ihc hys
      exact ⟨k, .right c hk, hle⟩

/-- **A detour is not shorter.** -/
theorem dist_triangle {cmp' : β → γ → Bool} {cmp'' : α → γ → Bool}
    (hcmp : ∀ a b c, cmp a b = true → cmp' b c = true → cmp'' a c = true)
    (xs : List α) (ys : List β) (zs : List γ) :
    (ofLists cmp'' xs zs).dist ≤ (ofLists cmp xs ys).dist + (ofLists cmp' ys zs).dist := by
  obtain ⟨l, hl, hdist⟩ := exists_aligned cmp xs ys
  obtain ⟨l', hl', hdist'⟩ := exists_aligned cmp' ys zs
  obtain ⟨k, hk, hle⟩ := hl.trans hcmp hl'
  have := hk.dist_le
  omega

theorem aligned_of_forall₂ (h : List.Forall₂ (fun a b ↦ cmp a b = true) xs ys) :
    Aligned cmp xs ys xs.length :=
  .of_sublist (List.Sublist.refl xs) (List.Sublist.refl ys) h

/-- **Nothing is to be done** only if all elements are matched. -/
theorem dist_eq_zero_iff :
    (ofLists cmp xs ys).dist = 0 ↔ List.Forall₂ (fun a b ↦ cmp a b = true) xs ys := by
  constructor
  · intro h
    obtain ⟨l, hl, hdist⟩ := exists_aligned cmp xs ys
    obtain ⟨s, t, hs, ht, hst, rfl⟩ := aligned_iff.mp hl
    have hlen := hst.length_eq
    have hxs := hs.length_le
    have hys := ht.length_le
    rw [hs.eq_of_length (by omega), ht.eq_of_length (by omega)] at hst
    exact hst
  · intro h
    have hle := (aligned_of_forall₂ h).dist_le
    have hlen := h.length_eq
    omega

/-! ## What the two lists begin and end with -/

/-- One element less is one match less, at most. -/
theorem Aligned.of_cons_right (h : Aligned cmp xs (b :: ys) l) :
    ∃ l', Aligned cmp xs ys l' ∧ l ≤ l' + 1 := by
  generalize hys : b :: ys = ys' at h
  induction h with
  | nil => cases hys
  | keep _ h =>
    obtain ⟨rfl, rfl⟩ := List.cons.inj hys
    exact ⟨_, .left _ h, Nat.le_refl _⟩
  | left a _ ih =>
    obtain ⟨l', hl', hle⟩ := ih hys
    exact ⟨l', .left a hl', hle⟩
  | right _ h =>
    obtain ⟨rfl, rfl⟩ := List.cons.inj hys
    exact ⟨_, h, Nat.le_succ _⟩

theorem Aligned.of_cons (h : Aligned cmp (a :: xs) (b :: ys) l) :
    ∃ l', Aligned cmp xs ys l' ∧ l ≤ l' + 1 := by
  cases h with
  | keep _ h => exact ⟨_, h, Nat.le_refl _⟩
  | left _ h => exact h.of_cons_right
  | right _ h =>
    obtain ⟨l', hl', hle⟩ := h.swap.of_cons_right
    exact ⟨l', hl'.swap, hle⟩

/-- A match at the beginning does not count. -/
theorem dist_cons (hab : cmp a b = true) (xs : List α) (ys : List β) :
    (ofLists cmp (a :: xs) (b :: ys)).dist = (ofLists cmp xs ys).dist := by
  obtain ⟨l, hl, hdist⟩ := exists_aligned cmp xs ys
  obtain ⟨k, hk, hdist'⟩ := exists_aligned cmp (a :: xs) (b :: ys)
  obtain ⟨l', hl', hle⟩ := hk.of_cons
  have h1 := (hl.keep hab).dist_le
  have h2 := hl'.dist_le
  simp only [List.length_cons] at h1 hdist'
  omega

/-- **What the lists begin with** does not count. -/
theorem dist_append (h : List.Forall₂ (fun a b ↦ cmp a b = true) xs' ys') (xs : List α)
    (ys : List β) : (ofLists cmp (xs' ++ xs) (ys' ++ ys)).dist = (ofLists cmp xs ys).dist := by
  induction h with
  | nil => rfl
  | cons hab _ ih =>
    rw [List.cons_append, List.cons_append, dist_cons hab, ih]

theorem Aligned.reverse (h : Aligned cmp xs ys l) : Aligned cmp xs.reverse ys.reverse l := by
  obtain ⟨s, t, hs, ht, hst, rfl⟩ := aligned_iff.mp h
  rw [← List.length_reverse]
  exact .of_sublist hs.reverse ht.reverse (List.forall₂_reverse_iff.mpr hst)

theorem dist_reverse (cmp : α → β → Bool) (xs : List α) (ys : List β) :
    (ofLists cmp xs.reverse ys.reverse).dist = (ofLists cmp xs ys).dist := by
  obtain ⟨l, hl, hdist⟩ := exists_aligned cmp xs ys
  obtain ⟨l', hl', hdist'⟩ := exists_aligned cmp xs.reverse ys.reverse
  have h := hl.reverse.dist_le
  have h' := hl'.reverse.dist_le
  simp only [List.reverse_reverse, List.length_reverse] at h h' hdist'
  omega

/-- **What they end with** does not count either. -/
theorem dist_append_right (h : List.Forall₂ (fun a b ↦ cmp a b = true) xs' ys') (xs : List α)
    (ys : List β) : (ofLists cmp (xs ++ xs') (ys ++ ys')).dist = (ofLists cmp xs ys).dist := by
  rw [← dist_reverse, List.reverse_append, List.reverse_append,
    dist_append (List.forall₂_reverse_iff.mpr h), dist_reverse]

end Grid
