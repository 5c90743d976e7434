import Cppkg.Lib.EditGraph
import Mathlib.Data.List.Forall2

/-!
# The edit distance of two lists

The edit graph of two lists, and the link between its edit distance and common subsequences: a path
through the grid keeps the elements of a common subsequence and pays for all the others.

"Common" is relative to a comparator `cmp`, which can be any relation at all: the elements kept on
the two sides are paired by `cmp`, not equal.
-/

set_option autoImplicit false

namespace Grid

variable {α β : Type} (cmp : α → β → Bool)

/-- The edit graph of two lists. -/
def ofLists (xs : List α) (ys : List β) : Grid where
  n := xs.length
  m := ys.length
  hit x y :=
    match xs[x]?, ys[y]? with
    | some a, some b => cmp a b
    | _, _ => false
  inside := by
    intro x y h
    split at h
    · rename_i hx hy
      exact ⟨(List.getElem?_eq_some_iff.mp hx).1, (List.getElem?_eq_some_iff.mp hy).1⟩
    · simp at h

@[simp] theorem ofLists_n (xs : List α) (ys : List β) : (ofLists cmp xs ys).n = xs.length := rfl

@[simp] theorem ofLists_m (xs : List α) (ys : List β) : (ofLists cmp xs ys).m = ys.length := rfl

theorem hit_ofLists {xs : List α} {ys : List β} {x y : ℕ} :
    (ofLists cmp xs ys).hit x y = true ↔
      ∃ a b, xs[x]? = some a ∧ ys[y]? = some b ∧ cmp a b = true := by
  simp only [ofLists]
  constructor
  · intro h
    split at h
    · rename_i a b hx hy
      exact ⟨a, b, hx, hy, h⟩
    · simp at h
  · rintro ⟨a, b, hx, hy, h⟩
    simp only [hx, hy, h]

/-- `xs` and `ys` have a common subsequence of length `l`: subsequences of that length of the two
whose elements `cmp` pairs off. -/
def CommonSubseq (xs : List α) (ys : List β) (l : ℕ) : Prop :=
  ∃ s t, s.Sublist xs ∧ t.Sublist ys ∧ List.Forall₂ (fun a b ↦ cmp a b = true) s t ∧ s.length = l

/-- `l` is the length of a longest common subsequence. -/
def IsLcsLength (xs : List α) (ys : List β) (l : ℕ) : Prop :=
  IsGreatest {l | CommonSubseq cmp xs ys l} l

variable {cmp} {xs : List α} {ys : List β}

/-- What a walk to the far corner keeps is a common subsequence of what is left of the two lists. -/
theorem Walk.commonSubseq {x y x' y' : ℕ} {ms : List Move}
    (h : (ofLists cmp xs ys).Walk x y ms x' y') :
    CommonSubseq cmp (xs.drop x) (ys.drop y) (kept ms) := by
  induction h with
  | nil => exact ⟨[], [], List.nil_sublist _, List.nil_sublist _, .nil, rfl⟩
  | diag hit _ ih =>
    obtain ⟨s, t, hs, ht, hst, hl⟩ := ih
    obtain ⟨a, b, hx, hy, hab⟩ := (hit_ofLists cmp).mp hit
    obtain ⟨hx', rfl⟩ := List.getElem?_eq_some_iff.mp hx
    obtain ⟨hy', rfl⟩ := List.getElem?_eq_some_iff.mp hy
    refine ⟨_ :: s, _ :: t, ?_, ?_, .cons hab hst, by simp [hl]⟩
    · rw [List.drop_eq_getElem_cons hx']; exact hs.cons_cons _
    · rw [List.drop_eq_getElem_cons hy']; exact ht.cons_cons _
  | @right x y _ _ _ _ ih =>
    obtain ⟨s, t, hs, ht, hst, hl⟩ := ih
    exact ⟨s, t, hs.trans (List.drop_sublist_drop_left xs (Nat.le_succ x)), ht, hst, by simp [hl]⟩
  | @down x y _ _ _ _ ih =>
    obtain ⟨s, t, hs, ht, hst, hl⟩ := ih
    exact ⟨s, t, hs, ht.trans (List.drop_sublist_drop_left ys (Nat.le_succ y)), hst, by simp [hl]⟩

/-- Walking past the rest of both lists, keeping nothing. -/
theorem walk_rest {x y : ℕ} (hx : x ≤ xs.length) (hy : y ≤ ys.length) :
    ∃ ms, (ofLists cmp xs ys).Walk x y ms xs.length ys.length ∧ kept ms = 0 := by
  have down : ∀ j y, y + j = ys.length →
      ∃ ms, (ofLists cmp xs ys).Walk xs.length y ms xs.length ys.length ∧ kept ms = 0 := by
    intro j
    induction j with
    | zero => rintro y rfl; exact ⟨[], .nil _ _, rfl⟩
    | succ j ih =>
      intro y hy
      obtain ⟨ms, hms, hk⟩ := ih (y + 1) (by omega)
      exact ⟨.down :: ms, .down hms, by simpa using hk⟩
  have right : ∀ i x, x + i = xs.length →
      ∃ ms, (ofLists cmp xs ys).Walk x y ms xs.length ys.length ∧ kept ms = 0 := by
    intro i
    induction i with
    | zero => rintro x rfl; exact down (ys.length - y) y (by omega)
    | succ i ih =>
      intro x hx
      obtain ⟨ms, hms, hk⟩ := ih (x + 1) (by omega)
      exact ⟨.right :: ms, .right hms, by simpa using hk⟩
  exact right (xs.length - x) x (by omega)

/-- A common subsequence of what is left of the two lists gives a walk to the far corner that keeps
it. -/
theorem CommonSubseq.walk {s : List α} {t : List β} {x y : ℕ}
    (hst : List.Forall₂ (fun a b ↦ cmp a b = true) s t)
    (hs : s.Sublist (xs.drop x)) (ht : t.Sublist (ys.drop y))
    (hx : x ≤ xs.length) (hy : y ≤ ys.length) :
    ∃ ms, (ofLists cmp xs ys).Walk x y ms xs.length ys.length ∧ kept ms = s.length := by
  induction hn : (xs.length - x) + (ys.length - y) using Nat.strongRecOn generalizing s t x y with
  | ind n ih =>
    cases hst with
    | nil => exact walk_rest hx hy
    | @cons a b s t hab hst =>
      have hx' : x < xs.length := by
        by_contra hc
        rw [List.drop_eq_nil_of_le (by omega)] at hs
        exact absurd (List.sublist_nil.mp hs) (by simp)
      have hy' : y < ys.length := by
        by_contra hc
        rw [List.drop_eq_nil_of_le (by omega)] at ht
        exact absurd (List.sublist_nil.mp ht) (by simp)
      rw [List.drop_eq_getElem_cons hx'] at hs
      rw [List.drop_eq_getElem_cons hy'] at ht
      -- skip an element on either side that the common subsequence does not use
      rcases hs with _ | ⟨_, hs⟩ | ⟨_, hs⟩
      · obtain ⟨ms, hms, hk⟩ := ih _ (by omega) (.cons hab hst) hs
          (by rwa [List.drop_eq_getElem_cons hy']) hx' hy rfl
        exact ⟨.right :: ms, .right hms, by simpa using hk⟩
      · rcases ht with _ | ⟨_, ht⟩ | ⟨_, ht⟩
        · obtain ⟨ms, hms, hk⟩ := ih _ (by omega) (.cons hab hst)
            (by rw [List.drop_eq_getElem_cons hx']; exact hs.cons_cons _) ht hx hy' rfl
          exact ⟨.down :: ms, .down hms, by simpa using hk⟩
        · obtain ⟨ms, hms, hk⟩ := ih _ (by omega) hst hs ht hx' hy' rfl
          have hit : (ofLists cmp xs ys).hit x y = true :=
            (hit_ofLists cmp).mpr ⟨_, _, List.getElem?_eq_getElem hx',
              List.getElem?_eq_getElem hy', hab⟩
          exact ⟨.diag :: ms, .diag hit hms, by simpa using hk⟩

/-- A common subsequence bounds the edit distance from above. -/
theorem CommonSubseq.dist_le {l : ℕ} (h : CommonSubseq cmp xs ys l) :
    (ofLists cmp xs ys).dist + 2 * l ≤ xs.length + ys.length := by
  obtain ⟨s, t, hs, ht, hst, rfl⟩ := h
  obtain ⟨ms, hms, hk⟩ := CommonSubseq.walk (x := 0) (y := 0) hst (by simpa using hs)
    (by simpa using ht) (Nat.zero_le _) (Nat.zero_le _)
  have h1 := Grid.dist_le (G := ofLists cmp xs ys) (by simpa using hms.reach .origin)
  have h2 := hms.length_eq
  omega

/-- The elements a cheapest walk keeps are a longest common subsequence. -/
theorem isLcsLength_best : IsLcsLength cmp xs ys (kept (ofLists cmp xs ys).best) := by
  have hw := (ofLists cmp xs ys).walk_best
  refine ⟨by simpa using hw.commonSubseq, fun l hl ↦ ?_⟩
  have h1 := CommonSubseq.dist_le hl
  have h2 := hw.length_eq
  rw [cost_best, ofLists_n, ofLists_m] at h2
  omega

/-- **The edit distance is what a longest common subsequence leaves over.** -/
theorem dist_add_two_mul {l : ℕ} (h : IsLcsLength cmp xs ys l) :
    (ofLists cmp xs ys).dist + 2 * l = xs.length + ys.length := by
  have hw := (ofLists cmp xs ys).walk_best.length_eq
  rw [cost_best, ofLists_n, ofLists_m] at hw
  have := h.unique isLcsLength_best
  omega

/-- Lists are as far apart as lists of their lengths can be when no two elements match. -/
theorem dist_eq_add_iff : (ofLists cmp xs ys).dist = xs.length + ys.length ↔
    ∀ a ∈ xs, ∀ b ∈ ys, ¬ cmp a b = true := by
  constructor
  · intro h a ha b hb hab
    have hone : CommonSubseq cmp xs ys 1 :=
      ⟨[a], [b], List.singleton_sublist.mpr ha, List.singleton_sublist.mpr hb,
        .cons hab .nil, rfl⟩
    have := hone.dist_le
    omega
  · intro h
    have hlcs : IsLcsLength cmp xs ys _ := isLcsLength_best
    have hzero : kept (ofLists cmp xs ys).best = 0 := by
      obtain ⟨s, t, hs, ht, hst, hlen⟩ := hlcs.1
      cases hst with
      | nil => exact hlen.symm
      | cons hab _ =>
        exact absurd hab (h _ (hs.subset List.mem_cons_self) _ (ht.subset List.mem_cons_self))
    have := dist_add_two_mul hlcs
    omega

end Grid
