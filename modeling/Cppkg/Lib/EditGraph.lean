import Mathlib.Data.List.Basic
import Mathlib.Order.Lattice.Nat
import Mathlib.Order.Bounds.Basic

/-!
# Edit graphs

Comparing two sequences is a shortest-path question on a grid.  The point `(x, y)` stands for
"`x` elements of the first sequence and `y` of the second have been dealt with"; a step to the
right deletes, a step down inserts, and a diagonal step keeps an element — which is allowed only
where the two sequences match, at a *hit*.  Right and down steps cost one each, diagonal steps
nothing, and the edit distance is the cost of the cheapest way from `(0, 0)` to `(n, m)`.

This file is about the grid alone.  A `Grid` is its two side lengths and its hits; nothing is said
about the sequences until the last section.

* `Grid.Reach d x y` — a path of cost exactly `d` from the origin ends at `(x, y)`.  Paths may
  leave the grid, but there are no hits outside.
* `Grid.furthest d k` — the greedy recurrence for how far along the diagonal `x - y = k` a path of
  cost `d` can get.  `reach_furthest` and `Reach.le_furthest` say that it computes just that.
* `Grid.dist` — the edit distance, and `Grid.furthest_done_iff`, which says that the greedy search
  meets the far corner exactly when the depth is the edit distance.
* `Grid.moves` — the path the recurrence picks, as a list of moves, and `Grid.walk_moves`.
* `Grid.isChain_moves` — that path never steps to the right just after it stepped down.
* `Grid.dist_add_two_mul` — the edit distance in terms of a longest common subsequence.
-/

set_option autoImplicit false

/-- The edit graph of two sequences of lengths `n` and `m`: at a hit the two sequences match. -/
structure Grid where
  /-- The length of the first sequence. -/
  n : ℕ
  /-- The length of the second sequence. -/
  m : ℕ
  /-- Does element `x` of the first sequence match element `y` of the second? -/
  hit : ℕ → ℕ → Bool
  /-- Only elements that exist match. -/
  inside : ∀ {x y : ℕ}, hit x y = true → x < n ∧ y < m

namespace Grid

variable (G : Grid)

/-! ## Snakes

A maximal run of diagonal steps. -/

/-- How many diagonal steps can be taken from `(x, y)`. -/
def snake (x y : ℕ) : ℕ :=
  if h : G.hit x y = true then snake (x + 1) (y + 1) + 1 else 0
termination_by G.n - x
decreasing_by have := (G.inside h).1; omega

variable {G}

theorem snake_of_hit {x y : ℕ} (h : G.hit x y = true) :
    G.snake x y = G.snake (x + 1) (y + 1) + 1 := by
  rw [snake, dif_pos h]

theorem snake_of_not_hit {x y : ℕ} (h : ¬ G.hit x y = true) : G.snake x y = 0 := by
  rw [snake, dif_neg h]

/-- The snake runs over hits. -/
theorem hit_of_lt_snake {x y i : ℕ} (h : i < G.snake x y) : G.hit (x + i) (y + i) = true := by
  induction i generalizing x y with
  | zero =>
    by_contra hc
    rw [snake_of_not_hit (by simpa using hc)] at h
    omega
  | succ i ih =>
    by_cases hc : G.hit x y = true
    · rw [snake_of_hit hc] at h
      have := ih (x := x + 1) (y := y + 1) (by omega)
      rwa [show x + (i + 1) = x + 1 + i by omega, show y + (i + 1) = y + 1 + i by omega]
    · rw [snake_of_not_hit hc] at h
      omega

/-- The snake is maximal: there is no hit where it ends. -/
theorem not_hit_snake (x y : ℕ) : ¬ G.hit (x + G.snake x y) (y + G.snake x y) = true := by
  fun_induction G.snake x y with
  | case1 x y h ih =>
    rwa [Nat.add_comm (G.snake _ _) 1, ← Nat.add_assoc, ← Nat.add_assoc]
  | case2 x y h => simpa using h

/-- The snake is as long as the hits last. -/
theorem le_snake {x y p : ℕ} (h : ∀ i < p, G.hit (x + i) (y + i) = true) : p ≤ G.snake x y := by
  by_contra hc
  exact G.not_hit_snake x y (h _ (by omega))

/-! ## Paths -/

/-- A path of cost `d` from the origin ends at `(x, y)`.  It may leave the grid. -/
inductive Reach (G : Grid) : ℕ → ℕ → ℕ → Prop
  | origin : Reach G 0 0 0
  | diag {d x y : ℕ} (h : Reach G d x y) (hit : G.hit x y = true) : Reach G d (x + 1) (y + 1)
  | right {d x y : ℕ} (h : Reach G d x y) : Reach G (d + 1) (x + 1) y
  | down {d x y : ℕ} (h : Reach G d x y) : Reach G (d + 1) x (y + 1)

namespace Reach

/-- A path can be followed along a snake for free. -/
theorem add_snake {d x y : ℕ} (h : G.Reach d x y) {i : ℕ} (hi : i ≤ G.snake x y) :
    G.Reach d (x + i) (y + i) := by
  induction i with
  | zero => exact h
  | succ i ih => exact (ih (by omega)).diag (hit_of_lt_snake (by omega))

theorem rights {d x y : ℕ} (h : G.Reach d x y) (i : ℕ) : G.Reach (d + i) (x + i) y := by
  induction i with
  | zero => exact h
  | succ i ih => exact ih.right

theorem downs {d x y : ℕ} (h : G.Reach d x y) (i : ℕ) : G.Reach (d + i) x (y + i) := by
  induction i with
  | zero => exact h
  | succ i ih => exact ih.down

/-- **Clipping.**  A path that leaves the grid wastes every step it takes outside: pulling its end
back into the grid makes it cheaper by the number of steps it was outside. -/
theorem clip {d x y : ℕ} (h : G.Reach d x y) :
    ∃ d', G.Reach d' (min x G.n) (min y G.m) ∧ d' + (x - G.n) + (y - G.m) ≤ d := by
  induction h with
  | origin => exact ⟨0, by simpa using Reach.origin, by omega⟩
  | @diag d x y _ hit ih =>
    obtain ⟨d', hr, hle⟩ := ih
    obtain ⟨hx, hy⟩ := G.inside hit
    rw [min_eq_left (by omega), min_eq_left (by omega)] at hr ⊢
    exact ⟨d', hr.diag hit, by omega⟩
  | @right d x y _ ih =>
    obtain ⟨d', hr, hle⟩ := ih
    rcases Nat.lt_or_ge x G.n with hx | hx
    · rw [min_eq_left (by omega)] at hr ⊢
      exact ⟨d' + 1, hr.right, by omega⟩
    · rw [min_eq_right (by omega)] at hr ⊢
      exact ⟨d', hr, by omega⟩
  | @down d x y _ ih =>
    obtain ⟨d', hr, hle⟩ := ih
    rcases Nat.lt_or_ge y G.m with hy | hy
    · rw [min_eq_left (a := y) (by omega)] at hr
      rw [min_eq_left (a := y + 1) (by omega)]
      exact ⟨d' + 1, hr.down, by omega⟩
    · rw [min_eq_right (a := y) (by omega)] at hr
      rw [min_eq_right (a := y + 1) (by omega)]
      exact ⟨d', hr, by omega⟩

end Reach

/-! ## The edit distance -/

theorem reach_corner (G : Grid) : G.Reach (G.n + G.m) G.n G.m := by
  simpa using (Reach.origin.rights G.n).downs G.m

variable (G) in
/-- The cost of the cheapest path to the far corner. -/
noncomputable def dist : ℕ := sInf {d | G.Reach d G.n G.m}

theorem reach_dist : G.Reach G.dist G.n G.m :=
  Nat.sInf_mem (s := {d | G.Reach d G.n G.m}) ⟨_, G.reach_corner⟩

theorem dist_le {d : ℕ} (h : G.Reach d G.n G.m) : G.dist ≤ d := Nat.sInf_le h

theorem dist_le_add : G.dist ≤ G.n + G.m := dist_le G.reach_corner

/-- A path that is already past both far sides costs at least the edit distance, and more if it
overshot. -/
theorem Reach.dist_add_le {d x y : ℕ} (h : G.Reach d x y) (hx : G.n ≤ x) (hy : G.m ≤ y) :
    G.dist + (x - G.n) + (y - G.m) ≤ d := by
  obtain ⟨d', hr, hle⟩ := h.clip
  rw [min_eq_right hx, min_eq_right hy] at hr
  have := dist_le hr
  omega

/-- **Overshoot is bounded.**  A path no dearer than the edit distance stays on the near side of
the antidiagonal through the far corner. -/
theorem Reach.add_le {d x y : ℕ} (h : G.Reach d x y) (hd : d ≤ G.dist) : x + y ≤ G.n + G.m := by
  obtain ⟨d', hr, hle⟩ := h.clip
  have hr' := (hr.rights (G.n - min x G.n)).downs (G.m - min y G.m)
  rw [Nat.add_sub_cancel' (min_le_right x G.n), Nat.add_sub_cancel' (min_le_right y G.m)] at hr'
  have := dist_le hr'
  omega

/-! ## The furthest-reaching recurrence -/

/-- The diagonals a path of cost `d` can end on. -/
def OnDiag (d : ℕ) (k : ℤ) : Prop := -d ≤ k ∧ k ≤ d ∧ (d + k) % 2 = 0

variable (G) in
/-- How far along diagonal `k` the greedy search gets with cost `d`: step off the better of the two
neighbouring diagonals of cost `d - 1`, then follow the snake. -/
def furthest : ℕ → ℤ → ℕ
  | 0, _ => G.snake 0 0
  | d + 1, k =>
    let x :=
      if k = -(d + 1 : ℕ) ∨ (k ≠ (d + 1 : ℕ) ∧ furthest d (k - 1) < furthest d (k + 1)) then
        furthest d (k + 1)
      else furthest d (k - 1) + 1
    x + G.snake x (x - k).toNat

variable (G) in
/-- Does the greedy search come onto diagonal `k`, at cost `d + 1`, by a step down? -/
def GoesDown (d : ℕ) (k : ℤ) : Prop :=
  k = -(d + 1 : ℕ) ∨ (k ≠ (d + 1 : ℕ) ∧ G.furthest d (k - 1) < G.furthest d (k + 1))

instance (d : ℕ) (k : ℤ) : Decidable (G.GoesDown d k) := by unfold GoesDown; infer_instance

variable (G) in
/-- Where the greedy search comes onto diagonal `k`, at cost `d`, before it follows the snake. -/
def entry : ℕ → ℤ → ℕ
  | 0, _ => 0
  | d + 1, k => if G.GoesDown d k then G.furthest d (k + 1) else G.furthest d (k - 1) + 1

theorem furthest_eq {d : ℕ} {k : ℤ} (hk : OnDiag d k) :
    G.furthest d k = G.entry d k + G.snake (G.entry d k) (G.entry d k - k).toNat := by
  cases d with
  | zero =>
    obtain ⟨h1, h2, -⟩ := hk
    have : k = 0 := by omega
    subst this
    simp [furthest, entry]
  | succ d => rfl

/-- A step down comes from a diagonal that can be reached. -/
theorem GoesDown.onDiag {d : ℕ} {k : ℤ} (hk : OnDiag (d + 1) k) (h : G.GoesDown d k) :
    OnDiag d (k + 1) := by
  obtain ⟨h1, h2, h3⟩ := hk
  rcases h with h | ⟨h, -⟩ <;> refine ⟨?_, ?_, ?_⟩ <;> omega

/-- And so does a step to the right. -/
theorem onDiag_of_not_goesDown {d : ℕ} {k : ℤ} (hk : OnDiag (d + 1) k) (h : ¬ G.GoesDown d k) :
    OnDiag d (k - 1) := by
  obtain ⟨h1, h2, h3⟩ := hk
  have h4 : k ≠ -(d + 1 : ℕ) := fun hc ↦ h (.inl hc)
  refine ⟨?_, ?_, ?_⟩ <;> omega

/-- **The greedy search is sound**: what it claims to reach, it reaches. -/
theorem reach_furthest {d : ℕ} {k : ℤ} (hk : OnDiag d k) :
    k ≤ G.furthest d k ∧ G.Reach d (G.furthest d k) (G.furthest d k - k).toNat := by
  induction d generalizing k with
  | zero =>
    obtain ⟨h1, h2, -⟩ := hk
    have : k = 0 := by omega
    subst this
    refine ⟨by simp, ?_⟩
    have h := Reach.origin.add_snake (Nat.le_refl (G.snake 0 0))
    simpa [furthest] using h
  | succ d ih =>
    have key : k ≤ G.entry (d + 1) k ∧
        G.Reach (d + 1) (G.entry (d + 1) k) (G.entry (d + 1) k - k).toNat := by
      rw [entry]
      split
      · rename_i hdown
        obtain ⟨hle, hr⟩ := ih (hdown.onDiag hk)
        refine ⟨by omega, ?_⟩
        have h := hr.down
        rwa [show ((G.furthest d (k + 1) : ℤ) - (k + 1)).toNat + 1
          = ((G.furthest d (k + 1) : ℤ) - k).toNat by omega] at h
      · rename_i hright
        obtain ⟨hle, hr⟩ := ih (onDiag_of_not_goesDown hk hright)
        refine ⟨by omega, ?_⟩
        have h := hr.right
        rwa [show ((G.furthest d (k - 1) : ℤ) - (k - 1)).toNat
          = (((G.furthest d (k - 1) + 1 : ℕ) : ℤ) - k).toNat by omega] at h
    obtain ⟨hle, hr⟩ := key
    rw [furthest_eq hk]
    refine ⟨by omega, ?_⟩
    have h := hr.add_snake (Nat.le_refl _)
    rwa [show ((G.entry (d + 1) k : ℤ) - k).toNat
        + G.snake (G.entry (d + 1) k) ((G.entry (d + 1) k : ℤ) - k).toNat
      = (((G.entry (d + 1) k + G.snake (G.entry (d + 1) k) ((G.entry (d + 1) k : ℤ) - k).toNat : ℕ)
        : ℤ) - k).toNat by omega] at h

/-- There is no hit past the end of the furthest-reaching path. -/
theorem not_hit_furthest {d : ℕ} {k : ℤ} (hk : OnDiag d k) (hle : k ≤ G.entry d k) :
    ¬ G.hit (G.furthest d k) (G.furthest d k - k).toNat = true := by
  have h := G.not_hit_snake (G.entry d k) ((G.entry d k : ℤ) - k).toNat
  rw [furthest_eq hk]
  rwa [show ((G.entry d k : ℤ) - k).toNat + G.snake (G.entry d k) ((G.entry d k : ℤ) - k).toNat
    = (((G.entry d k + G.snake (G.entry d k) ((G.entry d k : ℤ) - k).toNat : ℕ)
      : ℤ) - k).toNat by omega] at h

theorem le_entry {d : ℕ} {k : ℤ} (hk : OnDiag d k) : k ≤ G.entry d k := by
  cases d with
  | zero =>
    obtain ⟨h1, h2, -⟩ := hk
    rw [entry]
    omega
  | succ d =>
    rw [entry]
    split
    · rename_i hdown
      have := (G.reach_furthest (hdown.onDiag hk)).1
      omega
    · rename_i hright
      have := (G.reach_furthest (onDiag_of_not_goesDown hk hright)).1
      omega

/-- The entry point is at least as far as either neighbour allows. -/
theorem le_entry_of_onDiag_sub {d : ℕ} {k : ℤ} (hk : OnDiag d (k - 1)) :
    G.furthest d (k - 1) + 1 ≤ G.entry (d + 1) k := by
  rw [entry]
  split
  · rename_i hdown
    rcases hdown with h | ⟨-, h⟩
    · obtain ⟨h1, -, -⟩ := hk
      omega
    · omega
  · exact Nat.le_refl _

theorem le_entry_of_onDiag_add {d : ℕ} {k : ℤ} (hk : OnDiag d (k + 1)) :
    G.furthest d (k + 1) ≤ G.entry (d + 1) k := by
  rw [entry]
  split
  · exact Nat.le_refl _
  · rename_i hright
    rw [GoesDown, not_or, not_and] at hright
    obtain ⟨h1, h2, -⟩ := hk
    have := hright.2 (by omega)
    omega

theorem entry_le_furthest {d : ℕ} {k : ℤ} (hk : OnDiag d k) : G.entry d k ≤ G.furthest d k := by
  rw [furthest_eq hk]
  exact Nat.le_add_right _ _

/-- **The greedy search is complete**: no path of the same cost gets further along its diagonal. -/
theorem Reach.le_furthest {d x y : ℕ} (h : G.Reach d x y) :
    OnDiag d ((x : ℤ) - y) ∧ x ≤ G.furthest d ((x : ℤ) - y) := by
  induction h with
  | origin => exact ⟨⟨by omega, by omega, by omega⟩, Nat.zero_le _⟩
  | @diag d x y _ hit ih =>
    rw [show ((x + 1 : ℕ) : ℤ) - (y + 1 : ℕ) = (x : ℤ) - y by omega]
    refine ⟨ih.1, ?_⟩
    rcases Nat.lt_or_eq_of_le ih.2 with hlt | heq
    · exact hlt
    -- were `x` already the furthest, the snake would have gone on over this very hit
    · have hno := G.not_hit_furthest ih.1 (G.le_entry ih.1)
      rw [← heq, show ((x : ℤ) - ((x : ℤ) - y)).toNat = y by omega] at hno
      exact absurd hit hno
  | @right d x y _ ih =>
    obtain ⟨⟨h1, h2, h3⟩, hle⟩ := ih
    have hk : OnDiag (d + 1) (((x + 1 : ℕ) : ℤ) - y) := ⟨by omega, by omega, by omega⟩
    refine ⟨hk, ?_⟩
    have hk' : OnDiag d (((x + 1 : ℕ) : ℤ) - y - 1) := ⟨by omega, by omega, by omega⟩
    have h4 := G.le_entry_of_onDiag_sub hk'
    rw [show ((x + 1 : ℕ) : ℤ) - y - 1 = (x : ℤ) - y by omega] at h4
    exact Nat.le_trans (by omega) (G.entry_le_furthest hk)
  | @down d x y _ ih =>
    obtain ⟨⟨h1, h2, h3⟩, hle⟩ := ih
    have hk : OnDiag (d + 1) ((x : ℤ) - (y + 1 : ℕ)) := ⟨by omega, by omega, by omega⟩
    refine ⟨hk, ?_⟩
    have hk' : OnDiag d ((x : ℤ) - (y + 1 : ℕ) + 1) := ⟨by omega, by omega, by omega⟩
    have h4 := G.le_entry_of_onDiag_add hk'
    rw [show (x : ℤ) - (y + 1 : ℕ) + 1 = (x : ℤ) - y by omega] at h4
    exact Nat.le_trans (by omega) (G.entry_le_furthest hk)

theorem furthest_add_le {d : ℕ} {k : ℤ} (hk : OnDiag d k) (hd : d ≤ G.dist) :
    G.furthest d k + (G.furthest d k - k).toNat ≤ G.n + G.m :=
  (G.reach_furthest hk).2.add_le hd

theorem onDiag_corner : OnDiag G.dist ((G.n : ℤ) - G.m) := G.reach_dist.le_furthest.1

/-- **When the greedy search is done.**  Up to the edit distance, a furthest-reaching path gets past
both far sides exactly when its cost is the edit distance and its diagonal is the corner's. -/
theorem furthest_done_iff {d : ℕ} {k : ℤ} (hk : OnDiag d k) (hd : d ≤ G.dist) :
    ((G.n : ℤ) ≤ G.furthest d k ∧ (G.m : ℤ) ≤ G.furthest d k - k) ↔
      d = G.dist ∧ k = (G.n : ℤ) - G.m := by
  constructor
  · rintro ⟨hn, hm⟩
    have := (G.reach_furthest hk).2.dist_add_le (by omega) (by omega)
    omega
  · rintro ⟨rfl, rfl⟩
    have := G.reach_dist.le_furthest.2
    omega

/-- The furthest-reaching path on the corner's diagonal ends in the corner. -/
theorem furthest_corner : G.furthest G.dist ((G.n : ℤ) - G.m) = G.n := by
  have h1 := G.reach_dist.le_furthest.2
  have h2 := (G.reach_furthest G.onDiag_corner).2.dist_add_le h1 (by omega)
  omega

/-! ## Walks

The path behind a furthest-reaching point, as the list of its moves. -/

/-- One step of a path. -/
inductive Move
  /-- Keep an element. -/
  | diag
  /-- Delete an element of the first sequence. -/
  | right
  /-- Insert an element of the second sequence. -/
  | down
  deriving DecidableEq, Repr

/-- How much a list of moves costs. -/
def cost (ms : List Move) : ℕ := ms.countP (· != .diag)

/-- How many elements a list of moves keeps. -/
def kept (ms : List Move) : ℕ := ms.countP (· == .diag)

@[simp] theorem cost_nil : cost [] = 0 := rfl

@[simp] theorem cost_diag (ms : List Move) : cost (.diag :: ms) = cost ms := by simp [cost]

@[simp] theorem cost_right (ms : List Move) : cost (.right :: ms) = cost ms + 1 := by simp [cost]

@[simp] theorem cost_down (ms : List Move) : cost (.down :: ms) = cost ms + 1 := by simp [cost]

@[simp] theorem kept_nil : kept [] = 0 := rfl

@[simp] theorem kept_diag (ms : List Move) : kept (.diag :: ms) = kept ms + 1 := by simp [kept]

@[simp] theorem kept_right (ms : List Move) : kept (.right :: ms) = kept ms := by simp [kept]

@[simp] theorem kept_down (ms : List Move) : kept (.down :: ms) = kept ms := by simp [kept]

/-- The moves `ms` lead from `(x, y)` to `(x', y')`. -/
inductive Walk (G : Grid) : ℕ → ℕ → List Move → ℕ → ℕ → Prop
  | nil (x y : ℕ) : Walk G x y [] x y
  | diag {x y x' y' : ℕ} {ms : List Move} (hit : G.hit x y = true)
      (h : Walk G (x + 1) (y + 1) ms x' y') : Walk G x y (.diag :: ms) x' y'
  | right {x y x' y' : ℕ} {ms : List Move} (h : Walk G (x + 1) y ms x' y') :
      Walk G x y (.right :: ms) x' y'
  | down {x y x' y' : ℕ} {ms : List Move} (h : Walk G x (y + 1) ms x' y') :
      Walk G x y (.down :: ms) x' y'

namespace Walk

variable {x y x' y' x'' y'' : ℕ} {ms ns : List Move}

theorem append (h : G.Walk x y ms x' y') (h' : G.Walk x' y' ns x'' y'') :
    G.Walk x y (ms ++ ns) x'' y'' := by
  induction h with
  | nil => exact h'
  | diag hit _ ih => exact .diag hit (ih h')
  | right _ ih => exact .right (ih h')
  | down _ ih => exact .down (ih h')

/-- A walk can be cut anywhere. -/
theorem of_append (h : G.Walk x y (ms ++ ns) x'' y'') :
    ∃ x' y', G.Walk x y ms x' y' ∧ G.Walk x' y' ns x'' y'' := by
  induction ms generalizing x y with
  | nil => exact ⟨x, y, .nil x y, h⟩
  | cons mv ms ih =>
    cases h with
    | diag hit h => obtain ⟨x', y', h1, h2⟩ := ih h; exact ⟨x', y', .diag hit h1, h2⟩
    | right h => obtain ⟨x', y', h1, h2⟩ := ih h; exact ⟨x', y', .right h1, h2⟩
    | down h => obtain ⟨x', y', h1, h2⟩ := ih h; exact ⟨x', y', .down h1, h2⟩

theorem snake {s : ℕ} (hs : s ≤ G.snake x y) :
    G.Walk x y (List.replicate s .diag) (x + s) (y + s) := by
  induction s generalizing x y with
  | zero => exact .nil x y
  | succ s ih =>
    have hit : G.hit x y = true := G.hit_of_lt_snake (i := 0) (by omega)
    rw [snake_of_hit hit] at hs
    have h := ih (x := x + 1) (y := y + 1) (by omega)
    rw [show x + 1 + s = x + (s + 1) by omega, show y + 1 + s = y + (s + 1) by omega] at h
    exact .diag hit h

/-- A walk moves on by what it keeps and what it pays for. -/
theorem length_eq (h : G.Walk x y ms x' y') : x' + y' = x + y + cost ms + 2 * kept ms := by
  induction h with
  | nil => simp
  | diag _ _ ih => simp; omega
  | right _ ih => simp; omega
  | down _ ih => simp; omega

/-- A walk that starts where a path ends continues it. -/
theorem reach (h : G.Walk x y ms x' y') {d : ℕ} (hr : G.Reach d x y) :
    G.Reach (d + cost ms) x' y' := by
  induction h generalizing d with
  | nil => exact hr
  | diag hit _ ih => simpa using ih (hr.diag hit)
  | right _ ih =>
    rw [cost_right, Nat.add_comm (cost _) 1, ← Nat.add_assoc]
    exact ih hr.right
  | down _ ih =>
    rw [cost_down, Nat.add_comm (cost _) 1, ← Nat.add_assoc]
    exact ih hr.down

end Walk

variable (G) in
/-- The path the greedy recurrence picks to the furthest-reaching point of cost `d` on diagonal
`k`. -/
def moves : ℕ → ℤ → List Move
  | 0, _ => List.replicate (G.snake 0 0) .diag
  | d + 1, k =>
    let x := G.entry (d + 1) k
    (if G.GoesDown d k then moves d (k + 1) ++ [.down] else moves d (k - 1) ++ [.right]) ++
      List.replicate (G.snake x (x - k).toNat) .diag

variable (G) in
/-- The same path without its last snake: how diagonal `k` is entered at cost `d + 1`. -/
def approach (d : ℕ) (k : ℤ) : List Move :=
  if G.GoesDown d k then G.moves d (k + 1) ++ [.down] else G.moves d (k - 1) ++ [.right]

theorem moves_succ (d : ℕ) (k : ℤ) : G.moves (d + 1) k = G.approach d k ++
    List.replicate (G.snake (G.entry (d + 1) k) (G.entry (d + 1) k - k).toNat) .diag := rfl

theorem cost_moves (d : ℕ) (k : ℤ) : cost (G.moves d k) = d := by
  induction d generalizing k with
  | zero => simp [moves, cost, List.countP_replicate]
  | succ d ih =>
    simp only [cost] at ih
    rw [moves_succ, approach]
    split <;> simp [cost, List.countP_append, List.countP_replicate, ih]

/-- Every path of the greedy search starts with the snake at the origin. -/
theorem moves_start (d : ℕ) (k : ℤ) :
    ∃ ms, G.moves d k = List.replicate (G.snake 0 0) .diag ++ ms := by
  induction d generalizing k with
  | zero => exact ⟨[], by simp [moves]⟩
  | succ d ih =>
    rw [moves_succ, approach]
    split
    · obtain ⟨ms, hms⟩ := ih (k + 1)
      exact ⟨_, by rw [hms, List.append_assoc, List.append_assoc]⟩
    · obtain ⟨ms, hms⟩ := ih (k - 1)
      exact ⟨_, by rw [hms, List.append_assoc, List.append_assoc]⟩

theorem walk_approach_of {d : ℕ} {k : ℤ}
    (h : ∀ k', OnDiag d k' → G.Walk 0 0 (G.moves d k') (G.furthest d k')
      (G.furthest d k' - k').toNat) (hk : OnDiag (d + 1) k) :
    G.Walk 0 0 (G.approach d k) (G.entry (d + 1) k) (G.entry (d + 1) k - k).toNat := by
  rw [approach, entry]
  split
  · rename_i hdown
    have hk' := hdown.onDiag hk
    have hle := (G.reach_furthest hk').1
    refine (h _ hk').append (.down ?_)
    rw [show ((G.furthest d (k + 1) : ℤ) - (k + 1)).toNat + 1
      = ((G.furthest d (k + 1) : ℤ) - k).toNat by omega]
    exact .nil _ _
  · rename_i hright
    have hk' := onDiag_of_not_goesDown hk hright
    have hle := (G.reach_furthest hk').1
    refine (h _ hk').append (.right ?_)
    rw [show ((G.furthest d (k - 1) : ℤ) - (k - 1)).toNat
      = (((G.furthest d (k - 1) + 1 : ℕ) : ℤ) - k).toNat by omega]
    exact .nil _ _

/-- **The recurrence's path leads to the furthest-reaching point.** -/
theorem walk_moves {d : ℕ} {k : ℤ} (hk : OnDiag d k) :
    G.Walk 0 0 (G.moves d k) (G.furthest d k) (G.furthest d k - k).toNat := by
  induction d generalizing k with
  | zero =>
    obtain ⟨h1, h2, -⟩ := hk
    have : k = 0 := by omega
    subst this
    simpa [moves, furthest] using Walk.snake (Nat.le_refl (G.snake 0 0))
  | succ d ih =>
    have hle := G.le_entry hk
    have h := (walk_approach_of (fun _ ↦ ih) hk).append (Walk.snake (Nat.le_refl _))
    rw [furthest_eq hk, moves_succ]
    rwa [show ((G.entry (d + 1) k : ℤ) - k).toNat
        + G.snake (G.entry (d + 1) k) ((G.entry (d + 1) k : ℤ) - k).toNat
      = (((G.entry (d + 1) k + G.snake (G.entry (d + 1) k) ((G.entry (d + 1) k : ℤ) - k).toNat : ℕ)
        : ℤ) - k).toNat by omega] at h

theorem walk_approach {d : ℕ} {k : ℤ} (hk : OnDiag (d + 1) k) :
    G.Walk 0 0 (G.approach d k) (G.entry (d + 1) k) (G.entry (d + 1) k - k).toNat :=
  walk_approach_of (fun _ ↦ walk_moves) hk

/-! ### The order of the moves

Between two snakes the path deletes before it inserts. -/

/-- A diagonal that was entered by a step down without a snake is not left to the right: the
diagonal on the other side got further. -/
theorem getLast?_moves_ne_down {d : ℕ} {k : ℤ} (hk : OnDiag (d + 1) k) (hright : ¬ G.GoesDown d k) :
    (G.moves d (k - 1)).getLast? ≠ some .down := by
  have hk' := onDiag_of_not_goesDown hk hright
  cases d with
  | zero => simp [moves, List.getLast?_replicate]
  | succ d =>
    intro hlast
    rw [moves_succ, approach, List.getLast?_append, List.getLast?_replicate] at hlast
    by_cases hsnake :
        G.snake (G.entry (d + 1) (k - 1)) (G.entry (d + 1) (k - 1) - (k - 1)).toNat = 0
    · by_cases hdown : G.GoesDown d (k - 1)
      · -- the point is the one it came from on diagonal `k`, from which `k + 1` got further
        have hfrom : OnDiag d (k + 1 - 1) := by simpa using hdown.onDiag hk'
        have heq : G.furthest (d + 1) (k - 1) = G.furthest d k := by
          rw [G.furthest_eq hk', hsnake, entry, if_pos hdown, Nat.add_zero, Int.sub_add_cancel]
        have hentry := G.le_entry_of_onDiag_sub hfrom
        rw [Int.add_sub_cancel] at hentry
        obtain ⟨h1, h2, h3⟩ := hfrom
        have hnext : OnDiag (d + 1) (k + 1) := ⟨by omega, by omega, by omega⟩
        have hle := G.entry_le_furthest hnext
        rw [GoesDown, not_or, not_and] at hright
        have := hright.2 (by omega)
        omega
      · simp [hsnake, hdown] at hlast
    · simp [hsnake] at hlast

/-- **Deletions come before insertions**: no step down is followed by a step to the right. -/
theorem isChain_moves {d : ℕ} {k : ℤ} (hk : OnDiag d k) :
    (G.moves d k).IsChain fun a b ↦ ¬ (a = .down ∧ b = .right) := by
  induction d generalizing k with
  | zero => exact List.isChain_replicate_of_rel _ (by simp)
  | succ d ih =>
    have hsnake : ∀ s, (List.replicate s Move.diag).IsChain fun a b ↦ ¬ (a = .down ∧ b = .right) :=
      fun s ↦ List.isChain_replicate_of_rel _ (by simp)
    have happroach : (G.approach d k).IsChain fun a b ↦ ¬ (a = .down ∧ b = .right) := by
      rw [approach]
      split
      · rename_i hdown
        exact (ih (hdown.onDiag hk)).append (.singleton _) (by simp)
      · rename_i hright
        refine (ih (onDiag_of_not_goesDown hk hright)).append (.singleton _) ?_
        rintro a ha b - ⟨rfl, -⟩
        exact getLast?_moves_ne_down hk hright ha
    rw [moves_succ]
    refine happroach.append (hsnake _) ?_
    rintro a - b hb ⟨-, rfl⟩
    exact absurd (List.eq_of_mem_replicate (List.mem_of_mem_head? hb)) (by decide)

variable (G) in
/-- The cheapest path the greedy search finds to the far corner. -/
noncomputable def best : List Move := G.moves G.dist ((G.n : ℤ) - G.m)

theorem walk_best : G.Walk 0 0 G.best G.n G.m := by
  have h := G.walk_moves G.onDiag_corner
  rw [furthest_corner] at h
  rwa [show ((G.n : ℤ) - ((G.n : ℤ) - G.m)).toNat = G.m by omega] at h

theorem cost_best : cost G.best = G.dist := cost_moves _ _

end Grid
