import Cppkg.Diff.Myers
import Cppkg.Lib.CommonSubseq

/-!
# The forward search

What `extend`, `traceDiags` and `myersDiffTrace` compute, in terms of the edit graph of the two
sequences: the costs the source keeps are the furthest-reaching points of `Grid.furthest`, the
circular buffer never confuses two diagonals, and the search stops at the edit distance.

The results are about any `IndexStore`, so they say two things at once.  For `wrapping` they say
what the compiled code returns; for `checking` they say that no value the code stores on the way is
out of range.  What makes that work is `Grid.Reach.add_le`: a path that overshoots the grid on one
side falls short of it on the other by at least as much.
-/

set_option autoImplicit false

namespace Cppkg
namespace Diff

open Grid

variable {α : Type} {ix : IndexStore} {cmp : α → α → Bool} {orig updated : List α}

/-! ## Following a diagonal -/

/-- `slide` follows the snake. -/
theorem slide_wp {Q : PointT → Prop} (hn : orig.length ≤ 32767) (hm : updated.length ≤ 32767)
    {x y : ℕ}
    (hQ : Q ((x + (ofLists cmp orig updated).snake x y : ℕ),
      (y + (ofLists cmp orig updated).snake x y : ℕ))) :
    (slide ix cmp orig updated orig.length updated.length ((x : ℤ), (y : ℤ))).wp Q := by
  induction hs : (ofLists cmp orig updated).snake x y generalizing x y with
  | zero =>
    rw [hs] at hQ
    rw [slide, Run.wp_loop_iff]
    by_cases hxy : (x : ℤ) < orig.length ∧ (y : ℤ) < updated.length
    · have hx : x < orig.length := by omega
      have hy : y < updated.length := by omega
      have hno : ¬ cmp orig[x] updated[y] = true := by
        intro hc
        rw [snake_of_hit ((hit_ofLists cmp).mpr ⟨_, _, List.getElem?_eq_getElem hx,
          List.getElem?_eq_getElem hy, hc⟩)] at hs
        omega
      have ha : deref orig x = pure orig[x] := deref_natCast (List.getElem?_eq_getElem hx)
      have hb : deref updated y = pure updated[y] := deref_natCast (List.getElem?_eq_getElem hy)
      simpa [hxy, ha, hb, hno] using hQ
    · simp only [if_neg hxy, Run.wp_pure, Run.round_inr]
      exact hQ
  | succ s ih =>
    have hit : (ofLists cmp orig updated).hit x y = true := by
      by_contra hc
      rw [snake_of_not_hit hc] at hs
      omega
    rw [snake_of_hit hit] at hs hQ
    obtain ⟨a, b, hx, hy, hab⟩ := (hit_ofLists cmp).mp hit
    obtain ⟨hx', -⟩ := List.getElem?_eq_some_iff.mp hx
    obtain ⟨hy', -⟩ := List.getElem?_eq_some_iff.mp hy
    have ha : deref orig x = pure a := deref_natCast hx
    have hb : deref updated y = pure b := deref_natCast hy
    have hpx : ix.put ((x : ℤ) + 1) = pure ((x : ℤ) + 1) := ix.put_of_fits (by omega) (by omega)
    have hpy : ix.put ((y : ℤ) + 1) = pure ((y : ℤ) + 1) := ix.put_of_fits (by omega) (by omega)
    rw [slide, Run.wp_loop_iff]
    have hxy : (x : ℤ) < orig.length ∧ (y : ℤ) < updated.length := by omega
    simp only [hxy, and_self, if_true, ha, hb, hab, hpx, hpy, Run.wp_bind, Run.wp_pure,
      Run.round_inl]
    refine ih (x := x + 1) (y := y + 1) ?_ (by omega)
    rwa [show ∀ a : ℕ, a + 1 + (ofLists cmp orig updated).snake (x + 1) (y + 1)
      = a + ((ofLists cmp orig updated).snake (x + 1) (y + 1) + 1) from fun a ↦ by omega,
      Nat.add_right_comm y 1, Nat.add_assoc y]

/-! ## The circular buffer -/

/-- The number of costs: one for each diagonal a path up to the corner can end on. -/
def width (G : Grid) : ℤ := 2 * (G.n + G.m) + 1

/-- Where the cost of diagonal `k` is kept. -/
def slot (w k : ℤ) : ℕ := ((w + k) % w).toNat

theorem slot_of_nonneg {w k : ℤ} (h₁ : 0 ≤ k) (h₂ : k < w) : slot w k = k.toNat := by
  rw [slot, Int.add_emod_left, Int.emod_eq_of_lt h₁ h₂]

theorem slot_of_neg {w k : ℤ} (h₁ : -w ≤ k) (h₂ : k < 0) : slot w k = (w + k).toNat := by
  rw [slot, Int.emod_eq_of_lt (by omega) (by omega)]

theorem slot_lt {w : ℤ} (hw : 0 < w) (k : ℤ) : slot w k < w.toNat := by
  have := Int.emod_nonneg (w + k) (Int.ne_of_gt hw)
  have := Int.emod_lt_of_pos (w + k) hw
  rw [slot]
  omega

/-- Diagonals less than a buffer's width apart have different slots. -/
theorem slot_inj {w j k : ℤ} (hj : -w ≤ j ∧ j < w) (hk : -w ≤ k ∧ k < w) (hjk : j < k + w)
    (hkj : k < j + w) (h : slot w j = slot w k) : j = k := by
  rcases Int.lt_or_le j 0 with h1 | h1 <;> rcases Int.lt_or_le k 0 with h2 | h2
  · rw [slot_of_neg hj.1 h1, slot_of_neg hk.1 h2] at h; omega
  · rw [slot_of_neg hj.1 h1, slot_of_nonneg h2 hk.2] at h; omega
  · rw [slot_of_nonneg h1 hj.2, slot_of_neg hk.1 h2] at h; omega
  · rw [slot_of_nonneg h1 hj.2, slot_of_nonneg h2 hk.2] at h; omega

/-- A cost the search can come across. -/
def Fits (G : Grid) (v : ℤ) : Prop := 0 ≤ v ∧ v ≤ G.n + G.m

/-- What the search knows when round `d` begins: nothing but zeros at first, then the
furthest-reaching points of the round before. -/
def Row (G : Grid) : ℕ → List ℤ → Prop
  | 0, costs => costs = List.replicate (width G).toNat 0
  | d + 1, costs => costs.length = (width G).toNat ∧ (∀ v ∈ costs, Fits G v) ∧
      ∀ k, OnDiag d k → costs[slot (width G) k]? = some (G.furthest d k : ℤ)

theorem Row.length {G : Grid} {d : ℕ} {costs : List ℤ} (h : Row G d costs) :
    costs.length = (width G).toNat := by
  cases d with
  | zero => rw [Row] at h; simp [h]
  | succ d => exact h.1

theorem Row.fits {G : Grid} {d : ℕ} {costs : List ℤ} (h : Row G d costs) :
    ∀ v ∈ costs, Fits G v := by
  cases d with
  | zero =>
    intro v hv
    rw [Row] at h
    rw [h] at hv
    obtain rfl := (List.mem_replicate.mp hv).2
    exact ⟨Int.le_refl 0, by omega⟩
  | succ d => exact h.2.1

/-- What the search knows when it gets to diagonal `k` in round `d`. -/
structure DiagInv (G : Grid) (d : ℕ) (k : ℤ) (costs : List ℤ) : Prop where
  /-- The buffer keeps its size. -/
  length : costs.length = (width G).toNat
  /-- No path has overshot the grid by more than it fell short of it. -/
  fits : ∀ v ∈ costs, Fits G v
  /-- The previous round is still there, if there is anything left to do. -/
  old : k ≤ d → Row G d costs
  /-- This round is done up to `k`. -/
  new : ∀ j, OnDiag d j → j < k → costs[slot (width G) j]? = some (G.furthest d j : ℤ)

variable {G : Grid} {d : ℕ} {k : ℤ} {costs : List ℤ}

theorem width_pos (G : Grid) : 0 < width G := by rw [width]; omega

theorem Row.diagInv (h : Row G d costs) : DiagInv G d (-d) costs :=
  ⟨h.length, h.fits, fun _ ↦ h, fun j hj hlt ↦ absurd hj.1 (by omega)⟩

theorem fits_furthest (hk : OnDiag d k) (hd : d ≤ G.dist) : Fits G (G.furthest d k) := by
  have := G.furthest_add_le hk hd
  exact ⟨by omega, by omega⟩

theorem fits_set {i : ℕ} {v : ℤ} (h : ∀ v ∈ costs, Fits G v) (hv : Fits G v) :
    ∀ u ∈ costs.set i v, Fits G u := by
  intro u hu
  rcases List.mem_or_eq_of_mem_set hu with hu | rfl
  · exact h u hu
  · exact hv

/-- Writing a cost outside the diagonals of the previous round leaves that round alone. -/
theorem Row.set (h : Row G (d + 1) costs) {i : ℕ} {v : ℤ} (hv : Fits G v)
    (hi : ∀ j, OnDiag d j → i ≠ slot (width G) j) : Row G (d + 1) (costs.set i v) := by
  refine ⟨by simpa using h.1, fits_set h.2.1 hv, fun j hj ↦ ?_⟩
  rw [List.getElem?_set_ne (hi j hj)]
  exact h.2.2 j hj

/-- Two diagonals of at most `n + m` have different slots. -/
theorem slot_ne {j : ℤ} (hj : -(G.n + G.m : ℤ) ≤ j ∧ j ≤ G.n + G.m)
    (hk : -(G.n + G.m : ℤ) ≤ k ∧ k ≤ G.n + G.m) (hne : k ≠ j) :
    slot (width G) k ≠ slot (width G) j := by
  have hw : width G = 2 * (G.n + G.m) + 1 := rfl
  exact fun hc ↦ hne (slot_inj (by omega) (by omega) (by omega) (by omega) hc)

/-- **One step of a round.** -/
theorem DiagInv.next (h : DiagInv G d k costs) (hk : OnDiag d k) (hd : d ≤ G.dist) :
    DiagInv G d (k + 2) (costs.set (slot (width G) k) (G.furthest d k)) := by
  have hdist := G.dist_le_add
  have hfit := fits_furthest hk hd
  obtain ⟨h1, h2, h3⟩ := id hk
  refine ⟨by simpa using h.length, fits_set h.fits hfit, fun hle ↦ ?_, fun j hj hlt ↦ ?_⟩
  · cases d with
    | zero => omega
    | succ d =>
      refine (h.old h2).set hfit fun j hj ↦ ?_
      -- the diagonals of the previous round have the other parity
      obtain ⟨h4, h5, h6⟩ := hj
      exact slot_ne (by omega) (by omega) (by omega)
  · by_cases hjk : j = k
    · subst hjk
      have := slot_lt (width_pos G) j
      simp [h.length, this]
    · obtain ⟨h4, h5, h6⟩ := id hj
      rw [List.getElem?_set_ne (slot_ne (by omega) (by omega) (Ne.symm hjk))]
      exact h.new j hj (by omega)

theorem DiagInv.row (h : DiagInv G d k costs) (hk : d < k) : Row G (d + 1) costs :=
  ⟨h.length, h.fits, fun j hj ↦ h.new j hj (by have := hj.2.1; omega)⟩

/-! ## One diagonal -/

/-- What the two neighbouring slots say about where diagonal `k` is entered. -/
theorem Row.entry (h : Row G d costs) (hk : OnDiag d k) (hd : d ≤ G.n + G.m) {prevk nextk : ℤ}
    (hprev : costs[slot (width G) (k - 1)]? = some prevk)
    (hnext : costs[slot (width G) (k + 1)]? = some nextk) :
    (if k = -d ∨ (k ≠ d ∧ prevk < nextk) then nextk else prevk + 1) = G.entry d k := by
  cases d with
  | zero =>
    rw [Row] at h
    obtain ⟨h1, h2, -⟩ := hk
    have hk0 : k = 0 := by omega
    subst hk0
    rw [h, List.getElem?_replicate] at hnext
    split at hnext
    · simp at hnext
      simp [Grid.entry, ← hnext]
    · simp at hnext
  | succ d =>
    by_cases hdown : G.GoesDown d k
    · have hn := h.2.2 (k + 1) (hdown.onDiag hk)
      rw [hn] at hnext
      simp only [Option.some.injEq] at hnext
      have hcond : k = -(d + 1 : ℕ) ∨ (k ≠ (d + 1 : ℕ) ∧ prevk < nextk) := by
        by_cases hk' : k = -(d + 1 : ℕ)
        · exact .inl hk'
        · have hlt := hdown.resolve_left hk'
          refine .inr ⟨hlt.1, ?_⟩
          obtain ⟨h1, h2, h3⟩ := hk
          have hp := h.2.2 (k - 1) ⟨by omega, by omega, by omega⟩
          rw [hp] at hprev
          simp only [Option.some.injEq] at hprev
          omega
      rw [if_pos hcond, Grid.entry, if_pos hdown, hnext]
    · have hp := h.2.2 (k - 1) (onDiag_of_not_goesDown hk hdown)
      rw [hp] at hprev
      simp only [Option.some.injEq] at hprev
      have hcond : ¬ (k = -(d + 1 : ℕ) ∨ (k ≠ (d + 1 : ℕ) ∧ prevk < nextk)) := by
        rintro (hc | ⟨hc, hlt⟩)
        · exact hdown (.inl hc)
        · obtain ⟨h1, h2, h3⟩ := hk
          have hn := h.2.2 (k + 1) ⟨by omega, by omega, by omega⟩
          rw [hn] at hnext
          simp only [Option.some.injEq] at hnext
          exact hdown (.inr ⟨hc, by omega⟩)
      rw [if_neg hcond, Grid.entry, if_neg hdown, ← hprev]
      simp

/-- Reading the cost of diagonal `k`. -/
theorem deref_slot {w : ℤ} (hw : 0 < w) (h₁ : 0 ≤ w + k) (h₂ : w + k < 2 ^ 64)
    (hlen : costs.length = w.toNat) :
    ∃ v, costs[slot w k]? = some v ∧ deref costs (sizeT (w + k) % w) = pure v := by
  have hlt : slot w k < costs.length := hlen ▸ slot_lt hw k
  refine ⟨costs[slot w k], List.getElem?_eq_getElem hlt, ?_⟩
  rw [sizeT_of_fits h₁ h₂]
  exact deref_eq (Int.emod_nonneg _ (Int.ne_of_gt hw)) (List.getElem?_eq_getElem hlt)

/-- **One diagonal of a round.**  `extend` moves the cost of diagonal `k` on to its
furthest-reaching point. -/
theorem extend_wp {Q : List ℤ × PointT → Prop}
    (hsize : orig.length + updated.length ≤ 32767) (hk : OnDiag d k)
    (hd : d ≤ (ofLists cmp orig updated).dist) (hrow : Row (ofLists cmp orig updated) d costs)
    (hQ : Q (costs.set (slot (width (ofLists cmp orig updated)) k)
        ((ofLists cmp orig updated).furthest d k),
      ((ofLists cmp orig updated).furthest d k, (ofLists cmp orig updated).furthest d k - k))) :
    (extend ix cmp orig updated orig.length updated.length (width (ofLists cmp orig updated))
      d k costs).wp Q := by
  generalize hG : ofLists cmp orig updated = G at *
  have hn : G.n = orig.length := by rw [← hG]; rfl
  have hm : G.m = updated.length := by rw [← hG]; rfl
  have hw : width G = 2 * (G.n + G.m) + 1 := rfl
  have hle := G.le_entry hk
  have hef := G.entry_le_furthest hk
  have hadd := G.furthest_add_le hk hd
  have hdist := G.dist_le_add
  obtain ⟨hk1, hk2, -⟩ := id hk
  obtain ⟨prevk, hprev, hprev'⟩ := deref_slot (k := k - 1) (width_pos G) (by omega) (by omega)
    hrow.length
  obtain ⟨nextk, hnext, hnext'⟩ := deref_slot (k := k + 1) (width_pos G) (by omega) (by omega)
    hrow.length
  have hentry := hrow.entry hk (by omega) hprev hnext
  have hx : enter ix d k prevk nextk = pure (G.entry d k : ℤ) := by
    rw [enter, ← hentry]
    split
    · rfl
    · rename_i hc
      rw [if_neg hc] at hentry
      exact ix.put_of_fits (by omega) (by omega)
  have hy : ix.put ((G.entry d k : ℤ) - k) = pure (((G.entry d k : ℤ) - k).toNat : ℤ) := by
    rw [ix.put_of_fits (by omega) (by omega), Int.toNat_of_nonneg (by omega)]
  rw [extend, show width G + k - 1 = width G + (k - 1) by omega,
    show width G + k + 1 = width G + (k + 1) by omega, hprev', hnext']
  simp only [Run.wp_bind, Run.wp_pure, hx, hy]
  refine slide_wp (by omega) (by omega) ?_
  have hmod := Int.emod_nonneg (width G + k) (Int.ne_of_gt (width_pos G))
  have hlt := Int.emod_lt_of_pos (width G + k) (width_pos G)
  have hsum : ((((G.entry d k : ℤ) - k).toNat +
      G.snake (G.entry d k) ((G.entry d k : ℤ) - k).toNat : ℕ) : ℤ) = (G.furthest d k : ℤ) - k := by
    rw [furthest_eq hk]
    omega
  rw [hG, hsum, ← furthest_eq hk, sizeT_of_fits (by omega) (by omega),
    assign_eq hmod (by have := hrow.length; omega)]
  simp only [Run.wp_pure]
  exact hQ

/-! ## One round -/

/-- The state of a round: diagonal `k` is next, and the search goes on until the corner is reached,
which can happen in round `G.dist` only. -/
def RoundInv (G : Grid) (d : ℕ) : ℤ × List ℤ × Bool → Prop
  | (k, costs, cont) => -d ≤ k ∧ k ≤ d + 2 ∧ (d + k) % 2 = 0 ∧ DiagInv G d k costs ∧
    (cont = true ↔ (d < G.dist ∨ k ≤ (G.n : ℤ) - G.m))

/-- What round `d` leaves behind. -/
def RoundEnd (G : Grid) (d : ℕ) : List ℤ × Bool → Prop
  | (costs, cont) =>
    (d < G.dist → cont = true ∧ Row G (d + 1) costs) ∧ (d = G.dist → cont = false)

/-- **One round of `myersDiffTrace`.**  Before the edit distance a round runs to its end and leaves
the next row behind; at the edit distance it stops. -/
theorem traceDiags_wp (hsize : orig.length + updated.length ≤ 32767)
    (hd : d ≤ (ofLists cmp orig updated).dist) (hd' : d ≤ 32765)
    (hrow : Row (ofLists cmp orig updated) d costs) :
    (traceDiags ix cmp orig updated orig.length updated.length (width (ofLists cmp orig updated))
      d costs).wp (RoundEnd (ofLists cmp orig updated) d) := by
  generalize hG : ofLists cmp orig updated = G at *
  have hn : G.n = orig.length := by rw [← hG]; rfl
  have hm : G.m = updated.length := by rw [← hG]; rfl
  have hdist := G.dist_le_add
  have hcorner := G.onDiag_corner
  rw [traceDiags, ix.put_of_fits (by omega) (by omega)]
  simp only [Run.wp_bind, Run.wp_pure]
  refine Run.wp_loop (RoundInv G d) (fun s ↦ (d + 2 - s.1).toNat) ?_ ?_
  · rintro ⟨k, costs, cont⟩ ⟨h1, h2, h3, hinv, hcont⟩
    simp only
    by_cases hgo : k ≤ d ∧ cont = true
    · have hk : OnDiag d k := ⟨h1, hgo.1, h3⟩
      have hdone := furthest_done_iff hk hd
      have hcont' := hcont.mp hgo.2
      obtain ⟨-, -, hc3⟩ := hcorner
      have hnext := hinv.next hk hd
      simp only [if_pos hgo, Run.wp_bind]
      subst hG
      refine extend_wp hsize hk hd (hinv.old hgo.1) ?_
      rw [ix.put_of_fits (by omega) (by omega)]
      simp only [Run.wp_pure, Run.round_inl]
      refine ⟨⟨by omega, by omega, by omega, hnext, ?_⟩, by omega⟩
      rw [decide_eq_true_eq]
      rw [hn, hm] at hdone
      constructor
      · intro hlt
        have : ¬ (d = (ofLists cmp orig updated).dist ∧ k = (orig.length : ℤ) - updated.length) :=
          fun hc ↦ by have := hdone.mpr hc; omega
        omega
      · intro hlt
        by_contra hc
        have := hdone.mp (by omega)
        omega
    · simp only [if_neg hgo, Run.wp_pure, Run.round_inr]
      refine ⟨fun hlt ↦ ?_, fun heq ↦ ?_⟩
      · have hct : cont = true := hcont.mpr (.inl hlt)
        exact ⟨hct, hinv.row (by by_contra hc; exact hgo ⟨by omega, hct⟩)⟩
      · by_contra hc
        have hct : cont = true := by simpa using hc
        have := hcont.mp hct
        obtain ⟨-, hc2, -⟩ := hcorner
        exact hgo ⟨by omega, hct⟩
  · obtain ⟨hc1, -, -⟩ := hcorner
    refine ⟨by omega, by omega, by omega, hrow.diagInv, ?_⟩
    simp only [true_iff]
    omega

/-! ## The trace -/

/-- A trace that holds the rows of the first `d` rounds. -/
structure Trace (G : Grid) (d : ℕ) (rows : List (List ℤ)) : Prop where
  /-- One row a round. -/
  length : rows.length = d
  /-- Each row is what the search knew when its round began. -/
  row : ∀ r row, rows[r]? = some row → Row G r row

theorem Trace.nil (G : Grid) : Trace G 0 [] := ⟨rfl, fun _ _ h ↦ by simp at h⟩

theorem Trace.append {rows : List (List ℤ)} (h : Trace G d rows) (hrow : Row G d costs) :
    Trace G (d + 1) (rows ++ [costs]) := by
  refine ⟨by simp [h.length], fun r row hr ↦ ?_⟩
  rcases Nat.lt_or_ge r rows.length with hlt | hge
  · rw [List.getElem?_append_left hlt] at hr
    exact h.row r row hr
  · rw [List.getElem?_append_right hge] at hr
    have hr0 : r = d := by
      have := (List.getElem?_eq_some_iff.mp hr).1
      have := h.length
      simp at *
      omega
    subst hr0
    simp [h.length] at hr
    exact hr ▸ hrow

/-- One round of the search, when the sizes fit. -/
def traceRound (ix : IndexStore) (cmp : α → α → Bool) (orig updated : List α) :
    ℤ × List ℤ × List ℤ × Bool → Run Fault ((ℤ × List ℤ × List ℤ × Bool) ⊕ List ℤ)
  | (iedit, costs, trace, cont) =>
    if iedit ≤ (orig.length : ℤ) + updated.length ∧ cont = true then do
      let (costs', cont) ← traceDiags ix cmp orig updated orig.length updated.length
        (width (ofLists cmp orig updated)) iedit costs
      let iedit ← ix.put (iedit + 1)
      pure (.inl (iedit, costs', trace ++ costs, cont))
    else pure (.inr trace)

/-- The search is its rounds, beginning with a row of zeros. -/
theorem myersDiffTrace_eq (hsize : orig.length + updated.length ≤ 32767) :
    myersDiffTrace ix cmp orig updated = Run.loop (traceRound ix cmp orig updated)
      (0, List.replicate (width (ofLists cmp orig updated)).toNat 0, [], true) := by
  have hw : 2 * ((orig.length : ℤ) + updated.length) + 1 = width (ofLists cmp orig updated) := rfl
  have hw' : width (ofLists cmp orig updated) ≤ 65535 := by omega
  have hpos := width_pos (ofLists cmp orig updated)
  rw [myersDiffTrace, ix.put_of_fits (by omega) (by omega), ix.put_of_fits (by omega) (by omega)]
  simp only [Run.pure_bind]
  rw [ix.put_of_fits (by omega) (by omega), Run.pure_bind, hw,
    sizeT_of_fits (by omega) (by omega), zeros, if_pos (by rw [vectorMax]; omega), Run.pure_bind]
  rfl

/-- The state of the search before round `iedit`: the trace holds the rows so far. -/
def SearchInv (G : Grid) : ℤ × List ℤ × List ℤ × Bool → Prop
  | (iedit, costs, trace, cont) => ∃ d : ℕ, iedit = d ∧ d ≤ G.dist + 1 ∧
    (cont = true ↔ d ≤ G.dist) ∧ (d ≤ G.dist → Row G d costs) ∧
    ∃ rows, trace = rows.flatten ∧ Trace G d rows

/-- **The forward search.**  As long as the sizes fit, `myersDiffTrace` returns one row for each
cost up to the edit distance. -/
theorem myersDiffTrace_wp (hsize : orig.length + updated.length ≤ 32767)
    (hdist : (ofLists cmp orig updated).dist ≤ 32765) :
    (myersDiffTrace ix cmp orig updated).wp fun trace ↦
      ∃ rows, trace = rows.flatten ∧
        Trace (ofLists cmp orig updated) ((ofLists cmp orig updated).dist + 1) rows := by
  rw [myersDiffTrace_eq hsize]
  generalize hG : ofLists cmp orig updated = G at *
  have hn : G.n = orig.length := by rw [← hG]; rfl
  have hm : G.m = updated.length := by rw [← hG]; rfl
  have hle := G.dist_le_add
  refine Run.wp_loop (SearchInv G) (fun s ↦ (G.dist + 1 - s.1).toNat) ?_ ?_
  · rintro ⟨iedit, costs, trace, cont⟩ ⟨d, rfl, hd, hcont, hrow, rows, rfl, htrace⟩
    simp only [traceRound]
    by_cases hgo : (d : ℤ) ≤ orig.length + updated.length ∧ cont = true
    · have hd' := hcont.mp hgo.2
      simp only [if_pos hgo, Run.wp_bind]
      subst hG
      refine Run.wp_mono (traceDiags_wp hsize hd' (by omega) (hrow hd')) ?_
      rintro ⟨costs', cont'⟩ ⟨hlt, heq⟩
      rw [ix.put_of_fits (by omega) (by omega)]
      simp only [Run.wp_pure, Run.round_inl]
      refine ⟨⟨d + 1, by omega, by omega, ?_, fun h ↦ (hlt (by omega)).2, rows ++ [costs], by simp,
        htrace.append (hrow hd')⟩, by omega⟩
      rcases Nat.lt_or_eq_of_le hd' with h | h
      · simp only [(hlt h).1, true_iff]
        omega
      · simp only [heq h, false_iff, Bool.false_eq_true]
        omega
    · simp only [if_neg hgo, Run.wp_pure, Run.round_inr]
      have hd' : ¬ d ≤ G.dist := fun hc ↦ hgo ⟨by omega, hcont.mpr hc⟩
      obtain rfl : d = G.dist + 1 := by omega
      exact ⟨rows, rfl, htrace⟩
  · exact ⟨0, rfl, by omega, by simp, fun _ ↦ rfl, [], rfl, .nil G⟩

end Diff
end Cppkg
