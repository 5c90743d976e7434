import Cppkg.Diff.Search

/-!
# The way back

`myersDiffBacktrace` reads the trace backwards: in every row it repeats the choice the forward
search made on the way in, so it retraces the path `Grid.best` behind the furthest-reaching point in
the corner.  What it returns are the points that path leaves, last one first.
-/

set_option autoImplicit false

namespace Cppkg
namespace Diff

open Grid

variable {α : Type} {ix : IndexStore} {cmp : α → α → Bool} {orig updated : List α}
variable {G : Grid}

/-! ## The points of a walk -/

/-- The points a list of moves leaves, starting in `(x, y)`. -/
def starts : ℕ → ℕ → List Move → List PointT
  | _, _, [] => []
  | x, y, .diag :: ms => (x, y) :: starts (x + 1) (y + 1) ms
  | x, y, .right :: ms => (x, y) :: starts (x + 1) y ms
  | x, y, .down :: ms => (x, y) :: starts x (y + 1) ms

theorem starts_append {x y x' y' : ℕ} {ms : List Move} (h : G.Walk x y ms x' y')
    (ns : List Move) : starts x y (ms ++ ns) = starts x y ms ++ starts x' y' ns := by
  induction h with
  | nil => rfl
  | diag _ _ ih => simp [starts, ih]
  | right _ ih => simp [starts, ih]
  | down _ ih => simp [starts, ih]

theorem starts_snake (x y s : ℕ) (ns : List Move) :
    starts x y (List.replicate s .diag ++ ns)
      = starts x y (List.replicate s .diag) ++ starts (x + s) (y + s) ns := by
  induction s generalizing x y with
  | zero => rfl
  | succ s ih =>
    simp only [List.replicate_succ, List.cons_append, starts, ih]
    rw [show x + 1 + s = x + (s + 1) by omega, show y + 1 + s = y + (s + 1) by omega]

theorem starts_snake_succ (x y s : ℕ) :
    starts x y (List.replicate (s + 1) .diag)
      = starts x y (List.replicate s .diag) ++ [(((x + s : ℕ) : ℤ), ((y + s : ℕ) : ℤ))] := by
  rw [List.replicate_succ', starts_snake]
  rfl

/-! ## Popping a diagonal -/

/-- `popDiag` pushes the points of the snake it runs back along. -/
theorem popDiag_wp {Q : List PointT → Prop} {prev : PointT} {x y s : ℕ} {points : List PointT}
    (hx : prev.1 ≤ x) (hy : prev.2 ≤ y) (hstop : (x : ℤ) = prev.1 ∨ (y : ℤ) = prev.2)
    (hxs : x + s ≤ 32767) (hys : y + s ≤ 32767)
    (hQ : Q (points ++ (starts x y (List.replicate s .diag)).reverse)) :
    (popDiag ix prev (((x + s : ℕ) : ℤ), ((y + s : ℕ) : ℤ)) points).wp Q := by
  induction s generalizing points with
  | zero =>
    rw [popDiag, Run.wp_loop_iff]
    have hno : ¬ (((x + 0 : ℕ) : ℤ) > prev.1 ∧ ((y + 0 : ℕ) : ℤ) > prev.2) := by omega
    simp only [if_neg hno, Run.wp_pure, Run.round_inr]
    simpa [starts] using hQ
  | succ s ih =>
    rw [popDiag, Run.wp_loop_iff]
    have hgo : ((x + (s + 1) : ℕ) : ℤ) > prev.1 ∧ ((y + (s + 1) : ℕ) : ℤ) > prev.2 := by omega
    simp only [if_pos hgo, Run.wp_bind]
    rw [ix.put_of_fits (by omega) (by omega)]
    simp only [Run.wp_pure]
    rw [ix.put_of_fits (by omega) (by omega)]
    simp only [Run.wp_pure, Run.round_inl]
    rw [show ((x + (s + 1) : ℕ) : ℤ) - 1 = (x + s : ℕ) by omega,
      show ((y + (s + 1) : ℕ) : ℤ) - 1 = (y + s : ℕ) by omega]
    refine ih (by omega) (by omega) ?_
    rwa [starts_snake_succ, List.reverse_append, ← List.append_assoc] at hQ

/-! ## Reading the trace -/

theorem getElem?_flatten {β : Type} {rows : List (List β)} {w : ℕ}
    (hw : ∀ row ∈ rows, row.length = w) {r i : ℕ} {row : List β} (hr : rows[r]? = some row)
    (hi : i < w) : rows.flatten[r * w + i]? = row[i]? := by
  induction rows generalizing r with
  | nil => simp at hr
  | cons row₀ rows ih =>
    have hlen : row₀.length = w := hw row₀ (by simp)
    cases r with
    | zero =>
      simp only [List.getElem?_cons_zero, Option.some.injEq] at hr
      subst hr
      rw [List.flatten_cons, List.getElem?_append_left (by omega)]
      simp
    | succ r =>
      simp only [List.getElem?_cons_succ] at hr
      have hge : row₀.length ≤ (r + 1) * w + i := by rw [Nat.add_mul]; omega
      rw [List.flatten_cons, List.getElem?_append_right hge,
        show (r + 1) * w + i - row₀.length = r * w + i by rw [Nat.add_mul]; omega]
      exact ih (fun row h ↦ hw row (by simp [h])) hr

theorem length_flatten {β : Type} {rows : List (List β)} {w : ℕ}
    (hw : ∀ row ∈ rows, row.length = w) : rows.flatten.length = rows.length * w := by
  induction rows with
  | nil => simp
  | cons row₀ rows ih =>
    rw [List.flatten_cons, List.length_append, hw row₀ (by simp),
      ih fun row h ↦ hw row (by simp [h]),
      List.length_cons, Nat.add_mul]
    omega

variable {d : ℕ} {k : ℤ} {rows : List (List ℤ)} {D : ℕ}

theorem Trace.length_row (h : Trace G D rows) : ∀ row ∈ rows, row.length = (width G).toNat := by
  intro row hrow
  obtain ⟨r, hr⟩ := List.mem_iff_getElem?.mp hrow
  exact (h.row r row hr).length

/-- A subscript of the backtracking loop reads the slot of its diagonal in the row of its cost. -/
theorem Trace.deref (h : Trace G D rows) {row : List ℤ} (hr : rows[d]? = some row)
    (hk : 0 ≤ width G + k) {v : ℤ} (hv : row[slot (width G) k]? = some v) :
    deref rows.flatten (d * width G + Int.tmod (width G + k) (width G)) = pure v := by
  have hw := width_pos G
  have hmod := Int.emod_nonneg (width G + k) (Int.ne_of_gt hw)
  have hslot : (width G + k) % width G = (slot (width G) k : ℤ) := by
    rw [slot, Int.toNat_of_nonneg hmod]
  have hcast : (width G) = ((width G).toNat : ℤ) := by omega
  rw [Int.tmod_eq_emod_of_nonneg hk, hslot]
  have hidx : (d : ℤ) * width G + (slot (width G) k : ℤ)
      = ((d * (width G).toNat + slot (width G) k : ℕ) : ℤ) := by
    rw [Int.natCast_add, Int.natCast_mul, ← hcast]
  rw [hidx]
  exact deref_natCast (by rw [getElem?_flatten h.length_row hr (slot_lt hw k), hv])

/-! ## One step back -/

/-- At cost `0` the origin's diagonal counts as entered from above. -/
theorem enteredDown_zero (w : ℤ) (traces : List ℤ) :
    enteredDown traces w (0 : ℕ) 0 = pure true := by
  rw [enteredDown, if_pos (by simp)]

/-- The backtracking loop makes the choice the forward search made. -/
theorem Trace.enteredDown_eq (h : Trace G D rows) {row : List ℤ} (hr : rows[d + 1]? = some row)
    (hd : d + 1 ≤ G.n + G.m) (hk : OnDiag (d + 1) k) :
    enteredDown rows.flatten (width G) (d + 1 : ℕ) k = pure (decide (G.GoesDown d k)) := by
  have hw : width G = 2 * (G.n + G.m) + 1 := rfl
  have hrow : Row G (d + 1) row := h.row _ _ hr
  obtain ⟨h1, h2, h3⟩ := id hk
  rw [enteredDown]
  by_cases hk1 : k = -((d + 1 : ℕ) : ℤ)
  · rw [if_pos hk1, decide_eq_true (p := G.GoesDown d k) (.inl hk1)]
  by_cases hk2 : k = ((d + 1 : ℕ) : ℤ)
  · rw [if_neg hk1, if_pos hk2, decide_eq_false (p := G.GoesDown d k)]
    rintro (hc | ⟨hc, -⟩)
    · exact hk1 hc
    · exact hc hk2
  have hp := hrow.2.2 (k - 1) ⟨by omega, by omega, by omega⟩
  have hn := hrow.2.2 (k + 1) ⟨by omega, by omega, by omega⟩
  rw [if_neg hk1, if_neg hk2, show width G + k - 1 = width G + (k - 1) by omega,
    show width G + k + 1 = width G + (k + 1) by omega, h.deref hr (by omega) hp,
    h.deref hr (by omega) hn]
  show (pure (decide _) : Run Fault Bool) = _
  congr 1
  rw [decide_eq_decide, GoesDown]
  constructor
  · exact fun hlt ↦ .inr ⟨hk2, by omega⟩
  · rintro (hc | ⟨-, hlt⟩)
    · exact absurd hc hk1
    · omega

/-- The furthest-reaching point of cost `d` on diagonal `k`. -/
def reached (G : Grid) (d : ℕ) (k : ℤ) : PointT := (G.furthest d k, G.furthest d k - k)

theorem reached_fits (hk : OnDiag d k) (hd : d ≤ G.dist) :
    0 ≤ (reached G d k).1 ∧ 0 ≤ (reached G d k).2 ∧
      (reached G d k).1 + (reached G d k).2 ≤ G.n + G.m := by
  have h1 := G.furthest_add_le hk hd
  have h2 := (G.reach_furthest hk).1
  rw [reached]
  omega

/-- **The first step of the path**, which is the last one back: it starts at the origin. -/
theorem stepBack_zero_wp {Q : PointT × List PointT → Prop} (h : Trace G D rows)
    (hD : 0 < D) (hsize : G.n + G.m ≤ 16383) {points : List PointT}
    (hQ : Q ((0, -1), points ++ (starts 0 0 (G.moves 0 0)).reverse)) :
    (stepBack ix rows.flatten (width G) (0 : ℕ) (reached G 0 0) points).wp Q := by
  have hfit := reached_fits (G := G) (d := 0) (k := 0) ⟨by omega, by omega, by omega⟩
    (Nat.zero_le _)
  obtain ⟨row, hr⟩ : ∃ row, rows[0]? = some row :=
    ⟨_, List.getElem?_eq_getElem (by rw [h.length]; exact hD)⟩
  have hrow : Row G 0 row := h.row _ _ hr
  have hv : row[slot (width G) 1]? = some 0 := by
    rw [Row] at hrow
    rw [hrow, List.getElem?_replicate, if_pos (slot_lt (width_pos G) 1)]
  have hw : width G = 2 * (G.n + G.m) + 1 := rfl
  have hread := h.deref hr (by omega) hv
  have hp : reached G 0 0 = (((0 + G.snake 0 0 : ℕ) : ℤ), ((0 + G.snake 0 0 : ℕ) : ℤ)) := by
    simp [reached, furthest]
  rw [hp] at hfit ⊢
  rw [stepBack, Int.sub_self, ix.put_of_fits (by omega) (by omega)]
  simp only [Run.wp_bind, Run.wp_pure, enteredDown_zero, if_true]
  rw [Int.zero_add, ix.put_of_fits (by omega) (by omega)]
  simp only [Run.wp_pure, hread]
  rw [ix.put_of_fits (by omega) (by omega)]
  simp only [Run.wp_pure]
  exact popDiag_wp (by simp) (by simp) (.inl (by simp)) (by omega) (by omega) hQ

/-- **One step back** from cost `d + 1`: onto the neighbouring diagonal the path came from. -/
theorem stepBack_succ_wp {Q : PointT × List PointT → Prop} (h : Trace G D rows)
    (hD : d + 1 < D) (hd : d + 1 ≤ G.dist) (hk : OnDiag (d + 1) k) (hsize : G.n + G.m ≤ 16383)
    {points : List PointT} {k' : ℤ} (hk' : k' = if G.GoesDown d k then k + 1 else k - 1)
    (hQ : Q (reached G d k', points ++ (starts (G.entry (d + 1) k)
        ((G.entry (d + 1) k : ℤ) - k).toNat (List.replicate (G.snake (G.entry (d + 1) k)
          ((G.entry (d + 1) k : ℤ) - k).toNat) .diag)).reverse ++ [reached G d k'])) :
    (stepBack ix rows.flatten (width G) (d + 1 : ℕ) (reached G (d + 1) k) points).wp Q := by
  have hw : width G = 2 * (G.n + G.m) + 1 := rfl
  have hdist := G.dist_le_add
  have hk'd : OnDiag d k' := by
    rw [hk']
    split
    · rename_i hdown; exact hdown.onDiag hk
    · rename_i hright; exact onDiag_of_not_goesDown hk hright
  have hfit := reached_fits (G := G) hk hd
  have hfit' := reached_fits (G := G) hk'd (by omega)
  obtain ⟨row, hr⟩ : ∃ row, rows[d + 1]? = some row :=
    ⟨_, List.getElem?_eq_getElem (by rw [h.length]; exact hD)⟩
  have hrow : Row G (d + 1) row := h.row _ _ hr
  obtain ⟨h1, h2, -⟩ := id hk
  obtain ⟨h1', h2', -⟩ := id hk'd
  have hread := h.deref hr (by omega) (hrow.2.2 k' hk'd)
  have hle := G.le_entry hk
  have hsum := furthest_eq (G := G) hk
  have hp : reached G (d + 1) k = (((G.entry (d + 1) k + G.snake (G.entry (d + 1) k)
      ((G.entry (d + 1) k : ℤ) - k).toNat : ℕ) : ℤ), ((((G.entry (d + 1) k : ℤ) - k).toNat +
      G.snake (G.entry (d + 1) k) ((G.entry (d + 1) k : ℤ) - k).toNat : ℕ) : ℤ)) := by
    rw [reached, ← furthest_eq hk, Prod.mk.injEq]
    omega
  have hdiff : (reached G (d + 1) k).1 - (reached G (d + 1) k).2 = k := by
    rw [reached]
    omega
  rw [stepBack, hdiff, ix.put_of_fits (by omega) (by omega)]
  simp only [Run.wp_bind, Run.wp_pure, h.enteredDown_eq hr (by omega) hk, decide_eq_true_eq]
  rw [← hk', ix.put_of_fits (by omega) (by omega)]
  simp only [Run.wp_pure, hread]
  rw [ix.put_of_fits (by rw [reached] at hfit'; omega) (by rw [reached] at hfit'; omega)]
  simp only [Run.wp_pure]
  rw [hp]
  have hentry : (G.entry (d + 1) k : ℤ) = G.furthest d k' ∧ k' = k + 1 ∨
      (G.entry (d + 1) k : ℤ) = G.furthest d k' + 1 ∧ k' = k - 1 := by
    rw [entry, hk']
    split
    · exact .inl ⟨rfl, rfl⟩
    · exact .inr ⟨by simp, rfl⟩
  rw [hp] at hfit
  simp only at hfit
  refine popDiag_wp (by simp only; omega) (by simp only; omega) (by simp only; omega) (by omega)
    (by omega) ?_
  rw [if_pos (by omega)]
  exact hQ

/-! ## The whole way back -/

/-- The last point of cost `d` and the snake after it, at the end of the points of cost `d + 1`. -/
theorem starts_moves_succ (hk : OnDiag (d + 1) k) {k' : ℤ}
    (hk' : k' = if G.GoesDown d k then k + 1 else k - 1) :
    starts 0 0 (G.moves (d + 1) k) = starts 0 0 (G.moves d k') ++ [reached G d k'] ++
      starts (G.entry (d + 1) k) ((G.entry (d + 1) k : ℤ) - k).toNat
        (List.replicate (G.snake (G.entry (d + 1) k) ((G.entry (d + 1) k : ℤ) - k).toNat)
          .diag) := by
  have hstep : ∀ {j : ℤ} (mv : Move), OnDiag d j → starts 0 0 (G.moves d j ++ [mv]) =
      starts 0 0 (G.moves d j) ++ [reached G d j] := by
    intro j mv hj
    have hle := (G.reach_furthest hj).1
    rw [starts_append (walk_moves hj), reached, show (G.furthest d j : ℤ) - j
      = ((G.furthest d j - j).toNat : ℤ) by omega]
    cases mv <;> rfl
  rw [moves_succ, starts_append (walk_approach hk), approach, hk']
  split
  · rename_i hdown; rw [hstep .down (hdown.onDiag hk)]
  · rename_i hright; rw [hstep .right (onDiag_of_not_goesDown hk hright)]

/-- Following the trace back from the furthest-reaching point of cost `d` on diagonal `k` pushes the
points of the path to it. -/
theorem followBack_wp {Q : List PointT → Prop} (h : Trace G D rows) (hD : d < D)
    (hd : d ≤ G.dist) (hk : OnDiag d k) (hsize : G.n + G.m ≤ 16383) {points : List PointT}
    (hQ : Q (points ++ (starts 0 0 (G.moves d k)).reverse)) :
    (followBack ix rows.flatten (width G) d (reached G d k) points).wp Q := by
  have hdist := G.dist_le_add
  induction d generalizing k points with
  | zero =>
    obtain ⟨h1, h2, -⟩ := hk
    obtain rfl : k = 0 := by omega
    rw [followBack, Run.wp_loop_iff]
    simp only [if_pos (show ((0 : ℕ) : ℤ) ≥ 0 by omega), Run.wp_bind]
    refine stepBack_zero_wp h hD hsize ?_
    rw [ix.put_of_fits (by omega) (by omega)]
    simp only [Run.wp_pure, Run.round_inl]
    rw [Run.wp_loop_iff]
    simp only [if_neg (show ¬ ((0 : ℕ) : ℤ) - 1 ≥ 0 by omega), Run.wp_pure, Run.round_inr]
    exact hQ
  | succ d ih =>
    rw [followBack, Run.wp_loop_iff]
    simp only [if_pos (show ((d + 1 : ℕ) : ℤ) ≥ 0 by omega), Run.wp_bind]
    refine stepBack_succ_wp h hD hd hk hsize rfl ?_
    rw [ix.put_of_fits (by omega) (by omega)]
    simp only [Run.wp_pure, Run.round_inl]
    rw [show ((d + 1 : ℕ) : ℤ) - 1 = d by omega]
    refine ih (by omega) (by omega) ?_ ?_
    · split
      · rename_i hdown; exact hdown.onDiag hk
      · rename_i hright; exact onDiag_of_not_goesDown hk hright
    · rw [starts_moves_succ hk rfl] at hQ
      simpa using hQ

/-- **The points of the cheapest path.**  `myersDiffBacktrace` returns the points the path of the
greedy search leaves, last one first. -/
theorem myersDiffBacktrace_wp {Q : List PointT → Prop}
    (hsize : orig.length + updated.length ≤ 16383)
    (hQ : Q (starts 0 0 (ofLists cmp orig updated).best).reverse) :
    (myersDiffBacktrace ix cmp orig updated).wp Q := by
  generalize hG : ofLists cmp orig updated = G at *
  have hn : G.n = orig.length := by rw [← hG]; rfl
  have hm : G.m = updated.length := by rw [← hG]; rfl
  have hw : width G = 2 * (G.n + G.m) + 1 := rfl
  have hle := G.dist_le_add
  rw [myersDiffBacktrace, ix.put_of_fits (by omega) (by omega),
    ix.put_of_fits (by omega) (by omega)]
  simp only [Run.wp_bind, Run.wp_pure]
  rw [show 2 * ((orig.length : ℤ) + updated.length) + 1 = width G by rw [hw, hn, hm],
    ix.put_of_fits (by omega) (by omega)]
  simp only [Run.wp_pure]
  refine Run.wp_mono (myersDiffTrace_wp (by omega) (by rw [hG]; omega)) ?_
  rintro trace ⟨rows, rfl, htrace⟩
  rw [hG] at htrace
  have hlen : (rows.flatten.length : ℤ) = (G.dist + 1 : ℕ) * width G := by
    rw [length_flatten htrace.length_row, htrace.length, Int.natCast_mul,
      Int.toNat_of_nonneg (by omega)]
  rw [hlen, sizeT_of_fits (by omega) (by omega), Int.mul_ediv_cancel _ (by omega),
    ix.put_of_fits (by omega) (by omega)]
  simp only [Run.wp_pure]
  rw [ix.put_of_fits (by omega) (by omega)]
  simp only [Run.wp_pure]
  have hcorner :
      reached G G.dist ((G.n : ℤ) - G.m) = ((orig.length : ℤ), (updated.length : ℤ)) := by
    rw [reached, furthest_corner, hn, hm, Prod.mk.injEq]
    omega
  rw [show ((G.dist + 1 : ℕ) : ℤ) - 1 = G.dist by omega, ← hcorner]
  exact followBack_wp htrace (by omega) (Nat.le_refl _) G.onDiag_corner (by omega) hQ

end Diff
end Cppkg
