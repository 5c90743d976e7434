import Cppkg.Diff.LongScript

/-!
# Where sixteen bits are not enough

The batch limit bounds the length of each list, but the algorithm stores their sum, and twice their
sum, in an `IndexT`.  As the lists grow, three things go wrong one after the other:

* from 16384 lines in total the width of a row no longer fits the `IndexT` that the way back divides
  by, so the number of rows comes out as zero and the script as empty;
* at 32767 lines in total a search that has to go all the way never leaves its last but one round,
  where the counter of the diagonals wraps around;
* from 32768 lines on the sum is negative, and the row of costs asks for too much memory.

`emptyIffEqual_default_iff` puts them together: with the default limit, `safeDiffMsg` does what it
says for up to 16383 lines, and for equal lists of up to 32767 lines.
-/

set_option autoImplicit false

namespace Cppkg
namespace Diff

open Grid

variable {α : Type} {cmp : α → α → Bool} {orig updated : List α}
variable {d : ℕ} {k : ℤ} {costs : List ℤ} {G : Grid}

/-! ## The round that never ends

The last but one round of a search for 32767 edits: after diagonal 32766 comes diagonal -32768. -/

/-- Beyond the end of the sequence there is nothing to follow. -/
theorem slide_wp_of_le {x y : ℤ} {Q : PointT → Prop} (hx : orig.length ≤ x) (hQ : Q (x, y)) :
    (slide wrapping cmp orig updated orig.length updated.length (x, y)).wp Q := by
  rw [slide, Run.wp_loop_iff]
  have hxy : ¬ (x < orig.length ∧ y < updated.length) := by omega
  simpa only [if_neg hxy, Run.wp_pure, Run.round_inr] using hQ

/-- What the endless round keeps up at diagonal `k`: the row of the round before, and the cost of
diagonal 32766. -/
structure Stuck (G : Grid) (k : ℤ) (costs : List ℤ) : Prop where
  /-- The row of the round before is never overwritten. -/
  row : Row G 32766 costs
  /-- The diagonals have the parity of the round. -/
  even : k % 2 = 0
  /-- The counter stays in range, so it never gets past the last diagonal. -/
  range : -32768 ≤ k ∧ k ≤ 32766
  /-- Once the counter has wrapped around, the slot next to it is that of diagonal 32766. -/
  last : k = -32768 → costs[slot (width G) 32766]? = some 32766

/-- What diagonal `k` of the endless round leaves behind. -/
def StuckNext (G : Grid) (k : ℤ) : List ℤ × ℤ × ℤ → Prop
  | (costs, x, y) => ¬ (x ≥ G.n ∧ y ≥ G.m) ∧ Stuck G (toIndexT (k + 2)) costs

/-- The diagonal after the last one of the endless round, which is entered from diagonal 32766 at
the largest cost. -/
theorem Stuck.extend_wp_wrapped (h : Stuck (ofLists cmp orig updated) (-32768) costs)
    (hsize : orig.length + updated.length = 32767) :
    (extend wrapping cmp orig updated orig.length updated.length
      (width (ofLists cmp orig updated)) 32766 (-32768) costs).wp
        (StuckNext (ofLists cmp orig updated) (-32768)) := by
  obtain ⟨hrow, -, -, hlast⟩ := h
  have hw : width (ofLists cmp orig updated) = 65535 := by
    rw [width, ofLists_n, ofLists_m]
    omega
  have hn : (ofLists cmp orig updated).n = orig.length := rfl
  have hm : (ofLists cmp orig updated).m = updated.length := rfl
  generalize ofLists cmp orig updated = G at *
  have hlen := hrow.length
  have hlast := hlast rfl
  rw [hw] at hlen hlast
  obtain ⟨prevk, hprev, hprev'⟩ := deref_slot (w := 65535) (k := -32769) (by omega) (by omega)
    (by omega) hlen
  obtain ⟨nextk, hnext, hnext'⟩ := deref_slot (w := 65535) (k := -32767) (by omega) (by omega)
    (by omega) hlen
  obtain rfl : prevk = 32766 := by
    have hslot : slot 65535 (-32769) = slot 65535 32766 := by decide
    rw [hslot, hlast] at hprev
    simpa using hprev.symm
  have hx := hrow.fits nextk (List.mem_of_getElem? hnext)
  simp only [Fits] at hx
  have henter : enter wrapping 32766 (-32768) 32766 nextk = pure 32767 := by
    rw [enter]
    split
    · obtain rfl : nextk = 32767 := by omega
      rfl
    · rfl
  have hslot : sizeT (65535 + -32768) % 65535 = 32767 := by decide
  rw [extend, hw, show (65535 : ℤ) + -32768 - 1 = 65535 + -32769 by rfl,
    show (65535 : ℤ) + -32768 + 1 = 65535 + -32767 by rfl, hprev', hnext']
  simp only [Run.wp_bind, Run.wp_pure, henter, wrapping_put,
    show toIndexT (32767 - -32768) = -1 by decide]
  refine slide_wp_of_le (by omega) ?_
  rw [hslot, assign_eq (by omega) (by omega)]
  simp only [Run.wp_pure]
  refine ⟨by omega, hrow.set (d := 32765) ⟨by omega, by omega⟩ ?_, by decide, by decide,
    fun hwrap ↦ absurd hwrap (by decide)⟩
  rintro j ⟨hj1, hj2, -⟩
  rw [hw]
  rcases Int.lt_or_le j 0 with hj | hj
  · rw [slot_of_neg (by omega) hj]; omega
  · rw [slot_of_nonneg hj (by omega)]; omega

/-- One diagonal of the endless round: the far corner is not reached, and there is always a next
diagonal. -/
theorem Stuck.extend_wp (h : Stuck (ofLists cmp orig updated) k costs)
    (hsize : orig.length + updated.length = 32767)
    (hdist : (ofLists cmp orig updated).dist = 32767) :
    (extend wrapping cmp orig updated orig.length updated.length
      (width (ofLists cmp orig updated)) 32766 k costs).wp
        (StuckNext (ofLists cmp orig updated) k) := by
  rcases Int.lt_or_le k (-32766) with hneg | hpos
  · obtain rfl : k = -32768 := by
      obtain ⟨-, heven, hrange, -⟩ := h
      omega
    exact h.extend_wp_wrapped hsize
  obtain ⟨hrow, heven, hrange, -⟩ := h
  have hk : OnDiag 32766 k := ⟨hpos, by omega, by omega⟩
  have hn : (ofLists cmp orig updated).n = orig.length := rfl
  have hm : (ofLists cmp orig updated).m = updated.length := rfl
  have hd : 32766 ≤ (ofLists cmp orig updated).dist := by omega
  have hfit := fits_furthest hk hd
  have hdone := furthest_done_iff hk hd
  have hadd := (ofLists cmp orig updated).furthest_add_le hk hd
  have hge := ((ofLists cmp orig updated).le_entry hk).trans
    (Int.ofNat_le.mpr ((ofLists cmp orig updated).entry_le_furthest hk))
  refine Diff.extend_wp (d := 32766) (by omega) hk hd hrow ?_
  refine ⟨by rw [hn, hm] at hdone; omega, ?_, ?_, ?_, ?_⟩
  · refine hrow.set (d := 32765) hfit fun j hj ↦ ?_
    obtain ⟨hj1, hj2, hj3⟩ := hj
    exact slot_ne (by omega) (by omega) (by omega)
  · rw [toIndexT]; omega
  · rw [toIndexT]; omega
  · intro hwrap
    obtain rfl : k = 32766 := by rw [toIndexT] at hwrap; omega
    have hlt := slot_lt (width_pos (ofLists cmp orig updated)) 32766
    rw [List.getElem?_set_self (by rw [hrow.length]; exact hlt), Option.some.injEq]
    omega

/-- The state of the endless round. -/
def StuckInv (G : Grid) : ℤ × List ℤ × Bool → Prop
  | (k, costs, cont) => cont = true ∧ Stuck G k costs

/-- The round never ends. -/
theorem traceDiags_wlp_stuck (hsize : orig.length + updated.length = 32767)
    (hdist : (ofLists cmp orig updated).dist = 32767)
    (hrow : Row (ofLists cmp orig updated) 32766 costs) :
    (traceDiags wrapping cmp orig updated orig.length updated.length
      (width (ofLists cmp orig updated)) 32766 costs).wlp fun _ ↦ False := by
  rw [traceDiags, wrapping_put, show toIndexT (-32766) = -32766 by decide]
  simp only [Run.wlp_bind, Run.wlp_pure]
  refine Run.wlp_loop (StuckInv (ofLists cmp orig updated)) ?_
    ⟨rfl, hrow, by decide, by decide, fun h ↦ absurd h (by decide)⟩
  rintro ⟨k, costs, cont⟩ ⟨hcont, hstuck⟩
  have hgo : k ≤ 32766 ∧ cont = true := ⟨hstuck.range.2, hcont⟩
  simp only [if_pos hgo, Run.wlp_bind]
  refine Run.wlp_mono (Run.wlp_of_wp (hstuck.extend_wp hsize hdist)) ?_
  rintro ⟨costs', x, y⟩ ⟨hfar, hnext⟩
  rw [ofLists_n, ofLists_m] at hfar
  simp only [wrapping_put, Run.wlp_pure, Run.round_inl]
  exact ⟨by simp only [decide_eq_true_eq]; omega, hnext⟩

/-- The state of the search that gets to the endless round. -/
def StuckSearchInv (G : Grid) : ℤ × List ℤ × List ℤ × Bool → Prop
  | (iedit, costs, _, cont) => cont = true ∧ ∃ d : ℕ, iedit = d ∧ d ≤ 32766 ∧ Row G d costs

/-- **A search for 32767 edits does not return.** -/
theorem not_returns_myersDiffTrace_stuck (hsize : orig.length + updated.length = 32767)
    (hdist : (ofLists cmp orig updated).dist = 32767) (trace : List ℤ) :
    ¬ (myersDiffTrace wrapping cmp orig updated).Returns trace := by
  suffices h : (myersDiffTrace wrapping cmp orig updated).wlp fun _ ↦ False from h trace
  rw [myersDiffTrace_eq (by omega)]
  refine Run.wlp_loop (StuckSearchInv (ofLists cmp orig updated)) ?_ ⟨rfl, 0, rfl, by omega, rfl⟩
  rintro ⟨iedit, costs, trace, cont⟩ ⟨hcont, d, rfl, hd, hrow⟩
  have hgo : (d : ℤ) ≤ orig.length + updated.length ∧ cont = true := ⟨by omega, hcont⟩
  simp only [traceRound, if_pos hgo, Run.wlp_bind]
  rcases Nat.lt_or_eq_of_le hd with hlt | rfl
  · refine Run.wlp_mono (Run.wlp_of_wp (traceDiags_wp (by omega) (by omega) (by omega) hrow)) ?_
    rintro ⟨costs', cont'⟩ ⟨hnext, -⟩
    obtain ⟨hcont', hrow'⟩ := hnext (by omega)
    rw [wrapping_put, toIndexT_of_fits (by omega) (by omega)]
    simp only [Run.wlp_pure, Run.round_inl]
    exact ⟨hcont', d + 1, by omega, by omega, hrow'⟩
  · exact Run.wlp_mono (traceDiags_wlp_stuck hsize hdist hrow) fun _ h ↦ h.elim

/-! ## Too many lines for the sum -/

/-- **A sum that is negative asks for too many costs.** -/
theorem not_returns_myersDiffTrace_of_le (hn : orig.length ≤ 32767) (hm : updated.length ≤ 32767)
    (hsize : 32768 ≤ orig.length + updated.length) (trace : List ℤ) :
    ¬ (myersDiffTrace wrapping cmp orig updated).Returns trace := by
  have hsum : toIndexT ((orig.length : ℤ) + updated.length)
      = (orig.length : ℤ) + updated.length - 65536 := by rw [toIndexT]; omega
  have hcost : ¬ sizeT (2 * ((orig.length : ℤ) + updated.length - 65536) + 1) ≤ vectorMax := by
    rw [sizeT, vectorMax]
    omega
  suffices h : (myersDiffTrace wrapping cmp orig updated).wlp fun _ ↦ False from h trace
  rw [myersDiffTrace, wrapping_put, wrapping_put, toIndexT_of_fits (by omega) (by omega),
    toIndexT_of_fits (by omega) (by omega)]
  simp only [Run.wlp_bind, Run.wlp_pure, wrapping_put, hsum, zeros, if_neg hcost, Run.wlp_fail]

/-! ## Too many lines for the way back -/

theorem assign_wlp_length {l : List α} {i : ℤ} {a : α} :
    (assign l i a).wlp fun l' ↦ l'.length = l.length := by
  rw [assign]
  split <;> simp

/-- A row of costs keeps its size. -/
theorem traceDiags_wlp_length (n m ncost iedit : ℤ) (costs : List ℤ) :
    (traceDiags wrapping cmp orig updated n m ncost iedit costs).wlp fun r ↦
      r.1.length = costs.length := by
  rw [traceDiags, wrapping_put]
  simp only [Run.wlp_bind, Run.wlp_pure]
  refine Run.wlp_loop (fun s ↦ s.2.1.length = costs.length) ?_ rfl
  rintro ⟨k, costs', cont⟩ hlen
  simp only [Run.wlp_ite]
  split
  · simp only [extend, Run.wlp_bind]
    intro prevk _ nextk _ x _ y _ p _
    refine Run.wlp_mono assign_wlp_length fun costs'' hlen' ↦ ?_
    simpa using hlen'.trans hlen
  · simpa using hlen

/-- The state of a search, as far as sizes are concerned. -/
def SizeInv : ℤ × List ℤ × List ℤ × Bool → Prop
  | (iedit, costs, trace, _) => ∃ d : ℕ, iedit = d ∧ d ≤ 32767 ∧ costs.length ≤ 65533 ∧
    trace.length ≤ d * 65533

/-- A trace that is returned at all is not longer than the rounds allow. -/
theorem myersDiffTrace_wlp_length (hsize : orig.length + updated.length ≤ 32766) :
    (myersDiffTrace wrapping cmp orig updated).wlp fun trace ↦ (trace.length : ℤ) < 2 ^ 62 := by
  have hw : width (ofLists cmp orig updated) = 2 * ((orig.length : ℤ) + updated.length) + 1 := rfl
  rw [myersDiffTrace_eq (by omega)]
  refine Run.wlp_loop SizeInv ?_ ⟨0, rfl, by omega, ?_, by simp⟩
  · rintro ⟨iedit, costs, trace, cont⟩ ⟨d, rfl, hd, hcosts, htrace⟩
    simp only [traceRound, Run.wlp_ite]
    split
    · rename_i hgo
      simp only [Run.wlp_bind]
      refine Run.wlp_mono (traceDiags_wlp_length _ _ _ _ _) ?_
      rintro ⟨costs', cont'⟩ hlen
      simp only at hlen
      rw [wrapping_put, toIndexT_of_fits (by omega) (by omega)]
      simp only [Run.wlp_pure, Run.round_inl]
      refine ⟨d + 1, rfl, by omega, by omega, ?_⟩
      rw [List.length_append]
      omega
    · simp only [Run.wlp_pure, Run.round_inr]
      omega
  · rw [List.length_replicate]
    omega

theorem dist_parity (cmp : α → α → Bool) (orig updated : List α) :
    ((ofLists cmp orig updated).dist + orig.length + updated.length) % 2 = 0 := by
  have h := (ofLists cmp orig updated).walk_best.length_eq
  rw [cost_best, ofLists_n, ofLists_m] at h
  omega

/-- Whatever the search returns is short enough for what follows. -/
theorem myersDiffTrace_wlp (hsize : orig.length + updated.length ≤ 32767) :
    (myersDiffTrace wrapping cmp orig updated).wlp fun trace ↦ (trace.length : ℤ) < 2 ^ 62 := by
  rcases Nat.lt_or_eq_of_le hsize with hlt | heq
  · exact myersDiffTrace_wlp_length (by omega)
  have hpar := dist_parity cmp orig updated
  have hle := (ofLists cmp orig updated).dist_le_add
  rw [ofLists_n, ofLists_m] at hle
  by_cases hdist : (ofLists cmp orig updated).dist = 32767
  · exact fun trace h ↦ (not_returns_myersDiffTrace_stuck heq hdist trace h).elim
  refine Run.wlp_of_wp (Run.wp_mono (myersDiffTrace_wp hsize (by omega)) ?_)
  rintro trace ⟨rows, rfl, htrace⟩
  rw [length_flatten htrace.length_row, htrace.length]
  have hw : (width (ofLists cmp orig updated)).toNat = 65535 := by
    rw [width, ofLists_n, ofLists_m]
    omega
  rw [hw]
  omega

/-- With nothing to follow, the way back has no points. -/
theorem followBack_neg (traces : List ℤ) (ncost : ℤ) (p : PointT) :
    (followBack wrapping traces ncost (-1) p []).Returns [] := by
  rw [← Run.wp_eq_iff, followBack, Run.wp_loop_iff]
  simp

/-- **The way back is lost**: when the width of a row does not fit an `IndexT`, the number of rows
comes out as zero. -/
theorem returns_myersDiff_iff (hsize : orig.length + updated.length ≤ 32767)
    (hsize' : 16384 ≤ orig.length + updated.length) (diffs : List (Diff α)) :
    (myersDiff wrapping cmp orig updated).Returns diffs ↔
      diffs = [] ∧ ∃ trace, (myersDiffTrace wrapping cmp orig updated).Returns trace := by
  have hn : toIndexT orig.length = orig.length := toIndexT_of_fits (by omega) (by omega)
  have hm : toIndexT updated.length = updated.length := toIndexT_of_fits (by omega) (by omega)
  have hback : ∀ trace : List ℤ, (trace.length : ℤ) < 2 ^ 62 →
      toIndexT (toIndexT (trace.length /
        sizeT (toIndexT (2 * ((orig.length : ℤ) + updated.length) + 1))) - 1) = -1 := by
    intro trace hlen
    have hcost : sizeT (toIndexT (2 * ((orig.length : ℤ) + updated.length) + 1))
        = 2 ^ 64 + (2 * ((orig.length : ℤ) + updated.length) + 1 - 65536) := by
      rw [sizeT, toIndexT]
      omega
    rw [hcost, Int.ediv_eq_zero_of_lt (by omega) (by omega)]
    rfl
  simp only [myersDiff, myersDiffBacktrace, wrapping_put, Run.returns_bind, Run.returns_pure,
    exists_eq_left', hn, hm]
  constructor
  · rintro ⟨points, ⟨trace, htrace, hpoints⟩, diffs', hdiffs, rfl⟩
    rw [hback trace (myersDiffTrace_wlp hsize trace htrace)] at hpoints
    obtain rfl := hpoints.unique (followBack_neg _ _ _)
    obtain rfl := Run.returns_pure.mp hdiffs
    exact ⟨rfl, trace, htrace⟩
  · rintro ⟨rfl, trace, htrace⟩
    refine ⟨[], ⟨trace, htrace, ?_⟩, [], Run.returns_pure.mpr rfl, rfl⟩
    rw [hback trace (myersDiffTrace_wlp hsize trace htrace)]
    exact followBack_neg _ _ _

/-! ## The messages -/

variable {limit : ℕ} {expect got : StringsT}

theorem returns_trace_of_myersDiff {diffs : List (Diff α)}
    (h : (myersDiff wrapping cmp orig updated).Returns diffs) :
    ∃ trace, (myersDiffTrace wrapping cmp orig updated).Returns trace := by
  simp only [myersDiff, myersDiffBacktrace, wrapping_put, Run.returns_bind, Run.returns_pure,
    exists_eq_left'] at h
  obtain ⟨points, ⟨trace, htrace, -⟩, -⟩ := h
  exact ⟨trace, htrace⟩

/-- A call of the helper searches the first batch. -/
theorem returns_trace_of_safeDiffMsg {msg : Str} (h : (safeDiffMsg expect got limit).Returns msg) :
    ∃ trace, (myersDiffTrace wrapping equalTo (expect.take limit) (got.take limit)).Returns
      trace := by
  obtain ⟨diffs, hdiffs, -⟩ := Run.returns_bind.mp h
  have hcall : ∃ o, (helperCall limit ([], expect, got)).Returns o := by
    rcases Run.returns_loop.mp hdiffs with h | ⟨s, h, -⟩
    · exact ⟨_, h⟩
    · exact ⟨_, h⟩
  obtain ⟨o, ho⟩ := hcall
  by_cases hle : expect.length ≤ limit ∧ got.length ≤ limit
  · simp only [helperCall, if_pos hle] at ho
    obtain ⟨mdiffs, hm, -⟩ := Run.returns_bind.mp ho
    rw [List.take_of_length_le hle.1, List.take_of_length_le hle.2]
    exact returns_trace_of_myersDiff hm
  · simp only [helperCall, if_neg hle] at ho
    obtain ⟨mdiffs, hm, -⟩ := Run.returns_bind.mp ho
    rw [List.take_eq_take_min (l := expect), List.take_eq_take_min (l := got)]
    exact returns_trace_of_myersDiff hm

/-- Nothing is returned from 32768 lines on. -/
theorem not_returns_safeDiffMsg_default (hsize : 32768 ≤ expect.length + got.length) (msg : Str) :
    ¬ (safeDiffMsg expect got defaultBatchLimit).Returns msg := by
  intro h
  obtain ⟨trace, htrace⟩ := returns_trace_of_safeDiffMsg h
  rw [defaultBatchLimit] at htrace
  have hex : (expect.take 32767).length = min 32767 expect.length := List.length_take
  have hgo : (got.take 32767).length = min 32767 got.length := List.length_take
  rcases Nat.lt_or_ge 32767 ((expect.take 32767).length + (got.take 32767).length) with hlt | hge
  · exact not_returns_myersDiffTrace_of_le (by omega) (by omega) hlt trace htrace
  -- one of the lists is empty, the other fills its batch
  · obtain ⟨h1, h2, -⟩ := (ofLists equalTo (expect.take 32767) (got.take 32767)).onDiag_corner
    have hle := (ofLists equalTo (expect.take 32767) (got.take 32767)).dist_le_add
    rw [ofLists_n, ofLists_m] at h1 h2 hle
    exact not_returns_myersDiffTrace_stuck (by omega) (by omega) trace htrace

/-- From 16384 lines on, the only message there can be is the empty one. -/
theorem returns_safeDiffMsg_default_iff (hsize : expect.length + got.length ≤ 32767)
    (hsize' : 16384 ≤ expect.length + got.length) (msg : Str) :
    (safeDiffMsg expect got defaultBatchLimit).Returns msg ↔
      msg = [] ∧ ∃ trace, (myersDiffTrace wrapping equalTo expect got).Returns trace := by
  have hle : expect.length ≤ defaultBatchLimit ∧ got.length ≤ defaultBatchLimit := by
    rw [defaultBatchLimit]
    omega
  have hpush : (pushDiffs [] [] (toIndexT ([] : MsgDiffT).length)).Returns [] :=
    pushDiffs_returns (n := 0) (by simp) (by simp)
  have hmsg : (MsgDiffT.toString []).Returns [] := toString_returns_of_le (by simp)
  have hcall : ∀ o, (helperCall defaultBatchLimit ([], expect, got)).Returns o ↔
      o = .inr [] ∧ ∃ trace, (myersDiffTrace wrapping equalTo expect got).Returns trace := by
    intro o
    simp only [helperCall, if_pos hle, Run.returns_bind, returns_myersDiff_iff hsize hsize',
      Run.returns_pure]
    constructor
    · rintro ⟨mdiffs, ⟨rfl, htrace⟩, diffs, hdiffs, rfl⟩
      exact ⟨by rw [hdiffs.unique hpush], htrace⟩
    · rintro ⟨rfl, htrace⟩
      exact ⟨[], ⟨rfl, htrace⟩, [], hpush, rfl⟩
  rw [safeDiffMsg, Run.returns_bind]
  constructor
  · rintro ⟨diffs, hdiffs, hret⟩
    rcases Run.returns_loop.mp hdiffs with h | ⟨s, h, -⟩
    · obtain ⟨hd, htrace⟩ := (hcall _).mp h
      obtain rfl : diffs = [] := by simpa using hd
      exact ⟨hret.unique hmsg, htrace⟩
    · simpa using ((hcall _).mp h).1
  · rintro ⟨rfl, htrace⟩
    exact ⟨[], Run.returns_loop.mpr (.inl ((hcall _).mpr ⟨rfl, htrace⟩)), hmsg⟩

theorem dist_self (expect : StringsT) : (ofLists equalTo expect expect).dist = 0 := by
  have hsnake : expect.length ≤ (ofLists equalTo expect expect).snake 0 0 := by
    refine le_snake fun i hi ↦ (hit_ofLists equalTo).mpr ⟨expect[i], expect[i], ?_, ?_, ?_⟩
    · simp
    · simp
    · simp [equalTo]
  have h := Reach.origin.add_snake hsnake
  rw [Nat.zero_add] at h
  exact Nat.le_zero.mp (dist_le h)

/-- A search for fewer than 32766 edits returns. -/
theorem exists_myersDiffTrace (hsize : orig.length + updated.length ≤ 32767)
    (hdist : (ofLists cmp orig updated).dist ≤ 32765) :
    ∃ trace, (myersDiffTrace wrapping cmp orig updated).Returns trace :=
  (myersDiffTrace_wp hsize hdist).imp fun _ h ↦ h.1

/-- **Up to where the default limit is good**: `safeDiffMsg` with its default batch limit tells
equal lists from others for up to 16383 lines in total, and no further than that — except that it
calls equal lists equal for up to 32767 lines. -/
theorem emptyIffEqual_default_iff (expect got : StringsT) :
    EmptyIffEqual defaultBatchLimit expect got ↔
      expect.length + got.length ≤ 16383 ∨
        (expect.length + got.length ≤ 32767 ∧ expect = got) := by
  rcases Nat.lt_or_ge 16383 (expect.length + got.length) with hlarge | hsmall
  · rcases Nat.lt_or_ge 32767 (expect.length + got.length) with hhuge | hmid
    · refine iff_of_false ?_ (by omega)
      rintro ⟨msg, hret, -⟩
      exact not_returns_safeDiffMsg_default hhuge msg hret
    · simp only [EmptyIffEqual, returns_safeDiffMsg_default_iff hmid hlarge]
      constructor
      · rintro ⟨msg, ⟨rfl, -⟩, h⟩
        exact .inr ⟨hmid, h.mp rfl⟩
      · rintro (hc | ⟨-, rfl⟩)
        · omega
        · exact ⟨[], ⟨rfl, exists_myersDiffTrace hmid (by rw [dist_self]; omega)⟩, by simp⟩
  · exact iff_of_true (emptyIffEqual_of_le (by decide) (.inr hsmall) (by omega)) (.inl hsmall)

/-- A batch of 16384 deleted lines, or a few more, goes unnoticed. -/
theorem safeDiffMsg_deleted (h : 16384 ≤ expect.length) (h' : expect.length ≤ 32765) :
    (safeDiffMsg expect [] defaultBatchLimit).Returns [] := by
  have hdist := (ofLists equalTo expect []).dist_le_add
  rw [ofLists_n, ofLists_m, List.length_nil] at hdist
  have hlen : ([] : StringsT).length = 0 := rfl
  exact (returns_safeDiffMsg_default_iff (by omega) (by omega) []).mpr
    ⟨rfl, exists_myersDiffTrace (by omega) (by omega)⟩

theorem emptyIffEqual_default_16384 :
    (safeDiffMsg (List.replicate 16384 ['a']) [] defaultBatchLimit).Returns [] ∧
      ¬ EmptyIffEqual defaultBatchLimit (List.replicate 16384 ['a']) [] := by
  have hret : (safeDiffMsg (List.replicate 16384 ['a']) [] defaultBatchLimit).Returns [] :=
    safeDiffMsg_deleted (by rw [List.length_replicate])
      (by rw [List.length_replicate]; decide)
  refine ⟨hret, ?_⟩
  rintro ⟨msg, hmsg, h⟩
  have hnil := congrArg List.length (h.mp (hret.unique hmsg).symm)
  rw [List.length_replicate] at hnil
  exact absurd hnil (by decide)

end Diff
end Cppkg
