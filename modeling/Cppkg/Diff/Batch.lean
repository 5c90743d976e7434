import Cppkg.Diff.Msg
import Cppkg.Diff.Script
import Mathlib.Algebra.Ring.Nat

/-!
# Comparing in batches

`safeDiffMsgHelper` compares long lists piece by piece: it cuts a batch off both lists, keeps the
script of the two batches up to its last `eq` entry — all of it, if there is none — and goes on with
the lines behind.  The two lists advance by different amounts, but never both by none.

`batched` is the sequence of actions this leads to, as a function of the two lists.
`safeDiffMsgHelper_wp` says that the code accumulates a script with these actions, and that it turns
the one list into the other.
-/

set_option autoImplicit false

namespace Cppkg
namespace Diff

open Grid

variable {α : Type} {cmp : α → α → Bool} {orig updated : List α} {x y : ℕ}
variable {diffs : List (Diff α)}

/-! ## What a list of actions takes and gives -/

/-- The number of elements of the original sequence a list of actions takes. -/
def taken (as : List Action) : ℕ := (as.map Action.takes).sum

/-- The number of elements of the updated sequence a list of actions gives. -/
def given (as : List Action) : ℕ := (as.map Action.gives).sum

@[simp] theorem taken_nil : taken [] = 0 := rfl

@[simp] theorem given_nil : given [] = 0 := rfl

@[simp] theorem taken_cons (a : Action) (as : List Action) :
    taken (a :: as) = a.takes + taken as := by simp [taken]

@[simp] theorem given_cons (a : Action) (as : List Action) :
    given (a :: as) = a.gives + given as := by simp [given]

@[simp] theorem taken_append (as bs : List Action) : taken (as ++ bs) = taken as + taken bs := by
  simp [taken]

@[simp] theorem given_append (as bs : List Action) : given (as ++ bs) = given as + given bs := by
  simp [given]

/-- Every action deals with an element. -/
theorem length_le_taken_add_given (as : List Action) : as.length ≤ taken as + given as := by
  induction as with
  | nil => simp
  | cons a as ih => cases a <;> simp [Action.takes, Action.gives] <;> omega

theorem fromOrig_append (diffs diffs' : List (Diff α)) :
    fromOrig (diffs ++ diffs') = fromOrig diffs ++ fromOrig diffs' := List.filter_append ..

theorem intoUpdated_append (diffs diffs' : List (Diff α)) :
    intoUpdated (diffs ++ diffs') = intoUpdated diffs ++ intoUpdated diffs' :=
  List.filter_append ..

theorem length_fromOrig (diffs : List (Diff α)) :
    (fromOrig diffs).length = taken (diffs.map Diff.action) := by
  induction diffs with
  | nil => rfl
  | cons diff diffs ih =>
    obtain ⟨val, o, u, action⟩ := diff
    cases action <;> simp [fromOrig, Action.takes] at ih ⊢ <;> omega

theorem length_intoUpdated (diffs : List (Diff α)) :
    (intoUpdated diffs).length = given (diffs.map Diff.action) := by
  induction diffs with
  | nil => rfl
  | cons diff diffs ih =>
    obtain ⟨val, o, u, action⟩ := diff
    cases action <;> simp [intoUpdated, Action.gives] at ih ⊢ <;> omega

namespace Script

theorem taken (h : Script cmp x y orig updated diffs) :
    taken (diffs.map Diff.action) = orig.length := by
  rw [← length_fromOrig, ← List.length_map Diff.val, h.orig_val]

theorem given (h : Script cmp x y orig updated diffs) :
    given (diffs.map Diff.action) = updated.length := by
  rw [← length_intoUpdated, ← List.length_map Diff.updated, h.updated_pos]
  simp

/-- The positions of an `eq` entry are the numbers of elements taken and given before it. -/
theorem eq_pos (h : Script cmp x y orig updated diffs) {p : ℕ} {diff : Diff α}
    (hp : diffs[p]? = some diff) (heq : diff.action = .eq) :
    diff.orig = (x + Diff.taken ((diffs.take p).map Diff.action) : ℕ) ∧
      diff.updated = (y + Diff.given ((diffs.take p).map Diff.action) : ℕ) := by
  induction h generalizing p with
  | nil => simp at hp
  | eq _ _ ih =>
    cases p with
    | zero => simp at hp; subst hp; simp
    | succ p =>
      obtain ⟨h1, h2⟩ := ih (by simpa using hp)
      exact ⟨h1.trans (by simp [Action.takes]; omega), h2.trans (by simp [Action.gives]; omega)⟩
  | add _ ih =>
    cases p with
    | zero => simp at hp; subst hp; simp at heq
    | succ p =>
      obtain ⟨h1, h2⟩ := ih (by simpa using hp)
      exact ⟨h1.trans (by simp [Action.takes]), h2.trans (by simp [Action.gives]; omega)⟩
  | del _ ih =>
    cases p with
    | zero => simp at hp; subst hp; simp at heq
    | succ p =>
      obtain ⟨h1, h2⟩ := ih (by simpa using hp)
      exact ⟨h1.trans (by simp [Action.takes]; omega), h2.trans (by simp [Action.gives])⟩

theorem updated_val (h : Script cmp x y orig updated diffs)
    (hcmp : ∀ a b, cmp a b = true → a = b) : (intoUpdated diffs).map Diff.val = updated := by
  induction h with
  | nil => rfl
  | eq hab _ ih => simpa [intoUpdated, hcmp _ _ hab] using ih
  | add _ ih => simpa [intoUpdated] using ih
  | del _ ih => simpa [intoUpdated] using ih

end Script

/-- `diffs` takes the elements of `orig` and gives those of `updated`, wherever they may be. -/
structure Turns (orig updated : List α) (diffs : List (Diff α)) : Prop where
  /-- The entries that are not `add`, in order, carry the elements of the original sequence. -/
  taken : (fromOrig diffs).map Diff.val = orig
  /-- The entries that are not `del`, in order, carry the elements of the updated sequence. -/
  given : (intoUpdated diffs).map Diff.val = updated

theorem Script.turns (h : Script cmp x y orig updated diffs)
    (hcmp : ∀ a b, cmp a b = true → a = b) : Turns orig updated diffs :=
  ⟨h.orig_val, h.updated_val hcmp⟩

namespace Turns

variable {orig' updated' : List α} {diffs' : List (Diff α)}

theorem nil : Turns ([] : List α) [] [] := ⟨rfl, rfl⟩

theorem append (h : Turns orig updated diffs) (h' : Turns orig' updated' diffs') :
    Turns (orig ++ orig') (updated ++ updated') (diffs ++ diffs') := by
  constructor
  · rw [fromOrig_append, List.map_append, h.taken, h'.taken]
  · rw [intoUpdated_append, List.map_append, h.given, h'.given]

/-- The entries at the front deal with the elements at the front. -/
theorem front (h : Turns orig updated (diffs ++ diffs')) :
    Turns (orig.take (Diff.taken (diffs.map Diff.action)))
      (updated.take (Diff.given (diffs.map Diff.action))) diffs := by
  constructor
  · rw [← h.taken, fromOrig_append, List.map_append, ← length_fromOrig,
      ← List.length_map Diff.val, List.take_left]
  · rw [← h.given, intoUpdated_append, List.map_append, ← length_intoUpdated,
      ← List.length_map Diff.val, List.take_left]

theorem length_orig (h : Turns orig updated diffs) :
    Diff.taken (diffs.map Diff.action) = orig.length := by
  rw [← length_fromOrig, ← List.length_map Diff.val, h.taken]

theorem length_updated (h : Turns orig updated diffs) :
    Diff.given (diffs.map Diff.action) = updated.length := by
  rw [← length_intoUpdated, ← List.length_map Diff.val, h.given]

end Turns

/-! ## Where a batch is cut -/

/-- The actions up to the last `eq`; all of them, if there is none. -/
def cutBack (as : List Action) : List Action :=
  if .eq ∈ as then as.rdropWhile (· != .eq) else as

/-- What is cut off has no `eq`. -/
theorem cutBack_append (as : List Action) : ∃ bs, as = cutBack as ++ bs ∧ .eq ∉ bs := by
  rw [cutBack]
  split
  · refine ⟨as.rtakeWhile (· != .eq), List.rdropWhile_append_rtakeWhile.symm, fun h ↦ ?_⟩
    have := List.mem_rtakeWhile_imp h
    simp at this
  · rename_i h
    exact ⟨[], by simp, by simp⟩

theorem cutBack_ne_nil {as : List Action} (h : as ≠ []) : cutBack as ≠ [] := by
  obtain ⟨bs, h1, h2⟩ := cutBack_append as
  intro hnil
  rw [hnil, List.nil_append] at h1
  subst h1
  rw [cutBack, if_neg h2] at hnil
  exact h hnil

/-- The cut is at the front of the script. -/
theorem take_cutBack (as : List Action) : as.take (cutBack as).length = cutBack as := by
  obtain ⟨bs, h, -⟩ := cutBack_append as
  generalize cutBack as = cs at h ⊢
  rw [h, List.take_left]

/-! ## The loops -/

/-- The state of `pushDiffs` before entry `i`. -/
def PushInv (diffs mdiffs : MsgDiffT) (n : ℕ) : ℤ × MsgDiffT → Prop
  | (i, diffs') => ∃ p : ℕ, i = p ∧ p ≤ n ∧ diffs' = diffs ++ mdiffs.take p

/-- `pushDiffs` pushes the first `n` entries. -/
theorem pushDiffs_returns {diffs mdiffs : MsgDiffT} {n : ℕ} (hn : n ≤ mdiffs.length)
    (hn' : n ≤ 32767) : (pushDiffs diffs mdiffs n).Returns (diffs ++ mdiffs.take n) := by
  rw [← Run.wp_eq_iff]
  refine Run.wp_loop (PushInv diffs mdiffs n) (fun s ↦ (n - s.1).toNat) ?_ ?_
  · rintro ⟨i, diffs'⟩ ⟨p, rfl, hp, rfl⟩
    simp only
    by_cases hlt : (p : ℤ) < n
    · obtain ⟨diff, hget⟩ : ∃ diff, mdiffs[p]? = some diff :=
        ⟨_, List.getElem?_eq_getElem (by omega)⟩
      simp only [if_pos hlt, deref_natCast hget, Run.wp_bind, Run.wp_pure,
        toIndexT_of_fits (show -32768 ≤ (p : ℤ) + 1 by omega) (by omega), Run.round_inl]
      refine ⟨⟨p + 1, rfl, by omega, ?_⟩, by omega⟩
      rw [List.take_add_one, hget, Option.toList_some, List.append_assoc]
    · obtain rfl : p = n := by omega
      simp only [if_neg hlt, Run.wp_pure, Run.round_inr]
  · exact ⟨0, rfl, Nat.zero_le _, by simp⟩

theorem dropLines_natCast {lines : StringsT} {offset : ℕ} (h : offset ≤ lines.length) :
    dropLines lines offset = pure (lines.drop offset) := by
  rw [dropLines, if_pos ⟨by omega, by omega⟩, Int.toNat_natCast]

/-- The state of `cutBatch` after the entries with the actions `as`. -/
def lastEq (as : List Action) (diffEnd eoffset goffset : ℕ) : ℤ × ℤ × ℤ :=
  if .eq ∈ as then
    let cs := as.rdropWhile (· != .eq)
    (cs.length, taken cs, given cs)
  else (diffEnd, eoffset, goffset)

/-- The state of `cutBatch` before entry `i`. -/
def CutInv (mdiffs : MsgDiffT) (eoffset goffset : ℕ) : ℤ × ℤ × ℤ × ℤ → Prop
  | (i, state) => ∃ p : ℕ, i = p ∧ p ≤ mdiffs.length ∧
    state = lastEq ((mdiffs.take p).map Diff.action) mdiffs.length eoffset goffset

/-- `cutBatch` finds the cut of `cutBack`. -/
theorem cutBatch_returns {expect got : StringsT} {mdiffs : MsgDiffT}
    (h : Script equalTo 0 0 expect got mdiffs) (hsize : expect.length + got.length ≤ 32766) :
    (cutBatch mdiffs expect.length got.length).Returns
      ((cutBack (mdiffs.map Diff.action)).length, taken (cutBack (mdiffs.map Diff.action)),
        given (cutBack (mdiffs.map Diff.action))) := by
  have hlen := h.length_le
  have hn : toIndexT mdiffs.length = mdiffs.length := toIndexT_of_fits (by omega) (by omega)
  rw [← Run.wp_eq_iff, cutBatch]
  simp only [hn]
  refine Run.wp_loop (CutInv mdiffs expect.length got.length)
    (fun s ↦ (mdiffs.length - s.1).toNat) ?_ ?_
  · rintro ⟨i, diffEnd, eoffset, goffset⟩ ⟨p, rfl, hp, hstate⟩
    simp only
    by_cases hlt : (p : ℤ) < mdiffs.length
    · obtain ⟨diff, hget⟩ : ∃ diff, mdiffs[p]? = some diff :=
        ⟨_, List.getElem?_eq_getElem (by omega)⟩
      have htake : (mdiffs.take (p + 1)).map Diff.action
          = (mdiffs.take p).map Diff.action ++ [diff.action] := by
        rw [List.take_add_one, hget]
        simp
      simp only [if_pos hlt, deref_natCast hget, Run.wp_bind, Run.wp_pure,
        toIndexT_of_fits (show -32768 ≤ (p : ℤ) + 1 by omega) (by omega)]
      by_cases heq : diff.action = .eq
      · obtain ⟨ho, hu⟩ := h.eq_pos hget heq
        have h1 := length_fromOrig (mdiffs.take p)
        have h2 := length_intoUpdated (mdiffs.take p)
        have h3 : (fromOrig (mdiffs.take p)).length ≤ p :=
          (List.length_filter_le _ _).trans (List.length_take_le _ _)
        have h4 : (intoUpdated (mdiffs.take p)).length ≤ p :=
          (List.length_filter_le _ _).trans (List.length_take_le _ _)
        simp only [if_pos heq, Run.wp_pure, Run.round_inl]
        refine ⟨⟨p + 1, rfl, by omega, ?_⟩, by omega⟩
        rw [toIndexT_of_fits (by omega) (by omega), toIndexT_of_fits (by omega) (by omega), htake,
          lastEq, if_pos (by simp [heq]), List.rdropWhile_concat_neg _ _ _ (by simp [heq])]
        simp [ho, hu, heq, Action.takes, Action.gives]
        omega
      · simp only [if_neg heq, Run.wp_pure, Run.round_inl]
        refine ⟨⟨p + 1, rfl, by omega, ?_⟩, by omega⟩
        rw [hstate, htake, lastEq, lastEq,
          List.rdropWhile_concat_pos _ _ _ (by simpa using heq)]
        simp [Ne.symm heq]
    · obtain rfl : p = mdiffs.length := by omega
      simp only [if_neg hlt, Run.wp_pure, Run.round_inr]
      rw [hstate, List.take_length, lastEq, cutBack]
      split
      · rfl
      · rw [h.taken, h.given, List.length_map]
  · exact ⟨0, rfl, Nat.zero_le _, by simp [lastEq]⟩

/-! ## The batched script -/

theorem taken_given_of_walk {G : Grid} {x y x' y' : ℕ} {ms : List Move}
    (h : G.Walk x y ms x' y') :
    x' = x + taken (ms.map actionOf) ∧ y' = y + given (ms.map actionOf) := by
  induction h with
  | nil => simp
  | diag _ _ ih => simp [actionOf, Action.takes, Action.gives]; omega
  | right _ ih => simp [actionOf, Action.takes, Action.gives]; omega
  | down _ ih => simp [actionOf, Action.takes, Action.gives]; omega

/-- The actions of the cheapest script for two lists of lines. -/
noncomputable def bestActions (expect got : StringsT) : List Action :=
  (ofLists equalTo expect got).best.map actionOf

theorem taken_bestActions (expect got : StringsT) :
    taken (bestActions expect got) = expect.length := by
  simpa [bestActions] using (taken_given_of_walk (ofLists equalTo expect got).walk_best).1.symm

theorem given_bestActions (expect got : StringsT) :
    given (bestActions expect got) = got.length := by
  simpa [bestActions] using (taken_given_of_walk (ofLists equalTo expect got).walk_best).2.symm

/-- The actions kept of the first batch of two lists. -/
noncomputable def firstBatch (limit : ℕ) (expect got : StringsT) : List Action :=
  cutBack (bestActions (expect.take limit) (got.take limit))

/-- The actions of the script that is accumulated in batches of up to `limit` lines.  A limit of `0`
would not get anywhere. -/
noncomputable def batched (limit : ℕ) (expect got : StringsT) : List Action :=
  if expect.length ≤ limit ∧ got.length ≤ limit then bestActions expect got
  else
    let as := firstBatch limit expect got
    if _h : (expect.drop (taken as)).length + (got.drop (given as)).length
        < expect.length + got.length then
      as ++ batched limit (expect.drop (taken as)) (got.drop (given as))
    else []
termination_by expect.length + got.length
decreasing_by exact _h

variable {limit : ℕ} {expect got : StringsT}

theorem taken_firstBatch_le (limit : ℕ) (expect got : StringsT) :
    taken (firstBatch limit expect got) ≤ (expect.take limit).length := by
  obtain ⟨bs, h, -⟩ := cutBack_append (bestActions (expect.take limit) (got.take limit))
  have h' := taken_bestActions (expect.take limit) (got.take limit)
  rw [h, taken_append] at h'
  rw [firstBatch]
  omega

theorem given_firstBatch_le (limit : ℕ) (expect got : StringsT) :
    given (firstBatch limit expect got) ≤ (got.take limit).length := by
  obtain ⟨bs, h, -⟩ := cutBack_append (bestActions (expect.take limit) (got.take limit))
  have h' := given_bestActions (expect.take limit) (got.take limit)
  rw [h, given_append] at h'
  rw [firstBatch]
  omega

/-- **Progress.**  A batch that has to be cut off deals with at least one line. -/
theorem firstBatch_pos (hlimit : 1 ≤ limit) (h : ¬ (expect.length ≤ limit ∧ got.length ≤ limit)) :
    0 < taken (firstBatch limit expect got) + given (firstBatch limit expect got) := by
  have hne : bestActions (expect.take limit) (got.take limit) ≠ [] := by
    intro hnil
    have h1 := taken_bestActions (expect.take limit) (got.take limit)
    have h2 := given_bestActions (expect.take limit) (got.take limit)
    rw [hnil, taken_nil, List.length_take] at h1
    rw [hnil, given_nil, List.length_take] at h2
    omega
  have := List.length_pos_iff.mpr (cutBack_ne_nil hne)
  exact Nat.lt_of_lt_of_le this (length_le_taken_add_given _)

theorem length_drop_firstBatch_lt (hlimit : 1 ≤ limit)
    (h : ¬ (expect.length ≤ limit ∧ got.length ≤ limit)) :
    (expect.drop (taken (firstBatch limit expect got))).length
        + (got.drop (given (firstBatch limit expect got))).length
      < expect.length + got.length := by
  have h1 := firstBatch_pos hlimit h
  have h2 := taken_firstBatch_le limit expect got
  have h3 := given_firstBatch_le limit expect got
  simp only [List.length_take, List.length_drop] at *
  omega

theorem batched_of_le (h : expect.length ≤ limit ∧ got.length ≤ limit) :
    batched limit expect got = bestActions expect got := by
  rw [batched, if_pos h]

theorem batched_of_not_le (hlimit : 1 ≤ limit)
    (h : ¬ (expect.length ≤ limit ∧ got.length ≤ limit)) :
    batched limit expect got = firstBatch limit expect got ++
      batched limit (expect.drop (taken (firstBatch limit expect got)))
        (got.drop (given (firstBatch limit expect got))) := by
  rw [batched, if_neg h]
  exact dif_pos (length_drop_firstBatch_lt hlimit h)

/-! ## The batches of the code -/

/-- What a call of the helper does to the arguments `(diffs, expect, got)`. -/
def Called (limit : ℕ) (diffs : MsgDiffT) (expect got : StringsT) :
    (MsgDiffT × StringsT × StringsT) ⊕ MsgDiffT → Prop
  | .inl (diffs', expect', got') =>
    ¬ (expect.length ≤ limit ∧ got.length ≤ limit) ∧
    expect' = expect.drop (taken (firstBatch limit expect got)) ∧
    got' = got.drop (given (firstBatch limit expect got)) ∧
    ∃ mdiffs, diffs' = diffs ++ mdiffs ∧
      Turns (expect.take (taken (firstBatch limit expect got)))
        (got.take (given (firstBatch limit expect got))) mdiffs ∧
      mdiffs.map Diff.action = firstBatch limit expect got
  | .inr diffs' =>
    (expect.length ≤ limit ∧ got.length ≤ limit) ∧
    ∃ mdiffs, diffs' = diffs ++ mdiffs ∧ Turns expect got mdiffs ∧
      mdiffs.map Diff.action = bestActions expect got

theorem equalTo_eq (a b : Str) (h : equalTo a b = true) : a = b := by simpa [equalTo] using h

/-- **One call.** -/
theorem helperCall_wp (hsize : limit ≤ 8191 ∨ expect.length + got.length ≤ 16383)
    (diffs : MsgDiffT) :
    (helperCall limit (diffs, expect, got)).wp (Called limit diffs expect got) := by
  by_cases hle : expect.length ≤ limit ∧ got.length ≤ limit
  · simp only [helperCall, if_pos hle, Run.wp_bind]
    refine Run.wp_mono (myersDiff_wp (by omega)) ?_
    rintro mdiffs ⟨hscript, hact⟩
    have hlen := hscript.length_le
    rw [toIndexT_of_fits (by omega) (by omega),
      (pushDiffs_returns (Nat.le_refl _) (by omega)).wp_iff, List.take_length, Run.wp_pure]
    exact ⟨hle, mdiffs, rfl, hscript.turns equalTo_eq, hact⟩
  · have hex : expect.take (min limit expect.length) = expect.take limit := by
      rw [List.take_eq_take_iff]; omega
    have hgo : got.take (min limit got.length) = got.take limit := by
      rw [List.take_eq_take_iff]; omega
    have hexlen : (expect.take limit).length = min limit expect.length := List.length_take
    have hgolen : (got.take limit).length = min limit got.length := List.length_take
    simp only [helperCall, if_neg hle, Run.wp_bind, hex, hgo]
    refine Run.wp_mono (myersDiff_wp (by omega)) ?_
    rintro mdiffs ⟨hscript, hact⟩
    have hlen := hscript.length_le
    have hcut := cutBatch_returns hscript (by omega)
    rw [toIndexT_of_fits (by omega) (by omega), toIndexT_of_fits (by omega) (by omega), ← hexlen,
      ← hgolen, hcut.wp_iff]
    have hfirst : cutBack (mdiffs.map Diff.action) = firstBatch limit expect got :=
      congrArg cutBack hact
    have htake := take_cutBack (mdiffs.map Diff.action)
    rw [hfirst] at htake ⊢
    have hc : (firstBatch limit expect got).length ≤ mdiffs.length := by
      rw [← htake]
      simp
    have h1 := taken_firstBatch_le limit expect got
    have h2 := given_firstBatch_le limit expect got
    have hturns : Turns (expect.take (taken (firstBatch limit expect got)))
        (got.take (given (firstBatch limit expect got)))
        (mdiffs.take (firstBatch limit expect got).length) := by
      have h := hscript.turns equalTo_eq
      rw [← List.take_append_drop (firstBatch limit expect got).length mdiffs] at h
      have h' := h.front
      rw [List.map_take, htake, List.take_take, List.take_take, min_eq_left (by omega),
        min_eq_left (by omega)] at h'
      exact h'
    simp only [(pushDiffs_returns hc (by omega)).wp_iff]
    rw [dropLines_natCast (by omega), dropLines_natCast (by omega)]
    simp only [Run.wp_pure]
    exact ⟨hle, rfl, rfl, _, rfl, hturns, by rw [List.map_take, htake]⟩

/-- The state of `safeDiffMsgHelper` before a call: what the lists had before those still to be
compared was turned into the script. -/
def HelperInv (limit : ℕ) (expect got : StringsT) : MsgDiffT × StringsT × StringsT → Prop
  | (diffs, expect', got') => ∃ expect₀ got₀, expect = expect₀ ++ expect' ∧ got = got₀ ++ got' ∧
    Turns expect₀ got₀ diffs ∧
    diffs.map Diff.action ++ batched limit expect' got' = batched limit expect got

/-- **What `safeDiffMsgHelper` accumulates.** -/
theorem safeDiffMsgHelper_wp (hlimit : 1 ≤ limit)
    (hsize : limit ≤ 8191 ∨ expect.length + got.length ≤ 16383) :
    (safeDiffMsgHelper [] expect got limit).wp fun diffs ↦
      Turns expect got diffs ∧ diffs.map Diff.action = batched limit expect got := by
  refine Run.wp_loop (HelperInv limit expect got) (fun s ↦ s.2.1.length + s.2.2.length) ?_
    ⟨[], [], rfl, rfl, .nil, by simp⟩
  rintro ⟨diffs, expect', got'⟩ ⟨expect₀, got₀, rfl, rfl, hturns, hact⟩
  simp only [List.length_append] at hsize
  refine Run.wp_mono (helperCall_wp (hsize.imp_right (by omega)) diffs) ?_
  rintro (⟨diffs', expect'', got''⟩ | diffs') hcall
  · obtain ⟨hle, rfl, rfl, mdiffs, rfl, hm, hmact⟩ := hcall
    refine ⟨⟨_, _, ?_, ?_, hturns.append hm, ?_⟩, length_drop_firstBatch_lt hlimit hle⟩
    · rw [List.append_assoc, List.take_append_drop]
    · rw [List.append_assoc, List.take_append_drop]
    · rw [List.map_append, List.append_assoc, hmact, ← batched_of_not_le hlimit hle, hact]
  · obtain ⟨hle, mdiffs, rfl, hm, hmact⟩ := hcall
    rw [batched_of_le hle] at hact
    exact ⟨hturns.append hm, by rw [List.map_append, hmact, hact]⟩

/-- **Batches.**  With a limit of up to 8191 lines, `safeDiffMsgHelper` ends, every recursive call
has fewer lines to deal with, and no line is lost, duplicated or reordered. -/
theorem safeDiffMsgHelper_replays (limit : ℕ) (hlimit : 1 ≤ limit) (hlimit' : limit ≤ 8191)
    (expect got : StringsT) :
    (∃ diffs, (safeDiffMsgHelper [] expect got limit).Returns diffs ∧
      (fromOrig diffs).map Diff.val = expect ∧ (intoUpdated diffs).map Diff.val = got) ∧
    ∀ (diffs diffs' : MsgDiffT) (expect got expect' got' : StringsT),
      (helperCall limit (diffs, expect, got)).Returns (.inl (diffs', expect', got')) →
        expect'.length + got'.length < expect.length + got.length := by
  refine ⟨?_, fun diffs diffs' expect got expect' got' h ↦ ?_⟩
  · obtain ⟨diffs, hret, hturns, -⟩ := @safeDiffMsgHelper_wp limit expect got hlimit
      (.inl hlimit')
    exact ⟨diffs, hret, hturns.taken, hturns.given⟩
  · have hcall := h.wp_iff.mp (helperCall_wp (.inl hlimit') diffs)
    obtain ⟨hle, rfl, rfl, -⟩ := hcall
    exact length_drop_firstBatch_lt hlimit hle

theorem safeDiffMsgHelper_replays_small :
    (∃ diffs, (safeDiffMsgHelper [] [['a'], ['b'], ['c']] [['b'], ['c'], ['d'], ['e']] 2).Returns
        diffs ∧
      (fromOrig diffs).map Diff.val = [['a'], ['b'], ['c']] ∧
      (intoUpdated diffs).map Diff.val = [['b'], ['c'], ['d'], ['e']]) ∧
    ∀ (diffs diffs' : MsgDiffT) (expect got expect' got' : StringsT),
      (helperCall 2 (diffs, expect, got)).Returns (.inl (diffs', expect', got')) →
        expect'.length + got'.length < expect.length + got.length :=
  safeDiffMsgHelper_replays 2 (by decide) (by decide) [['a'], ['b'], ['c']]
    [['b'], ['c'], ['d'], ['e']]

end Diff
end Cppkg
