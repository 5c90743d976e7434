import Cppkg.Diff.Batch
import Cppkg.Diff.Render

/-!
# Messages of long scripts

Batching takes care of inputs that are too long for one comparison, but the script that the batches
accumulate is rendered in one go, and `MsgDiffT.toString` counts its entries with an `IndexT`.  From
32768 entries on it sees a different number of them: the message is lost when that number is
negative, and it shows only the first few entries otherwise.

`emptyIffEqual_batched_iff` says exactly when the message is still empty for equal lists and no
others.
-/

set_option autoImplicit false

namespace Cppkg
namespace Diff

open Grid

variable {limit : ℕ} {expect got : StringsT}

/-! ## Common lines at the front -/

/-- Lines that agree at the front of two lists are kept. -/
theorem bestActions_start {p : ℕ} (hp : p ≤ got.length)
    (h : expect.take p = got.take p) :
    ∃ as, bestActions expect got = List.replicate p .eq ++ as := by
  have hsnake : p ≤ (ofLists equalTo expect got).snake 0 0 := by
    refine le_snake fun i hi ↦ (hit_ofLists equalTo).mpr ?_
    have hget : expect[i]? = got[i]? := by
      rw [← List.getElem?_take_of_lt hi, h, List.getElem?_take_of_lt hi]
    obtain ⟨line, hline⟩ : ∃ line, got[i]? = some line := ⟨_, List.getElem?_eq_getElem (by omega)⟩
    exact ⟨line, line, by rw [Nat.zero_add, hget, hline], by rw [Nat.zero_add, hline],
      by simp [equalTo]⟩
  obtain ⟨ms, hms⟩ := (ofLists equalTo expect got).moves_start
    (ofLists equalTo expect got).dist (((ofLists equalTo expect got).n : ℤ) - (ofLists equalTo
      expect got).m)
  refine ⟨List.replicate ((ofLists equalTo expect got).snake 0 0 - p) .eq ++ ms.map actionOf, ?_⟩
  rw [bestActions, best, hms, List.map_append, List.map_replicate, ← List.append_assoc,
    List.replicate_append_replicate, Nat.add_sub_cancel' hsnake]
  rfl

/-- Cutting a batch does not cut off what it keeps at the front. -/
theorem cutBack_start {as bs : List Action} {p : ℕ} (h : as = List.replicate p .eq ++ bs) :
    ∃ cs, cutBack as = List.replicate p .eq ++ cs := by
  obtain ⟨ds, h1, h2⟩ := cutBack_append as
  generalize cutBack as = cs at h1 ⊢
  have hle : p ≤ cs.length := by
    by_contra hc
    have hget : (cs ++ ds)[cs.length]? = some .eq := by
      rw [← h1, h, List.getElem?_append_left (by simpa using hc), List.getElem?_replicate,
        if_pos (by omega)]
    rw [List.getElem?_append_right (Nat.le_refl _)] at hget
    exact h2 (List.mem_of_getElem? hget)
  refine ⟨cs.drop p, ?_⟩
  have htake : cs.take p = List.replicate p .eq := by
    rw [← List.take_append_of_le_length hle, ← h1, h]
    simp
  rw [← htake, List.take_append_drop]

@[simp] theorem taken_replicate (p : ℕ) : taken (List.replicate p .eq) = p := by
  rw [taken, List.map_replicate, List.sum_replicate_nat]
  exact Nat.mul_one p

@[simp] theorem given_replicate (p : ℕ) : given (List.replicate p .eq) = p := by
  rw [given, List.map_replicate, List.sum_replicate_nat]
  exact Nat.mul_one p

theorem eq_nil_of_taken_given {as : List Action} (h₁ : taken as = 0) (h₂ : given as = 0) :
    as = [] := by
  have := length_le_taken_add_given as
  exact List.length_eq_zero_iff.mp (by omega)

/-- **Lines that agree at the front are kept**, however many batches they go through. -/
theorem batched_start (hlimit : 1 ≤ limit) {p : ℕ} (hx : p ≤ expect.length) (hy : p ≤ got.length)
    (h : expect.take p = got.take p) :
    ∃ as, batched limit expect got = List.replicate p .eq ++ as := by
  induction hn : expect.length + got.length using Nat.strongRecOn generalizing expect got p with
  | ind n ih =>
    by_cases hle : expect.length ≤ limit ∧ got.length ≤ limit
    · rw [batched_of_le hle]
      exact bestActions_start hy h
    rw [batched_of_not_le hlimit hle]
    -- how far the first batch agrees
    have hfirst : ∃ cs, firstBatch limit expect got = List.replicate (min p limit) .eq ++ cs := by
      have htake : ∀ l : StringsT, (l.take limit).take (min p limit) = (l.take p).take limit := by
        intro l
        rw [List.take_take, List.take_take]
        congr 1
        omega
      have hbatch :
          (expect.take limit).take (min p limit) = (got.take limit).take (min p limit) := by
        rw [htake, htake, h]
      obtain ⟨bs, hbs⟩ := bestActions_start (p := min p limit) (by simp; omega) hbatch
      exact cutBack_start hbs
    obtain ⟨cs, hcs⟩ := hfirst
    rcases Nat.lt_or_ge limit p with hlt | hge
    · -- the batch agrees all through
      rw [min_eq_right (by omega)] at hcs
      have h1 := taken_firstBatch_le limit expect got
      have h2 := given_firstBatch_le limit expect got
      rw [hcs, List.length_take] at h1 h2
      simp only [taken_append, taken_replicate, given_append, given_replicate] at h1 h2
      obtain rfl : cs = [] := eq_nil_of_taken_given (by omega) (by omega)
      rw [hcs]
      simp only [List.append_nil, taken_replicate, given_replicate]
      have hrest : (expect.drop limit).take (p - limit) = (got.drop limit).take (p - limit) := by
        rw [← List.drop_take, ← List.drop_take, h]
      obtain ⟨as, has⟩ := ih _ (by simp; omega) (by simp; omega) (by simp; omega) hrest rfl
      exact ⟨as, by rw [has, ← List.append_assoc, List.replicate_append_replicate,
        Nat.add_sub_cancel' (by omega)]⟩
    · rw [min_eq_left hge] at hcs
      exact ⟨_, by rw [hcs, List.append_assoc]⟩

/-! ## The front of a script -/

variable {diffs : MsgDiffT}

/-- The first `p` entries of the accumulated script are `eq` entries exactly when the first `p`
lines of the two lists are there and agree. -/
theorem front_eq_iff (hlimit : 1 ≤ limit) (h : Turns expect got diffs)
    (hact : diffs.map Diff.action = batched limit expect got) {p : ℕ} (hp : p ≤ diffs.length) :
    (∀ diff ∈ diffs.take p, diff.action = .eq) ↔
      p ≤ expect.length ∧ p ≤ got.length ∧ expect.take p = got.take p := by
  constructor
  · intro heq
    have hrep : (diffs.take p).map Diff.action = List.replicate p .eq := by
      rw [List.eq_replicate_iff]
      refine ⟨by simpa using hp, fun a ha ↦ ?_⟩
      obtain ⟨diff, hdiff, rfl⟩ := List.mem_map.mp ha
      exact heq diff hdiff
    have ho := h.length_orig
    have hu := h.length_updated
    rw [← List.take_append_drop p diffs] at h ho hu
    have hfront := h.front
    rw [List.map_append, hrep, taken_append, taken_replicate] at ho
    rw [List.map_append, hrep, given_append, given_replicate] at hu
    rw [hrep, taken_replicate, given_replicate] at hfront
    have h1 : fromOrig (diffs.take p) = diffs.take p :=
      List.filter_eq_self.mpr fun diff hdiff ↦ by simp [heq diff hdiff]
    have h2 : intoUpdated (diffs.take p) = diffs.take p :=
      List.filter_eq_self.mpr fun diff hdiff ↦ by simp [heq diff hdiff]
    refine ⟨by omega, by omega, ?_⟩
    rw [← hfront.taken, ← hfront.given, h1, h2]
  · rintro ⟨hx, hy, htake⟩ diff hdiff
    obtain ⟨as, has⟩ := batched_start hlimit hx hy htake
    have hmem : diff.action ∈ (diffs.map Diff.action).take p := by
      rw [← List.map_take]
      exact List.mem_map_of_mem hdiff
    rw [hact, has, List.take_left' (List.length_replicate ..)] at hmem
    exact List.eq_of_mem_replicate hmem

/-- For equal lists the script has one entry a line. -/
theorem length_of_self (hlimit : 1 ≤ limit) (h : Turns expect expect diffs)
    (hact : diffs.map Diff.action = batched limit expect expect) :
    diffs.length = expect.length := by
  obtain ⟨as, has⟩ :=
    @batched_start limit expect expect hlimit _ (Nat.le_refl _) (Nat.le_refl _) rfl
  have ho := h.length_orig
  have hu := h.length_updated
  rw [hact, has, taken_append, taken_replicate] at ho
  rw [hact, has, given_append, given_replicate] at hu
  obtain rfl : as = [] := eq_nil_of_taken_given (by omega) (by omega)
  rw [← List.length_map Diff.action, hact, has]
  simp

/-- A script has an entry for every line, and none without a line. -/
theorem length_bounds (h : Turns expect got diffs) :
    expect.length ≤ diffs.length ∧ got.length ≤ diffs.length ∧
      diffs.length ≤ expect.length + got.length := by
  have h1 := h.length_orig
  have h2 := h.length_updated
  have h3 := length_le_taken_add_given (diffs.map Diff.action)
  rw [List.length_map] at h3
  have h4 : (fromOrig diffs).length ≤ diffs.length := List.length_filter_le _ _
  have h5 : (intoUpdated diffs).length ≤ diffs.length := List.length_filter_le _ _
  rw [length_fromOrig] at h4
  rw [length_intoUpdated] at h5
  omega

theorem le_length_of_take_eq {β : Type} {l l' : List β} {n : ℕ} (h : l.take n = l'.take n)
    (hne : l ≠ l') : n ≤ l.length := by
  by_contra hc
  have hlen := congrArg List.length h
  rw [List.length_take, List.length_take] at hlen
  rw [List.take_of_length_le (by omega), List.take_of_length_le (by omega)] at h
  exact hne h

/-! ## The message -/

/-- The message is empty for equal lists and for no others. -/
def EmptyIffEqual (limit : ℕ) (expect got : StringsT) : Prop :=
  ∃ msg, (safeDiffMsg expect got limit).Returns msg ∧ (msg = [] ↔ expect = got)

/-- The number of entries the renderer takes the accumulated script to have, as long as it is not
negative. -/
noncomputable def seen (limit : ℕ) (expect got : StringsT) : ℕ :=
  (batched limit expect got).length % 65536

/-- A message is rendered from the entries that are seen. -/
theorem safeDiffMsg_returns (hlimit : 1 ≤ limit)
    (hsize : limit ≤ 8191 ∨ expect.length + got.length ≤ 16383)
    (hseen : seen limit expect got ≤ 32767) :
    ∃ diffs,
      (safeDiffMsg expect got limit).Returns (rendered (diffs.take (seen limit expect got))) ∧
      Turns expect got diffs ∧ diffs.map Diff.action = batched limit expect got := by
  obtain ⟨diffs, hret, hturns, hact⟩ := safeDiffMsgHelper_wp hlimit hsize
  have hlen : diffs.length = (batched limit expect got).length := by rw [← hact, List.length_map]
  refine ⟨diffs, Run.returns_bind.mpr ⟨diffs, hret, toString_returns ?_⟩, hturns, hact⟩
  rw [seen] at *
  rw [toIndexT]
  omega

/-- If the number of entries seen is negative, there is no message. -/
theorem not_returns_safeDiffMsg (hlimit : 1 ≤ limit)
    (hsize : limit ≤ 8191 ∨ expect.length + got.length ≤ 16383)
    (hseen : 32767 < seen limit expect got) (msg : Str) :
    ¬ (safeDiffMsg expect got limit).Returns msg := by
  obtain ⟨diffs, hret, -, hact⟩ := safeDiffMsgHelper_wp hlimit hsize
  have hlen : diffs.length = (batched limit expect got).length := by rw [← hact, List.length_map]
  intro h
  obtain ⟨diffs', hret', hmsg⟩ := Run.returns_bind.mp h
  obtain rfl := hret.unique hret'
  refine not_returns_toString ?_ msg hmsg
  rw [seen] at hseen
  rw [toIndexT]
  omega

/-- What the entries that are seen say. -/
theorem rendered_seen_eq_nil (hlimit : 1 ≤ limit) (h : Turns expect got diffs)
    (hact : diffs.map Diff.action = batched limit expect got) :
    rendered (diffs.take (seen limit expect got)) = [] ↔
      seen limit expect got ≤ expect.length ∧ seen limit expect got ≤ got.length ∧
        expect.take (seen limit expect got) = got.take (seen limit expect got) := by
  have hlen : diffs.length = (batched limit expect got).length := by rw [← hact, List.length_map]
  rw [rendered_eq_nil, front_eq_iff hlimit h hact]
  rw [seen, hlen]
  exact Nat.mod_le _ _

theorem emptyIffEqual_iff (hlimit : 1 ≤ limit)
    (hsize : limit ≤ 8191 ∨ expect.length + got.length ≤ 16383) :
    EmptyIffEqual limit expect got ↔
      seen limit expect got ≤ 32767 ∧
        (expect ≠ got →
          expect.take (seen limit expect got) ≠ got.take (seen limit expect got)) := by
  rcases Nat.lt_or_ge 32767 (seen limit expect got) with hneg | hpos
  · refine iff_of_false ?_ fun h ↦ absurd h.1 (by omega)
    rintro ⟨msg, hret, -⟩
    exact not_returns_safeDiffMsg hlimit hsize hneg msg hret
  obtain ⟨diffs, hret, hturns, hact⟩ := safeDiffMsg_returns hlimit hsize hpos
  have hnil := rendered_seen_eq_nil hlimit hturns hact
  have hiff : EmptyIffEqual limit expect got ↔
      (rendered (diffs.take (seen limit expect got)) = [] ↔ expect = got) :=
    ⟨by rintro ⟨msg, hmsg, h⟩; exact hret.unique hmsg ▸ h, fun h ↦ ⟨_, hret, h⟩⟩
  rw [hiff, hnil, and_iff_right hpos]
  by_cases heq : expect = got
  · subst heq
    have hle : seen limit expect expect ≤ expect.length := by
      rw [seen, ← hact, List.length_map, length_of_self hlimit hturns hact]
      exact Nat.mod_le _ _
    simp [hle]
  · simp only [heq, iff_false, ne_eq, not_false_eq_true, true_imp_iff]
    exact not_congr ⟨fun h ↦ h.2.2,
      fun h ↦ ⟨le_length_of_take_eq h heq, le_length_of_take_eq h.symm (Ne.symm heq), h⟩⟩

/-- Scripts of up to 32767 lines in total are seen in full. -/
theorem emptyIffEqual_of_le (hlimit : 1 ≤ limit)
    (hsize : limit ≤ 8191 ∨ expect.length + got.length ≤ 16383)
    (hle : expect.length + got.length ≤ 32767) : EmptyIffEqual limit expect got := by
  obtain ⟨diffs, -, hturns, hact⟩ := safeDiffMsgHelper_wp hlimit hsize
  have hlen := length_bounds hturns
  have hseen : seen limit expect got = diffs.length := by
    rw [seen, ← hact, List.length_map, Nat.mod_eq_of_lt (by omega)]
  rw [emptyIffEqual_iff hlimit hsize, hseen, List.take_of_length_le (by omega),
    List.take_of_length_le (by omega)]
  exact ⟨by omega, id⟩

/-- **When batching tells equal lists from others**: exactly when the script is not so long that its
length becomes a negative `IndexT`, and lists that differ do so among the lines the renderer gets to
see. -/
theorem emptyIffEqual_batched_iff (limit : ℕ) (hlimit : 1 ≤ limit) (hlimit' : limit ≤ 8191)
    (expect got : StringsT) :
    EmptyIffEqual limit expect got ↔
      seen limit expect got ≤ 32767 ∧
        (expect ≠ got →
          expect.take (seen limit expect got) ≠ got.take (seen limit expect got)) :=
  emptyIffEqual_iff hlimit (.inl hlimit')

theorem emptyIffEqual_batched_iff_small :
    EmptyIffEqual 2 [['a'], ['b'], ['c']] [['b'], ['c'], ['d']] ↔
      seen 2 [['a'], ['b'], ['c']] [['b'], ['c'], ['d']] ≤ 32767 ∧
        ([['a'], ['b'], ['c']] ≠ [['b'], ['c'], ['d']] →
          List.take (seen 2 [['a'], ['b'], ['c']] [['b'], ['c'], ['d']]) [['a'], ['b'], ['c']] ≠
            List.take (seen 2 [['a'], ['b'], ['c']] [['b'], ['c'], ['d']]) [['b'], ['c'], ['d']]) :=
  emptyIffEqual_batched_iff 2 (by decide) (by decide) [['a'], ['b'], ['c']] [['b'], ['c'], ['d']]

/-- A whole multiple of 65536 deleted lines goes unnoticed. -/
theorem safeDiffMsg_multiple (hlimit : 1 ≤ limit) (hlimit' : limit ≤ 8191)
    (h : expect.length % 65536 = 0) : (safeDiffMsg expect [] limit).Returns [] := by
  obtain ⟨diffs, hret, hturns, hact⟩ := @safeDiffMsgHelper_wp limit expect [] hlimit
    (.inl hlimit')
  have hlen := length_bounds hturns
  have hseen : toIndexT diffs.length = (0 : ℕ) := by
    rw [toIndexT]
    simp only [List.length_nil] at hlen
    omega
  exact Run.returns_bind.mpr ⟨diffs, hret, toString_returns hseen⟩

theorem safeDiffMsg_65536 :
    (safeDiffMsg (List.replicate 65536 ['a']) [] 8191).Returns [] ∧
      ¬ EmptyIffEqual 8191 (List.replicate 65536 ['a']) [] := by
  have hret : (safeDiffMsg (List.replicate 65536 ['a']) [] 8191).Returns [] :=
    safeDiffMsg_multiple (by decide) (by decide) (by rw [List.length_replicate])
  refine ⟨hret, ?_⟩
  rintro ⟨msg, hmsg, h⟩
  have hnil := h.mp (hret.unique hmsg).symm
  have hlen := congrArg List.length hnil
  rw [List.length_replicate] at hlen
  exact absurd hlen (by decide)

end Diff
end Cppkg
