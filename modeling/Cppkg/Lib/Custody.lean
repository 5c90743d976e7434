import Mathlib.Data.List.Nodup
import Mathlib.Data.Set.Insert
import Mathlib.Logic.Function.Basic
import Mathlib.Tactic.Common

/-!
# Things in custody

Things are given to holders, which pass them on, share them and drop them.  A thing is to be
released — executed, deleted, handed back — exactly once, and that when its last holder drops it.

`Books` keep account of what was given, of what some holder has, and of what was released.  They are
`Honest` if nothing is released twice, or while a holder has it; what was dropped without being
released is `lost`.  `Entry` is what an operation does to the books: it keeps them honest, and
`lost_entry` says what is lost by it.

`Custody` is for holders that have room for one thing each and share nothing.  There are four things
that can happen to them: `give`, `move`, `release` and `lose`.
-/

set_option autoImplicit false

/-! ## Books -/

/-- The books of a custody. -/
structure Books (τ : Type) where
  /-- What was given to a holder at some time. -/
  given : Set τ
  /-- What some holder has. -/
  held : Set τ
  /-- What was released, in order. -/
  released : List τ

namespace Books

variable {τ : Type} {b b' : Books τ} {rel : List τ} {t : τ}

/-- Nothing is released twice, or while a holder has it. -/
structure Honest (b : Books τ) : Prop where
  held_given : ∀ t ∈ b.held, t ∈ b.given
  nodup : b.released.Nodup
  released_given : ∀ t ∈ b.released, t ∈ b.given
  not_held : ∀ t ∈ b.released, t ∉ b.held

/-- What nobody has, and what was not released. -/
def lost (b : Books τ) : Set τ := {t | t ∈ b.given ∧ t ∉ b.held ∧ t ∉ b.released}

/-- What is held is not released yet. -/
theorem Honest.count_held [BEq τ] [LawfulBEq τ] (hb : b.Honest) (ht : t ∈ b.held) :
    b.released.count t = 0 :=
  List.count_eq_zero.mpr fun h ↦ hb.not_held t h ht

/-- **If nothing is lost, what is not held was released exactly once.** -/
theorem Honest.count_dropped [BEq τ] [LawfulBEq τ] (hb : b.Honest) (hlost : b.lost = ∅)
    (ht : t ∈ b.given) (hheld : t ∉ b.held) : b.released.count t = 1 := by
  refine List.count_eq_one_of_mem hb.nodup ?_
  by_contra h
  have hmem : t ∈ b.lost := ⟨ht, hheld, h⟩
  rw [hlost] at hmem
  exact hmem

/-- What no holder has after the change to `b'`, though one had it or it was just given. -/
def dropped (b b' : Books τ) : Set τ := (b.held ∪ (b'.given \ b.given)) \ b'.held

/-- What an operation does to the books: it releases `rel`, which it dropped. -/
structure Entry (b b' : Books τ) (rel : List τ) : Prop where
  released : b'.released = b.released ++ rel
  given : b.given ⊆ b'.given
  /-- What is held was held before, or was just given. -/
  held : b'.held ⊆ b.held ∪ (b'.given \ b.given)
  nodup : rel.Nodup
  rel_dropped : ∀ t ∈ rel, t ∈ b.dropped b'

/-- **Honest books stay honest.** -/
theorem Honest.entry (hb : b.Honest) (h : Entry b b' rel) : b'.Honest where
  held_given t ht := by
    rcases h.held ht with h' | h'
    · exact h.given (hb.held_given t h')
    · exact h'.1
  nodup := by
    rw [h.released]
    refine List.nodup_append.mpr ⟨hb.nodup, h.nodup, ?_⟩
    rintro t ht u hu rfl
    rcases (h.rel_dropped t hu).1 with h' | h'
    · exact hb.not_held t ht h'
    · exact h'.2 (hb.released_given t ht)
  released_given t ht := by
    rw [h.released] at ht
    rcases List.mem_append.mp ht with ht | ht
    · exact h.given (hb.released_given t ht)
    · rcases (h.rel_dropped t ht).1 with h' | h'
      · exact h.given (hb.held_given t h')
      · exact h'.1
  not_held t ht hheld := by
    rw [h.released] at ht
    rcases List.mem_append.mp ht with ht | ht
    · rcases h.held hheld with h' | h'
      · exact hb.not_held t ht h'
      · exact h'.2 (hb.released_given t ht)
    · exact (h.rel_dropped t ht).2 hheld

/-- **What an operation loses** is what it drops and does not release; and what is lost stays so. -/
theorem Honest.lost_entry (hb : b.Honest) (h : Entry b b' rel) :
    b'.lost = b.lost ∪ {t | t ∈ b.dropped b' ∧ t ∉ rel} := by
  ext t
  constructor
  · rintro ⟨hgiven, hheld, hrel⟩
    rw [h.released, List.mem_append, not_or] at hrel
    by_cases hold : t ∈ b.given
    · by_cases hh : t ∈ b.held
      · exact .inr ⟨⟨.inl hh, hheld⟩, hrel.2⟩
      · exact .inl ⟨hold, hh, hrel.1⟩
    · exact .inr ⟨⟨.inr ⟨hgiven, hold⟩, hheld⟩, hrel.2⟩
  · rintro (⟨hgiven, hheld, hrel⟩ | ⟨⟨hwas, hheld⟩, hrel⟩)
    · have hnot : ¬ (t ∈ b.held ∨ t ∈ b'.given \ b.given) :=
        not_or.mpr ⟨hheld, fun h' ↦ h'.2 hgiven⟩
      refine ⟨h.given hgiven, fun h' ↦ hnot (h.held h'), ?_⟩
      rw [h.released, List.mem_append, not_or]
      exact ⟨hrel, fun h' ↦ hnot (h.rel_dropped t h').1⟩
    · refine ⟨hwas.elim (fun h' ↦ h.given (hb.held_given t h')) And.left, hheld, ?_⟩
      rw [h.released, List.mem_append, not_or]
      refine ⟨fun h' ↦ ?_, hrel⟩
      rcases hwas with hw | hw
      · exact hb.not_held t h' hw
      · exact hw.2 (hb.released_given t h')

/-- An operation that releases what it drops loses nothing. -/
theorem Honest.lost_entry_eq (hb : b.Honest) (h : Entry b b' rel)
    (hrel : ∀ t ∈ b.dropped b', t ∈ rel) : b'.lost = b.lost := by
  rw [hb.lost_entry h, Set.union_eq_left]
  exact fun t ht ↦ absurd (hrel t ht.1) ht.2

end Books

/-! ## Holders of one thing -/

/-- Holders with room for one thing each. -/
@[ext] structure Custody (ι τ : Type) where
  /-- What each holder has. -/
  slot : ι → Option τ
  given : Set τ
  released : List τ

namespace Custody

variable {ι τ : Type} [DecidableEq ι] {c : Custody ι τ} {i j : ι} {t : τ}

/-- Its books. -/
def books (c : Custody ι τ) : Books τ := ⟨c.given, {t | ∃ i, c.slot i = some t}, c.released⟩

/-- Nothing is shared, and the books are honest. -/
structure Sound (c : Custody ι τ) : Prop where
  sole : ∀ i j t, c.slot i = some t → c.slot j = some t → i = j
  honest : c.books.Honest

/-- A thing is given to a holder. -/
def give (c : Custody ι τ) (i : ι) (t : τ) : Custody ι τ :=
  ⟨Function.update c.slot i (some t), insert t c.given, c.released⟩

/-- Holder `i` gets what `j` has. -/
def move (c : Custody ι τ) (i j : ι) : Custody ι τ :=
  { c with slot := Function.update (Function.update c.slot i (c.slot j)) j none }

/-- What a holder has is released. -/
def release (c : Custody ι τ) (i : ι) : Custody ι τ :=
  ⟨Function.update c.slot i none, c.given, c.released ++ (c.slot i).toList⟩

/-- What a holder has is forgotten. -/
def lose (c : Custody ι τ) (i : ι) : Custody ι τ :=
  { c with slot := Function.update c.slot i none }

theorem slot_move (k : ι) :
    (c.move i j).slot k = if k = j then none else if k = i then c.slot j else c.slot k := by
  simp only [move, Function.update_apply]

/-- Moving a thing neither gives nor drops one. -/
theorem held_move (hij : i ≠ j) (hi : c.slot i = none) :
    (c.move i j).books.held = c.books.held := by
  ext t
  simp only [books, Set.mem_ofPred_eq, slot_move]
  constructor
  · rintro ⟨k, hk⟩
    split at hk
    · simp at hk
    split at hk
    · exact ⟨j, hk⟩
    · exact ⟨k, hk⟩
  · rintro ⟨k, hk⟩
    by_cases hkj : k = j
    · subst hkj
      exact ⟨i, by simpa [hij] using hk⟩
    · have hki : k ≠ i := by
        rintro rfl
        simp [hi] at hk
      exact ⟨k, by simpa [hkj, hki] using hk⟩

/-- Emptying a slot drops what was in it, … -/
theorem Sound.held_lose (hc : c.Sound) (i : ι) :
    (c.lose i).books.held = {t | t ∈ c.books.held ∧ c.slot i ≠ some t} := by
  ext t
  simp only [books, lose, Set.mem_ofPred_eq, Function.update_apply]
  constructor
  · rintro ⟨k, hk⟩
    split at hk
    · simp at hk
    · rename_i hki
      exact ⟨⟨k, hk⟩, fun hi ↦ hki (hc.sole k i t hk hi)⟩
  · rintro ⟨⟨k, hk⟩, hi⟩
    have hki : k ≠ i := by
      rintro rfl
      exact hi hk
    exact ⟨k, by rw [if_neg hki]; exact hk⟩

/-- … and nothing else. -/
theorem Sound.dropped_lose (hc : c.Sound) (i : ι) :
    c.books.dropped (c.lose i).books = {t | c.slot i = some t} := by
  ext t
  simp only [Books.dropped, hc.held_lose, Set.mem_sdiff, Set.mem_union, Set.mem_ofPred_eq, not_and,
    not_not]
  constructor
  · rintro ⟨h | h, h'⟩
    · exact h' h
    · exact absurd h.1 h.2
  · exact fun h ↦ ⟨.inl ⟨i, h⟩, fun _ ↦ h⟩

theorem entry_give (ht : t ∉ c.given) :
    Books.Entry c.books (c.give i t).books [] where
  released := (List.append_nil _).symm
  given := Set.subset_insert t c.given
  held := by
    rintro u ⟨k, hk⟩
    simp only [give, Function.update_apply] at hk
    split at hk
    · obtain rfl := Option.some.inj hk
      exact .inr ⟨Set.mem_insert _ _, ht⟩
    · exact .inl ⟨k, hk⟩
  nodup := List.nodup_nil
  rel_dropped := by simp

theorem Sound.give (hc : c.Sound) (ht : t ∉ c.given) : (c.give i t).Sound where
  sole j k u hj hk := by
    have hnew : ∀ k, c.slot k ≠ some t := fun k hk ↦ ht (hc.honest.held_given t ⟨k, hk⟩)
    simp only [Custody.give, Function.update_apply] at hj hk
    split at hj <;> split at hk
    · rename_i h1 h2
      rw [h1, h2]
    · obtain rfl := Option.some.inj hj
      exact absurd hk (hnew k)
    · obtain rfl := Option.some.inj hk
      exact absurd hj (hnew j)
    · exact hc.sole j k u hj hk
  honest := hc.honest.entry (entry_give ht)

/-- Giving loses nothing. -/
theorem Sound.lost_give (hc : c.Sound) (hi : c.slot i = none) (ht : t ∉ c.given) :
    (c.give i t).books.lost = c.books.lost := by
  refine hc.honest.lost_entry_eq (entry_give ht) fun u ⟨hu, hheld⟩ ↦ absurd ?_ hheld
  have hold : ∀ k, c.slot k = some u → (c.give i t).slot k = some u := by
    intro k hk
    have hki : k ≠ i := by
      rintro rfl
      simp [hi] at hk
    simp only [Custody.give, Function.update_of_ne hki]
    exact hk
  rcases hu with ⟨k, hk⟩ | ⟨hu, hnot⟩
  · exact ⟨k, hold k hk⟩
  · obtain rfl | hu := hu
    · exact ⟨i, Function.update_self ..⟩
    · exact absurd hu hnot

theorem entry_move (hij : i ≠ j) (hi : c.slot i = none) :
    Books.Entry c.books (c.move i j).books [] where
  released := (List.append_nil _).symm
  given := le_refl c.given
  held := by
    rw [held_move hij hi]
    exact Set.subset_union_left
  nodup := List.nodup_nil
  rel_dropped := by simp

theorem Sound.move (hc : c.Sound) (hij : i ≠ j) (hi : c.slot i = none) : (c.move i j).Sound where
  sole k l u hk hl := by
    rw [slot_move] at hk hl
    split at hk
    · simp at hk
    split at hl
    · simp at hl
    rename_i hkj hlj
    split at hk <;> split at hl
    · rename_i h1 h2
      rw [h1, h2]
    · exact absurd (hc.sole _ _ u hk hl).symm hlj
    · exact absurd (hc.sole _ _ u hk hl) hkj
    · exact hc.sole k l u hk hl
  honest := hc.honest.entry (entry_move hij hi)

/-- Moving loses nothing. -/
theorem Sound.lost_move (hc : c.Sound) (hij : i ≠ j) (hi : c.slot i = none) :
    (c.move i j).books.lost = c.books.lost := by
  refine hc.honest.lost_entry_eq (entry_move hij hi) fun u ⟨hu, hheld⟩ ↦ absurd ?_ hheld
  rw [held_move hij hi]
  rcases hu with h | h
  · exact h
  · exact absurd h.1 h.2

theorem Sound.entry_release (hc : c.Sound) (i : ι) :
    Books.Entry c.books (c.release i).books (c.slot i).toList where
  released := rfl
  given := le_refl c.given
  held := by
    have h := hc.held_lose i
    exact fun u hu ↦ .inl (h.le hu).1
  nodup := by cases c.slot i <;> simp
  rel_dropped u hu := by
    have h := hc.dropped_lose i
    exact h.ge (Option.mem_toList.mp hu)

theorem Sound.entry_lose (hc : c.Sound) (i : ι) :
    Books.Entry c.books (c.lose i).books [] where
  released := (List.append_nil _).symm
  given := le_refl c.given
  held := fun u hu ↦ .inl ((hc.held_lose i).le hu).1
  nodup := List.nodup_nil
  rel_dropped := by simp

theorem Sound.sole_lose (hc : c.Sound) (i j k : ι) (t : τ)
    (hj : Function.update c.slot i none j = some t)
    (hk : Function.update c.slot i none k = some t) : j = k := by
  rw [Function.update_apply] at hj hk
  split at hj
  · simp at hj
  split at hk
  · simp at hk
  exact hc.sole j k t hj hk

theorem Sound.release (hc : c.Sound) (i : ι) : (c.release i).Sound where
  sole := hc.sole_lose i
  honest := hc.honest.entry (hc.entry_release i)

theorem Sound.lose (hc : c.Sound) (i : ι) : (c.lose i).Sound where
  sole := hc.sole_lose i
  honest := hc.honest.entry (hc.entry_lose i)

/-- Releasing loses nothing. -/
theorem Sound.lost_release (hc : c.Sound) (i : ι) : (c.release i).books.lost = c.books.lost := by
  refine hc.honest.lost_entry_eq (hc.entry_release i) fun u hu ↦ ?_
  have h : u ∈ c.books.dropped (c.lose i).books := hu
  rw [hc.dropped_lose] at h
  exact Option.mem_toList.mpr h

/-- Forgetting loses what the holder had. -/
theorem Sound.lost_lose (hc : c.Sound) (i : ι) :
    (c.lose i).books.lost = c.books.lost ∪ {t | c.slot i = some t} := by
  rw [hc.honest.lost_entry (hc.entry_lose i), hc.dropped_lose]
  simp

end Custody
