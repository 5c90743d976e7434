import Cppkg.Lib.Custody
import Cppkg.Lib.Steps

/-!
# `estd/config.hpp`: `ConfigEntry`

A `ConfigEntry` owns a piece of data that it knows nothing about, and a function that deletes it.
Moving an entry copies the pointer and takes the function along, so that the entry moved from still
has the pointer but does not delete anything.

The entries of a program have data in custody.  All operations respect that but one: a move
assignment overwrites the function of the entry without calling it.  What an entry owned before it
was assigned to is lost, and `deleted_once_iff` says that nothing else is.
-/

set_option autoImplicit false

namespace Cppkg
namespace Estd

variable {D : Type}

/-- A `ConfigEntry`.  `D` are the functions that delete data. -/
structure ConfigEntry (D : Type) where
  data : ℕ
  /-- What deletes the data, unless it is empty. -/
  deletion : Option D
  deriving DecidableEq, Repr

/-- What the destructor calls: `if (deletion_) { deletion_(data_); }` -/
def ConfigEntry.deletes (e : ConfigEntry D) : Option (D × ℕ) :=
  match e.deletion with
  | some del => some (del, e.data)
  | none => none

theorem ConfigEntry.deletes_eq (e : ConfigEntry D) : e.deletes = e.deletion.map (·, e.data) := by
  unfold ConfigEntry.deletes
  split <;> rename_i h <;> simp [h]

theorem ConfigEntry.deletes_none (data : ℕ) : (⟨data, none⟩ : ConfigEntry D).deletes = none := rfl

/-- All entries, and what they deleted.  Every entry is constructed with data of its own, which is
numbered in the order of that. -/
structure Entries (D : Type) where
  /-- The entries alive, by address. -/
  objects : ℕ → Option (ConfigEntry D)
  /-- How many pieces of data there were. -/
  ndata : ℕ
  /-- The data that an entry was to delete, and with what. -/
  made : List (D × ℕ)
  /-- The calls of functions that delete data, in order. -/
  deletions : List (D × ℕ)

namespace Entries

/-! ## The operations -/

/-- Nothing was ever constructed. -/
def init : Entries D := ⟨fun _ ↦ none, 0, [], []⟩

variable (w : Entries D) (x y : ℕ)

/-- Put an entry, or nothing, at an address. -/
def put (o : Option (ConfigEntry D)) : Entries D :=
  { w with objects := Function.update w.objects x o }

/-- `ConfigEntry x(data, deletion);` where `deletion` may be empty. -/
def construct (deletion : Option D) : Option (Entries D) :=
  match w.objects x with
  | some _ => none
  | none => some { w.put x (some ⟨w.ndata, deletion⟩) with
      ndata := w.ndata + 1
      made := w.made ++ (deletion.map (·, w.ndata)).toList }

/-- `ConfigEntry x(std::move(y));` -/
def moveConstruct : Option (Entries D) :=
  match w.objects x, w.objects y with
  | none, some other =>
    some ((w.put x (some ⟨other.data, other.deletion⟩)).put y (some ⟨other.data, none⟩))
  | _, _ => none

/-- `x = std::move(y);` -/
def moveAssign : Option (Entries D) :=
  match w.objects x, w.objects y with
  | some _, some other =>
    if x = y then some w
    else some ((w.put x (some ⟨other.data, other.deletion⟩)).put y (some ⟨other.data, none⟩))
  | _, _ => none

/-- The end of `x`. -/
def destroy : Option (Entries D) :=
  match w.objects x with
  | some this => some { w.put x none with deletions := w.deletions ++ this.deletes.toList }
  | none => none

/-- An operation on the entries at some addresses. -/
inductive Op (D : Type)
  | construct (x : ℕ) (deletion : Option D)
  | moveConstruct (x y : ℕ)
  | moveAssign (x y : ℕ)
  | destroy (x : ℕ)
  deriving DecidableEq, Repr

/-- Do an operation, if there are such entries. -/
def step : Op D → Option (Entries D)
  | .construct x deletion => w.construct x deletion
  | .moveConstruct x y => w.moveConstruct x y
  | .moveAssign x y => w.moveAssign x y
  | .destroy x => w.destroy x

/-- Where a sequence of operations ends. -/
def run (ops : List (Op D)) : Option (Entries D) := Steps.steps step init ops

/-! ## The entries as a custody -/

/-- What the entries have in custody: the data they are to delete. -/
def custody : Custody ℕ (D × ℕ) where
  slot x := (w.objects x).bind ConfigEntry.deletes
  given := {t | t ∈ w.made}
  released := w.deletions

variable {w x y} {w' : Entries D} {ops : List (Op D)} {op : Op D}

theorem slot_put (o : Option (ConfigEntry D)) :
    (w.put x o).custody.slot = Function.update w.custody.slot x (o.bind ConfigEntry.deletes) := by
  funext z
  simp only [custody, put, Function.update_apply]
  split <;> rfl

theorem custody_construct {deletion : Option D} (h : w.construct x deletion = some w') :
    w.custody.slot x = none ∧ w'.ndata = w.ndata + 1 ∧
      w'.made = w.made ++ (deletion.map (·, w.ndata)).toList ∧
      w'.custody = match deletion with
        | some del => w.custody.give x (del, w.ndata)
        | none => w.custody := by
  unfold construct at h
  split at h
  · cases h
  rename_i hx
  obtain rfl := Option.some.inj h
  have hslot : w.custody.slot x = none := by simp [custody, hx]
  refine ⟨hslot, rfl, rfl, ?_⟩
  cases deletion with
  | some del =>
    refine Custody.ext (slot_put _) ?_ rfl
    ext t
    simp [custody, Custody.give, or_comm]
  | none =>
    refine Custody.ext ((slot_put _).trans ?_) ?_ rfl
    · rw [Option.bind_some, ConfigEntry.deletes_none, ← hslot, Function.update_eq_self]
    · simp [custody]

theorem custody_moveConstruct (h : w.moveConstruct x y = some w') :
    x ≠ y ∧ w.custody.slot x = none ∧ w'.ndata = w.ndata ∧ w'.made = w.made ∧
      w'.custody = w.custody.move x y := by
  unfold moveConstruct at h
  split at h
  · rename_i other hx hy
    obtain rfl := Option.some.inj h
    refine ⟨?_, by simp [custody, hx], rfl, rfl, Custody.ext ?_ rfl rfl⟩
    · rintro rfl
      rw [hx] at hy
      cases hy
    · have hslot : w.custody.slot y = other.deletes := by simp [custody, hy]
      simp only [slot_put, Custody.move, hslot, Option.bind_some, ConfigEntry.deletes_none]
  · cases h

theorem custody_moveAssign (h : w.moveAssign x y = some w') :
    w'.ndata = w.ndata ∧ w'.made = w.made ∧
      w'.custody = if x = y then w.custody else (w.custody.lose x).move x y := by
  unfold moveAssign at h
  split at h
  · rename_i this other hx hy
    split at h <;> (rename_i hxy; obtain rfl := Option.some.inj h)
    · exact ⟨rfl, rfl, (if_pos hxy).symm⟩
    · have hslot : w.custody.slot y = other.deletes := by simp [custody, hy]
      refine ⟨rfl, rfl, ?_⟩
      rw [if_neg hxy]
      refine Custody.ext ?_ rfl rfl
      simp only [slot_put, Custody.move, Custody.lose, Option.bind_some, ConfigEntry.deletes_none,
        Function.update_of_ne (Ne.symm hxy), hslot, Function.update_idem]
  · cases h

theorem custody_destroy (h : w.destroy x = some w') :
    w'.ndata = w.ndata ∧ w'.made = w.made ∧ w'.custody = w.custody.release x := by
  unfold destroy at h
  split at h
  · rename_i this hx
    obtain rfl := Option.some.inj h
    have hthis : w.custody.slot x = this.deletes := by simp [custody, hx]
    refine ⟨rfl, rfl, Custody.ext (slot_put _) rfl ?_⟩
    simp only [Custody.release, hthis]
    rfl
  · cases h

/-! ## Runs -/

/-- A move assignment finds nothing in the entry that it overwrites. -/
def NoOverwrite (w : Entries D) : Op D → Prop
  | .moveAssign x y => x ≠ y → ∀ e ∈ w.objects x, e.deletion = none
  | _ => True

instance (w : Entries D) (op : Op D) : Decidable (w.NoOverwrite op) := by
  cases op <;> unfold NoOverwrite <;> infer_instance

theorem noOverwrite_moveAssign :
    w.NoOverwrite (.moveAssign x y) ↔ (x ≠ y → w.custody.slot x = none) := by
  refine forall_congr' fun _ ↦ ?_
  cases hx : w.objects x <;> simp [custody, hx, ConfigEntry.deletes_eq]

/-- What holds of the entries after any operations. -/
structure Sound (w : Entries D) : Prop where
  custody : w.custody.Sound
  /-- New data is none of the data there was. -/
  fresh : ∀ t ∈ w.made, t.2 < w.ndata

theorem sound_init : (init : Entries D).Sound where
  custody :=
    ⟨fun x y t hx ↦ by simp [Entries.custody, init] at hx, by constructor <;>
      simp [Entries.custody, init, Custody.books]⟩
  fresh := by simp [init]

theorem lost_init : (init : Entries D).custody.books.lost = ∅ := by
  ext t
  simp [Books.lost, custody, init, Custody.books]

/-- **What an operation loses.**  Nothing, but for a move assignment to an entry that owns data. -/
theorem lost_step (h : w.step op = some w') (hw : w.Sound) :
    w'.Sound ∧ (w'.custody.books.lost = ∅ ↔
      w.custody.books.lost = ∅ ∧ w.NoOverwrite op) := by
  obtain ⟨hs, hfresh⟩ := hw
  have hsame : w'.custody.books.lost = w.custody.books.lost → w.NoOverwrite op →
      (w'.custody.books.lost = ∅ ↔ w.custody.books.lost = ∅ ∧ w.NoOverwrite op) :=
    fun hlost hop ↦ by rw [hlost, and_iff_left hop]
  cases op with
  | construct x deletion =>
    obtain ⟨hx, hn, hm, hc⟩ := custody_construct h
    have hfresh' : ∀ t ∈ w'.made, t.2 < w'.ndata := by
      intro t ht
      rw [hm, List.mem_append] at ht
      rcases ht with ht | ht
      · have := hfresh t ht
        omega
      · cases deletion <;> simp_all
    cases deletion with
    | some del =>
      have hnew : (del, w.ndata) ∉ w.custody.given := fun h ↦ Nat.lt_irrefl _ (hfresh _ h)
      exact ⟨⟨hc ▸ hs.give hnew, hfresh'⟩, hsame (by rw [hc, hs.lost_give hx hnew]) trivial⟩
    | none => exact ⟨⟨hc ▸ hs, hfresh'⟩, hsame (by rw [hc]) trivial⟩
  | moveConstruct x y =>
    obtain ⟨hxy, hx, hn, hm, hc⟩ := custody_moveConstruct h
    exact ⟨⟨hc ▸ hs.move hxy hx, by rwa [hn, hm]⟩,
      hsame (by rw [hc, hs.lost_move hxy hx]) trivial⟩
  | moveAssign x y =>
    obtain ⟨hn, hm, hc⟩ := custody_moveAssign h
    split at hc
    · rename_i hxy
      exact ⟨⟨hc ▸ hs, by rwa [hn, hm]⟩, hsame (by rw [hc]) fun hne ↦ absurd hxy hne⟩
    · rename_i hxy
      have hx : (w.custody.lose x).slot x = none := Function.update_self ..
      have hl := hs.lose x
      refine ⟨⟨hc ▸ hl.move hxy hx, by rwa [hn, hm]⟩, ?_⟩
      rw [noOverwrite_moveAssign, hc, hl.lost_move hxy hx, hs.lost_lose, Set.union_empty_iff]
      refine and_congr_right fun _ ↦ ?_
      simp only [Set.eq_empty_iff_forall_notMem, Set.mem_ofPred_eq, ne_eq, hxy,
        not_false_eq_true, true_imp_iff]
      exact Option.eq_none_iff_forall_ne_some.symm
  | destroy x =>
    obtain ⟨hn, hm, hc⟩ := custody_destroy h
    exact ⟨⟨hc ▸ hs.release x, by rwa [hn, hm]⟩, hsame (by rw [hc, hs.lost_release]) trivial⟩

theorem sound_run (h : run ops = some w) : w.Sound :=
  Steps.steps_inv_all (fun _ _ _ hstep hs ↦ (lost_step hstep hs).1) h sound_init

/-- **When data is deleted exactly once.**  When all entries are destroyed, every piece of data was
passed to its function exactly once, exactly if no move assignment overwrote an entry that still
owned some. -/
theorem deleted_once_iff [DecidableEq D] {ops : List (Op D)} {w : Entries D} (h : run ops = some w)
    (hend : ∀ x, w.objects x = none) :
    (∀ t ∈ w.made, w.deletions.count t = 1) ↔ Steps.Meets step NoOverwrite init ops := by
  have hhonest := (sound_run h).custody.honest
  have hheld : ∀ t, t ∉ w.custody.books.held := by
    rintro t ⟨x, hx⟩
    simp [custody, hend x] at hx
  have hlost : (∀ t ∈ w.made, w.deletions.count t = 1) ↔ w.custody.books.lost = ∅ := by
    constructor
    · intro hone
      refine Set.eq_empty_iff_forall_notMem.mpr ?_
      rintro t ⟨hgiven, -, hnot⟩
      have hzero : w.deletions.count t = 0 := List.count_eq_zero.mpr hnot
      have := hone t hgiven
      omega
    · exact fun hnone t ht ↦ hhonest.count_dropped hnone ht (hheld t)
  rw [hlost, Steps.meets_iff_end (fun _ _ _ _ hstep hs ↦ lost_step hstep hs) h sound_init]
  exact and_iff_right lost_init

/-- An entry that was moved from may be assigned to. -/
theorem deleted_once_iff_small :
    ∃ w : Entries Unit, run [.construct 0 (some ()), .moveConstruct 1 0, .construct 2 (some ()),
        .moveAssign 0 2, .moveAssign 0 0, .destroy 2, .destroy 1, .destroy 0] = some w ∧
      ∀ t ∈ w.made, w.deletions.count t = 1 := by
  refine ⟨_, rfl, ?_⟩
  refine (@deleted_once_iff Unit _ [.construct 0 (some ()), .moveConstruct 1 0,
    .construct 2 (some ()), .moveAssign 0 2, .moveAssign 0 0, .destroy 2, .destroy 1, .destroy 0] _
    rfl fun x ↦ ?_).mpr (by decide)
  simp only [put, init, Function.update_apply]
  repeat' split
  all_goals rfl

/-- Two entries, the second moved onto the first: the data of the first is never deleted. -/
theorem not_deleted_once :
    ¬ ∀ (ops : List (Op Unit)) (w : Entries Unit), run ops = some w →
      (∀ x, w.objects x = none) → ∀ t ∈ w.made, w.deletions.count t = 1 := by
  intro h
  have := h [.construct 0 (some ()), .construct 1 (some ()), .moveAssign 0 1, .destroy 0,
    .destroy 1] _ rfl (fun x ↦ by
      simp only [put, init, Function.update_apply]
      repeat' split
      all_goals rfl) ((), 0) (by decide)
  exact absurd this (by decide)

end Entries
end Estd
end Cppkg
