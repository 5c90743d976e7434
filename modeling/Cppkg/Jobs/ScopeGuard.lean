import Cppkg.Lib.Custody
import Cppkg.Lib.Steps

/-!
# `jobs/scope_guard.hpp`

A `ScopeGuard` holds a function, and calls it when it is destroyed or when another guard is moved
into it.  A guard can be moved but not copied, and moving takes the function along.

The guards of a program have functions in custody, and `custody_construct` and its siblings say what
each operation does to it.  So every function is called exactly once, by the last guard that had it.
-/

set_option autoImplicit false

namespace Cppkg
namespace Jobs

/-- A `ScopeGuard`: its function, unless that is empty. -/
structure ScopeGuard where
  term : Option ℕ
  deriving DecidableEq, Repr

/-- All guards, and what they called.  Functions are numbered in the order they are given to a
guard; that each gets a number of its own is not a matter of what it does. -/
structure Guards where
  /-- The guards alive, by address. -/
  objects : ℕ → Option ScopeGuard
  /-- How many functions that are not empty were given to a guard. -/
  given : ℕ
  /-- The functions that were called, in order. -/
  executed : List ℕ

namespace Guards

/-! ## The operations -/

/-- Nothing was ever constructed. -/
def init : Guards := ⟨fun _ ↦ none, 0, []⟩

variable (w : Guards) (x y : ℕ)

/-- Put a guard, or nothing, at an address. -/
def put (o : Option ScopeGuard) : Guards := { w with objects := Function.update w.objects x o }

/-- `if (term_) { term_(); }`.  A function is taken to return; one that throws would leave a move
assignment half done, and would end the program in a destructor. -/
def callTerm (g : ScopeGuard) : Guards :=
  match g.term with
  | some f => { w with executed := w.executed ++ [f] }
  | none => w

/-- `ScopeGuard x(f);` where `f` may be empty. -/
def construct (empty : Bool) : Option Guards :=
  match w.objects x with
  | some _ => none
  | none =>
    if empty = true then some (w.put x (some ⟨none⟩))
    else some { w.put x (some ⟨some w.given⟩) with given := w.given + 1 }

/-- `ScopeGuard x(std::move(y));` -/
def moveConstruct : Option Guards :=
  match w.objects x, w.objects y with
  | none, some other => some ((w.put x (some ⟨other.term⟩)).put y (some ⟨none⟩))
  | _, _ => none

/-- `x = std::move(y);` -/
def moveAssign : Option Guards :=
  match w.objects x, w.objects y with
  | some this, some other =>
    if x = y then some w
    else some (((w.callTerm this).put x (some ⟨other.term⟩)).put y (some ⟨none⟩))
  | _, _ => none

/-- The end of `x`. -/
def destroy : Option Guards :=
  match w.objects x with
  | some this => some ((w.callTerm this).put x none)
  | none => none

/-- An operation on the guards at some addresses. -/
inductive Op
  | construct (x : ℕ) (empty : Bool)
  | moveConstruct (x y : ℕ)
  | moveAssign (x y : ℕ)
  | destroy (x : ℕ)
  deriving DecidableEq, Repr

/-- Do an operation, if there are such guards. -/
def step : Op → Option Guards
  | .construct x empty => w.construct x empty
  | .moveConstruct x y => w.moveConstruct x y
  | .moveAssign x y => w.moveAssign x y
  | .destroy x => w.destroy x

/-- Where a sequence of operations ends. -/
def run (ops : List Op) : Option Guards := Steps.steps step init ops

/-! ## The guards as a custody -/

/-- The guard at `x` holds the function `f`. -/
def Holds (f : ℕ) : Prop := w.objects x = some ⟨some f⟩

/-- What the guards have in custody. -/
def custody : Custody ℕ ℕ where
  slot x := (w.objects x).bind ScopeGuard.term
  given := {f | f < w.given}
  released := w.executed

variable {w x y} {w' : Guards} {g : ScopeGuard} {ops : List Op} {op : Op}

theorem slot_put (o : Option ScopeGuard) :
    (w.put x o).custody.slot = Function.update w.custody.slot x (o.bind ScopeGuard.term) := by
  funext z
  simp only [custody, put, Function.update_apply]
  split <;> rfl

theorem holds_iff {f : ℕ} : w.Holds x f ↔ w.custody.slot x = some f := by
  simp only [Holds, custody, Option.bind_eq_some_iff]
  constructor
  · exact fun h ↦ ⟨_, h, rfl⟩
  · rintro ⟨⟨term⟩, h, rfl⟩
    exact h

theorem callTerm_eq (g : ScopeGuard) :
    w.callTerm g = { w with executed := w.executed ++ g.term.toList } := by
  unfold callTerm
  split <;> rename_i h <;> simp [h]

theorem custody_construct {empty : Bool} (h : w.construct x empty = some w') :
    w.custody.slot x = none ∧
      w'.custody = if empty = true then w.custody else w.custody.give x w.given := by
  unfold construct at h
  split at h
  · cases h
  rename_i hx
  have hslot : w.custody.slot x = none := by simp [custody, hx]
  refine ⟨hslot, ?_⟩
  split at h <;> (rename_i he; obtain rfl := Option.some.inj h)
  · rw [if_pos he]
    refine Custody.ext ?_ rfl rfl
    rw [slot_put, Option.bind_some, ← hslot, Function.update_eq_self]
  · rw [if_neg he]
    refine Custody.ext (slot_put _) ?_ rfl
    ext f
    simp only [custody, Custody.give, put, Set.mem_insert_iff, Set.mem_ofPred_eq]
    omega

theorem custody_moveConstruct (h : w.moveConstruct x y = some w') :
    x ≠ y ∧ w.custody.slot x = none ∧ w'.custody = w.custody.move x y := by
  unfold moveConstruct at h
  split at h
  · rename_i other hx hy
    obtain rfl := Option.some.inj h
    refine ⟨?_, by simp [custody, hx], Custody.ext ?_ rfl rfl⟩
    · rintro rfl
      rw [hx] at hy
      cases hy
    · have hslot : w.custody.slot y = other.term := by simp [custody, hy]
      simp only [slot_put, Custody.move, hslot, Option.bind_some]
  · cases h

theorem custody_moveAssign (h : w.moveAssign x y = some w') :
    w'.custody = if x = y then w.custody else (w.custody.release x).move x y := by
  unfold moveAssign at h
  split at h
  · rename_i this other hx hy
    split at h <;> (rename_i hxy; obtain rfl := Option.some.inj h)
    · rw [if_pos hxy]
    · have hslot : w.custody.slot y = other.term := by simp [custody, hy]
      have hthis : w.custody.slot x = this.term := by simp [custody, hx]
      rw [if_neg hxy, callTerm_eq]
      refine Custody.ext ?_ rfl (by simp [Custody.release, Custody.move, hthis]; rfl)
      simp only [slot_put, Custody.move, Custody.release, Option.bind_some,
        Function.update_of_ne (Ne.symm hxy), hslot, Function.update_idem]
      rfl
  · cases h

theorem custody_destroy (h : w.destroy x = some w') : w'.custody = w.custody.release x := by
  unfold destroy at h
  split at h
  · rename_i this hx
    obtain rfl := Option.some.inj h
    have hthis : w.custody.slot x = this.term := by simp [custody, hx]
    rw [callTerm_eq]
    refine Custody.ext (slot_put _) rfl ?_
    simp only [Custody.release, hthis]
    rfl
  · cases h

/-- What holds of the guards after any operations. -/
structure Lawful (w : Guards) : Prop where
  sound : w.custody.Sound
  lost : w.custody.books.lost = ∅

theorem lawful_init : init.Lawful where
  sound :=
    ⟨fun x y f hx ↦ by simp [custody, init] at hx, by constructor <;>
      simp [custody, init, Custody.books]⟩
  lost := by
    ext f
    simp [Books.lost, custody, init, Custody.books]

/-- **Every operation keeps the law of custody.** -/
theorem lawful_step (h : w.step op = some w') (hw : w.Lawful) : w'.Lawful := by
  obtain ⟨hs, hl⟩ := hw
  have hfresh : w.given ∉ w.custody.given := Nat.lt_irrefl w.given
  cases op with
  | construct x empty =>
    obtain ⟨hx, hc⟩ := custody_construct h
    cases empty with
    | true => exact ⟨hc ▸ hs, by rw [hc]; exact hl⟩
    | false => exact ⟨hc ▸ hs.give hfresh, by rw [hc]; exact (hs.lost_give hx hfresh).trans hl⟩
  | moveConstruct x y =>
    obtain ⟨hxy, hx, hc⟩ := custody_moveConstruct h
    exact ⟨hc ▸ hs.move hxy hx, by rw [hc, hs.lost_move hxy hx, hl]⟩
  | moveAssign x y =>
    have hc := custody_moveAssign h
    split at hc
    · exact ⟨hc ▸ hs, by rw [hc, hl]⟩
    · rename_i hxy
      have hx : (w.custody.release x).slot x = none := Function.update_self ..
      have hr := hs.release x
      exact ⟨hc ▸ hr.move hxy hx, by rw [hc, hr.lost_move hxy hx, hs.lost_release, hl]⟩
  | destroy x =>
    have hc := custody_destroy h
    exact ⟨hc ▸ hs.release x, by rw [hc, hs.lost_release, hl]⟩

theorem lawful_of_run (h : run ops = some w) : w.Lawful :=
  Steps.steps_inv_all (fun _ _ _ ↦ lawful_step) h lawful_init

/-- **Every function is called exactly once**, whatever is done with the guards: it is not called
while a guard holds it, and once when none does any more, so that all functions were called when all
guards are destroyed.  Moving onto another guard calls what that one holds. -/
theorem executed_once {ops : List Op} {w : Guards} (h : run ops = some w) :
    (∀ x f, w.Holds x f → w.executed.count f = 0) ∧
      (∀ f < w.given, (∀ x, ¬ w.Holds x f) → w.executed.count f = 1) ∧
      ((∀ x, w.objects x = none) → ∀ f < w.given, w.executed.count f = 1) ∧
      (∀ f ∈ w.executed, f < w.given) ∧
      ∀ x y f w', x ≠ y → w.Holds x f → w.step (.moveAssign x y) = some w' →
        w'.executed = w.executed ++ [f] := by
  obtain ⟨⟨-, hhonest⟩, hlost⟩ := lawful_of_run h
  have hdropped : ∀ f < w.given, (∀ x, ¬ w.Holds x f) → w.executed.count f = 1 := by
    intro f hf hnone
    refine hhonest.count_dropped hlost hf ?_
    rintro ⟨x, hx⟩
    exact hnone x (holds_iff.mpr hx)
  refine ⟨fun x f hx ↦ hhonest.count_held ⟨x, holds_iff.mp hx⟩, hdropped, fun hnone f hf ↦ ?_,
    hhonest.released_given, fun x y f w' hxy hx hstep ↦ ?_⟩
  · refine hdropped f hf fun x hx ↦ ?_
    rw [Holds, hnone x] at hx
    cases hx
  · have hc := custody_moveAssign hstep
    rw [if_neg hxy] at hc
    have hrel : w'.executed = w.executed ++ (w.custody.slot x).toList :=
      congrArg Custody.released hc
    rw [hrel, holds_iff.mp hx, Option.toList_some]

/-- Two functions: the first is moved on, and called when its guard is overwritten with the other's,
the second when the guards end. -/
theorem executed_once_two :
    ∃ w, run [.construct 0 false, .moveConstruct 1 0, .construct 2 false, .moveAssign 1 1,
        .moveAssign 1 2, .destroy 2, .destroy 1, .destroy 0] = some w ∧
      w.given = 2 ∧ w.executed = [0, 1] ∧ ∀ f < w.given, w.executed.count f = 1 := by
  refine ⟨_, rfl, rfl, rfl, fun f hf ↦ ?_⟩
  refine (@executed_once [.construct 0 false, .moveConstruct 1 0, .construct 2 false,
    .moveAssign 1 1, .moveAssign 1 2, .destroy 2, .destroy 1, .destroy 0] _ rfl).2.2.1 (fun x ↦ ?_)
    f hf
  simp only [put, callTerm, init, Function.update_apply]
  repeat' split
  all_goals rfl

end Guards
end Jobs
end Cppkg
