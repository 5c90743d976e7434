import Cppkg.Egrpc.Status
import Cppkg.Lib.Steps
import Mathlib.Algebra.BigOperators.Group.List.Basic
import Mathlib.Data.ENat.Lattice

/-!
# A client call that is tried again

An `AsyncClientHandler` starts an attempt when it is created, and is handled when the attempt is
over.  If it failed and there are retries left, the handler creates the next one, which gets the
promise, and one retry less; then it lets go of the promise and deletes itself.  A handler that is
deleted while it still has the promise sets it.

The next handler may be handled, and even deleted, before the one that has created it goes on:
`init_` is called by the constructor.  So `handle` is two steps where it creates a handler.
-/

set_option autoImplicit false

namespace Cppkg
namespace Egrpc

/-- Where a handler is: its attempt goes on; it has created the next handler; it has been
handled. -/
inductive AsyncClientHandler.Phase
  | trying | handingOver | handled
deriving DecidableEq

/-- A handler, and how often it was deleted.  There is one promise, which it has or has not. -/
structure AsyncClientHandler where
  completePromise : Bool
  error : Option String
  nretries : ℕ
  phase : AsyncClientHandler.Phase
  deleted : ℕ
deriving DecidableEq

namespace AsyncClientHandler

/-- All handlers ever created, and what they have done: how often `init_` was called, what `cb_` was
called with, and the values that the promise was set to, each with the handler that did it. -/
structure Client (RES : Type) where
  handlers : List AsyncClientHandler
  inits : ℕ
  received : List RES
  fulfilled : List (ℕ × Option String)
deriving DecidableEq

/-- What can happen: the attempt of the `k`-th handler is over; the `k`-th handler goes on after it
has created the next one. -/
inductive Event
  | handle (k : ℕ)
  | goOn (k : ℕ)

variable {RES : Type}

namespace Client

/-- The constructor, which calls `init_`. -/
def create (s : Client RES) (completePromise : Bool) (nretries : ℕ) : Client RES :=
  { s with
    handlers := s.handlers ++ [⟨completePromise, none, nretries, .trying, 0⟩]
    inits := s.inits + 1 }

/-- `delete this` of the `k`-th handler, which is `h` now. -/
def delete (s : Client RES) (k : ℕ) (h : AsyncClientHandler) : Client RES :=
  { s with
    handlers := s.handlers.set k { h with phase := .handled, deleted := h.deleted + 1 }
    fulfilled := if h.completePromise then s.fulfilled ++ [(k, h.error)] else s.fulfilled }

/-- `handle`, up to where the next handler is created if it is.  `hasCb` is whether there is a
`cb_`, and `outcome` is what the `k`-th attempt leaves in `status_` and `reply_`. -/
def handle (hasCb : Bool) (outcome : ℕ → Status × RES) (s : Client RES) (k : ℕ)
    (h : AsyncClientHandler) : Client RES :=
  if (outcome k).1.ok then
    { s with received := if hasCb then s.received ++ [(outcome k).2] else s.received }.delete k h
  else if h.nretries > 0 then
    { s with handlers := s.handlers.set k { h with phase := .handingOver } }.create
      h.completePromise (h.nretries - 1)
  else s.delete k { h with error := some (outcome k).1.errorMessage }

def step (hasCb : Bool) (outcome : ℕ → Status × RES) (s : Client RES) : Event → Option (Client RES)
  | .handle k => do
    let h ← s.handlers[k]?
    if h.phase = .trying then some (s.handle hasCb outcome k h) else none
  | .goOn k => do
    let h ← s.handlers[k]?
    if h.phase = .handingOver then some (s.delete k { h with completePromise := false }) else none

/-- A client that starts with one handler, which has the promise. -/
def start (nretries : ℕ) : Client RES := create ⟨[], 0, [], []⟩ true nretries

/-- Where the client is after these events. -/
def run (hasCb : Bool) (outcome : ℕ → Status × RES) (nretries : ℕ) (es : List Event) :
    Option (Client RES) :=
  Steps.steps (step hasCb outcome) (start nretries) es

variable {hasCb : Bool} {outcome : ℕ → Status × RES} {nretries : ℕ} {s s' : Client RES} {e : Event}

theorem step_cases (h : s.step hasCb outcome e = some s') :
    ∃ k h, s.handlers[k]? = some h ∧
      ((h.phase = .trying ∧ s' = s.handle hasCb outcome k h) ∨
        (h.phase = .handingOver ∧ s' = s.delete k { h with completePromise := false })) := by
  cases e with
  | handle k =>
    simp only [step, Option.bind_eq_bind, Option.bind_eq_some_iff, Option.ite_none_right_eq_some,
      Option.some.injEq] at h
    obtain ⟨h, hk, hphase, rfl⟩ := h
    exact ⟨k, h, hk, .inl ⟨hphase, rfl⟩⟩
  | goOn k =>
    simp only [step, Option.bind_eq_bind, Option.bind_eq_some_iff, Option.ite_none_right_eq_some,
      Option.some.injEq] at h
    obtain ⟨h, hk, hphase, rfl⟩ := h
    exact ⟨k, h, hk, .inr ⟨hphase, rfl⟩⟩

/-! ## The chain of handlers -/

/-- A handler that has created the next one: it may still have the promise; when it is deleted it
has it no more. -/
inductive HandedOver : AsyncClientHandler → Prop
  | goingOn (nretries : ℕ) : HandedOver ⟨true, none, nretries, .handingOver, 0⟩
  | deleted (nretries : ℕ) : HandedOver ⟨false, none, nretries, .handled, 1⟩

/-- The handler that was created last, after `m` attempts, and what has come of it. -/
inductive Last (hasCb : Bool) (outcome : ℕ → Status × RES) (nretries m : ℕ) :
    AsyncClientHandler → List RES → List (ℕ × Option String) → Prop
  | trying : Last hasCb outcome nretries m ⟨true, none, nretries - m, .trying, 0⟩ [] []
  | succeeded (hok : (outcome m).1.ok = true) : Last hasCb outcome nretries m
      ⟨true, none, nretries - m, .handled, 1⟩ (if hasCb then [(outcome m).2] else []) [(m, none)]
  | failed (hok : (outcome m).1.ok = false) (hm : m = nretries) : Last hasCb outcome nretries m
      ⟨true, some (outcome m).1.errorMessage, nretries - m, .handled, 1⟩ []
      [(m, some (outcome m).1.errorMessage)]

/-- **The chain**: all handlers but the last have handed over, because their attempts failed, and
the budget was enough. -/
def Chained (hasCb : Bool) (outcome : ℕ → Status × RES) (nretries : ℕ) (s : Client RES) : Prop :=
  ∃ front last, s.handlers = front ++ [last] ∧ s.inits = front.length + 1 ∧
    (∀ h ∈ front, HandedOver h) ∧ front.length ≤ nretries ∧
    (∀ k < front.length, (outcome k).1.ok = false) ∧
    Last hasCb outcome nretries front.length last s.received s.fulfilled

theorem chained_start : Chained hasCb outcome nretries (start nretries) :=
  ⟨[], ⟨true, none, nretries, .trying, 0⟩, rfl, rfl, List.forall_mem_nil _, Nat.zero_le _,
    fun _ hk ↦ absurd hk (Nat.not_lt_zero _), .trying⟩

/-- The handler at an index of the chain is one that has handed over, or the last one. -/
theorem getElem?_chain {front : List AsyncClientHandler} {last h : AsyncClientHandler} {k : ℕ}
    (hfront : ∀ h ∈ front, HandedOver h) (hk : (front ++ [last])[k]? = some h) :
    (k < front.length ∧ HandedOver h) ∨ (k = front.length ∧ h = last) := by
  rcases Nat.lt_or_ge k front.length with hlt | hge
  · rw [List.getElem?_append_left hlt] at hk
    exact .inl ⟨hlt, hfront h (List.mem_of_getElem? hk)⟩
  · rw [List.getElem?_append_right hge] at hk
    obtain ⟨hsub, rfl⟩ : k - front.length = 0 ∧ last = h := by
      simpa [List.getElem?_singleton] using hk
    exact .inr ⟨by omega, rfl⟩

theorem set_chain (front : List AsyncClientHandler) (last h : AsyncClientHandler) :
    (front ++ [last]).set front.length h = front ++ [h] := by
  rw [List.set_append_right _ _ (Nat.le_refl _), Nat.sub_self, List.set_cons_zero]

/-- The handler whose attempt is over is the last one.  If there are retries left it hands over to
the next one. -/
theorem chained_handle {k : ℕ} {h : AsyncClientHandler} (hs : Chained hasCb outcome nretries s)
    (hk : s.handlers[k]? = some h) (hphase : h.phase = .trying) :
    Chained hasCb outcome nretries (s.handle hasCb outcome k h) := by
  obtain ⟨handlers, inits, received, fulfilled⟩ := s
  obtain ⟨front, last, rfl, rfl, hfront, hle, hfailed, hlast⟩ := hs
  rcases getElem?_chain hfront hk with ⟨-, hover⟩ | ⟨rfl, rfl⟩
  · cases hover <;> cases hphase
  replace hlast : Last hasCb outcome nretries front.length h received fulfilled := hlast
  cases hlast with
  | succeeded | failed => cases hphase
  | trying =>
    rw [handle]
    cases hok : (outcome front.length).1.ok with
    | true =>
      rw [if_pos rfl]
      refine ⟨front, _, set_chain .., rfl, hfront, hle, hfailed, ?_⟩
      exact .succeeded hok
    | false =>
      rw [if_neg Bool.false_ne_true]
      by_cases hretries : nretries - front.length > 0
      · rw [if_pos hretries]
        refine ⟨front ++ [⟨true, none, nretries - front.length, .handingOver, 0⟩], _,
          congrArg (· ++ _) (set_chain ..), ?_, ?_, ?_, ?_, ?_⟩
        · rw [List.length_append]
          rfl
        · exact List.forall_mem_append.mpr ⟨hfront, List.forall_mem_singleton.mpr (.goingOn _)⟩
        · rw [List.length_append, List.length_singleton]
          omega
        · intro k hk
          rw [List.length_append, List.length_singleton] at hk
          rcases Nat.lt_succ_iff_lt_or_eq.mp hk with hk | rfl
          · exact hfailed k hk
          · exact hok
        · rw [List.length_append, List.length_singleton, Nat.sub_sub]
          exact .trying
      · rw [if_neg hretries]
        refine ⟨front, _, set_chain .., rfl, hfront, hle, hfailed, ?_⟩
        exact .failed hok (by omega)

/-- A handler that goes on lets go of the promise. -/
theorem chained_goOn {k : ℕ} {h : AsyncClientHandler} (hs : Chained hasCb outcome nretries s)
    (hk : s.handlers[k]? = some h) (hphase : h.phase = .handingOver) :
    Chained hasCb outcome nretries (s.delete k { h with completePromise := false }) := by
  obtain ⟨handlers, inits, received, fulfilled⟩ := s
  obtain ⟨front, last, rfl, rfl, hfront, hle, hfailed, hlast⟩ := hs
  rcases getElem?_chain hfront hk with ⟨hlt, hover⟩ | ⟨rfl, rfl⟩
  · cases hover with
    | deleted => cases hphase
    | goingOn retries =>
      have hlen : (front.set k ⟨false, none, retries, .handled, 1⟩).length = front.length :=
        List.length_set
      refine ⟨front.set k ⟨false, none, retries, .handled, 1⟩, last,
        List.set_append_left _ _ hlt, congrArg (· + 1) hlen.symm, ?_, by rwa [hlen],
        by rwa [hlen], by rwa [hlen]⟩
      intro h hh
      rcases List.mem_or_eq_of_mem_set hh with hh | rfl
      · exact hfront h hh
      · exact .deleted retries
  · replace hlast : Last hasCb outcome nretries front.length h received fulfilled := hlast
    cases hlast <;> cases hphase

theorem chained_run {es : List Event} (h : run hasCb outcome nretries es = some s) :
    Chained hasCb outcome nretries s := by
  refine Steps.steps_inv_all ?_ h chained_start
  intro s e s' hstep hs
  obtain ⟨k, h, hk, ⟨hphase, rfl⟩ | ⟨hphase, rfl⟩⟩ := step_cases hstep
  · exact chained_handle hs hk hphase
  · exact chained_goOn hs hk hphase

/-! ## The end of the chain -/

/-- How much can still happen to a handler, and to those that come after it. -/
def remaining (h : AsyncClientHandler) : ℕ :=
  match h.phase with
  | .trying => 2 * h.nretries + 1
  | .handingOver => 1
  | .handled => 0

theorem sum_set_add {ns : List ℕ} {k n : ℕ} (hk : ns[k]? = some n) (m : ℕ) :
    (ns.set k m).sum + n = ns.sum + m := by
  obtain ⟨hlt, rfl⟩ := List.getElem?_eq_some_iff.mp hk
  have hsum := List.sum_take_add_sum_drop ns k
  rw [List.drop_eq_getElem_cons hlt, List.sum_cons] at hsum
  rw [List.sum_set, if_pos hlt]
  omega

theorem remaining_delete {k : ℕ} {h : AsyncClientHandler} (hk : s.handlers[k]? = some h)
    (h' : AsyncClientHandler) : ((s.delete k h').handlers.map remaining).sum + remaining h
      = (s.handlers.map remaining).sum := by
  have hk' : (s.handlers.map remaining)[k]? = some (remaining h) := by simp [hk]
  rw [delete, List.map_set]
  exact sum_set_add hk' 0

/-- Something can happen only so often. -/
theorem remaining_step (hstep : s.step hasCb outcome e = some s') :
    (s'.handlers.map remaining).sum < (s.handlers.map remaining).sum := by
  obtain ⟨k, h, hk, ⟨hphase, rfl⟩ | ⟨hphase, rfl⟩⟩ := step_cases hstep
  · have hremaining : remaining h = 2 * h.nretries + 1 := by rw [remaining, hphase]
    rw [handle]
    split
    · have hdelete := remaining_delete hk h
      have hlt : ((s.delete k h).handlers.map remaining).sum < (s.handlers.map remaining).sum := by
        omega
      exact hlt
    · split
      · have hk' : (s.handlers.map remaining)[k]? = some (remaining h) := by simp [hk]
        have hset := sum_set_add hk' 1
        rw [create, List.map_append, List.sum_append, List.map_set]
        change ((s.handlers.map remaining).set k 1).sum + (2 * (h.nretries - 1) + 1) < _
        omega
      · have hdelete := remaining_delete hk { h with error := some (outcome k).1.errorMessage }
        omega
  · have hremaining : remaining h = 1 := by rw [remaining, hphase]
    have hdelete := remaining_delete hk { h with completePromise := false }
    omega

theorem length_le {es : List Event} (h : run hasCb outcome nretries es = some s) :
    es.length ≤ 2 * nretries + 1 := by
  have hle := Steps.length_le (μ := fun s ↦ (s.handlers.map remaining).sum)
    (fun _ _ _ ↦ remaining_step) h
  exact le_trans (Nat.le_add_right _ _) hle

/-- When nothing more can happen, all handlers have been handled. -/
theorem phase_of_end (hend : ∀ e, s.step hasCb outcome e = none) :
    ∀ h ∈ s.handlers, h.phase = .handled := by
  intro h hmem
  obtain ⟨k, hk⟩ := List.getElem?_of_mem hmem
  cases hphase : h.phase with
  | handled => rfl
  | trying =>
    have hnone := hend (.handle k)
    simp [step, hk, hphase] at hnone
  | handingOver =>
    have hnone := hend (.goOn k)
    simp [step, hk, hphase] at hnone

/-- The number of failures before the first attempt that succeeds. -/
noncomputable def failures (outcome : ℕ → Status × RES) : ℕ∞ :=
  ⨅ (i : ℕ) (_ : (outcome i).1.ok = true), (i : ℕ∞)

theorem le_failures {m : ℕ} (hfailed : ∀ k < m, (outcome k).1.ok = false) :
    (m : ℕ∞) ≤ failures outcome := by
  refine le_iInf₂ fun i hi ↦ Nat.cast_le.mpr ?_
  by_contra hlt
  rw [hfailed i (Nat.lt_of_not_le hlt)] at hi
  cases hi

theorem failures_eq {m : ℕ} (hfailed : ∀ k < m, (outcome k).1.ok = false)
    (hok : (outcome m).1.ok = true) : failures outcome = m :=
  le_antisymm (iInf₂_le m hok) (le_failures hfailed)

/-- What a client has done when nothing more can happen. -/
structure Settled (hasCb : Bool) (outcome : ℕ → Status × RES) (nretries : ℕ) (s : Client RES) :
    Prop where
  inits : (s.inits : ℕ∞) = min (failures outcome) nretries + 1
  handlers : s.handlers.length = s.inits
  deleted : ∀ h ∈ s.handlers, h.deleted = 1
  succeeded : ∀ i : ℕ, i ≤ nretries → failures outcome = i →
    s.received = (if hasCb then [(outcome i).2] else []) ∧ s.fulfilled = [(i, none)]
  failed : nretries < failures outcome →
    s.received = [] ∧ s.fulfilled = [(nretries, some (outcome nretries).1.errorMessage)]

theorem settled_of_end (hs : Chained hasCb outcome nretries s)
    (hend : ∀ e, s.step hasCb outcome e = none) : Settled hasCb outcome nretries s := by
  have hphase := phase_of_end hend
  obtain ⟨handlers, inits, received, fulfilled⟩ := s
  obtain ⟨front, last, rfl, rfl, hfront, hle, hfailed, hlast⟩ := hs
  obtain ⟨hphase, hphaseLast⟩ := List.forall_mem_append.mp hphase
  have hdeleted : ∀ h ∈ front, h.deleted = 1 := by
    intro h hh
    have hhandled := hphase h hh
    cases hfront h hh with
    | goingOn => cases hhandled
    | deleted => rfl
  have hlength : (front ++ [last]).length = front.length + 1 := List.length_append
  replace hlast : Last hasCb outcome nretries front.length last received fulfilled := hlast
  cases hlast with
  | trying => cases hphaseLast _ List.mem_cons_self
  | succeeded hok =>
    have hfailures := failures_eq hfailed hok
    refine ⟨?_, hlength, List.forall_mem_append.mpr ⟨hdeleted, ?_⟩, ?_, ?_⟩
    · rw [hfailures, min_eq_left (Nat.cast_le.mpr hle)]
      rfl
    · exact List.forall_mem_singleton.mpr rfl
    · intro i _ hi
      obtain rfl : front.length = i := Nat.cast_injective (hfailures.symm.trans hi)
      exact ⟨rfl, rfl⟩
    · intro hlt
      rw [hfailures] at hlt
      exact absurd (Nat.cast_lt.mp hlt) (Nat.not_lt.mpr hle)
  | failed hok hm =>
    subst hm
    have hlt : (front.length : ℕ∞) < failures outcome := by
      refine lt_of_lt_of_le (Nat.cast_lt.mpr (Nat.lt_succ_self _)) (le_failures fun k hk ↦ ?_)
      rcases Nat.lt_succ_iff_lt_or_eq.mp hk with hk | rfl
      · exact hfailed k hk
      · exact hok
    refine ⟨?_, hlength, List.forall_mem_append.mpr ⟨hdeleted, ?_⟩, ?_, ?_⟩
    · rw [min_eq_right hlt.le]
      rfl
    · exact List.forall_mem_singleton.mpr rfl
    · intro i hi hfailures
      rw [hfailures] at hlt
      exact absurd (Nat.cast_lt.mp hlt) (Nat.not_lt.mpr hi)
    · exact fun _ ↦ ⟨rfl, rfl⟩

/-- **Every chain ends**, after a number of steps that the budget bounds, and how it does: `init_`
was called once more than there were failures before the first success, up to the budget; `cb_` was
called with the reply if there was one; the last handler, and no other, has set the promise, to the
error if the last retry failed too; and every handler was deleted once. -/
theorem tries_again (hasCb : Bool) (outcome : ℕ → Status × RES) (nretries : ℕ) (es : List Event)
    (s : Client RES) (h : run hasCb outcome nretries es = some s) :
    es.length ≤ 2 * nretries + 1 ∧
      ((∀ e, s.step hasCb outcome e = none) → Settled hasCb outcome nretries s) :=
  ⟨length_le h, settled_of_end (chained_run h)⟩

/-- Only the second attempt succeeds. -/
def secondTime (k : ℕ) : Status × ℕ := if k = 1 then (.OK, 7) else (⟨14, "unavailable"⟩, 0)

/-- The second handler is deleted before the first lets go of the promise. -/
theorem tries_again_small : ∃ s, run true secondTime 2 [.handle 0, .handle 1, .goOn 0] = some s ∧
    3 ≤ 2 * 2 + 1 ∧ Settled true secondTime 2 s := by
  refine ⟨_, rfl, ?_⟩
  obtain ⟨hlength, hsettled⟩ :=
    tries_again true secondTime 2 [.handle 0, .handle 1, .goOn 0] _ rfl
  refine ⟨hlength, hsettled fun e ↦ ?_⟩
  cases e with
  | handle k => rcases k with _ | _ | k <;> rfl
  | goOn k => rcases k with _ | _ | k <;> rfl

/-- All attempts within the budget fail. -/
example : (run true secondTime 0 [.handle 0]).map (fun s ↦ (s.inits, s.received, s.fulfilled))
    = some (1, [], [(0, some "unavailable")]) := by decide

end Client
end AsyncClientHandler
end Egrpc
end Cppkg
