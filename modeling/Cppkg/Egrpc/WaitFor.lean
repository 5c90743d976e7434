import Mathlib.Data.List.Nodup
import Mathlib.Data.Nat.Notation

/-!
# Waiting for promises

`wait_for` of a list takes the promises from its front: it retrieves the future of the promise,
gets the result, calls `err_handle` with it if it is an error, and then takes the promise out of the
list.

A call may end with an exception, of `err_handle`, or because the future was retrieved before.  What
was done until then stays done, and who called may call again.  So a call is an `EStateM`, which
keeps the state when it throws.
-/

set_option autoImplicit false

namespace Cppkg
namespace Egrpc
namespace WaitFor

/-- What is thrown: by `get_future`, or by `err_handle`. -/
inductive Exception
  | futureAlreadyRetrieved | errHandle
deriving DecidableEq

/-- The list of promises, the promises whose futures were retrieved, and what `err_handle` was
called with. -/
structure State (P E : Type) where
  promises : List P
  retrieved : List P
  handled : List E
deriving DecidableEq

/-- An `err_handle`, which may be empty: whether it throws when it is called with an error, after it
was called with those before. -/
abbrev HandleErrF (E : Type) := Option (List E → E → Bool)

section

variable {ε σ α β : Type} {x : EStateM ε σ α} {f : α → EStateM ε σ β} {s s' : σ}

theorem bind_of_ok {a : α} (h : x s = .ok a s') : (x >>= f) s = f a s' := by
  simp only [bind, EStateM.bind, h]

theorem bind_of_error {e : ε} (h : x s = .error e s') : (x >>= f) s = .error e s' := by
  simp only [bind, EStateM.bind, h]

end

variable {P E : Type} [DecidableEq P]

/-- `get_future`, the first time and any other. -/
def getFuture (promise : P) : EStateM Exception (State P E) Unit := do
  let s ← get
  if promise ∈ s.retrieved then throw .futureAlreadyRetrieved
  else set { s with retrieved := promise :: s.retrieved }

/-- `err_handle(err)`. -/
def callErrHandle (throws : List E → E → Bool) (err : E) : EStateM Exception (State P E) Unit := do
  let s ← get
  set { s with handled := s.handled ++ [err] }
  if throws s.handled err then throw .errHandle

/-- `wait_for` of a promise that was set to `value promise`: the wait for the future is over at
once. -/
def waitForPromise (value : P → Option E) (errHandle : HandleErrF E) (promise : P) :
    EStateM Exception (State P E) Unit := do
  getFuture promise
  match value promise, errHandle with
  | some err, some throws => callErrHandle throws err
  | _, _ => pure ()

/-- `pop_front`. -/
def popFront : EStateM Exception (State P E) Unit :=
  modify fun s ↦ { s with promises := s.promises.tail }

/-- The loop of `wait_for`, over what is in the list. -/
def waitForAll (value : P → Option E) (errHandle : HandleErrF E) :
    List P → EStateM Exception (State P E) Unit
  | [] => pure ()
  | done :: promises => do
    waitForPromise value errHandle done
    popFront
    waitForAll value errHandle promises

/-- `wait_for` of the list. -/
def waitFor (value : P → Option E) (errHandle : HandleErrF E) :
    EStateM Exception (State P E) Unit := do
  waitForAll value errHandle (← get).promises

/-- The list before the first call. -/
def start (promises : List P) : State P E := ⟨promises, [], []⟩

/-- The `n + 1`-st call, or the one that returned if there was one before: it is called again for as
long as it throws. -/
def callAgain (value : P → Option E) (errHandle : HandleErrF E) (s : State P E) :
    ℕ → EStateM.Result Exception (State P E) Unit
  | 0 => waitFor value errHandle s
  | n + 1 =>
    match callAgain value errHandle s n with
    | .ok _ s => .ok () s
    | .error _ s => waitFor value errHandle s

/-! ## What one call does -/

variable {value : P → Option E} {throws : List E → E → Bool} {errHandle : HandleErrF E}
  {p : P} {ps : List P} {s s' : State P E}

/-- `err_handle` throws on none of these errors, when it was called with those before. -/
def Quiet (throws : List E → E → Bool) : List E → List E → Prop
  | _, [] => True
  | before, err :: errs => throws before err = false ∧ Quiet throws (before ++ [err]) errs

theorem getFuture_eq : getFuture p s = if p ∈ s.retrieved then .error .futureAlreadyRetrieved s
    else .ok () { s with retrieved := p :: s.retrieved } := by
  change (if p ∈ s.retrieved then throw .futureAlreadyRetrieved
    else set { s with retrieved := p :: s.retrieved } : EStateM Exception (State P E) Unit) s = _
  split <;> rfl

omit [DecidableEq P] in
theorem callErrHandle_eq {err : E} : callErrHandle throws err s =
    if throws s.handled err then .error .errHandle { s with handled := s.handled ++ [err] }
    else .ok () { s with handled := s.handled ++ [err] } := by
  change (if throws s.handled err then throw .errHandle
    else pure () : EStateM Exception (State P E) Unit) { s with handled := s.handled ++ [err] } = _
  split <;> rfl

theorem waitForPromise_of_mem (h : p ∈ s.retrieved) :
    waitForPromise value errHandle p s = .error .futureAlreadyRetrieved s :=
  bind_of_error (by rw [getFuture_eq, if_pos h])

theorem waitForPromise_of_none (h : p ∉ s.retrieved) (hvalue : value p = none) :
    waitForPromise value errHandle p s = .ok () { s with retrieved := p :: s.retrieved } := by
  unfold waitForPromise
  rw [hvalue, bind_of_ok (by rw [getFuture_eq, if_neg h])]
  rfl

theorem waitForPromise_of_some (throws : List E → E → Bool) {err : E} (h : p ∉ s.retrieved)
    (hvalue : value p = some err) : waitForPromise value (some throws) p s =
      if throws s.handled err
      then .error .errHandle ⟨s.promises, p :: s.retrieved, s.handled ++ [err]⟩
      else .ok () ⟨s.promises, p :: s.retrieved, s.handled ++ [err]⟩ := by
  unfold waitForPromise
  rw [hvalue, bind_of_ok (by rw [getFuture_eq, if_neg h])]
  exact callErrHandle_eq

/-- The loop goes on after a promise that throws nothing. -/
theorem waitForAll_of_ok (h : waitForPromise value errHandle p s = .ok () s') :
    waitForAll value errHandle (p :: ps) s
      = waitForAll value errHandle ps { s' with promises := s'.promises.tail } := by
  rw [waitForAll, bind_of_ok h]
  rfl

/-- An exception leaves the promise in the list. -/
theorem waitForAll_of_error {x : Exception} (h : waitForPromise value errHandle p s = .error x s') :
    waitForAll value errHandle (p :: ps) s = .error x s' :=
  bind_of_error h

/-- The list, when it holds different promises whose futures were not retrieved. -/
structure Fresh (s : State P E) (ps : List P) : Prop where
  promises : s.promises = ps
  nodup : ps.Nodup
  fresh : ∀ p ∈ ps, p ∉ s.retrieved

omit [DecidableEq P] in
theorem fresh_start (hps : ps.Nodup) : Fresh (start ps : State P E) ps :=
  ⟨rfl, hps, fun _ _ ↦ List.not_mem_nil⟩

omit [DecidableEq P] in
/-- Retrieving one future retrieves no other. -/
theorem Fresh.tail (h : Fresh s (p :: ps)) (handled : List E) :
    Fresh ⟨s.promises.tail, p :: s.retrieved, handled⟩ ps := by
  obtain ⟨hp, hnodup⟩ := List.nodup_cons.mp h.nodup
  refine ⟨by rw [h.promises, List.tail_cons], hnodup, fun q hq hmem ↦ ?_⟩
  rcases List.mem_cons.mp hmem with rfl | hmem
  · exact hp hq
  · exact h.fresh q (List.mem_cons_of_mem p hq) hmem

/-- **One call.**  If `err_handle` throws on no error, the call hands over all errors and empties
the list.  Otherwise it leaves a promise at the front of the list whose future it has retrieved. -/
theorem waitForAll_cases (value : P → Option E) (throws : List E → E → Bool) (h : Fresh s ps) :
    (Quiet throws s.handled (ps.filterMap value) ∧ ∃ retrieved,
      waitForAll value (some throws) ps s
        = .ok () ⟨[], retrieved, s.handled ++ ps.filterMap value⟩) ∨
    (¬ Quiet throws s.handled (ps.filterMap value) ∧ ∃ p qs retrieved handled,
      waitForAll value (some throws) ps s
        = .error .errHandle ⟨p :: qs, p :: retrieved, handled⟩) := by
  induction ps generalizing s with
  | nil =>
    obtain ⟨promises, retrieved, handled⟩ := s
    obtain rfl : promises = [] := h.promises
    exact .inl ⟨trivial, retrieved, by rw [List.filterMap_nil, List.append_nil]; rfl⟩
  | cons p ps ih =>
    have hp : p ∉ s.retrieved := h.fresh p List.mem_cons_self
    cases hvalue : value p with
    | none =>
      rw [List.filterMap_cons_none hvalue, waitForAll_of_ok (waitForPromise_of_none hp hvalue)]
      exact ih (h.tail s.handled)
    | some err =>
      have hcall := waitForPromise_of_some throws hp hvalue
      rw [List.filterMap_cons_some hvalue]
      cases hthrows : throws s.handled err with
      | true =>
        rw [hthrows, if_pos rfl, h.promises] at hcall
        refine .inr ⟨fun hquiet ↦ ?_, p, ps, s.retrieved, _, waitForAll_of_error hcall⟩
        rw [Quiet, hthrows] at hquiet
        exact Bool.noConfusion hquiet.1
      | false =>
        rw [hthrows, if_neg Bool.false_ne_true] at hcall
        have hquiet : Quiet throws s.handled (err :: ps.filterMap value)
            ↔ Quiet throws (s.handled ++ [err]) (ps.filterMap value) := and_iff_right hthrows
        rw [waitForAll_of_ok hcall, hquiet, List.append_cons s.handled err (ps.filterMap value)]
        exact ih (h.tail (s.handled ++ [err]))

/-! ## What comes of calling again -/

/-- A call after one that has thrown finds the future of the promise at the front retrieved. -/
theorem callAgain_of_error {x : Exception} {qs retrieved : List P} {handled : List E}
    (h : waitFor value errHandle s = .error x ⟨p :: qs, p :: retrieved, handled⟩) (n : ℕ) :
    ∃ x, callAgain value errHandle s n = .error x ⟨p :: qs, p :: retrieved, handled⟩ := by
  induction n with
  | zero => exact ⟨x, h⟩
  | succ n ih =>
    obtain ⟨x, ih⟩ := ih
    refine ⟨.futureAlreadyRetrieved, ?_⟩
    rw [callAgain, ih]
    exact waitForAll_of_error (waitForPromise_of_mem List.mem_cons_self)

theorem callAgain_of_ok (h : waitFor value errHandle s = .ok () s') (n : ℕ) :
    callAgain value errHandle s n = .ok () s' := by
  induction n with
  | zero => exact h
  | succ n ih => rw [callAgain, ih]

/-- What calling again for as long as `wait_for` throws should do: some call returns; when one has,
every error was handed over, in the order of the list, and the list is empty; and when one has
thrown, the list holds the promises whose results were not handed over. -/
structure Delivers (value : P → Option E) (errHandle : HandleErrF E) (ps : List P) : Prop where
  returns : ∃ n s, callAgain value errHandle (start ps) n = .ok () s
  emptied : ∀ n s, callAgain value errHandle (start ps) n = .ok () s →
    s.promises = [] ∧ s.handled = ps.filterMap value
  kept : ∀ n x s, callAgain value errHandle (start ps) n = .error x s →
    ∃ k, s.promises = ps.drop k ∧ s.handled = (ps.take k).filterMap value

/-- **All errors are handed over exactly when `err_handle` throws on none.**  After it has thrown,
every other call throws, because the promise is still in the list. -/
theorem delivers_iff (value : P → Option E) (throws : List E → E → Bool) (ps : List P)
    (hps : ps.Nodup) :
    Delivers value (some throws) ps ↔ Quiet throws [] (ps.filterMap value) := by
  rcases waitForAll_cases value throws (fresh_start hps) with
    ⟨hquiet, retrieved, h⟩ | ⟨hloud, p, qs, retrieved, handled, h⟩
  · have hcalls : ∀ n, callAgain value (some throws) (start ps) n
        = .ok () ⟨[], retrieved, ps.filterMap value⟩ := callAgain_of_ok h
    refine iff_of_true ⟨⟨0, _, hcalls 0⟩, fun n s hn ↦ ?_, fun n x s hn ↦ ?_⟩ hquiet
    · rw [hcalls n] at hn
      cases hn
      exact ⟨rfl, rfl⟩
    · rw [hcalls n] at hn
      cases hn
  · refine iff_of_false (fun hdelivers ↦ ?_) hloud
    obtain ⟨n, s, hn⟩ := hdelivers.returns
    have hcall : waitFor value (some throws) (start ps) = _ := h
    obtain ⟨x, hx⟩ := callAgain_of_error hcall n
    rw [hx] at hn
    cases hn

/-- The second of three promises was set to null. -/
def messages (promise : ℕ) : Option String :=
  [some "hello", none, some "world"].getD promise none

theorem delivers_three : Delivers messages (some fun _ _ ↦ false) [0, 1, 2] :=
  (delivers_iff messages (fun _ _ ↦ false) [0, 1, 2] (by decide)).mpr ⟨rfl, rfl, trivial⟩

/-- `err_handle` throws on the first error.  The promise stays in the list. -/
theorem not_delivers_three : ¬ Delivers messages (some fun _ err ↦ err == "hello") [0, 1, 2] := by
  intro hdelivers
  obtain ⟨k, hpromises, hhandled⟩ := hdelivers.kept 0 .errHandle ⟨[0, 1, 2], [0], ["hello"]⟩ rfl
  have hlength : 3 = 3 - k := by simpa using congrArg List.length hpromises
  obtain rfl : k = 0 := by omega
  cases hhandled

/-- The next call does not get past that promise. -/
example : callAgain messages (some fun _ err ↦ err == "hello") (start [0, 1, 2]) 1
    = .error .futureAlreadyRetrieved ⟨[0, 1, 2], [0], ["hello"]⟩ := rfl

end WaitFor
end Egrpc
end Cppkg
