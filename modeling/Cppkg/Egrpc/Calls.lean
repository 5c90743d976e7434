import Cppkg.Egrpc.ClientAsync
import Cppkg.Egrpc.ClientStream
import Cppkg.Egrpc.WaitFor

/-!
# Waiting for calls that go on

`wait_for` is called while the calls whose promises it waits for go on in another thread, which
takes completions out of the queue and calls the handlers.  It goes through the list from the front:
it retrieves the future of a promise, waits until it is ready, hands the error to `err_handle` if
there is one, and takes the promise out of the list.

What it needs to know of a call is a `PromisedCall`: that its promise is set at most once, and that
it is set when the call cannot go on.  Calls that are tried again are such calls, and so are
streams.

`wait_in_order`: whatever the calls do, and in whichever order they end, the errors are handed over
in the order of the list.  `waits_for_all`: and when nothing can go on, `wait_for` has returned, and
every error of every call was handed over.
-/

set_option autoImplicit false

namespace Cppkg
namespace Egrpc

/-- **A call, seen from the thread that waits for it.** -/
structure PromisedCall where
  State : Type
  Event : Type
  step : State → Event → Option State
  start : State
  /-- The values that the promise was set to. -/
  fulfilled : State → List (Option String)
  /-- What every state of the call keeps to. -/
  Inv : State → Prop
  inv_start : Inv start
  inv_step : ∀ s e s', step s e = some s' → Inv s → Inv s'
  /-- Setting the promise a second time would throw. -/
  once : ∀ s, Inv s → (fulfilled s).length ≤ 1
  kept : ∀ s e s', step s e = some s' → fulfilled s <+: fulfilled s'
  ends : ∀ s, Inv s → (∀ e, step s e = none) → fulfilled s ≠ []

/-! ## The two kinds of calls -/

namespace AsyncClientHandler.Client

variable {RES : Type} {hasCb : Bool} {outcome : ℕ → Status × RES} {nretries : ℕ}
  {s s' : Client RES} {e : Event}

/-- The values that the promise was set to. -/
def values (s : Client RES) : List (Option String) := s.fulfilled.map Prod.snd

/-- Deleting a handler may set the promise. -/
theorem values_delete (s : Client RES) (k : ℕ) (h : AsyncClientHandler) :
    s.values <+: (s.delete k h).values := by
  unfold values delete
  split
  · rw [List.map_append]
    exact List.prefix_append _ _
  · exact List.prefix_rfl

theorem values_step (h : s.step hasCb outcome e = some s') : s.values <+: s'.values := by
  obtain ⟨k, last, hk, ⟨-, rfl⟩ | ⟨-, rfl⟩⟩ := step_cases h
  · unfold handle
    split
    · exact values_delete { s with received := _ } k last
    · split
      · exact List.prefix_rfl
      · exact values_delete s k _
  · exact values_delete s k _

/-- The error that the promise is set to: that of the last attempt, if none has succeeded. -/
def finalError (outcome : ℕ → Status × RES) (nretries : ℕ) : Option String :=
  if (List.range (nretries + 1)).any fun k ↦ (outcome k).1.ok then none
  else some (outcome nretries).1.errorMessage

/-- The promise was not set, or to the error of the last attempt. -/
theorem values_eq (hs : Chained hasCb outcome nretries s) :
    s.values = [] ∨ s.values = [finalError outcome nretries] := by
  obtain ⟨handlers, inits, received, fulfilled⟩ := s
  obtain ⟨front, last, rfl, rfl, hfront, hle, hfailed, hlast⟩ := hs
  replace hlast : Last hasCb outcome nretries front.length last received fulfilled := hlast
  cases hlast with
  | trying => exact .inl rfl
  | succeeded hok =>
    refine .inr (congrArg (fun v ↦ [v]) ?_)
    have hany : (List.range (nretries + 1)).any (fun k ↦ (outcome k).1.ok) = true :=
      List.any_eq_true.mpr ⟨front.length, List.mem_range.mpr (by omega), hok⟩
    rw [finalError, if_pos hany]
  | failed hok hm =>
    subst hm
    refine .inr (congrArg (fun v ↦ [v]) ?_)
    have hany : ¬ (List.range (front.length + 1)).any (fun k ↦ (outcome k).1.ok) = true := by
      rw [List.any_eq_true]
      rintro ⟨k, hk, hsucceeded⟩
      rcases Nat.lt_succ_iff_lt_or_eq.mp (List.mem_range.mp hk) with hk | rfl
      · simp [hfailed k hk] at hsucceeded
      · simp [hok] at hsucceeded
    rw [finalError, if_neg hany]

/-- A call that cannot go on has set its promise. -/
theorem values_ne_nil (hs : Chained hasCb outcome nretries s)
    (hend : ∀ e, s.step hasCb outcome e = none) : s.values ≠ [] := by
  have hphase := phase_of_end hend
  obtain ⟨handlers, inits, received, fulfilled⟩ := s
  obtain ⟨front, last, rfl, rfl, hfront, hle, hfailed, hlast⟩ := hs
  have hhandled := hphase last (List.mem_append_right _ List.mem_cons_self)
  replace hlast : Last hasCb outcome nretries front.length last received fulfilled := hlast
  cases hlast with
  | trying => cases hhandled
  | succeeded | failed => simp [values]

/-- A call that is tried again. -/
def promisedCall (hasCb : Bool) (outcome : ℕ → Status × RES) (nretries : ℕ) : PromisedCall where
  State := Client RES
  Event := Event
  step := step hasCb outcome
  start := start nretries
  fulfilled := values
  Inv := Chained hasCb outcome nretries
  inv_start := chained_start
  inv_step s e s' h hs := by
    obtain ⟨k, h, hk, ⟨hphase, rfl⟩ | ⟨hphase, rfl⟩⟩ := step_cases h
    · exact chained_handle hs hk hphase
    · exact chained_goOn hs hk hphase
  once s hs := by rcases values_eq hs with h | h <;> simp [h]
  kept _ _ _ := values_step
  ends _ := values_ne_nil

end AsyncClientHandler.Client

namespace AsyncClientStreamHandler.Stream

variable {DATA : Type} {handler : DATA → DATA} {s s' : Stream DATA} {e : Completion DATA}

theorem fulfilled_step (h : s.step handler e = some s') : s.fulfilled <+: s'.fulfilled := by
  have hdelete : ∀ (s : Stream DATA) h, s.fulfilled <+: (s.delete h).fulfilled := by
    intro s h
    unfold delete
    split
    · exact List.prefix_append _ _
    · exact List.prefix_rfl
  simp only [step, Option.bind_eq_bind, Option.bind_eq_some_iff, Option.some.injEq] at h
  obtain ⟨op, -, rfl⟩ := h
  unfold handle
  split
  · split <;> exact List.prefix_rfl
  · split <;> exact List.prefix_rfl
  · split <;> exact hdelete _ _

/-- A call that streams replies, and has a promise. -/
def promisedCall (handler : DATA → DATA) (reply : DATA) : PromisedCall where
  State := Stream DATA
  Event := Completion DATA
  step := step handler
  start := start reply true
  fulfilled := Stream.fulfilled
  Inv s := ∃ es, Progress reply true es s
  inv_start := ⟨[], .starting⟩
  inv_step _ e _ h := fun ⟨es, hs⟩ ↦ ⟨es ++ [e], progress_step h hs⟩
  once _ := by
    rintro ⟨es, hs⟩
    cases hs <;> simp [start]
  kept _ _ _ := fulfilled_step
  ends s := by
    rintro ⟨es, hs⟩ hend
    cases hs with
    | finished => simp
    | starting | reading | finishing =>
      -- an operation is outstanding, and may complete
      have hnone := hend ⟨0, true, reply, .OK⟩
      simp [step, start, Tagged.Object.new] at hnone

end AsyncClientStreamHandler.Stream

/-! ## `wait_for`, while the calls go on -/

namespace WaitFor

/-- Where the thread is that waits. -/
inductive Place
  /-- At the head of the loop. -/
  | looking
  /-- It has the future of the promise at the front. -/
  | waiting
  /-- It has got this from the future. -/
  | handing (err : Option String)
  | returned
  | threw
deriving DecidableEq

/-- The calls, and the thread that waits for them: the list of promises, the promises whose futures
were retrieved, and what `err_handle` was called with. -/
structure Waiting {ι : Type} (calls : ι → PromisedCall) where
  states : ∀ i, (calls i).State
  promises : List ι
  retrieved : List ι
  handled : List String
  place : Place

namespace Waiting

variable {ι : Type} [DecidableEq ι] {calls : ι → PromisedCall}

/-- All calls were started, and `wait_for` is called with these promises. -/
def start (calls : ι → PromisedCall) (promises : List ι) : Waiting calls :=
  ⟨fun i ↦ (calls i).start, promises, [], [], .looking⟩

variable (s : Waiting calls)

/-- What the promise of call `i` was set to, once it was. -/
def value (t : ∀ i, (calls i).State) (i : ι) : Option (Option String) :=
  ((calls i).fulfilled (t i)).head?

/-- The error that the promise of call `i` was set to, if it was set to one. -/
def error (t : ∀ i, (calls i).State) (i : ι) : Option String := (value t i).join

/-- The head of the loop, and `get_future`, which throws the second time. -/
def look : Option (Waiting calls) :=
  if s.place = .looking then
    match s.promises with
    | [] => some { s with place := .returned }
    | p :: _ =>
      if p ∈ s.retrieved then some { s with place := .threw }
      else some { s with retrieved := p :: s.retrieved, place := .waiting }
  else none

/-- The future is ready: before that, its `wait_for` times out and is called again. -/
def get : Option (Waiting calls) :=
  if s.place = .waiting then
    match s.promises with
    | [] => none
    | p :: _ => (value s.states p).map fun err ↦ { s with place := .handing err }
  else none

/-- `err_handle(err)`, unless there is no error or no `err_handle`, and `pop_front`. -/
def hand (errHandle : HandleErrF String) : Option (Waiting calls) :=
  match s.place with
  | .handing err =>
    match err, errHandle with
    | some err, some throws =>
      if throws s.handled err then some { s with handled := s.handled ++ [err], place := .threw }
      else some { s with
        handled := s.handled ++ [err]
        promises := s.promises.tail
        place := .looking }
    | _, _ => some { s with promises := s.promises.tail, place := .looking }
  | _ => none

/-- One of the calls goes on, or the thread that waits does. -/
inductive Event (calls : ι → PromisedCall)
  | call (e : Σ i, (calls i).Event)
  | look
  | get
  | hand

def step (errHandle : HandleErrF String) (s : Waiting calls) : Event calls → Option (Waiting calls)
  | .call e => (Steps.side (fun i ↦ (calls i).step) s.states e).map fun t ↦ { s with states := t }
  | .look => s.look
  | .get => s.get
  | .hand => s.hand errHandle

/-- Where the calls and the thread are after these events. -/
def run (errHandle : HandleErrF String) (calls : ι → PromisedCall) (promises : List ι)
    (es : List (Event calls)) : Option (Waiting calls) :=
  Steps.steps (step errHandle) (start calls promises) es

/-! ### How far it is -/

variable {s} {s' : Waiting calls} {errHandle : HandleErrF String} {ps : List ι} {k : ℕ} {p : ι}
  {e : Event calls}

/-- The errors of the first `k` promises. -/
def errors (t : ∀ i, (calls i).State) (ps : List ι) (k : ℕ) : List String :=
  (ps.take k).filterMap (error t)

/-- What becomes of errors that are handed over. -/
def handedOver (errHandle : HandleErrF String) (errs : List String) : List String :=
  if errHandle.isSome then errs else []

/-- Where the thread is when it has taken `k` promises out of the list. -/
def At (errHandle : HandleErrF String) (ps : List ι) (k : ℕ) (s : Waiting calls) : Place → Prop
  | .looking => s.handled = handedOver errHandle (errors s.states ps k) ∧
      ∀ p ∈ s.promises, p ∉ s.retrieved
  | .waiting => s.handled = handedOver errHandle (errors s.states ps k) ∧
      (∀ p ∈ s.promises.tail, p ∉ s.retrieved) ∧ s.promises ≠ []
  | .handing err => s.handled = handedOver errHandle (errors s.states ps k) ∧
      (∀ p ∈ s.promises.tail, p ∉ s.retrieved) ∧ ∃ p ∈ s.promises.head?, value s.states p = some err
  | .returned => s.handled = handedOver errHandle (errors s.states ps k) ∧ s.promises = []
  | .threw => ∃ throws ∈ errHandle, ∃ p ∈ s.promises.head?, ∃ err,
      value s.states p = some (some err) ∧ s.handled = errors s.states ps k ++ [err] ∧
        throws (errors s.states ps k) err = true

/-- **How far the thread is**: it has taken `k` promises out of the list, which were set, and has
handed over their errors, on none of which `err_handle` has thrown. -/
structure Progress (errHandle : HandleErrF String) (ps : List ι) (k : ℕ) (s : Waiting calls) :
    Prop where
  calls : ∀ i, (calls i).Inv (s.states i)
  promises : s.promises = ps.drop k
  settled : ∀ p ∈ ps.take k, value s.states p ≠ none
  quiet : ∀ throws ∈ errHandle, Quiet throws [] (errors s.states ps k)
  place : At errHandle ps k s s.place

omit [DecidableEq ι] in
theorem progress_start (errHandle : HandleErrF String) (calls : ι → PromisedCall) (ps : List ι) :
    Progress errHandle ps 0 (start calls ps) where
  calls i := (calls i).inv_start
  promises := rfl
  settled := List.forall_mem_nil _
  quiet _ _ := trivial
  place := by
    refine ⟨?_, fun _ _ ↦ List.not_mem_nil⟩
    unfold handedOver
    split <;> rfl

/-- What a promise was set to stays. -/
theorem value_side {t : ∀ i, (calls i).State} {e : Σ i, (calls i).Event} {v : Option String}
    (h : Steps.side (fun i ↦ (calls i).step) s.states e = some t) (hv : value s.states p = some v) :
    value t p = some v := by
  have hkept : (calls p).fulfilled (s.states p) <+: (calls p).fulfilled (t p) :=
    Steps.side_step (R := fun i u u' ↦ (calls i).fulfilled u <+: (calls i).fulfilled u')
      (fun _ _ ↦ List.prefix_rfl) (fun i u e u' ↦ (calls i).kept u e u') h p
  obtain ⟨vs, hvs⟩ := hkept
  unfold value at hv ⊢
  rw [← hvs, List.head?_append, hv]
  rfl

/-- The errors that were handed over stay what they are. -/
theorem errors_side {t : ∀ i, (calls i).State} {e : Σ i, (calls i).Event}
    (h : Steps.side (fun i ↦ (calls i).step) s.states e = some t)
    (hsettled : ∀ p ∈ ps.take k, value s.states p ≠ none) :
    errors t ps k = errors s.states ps k := by
  refine List.filterMap_congr fun p hp ↦ ?_
  obtain ⟨v, hv⟩ := Option.ne_none_iff_exists'.mp (hsettled p hp)
  rw [error, error, hv, value_side h hv]

omit [DecidableEq ι] in
/-- One more promise is taken out of the list. -/
theorem take_succ {q : List ι} (h : ps.drop k = p :: q) :
    ps.take (k + 1) = ps.take k ++ [p] ∧ q = ps.drop (k + 1) := by
  have hk : ps[k]? = some p := by rw [← List.head?_drop, h, List.head?_cons]
  refine ⟨by rw [List.take_add_one, hk]; rfl, ?_⟩
  rw [← List.tail_drop, h, List.tail_cons]

theorem quiet_append {throws : List String → String → Bool} {before errs errs' : List String} :
    Quiet throws before (errs ++ errs') ↔
      Quiet throws before errs ∧ Quiet throws (before ++ errs) errs' := by
  induction errs generalizing before with
  | nil => simp [Quiet]
  | cons e errs ih => simp [Quiet, ih, and_assoc]

omit [DecidableEq ι] in
/-- What `err_handle` does, if there is one and it is called. -/
theorem hand_cases (h : s.hand errHandle = some s') : ∃ err, s.place = .handing err ∧
    ((∃ e throws, err = some e ∧ errHandle = some throws ∧ throws s.handled e = true ∧
        s' = { s with handled := s.handled ++ [e], place := .threw }) ∨
      (∀ e throws, err = some e → errHandle = some throws → throws s.handled e = false) ∧
        s' = { s with
          handled := s.handled ++ handedOver errHandle err.toList
          promises := s.promises.tail
          place := .looking }) := by
  unfold hand at h
  split at h
  · rename_i err hplace
    refine ⟨err, hplace, ?_⟩
    cases err with
    | none =>
      refine .inr ⟨by simp, (Option.some.inj h).symm.trans ?_⟩
      cases errHandle <;> simp [handedOver]
    | some e =>
      cases errHandle with
      | none => exact .inr ⟨by simp, (Option.some.inj h).symm.trans (by simp [handedOver])⟩
      | some throws =>
        cases hthrows : throws s.handled e with
        | true =>
          simp only [hthrows, if_true, Option.some.injEq] at h
          exact .inl ⟨e, throws, rfl, rfl, hthrows, h.symm⟩
        | false =>
          simp only [hthrows, Bool.false_eq_true, if_false, Option.some.injEq] at h
          refine .inr ⟨?_, h.symm⟩
          rintro e' throws' ⟨⟩ ⟨⟩
          exact hthrows
  · cases h

namespace Progress

/-- A call goes on. -/
theorem call {t : ∀ i, (calls i).State} {e : Σ i, (calls i).Event}
    (h : Steps.side (fun i ↦ (calls i).step) s.states e = some t)
    (hs : Progress errHandle ps k s) : Progress errHandle ps k { s with states := t } := by
  have herrors := errors_side h hs.settled
  refine ⟨Steps.side_inv (fun i ↦ (calls i).inv_step) h hs.calls, hs.promises, fun p hp ↦ ?_,
    herrors ▸ hs.quiet, ?_⟩
  · obtain ⟨v, hv⟩ := Option.ne_none_iff_exists'.mp (hs.settled p hp)
    simp [value_side h hv]
  · have hplace := hs.place
    obtain ⟨states, promises, retrieved, handled, place⟩ := s
    cases place with
    | looking | waiting | returned => rwa [At, herrors]
    | handing err =>
      obtain ⟨hhandled, hfresh, p, hp, hv⟩ := hplace
      exact ⟨by rwa [herrors], hfresh, p, hp, value_side h hv⟩
    | threw =>
      obtain ⟨throws, hthrows, p, hp, err, hv, hhandled, hthrew⟩ := hplace
      exact ⟨throws, hthrows, p, hp, err, value_side h hv, by rwa [herrors], by rwa [herrors]⟩

theorem look (hnodup : ps.Nodup) (h : s.look = some s') (hs : Progress errHandle ps k s) :
    Progress errHandle ps k s' := by
  obtain ⟨hcalls, hpromises, hsettled, hquiet, hplace⟩ := hs
  simp only [Waiting.look, Option.ite_none_right_eq_some] at h
  obtain ⟨hlooking, h⟩ := h
  rw [hlooking] at hplace
  obtain ⟨hhandled, hfresh⟩ := hplace
  split at h
  · rename_i hnil
    obtain rfl := Option.some.inj h
    exact ⟨hcalls, hpromises, hsettled, hquiet, hhandled, hnil⟩
  · rename_i p q hcons
    -- no future was retrieved of a promise in the list
    have hp : p ∉ s.retrieved := hfresh p (by simp [hcons])
    rw [if_neg hp] at h
    obtain rfl := Option.some.inj h
    refine ⟨hcalls, hpromises, hsettled, hquiet, hhandled, fun r hr ↦ ?_, by simp [hcons]⟩
    have hdrop : (ps.drop k).Nodup := hnodup.sublist (List.drop_sublist k ps)
    rw [← hpromises, hcons] at hdrop
    replace hr : r ∈ q := by simpa [hcons] using hr
    rintro hmem
    rcases List.mem_cons.mp hmem with rfl | hmem
    · exact (List.nodup_cons.mp hdrop).1 hr
    · exact hfresh r (by simp [hcons, hr]) hmem

omit [DecidableEq ι] in
theorem get (h : s.get = some s') (hs : Progress errHandle ps k s) :
    Progress errHandle ps k s' := by
  obtain ⟨hcalls, hpromises, hsettled, hquiet, hplace⟩ := hs
  simp only [Waiting.get, Option.ite_none_right_eq_some] at h
  obtain ⟨hwaiting, h⟩ := h
  rw [hwaiting] at hplace
  obtain ⟨hhandled, hfresh, -⟩ := hplace
  split at h
  · cases h
  · rename_i p q hcons
    obtain ⟨err, hv, rfl⟩ := Option.map_eq_some_iff.mp h
    exact ⟨hcalls, hpromises, hsettled, hquiet, hhandled, hfresh, p, by simp [hcons], hv⟩

omit [DecidableEq ι] in
theorem hand (h : s.hand errHandle = some s') (hs : Progress errHandle ps k s) :
    ∃ k, Progress errHandle ps k s' := by
  obtain ⟨hcalls, hpromises, hsettled, hquiet, hplace⟩ := hs
  obtain ⟨err, hhanding, h⟩ := hand_cases h
  rw [hhanding] at hplace
  obtain ⟨hhandled, hfresh, p, hp, hv⟩ := hplace
  obtain ⟨q, hcons⟩ : ∃ q, s.promises = p :: q := List.head?_eq_some_iff.mp hp
  have herror : error s.states p = err := by rw [error, hv]; rfl
  obtain ⟨htake, hdrop⟩ := take_succ (hpromises ▸ hcons)
  have herrors : errors s.states ps (k + 1) = errors s.states ps k ++ err.toList := by
    rw [errors, htake, List.filterMap_append, errors]
    cases err <;> simp [herror]
  rcases h with ⟨e, throws, rfl, rfl, hthrows, rfl⟩ | ⟨hquiet', rfl⟩
  · replace hhandled : s.handled = errors s.states ps k := hhandled
    rw [hhandled] at hthrows
    exact ⟨k, hcalls, hpromises, hsettled, hquiet, throws, rfl, p, hp, e, hv,
      congrArg (· ++ [e]) hhandled, hthrows⟩
  · refine ⟨k + 1, hcalls, by rw [hcons]; exact hdrop, fun r hr ↦ ?_, fun throws hthrows ↦ ?_, ?_,
      hfresh⟩
    · rw [htake] at hr
      rcases List.mem_append.mp hr with hr | hr
      · exact hsettled r hr
      · obtain rfl := List.mem_singleton.mp hr
        exact fun hnone ↦ by cases hv.symm.trans hnone
    · have hprev := hquiet throws hthrows
      rw [herrors]
      cases err with
      | none => simpa using hprev
      | some e =>
        obtain rfl : errHandle = some throws := hthrows
        refine quiet_append.mpr ⟨hprev, ?_, trivial⟩
        rw [List.nil_append, ← show s.handled = errors s.states ps k from hhandled]
        exact hquiet' e throws rfl rfl
    · rw [herrors]
      change s.handled ++ handedOver errHandle err.toList = _
      rw [hhandled]
      unfold handedOver
      split <;> rfl

end Progress

theorem progress_step (hnodup : ps.Nodup) (h : step errHandle s e = some s')
    (hs : ∃ k, Progress errHandle ps k s) : ∃ k, Progress errHandle ps k s' := by
  obtain ⟨k, hs⟩ := hs
  cases e with
  | call e =>
    obtain ⟨t, ht, rfl⟩ := Option.map_eq_some_iff.mp h
    exact ⟨k, hs.call ht⟩
  | look => exact ⟨k, hs.look hnodup h⟩
  | get => exact ⟨k, hs.get h⟩
  | hand => exact hs.hand h

theorem progress_run {es : List (Event calls)} (hnodup : ps.Nodup)
    (h : run errHandle calls ps es = some s) : ∃ k, Progress errHandle ps k s :=
  Steps.steps_inv_all (P := fun s ↦ ∃ k, Progress errHandle ps k s)
    (fun _ _ _ ↦ progress_step hnodup) h ⟨0, progress_start errHandle calls ps⟩

/-! ### What was handed over -/

/-- **What `wait_for` has done** when it has taken `k` promises out of the list: they were set, and
`err_handle` was called with their errors, in order, and has thrown on none of them; or it has
thrown on the next one. -/
structure InOrder (errHandle : HandleErrF String) (ps : List ι) (k : ℕ) (s : Waiting calls) :
    Prop where
  promises : s.promises = ps.drop k
  settled : ∀ p ∈ ps.take k, value s.states p ≠ none
  quiet : ∀ throws ∈ errHandle, Quiet throws [] (errors s.states ps k)
  handled : s.place ≠ .threw → s.handled = handedOver errHandle (errors s.states ps k)
  threw : s.place = .threw → ∃ throws ∈ errHandle, ∃ p ∈ s.promises.head?, ∃ err,
    value s.states p = some (some err) ∧ s.handled = errors s.states ps k ++ [err] ∧
      throws (errors s.states ps k) err = true
  returned : s.place = .returned → s.promises = []

omit [DecidableEq ι] in
theorem Progress.inOrder (hs : Progress errHandle ps k s) : InOrder errHandle ps k s := by
  obtain ⟨-, hpromises, hsettled, hquiet, hplace⟩ := hs
  refine ⟨hpromises, hsettled, hquiet, fun hne ↦ ?_, fun heq ↦ ?_, fun heq ↦ ?_⟩
  · cases hp : s.place with
    | threw => exact absurd hp hne
    | looking | waiting | handing | returned =>
      rw [hp] at hplace
      exact hplace.1
  · rwa [heq] at hplace
  · rw [heq] at hplace
    exact hplace.2

omit [DecidableEq ι] in
/-- When it has returned, it has taken all promises out of the list. -/
theorem Progress.take_of_returned (hs : Progress errHandle ps k s) (hp : s.place = .returned) :
    ps.take k = ps :=
  List.take_of_length_le
    (List.drop_eq_nil_iff.mp (hs.promises.symm.trans (hs.inOrder.returned hp)))

omit [DecidableEq ι] in
theorem Progress.handled_of_returned (hs : Progress errHandle ps k s) (hp : s.place = .returned) :
    s.handled = handedOver errHandle (ps.filterMap (error s.states)) := by
  have hhandled := hs.inOrder.handled (by rw [hp]; exact Place.noConfusion)
  rwa [errors, hs.take_of_returned hp] at hhandled

/-- **Errors are handed over in the order of the list**, whatever the calls do while `wait_for`
waits, and in whichever order they end: each at most once, and none of a promise that was not set.
No promise is set twice.  When `wait_for` returns, all promises of the list were set, and all their
errors handed over. -/
theorem wait_in_order {ι : Type} [DecidableEq ι] {calls : ι → PromisedCall}
    {errHandle : HandleErrF String} {ps : List ι} {es : List (Event calls)} {s : Waiting calls}
    (hnodup : ps.Nodup) (h : run errHandle calls ps es = some s) :
    (∀ i, ((calls i).fulfilled (s.states i)).length ≤ 1) ∧
      (∃ k, InOrder errHandle ps k s) ∧
      (s.place = .returned → (∀ p ∈ ps, value s.states p ≠ none) ∧
        s.handled = handedOver errHandle (ps.filterMap (error s.states))) := by
  obtain ⟨k, hs⟩ := progress_run hnodup h
  exact ⟨fun i ↦ (calls i).once _ (hs.calls i), ⟨k, hs.inOrder⟩, fun hp ↦
    ⟨hs.take_of_returned hp ▸ hs.settled, hs.handled_of_returned hp⟩⟩

/-! ### When nothing can go on -/

theorem calls_of_end (hend : ∀ e, s.step errHandle e = none) (i : ι) (e : (calls i).Event) :
    (calls i).step (s.states i) e = none :=
  Steps.side_eq_none.mp (fun e ↦ Option.map_eq_none_iff.mp (hend (.call e))) i e

/-- Every promise was set once. -/
theorem length_of_end (hs : Progress errHandle ps k s) (hend : ∀ e, s.step errHandle e = none)
    (i : ι) : ((calls i).fulfilled (s.states i)).length = 1 :=
  Nat.le_antisymm ((calls i).once _ (hs.calls i))
    (List.length_pos_iff.mpr ((calls i).ends _ (hs.calls i) (calls_of_end hend i)))

/-- Then `wait_for` has returned or thrown: it does not wait for a promise that nobody sets. -/
theorem place_of_end (hs : Progress errHandle ps k s)
    (hend : ∀ e, s.step errHandle e = none) : s.place = .returned ∨ s.place = .threw := by
  cases hp : s.place with
  | returned => exact .inl rfl
  | threw => exact .inr rfl
  | looking =>
    have hlook : s.look = none := hend .look
    rw [look, if_pos hp] at hlook
    split at hlook
    · cases hlook
    · split at hlook <;> cases hlook
  | waiting =>
    have hplace := hs.place
    rw [hp] at hplace
    obtain ⟨p, q, hcons⟩ := List.exists_cons_of_ne_nil hplace.2.2
    -- the call cannot go on, so its promise was set
    have hset := (calls p).ends _ (hs.calls p) (calls_of_end hend p)
    have hget : s.get = none := hend .get
    simp only [get, hp, if_true, hcons, Option.map_eq_none_iff, value,
      List.head?_eq_none_iff] at hget
    exact absurd hget hset
  | handing err =>
    have hhand : s.hand errHandle = none := hend .hand
    rw [hand, hp] at hhand
    split at hhand
    · split at hhand
      · split at hhand <;> cases hhand
      · cases hhand
    · rename_i hne
      exact absurd rfl (hne err)

/-- It has returned exactly if `err_handle` throws on no error of the list. -/
theorem returned_of_end (hs : Progress errHandle ps k s) (hend : ∀ e, s.step errHandle e = none) :
    s.place = .returned ↔
      ∀ throws ∈ errHandle, Quiet throws [] (ps.filterMap (error s.states)) := by
  have horder := hs.inOrder
  refine ⟨fun hp throws hthrows ↦ ?_, fun hquiet ↦ ?_⟩
  · have hq := horder.quiet throws hthrows
    rwa [errors, hs.take_of_returned hp] at hq
  · refine (place_of_end hs hend).resolve_right fun hp ↦ ?_
    obtain ⟨throws, hthrows, p, hfront, err, hv, -, hthrew⟩ := horder.threw hp
    obtain ⟨q, hcons⟩ : ∃ q, s.promises = p :: q := List.head?_eq_some_iff.mp hfront
    -- the error on which it has thrown is one of those it does not throw on
    have herrs : ps.filterMap (error s.states) =
        errors s.states ps k ++ err :: q.filterMap (error s.states) := by
      have hp' : error s.states p = some err := by rw [error, hv]; rfl
      conv_lhs => rw [← List.take_append_drop k ps, ← hs.promises, hcons]
      rw [List.filterMap_append, List.filterMap_cons_some hp', errors]
    have hq := hquiet throws hthrows
    rw [herrs, quiet_append] at hq
    exact absurd (hthrew.symm.trans hq.2.1) (by decide)

/-- **`wait_for` waits for all, and not in vain.**  When neither it nor a call can go on, every
promise was set exactly once, those of calls that are not in the list too.  If `err_handle` throws
on none of the errors of the list, in order, then `wait_for` has returned, and all were handed
over. -/
theorem waits_for_all {ι : Type} [DecidableEq ι] {calls : ι → PromisedCall}
    {errHandle : HandleErrF String} {ps : List ι} {es : List (Event calls)} {s : Waiting calls}
    (hnodup : ps.Nodup) (h : run errHandle calls ps es = some s)
    (hend : ∀ e, s.step errHandle e = none) :
    (∀ i, ((calls i).fulfilled (s.states i)).length = 1) ∧
      (s.place = .returned ↔
        ∀ throws ∈ errHandle, Quiet throws [] (ps.filterMap (error s.states))) ∧
      (s.place = .returned →
        s.handled = handedOver errHandle (ps.filterMap (error s.states))) := by
  obtain ⟨k, hs⟩ := progress_run hnodup h
  exact ⟨length_of_end hs hend, returned_of_end hs hend, hs.handled_of_returned⟩

/-! ### Two calls -/

/-- A call that fails each time it is tried, and a stream. -/
def bothKinds : Bool → PromisedCall
  | true => AsyncClientHandler.Client.promisedCall true (fun _ ↦ (⟨14, "unavailable"⟩, 0)) 1
  | false => AsyncClientStreamHandler.Stream.promisedCall id (0 : ℕ)

/-- The stream ends before the call that is waited for first. -/
def bothFail : List (Event bothKinds) :=
  [.look, .call ⟨false, (⟨0, false, 0, .OK⟩ : AsyncClientStreamHandler.Completion ℕ)⟩,
    .call ⟨true, AsyncClientHandler.Event.handle 0⟩,
    .call ⟨false, (⟨0, true, 0, ⟨13, "oh no"⟩⟩ : AsyncClientStreamHandler.Completion ℕ)⟩,
    .call ⟨true, AsyncClientHandler.Event.handle 1⟩, .get,
    .call ⟨true, AsyncClientHandler.Event.goOn 0⟩, .hand, .look, .get, .hand, .look]

theorem wait_in_order_both :
    ∃ s, run (some fun _ _ ↦ false) bothKinds [true, false] bothFail = some s ∧
      s.handled = ["unavailable", "oh no"] ∧
      s.handled = [true, false].filterMap (error s.states) := by
  refine ⟨_, rfl, ?_, ?_⟩
  · rfl
  exact ((@wait_in_order _ _ bothKinds (some fun _ _ ↦ false) [true, false] bothFail _ (by decide)
    rfl).2.2 rfl).2

/-- Nothing can go on after these events. -/
theorem end_both : ∀ s, run (some fun _ _ ↦ false) bothKinds [true, false] bothFail = some s →
    ∀ e, s.step (some fun _ _ ↦ false) e = none := by
  intro s h e
  obtain rfl := Option.some.inj h
  match e with
  | .look | .get | .hand => rfl
  | .call ⟨false, e⟩ => rfl
  | .call ⟨true, .handle k⟩ | .call ⟨true, .goOn k⟩ => rcases k with _ | _ | k <;> rfl

theorem waits_for_all_both :
    ∃ s, run (some fun _ _ ↦ false) bothKinds [true, false] bothFail = some s ∧
      (∀ i, ((bothKinds i).fulfilled (s.states i)).length = 1) ∧ s.place = .returned := by
  refine ⟨_, rfl, ?_, rfl⟩
  exact (@waits_for_all _ _ bothKinds (some fun _ _ ↦ false) [true, false] bothFail _ (by decide)
    rfl (end_both _ rfl)).1

/-! ### Calls that are tried again -/

/-- **Every call that has failed for good is reported**, once and in the order of the list, with the
error of its last attempt: whatever the outcomes of the attempts are, and in whichever order the
attempts of different calls come to an end. -/
theorem failures_reported {ι RES : Type} [DecidableEq ι] {hasCb : ι → Bool}
    {outcome : ι → ℕ → Status × RES} {nretries : ι → ℕ} {throws : List String → String → Bool}
    {ps : List ι}
    {es : List (Event fun i ↦
      AsyncClientHandler.Client.promisedCall (hasCb i) (outcome i) (nretries i))}
    {s : Waiting fun i ↦
      AsyncClientHandler.Client.promisedCall (hasCb i) (outcome i) (nretries i)}
    (hnodup : ps.Nodup) (h : run (some throws) _ ps es = some s)
    (hend : ∀ e, s.step (some throws) e = none)
    (hquiet : Quiet throws [] (ps.filterMap fun i ↦
      AsyncClientHandler.Client.finalError (outcome i) (nretries i))) :
    s.place = .returned ∧
      s.handled = ps.filterMap fun i ↦
        AsyncClientHandler.Client.finalError (outcome i) (nretries i) := by
  obtain ⟨k, hs⟩ := progress_run hnodup h
  have herrors : ∀ i, error s.states i =
      AsyncClientHandler.Client.finalError (outcome i) (nretries i) := by
    intro i
    have hset := length_of_end hs hend i
    rcases AsyncClientHandler.Client.values_eq (hs.calls i) with hnil | hone
    · exact absurd (hset.symm.trans (congrArg List.length hnil)) (by decide)
    · exact congrArg (fun vs ↦ (List.head? vs).join) hone
  have hfilter : ps.filterMap (error s.states) = ps.filterMap fun i ↦
      AsyncClientHandler.Client.finalError (outcome i) (nretries i) :=
    List.filterMap_congr fun i _ ↦ herrors i
  have hreturned : s.place = .returned := by
    refine (returned_of_end hs hend).mpr fun throws' hthrows ↦ ?_
    obtain rfl := Option.some.inj hthrows
    rwa [hfilter]
  exact ⟨hreturned, (hs.handled_of_returned hreturned).trans hfilter⟩

/-- One of two calls fails each time it is tried. -/
def oneFails (i : Bool) (_ : ℕ) : Status × ℕ := if i then (⟨14, "unavailable"⟩, 0) else (.OK, 0)

theorem failures_reported_two :
    ∃ s, run (some fun _ _ ↦ false)
        (fun i ↦ AsyncClientHandler.Client.promisedCall true (oneFails i) 1) [false, true]
        [.look, .call ⟨true, .handle 0⟩, .call ⟨true, .goOn 0⟩, .call ⟨true, .handle 1⟩,
          .call ⟨false, .handle 0⟩, .get, .hand, .look, .get, .hand, .look] = some s ∧
      s.handled = ["unavailable"] := by
  refine ⟨_, rfl, ?_⟩
  refine (@failures_reported Bool ℕ _ (fun _ ↦ true) oneFails (fun _ ↦ 1) (fun _ _ ↦ false)
    [false, true] [.look, .call ⟨true, .handle 0⟩, .call ⟨true, .goOn 0⟩, .call ⟨true, .handle 1⟩,
      .call ⟨false, .handle 0⟩, .get, .hand, .look, .get, .hand, .look] _ (by decide) rfl ?_
    ⟨rfl, trivial⟩).2
  intro e
  match e with
  | .look | .get | .hand => rfl
  | .call ⟨true, .handle k⟩ | .call ⟨true, .goOn k⟩ => rcases k with _ | _ | k <;> rfl
  | .call ⟨false, .handle k⟩ | .call ⟨false, .goOn k⟩ => rcases k with _ | k <;> rfl

end Waiting
end WaitFor
end Egrpc
end Cppkg
