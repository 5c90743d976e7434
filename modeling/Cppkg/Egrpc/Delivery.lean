import Cppkg.Egrpc.ClientStream
import Cppkg.Egrpc.Messages

/-!
# From the range to `handler_`

A stream has two ends: on the server an `AsyncServerStreamCall`, which writes replies and finishes,
and on the client an `AsyncClientStreamHandler`, which reads them and gets the status.  Both are
called when their operations complete, and each by a loop of its own.  No call of the server is shut
down.

What lies between them is not part of the repository.  `Delivery` takes it to do what it is
documented to do: messages arrive in the order they were written; a read completes with the next
message, or fails when the server has finished and all were read; `Finish` completes with the status
that the server has finished with.  At any time the connection may break; then reads may fail, and
`Finish` completes with the status of that.

`delivered_in_order`: whichever end is called next, `handler_` has been called with the messages
that the server has written, in order, up to some number; and if the connection has not broken when
the client is done, with all of them, and the promise holds what the server has finished with.  What
that is, `Answered` says: it is what `init_call_` and `write_call_` have returned for the request.
-/

set_option autoImplicit false

namespace Cppkg
namespace Egrpc

open Tagged

/-! ## What the server has done -/

namespace AsyncServerStreamCall

variable {Env REQ RES E : Type}

/-- The status that an operation finishes with. -/
def Op.status? : Op RES → Option Status
  | .finish status => some status
  | .request | .write _ => none

/-- The status that a call has finished with. -/
def ended (o : Object (AsyncServerStreamCall REQ RES E) (Op RES)) : Option Status :=
  o.issued.findSome? Op.status?

theorem messages_react (o : Object (AsyncServerStreamCall REQ RES E) (Op RES)) (i : ℕ)
    (r : Reaction (AsyncServerStreamCall REQ RES E) (Op RES)) :
    messages ((o.complete i).react r) = messages o ++ r.issues.filterMap Op.message? :=
  List.filterMap_append ..

theorem findSome?_writes (attempts : List (Attempt RES E)) :
    (writes attempts).findSome? Op.status? = none := by
  refine List.findSome?_eq_none_iff.mpr fun op hop ↦ ?_
  obtain ⟨a, -, rfl⟩ := List.mem_map.mp hop
  rfl

theorem findSome?_finish (attempts : List (Attempt RES E)) (status : Status) :
    (Op.request :: writes attempts ++ [Op.finish status]).findSome? Op.status? = some status := by
  rw [List.cons_append, List.findSome?_cons_of_isNone rfl, List.findSome?_append,
    findSome?_writes]
  rfl

variable [Inhabited REQ] [Inhabited RES] {f : Callbacks Env REQ RES E} {env : Env} {data : REQ}
  {o : Object (AsyncServerStreamCall REQ RES E) (Op RES)} {i : ℕ} {op : Op RES} {status : Status}
  {R : Env → REQ → Prop}

/-- A call that has finished does nothing more but go. -/
theorem Follows.status_of_ended (h : Follows f R o) (hended : ended o = some status) :
    o.state.status = .finish := by
  cases h with
  | waiting => cases hended
  | writing env req ranges it status tried e reply =>
    cases (findSome?_writes _).symm.trans hended
  | refusing | refused | finishing | finished => rfl

theorem Follows.serve_of_ended (h : Follows f R o) (hop : o.pending[i]? = some op)
    (hended : ended o = some status) :
    (serve f env (receive op data o.state)).2.issues = [] := by
  have hstatus : (receive op data o.state).status = .finish := by
    rw [← h.status_of_ended hended]
    cases op <;> rfl
  rw [serve_finish hstatus]

/-- A call that has not finished waits for one of its operations. -/
theorem Follows.pending_of_not_ended (h : Follows f R o) (hended : ended o = none) :
    ∃ op, o.pending[0]? = some op := by
  cases h with
  | waiting => exact ⟨_, rfl⟩
  | writing => exact ⟨_, rfl⟩
  | refusing | finishing => exact ⟨_, rfl⟩
  | refused => cases hended
  | finished env req ranges result attempts =>
    cases (findSome?_finish attempts .OK).symm.trans hended

/-- **What a call that has finished has done** about its request: if `init_call_` failed, nothing
but to finish with what it returned; otherwise it has tried all elements of the range, in order, has
written the replies of those that `write_call_` accepted, and has finished with `OK`.  `R` has what
was outside when the call was served. -/
inductive Answered (f : Callbacks Env REQ RES E) (R : Env → REQ → Prop)
    (o : Object (AsyncServerStreamCall REQ RES E) (Op RES)) : Status → List RES → Prop
  | refused (env : Env) (status : Status) (hserved : R env o.state.req)
      (hinit : (f.initCall env o.state.req).2.1 = status) (hstatus : status.ok = false)
      (hended : ended o = some status) : Answered f R o status []
  | served (env : Env) (attempts : List (Attempt RES E)) (hserved : R env o.state.req)
      (hinit : (f.initCall env o.state.req).2.1.ok = true)
      (hmade : Made f R o.state.req env attempts)
      (hranges : attempts.map Attempt.elem = (f.initCall env o.state.req).2.2)
      (hended : ended o = some .OK) :
      Answered f R o .OK ((attempts.filter Attempt.wrote).map Attempt.reply)

theorem Follows.answered (h : Follows f R o) (hended : ended o = some status) :
    Answered f R o status (messages o) := by
  cases h with
  | waiting => cases hended
  | writing env req ranges it result tried e reply =>
    cases (findSome?_writes _).symm.trans hended
  | refusing env req ranges result hserved hinit hstatus
  | refused env req ranges result hserved hinit hstatus =>
    obtain rfl : result = status := Option.some.inj hended
    exact .refused env result hserved (congrArg Prod.fst hinit) hstatus hended
  | finishing env req ranges result attempts hserved hinit hstatus hmade hranges
  | finished env req ranges result attempts hserved hinit hstatus hmade hranges =>
    obtain rfl : .OK = status := Option.some.inj ((findSome?_finish attempts .OK).symm.trans hended)
    have hok : (f.initCall env req).2.1.ok = true := by
      rw [hinit]
      exact hstatus
    rw [messages, messages_finish]
    exact .served env attempts hserved hok hmade (hranges.trans (congrArg Prod.snd hinit).symm)
      hended

end AsyncServerStreamCall

/-! ## What the client does next -/

namespace AsyncClientStreamHandler.Stream

variable {DATA : Type} {handler : DATA → DATA} {reply : DATA} {es : List (Completion DATA)}
  {s s' : Stream DATA} {op : Operation} {e : Completion DATA}

/-- What becomes of a stream whose operation `op` completes. -/
inductive Next (s s' : Stream DATA) (e : Completion DATA) : Operation → Prop
  | start (hhandled : s'.handled = s.handled)
      (hstatus : s'.object.state.callStatus = if e.eventStatus then .process else .finish)
      (hdeleted : s'.object.deleted = 0) : Next s s' e .start
  | read (hhandled : s'.handled = if e.eventStatus then s.handled ++ [e.data] else s.handled)
      (hstatus : s'.object.state.callStatus = if e.eventStatus then .process else .finish)
      (hdeleted : s'.object.deleted = 0) : Next s s' e .read
  | finish (hhandled : s'.handled = s.handled) (hwas : s.object.state.callStatus = .finish)
      (hdeleted : s'.object.deleted = 1) (hfulfilled : s'.fulfilled = [outcome e.status]) :
      Next s s' e .finish

theorem next_of_step (hs : Progress reply true es s) (hop : s.object.pending[0]? = some op)
    (hstep : s.step handler e = some s') : Next s s' e op := by
  cases hs with
  | starting =>
    obtain rfl : .start = op := Option.some.inj hop
    rw [step_cases hstep]
    cases he : e.eventStatus <;> exact .start rfl (by rw [he]; rfl) rfl
  | reading e₁ oks reply₁ hoks =>
    obtain rfl : .read = op := Option.some.inj hop
    rw [step_cases hstep]
    cases he : e.eventStatus <;> exact .read (by rw [he]; rfl) (by rw [he]; rfl) rfl
  | finishing oks e₁ reply₁ hoks he₁ =>
    obtain rfl : .finish = op := Option.some.inj hop
    rw [step_cases hstep]
    cases hok : e.status.ok with
    | true =>
      have houtcome : outcome e.status = none := by rw [outcome, if_pos hok]
      simp only [handle, receive, hok, if_true, delete_eq]
      exact .finish rfl rfl rfl (by rw [houtcome])
    | false =>
      have houtcome : outcome e.status = some e.status.errorMessage := by
        rw [outcome, if_neg (by simp [hok])]
      simp only [handle, receive, hok, Bool.false_eq_true, if_false, delete_eq]
      exact .finish rfl rfl rfl (by rw [houtcome]; rfl)
  | finished => cases hop

/-- A stream that was not deleted waits for an operation. -/
theorem pending_of_progress (hs : Progress reply true es s) (hdeleted : s.object.deleted ≠ 1) :
    ∃ op, s.object.pending[0]? = some op ∧
      (op = .finish → s.object.state.callStatus = .finish) := by
  cases hs with
  | starting => exact ⟨.start, rfl, fun h ↦ by cases h⟩
  | reading => exact ⟨.read, rfl, fun h ↦ by cases h⟩
  | finishing => exact ⟨.finish, rfl, fun _ ↦ rfl⟩
  | finished => exact absurd rfl hdeleted

end AsyncClientStreamHandler.Stream

/-! ## Both ends -/

open AsyncClientStreamHandler

/-- A server, a stream on its client, how many messages the client has read, and the status of the
connection once it has broken. -/
structure Delivery (Env REQ RES E : Type) where
  pool : Pool Env (AsyncServerStreamCall REQ RES E) (AsyncServerStreamCall.Op RES)
  stream : Stream RES
  taken : ℕ
  broken : Option Status

namespace Delivery

variable {Env REQ RES E : Type}

/-- What can happen: something in the server; the operation completes that the client has issued,
and it went well or not; the connection breaks. -/
inductive Event (Env REQ : Type)
  | server (e : Tagged.Event Env REQ)
  | client (eventStatus : Bool)
  | breaks (status : Status)

section

variable (s : Delivery Env REQ RES E) (k : ℕ)

/-- The messages that the `k`-th call of the server has written. -/
def sent : List RES := (s.pool.objects[k]?).elim [] AsyncServerStreamCall.messages

/-- The status that it has finished with. -/
def serverStatus : Option Status := (s.pool.objects[k]?).bind AsyncServerStreamCall.ended

/-- What the connection lets the operation of the client complete with, if it does: what a read
reads, and the status of `Finish`. -/
def completion : Operation → Bool → Option (Completion RES)
  | .start, eventStatus =>
    if eventStatus = s.broken.isNone then some ⟨0, eventStatus, s.stream.object.state.reply, .OK⟩
    else none
  | .read, true => (s.sent k)[s.taken]?.map fun message ↦ ⟨0, true, message, .OK⟩
  | .read, false =>
    if s.broken.isSome ∨ (s.serverStatus k).isSome ∧ s.taken = (s.sent k).length
    then some ⟨0, false, s.stream.object.state.reply, .OK⟩ else none
  | .finish, eventStatus =>
    (s.broken <|> s.serverStatus k).map fun status ↦
      ⟨0, eventStatus, s.stream.object.state.reply, status⟩

variable [Inhabited REQ] [Inhabited RES]

/-- A step of either end.  The client has started the call that the `k`-th call of the server
serves. -/
def step (f : AsyncServerStreamCall.Callbacks Env REQ RES E) (handler : RES → RES) (k : ℕ)
    (s : Delivery Env REQ RES E) : Event Env REQ → Option (Delivery Env REQ RES E)
  | .server e => (Pool.step (AsyncServerStreamCall.behaviour f) s.pool e).map fun pool ↦
      { s with pool }
  | .client eventStatus => do
    let op ← s.stream.object.pending[0]?
    let e ← s.completion k op eventStatus
    let stream ← s.stream.step handler e
    some { s with
      stream
      taken := if op = .read ∧ eventStatus = true then s.taken + 1 else s.taken }
  | .breaks status =>
    if status.ok = false ∧ s.broken = none then some { s with broken := some status } else none

/-- A server with one call, and a client that has started a call. -/
def start (env : Env) (reply : RES) : Delivery Env REQ RES E :=
  ⟨AsyncServerStreamCall.start env, .start reply true, 0, none⟩

/-- Where both ends are after these events. -/
def run (f : AsyncServerStreamCall.Callbacks Env REQ RES E) (handler : RES → RES) (k : ℕ)
    (env : Env) (reply : RES) (es : List (Event Env REQ)) : Option (Delivery Env REQ RES E) :=
  Steps.steps (step f handler k) (start env reply) es

end

/-! ### What each end does to the other -/

variable [Inhabited REQ] [Inhabited RES] {f : AsyncServerStreamCall.Callbacks Env REQ RES E}
  {handler : RES → RES} {k : ℕ} {env : Env} {reply : RES} {s s' : Delivery Env REQ RES E}
  {e : Event Env REQ}

/-- **What the server does to the messages**: it may write more, until it finishes; and after that
nothing changes. -/
theorem sent_server {e : Tagged.Event Env REQ}
    {pool : Pool Env (AsyncServerStreamCall REQ RES E) (AsyncServerStreamCall.Op RES)}
    (he : e.Serves) (h : Pool.step (AsyncServerStreamCall.behaviour f) s.pool e = some pool)
    (hs : ∀ o ∈ s.pool.objects, AsyncServerStreamCall.Follows f (fun _ _ ↦ True) o) :
    s.sent k <+: sent { s with pool } k ∧
      ∀ status, s.serverStatus k = some status →
        sent { s with pool } k = s.sent k ∧ serverStatus { s with pool } k = some status := by
  unfold sent serverStatus
  cases hk : s.pool.objects[k]? with
  | none => exact ⟨List.nil_prefix, fun status h ↦ by cases h⟩
  | some o =>
    rcases Pool.getElem?_step_of_serves he h hk with hsame | ⟨i, data, op, hop, hserved⟩
    · rw [hsame]
      exact ⟨List.prefix_rfl, fun _ h ↦ ⟨rfl, h⟩⟩
    · rw [hserved]
      have hfollows := hs o (List.mem_of_getElem? hk)
      refine ⟨?_, fun status hended ↦ ?_⟩
      · rw [Option.elim_some, Option.elim_some, AsyncServerStreamCall.messages_react]
        exact List.prefix_append _ _
      · have hissues : (AsyncServerStreamCall.serve f s.pool.env
            (AsyncServerStreamCall.receive op data o.state)).2.issues = [] :=
          hfollows.serve_of_ended hop hended
        have hissued : ((o.complete i).react ((AsyncServerStreamCall.behaviour f).serve s.pool.env
            ((AsyncServerStreamCall.behaviour f).receive op data o.state)).2).issued = o.issued :=
          (congrArg (o.issued ++ ·) hissues).trans (List.append_nil _)
        simp only [Option.elim_some, Option.bind_some, AsyncServerStreamCall.messages,
          AsyncServerStreamCall.ended, hissued]
        exact ⟨trivial, hended⟩

/-- What both ends keep to. -/
structure Linked (f : AsyncServerStreamCall.Callbacks Env REQ RES E) (k : ℕ)
    (s : Delivery Env REQ RES E) : Prop where
  follows : ∀ o ∈ s.pool.objects, AsyncServerStreamCall.Follows f (fun _ _ ↦ True) o
  progress : ∃ reply es, Stream.Progress reply true es s.stream
  handled : s.stream.handled = (s.sent k).take s.taken
  taken : s.taken ≤ (s.sent k).length
  /-- Without a break, the client finishes when it has read all there is. -/
  finish : s.stream.object.state.callStatus = .finish → s.broken = none →
    ∃ status, s.serverStatus k = some status ∧ s.taken = (s.sent k).length
  fulfilled : s.stream.object.deleted = 1 → ∃ status, s.stream.fulfilled = [Stream.outcome status] ∧
    (s.broken = some status ∨ s.serverStatus k = some status ∧ s.taken = (s.sent k).length)

theorem linked_start (f : AsyncServerStreamCall.Callbacks Env REQ RES E) (k : ℕ) (env : Env)
    (reply : RES) : (start env reply : Delivery Env REQ RES E).Linked f k where
  follows := List.forall_mem_singleton.mpr .waiting
  progress := ⟨reply, [], .starting⟩
  handled := rfl
  taken := Nat.zero_le _
  finish h := by cases h
  fulfilled h := by cases h

/-- Something happens in the server. -/
theorem Linked.server {e : Tagged.Event Env REQ}
    {pool : Pool Env (AsyncServerStreamCall REQ RES E) (AsyncServerStreamCall.Op RES)}
    (he : e.Serves) (h : Pool.step (AsyncServerStreamCall.behaviour f) s.pool e = some pool)
    (hs : s.Linked f k) : Linked f k { s with pool } := by
  obtain ⟨⟨ms, hms⟩, hended⟩ := sent_server (k := k) he h hs.follows
  refine ⟨Pool.serves_step (AsyncServerStreamCall.lifecycle f).keeps he h hs.follows, hs.progress,
    ?_, ?_, fun hstatus hbroken ↦ ?_, fun hdeleted ↦ ?_⟩
  · rw [← hms, List.take_append_of_le_length hs.taken]
    exact hs.handled
  · rw [← hms, List.length_append]
    exact Nat.le_trans hs.taken (Nat.le_add_right _ _)
  · obtain ⟨status, hserver, htaken⟩ := hs.finish hstatus hbroken
    obtain ⟨hsame, hserver'⟩ := hended status hserver
    exact ⟨status, hserver', by rw [hsame]; exact htaken⟩
  · obtain ⟨status, hfulfilled, hbroken | ⟨hserver, htaken⟩⟩ := hs.fulfilled hdeleted
    · exact ⟨status, hfulfilled, .inl hbroken⟩
    · obtain ⟨hsame, hserver'⟩ := hended status hserver
      exact ⟨status, hfulfilled, .inr ⟨hserver', by rw [hsame]; exact htaken⟩⟩

/-- An operation of the client completes. -/
theorem Linked.client {eventStatus : Bool} (h : s.step f handler k (.client eventStatus) = some s')
    (hs : s.Linked f k) : s'.Linked f k := by
  simp only [step, Option.bind_eq_bind, Option.bind_eq_some_iff, Option.some.injEq] at h
  obtain ⟨op, hop, e, hcompletion, stream, hstep, rfl⟩ := h
  obtain ⟨reply, es, hprogress⟩ := hs.progress
  have hprogress' := Stream.progress_step hstep hprogress
  cases Stream.next_of_step hprogress hop hstep with
  | start hhandled hstatus hdeleted =>
    simp only [completion, Option.ite_none_right_eq_some, Option.some.injEq] at hcompletion
    obtain ⟨hok, rfl⟩ := hcompletion
    refine ⟨hs.follows, ⟨reply, _, hprogress'⟩, hhandled.trans hs.handled, hs.taken,
      fun hfinish hbroken ↦ ?_, fun h ↦ absurd (hdeleted.symm.trans h) (by decide)⟩
    -- the start fails only if the connection has broken
    have hbroken : s.broken = none := hbroken
    rw [hstatus, hok, hbroken] at hfinish
    cases hfinish
  | read hhandled hstatus hdeleted =>
    cases eventStatus with
    | true =>
      obtain ⟨message, hmessage, rfl⟩ := Option.map_eq_some_iff.mp hcompletion
      obtain ⟨hlt, rfl⟩ := List.getElem?_eq_some_iff.mp hmessage
      refine ⟨hs.follows, ⟨reply, _, hprogress'⟩, ?_, hlt, fun hfinish ↦ ?_,
        fun h ↦ absurd (hdeleted.symm.trans h) (by decide)⟩
      · exact (hhandled.trans (congrArg (· ++ _) hs.handled)).trans
          (List.take_append_getElem hlt)
      · rw [hstatus] at hfinish
        cases hfinish
    | false =>
      simp only [completion, Option.ite_none_right_eq_some, Option.some.injEq] at hcompletion
      obtain ⟨hend, rfl⟩ := hcompletion
      refine ⟨hs.follows, ⟨reply, _, hprogress'⟩, hhandled.trans hs.handled, hs.taken,
        fun _ hbroken ↦ ?_, fun h ↦ absurd (hdeleted.symm.trans h) (by decide)⟩
      have hbroken : s.broken = none := hbroken
      rw [hbroken] at hend
      obtain ⟨hserver, htaken⟩ := hend.resolve_left (by simp)
      obtain ⟨status, hserver⟩ := Option.isSome_iff_exists.mp hserver
      exact ⟨status, hserver, htaken⟩
  | finish hhandled hwas hdeleted hfulfilled =>
    obtain ⟨status, hstatus, rfl⟩ := Option.map_eq_some_iff.mp hcompletion
    refine ⟨hs.follows, ⟨reply, _, hprogress'⟩, hhandled.trans hs.handled, hs.taken,
      fun _ hbroken ↦ hs.finish hwas hbroken, fun _ ↦ ⟨status, hfulfilled, ?_⟩⟩
    cases hbroken : s.broken with
    | some status' =>
      rw [hbroken] at hstatus
      exact .inl (by simpa using hstatus)
    | none =>
      rw [hbroken] at hstatus
      obtain ⟨status', hserver, htaken⟩ := hs.finish hwas hbroken
      exact .inr ⟨hstatus, htaken⟩

/-- The connection breaks. -/
theorem Linked.breaks {status : Status} (h : s.step f handler k (.breaks status) = some s')
    (hs : s.Linked f k) : s'.Linked f k := by
  simp only [step, Option.ite_none_right_eq_some, Option.some.injEq] at h
  obtain ⟨⟨-, hnone⟩, rfl⟩ := h
  refine ⟨hs.follows, hs.progress, hs.handled, hs.taken, fun _ h ↦ absurd h (by simp),
    fun hdeleted ↦ ?_⟩
  obtain ⟨status', hfulfilled, hbroken | hserver⟩ := hs.fulfilled hdeleted
  · cases hnone.symm.trans hbroken
  · exact ⟨status', hfulfilled, .inr hserver⟩

/-- No call of the server is shut down. -/
def Event.Serves : Event Env REQ → Prop
  | .server e => e.Serves
  | .client _ | .breaks _ => True

theorem linked_run {es : List (Event Env REQ)} (hes : ∀ e ∈ es, e.Serves)
    (h : run f handler k env reply es = some s) : s.Linked f k := by
  have hmeets : Steps.Meets (step f handler k) (fun _ e ↦ e.Serves) (start env reply) es :=
    Steps.meets_of_forall fun e he _ ↦ hes e he
  refine Steps.steps_inv ?_ hmeets h (linked_start f k env reply)
  intro s e s' he h hs
  cases e with
  | server e =>
    obtain ⟨pool, hpool, rfl⟩ := Option.map_eq_some_iff.mp h
    exact hs.server he hpool
  | client eventStatus => exact hs.client h
  | breaks status => exact hs.breaks h

/-- What an event is to the server. -/
def Event.atServer? : Event Env REQ → Option (Tagged.Event Env REQ)
  | .server e => some e
  | .client _ | .breaks _ => none

/-- **The server is a server in service.** -/
theorem run_server {es : List (Event Env REQ)} (h : run f handler k env reply es = some s) :
    AsyncServerStreamCall.run f env (es.filterMap Event.atServer?) = some s.pool := by
  refine (Steps.steps_part Delivery.pool (P := fun _ ↦ True) ?_ h trivial).2
  intro s e s' h _
  refine ⟨trivial, ?_⟩
  cases e with
  | server e =>
    obtain ⟨pool, hpool, rfl⟩ := Option.map_eq_some_iff.mp h
    exact Steps.steps_one hpool
  | client eventStatus =>
    simp only [step, Option.bind_eq_bind, Option.bind_eq_some_iff, Option.some.injEq] at h
    obtain ⟨op, -, e, -, stream, -, rfl⟩ := h
    rfl
  | breaks status =>
    simp only [step, Option.ite_none_right_eq_some, Option.some.injEq] at h
    obtain ⟨-, rfl⟩ := h
    rfl

omit [Inhabited REQ] [Inhabited RES] in
theorem serves_atServer {es : List (Event Env REQ)} (hes : ∀ e ∈ es, e.Serves) :
    ∀ e ∈ es.filterMap Event.atServer?, e.Serves := by
  intro e₁ he₁
  obtain ⟨e, he, hat⟩ := List.mem_filterMap.mp he₁
  cases e with
  | server e =>
    obtain rfl := Option.some.inj hat
    exact hes _ he
  | client | breaks => cases hat

/-- What is outside when the `k`-th call of the server is served, and what it is served with. -/
def Served (f : AsyncServerStreamCall.Callbacks Env REQ RES E) (env : Env)
    (es : List (Event Env REQ)) (k : ℕ) : Env → REQ → Prop :=
  Pool.ServedIn (AsyncServerStreamCall.behaviour f) (AsyncServerStreamCall.start env)
    (es.filterMap Event.atServer?) k

/-- **Messages are delivered in order**, without loss and without repetition, whatever the two ends
do in between.  When the client is done, and the connection has not broken before, `handler_` was
called with all that the callbacks of the server have made of the request, and the promise holds the
status that the server has finished with; if the connection has broken, the promise holds the error
of that. -/
theorem delivered_in_order {es : List (Event Env REQ)} (hes : ∀ e ∈ es, e.Serves)
    (h : run f handler k env reply es = some s) :
    s.stream.handled <+: s.sent k ∧
      (s.stream.object.deleted = 1 → ∃ status, s.stream.fulfilled = [Stream.outcome status] ∧
        (s.broken = some status ∨ ∃ o, s.pool.objects[k]? = some o ∧
          AsyncServerStreamCall.Answered f (Served f env es k) o status s.stream.handled)) := by
  have hs := linked_run hes h
  refine ⟨hs.handled ▸ List.take_prefix _ _, fun hdeleted ↦ ?_⟩
  obtain ⟨status, hfulfilled, hbroken | ⟨hserver, htaken⟩⟩ := hs.fulfilled hdeleted
  · exact ⟨status, hfulfilled, .inl hbroken⟩
  refine ⟨status, hfulfilled, .inr ?_⟩
  obtain ⟨o, ho, hended⟩ := Option.bind_eq_some_iff.mp hserver
  refine ⟨o, ho, ?_⟩
  have hall : s.stream.handled = AsyncServerStreamCall.messages o := by
    rw [hs.handled, htaken, List.take_length, sent, ho, Option.elim_some]
  obtain ⟨hfollows, -⟩ :=
    (AsyncServerStreamCall.run_serves (serves_atServer hes) (run_server h)).2 k o ho
  rw [hall]
  exact hfollows.answered hended

/-- The odd numbers below `4`: the client reads the first before the second is written. -/
def twoMessages : List (Event Unit ℕ) :=
  [.server (.serve 0 0 4), .client true, .client true, .server (.serve 0 0 0),
    .server (.serve 0 0 0), .client true, .client false, .client true]

theorem delivered_in_order_two :
    ∃ s, run AsyncServerStreamCall.oddNumbers id 0 () 0 twoMessages = some s ∧
      s.stream.handled = [1, 3] ∧ s.stream.handled <+: s.sent 0 ∧
      ∃ status, s.stream.fulfilled = [Stream.outcome status] ∧
        (s.broken = some status ∨ ∃ o, s.pool.objects[0]? = some o ∧
          AsyncServerStreamCall.Answered AsyncServerStreamCall.oddNumbers
            (Served AsyncServerStreamCall.oddNumbers () twoMessages 0) o status
            s.stream.handled) := by
  have hall (s : Delivery Unit ℕ ℕ ℕ)
      (h : run AsyncServerStreamCall.oddNumbers id 0 () 0 twoMessages = some s) :=
    delivered_in_order (by simp [twoMessages, Event.Serves, Tagged.Event.Serves]) h
  exact ⟨_, rfl, rfl, (hall _ rfl).1, (hall _ rfl).2 rfl⟩

/-! ## Both go on -/

omit [Inhabited REQ] [Inhabited RES] in
/-- There is one operation of the client. -/
theorem index_completion {op : Operation} {b : Bool} {e : Completion RES}
    (h : s.completion k op b = some e) : e.index = 0 := by
  cases op with
  | start =>
    simp only [completion, Option.ite_none_right_eq_some, Option.some.injEq] at h
    obtain ⟨-, rfl⟩ := h
    rfl
  | read =>
    cases b with
    | true =>
      obtain ⟨message, -, rfl⟩ := Option.map_eq_some_iff.mp h
      rfl
    | false =>
      simp only [completion, Option.ite_none_right_eq_some, Option.some.injEq] at h
      obtain ⟨-, rfl⟩ := h
      rfl
  | finish =>
    obtain ⟨status, -, rfl⟩ := Option.map_eq_some_iff.mp h
    rfl

/-- The outstanding operation of the client completes, if the connection lets it. -/
theorem isSome_client {op : Operation} {b : Bool} (hop : s.stream.object.pending[0]? = some op)
    (h : (s.completion k op b).isSome = true) :
    (s.step f handler k (.client b)).isSome = true := by
  obtain ⟨e, he⟩ := Option.isSome_iff_exists.mp h
  have hstep : (s.stream.step handler e).isSome = true := by
    simp [Stream.step, index_completion he, hop]
  obtain ⟨stream, hstream⟩ := Option.isSome_iff_exists.mp hstep
  simp [step, hop, he, hstream]

/-- A read of the client can complete, or the server can go on to write or to finish. -/
theorem read_or_serve (hs : s.Linked f k) (hk : k < s.pool.objects.length) :
    (∃ b, (s.completion k .read b).isSome = true) ∨
      ∃ o op, s.pool.objects[k]? = some o ∧ o.pending[0]? = some op := by
  rcases Nat.lt_or_ge s.taken (s.sent k).length with hlt | hge
  · exact .inl ⟨true, by simp [completion, hlt]⟩
  have htaken : s.taken = (s.sent k).length := Nat.le_antisymm hs.taken hge
  have ho : s.pool.objects[k]? = some s.pool.objects[k] := List.getElem?_eq_getElem hk
  cases hended : AsyncServerStreamCall.ended s.pool.objects[k] with
  | some status =>
    have hserver : s.serverStatus k = some status := by
      rw [serverStatus, ho, Option.bind_some, hended]
    exact .inl ⟨false, by simp [completion, hserver, htaken]⟩
  | none =>
    obtain ⟨op, hop⟩ := (hs.follows _ (List.getElem_mem hk)).pending_of_not_ended hended
    exact .inr ⟨_, op, ho, hop⟩

/-- **Nobody waits for nothing**: as long as the client is not done, its operation can complete, or
the call of the server that serves it can go on. -/
theorem delivery_goes_on {es : List (Event Env REQ)} (hes : ∀ e ∈ es, e.Serves)
    (h : run f handler k env reply es = some s) (hk : k < s.pool.objects.length)
    (hdeleted : s.stream.object.deleted ≠ 1) :
    (∃ b, (s.step f handler k (.client b)).isSome = true) ∨
      ∀ data, (s.step f handler k (.server (.serve k 0 data))).isSome = true := by
  have hs := linked_run hes h
  obtain ⟨reply, es, hprogress⟩ := hs.progress
  obtain ⟨op, hop, hfinish⟩ := Stream.pending_of_progress hprogress hdeleted
  cases op with
  | start => exact .inl ⟨s.broken.isNone, isSome_client hop (by simp [completion])⟩
  | read =>
    rcases read_or_serve hs hk with ⟨b, hb⟩ | ⟨o, op', ho, hop'⟩
    · exact .inl ⟨b, isSome_client hop hb⟩
    · exact .inr fun data ↦ by simp [step, Pool.step, ho, hop']
  | finish =>
    refine .inl ⟨true, isSome_client hop ?_⟩
    cases hbroken : s.broken with
    | some status => simp [completion, hbroken]
    | none =>
      obtain ⟨status, hserver, -⟩ := hs.finish (hfinish rfl) hbroken
      simp [completion, hbroken, hserver]

/-- The client waits for a message that the server has not written. -/
theorem delivery_goes_on_small :
    ∃ s : Delivery Unit ℕ ℕ ℕ,
      run AsyncServerStreamCall.oddNumbers id 0 () 0 [.client true] = some s ∧
        ((∃ b, (s.step AsyncServerStreamCall.oddNumbers id 0 (.client b)).isSome = true) ∨
          ∀ data, (s.step AsyncServerStreamCall.oddNumbers id 0
            (.server (.serve 0 0 data))).isSome = true) := by
  refine ⟨_, rfl, ?_⟩
  exact @delivery_goes_on _ _ _ _ _ _ AsyncServerStreamCall.oddNumbers id 0 () 0 _ [.client true]
    (by simp [Event.Serves]) rfl (by decide) (by decide)

end Delivery
end Egrpc
end Cppkg
