import Cppkg.Egrpc.ClientAsync
import Cppkg.Egrpc.ServerAsync
import Mathlib.Data.List.Nodup
import Mathlib.Logic.Function.Basic

/-!
# A request from one end to the other

On one end a chain of `AsyncClientHandler`s, on the other the `AsyncServerCall`s of a server that
serves other clients too.  Each attempt is a call of its own.  Its request arrives at the call of
the server that waits, or it never does, and its `Finish` completes once: with what the call of the
server has answered, or with an error of the connection.  That may be before the request has
arrived, and also when the server has done its work; the request may even arrive later.  No call of
the server is shut down.

What is here:

* `exchanged`: what the client is told is what the server has done;
* `executed_each_attempt`: how often the server has done it, if the connection gives up nothing;
* `exchange_goes_on`: it comes to an end, and until then nobody waits for nothing.
-/

set_option autoImplicit false

namespace Cppkg
namespace Egrpc

open Tagged

/-! ## What the server has answered -/

namespace AsyncServerCall

variable {Env REQ RES : Type}

/-- What an operation leaves in `status_` and `reply_` of the client, if it is an answer. -/
def Op.outcome? [Inhabited RES] : Op RES → Option (Status × RES)
  | .request => none
  | .finish res status => some (status, res)
  | .finishWithError status => some (status, default)

section

variable [Inhabited REQ] [Inhabited RES] {writeCall : WriteF Env REQ RES} {R : Env → REQ → Prop}
  {o : Object (AsyncServerCall REQ RES) (Op RES)} {env : Env} {i : ℕ} {op : Op RES} {data : REQ}

/-- A call on its way that waits is as it was created. -/
theorem Follows.eq_create (h : Follows writeCall R o) (hwaits : waits o = true) : o = create := by
  cases h with
  | waiting => rfl
  | finishing => simp [waits] at hwaits
  | finished => simp [waits] at hwaits

/-- What has been returned stays. -/
theorem Follows.state_serve (h : Follows writeCall R o) (hreturned : o.state.returned.isSome = true)
    (hop : o.pending[i]? = some op) :
    (serve writeCall env (receive op data o.state)).2.state = o.state := by
  cases h with
  | waiting => cases hreturned
  | finishing =>
    obtain ⟨rfl, rfl⟩ := Object.eq_of_singleton hop
    rw [receive_answer, serve_done rfl]
    rfl
  | finished => cases hop

/-- **The answer of a call** is what `write_call_` has returned; with an error there is no
reply. -/
theorem Follows.outcome (h : Follows writeCall R o) {status : Status} {reply : RES}
    (hreturned : o.state.returned = some (status, reply)) :
    o.issued.findSome? Op.outcome? = some (status, if status.ok then reply else default) := by
  cases h with
  | waiting => cases hreturned
  | finishing | finished =>
    obtain ⟨rfl, rfl⟩ := Prod.mk.inj (Option.some.inj hreturned)
    rw [answer]
    split <;> rfl

end

end AsyncServerCall

/-! ## Which attempts are over -/

namespace AsyncClientHandler

/-- The event is the end of the `k`-th attempt. -/
def Event.isHandle (k : ℕ) : Event → Bool
  | .handle j => j == k
  | .goOn _ => false

namespace Client

variable {RES : Type} {hasCb : Bool} {outcome outcome' : ℕ → Status × RES} {nretries j k : ℕ}
  {s s' : Client RES} {e : Event}

/-- The `k`-th attempt was made, and is over. -/
def isOver (s : Client RES) (k : ℕ) : Bool := (s.handlers[k]?).any fun h ↦ h.phase != .trying

theorem isOver_set {handlers : List AsyncClientHandler} {h h' : AsyncClientHandler}
    (hk : handlers[k]? = some h) (hphase : h'.phase ≠ .trying) (j : ℕ) :
    ((handlers.set k h')[j]?).any (fun h ↦ h.phase != .trying)
      = ((handlers[j]?).any (fun h ↦ h.phase != .trying) || k == j) := by
  obtain ⟨hlt, -⟩ := List.getElem?_eq_some_iff.mp hk
  by_cases hkj : k = j
  · subst hkj
    simp [hlt, hphase]
  · simp [List.getElem?_set_ne hkj, hkj]

theorem isOver_append (handlers : List AsyncClientHandler) {h : AsyncClientHandler}
    (hphase : h.phase = .trying) (j : ℕ) :
    ((handlers ++ [h])[j]?).any (fun h ↦ h.phase != .trying)
      = (handlers[j]?).any (fun h ↦ h.phase != .trying) := by
  rcases Nat.lt_or_ge j handlers.length with hlt | hge
  · rw [List.getElem?_append_left hlt]
  · rw [List.getElem?_append_right hge, List.getElem?_eq_none hge, List.getElem?_singleton]
    split
    · simp [hphase]
    · rfl

theorem HandedOver.phase {h : AsyncClientHandler} (hover : HandedOver h) : h.phase ≠ .trying := by
  cases hover <;> simp

/-- **What is over after a step**: what was over before, and the attempt whose end it is. -/
theorem isOver_step (h : s.step hasCb outcome e = some s') (j : ℕ) :
    s'.isOver j = (s.isOver j || e.isHandle j) := by
  cases e with
  | handle k =>
    simp only [step, Option.bind_eq_bind, Option.bind_eq_some_iff, Option.ite_none_right_eq_some,
      Option.some.injEq] at h
    obtain ⟨h, hk, hphase, rfl⟩ := h
    rw [handle]
    split
    · exact isOver_set hk (by simp) j
    · split
      · exact (isOver_append _ rfl j).trans (isOver_set hk (by simp) j)
      · exact isOver_set hk (by simp) j
  | goOn k =>
    simp only [step, Option.bind_eq_bind, Option.bind_eq_some_iff, Option.ite_none_right_eq_some,
      Option.some.injEq] at h
    obtain ⟨h, hk, hphase, rfl⟩ := h
    have hover : s.isOver k = true := by simp [isOver, hk, hphase]
    refine (isOver_set hk (by simp) j).trans ?_
    by_cases hkj : k = j
    · subst hkj
      exact (congrArg (· || _) hover).trans (by rw [hover]; rfl)
    · simp [isOver, Event.isHandle, hkj]

/-- Only the outcome of the attempt that ends makes a difference. -/
theorem step_congr (h : ∀ k, e = .handle k → outcome k = outcome' k) :
    s.step hasCb outcome e = s.step hasCb outcome' e := by
  cases e with
  | handle k => simp only [step, handle, h k rfl]
  | goOn k => rfl

theorem inits_step (h : s.step hasCb outcome e = some s') : s.inits ≤ s'.inits := by
  obtain ⟨k, h, -, ⟨-, rfl⟩ | ⟨-, rfl⟩⟩ := step_cases h
  · rw [handle]
    split
    · exact Nat.le_refl _
    · split
      · exact Nat.le_succ _
      · exact Nat.le_refl _
  · exact Nat.le_refl _

end Client
end AsyncClientHandler

/-! ## Both ends -/

open AsyncClientHandler

/-- The calls of a server, the handlers of a client, the call that has received the request of an
attempt, and what the attempts that are over have left in `status_` and `reply_`. -/
structure Exchange (Env REQ RES : Type) where
  pool : Pool Env (AsyncServerCall REQ RES) (AsyncServerCall.Op RES)
  client : Client RES
  servedBy : ℕ → Option ℕ
  outcomes : ℕ → Option (Status × RES)

namespace Exchange

/-- What can happen: something in the server that is not the client's; the request of the `k`-th
attempt arrives at the `j`-th call of the server; the answer to it arrives at the client; the
connection gives it up; the `k`-th handler goes on after it has created the next one. -/
inductive Event (Env REQ : Type)
  | server (e : Tagged.Event Env REQ)
  | arrives (k j : ℕ)
  | answered (k : ℕ)
  | fails (k : ℕ) (status : Status)
  | goOn (k : ℕ)

variable {Env REQ RES : Type}

section

variable [Inhabited REQ] [Inhabited RES]

section

variable (writeCall : AsyncServerCall.WriteF Env REQ RES) (hasCb : Bool) (request : ℕ → REQ)
  (s : Exchange Env REQ RES)

/-- The request of the `k`-th attempt arrives at the `j`-th call, which waits for one. -/
def arrives (k j : ℕ) : Option (Exchange Env REQ RES) :=
  if k < s.client.inits ∧ s.servedBy k = none ∧
      (s.pool.objects[j]?).any AsyncServerCall.waits = true
  then (Pool.step (AsyncServerCall.behaviour writeCall) s.pool (.serve j 0 (request k))).map
    fun pool ↦ { s with pool, servedBy := Function.update s.servedBy k (some j) }
  else none

/-- The `Finish` of the `k`-th attempt completes. -/
def completes (k : ℕ) (outcome : Status × RES) : Option (Exchange Env REQ RES) :=
  if (s.outcomes k).isNone then
    (s.client.step hasCb (fun _ ↦ outcome) (.handle k)).map fun client ↦
      { s with client, outcomes := Function.update s.outcomes k (some outcome) }
  else none

/-- What the server has answered to the `k`-th attempt. -/
def answer (k : ℕ) : Option (Status × RES) := do
  let j ← s.servedBy k
  let o ← s.pool.objects[j]?
  o.issued.findSome? AsyncServerCall.Op.outcome?

/-- A step of either end.  `request k` is what `init_` asks for at its `k`-th call. -/
def step : Event Env REQ → Option (Exchange Env REQ RES)
  | .server e => (Pool.step (AsyncServerCall.behaviour writeCall) s.pool e).map fun pool ↦
      { s with pool }
  | .arrives k j => s.arrives writeCall request k j
  | .answered k => (s.answer k).bind (s.completes hasCb k)
  | .fails k status => if status.ok = false then s.completes hasCb k (status, default) else none
  | .goOn k => (s.client.step hasCb (fun _ ↦ (.OK, default)) (.goOn k)).map fun client ↦
      { s with client }

end

/-- A server with one call, and a client that has made its first attempt. -/
def start (env : Env) (nretries : ℕ) : Exchange Env REQ RES :=
  ⟨AsyncServerCall.start env, Client.start nretries, fun _ ↦ none, fun _ ↦ none⟩

/-- Where both ends are after these events. -/
def run (writeCall : AsyncServerCall.WriteF Env REQ RES) (hasCb : Bool) (request : ℕ → REQ)
    (env : Env) (nretries : ℕ) (es : List (Event Env REQ)) : Option (Exchange Env REQ RES) :=
  Steps.steps (step writeCall hasCb request) (start env nretries) es

/-- No call of the server is shut down. -/
def Event.Serves : Event Env REQ → Prop
  | .server e => e.Serves
  | .arrives _ _ | .answered _ | .fails _ _ | .goOn _ => True

/-- What an event is to the server. -/
def Event.atServer? (request : ℕ → REQ) : Event Env REQ → Option (Tagged.Event Env REQ)
  | .server e => some e
  | .arrives k j => some (.serve j 0 (request k))
  | .answered _ | .fails _ _ | .goOn _ => none

/-- What an event is to the client. -/
def Event.atClient? : Event Env REQ → Option AsyncClientHandler.Event
  | .server _ | .arrives _ _ => none
  | .answered k | .fails k _ => some (.handle k)
  | .goOn k => some (.goOn k)

/-! ### What each step does -/

variable {writeCall : AsyncServerCall.WriteF Env REQ RES} {hasCb : Bool} {request : ℕ → REQ}
  {env : Env} {nretries j k : ℕ} {s s' : Exchange Env REQ RES} {e : Event Env REQ}
  {es : List (Event Env REQ)} {r : Status × RES}

theorem arrives_eq_some : s.arrives writeCall request k j = some s' ↔
    (k < s.client.inits ∧ s.servedBy k = none ∧
      (s.pool.objects[j]?).any AsyncServerCall.waits = true) ∧
    ∃ pool, Pool.step (AsyncServerCall.behaviour writeCall) s.pool (.serve j 0 (request k))
        = some pool ∧
      s' = { s with pool, servedBy := Function.update s.servedBy k (some j) } := by
  rw [arrives, Option.ite_none_right_eq_some, Option.map_eq_some_iff]
  simp only [eq_comm]

omit [Inhabited REQ] [Inhabited RES] in
theorem completes_eq_some : s.completes hasCb k r = some s' ↔
    s.outcomes k = none ∧ ∃ client, s.client.step hasCb (fun _ ↦ r) (.handle k) = some client ∧
      s' = { s with client, outcomes := Function.update s.outcomes k (some r) } := by
  rw [completes, Option.ite_none_right_eq_some, Option.map_eq_some_iff, Option.isNone_iff_eq_none]
  simp only [eq_comm]

/-- **What a step does**: to the server, which may receive a request of the client; or to the
client, one of whose attempts may be over. -/
theorem step_cases (h : s.step writeCall hasCb request e = some s') :
    (∃ e₁ pool, e.atServer? request = some e₁ ∧ e.atClient? = none ∧
      Pool.step (AsyncServerCall.behaviour writeCall) s.pool e₁ = some pool ∧
      (e = .server e₁ ∧ s' = { s with pool } ∨ ∃ k j, e = .arrives k j ∧
        k < s.client.inits ∧ s.servedBy k = none ∧
        (s.pool.objects[j]?).any AsyncServerCall.waits = true ∧
        s' = { s with pool, servedBy := Function.update s.servedBy k (some j) })) ∨
    (∃ e₁ client r, e.atServer? request = none ∧ e.atClient? = some e₁ ∧
      s.client.step hasCb (fun _ ↦ r) e₁ = some client ∧
      ((∃ k, e₁ = .goOn k ∧ s' = { s with client }) ∨
        ∃ k, e₁ = .handle k ∧ s.outcomes k = none ∧
          (s.answer k = some r ∨ r.1.ok = false ∧ e = .fails k r.1) ∧
          s' = { s with client, outcomes := Function.update s.outcomes k (some r) })) := by
  cases e with
  | server e =>
    obtain ⟨pool, hpool, rfl⟩ := Option.map_eq_some_iff.mp h
    exact .inl ⟨e, pool, rfl, rfl, hpool, .inl ⟨rfl, rfl⟩⟩
  | arrives k j =>
    obtain ⟨⟨hk, hnone, hwaits⟩, pool, hpool, rfl⟩ := arrives_eq_some.mp h
    exact .inl ⟨_, pool, rfl, rfl, hpool, .inr ⟨k, j, rfl, hk, hnone, hwaits, rfl⟩⟩
  | answered k =>
    obtain ⟨r, hr, h⟩ := Option.bind_eq_some_iff.mp h
    obtain ⟨hnone, client, hclient, rfl⟩ := completes_eq_some.mp h
    exact .inr ⟨_, client, r, rfl, rfl, hclient, .inr ⟨k, rfl, hnone, .inl hr, rfl⟩⟩
  | fails k status =>
    obtain ⟨hstatus, h⟩ := Option.ite_none_right_eq_some.mp h
    obtain ⟨hnone, client, hclient, rfl⟩ := completes_eq_some.mp h
    exact .inr ⟨_, client, _, rfl, rfl, hclient, .inr ⟨k, rfl, hnone, .inr ⟨hstatus, rfl⟩, rfl⟩⟩
  | goOn k =>
    obtain ⟨client, hclient, rfl⟩ := Option.map_eq_some_iff.mp h
    exact .inr ⟨_, client, _, rfl, rfl, hclient, .inl ⟨k, rfl, rfl⟩⟩

/-! ### Each end by itself -/

/-- **The server is a server in service**, to which the client's requests come like others. -/
theorem run_server (h : run writeCall hasCb request env nretries es = some s) :
    AsyncServerCall.run writeCall env (es.filterMap (Event.atServer? request)) = some s.pool := by
  refine (Steps.steps_part Exchange.pool (P := fun _ ↦ True) ?_ h trivial).2
  intro s e s' h _
  refine ⟨trivial, ?_⟩
  rcases step_cases h with ⟨e₁, pool, he, -, hpool, ⟨-, rfl⟩ | ⟨k, j, -, -, -, -, rfl⟩⟩ |
    ⟨e₁, client, r, he, -, -, ⟨k, -, rfl⟩ | ⟨k, -, -, -, rfl⟩⟩
  · rw [he]
    exact Steps.steps_one hpool
  · rw [he]
    exact Steps.steps_one hpool
  · rw [he]
    rfl
  · rw [he]
    rfl

/-- **The client is a client** whose attempts come out as they have here. -/
theorem run_client {outcome : ℕ → Status × RES}
    (h : run writeCall hasCb request env nretries es = some s)
    (houtcome : ∀ k r, s.outcomes k = some r → outcome k = r) :
    Client.run hasCb outcome nretries (es.filterMap Event.atClient?) = some s.client := by
  refine (Steps.steps_part Exchange.client
    (P := fun s ↦ ∀ k r, s.outcomes k = some r → outcome k = r) ?_ h houtcome).2
  intro s e s' h houtcome
  rcases step_cases h with ⟨e₁, pool, -, he, -, ⟨-, rfl⟩ | ⟨k, j, -, -, -, -, rfl⟩⟩ |
    ⟨e₁, client, r, -, he, hclient, ⟨k, rfl, rfl⟩ | ⟨k, rfl, hnone, -, rfl⟩⟩
  · rw [he]
    exact ⟨houtcome, rfl⟩
  · rw [he]
    exact ⟨houtcome, rfl⟩
  · rw [he]
    exact ⟨houtcome, Steps.steps_one hclient⟩
  · have hr : outcome k = r := houtcome k r (Function.update_self ..)
    refine ⟨fun k' r' hr' ↦ houtcome k' r' ?_, ?_⟩
    · -- what was over before was the end of another attempt
      have hne : k' ≠ k := by
        rintro rfl
        cases hnone.symm.trans hr'
      exact (Function.update_of_ne hne ..).trans hr'
    · rw [he]
      refine Steps.steps_one ((Client.step_congr ?_).trans hclient)
      rintro k' hk'
      obtain rfl : k = k' := by injection hk'
      exact hr

/-! ### What both ends keep to -/

/-- **What the server has done** about the `k`-th attempt: its request has arrived at the `j`-th
call, and `write_call_` has returned this for it, with what was outside then. -/
def Executed (writeCall : AsyncServerCall.WriteF Env REQ RES) (hasCb : Bool) (request : ℕ → REQ)
    (env : Env) (nretries : ℕ) (es : List (Event Env REQ)) (k j : ℕ) (status : Status)
    (reply : RES) : Prop :=
  ∃ fs gs s, es = fs ++ .arrives k j :: gs ∧
    run writeCall hasCb request env nretries fs = some s ∧
    (writeCall s.pool.env (request k) default).2 = (status, reply)

theorem Executed.append {status : Status} {reply : RES}
    (h : Executed writeCall hasCb request env nretries es k j status reply)
    (fs : List (Event Env REQ)) :
    Executed writeCall hasCb request env nretries (es ++ fs) k j status reply := by
  obtain ⟨es₁, es₂, s, rfl, hrun, hreturned⟩ := h
  exact ⟨es₁, es₂ ++ fs, s, by simp, hrun, hreturned⟩

/-- What both ends keep to, after the events `es`. -/
structure Linked (writeCall : AsyncServerCall.WriteF Env REQ RES) (hasCb : Bool)
    (request : ℕ → REQ) (env : Env) (nretries : ℕ) (es : List (Event Env REQ))
    (s : Exchange Env REQ RES) : Prop where
  follows : ∀ o ∈ s.pool.objects, AsyncServerCall.Follows writeCall (fun _ _ ↦ True) o
  isOver : ∀ k, s.client.isOver k = (s.outcomes k).isSome
  started : ∀ k j, s.servedBy k = some j → k < s.client.inits
  /-- A call receives one request, … -/
  alone : ∀ k k' j, s.servedBy k = some j → s.servedBy k' = some j → k = k'
  /-- … and serves it. -/
  served : ∀ k j, s.servedBy k = some j → ∃ o status reply, s.pool.objects[j]? = some o ∧
    o.state.returned = some (status, reply) ∧
    Executed writeCall hasCb request env nretries es k j status reply
  /-- What the client is told is what the server has done, unless the connection gives up. -/
  outcomes : ∀ k r, s.outcomes k = some r →
    (∃ j reply, Executed writeCall hasCb request env nretries es k j r.1 reply ∧
      r.2 = if r.1.ok then reply else default) ∨ (r.1.ok = false ∧ .fails k r.1 ∈ es)

theorem linked_start (writeCall : AsyncServerCall.WriteF Env REQ RES) (hasCb : Bool)
    (request : ℕ → REQ) (env : Env) (nretries : ℕ) :
    Linked writeCall hasCb request env nretries [] (start env nretries) where
  follows := List.forall_mem_singleton.mpr .waiting
  isOver k := by rcases k with _ | k <;> rfl
  started _ _ h := by cases h
  alone _ _ _ h := by cases h
  served _ _ h := by cases h
  outcomes _ _ h := by cases h

/-- A call that has returned something stays as it is when the server goes on. -/
theorem state_step {e₁ : Tagged.Event Env REQ} {o : Object (AsyncServerCall REQ RES) _}
    {pool pool' : Pool Env (AsyncServerCall REQ RES) (AsyncServerCall.Op RES)} (he : e₁.Serves)
    (h : Pool.step (AsyncServerCall.behaviour writeCall) pool e₁ = some pool')
    (hfollows : ∀ o ∈ pool.objects, AsyncServerCall.Follows writeCall (fun _ _ ↦ True) o)
    (ho : pool.objects[j]? = some o) (hreturned : o.state.returned.isSome = true) :
    ∃ o', pool'.objects[j]? = some o' ∧ o'.state = o.state := by
  rcases Pool.getElem?_step_of_serves he h ho with hsame | ⟨i, data, op, hop, hserved⟩
  · exact ⟨o, hsame, rfl⟩
  · exact ⟨_, hserved, (hfollows o (List.mem_of_getElem? ho)).state_serve hreturned hop⟩

/-- The call whose request arrives serves it. -/
theorem state_arrives {data : REQ} {o : Object (AsyncServerCall REQ RES) (AsyncServerCall.Op RES)}
    {pool pool' : Pool Env (AsyncServerCall REQ RES) (AsyncServerCall.Op RES)}
    (h : Pool.step (AsyncServerCall.behaviour writeCall) pool (.serve j 0 data) = some pool')
    (ho : pool.objects[j]? = some o) (hcreate : o = AsyncServerCall.create) :
    ∃ o', pool'.objects[j]? = some o' ∧
      o'.state.returned = some (writeCall pool.env data default).2 := by
  subst hcreate
  obtain ⟨env, he, -⟩ | ⟨k, o, i, data', op, he, ho', hop, rfl⟩ :=
    Pool.step_cases_of_serves (e := .serve j 0 data) trivial h
  · cases he
  · obtain ⟨rfl, rfl, rfl⟩ : j = k ∧ 0 = i ∧ data = data' := by
      injection he with hk hi hdata
      exact ⟨hk, hi, hdata⟩
    obtain rfl := Option.some.inj (ho.symm.trans ho')
    obtain ⟨-, rfl⟩ := Object.eq_of_singleton hop
    refine ⟨_, Pool.getElem?_call ho _ _ _ ho, ?_⟩
    rw [if_pos rfl]
    rfl

/-- The server goes on. -/
theorem Linked.pool_step {e₁ : Tagged.Event Env REQ}
    {pool : Pool Env (AsyncServerCall REQ RES) (AsyncServerCall.Op RES)} (he : e₁.Serves)
    (h : Pool.step (AsyncServerCall.behaviour writeCall) s.pool e₁ = some pool)
    (hs : s.Linked writeCall hasCb request env nretries es) :
    Linked writeCall hasCb request env nretries es { s with pool } := by
  refine ⟨Pool.serves_step (AsyncServerCall.lifecycle writeCall).keeps he h hs.follows, hs.isOver,
    hs.started, hs.alone, fun k j hj ↦ ?_, hs.outcomes⟩
  obtain ⟨o, status, reply, ho, hreturned, hexecuted⟩ := hs.served k j hj
  obtain ⟨o', ho', hstate⟩ := state_step he h hs.follows ho (by rw [hreturned]; rfl)
  exact ⟨o', status, reply, ho', by rw [hstate]; exact hreturned, hexecuted⟩

/-- The request of an attempt arrives at a call. -/
theorem Linked.receives {o : Object (AsyncServerCall REQ RES) (AsyncServerCall.Op RES)}
    {status : Status} {reply : RES} (hs : s.Linked writeCall hasCb request env nretries es)
    (hk : k < s.client.inits) (hj : ∀ k', s.servedBy k' ≠ some j)
    (ho : s.pool.objects[j]? = some o) (hreturned : o.state.returned = some (status, reply))
    (hexecuted : Executed writeCall hasCb request env nretries es k j status reply) :
    Linked writeCall hasCb request env nretries es
      { s with servedBy := Function.update s.servedBy k (some j) } := by
  have hcases : ∀ k' j', Function.update s.servedBy k (some j) k' = some j' →
      k' = k ∧ j' = j ∨ k' ≠ k ∧ s.servedBy k' = some j' := by
    intro k' j' h
    by_cases hkk : k' = k
    · subst hkk
      rw [Function.update_self] at h
      exact .inl ⟨rfl, (Option.some.inj h).symm⟩
    · rw [Function.update_of_ne hkk] at h
      exact .inr ⟨hkk, h⟩
  refine ⟨hs.follows, hs.isOver, fun k' j' h ↦ ?_, fun k' k'' j' h h' ↦ ?_, fun k' j' h ↦ ?_,
    hs.outcomes⟩
  · rcases hcases k' j' h with ⟨rfl, -⟩ | ⟨-, h⟩
    · exact hk
    · exact hs.started k' j' h
  · rcases hcases k' j' h with ⟨rfl, rfl⟩ | ⟨-, hold⟩
    · rcases hcases k'' j' h' with ⟨rfl, -⟩ | ⟨-, hold'⟩
      · rfl
      · exact absurd hold' (hj k'')
    · rcases hcases k'' j' h' with ⟨rfl, rfl⟩ | ⟨-, hold'⟩
      · exact absurd hold (hj k')
      · exact hs.alone k' k'' j' hold hold'
  · rcases hcases k' j' h with ⟨rfl, rfl⟩ | ⟨-, h⟩
    · exact ⟨o, status, reply, ho, hreturned, hexecuted⟩
    · exact hs.served k' j' h

/-- An event is over, after which both ends are as they were. -/
theorem Linked.append (hs : s.Linked writeCall hasCb request env nretries es) :
    s.Linked writeCall hasCb request env nretries (es ++ [e]) := by
  refine ⟨hs.follows, hs.isOver, hs.started, hs.alone, fun k j hj ↦ ?_, fun k r hr ↦ ?_⟩
  · obtain ⟨o, status, reply, ho, hreturned, hexecuted⟩ := hs.served k j hj
    exact ⟨o, status, reply, ho, hreturned, hexecuted.append [e]⟩
  · rcases hs.outcomes k r hr with ⟨j, reply, hexecuted, hreply⟩ | ⟨hok, hmem⟩
    · exact .inl ⟨j, reply, hexecuted.append [e], hreply⟩
    · exact .inr ⟨hok, List.mem_append_left _ hmem⟩

/-- The client goes on. -/
theorem Linked.client_step {client : Client RES} {outcome : ℕ → Status × RES}
    {e₁ : AsyncClientHandler.Event} (h : s.client.step hasCb outcome e₁ = some client)
    (hs : s.Linked writeCall hasCb request env nretries es)
    {outcomes : ℕ → Option (Status × RES)}
    (hover : ∀ k, (outcomes k).isSome = ((s.outcomes k).isSome || e₁.isHandle k))
    (hnew : ∀ k r, outcomes k = some r → s.outcomes k = some r ∨
      (∃ j reply, Executed writeCall hasCb request env nretries es k j r.1 reply ∧
        r.2 = if r.1.ok then reply else default) ∨ (r.1.ok = false ∧ .fails k r.1 ∈ es)) :
    Linked writeCall hasCb request env nretries es { s with client, outcomes } := by
  refine ⟨hs.follows, fun k ↦ ?_, fun k j hj ↦ ?_, hs.alone, hs.served, fun k r hr ↦ ?_⟩
  · rw [hover, ← hs.isOver k]
    exact Client.isOver_step h k
  · exact Nat.lt_of_lt_of_le (hs.started k j hj) (Client.inits_step h)
  · rcases hnew k r hr with hold | hnew
    · exact hs.outcomes k r hold
    · exact hnew

/-- What the call has returned that serves an attempt is what the server answers. -/
theorem Linked.answer (hs : s.Linked writeCall hasCb request env nretries es)
    (hj : s.servedBy k = some j) : ∃ status reply,
      Executed writeCall hasCb request env nretries es k j status reply ∧
      s.answer k = some (status, if status.ok then reply else default) := by
  obtain ⟨o, status, reply, ho, hreturned, hexecuted⟩ := hs.served k j hj
  refine ⟨status, reply, hexecuted, ?_⟩
  rw [Exchange.answer, hj, Option.bind_eq_bind, Option.bind_some, ho, Option.bind_eq_bind,
    Option.bind_some]
  exact (hs.follows o (List.mem_of_getElem? ho)).outcome hreturned

theorem Linked.executed_of_answer (hs : s.Linked writeCall hasCb request env nretries es)
    (hr : s.answer k = some r) : ∃ j reply,
      Executed writeCall hasCb request env nretries es k j r.1 reply ∧
      r.2 = if r.1.ok then reply else default := by
  obtain ⟨j, hj, -⟩ := Option.bind_eq_some_iff.mp hr
  obtain ⟨status, reply, hexecuted, hanswer⟩ := hs.answer hj
  obtain rfl := Option.some.inj (hanswer.symm.trans hr)
  exact ⟨j, reply, hexecuted, rfl⟩

omit [Inhabited REQ] [Inhabited RES] in
theorem Event.Serves.atServer {e₁ : Tagged.Event Env REQ} (he : e.Serves)
    (h : e.atServer? request = some e₁) : e₁.Serves := by
  cases e with
  | server e =>
    obtain rfl := Option.some.inj h
    exact he
  | arrives k j =>
    obtain rfl := Option.some.inj h
    trivial
  | answered | fails | goOn => cases h

omit [Inhabited REQ] [Inhabited RES] in
theorem serves_atServer (hes : ∀ e ∈ es, e.Serves) :
    ∀ e ∈ es.filterMap (Event.atServer? request), e.Serves := by
  intro e₁ he₁
  obtain ⟨e, he, hat⟩ := List.mem_filterMap.mp he₁
  exact (hes e he).atServer hat

theorem linked_step (hes : run writeCall hasCb request env nretries es = some s) (he : e.Serves)
    (h : s.step writeCall hasCb request e = some s')
    (hs : s.Linked writeCall hasCb request env nretries es) :
    s'.Linked writeCall hasCb request env nretries (es ++ [e]) := by
  rcases step_cases h with
    ⟨e₁, pool, hat, -, hpool, ⟨-, rfl⟩ | ⟨k, j, rfl, hk, -, hwaits, rfl⟩⟩ |
    ⟨e₁, client, r, -, -, hclient, ⟨k, rfl, rfl⟩ | ⟨k, rfl, hnone, hr, rfl⟩⟩
  · exact (hs.pool_step (he.atServer hat) hpool).append
  · have hpooled := hs.pool_step (he.atServer hat) hpool
    obtain rfl := Option.some.inj hat
    obtain ⟨o, ho, hwaits⟩ := (Option.any_eq_true ..).mp hwaits
    have hcreate := (hs.follows o (List.mem_of_getElem? ho)).eq_create hwaits
    obtain ⟨o', ho', hreturned⟩ := state_arrives hpool ho hcreate
    have hj : ∀ k', s.servedBy k' ≠ some j := by
      intro k' hk'
      obtain ⟨o₁, status, reply, ho₁, hreturned₁, -⟩ := hs.served k' j hk'
      obtain rfl := Option.some.inj (ho₁.symm.trans ho)
      rw [hcreate] at hreturned₁
      cases hreturned₁
    have hexecuted : Executed writeCall hasCb request env nretries (es ++ [.arrives k j]) k j
        (writeCall s.pool.env (request k) default).2.1
        (writeCall s.pool.env (request k) default).2.2 := ⟨es, [], s, rfl, hes, rfl⟩
    exact hpooled.append.receives hk hj ho' hreturned hexecuted
  · refine (hs.client_step hclient (fun k ↦ ?_) fun k r hr ↦ .inl hr).append
    exact (Bool.or_false _).symm
  · refine hs.append.client_step hclient (fun k' ↦ ?_) fun k' r' hr' ↦ ?_
    · by_cases hkk : k = k'
      · subst hkk
        simp [AsyncClientHandler.Event.isHandle]
      · simp [AsyncClientHandler.Event.isHandle, hkk, Function.update_of_ne (Ne.symm hkk)]
    · by_cases hkk : k' = k
      · subst hkk
        rw [Function.update_self] at hr'
        obtain rfl := Option.some.inj hr'
        refine .inr (hr.imp hs.append.executed_of_answer fun ⟨hok, hfails⟩ ↦ ⟨hok, ?_⟩)
        rw [hfails]
        exact List.mem_append_right _ List.mem_cons_self
      · rw [Function.update_of_ne hkk] at hr'
        exact .inl hr'

theorem linked_run (hes : ∀ e ∈ es, e.Serves)
    (h : run writeCall hasCb request env nretries es = some s) :
    s.Linked writeCall hasCb request env nretries es :=
  Steps.steps_history_of (fun _ _ _ _ ↦ linked_step) hes h
    (linked_start writeCall hasCb request env nretries)

/-! ### What the client is told -/

/-- What an attempt has left in `status_` and `reply_`, once it is over. -/
def outcome (s : Exchange Env REQ RES) (k : ℕ) : Status × RES :=
  (s.outcomes k).getD (.OK, default)

/-- The chain of handlers, as the outcomes of the attempts have made it. -/
theorem chained (h : run writeCall hasCb request env nretries es = some s) :
    Client.Chained hasCb s.outcome nretries s.client :=
  Client.chained_run (run_client h fun k r hr ↦ by rw [outcome, hr, Option.getD_some])

/-- An attempt that is over has an outcome. -/
theorem Linked.outcomes_of_over {handler : AsyncClientHandler}
    (hs : s.Linked writeCall hasCb request env nretries es)
    (hk : s.client.handlers[k]? = some handler) (hphase : handler.phase ≠ .trying) :
    s.outcomes k = some (s.outcome k) := by
  have hover : s.client.isOver k = true := by simp [Client.isOver, hk, hphase]
  rw [hs.isOver] at hover
  obtain ⟨r, hr⟩ := Option.isSome_iff_exists.mp hover
  rw [outcome, hr, Option.getD_some]

/-- **What the client is told**: nothing yet; that the server has done what it was asked for, with
the reply that it has made; or that the last attempt has failed, on the server or before. -/
inductive Told (writeCall : AsyncServerCall.WriteF Env REQ RES) (hasCb : Bool) (request : ℕ → REQ)
    (env : Env) (nretries : ℕ) (es : List (Event Env REQ)) (inits : ℕ) :
    List RES → List (ℕ × Option String) → Prop
  | nothing : Told writeCall hasCb request env nretries es inits [] []
  | reply {k j : ℕ} {status : Status} {reply : RES} (hinits : inits = k + 1)
      (hk : Executed writeCall hasCb request env nretries es k j status reply)
      (hok : status.ok = true) :
      Told writeCall hasCb request env nretries es inits (if hasCb then [reply] else []) [(k, none)]
  | error {status : Status} (hinits : inits = nretries + 1) (hok : status.ok = false)
      (hfailed : (∃ j reply,
          Executed writeCall hasCb request env nretries es nretries j status reply) ∨
        .fails nretries status ∈ es) :
      Told writeCall hasCb request env nretries es inits []
        [(nretries, some status.errorMessage)]

theorem told_of_last {front : List AsyncClientHandler} {last : AsyncClientHandler}
    {received : List RES} {fulfilled : List (ℕ × Option String)}
    (hs : s.Linked writeCall hasCb request env nretries es)
    (hhandlers : s.client.handlers = front ++ [last]) (hinits : s.client.inits = front.length + 1)
    (hlast : Client.Last hasCb s.outcome nretries front.length last received fulfilled) :
    Told writeCall hasCb request env nretries es s.client.inits received fulfilled := by
  have hget : s.client.handlers[front.length]? = some last := by
    rw [hhandlers, List.getElem?_concat_length]
  cases hlast with
  | trying => exact .nothing
  | succeeded hok =>
    have hover := hs.outcomes_of_over hget (by simp)
    rcases hs.outcomes _ _ hover with ⟨j, reply, hexecuted, hreply⟩ | ⟨hfailed, -⟩
    · rw [hreply, if_pos hok]
      exact .reply hinits hexecuted hok
    · cases hok.symm.trans hfailed
  | failed hok hm =>
    have hover := hs.outcomes_of_over hget (by simp)
    subst hm
    refine .error hinits hok ?_
    rcases hs.outcomes _ _ hover with ⟨j, reply, hexecuted, -⟩ | ⟨-, hfails⟩
    · exact .inl ⟨j, reply, hexecuted⟩
    · exact .inr hfails

/-- **What the client is told is what the server has done.**  The request of each attempt is served
by one call at most, and a call serves one at most, for which `write_call_` is called; there are no
more attempts than the budget allows.  If the client is told that all went well, then `write_call_`
has returned `OK` for the request of the last attempt, and the reply is the one made there.  If it
is told an error, then it is that of the last attempt, in which `write_call_` has failed or the
connection. -/
theorem exchanged (writeCall : AsyncServerCall.WriteF Env REQ RES) (hasCb : Bool)
    (request : ℕ → REQ) (env : Env) (nretries : ℕ) (es : List (Event Env REQ))
    (s : Exchange Env REQ RES) (hes : ∀ e ∈ es, e.Serves)
    (h : run writeCall hasCb request env nretries es = some s) :
    s.client.inits ≤ nretries + 1 ∧
      (∀ k j, s.servedBy k = some j → k < s.client.inits ∧
        (∃ status reply, Executed writeCall hasCb request env nretries es k j status reply) ∧
        ∀ k', s.servedBy k' = some j → k' = k) ∧
      Told writeCall hasCb request env nretries es s.client.inits s.client.received
        s.client.fulfilled := by
  have hs := linked_run hes h
  obtain ⟨front, last, hhandlers, hinits, -, hle, -, hlast⟩ := chained h
  refine ⟨by omega, fun k j hj ↦ ⟨hs.started k j hj, ?_, fun k' hk' ↦ hs.alone k' k j hk' hj⟩,
    told_of_last hs hhandlers hinits hlast⟩
  obtain ⟨-, status, reply, -, -, hexecuted⟩ := hs.served k j hj
  exact ⟨status, reply, hexecuted⟩

/-- The connection gives up the first attempt when the server has done the work. -/
def doneTwice : List (Event Unit ℕ) :=
  [.arrives 0 0, .fails 0 ⟨4, "deadline exceeded"⟩, .server (.serve 1 0 3), .goOn 0, .arrives 1 2,
    .answered 1]

theorem serves_doneTwice : ∀ e ∈ doneTwice, e.Serves := by
  simp [doneTwice, Event.Serves, Tagged.Event.Serves]

/-- The server has made the reply twice, of which the client has received one. -/
theorem exchanged_doneTwice :
    ∃ s, run AsyncServerCall.sameNumber true (fun _ ↦ 5) () 3 doneTwice = some s ∧
      s.client.inits ≤ 3 + 1 ∧
      (∀ k j, s.servedBy k = some j → k < s.client.inits ∧
        (∃ status reply, Executed AsyncServerCall.sameNumber true (fun _ ↦ 5) () 3 doneTwice k j
          status reply) ∧
        ∀ k', s.servedBy k' = some j → k' = k) ∧
      Told AsyncServerCall.sameNumber true (fun _ ↦ 5) () 3 doneTwice s.client.inits
        s.client.received s.client.fulfilled ∧
      s.client.received = [5] := by
  refine ⟨_, rfl, ?_⟩
  obtain ⟨hinits, hserved, htold⟩ :=
    exchanged AsyncServerCall.sameNumber true (fun _ ↦ 5) () 3 doneTwice _ serves_doneTwice rfl
  exact ⟨hinits, hserved, htold, rfl⟩

/-! ### How often the server has done it -/

/-- The attempt whose request has arrived, if the event is that. -/
def Event.arrived? : Event Env REQ → Option ℕ
  | .arrives k _ => some k
  | .server _ | .answered _ | .fails _ _ | .goOn _ => none

omit [Inhabited REQ] [Inhabited RES] in
@[simp] theorem arrived?_server (e₁ : Tagged.Event Env REQ) :
    (Event.server e₁).arrived? = none := rfl

/-- The request of an attempt arrives once. -/
theorem arrived_run (h : run writeCall hasCb request env nretries es = some s) :
    (es.filterMap Event.arrived?).Nodup ∧
      ∀ k ∈ es.filterMap Event.arrived?, k < s.client.inits ∧ s.servedBy k ≠ none := by
  refine Steps.steps_history (P := fun es s ↦ (es.filterMap Event.arrived?).Nodup ∧
    ∀ k ∈ es.filterMap Event.arrived?, k < s.client.inits ∧ s.servedBy k ≠ none) ?_ h
    ⟨List.nodup_nil, List.forall_mem_nil _⟩
  rintro es s e s' h ⟨hnodup, hmem⟩
  have happend : (es ++ [e]).filterMap Event.arrived?
      = es.filterMap Event.arrived? ++ e.arrived?.toList := by
    cases e <;> simp [Event.arrived?]
  rw [happend]
  rcases step_cases h with ⟨e₁, pool, -, -, -, ⟨rfl, rfl⟩ | ⟨k, j, rfl, hk, hnone, -, rfl⟩⟩ |
    ⟨e₁, client, r, hat, -, hclient, hs'⟩
  · rw [arrived?_server, Option.toList_none, List.append_nil]
    exact ⟨hnodup, hmem⟩
  · refine ⟨hnodup.append (List.nodup_singleton k) ?_, List.forall_mem_append.mpr ⟨?_, ?_⟩⟩
    · exact List.disjoint_singleton.mpr fun hold ↦ (hmem k hold).2 hnone
    · intro k' hk'
      have hne : k' ≠ k := by
        rintro rfl
        exact (hmem k' hk').2 hnone
      refine ⟨(hmem k' hk').1, ?_⟩
      exact (Function.update_of_ne hne ..).trans_ne (hmem k' hk').2
    · refine List.forall_mem_singleton.mpr ⟨hk, ?_⟩
      simp
  · have harrived : e.arrived? = none := by
      cases e with
      | server | arrives => cases hat
      | answered | fails | goOn => rfl
    rw [harrived, Option.toList_none, List.append_nil]
    refine ⟨hnodup, fun k' hk' ↦ ?_⟩
    obtain ⟨hlt, hserved⟩ := hmem k' hk'
    have hlt' := Nat.lt_of_lt_of_le hlt (Client.inits_step hclient)
    rcases hs' with ⟨k, -, rfl⟩ | ⟨k, -, -, -, rfl⟩
    · exact ⟨hlt', hserved⟩
    · exact ⟨hlt', hserved⟩

/-- An attempt is served once, and what was returned then is one status. -/
theorem Executed.status_eq {j' : ℕ} {status status' : Status} {reply reply' : RES}
    (h : run writeCall hasCb request env nretries es = some s)
    (hk : Executed writeCall hasCb request env nretries es k j status reply)
    (hk' : Executed writeCall hasCb request env nretries es k j' status' reply') :
    status = status' := by
  obtain ⟨es₁, es₂, s₁, rfl, hrun, hreturned⟩ := hk
  obtain ⟨fs₁, fs₂, s₂, hes, hrun', hreturned'⟩ := hk'
  obtain ⟨rfl, -⟩ := Steps.split_unique (arrived_run h).1 hes rfl rfl
  obtain rfl := Option.some.inj (hrun.symm.trans hrun')
  exact congrArg Prod.fst (hreturned.symm.trans hreturned')

/-- The outcome of an attempt that the connection has not given up is that of the server. -/
theorem Linked.executed (hs : s.Linked writeCall hasCb request env nretries es)
    (hfails : ∀ k status, .fails k status ∉ es) (hr : s.outcomes k = some r) :
    ∃ j reply, Executed writeCall hasCb request env nretries es k j r.1 reply := by
  rcases hs.outcomes k r hr with ⟨j, reply, hexecuted, -⟩ | ⟨-, hmem⟩
  · exact ⟨j, reply, hexecuted⟩
  · exact absurd hmem (hfails k r.1)

/-- **How often the server has done it**, when the connection gives up no attempt: `write_call_` has
been called for each attempt but the last, and has failed whenever it was; and the promise holds
what it has returned for the last. -/
theorem executed_each_attempt (writeCall : AsyncServerCall.WriteF Env REQ RES) (hasCb : Bool)
    (request : ℕ → REQ) (env : Env) (nretries : ℕ) (es : List (Event Env REQ))
    (s : Exchange Env REQ RES) (hes : ∀ e ∈ es, e.Serves)
    (hfails : ∀ k status, .fails k status ∉ es)
    (h : run writeCall hasCb request env nretries es = some s) :
    (∀ k, k + 1 < s.client.inits →
      (∃ j status reply, Executed writeCall hasCb request env nretries es k j status reply) ∧
      ∀ j status reply, Executed writeCall hasCb request env nretries es k j status reply →
        status.ok = false) ∧
    ∀ k err, (k, err) ∈ s.client.fulfilled → s.client.inits = k + 1 ∧ ∃ j status reply,
      Executed writeCall hasCb request env nretries es k j status reply ∧
        err = if status.ok then none else some status.errorMessage := by
  have hs := linked_run hes h
  obtain ⟨front, last, hhandlers, hinits, hover, -, hfailed, hlast⟩ := chained h
  constructor
  · intro k hk
    have hlt : k < front.length := by omega
    have hget : s.client.handlers[k]? = some front[k] := by
      rw [hhandlers, List.getElem?_append_left hlt, List.getElem?_eq_getElem hlt]
    have hphase := (hover _ (List.getElem_mem hlt)).phase
    obtain ⟨j, reply, hexecuted⟩ := hs.executed hfails (hs.outcomes_of_over hget hphase)
    refine ⟨⟨j, _, reply, hexecuted⟩, fun j' status reply' hk' ↦ ?_⟩
    rw [← hexecuted.status_eq h hk']
    exact hfailed k hlt
  · intro k err hmem
    have htold := told_of_last hs hhandlers hinits hlast
    generalize s.client.received = received, s.client.fulfilled = fulfilled at htold hmem
    cases htold with
    | nothing => cases hmem
    | reply hinits hk hok =>
      obtain ⟨rfl, rfl⟩ := Prod.mk.inj (List.mem_singleton.mp hmem)
      exact ⟨hinits, _, _, _, hk, by rw [if_pos hok]⟩
    | error hinits hok hfailed =>
      obtain ⟨rfl, rfl⟩ := Prod.mk.inj (List.mem_singleton.mp hmem)
      obtain ⟨j, reply, hk⟩ := hfailed.resolve_right (hfails _ _)
      exact ⟨hinits, j, _, reply, hk, by rw [if_neg (by simp [hok])]⟩

/-- A client that asks for `0` first, which the server refuses. -/
def refusedOnce : List (Event Unit ℕ) :=
  [.arrives 0 0, .answered 0, .arrives 1 1, .goOn 0, .server (.serve 0 0 0), .answered 1]

theorem serves_refusedOnce : ∀ e ∈ refusedOnce, e.Serves := by
  simp [refusedOnce, Event.Serves, Tagged.Event.Serves]

theorem executed_each_attempt_refused :
    ∃ s, run AsyncServerCall.sameNumber true (fun k ↦ 5 * k) () 3 refusedOnce = some s ∧
      (∀ k, k + 1 < s.client.inits →
        (∃ j status reply, Executed AsyncServerCall.sameNumber true (fun k ↦ 5 * k) () 3
          refusedOnce k j status reply) ∧
        ∀ j status reply, Executed AsyncServerCall.sameNumber true (fun k ↦ 5 * k) () 3
          refusedOnce k j status reply → status.ok = false) ∧
      (∀ k err, (k, err) ∈ s.client.fulfilled → s.client.inits = k + 1 ∧ ∃ j status reply,
        Executed AsyncServerCall.sameNumber true (fun k ↦ 5 * k) () 3 refusedOnce k j status
          reply ∧ err = if status.ok then none else some status.errorMessage) ∧
      s.client.fulfilled = [(1, none)] := by
  refine ⟨_, rfl, ?_⟩
  obtain ⟨hfailed, hlast⟩ := executed_each_attempt AsyncServerCall.sameNumber true
    (fun k ↦ 5 * k) () 3 refusedOnce _ serves_refusedOnce (by simp [refusedOnce]) rfl
  exact ⟨hfailed, hlast, rfl⟩

/-! ### How it comes to an end -/

omit [Inhabited RES] in
/-- As long as the promise is not set, the last attempt goes on. -/
theorem trying_of_fulfilled {last : AsyncClientHandler} {outcome : ℕ → Status × RES}
    {received : List RES} {fulfilled : List (ℕ × Option String)}
    (h : Client.Last hasCb outcome nretries k last received fulfilled)
    (hfulfilled : fulfilled = []) : last.phase = .trying := by
  cases h with
  | trying => rfl
  | succeeded | failed => cases hfulfilled

/-- **Nobody waits for nothing**, and not for ever: each attempt comes to an end once and goes on
once at most, and its request arrives once at most; and as long as the promise is not set, the
request of the last attempt can arrive, or its answer can, and the connection need not give up. -/
theorem exchange_goes_on (writeCall : AsyncServerCall.WriteF Env REQ RES) (hasCb : Bool)
    (request : ℕ → REQ) (env : Env) (nretries : ℕ) (es : List (Event Env REQ))
    (s : Exchange Env REQ RES) (hes : ∀ e ∈ es, e.Serves)
    (h : run writeCall hasCb request env nretries es = some s) :
    (es.filterMap Event.arrived?).length ≤ nretries + 1 ∧
      (es.filterMap Event.atClient?).length ≤ 2 * nretries + 1 ∧
      (s.client.fulfilled = [] → ∃ k, s.client.inits = k + 1 ∧
        ((∃ j, (s.step writeCall hasCb request (.arrives k j)).isSome = true) ∨
          (s.step writeCall hasCb request (.answered k)).isSome = true)) := by
  have hs := linked_run hes h
  obtain ⟨front, last, hhandlers, hinits, -, hle, -, hlast⟩ := chained h
  have hclient : Client.run hasCb s.outcome nretries _ = _ :=
    run_client h fun k r hr ↦ by rw [outcome, hr, Option.getD_some]
  obtain ⟨hnodup, harrived⟩ := arrived_run h
  refine ⟨?_, Client.length_le hclient, fun hfulfilled ↦ ?_⟩
  · have hsub : es.filterMap Event.arrived? ⊆ List.range (nretries + 1) := fun k hk ↦
      List.mem_range.mpr (by have := (harrived k hk).1; omega)
    exact ((hnodup.subperm hsub).length_le).trans_eq List.length_range
  have hphase := trying_of_fulfilled hlast hfulfilled
  have hget : s.client.handlers[front.length]? = some last := by
    rw [hhandlers, List.getElem?_concat_length]
  refine ⟨front.length, hinits, ?_⟩
  cases hserved : s.servedBy front.length with
  | none =>
    left
    obtain ⟨o, ho, hwaits⟩ := List.countP_pos_iff.mp
      (((AsyncServerCall.run_serves (serves_atServer hes) (run_server h)).1).symm ▸ Nat.one_pos)
    obtain ⟨j, hj⟩ := List.getElem?_of_mem ho
    have hcreate := (hs.follows o ho).eq_create hwaits
    have hwaiting : (s.pool.objects[j]?).any AsyncServerCall.waits = true := by
      rw [hj]
      exact hwaits
    refine ⟨j, ?_⟩
    rw [step, arrives, if_pos ⟨by omega, hserved, hwaiting⟩]
    simp [Pool.step, hj, hcreate, AsyncServerCall.create, Object.new]
  | some j =>
    right
    obtain ⟨status, reply, -, hanswer⟩ := hs.answer hserved
    have hnone : s.outcomes front.length = none := by
      have hover := hs.isOver front.length
      rw [Client.isOver, hget, Option.any_some, hphase] at hover
      exact Option.not_isSome_iff_eq_none.mp (by rw [← hover]; simp)
    rw [step, hanswer, Option.bind_some, completes, hnone]
    simp [Client.step, hget, hphase]

/-- The request has arrived, and the answer can. -/
theorem exchange_goes_on_once :
    ∃ s, run AsyncServerCall.sameNumber true (fun _ ↦ 5) () 3 [.arrives 0 0] = some s ∧
      1 ≤ 3 + 1 ∧ 0 ≤ 2 * 3 + 1 ∧
      ∃ k, s.client.inits = k + 1 ∧
        ((∃ j, (s.step AsyncServerCall.sameNumber true (fun _ ↦ 5) (.arrives k j)).isSome = true) ∨
          (s.step AsyncServerCall.sameNumber true (fun _ ↦ 5) (.answered k)).isSome = true) := by
  refine ⟨_, rfl, ?_⟩
  obtain ⟨harrived, hclient, hgoes⟩ := exchange_goes_on AsyncServerCall.sameNumber true
    (fun _ ↦ 5) () 3 [.arrives 0 0] _ (by simp [Event.Serves]) rfl
  exact ⟨harrived, hclient, hgoes rfl⟩

end

end Exchange

end Egrpc
end Cppkg
