import Cppkg.Egrpc.Status
import Cppkg.Lib.Tagged

/-!
# A server call that sends one reply

`AsyncServerCall` waits for a request, lets `write_call_` fill a reply, and finishes with it.
Before it does it creates the call that waits for the next request; when the finish has completed
it deletes itself.  The operations it issues have the call itself as their tag.
-/

set_option autoImplicit false

namespace Cppkg
namespace Egrpc

open Tagged

/-- The operations of a call: the request, and those of its responder. -/
inductive AsyncServerCall.Op (RES : Type)
  | request
  | finish (res : RES) (status : Status)
  | finishWithError (status : Status)
deriving DecidableEq

def AsyncServerCall.Op.isRequest {RES : Type} : Op RES → Bool
  | .request => true
  | .finish _ _ | .finishWithError _ => false

/-- The members of a call that change.  `returned` is no member: it is what `write_call_` returned,
and what it left in the reply. -/
structure AsyncServerCall (REQ RES : Type) where
  req : REQ
  done : Bool
  returned : Option (Status × RES)
deriving DecidableEq

namespace AsyncServerCall

variable {Env REQ RES : Type}

/-- `write_call_`, which may use and change what is outside the calls. -/
abbrev WriteF (Env REQ RES : Type) := Env → REQ → RES → Env × Status × RES

def shutdown (c : AsyncServerCall REQ RES) : Reaction (AsyncServerCall REQ RES) (Op RES) where
  state := c
  deletes := true

/-- How a call finishes. -/
def answer (status : Status) (reply : RES) : Op RES :=
  if status.ok then .finish reply status else .finishWithError status

@[simp] theorem isRequest_request : (Op.request : Op RES).isRequest = true := rfl

@[simp] theorem isRequest_answer (status : Status) (reply : RES) :
    (answer status reply).isRequest = false := by
  rw [answer]
  split <;> rfl

/-- The request that has come in is in `req_`. -/
def receive : Op RES → REQ → AsyncServerCall REQ RES → AsyncServerCall REQ RES
  | .request, req, c => { c with req }
  | _, _, c => c

@[simp] theorem receive_answer (status : Status) (reply : RES) (data : REQ)
    (c : AsyncServerCall REQ RES) : receive (answer status reply) data c = c := by
  rw [answer]
  split <;> rfl

/-- The call is there and waits for a request. -/
def waits (o : Object (AsyncServerCall REQ RES) (Op RES)) : Bool :=
  o.deleted == 0 && o.pending.any Op.isRequest

variable [Inhabited REQ]

/-- The constructor, which issues the request. -/
def create : Object (AsyncServerCall REQ RES) (Op RES) := .new ⟨default, false, none⟩ .request

/-- A server with one call. -/
def start (env : Env) : Pool Env (AsyncServerCall REQ RES) (Op RES) := ⟨env, [create]⟩

variable [Inhabited RES]

def serve (writeCall : WriteF Env REQ RES) (env : Env) (c : AsyncServerCall REQ RES) :
    Env × Reaction (AsyncServerCall REQ RES) (Op RES) :=
  if c.done then (env, c.shutdown)
  else
    let r := writeCall env c.req default
    (r.1, {
      state := { c with done := true, returned := some r.2 }
      issues := [answer r.2.1 r.2.2]
      creates := [create] })

def behaviour (writeCall : WriteF Env REQ RES) :
    Behaviour Env (AsyncServerCall REQ RES) (Op RES) REQ where
  receive := receive
  serve := serve writeCall
  shutdown := shutdown

/-- Where the server is after these events. -/
def run (writeCall : WriteF Env REQ RES) (env : Env) (es : List (Event Env REQ)) :
    Option (Pool Env (AsyncServerCall REQ RES) (Op RES)) :=
  Steps.steps (Pool.step (behaviour writeCall)) (start env) es

/-- A callback that replies with the number that is asked for, and fails if that is `0`. -/
def sameNumber : WriteF Unit ℕ ℕ := fun env req reply ↦
  (env, if req = 0 then ⟨13, "zero"⟩ else .OK, reply + req)

/-- Two calls, of which the second fails before the first is deleted. -/
example : ((run sameNumber () [.serve 0 0 5, .serve 1 0 0, .serve 0 0 0, .serve 1 0 0]).map
      fun p ↦ p.objects.map fun o ↦ (o.issued, o.deleted))
    = some [([.request, .finish 5 .OK], 1), ([.request, .finishWithError ⟨13, "zero"⟩], 1),
        ([.request], 0)] := by decide

/-! ## The life of a call -/

/-- **The operations of a call**: a request; a finish with the reply and the status of `write_call_`
if that was OK, and otherwise a finish with the error; and when that has completed, the call is
deleted.  `R` has what was outside when the call was served, and what it was served with, so that
`write_call_` has returned for the request what it returns there. -/
inductive Follows (writeCall : WriteF Env REQ RES) (R : Env → REQ → Prop) :
    Object (AsyncServerCall REQ RES) (Op RES) → Prop
  | waiting : Follows writeCall R create
  | finishing (env : Env) (req : REQ) (status : Status) (reply : RES) (hserved : R env req)
      (hreturned : (writeCall env req default).2 = (status, reply)) : Follows writeCall R
      ⟨⟨req, true, some (status, reply)⟩, [.request, answer status reply], [answer status reply], 0⟩
  | finished (env : Env) (req : REQ) (status : Status) (reply : RES) (hserved : R env req)
      (hreturned : (writeCall env req default).2 = (status, reply)) : Follows writeCall R
      ⟨⟨req, true, some (status, reply)⟩, [.request, answer status reply], [], 1⟩

variable {writeCall : WriteF Env REQ RES} {R R' : Env → REQ → Prop}
  {o : Object (AsyncServerCall REQ RES) (Op RES)} {env : Env} {i : ℕ} {op : Op RES} {data : REQ}
  {c : AsyncServerCall REQ RES}

theorem Follows.mono (hR : ∀ env data, R env data → R' env data) (h : Follows writeCall R o) :
    Follows writeCall R' o := by
  cases h with
  | waiting => exact .waiting
  | finishing env req status reply hserved hreturned =>
    exact .finishing env req status reply (hR env req hserved) hreturned
  | finished env req status reply hserved hreturned =>
    exact .finished env req status reply (hR env req hserved) hreturned

theorem Follows.settled (h : Follows writeCall R o) : o.Settled := by
  cases h with
  | waiting => exact Object.settled_new _ _
  | finishing => exact .inl ⟨rfl, rfl⟩
  | finished => exact .inr ⟨rfl, rfl⟩

theorem Follows.length_issued (h : Follows writeCall R o) :
    o.pending.length ≤ o.issued.length ∧ o.issued.length ≤ 2 := by
  cases h <;> simp [create, Object.new]

/-- What a call that waits does when it is served. -/
theorem serve_waiting (hdone : c.done = false) : serve writeCall env c =
    ((writeCall env c.req default).1,
      ⟨{ c with done := true, returned := some (writeCall env c.req default).2 },
        [answer (writeCall env c.req default).2.1 (writeCall env c.req default).2.2], [create],
        false⟩) := by
  rw [serve, if_neg (by simp [hdone])]

theorem serve_done (hdone : c.done = true) : serve writeCall env c = (env, c.shutdown) := by
  rw [serve, if_pos hdone]

/-- A call that is served stays on its way, … -/
theorem Follows.step (h : Follows writeCall R o) (hop : o.pending[i]? = some op)
    (hserved : R env data) : Follows writeCall R
      ((o.complete i).react (serve writeCall env (receive op data o.state)).2) := by
  cases h with
  | waiting =>
    obtain ⟨rfl, rfl⟩ := Object.eq_of_singleton hop
    rw [serve_waiting rfl]
    exact .finishing env data _ _ hserved rfl
  | finishing env₁ req status reply hserved₁ hreturned =>
    obtain ⟨rfl, rfl⟩ := Object.eq_of_singleton hop
    rw [receive_answer, serve_done rfl]
    exact .finished env₁ req status reply hserved₁ hreturned
  | finished => simp at hop

/-- … and leaves one call behind that waits for a request if it did so itself. -/
theorem Follows.countP_waits (h : Follows writeCall R o) (hop : o.pending[i]? = some op) :
    (Pool.after (o.complete i) (serve writeCall env (receive op data o.state)).2).countP waits
      = [o].countP waits := by
  cases h with
  | waiting =>
    obtain ⟨rfl, rfl⟩ := Object.eq_of_singleton hop
    rw [serve_waiting rfl]
    simp [Pool.after, Object.react, Object.complete, waits, create, Object.new]
  | finishing =>
    obtain ⟨rfl, rfl⟩ := Object.eq_of_singleton hop
    rw [receive_answer, serve_done rfl]
    simp [Pool.after, Object.react, Object.complete, waits, shutdown]
  | finished => simp at hop

theorem creates_serve (ho : o ∈ (serve writeCall env c).2.creates) : o = create := by
  cases hdone : c.done with
  | false =>
    rw [serve_waiting hdone] at ho
    exact List.mem_singleton.mp ho
  | true =>
    rw [serve_done hdone] at ho
    exact absurd ho List.not_mem_nil

/-- What a call has been through, and when. -/
theorem keepsServed (writeCall : WriteF Env REQ RES) :
    (behaviour writeCall).KeepsServed (Follows writeCall) where
  mono _ _ _ hR h := h.mono hR
  serves _ _ _ _ _ _ h hop hserved := h.step hop hserved
  creates _ _ _ _ ho := by
    rw [creates_serve ho]
    exact .waiting

theorem lifecycle (writeCall : WriteF Env REQ RES) :
    Lifecycle (behaviour writeCall) (Follows writeCall fun _ _ ↦ True) waits fun _ ↦ 2 where
  keeps := (keepsServed writeCall).keeps
  succeeds _ _ _ _ _ h hop := h.countP_waits hop
  settled _ h := h.settled
  pending_le _ h := h.length_issued.1
  issued_le _ h := h.length_issued.2
  fresh env c o ho := by
    rw [creates_serve ho]
    rfl

/-- In a server none of whose calls is shut down, one call waits for a request and all are on their
way; and a call that was served twice has been deleted. -/
theorem run_serves {es : List (Event Env REQ)} {p : Pool Env (AsyncServerCall REQ RES) (Op RES)}
    (hes : ∀ e ∈ es, e.Serves) (h : run writeCall env es = some p) :
    p.objects.countP waits = 1 ∧ ∀ k o, p.objects[k]? = some o →
      Follows writeCall (Pool.ServedIn (behaviour writeCall) (start env) es k) o ∧
        (2 ≤ es.countP (Event.isServe k) → o.deleted = 1) := by
  have hstart : ∀ R, ∀ o ∈ (start env : Pool Env (AsyncServerCall REQ RES) (Op RES)).objects,
      Follows writeCall R o := fun _ ↦ List.forall_mem_singleton.mpr .waiting
  have hlife := lifecycle writeCall
  refine ⟨hlife.countP_waits hes h (hstart _), fun k o ho ↦ ⟨?_, hlife.deleted hes h (hstart _) ho⟩⟩
  exact Pool.served_inv (keepsServed writeCall) hes h (fun o ho R ↦ hstart R o ho) ho

end AsyncServerCall
end Egrpc
end Cppkg
