import Cppkg.Egrpc.Service
import Cppkg.Egrpc.Shutdown

/-!
# A server that winds up

When a server is to stop, what its loop still takes from the queue it answers with `shutdown`, in
place of `serve`.  Each call that is there has one operation in the queue, so that each is shut down
once and none is left; `winds_up` says so for both kinds of calls.  A call that streams must not be
in the middle of its range then, which is `SafeToShutDown`.
-/

set_option autoImplicit false

namespace Cppkg
namespace Egrpc

open Tagged

variable {Env REQ RES E : Type} [Inhabited REQ] [Inhabited RES]

/-- A call that is served issues one operation, or deletes itself. -/
theorem AsyncServerCall.length_issues_serve (writeCall : WriteF Env REQ RES) (env : Env)
    (c : AsyncServerCall REQ RES) : (serve writeCall env c).2.issues.length
      = if (serve writeCall env c).2.deletes then 0 else 1 := by
  cases hdone : c.done with
  | false =>
    rw [serve_waiting hdone]
    rfl
  | true =>
    rw [serve_done hdone]
    rfl

theorem AsyncServerCall.tidy (writeCall : WriteF Env REQ RES) : (behaviour writeCall).Tidy where
  serves := length_issues_serve writeCall
  settles env c o ho := by
    rw [creates_serve ho]
    exact Object.settled_new _ _
  deletes _ := rfl
  creates _ := rfl

/-- A call that sends one reply issues nothing when it is shut down. -/
theorem AsyncServerCall.quiet (writeCall : WriteF Env REQ RES)
    (p : Pool Env (AsyncServerCall REQ RES) (Op RES)) (es : List (Event Env REQ)) :
    Steps.Meets (Pool.step (behaviour writeCall)) (behaviour writeCall).Quiet p es := by
  refine Steps.meets_of_forall fun e _ p ↦ ?_
  cases e with
  | discard => exact fun _ _ ↦ rfl
  | serve | shutdown | environment => trivial

namespace AsyncServerStreamCall

theorem tidy (f : Callbacks Env REQ RES E) : (behaviour f).Tidy where
  serves := length_issues_serve f
  settles env c o ho := by
    rw [creates_serve ho]
    exact Object.settled_new _ _
  deletes _ := rfl
  creates _ := rfl

instance (p : Pool Env (AsyncServerStreamCall REQ RES E) (Op RES)) (e : Event Env REQ) :
    Decidable (SafeToShutDown p e) :=
  match e with
  | .shutdown _ => isFalse id
  | .discard k _ => inferInstanceAs (Decidable (∀ o ∈ p.objects[k]?, o.state.status ≠ .process))
  | .serve _ _ _ | .environment _ => isTrue trivial

variable {f : Callbacks Env REQ RES E} {p : Pool Env (AsyncServerStreamCall REQ RES E) (Op RES)}
  {e : Event Env REQ} {es : List (Event Env REQ)}

/-- A call that is not in the middle of its range issues nothing when it is shut down. -/
theorem quiet_of_safe (h : SafeToShutDown p e) : (behaviour f).Quiet p e := by
  cases e with
  | discard k i => exact fun o ho ↦ if_neg (h o ho)
  | serve | shutdown | environment => trivial

theorem meets_quiet (h : Steps.Meets (Pool.step (behaviour f)) SafeToShutDown p es) :
    Steps.Meets (Pool.step (behaviour f)) (behaviour f).Quiet p es :=
  Steps.meets_mono (fun _ _ ↦ quiet_of_safe) h

end AsyncServerStreamCall

/-- **All calls go, once each.**  Whatever a server has done, if its loop shuts down what it takes
from the queue from then on, then no operation outlives its call, one call less is there each time,
and when the queue is empty every call was deleted once. -/
theorem winds_up (writeCall : AsyncServerCall.WriteF Env REQ RES)
    (f : AsyncServerStreamCall.Callbacks Env REQ RES E) (env : Env) (es fs : List (Event Env REQ))
    (hes : ∀ e ∈ es, e.OfLoop) (hfs : ∀ e ∈ fs, e.Discards) :
    (∀ p p', AsyncServerCall.run writeCall env es = some p →
      Steps.steps (Pool.step (AsyncServerCall.behaviour writeCall)) p fs = some p' →
      Pool.WoundUp (AsyncServerCall.behaviour writeCall) p p' fs.length) ∧
    (∀ p p', AsyncServerStreamCall.run f env es = some p →
      Steps.steps (Pool.step (AsyncServerStreamCall.behaviour f)) p fs = some p' →
      Steps.Meets (Pool.step (AsyncServerStreamCall.behaviour f))
        AsyncServerStreamCall.SafeToShutDown (AsyncServerStreamCall.start env) es →
      Steps.Meets (Pool.step (AsyncServerStreamCall.behaviour f))
        AsyncServerStreamCall.SafeToShutDown p fs →
      Pool.WoundUp (AsyncServerStreamCall.behaviour f) p p' fs.length) := by
  constructor
  · intro p p' hrun hdown
    have hb := AsyncServerCall.tidy writeCall
    have hsettled := Pool.settled_steps hb hes (AsyncServerCall.quiet writeCall _ es) hrun
      (List.forall_mem_singleton.mpr (Object.settled_new _ _))
    exact Pool.woundUp hb hfs (AsyncServerCall.quiet writeCall p fs) hdown hsettled
  · intro p p' hrun hdown hsafe hsafe'
    have hb := AsyncServerStreamCall.tidy f
    have hsettled := Pool.settled_steps hb hes (AsyncServerStreamCall.meets_quiet hsafe) hrun
      (List.forall_mem_singleton.mpr (Object.settled_new _ _))
    exact Pool.woundUp hb hfs (AsyncServerStreamCall.meets_quiet hsafe') hdown hsettled

/-- A call that has answered and the one that waits, both shut down. -/
theorem winds_up_small :
    (∃ p p', AsyncServerCall.run AsyncServerCall.sameNumber () [.serve 0 0 5] = some p ∧
      Steps.steps (Pool.step (AsyncServerCall.behaviour AsyncServerCall.sameNumber)) p
        [.discard 0 0, .discard 1 0] = some p' ∧
      Pool.WoundUp (AsyncServerCall.behaviour AsyncServerCall.sameNumber) p p' 2) ∧
    (∃ p p', AsyncServerStreamCall.run AsyncServerStreamCall.oddNumbers () [.serve 0 0 0] = some p ∧
      Steps.steps (Pool.step (AsyncServerStreamCall.behaviour AsyncServerStreamCall.oddNumbers)) p
        [.discard 0 0, .discard 1 0] = some p' ∧
      Pool.WoundUp (AsyncServerStreamCall.behaviour AsyncServerStreamCall.oddNumbers) p p' 2) := by
  obtain ⟨hunary, -⟩ := winds_up AsyncServerCall.sameNumber AsyncServerStreamCall.oddNumbers ()
    [.serve 0 0 5] [.discard 0 0, .discard 1 0] (by simp [Event.OfLoop]) (by simp [Event.Discards])
  obtain ⟨-, hstream⟩ := winds_up AsyncServerCall.sameNumber AsyncServerStreamCall.oddNumbers ()
    [.serve 0 0 0] [.discard 0 0, .discard 1 0] (by simp [Event.OfLoop]) (by simp [Event.Discards])
  refine ⟨⟨_, _, rfl, rfl, hunary _ _ rfl rfl⟩, ⟨_, _, rfl, rfl, hstream _ _ rfl rfl ?_ ?_⟩⟩
  · decide
  · decide

end Egrpc
end Cppkg
