import Cppkg.Egrpc.ServerAsync
import Cppkg.Egrpc.ServerAsyncStream

/-!
# A server in service

A server that starts with one call and is never shut down, whatever requests come in, in whatever
order operations complete, and whatever the callbacks do: there is always one call that waits for
the next request, and every call goes through its operations one by one and is then deleted.
-/

set_option autoImplicit false

namespace Cppkg
namespace Egrpc

open Tagged

variable {Env REQ RES E : Type} [Inhabited REQ] [Inhabited RES]

/-- **One call waits, and all are on their way.**  A call that is there has one operation
outstanding and a call that was deleted, which happens once, has none; `Follows` says which
operations a call has issued, from what its callbacks have returned when it was served in this run,
and that it is deleted when its finish has completed and not before.  That this comes to pass only
takes that its operations complete, of which there are at most two more than the range has
elements. -/
theorem serves_requests (writeCall : AsyncServerCall.WriteF Env REQ RES)
    (f : AsyncServerStreamCall.Callbacks Env REQ RES E) (env : Env) (es : List (Event Env REQ))
    (hes : ∀ e ∈ es, e.Serves) :
    (∀ p ∈ AsyncServerCall.run writeCall env es,
      p.objects.countP AsyncServerCall.waits = 1 ∧
      ∀ k o, p.objects[k]? = some o → o.Settled ∧
        AsyncServerCall.Follows writeCall (Pool.ServedIn (AsyncServerCall.behaviour writeCall)
          (AsyncServerCall.start env) es k) o ∧
        (2 ≤ es.countP (Event.isServe k) → o.deleted = 1)) ∧
    (∀ p ∈ AsyncServerStreamCall.run f env es,
      p.objects.countP AsyncServerStreamCall.waits = 1 ∧
      ∀ k o, p.objects[k]? = some o → o.Settled ∧
        AsyncServerStreamCall.Follows f (Pool.ServedIn (AsyncServerStreamCall.behaviour f)
          (AsyncServerStreamCall.start env) es k) o ∧
        (o.state.ranges.length + 2 ≤ es.countP (Event.isServe k) → o.deleted = 1)) := by
  constructor
  · intro p hp
    obtain ⟨hcount, hcalls⟩ := AsyncServerCall.run_serves hes hp
    exact ⟨hcount, fun k o ho ↦ ⟨(hcalls k o ho).1.settled, hcalls k o ho⟩⟩
  · intro p hp
    obtain ⟨hcount, hcalls⟩ := AsyncServerStreamCall.run_serves hes hp
    exact ⟨hcount, fun k o ho ↦ ⟨(hcalls k o ho).1.settled, hcalls k o ho⟩⟩

/-- Two requests come in; the first call is served twice, and is deleted. -/
def twoRequests : List (Event Unit ℕ) := [.serve 0 0 0, .serve 1 0 5, .serve 0 0 0]

theorem serves_requests_two :
    (∃ p o, AsyncServerCall.run AsyncServerCall.sameNumber () twoRequests = some p ∧
      p.objects.countP AsyncServerCall.waits = 1 ∧ p.objects[0]? = some o ∧
      AsyncServerCall.Follows AsyncServerCall.sameNumber
        (Pool.ServedIn (AsyncServerCall.behaviour AsyncServerCall.sameNumber)
          (AsyncServerCall.start ()) twoRequests 0) o ∧ o.deleted = 1) ∧
    (∃ p o, AsyncServerStreamCall.run AsyncServerStreamCall.oddNumbers () twoRequests = some p ∧
      p.objects.countP AsyncServerStreamCall.waits = 1 ∧ p.objects[0]? = some o ∧
      AsyncServerStreamCall.Follows AsyncServerStreamCall.oddNumbers
        (Pool.ServedIn (AsyncServerStreamCall.behaviour AsyncServerStreamCall.oddNumbers)
          (AsyncServerStreamCall.start ()) twoRequests 0) o ∧ o.deleted = 1) := by
  obtain ⟨hunary, hstream⟩ := serves_requests AsyncServerCall.sameNumber
    AsyncServerStreamCall.oddNumbers () twoRequests (by simp [twoRequests, Event.Serves])
  obtain ⟨hcount, hcalls⟩ := hunary _ rfl
  obtain ⟨hcount', hcalls'⟩ := hstream _ rfl
  obtain ⟨-, hfollows, hdeleted⟩ := hcalls 0 _ rfl
  obtain ⟨-, hfollows', hdeleted'⟩ := hcalls' 0 _ rfl
  exact ⟨⟨_, _, rfl, hcount, rfl, hfollows, hdeleted (Nat.le_refl 2)⟩,
    ⟨_, _, rfl, hcount', rfl, hfollows', hdeleted' (Nat.le_refl 2)⟩⟩

end Egrpc
end Cppkg
