import Cppkg.Egrpc.ServerAsyncStream

/-!
# Shutting a call down

`serve` deletes a call when its finish has completed, and then none of its operations is
outstanding.  `shutdown` deletes it at once.  While an operation is outstanding, that leaves a tag
in the queue that names nothing; and a call that is in the middle of its range adds one more, since
it issues a finish with itself as the tag right before it deletes itself.

What is left is `SafeToShutDown`: in place of `serve`, when an operation has completed, and on calls
that are not in the middle of their range.
-/

set_option autoImplicit false

namespace Cppkg
namespace Egrpc
namespace AsyncServerStreamCall

open Tagged

variable {Env REQ RES E : Type}

/-- The operation is on the writer of the call. -/
def Op.onWriter : Op RES → Bool
  | .request => false
  | .write _ | .finish _ => true

/-- A call that was deleted has no operations outstanding, and no call has two on its writer. -/
def Clean (o : Object (AsyncServerStreamCall REQ RES E) (Op RES)) : Prop :=
  (o.deleted ≠ 0 → o.pending = []) ∧ o.pending.countP Op.onWriter ≤ 1

theorem clean_of_settled {o : Object (AsyncServerStreamCall REQ RES E) (Op RES)} (h : o.Settled) :
    Clean o := by
  rcases h with ⟨hdel, hlen⟩ | ⟨-, hnil⟩
  · exact ⟨fun hne ↦ absurd hdel hne, hlen ▸ List.countP_le_length⟩
  · exact ⟨fun _ ↦ hnil, by simp [hnil]⟩

/-- If a call is shut down then in place of being served, and not in the middle of its range. -/
def SafeToShutDown (p : Pool Env (AsyncServerStreamCall REQ RES E) (Op RES)) :
    Event Env REQ → Prop
  | .shutdown _ => False
  | .discard k _ => ∀ o ∈ p.objects[k]?, o.state.status ≠ .process
  | .serve _ _ _ | .environment _ => True

variable [Inhabited REQ] [Inhabited RES] {f : Callbacks Env REQ RES E} {env : Env}
  {p p' : Pool Env (AsyncServerStreamCall REQ RES E) (Op RES)} {e : Event Env REQ}

/-- A call that is served issues one operation, or deletes itself. -/
theorem length_issues_serve (f : Callbacks Env REQ RES E) (env : Env)
    (c : AsyncServerStreamCall REQ RES E) :
    (serve f env c).2.issues.length = if (serve f env c).2.deletes then 0 else 1 := by
  have hprocess : ∀ env (c : AsyncServerStreamCall REQ RES E),
      (process f env c).2.issues.length = if (process f env c).2.deletes then 0 else 1 := by
    intro env c
    rcases process_cases f env c with
      ⟨skipped, e, reply, it, env', -, -, hprocess⟩ | ⟨skipped, env', -, -, hprocess⟩
    all_goals
      rw [hprocess]
      rfl
  rcases serve_cases f env c with ⟨-, -, hserve⟩ | ⟨-, -, hserve⟩ | ⟨-, hserve⟩ | ⟨-, hserve⟩
  all_goals rw [hserve]
  · rfl
  · exact hprocess _ _
  · exact hprocess env c
  · rfl

/-- **Which steps leave no tags behind**: all but those that shut a call down when it is not
safe. -/
theorem settled_step (h : p.step (behaviour f) e = some p') (hp : ∀ o ∈ p.objects, o.Settled) :
    (SafeToShutDown p e → ∀ o ∈ p'.objects, o.Settled) ∧
      ((∀ o ∈ p'.objects, Clean o) → SafeToShutDown p e) := by
  obtain ⟨env, rfl, rfl⟩ | ⟨k, o, ho, h⟩ := Pool.step_cases h
  · exact ⟨fun _ ↦ hp, fun _ ↦ trivial⟩
  have hsettled := hp o (List.mem_of_getElem? ho)
  rcases h with ⟨i, data, op, rfl, hop, rfl⟩ | ⟨i, op, rfl, hop, rfl⟩ | ⟨rfl, hdel, rfl⟩
  · refine ⟨fun _ ↦ Pool.forall_call hp (hsettled.react hop (length_issues_serve f p.env _)) ?_,
      fun _ ↦ trivial⟩
    intro o' ho'
    obtain rfl := creates_serve ho'
    exact Object.settled_new _ _
  · constructor
    · intro hsafe
      have hstatus : o.state.status ≠ .process := hsafe o ho
      refine Pool.forall_call hp (hsettled.react hop ?_) (List.forall_mem_nil _)
      simp [behaviour, shutdown, hstatus]
    · intro hclean o' ho' hstatus
      obtain rfl : o = o' := Option.some.inj (ho.symm.trans ho')
      have hnil := (hclean _ (Pool.react_mem_call ho _ _ _)).1 (Nat.succ_ne_zero _)
      simp [Object.react, behaviour, shutdown, hstatus] at hnil
  · refine ⟨False.elim, fun hclean ↦ ?_⟩
    have hnil := (hclean _ (Pool.react_mem_call ho _ _ _)).1 (Nat.succ_ne_zero _)
    rcases hsettled with ⟨-, hlen⟩ | ⟨hdel', -⟩
    · rw [(List.append_eq_nil_iff.mp hnil).1] at hlen
      cases hlen
    · cases hdel.symm.trans hdel'

/-! ## Runs -/

/-- In no state that the run goes through has a deleted call an operation outstanding, or a call two
on its writer. -/
def NeverDangles (f : Callbacks Env REQ RES E) (env : Env) (es : List (Event Env REQ)) : Prop :=
  ∀ fs gs p, es = fs ++ gs → run f env fs = some p → ∀ o ∈ p.objects, Clean o

/-- **When no tag dangles**: in the runs in which every call that is shut down is shut down in place
of being served, and not in the middle of its range. -/
theorem neverDangles_iff {es : List (Event Env REQ)} (h : run f env es = some p) :
    NeverDangles f env es ↔
      Steps.Meets (Pool.step (behaviour f)) SafeToShutDown (start env) es := by
  refine (Steps.meets_iff (P := fun p ↦ ∀ o ∈ p.objects, Clean o) ?_
    (fun _ _ _ ↦ settled_step) h ?_).symm
  · exact fun p hp o ho ↦ clean_of_settled (hp o ho)
  · exact List.forall_mem_singleton.mpr (Object.settled_new _ _)

/-- One call has finished and is shut down in place of being deleted by `serve`; the call that waits
for the next request is shut down when its request fails. -/
theorem neverDangles_iff_small :
    NeverDangles oddNumbers () [.serve 0 0 1, .discard 0 0, .discard 1 0] ↔
      Steps.Meets (Pool.step (behaviour oddNumbers)) SafeToShutDown (start ())
        [.serve 0 0 1, .discard 0 0, .discard 1 0] :=
  neverDangles_iff (p := _) rfl

/-- A call is shut down while its first reply is being written. -/
theorem not_neverDangles :
    ¬ ∀ (es : List (Event Unit ℕ)) p, run oddNumbers () es = some p →
      NeverDangles oddNumbers () es := by
  intro h
  have hclean := h [.serve 0 0 2, .shutdown 0] _ rfl _ [] _ (List.append_nil _).symm rfl _
    List.mem_cons_self
  exact absurd (hclean.1 (Nat.succ_ne_zero 0)) (by decide)

/-- The two operations that are outstanding on the writer of the call that is gone. -/
example : ((run oddNumbers () [.serve 0 0 2, .shutdown 0]).map
      fun p ↦ p.objects.map fun o ↦ (o.pending, o.deleted))
    = some [([.write 1, .finish .CANCELLED], 1), ([.request], 0)] := by decide

end AsyncServerStreamCall
end Egrpc
end Cppkg
