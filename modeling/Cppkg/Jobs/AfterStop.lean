import Cppkg.Jobs.InOrder

/-!
# What is called after `stop`

`stop` drops the jobs in the queue and sets the signal that a job looks at after its first call.  A
task that the master took out of the queue is in neither place: `stop` does not drop it, and the job
is called once before the signal counts.

`no_call_after_stop_iff`: when `stop` returns, no job that was attached before is called for the
first time any more, exactly if the master has no such task at hand.
-/

set_option autoImplicit false

namespace Cppkg
namespace Jobs

open Relation

/-- The job was called, or it will never be. -/
def Job.past : Job → Bool
  | .packaged | .spawned => false
  | _ => true

theorem Job.past_of_begun {a : Job} (h : a.begun = true) : a.past = true := by
  cases a <;> first | rfl | exact absurd h (by decide)

theorem Job.begun_or_broken {a : Job} (h : a.past = true) :
    a.begun = true ∨ a = .ended .brokenPromise := by
  cases a with
  | packaged | spawned => exact absurd h (by decide)
  | calling i | polling i => exact .inl rfl
  | ended o => cases o <;> first | exact .inl rfl | exact .inr rfl

/-! ## Lines -/

namespace Line

variable {l l' : Line} {drops : Line → Prop} {j : ℕ}

/-- Job `j` cannot be called for the first time, unless it is in front. -/
def PastOrFront (j : ℕ) (l : Line) : Prop := (l.jobs j).past = true ∨ l.front = some j

theorem past_setJob {k : ℕ} {a : Job} (hk : (l.jobs k).past = true → a.past = true)
    (hj : (l.jobs j).past = true) : ((l.setJob k a).jobs j).past = true := by
  rw [jobs_setJob]
  split
  · rename_i h
    exact hk (h ▸ hj)
  · exact hj

/-- A job that was called or dropped is never called for the first time. -/
theorem past_next (h : Next drops l l') (hj : (l.jobs j).past = true) :
    (l'.jobs j).past = true := by
  cases h with
  | attach | push | take | leave => exact hj
  | spawn k _ hk => exact past_setJob (by rw [hk]; exact id) hj
  | call k hk => exact past_setJob (fun _ ↦ rfl) hj
  | advance k a _ ha => exact past_setJob (fun _ ↦ Job.past_of_begun ha) hj
  | drop =>
    rw [jobs_drop]
    split
    · rfl
    · exact hj

theorem pastOrFront_next (h : Next drops l l') (hj : PastOrFront j l) : PastOrFront j l' := by
  rcases hj with hj | hj
  · exact .inl (past_next h hj)
  · cases h with
    | attach | push | spawn | call | advance | drop => exact .inr hj
    | take k q hl => simp [hl] at hj
    | leave k hl hk =>
      obtain rfl : k = j := by simpa [hl] using hj
      obtain ⟨h1, h2, -⟩ := Job.not_of_ready hk
      left
      show (l.jobs k).past = true
      cases hjob : l.jobs k <;> first | rfl | exact absurd hjob (by assumption)

/-- A job that was in the queue is not waiting once the queue is dropped. -/
theorem pastOrFront_drop (hi : Inv l) (hj : j < l.attached) (hhand : l.hand ≠ some j) :
    PastOrFront j l.drop := by
  by_cases hq : j ∈ l.queue
  · exact .inl (by rw [jobs_drop, if_pos hq]; rfl)
  cases hjob : l.jobs j with
  | packaged =>
    rcases hi.rest j hj hjob with h | h
    · rcases List.mem_append.mp h with h | h
      · exact absurd h hq
      · exact absurd (by simpa using h) hhand
    · exact .inr h
  | spawned => exact .inr (hi.thread j (.inl hjob))
  | calling i | polling i | ended o => exact .inl (by rw [jobs_drop, if_neg hq, hjob]; rfl)

end Line

/-! ## Sequences -/

namespace Sequence

variable {s s' s₁ s₂ : Sequence} {e : Event} {es fs : List Event} {j : ℕ}

/-- The task the master took, if it has one, is that of a job that was called. -/
def NoneAtHand (s : Sequence) : Prop := ∀ j ∈ s.master.front, (s.jobs j).past = true

instance : DecidablePred NoneAtHand := fun s ↦
  inferInstanceAs (Decidable (∀ j ∈ s.master.front, (s.jobs j).past = true))

/-- A job was attached: it is not with `attachJob` any more. -/
def Attached (s : Sequence) (j : ℕ) : Prop := j < s.attached ∧ s.client.hand ≠ some j

/-- What holds of a line at every step holds of a sequence. -/
theorem line_inv {P : Line → Prop} (hP : ∀ l l', Line.Next (fun _ ↦ True) l l' → P l → P l')
    (hs : s.Sound) (h : Steps.steps step s es = some s') (hl : P s.line) : P s'.line := by
  obtain ⟨-, hr⟩ := line_run (fun _ ↦ True) (Steps.meets_of_forall fun _ _ _ _ ↦ trivial) hs h
  exact ReflTransGen.head_induction_on (motive := fun l _ ↦ P l → P s'.line) hr id
    (fun hnext _ ih hl ↦ ih (hP _ _ hnext hl)) hl

/-- A job that was called or dropped is not called for the first time. -/
theorem not_call_of_past (hs : s.Sound) (h : Steps.steps step s es = some s')
    (hj : (s.jobs j).past = true) : .call j ∉ es := by
  intro hmem
  obtain ⟨gs, hs', rfl⟩ := List.append_of_mem hmem
  obtain ⟨u, u', hu, hcall, -⟩ := Steps.steps_append_cons h
  have hpast : (u.jobs j).past = true :=
    line_inv (P := fun l ↦ (l.jobs j).past = true) (fun _ _ ↦ Line.past_next) hs hu hj
  obtain ⟨hspawned, -⟩ := call_eq_some.mp hcall
  rw [hspawned] at hpast
  exact absurd hpast (by decide)

/-- While a `stop` is under way, the master takes no task. -/
structure Stopping (front : Option ℕ) (s : Sequence) : Prop where
  stopper : s.stopper ≠ .idle
  unlocked : s.master ≠ .holding ∧ s.master ≠ .passed ∧ s.master ≠ .failed
  front : s.master.front = none ∨ s.master.front = front

theorem stopping_stop (h : s.step .stop = some s') : s'.Stopping s.master.front := by
  simp only [step, stop, Option.ite_none_right_eq_some, Option.some.injEq] at h
  obtain ⟨⟨hlocked, -⟩, rfl⟩ := h
  refine ⟨by simp, ?_, .inr rfl⟩
  simp only [locked, Bool.or_eq_false_iff, beq_eq_false_iff_ne] at hlocked
  exact ⟨hlocked.1.1.2, hlocked.1.2, hlocked.2⟩

theorem Stopping.notifyOne {front : Option ℕ} (hs : s.Stopping front) :
    s.notifyOne.Stopping front := by
  unfold Sequence.notifyOne
  split
  · exact ⟨hs.stopper, by simp, .inl rfl⟩
  · exact hs

theorem stopping_step {front : Option ℕ} (he : e ≠ .stopReturn) (h : s.step e = some s')
    (hs : s.Stopping front) : s'.Stopping front := by
  have hn := hs.notifyOne
  obtain ⟨hstop, ⟨hh, hp, hf⟩, hfront⟩ := hs
  have hlocked : s.locked = true := by simp [locked, hstop]
  cases e
  case stopReturn => exact absurd rfl he
  case notify =>
    simp only [step, notify, Option.ite_none_right_eq_some, Option.some.injEq] at h
    obtain ⟨-, rfl⟩ := h
    exact ⟨hn.stopper, hn.unlocked, hn.front⟩
  case spawn =>
    obtain ⟨j, hm, rfl⟩ := spawn_eq_some.mp h
    exact ⟨hstop, by simp, by simpa [hm, Master.front] using hfront⟩
  case joinThread =>
    obtain ⟨j, -, -, rfl⟩ := joinThread_eq_some.mp h
    exact ⟨hstop, by simp, .inl rfl⟩
  case lock | evaluate | block | popFront | stop =>
    -- the lock is taken, and not by the master
    simp [step, lock, evaluate, block, popFront, stop, hlocked, hh, hp, hf] at h
  case pushBack =>
    simp only [step, pushBack, hlocked, if_true] at h
    split at h <;> cases h
  case setSignal =>
    simp only [step, setSignal, Option.ite_none_right_eq_some, Option.some.injEq] at h
    obtain ⟨-, rfl⟩ := h
    exact ⟨by simp, ⟨hh, hp, hf⟩, hfront⟩
  case wake =>
    simp only [step, wake, Option.ite_none_right_eq_some, Option.some.injEq] at h
    obtain ⟨-, rfl⟩ := h
    exact ⟨hstop, by simp, .inl rfl⟩
  case testExit =>
    simp only [step, testExit, Option.ite_none_right_eq_some, Option.some.injEq] at h
    obtain ⟨-, rfl⟩ := h
    exact ⟨hstop, by split <;> simp, .inl (by split <;> rfl)⟩
  all_goals
    simp only [step, attachJob, join, joinReturn, destroy, signalExit, joinMaster, call, callReturn,
      callThrow, pollStop] at h
    split at h
    all_goals first
      | (obtain rfl := Option.some.inj h; exact ⟨hstop, ⟨hh, hp, hf⟩, hfront⟩)
      | cases h

/-- The front of a master that was notified is the same. -/
theorem front_stopReturn (h : s.step .stopReturn = some s') :
    s'.master.front = s.master.front ∧ s'.jobs = s.jobs ∧
      ∀ j, s'.master = .popped j ↔ s.master = .popped j := by
  simp only [step, stopReturn, Option.ite_none_right_eq_some, Option.some.injEq] at h
  obtain ⟨-, rfl⟩ := h
  obtain ⟨m, hn, hfront, hpopped⟩ := Moves.notifyOne s
  rw [hn]
  exact ⟨hfront, rfl, hpopped⟩

/-- A job whose task the master took may be called, if it was not yet. -/
theorem exists_call (hs : s.Sound) (hfront : s.master.front = some j)
    (hj : (s.jobs j).past = false) :
    ∃ fs s', .call j ∈ fs ∧ Steps.steps step s fs = some s' := by
  have htaken := hs.taken j hfront
  cases hjob : s.jobs j with
  | packaged =>
    have hm := htaken.mp hjob
    exact ⟨[.spawn, .call j], _, by simp, by simp [step, spawn, call, hm, setJob]; rfl⟩
  | spawned => exact ⟨[.call j], _, by simp, by simp [step, call, hjob]; rfl⟩
  | calling i | polling i | ended o => simp [hjob, Job.past] at hj

/-- **What is called after `stop`.**  Take any run up to the return of a `stop`, with `s₁` the state
before the `stop` took the lock, `s₂` the state before its return, and `s₃` the state after it.  No
job that was attached before the `stop` is called for the first time in whatever follows, and one
that is executing then was called before the return, exactly if the master has no task at hand in
`s₂` that was not called. -/
theorem no_call_after_stop_iff {es₁ es₂ : List Event} {s₁ s₂ s₃ : Sequence}
    (h₁ : run es₁ = some s₁) (h₂ : Steps.steps step s₁ (.stop :: es₂) = some s₂)
    (hes₂ : .stopReturn ∉ es₂) (h₃ : s₂.step .stopReturn = some s₃) :
    s₂.NoneAtHand ↔ ∀ es₃ s₄, Steps.steps step s₃ es₃ = some s₄ →
      ∀ j, s₁.Attached j → .call j ∉ es₃ ∧ ((s₄.jobs j).executing = true → j ∈ s₃.started) := by
  have hs₁ := sound_run h₁
  have hs₂ := hs₁.steps h₂
  have hs₃ := hs₂.steps (Steps.steps_one h₃)
  obtain ⟨hfront, hjobs, hpopped⟩ := front_stopReturn h₃
  obtain ⟨u, hstop, h₂⟩ := Steps.steps_cons_iff.mp h₂
  have hu := hs₁.steps (Steps.steps_one hstop)
  constructor
  · intro hnone es₃ s₄ h₄ j hj
    -- the job was in the queue and is dropped, is in front, or was called
    have hpf : Line.PastOrFront j u.line := by
      rw [(stop_spec hstop).1]
      exact Line.pastOrFront_drop hs₁.inv hj.1 hj.2
    have hpast : (s₂.jobs j).past = true := by
      rcases line_inv (fun _ _ ↦ Line.pastOrFront_next) hu h₂ hpf with h | h
      · exact h
      · exact hnone j h
    rw [← hjobs] at hpast
    refine ⟨not_call_of_past hs₃ h₄ hpast, fun hexec ↦ ?_⟩
    rcases Job.begun_or_broken hpast with hbegun | hbroken
    · exact (hs₃.inv.mem_started j).mpr hbegun
    · obtain ⟨-, hr⟩ := line_run (fun _ ↦ True)
        (Steps.meets_of_forall fun _ _ _ _ ↦ trivial) hs₃ h₄
      have hended : s₄.jobs j = .ended .brokenPromise := Line.ended_run hr hs₃.inv hbroken
      rw [hended] at hexec
      exact absurd hexec (by decide)
  · intro hprop j hj
    by_contra hpast
    -- the master had the task when `stop` took the lock
    have hmeets : Steps.Meets step (fun _ e ↦ e ≠ .stopReturn) u es₂ :=
      Steps.meets_of_forall fun e he _ heq ↦ hes₂ (heq ▸ he)
    have hstopping : s₂.Stopping s₁.master.front :=
      Steps.steps_inv (fun _ _ _ ↦ stopping_step) hmeets h₂ (stopping_stop hstop)
    have hj₁ : s₁.master.front = some j := by
      rcases hstopping.front with h | h
      · rw [h] at hj
        cases hj
      · exact h.symm.trans hj
    have hattached : s₁.Attached j :=
      ⟨Nat.lt_of_not_le fun h ↦ (hs₁.inv.fresh j h).2.2 hj₁, fun h ↦ Nat.lt_irrefl j
        (hs₁.inv.front_lt j hj₁ j (List.mem_append_right _ (by simpa [line] using h)))⟩
    obtain ⟨fs, s₄, hcall, h₄⟩ := exists_call hs₃ (hfront.trans hj)
      (by rw [hjobs]; simpa using hpast)
    exact (hprop fs s₄ h₄ j hattached).1 hcall

/-- A job that was called when `stop` took the lock, and one behind it: only the first goes on. -/
theorem no_call_after_stop_iff_small :
    ∃ s₁ s₂ s₃ s₄, run [.attachJob, .pushBack, .notify, .attachJob, .pushBack, .notify, .lock,
        .evaluate, .popFront, .spawn, .call 0] = some s₁ ∧
      Steps.steps step s₁ [.stop, .setSignal] = some s₂ ∧ s₂.step .stopReturn = some s₃ ∧
      Steps.steps step s₃ [.callReturn 0 false, .pollStop 0, .joinThread, .testExit] = some s₄ ∧
      .call 1 ∉ [Event.callReturn 0 false, .pollStop 0, .joinThread, .testExit] := by
  refine ⟨_, _, _, _, rfl, rfl, rfl, rfl, ?_⟩
  exact ((@no_call_after_stop_iff [.attachJob, .pushBack, .notify, .attachJob, .pushBack, .notify,
    .lock, .evaluate, .popFront, .spawn, .call 0] [.setSignal] _ _ _ rfl rfl (by decide) rfl).mp
      (by decide) _ _ rfl 1 ⟨by decide, by decide⟩).1

/-- The master took the only job; `stop` comes and goes, and then the job is called. -/
theorem not_no_call_after_stop :
    ¬ ∀ es₁ es₂ es₃ s₁ s₂ s₃ s₄, run es₁ = some s₁ →
      Steps.steps step s₁ (.stop :: es₂) = some s₂ → .stopReturn ∉ es₂ →
      s₂.step .stopReturn = some s₃ → Steps.steps step s₃ es₃ = some s₄ →
      ∀ j, s₁.Attached j → .call j ∉ es₃ := by
  intro h
  have := h [.attachJob, .pushBack, .notify, .lock, .evaluate, .popFront] [.setSignal]
    [.spawn, .call 0] _ _ _ _ rfl rfl (by decide) rfl rfl 0 ⟨by decide, by decide⟩
  exact absurd this (by decide)

end Sequence
end Jobs
end Cppkg
