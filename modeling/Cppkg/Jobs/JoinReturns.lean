import Cppkg.Jobs.InOrder

/-!
# When `join` returns

`join` waits for the job that was attached last.  Jobs end in the order they were attached, so then
all have ended — unless `stop` dropped the last one, which makes its future ready while the job in
front goes on.  `SafeToStop` says that a `stop` does not do so.

`join_returns_idle`: if every `stop` of a run is safe, nothing is executing when `join` returns.
`safeToStop_iff`: after the first `stop` that is not, `join` may return while a job is executing.
-/

set_option autoImplicit false

namespace Cppkg
namespace Jobs

open Relation

/-! ## Lines -/

namespace Line

variable {l l' : Line} {j k : ℕ}

/-- Dropping the queue does not drop the last job while the one in front has not ended. -/
def Safe (l : Line) : Prop :=
  ∀ j ∈ l.front, ∀ k ∈ l.last, k ∈ l.queue → (l.jobs j).ready = true

instance : DecidablePred Safe := fun l ↦
  inferInstanceAs (Decidable (∀ j ∈ l.front, ∀ k ∈ l.last, k ∈ l.queue → (l.jobs j).ready = true))

/-- When the last job has ended, so has the one in front. -/
def Settled (l : Line) : Prop :=
  ∀ j ∈ l.front, ∀ k ∈ l.last, (l.jobs k).ready = true → (l.jobs j).ready = true

/-- A job changes its state that has not ended. -/
theorem settled_setJob {a : Job} (hs : Settled l) (hl : l.front = some j)
    (hj : (l.jobs j).ready = false) : Settled (l.setJob j a) := by
  intro i hi k hk hr
  obtain rfl : j = i := Option.some.inj (hl.symm.trans hi)
  by_cases h : k = j
  · rw [h] at hr
    exact hr
  · rw [jobs_setJob, if_neg h] at hr
    exact absurd (hs j hl k hk hr) (by simp [hj])

theorem settled_next (h : Next Safe l l') (hi : Inv l) (hs : Settled l) : Settled l' := by
  cases h with
  | attach =>
    intro j hj k hk hr
    obtain rfl : l.attached = k := Option.some.inj hk
    exact absurd (hi.fresh _ (Nat.le_refl _)).1 (Job.not_of_ready hr).1
  | push => exact hs
  | take j q hl hq =>
    intro i _ k hk hr
    -- a job was waiting, so the last one was
    have hk' := hi.last_waiting k hk (by simp [waiting, hq])
    exact absurd (hi.packaged k hk') (Job.not_of_ready hr).1
  | spawn j hl hj => exact settled_setJob hs hl (by rw [hj]; rfl)
  | call j hj => exact settled_setJob hs (hi.thread j (.inl hj)) (by rw [hj]; rfl)
  | advance j a hj =>
    refine settled_setJob hs (hi.thread j (.inr hj)) ?_
    by_contra h
    exact absurd hj (by simp [(Job.not_of_ready (by simpa using h)).2.2])
  | leave => exact fun i hi ↦ absurd hi (by simp)
  | drop h =>
    intro j hj k hk hr
    rw [jobs_drop, if_neg (hi.front_not_mem hj)]
    by_cases hkq : k ∈ l.queue
    · exact h j hj k hk hkq
    · rw [jobs_drop, if_neg hkq] at hr
      exact hs j hj k hk hr

end Line

/-! ## Sequences -/

namespace Sequence

variable {s s' s₁ : Sequence} {e : Event} {es fs : List Event} {j : ℕ}

/-- A `stop` does not drop the last job while the task that the master took has not ended.  In the
destructor it may: nobody calls `join` after that. -/
def SafeToStop (s : Sequence) : Prop := s.client.destroying = true ∨ s.line.Safe

instance : DecidablePred SafeToStop := fun s ↦
  inferInstanceAs (Decidable (s.client.destroying = true ∨ s.line.Safe))

/-- When the last job has ended, nothing is executing, or nobody can call `join`. -/
structure Quiet (s : Sequence) : Prop where
  sound : s.Sound
  settled : s.client.destroying = true ∨ s.line.Settled

theorem quiet_init : init.Quiet where
  sound := sound_init
  settled := .inr fun j hj ↦ absurd hj (by simp [line, init, Master.front])

theorem quiet_step (hok : e = .stop → s.SafeToStop) (h : s.step e = some s') (hq : s.Quiet) :
    s'.Quiet := by
  have hmoves := moves_step (fun _ ↦ True) (fun _ ↦ trivial) hq.sound h
  refine ⟨hq.sound.moves hmoves, ?_⟩
  by_cases hd : s.client.destroying = true
  · exact .inl (hmoves.destroying hd)
  have hsettled := hq.settled.resolve_left hd
  have hmoves' := moves_step Line.Safe (fun he ↦ (hok he).resolve_left hd) hq.sound h
  right
  rcases hmoves'.line with hl | hl
  · rw [hl]
    exact hsettled
  · exact Line.settled_next hl hq.sound.inv hsettled

/-- In a quiet state, `join` does not return while a job is executing. -/
theorem Quiet.idle (hq : s.Quiet) (h : s.step .joinReturn = some s') (j : ℕ) :
    (s'.jobs j).executing = false := by
  simp only [step, joinReturn, Option.ite_none_right_eq_some, Option.some.injEq] at h
  obtain ⟨⟨hc, hr⟩, rfl⟩ := h
  have hsettled := hq.settled.resolve_left (by simp [hc, Client.destroying])
  rw [← Bool.not_eq_true]
  intro hj
  have hfront := hq.sound.inv.thread j (.inr hj)
  have hlt : j < s.attached := Nat.lt_of_not_le fun h ↦ (hq.sound.inv.fresh j h).2.2 hfront
  have hlast : s.line.last = some (s.attached - 1) :=
    (hq.sound.inv.last (s.attached - 1)).mpr (Nat.sub_add_cancel (Nat.one_le_of_lt hlt))
  have hready : (s.jobs (s.attached - 1)).ready = true := by
    simpa [lastReady, show s.lastFuture = some (s.attached - 1) from hlast] using hr
  have := (Job.not_of_ready (hsettled j hfront _ hlast hready)).2.2
  exact absurd (hj.symm.trans this) (by decide)

/-- **When `join` returns, nothing is executing**, in a run in which every `stop` is safe. -/
theorem join_returns_idle {es : List Event} {s s' : Sequence}
    (hes : Steps.Meets step (fun s e ↦ e = .stop → s.SafeToStop) init es) (h : run es = some s)
    (hjoin : s.step .joinReturn = some s') : ∀ j, (s'.jobs j).executing = false :=
  (Steps.steps_inv (fun _ _ _ ↦ quiet_step) hes h quiet_init).idle hjoin

/-- One job, and a `stop` while it is executing: the queue is empty, so `join` waits for the job. -/
theorem join_returns_idle_small :
    ∃ s, (run [.attachJob, .pushBack, .notify, .lock, .evaluate, .popFront, .spawn, .call 0, .stop,
        .setSignal, .stopReturn, .callReturn 0 false, .pollStop 0, .join]).bind
          (step · .joinReturn) = some s ∧ ∀ j, (s.jobs j).executing = false := by
  refine ⟨_, rfl, ?_⟩
  exact @join_returns_idle [.attachJob, .pushBack, .notify, .lock, .evaluate, .popFront,
    .spawn, .call 0, .stop, .setSignal, .stopReturn, .callReturn 0 false, .pollStop 0, .join] _ _
    (by decide) rfl rfl

/-- Two jobs, and a `stop` while the first is executing: `join` returns before that has ended. -/
theorem not_join_returns_idle :
    ¬ ∀ es s s', run es = some s → s.step .joinReturn = some s' →
      ∀ j, (s'.jobs j).executing = false := by
  intro h
  have := h [.attachJob, .pushBack, .notify, .attachJob, .pushBack, .notify,
    .lock, .evaluate, .popFront, .spawn, .call 0, .join, .stop] _ _ rfl rfl 0
  exact absurd this (by decide)

/-! ## After a `stop` that is not safe -/

/-- The client may come to wait in `join`. -/
theorem exists_joining (hd : s.client.destroying = false)
    (hhand : s.client.hand = none) (hfront : s.master.front = some j) :
    ∃ fs, .stop ∉ fs ∧ Steps.steps step s fs = some { s with client := .joining } := by
  have hn : s.notifyOne = s := by
    rw [notifyOne, if_neg]
    intro h
    simp [h, Master.front] at hfront
  cases hc : s.client with
  | idle => exact ⟨[.join], by simp, by simp [step, join, hc]⟩
  | notifying =>
    exact ⟨[.notify, .join], by simp, by simp [step, notify, join, hc, hn]⟩
  | joining => exact ⟨[], by simp, by simp [← hc]⟩
  | attaching i => simp [hc, Client.hand] at hhand
  | _ => simp [hc, Client.destroying] at hd

/-- The job in front may be executing, if it has not ended. -/
theorem exists_executing (hs : s.Sound) (hfront : s.master.front = some j)
    (hj : (s.jobs j).ready = false) :
    ∃ fs s', .stop ∉ fs ∧ Steps.steps step s fs = some s' ∧ (s'.jobs j).executing = true ∧
      s'.client = s.client ∧ s'.lastFuture = s.lastFuture ∧ ∀ k ≠ j, s'.jobs k = s.jobs k := by
  have htaken := hs.taken j hfront
  cases hjobs : s.jobs j with
  | packaged =>
    have hm := htaken.mp hjobs
    refine ⟨[.spawn, .call j], _, by simp, by simp [step, spawn, call, hm, setJob]; rfl, ?_⟩
    exact ⟨by simp [Job.executing], rfl, rfl, fun k hk ↦ by simp [hk]⟩
  | spawned =>
    refine ⟨[.call j], _, by simp, by simp [step, call, hjobs]; rfl, ?_⟩
    exact ⟨by simp [setJob, Job.executing], rfl, rfl, fun k hk ↦ by simp [setJob, hk]⟩
  | calling i | polling i =>
    exact ⟨[], s, by simp, rfl, by simp [hjobs, Job.executing], rfl, rfl, fun _ _ ↦ rfl⟩
  | ended o => simp [hjobs, Job.ready] at hj

/-- **Which `stop` is safe**, after a run in which all were: exactly the one after which, without
another `stop`, `join` does not return while a job is executing. -/
theorem safeToStop_iff
    (hes : Steps.Meets step (fun s e ↦ e = .stop → s.SafeToStop) init es) (h : run es = some s)
    (hstop : s.step .stop = some s₁) :
    s.SafeToStop ↔ ∀ fs s₂ s₃, .stop ∉ fs → Steps.steps step s₁ fs = some s₂ →
      s₂.step .joinReturn = some s₃ → ∀ j, (s₃.jobs j).executing = false := by
  have hq : s.Quiet := Steps.steps_inv (fun _ _ _ ↦ quiet_step) hes h quiet_init
  constructor
  · intro hsafe fs s₂ s₃ hfs h₂ h₃
    have hmeets : Steps.Meets step (fun s e ↦ e = .stop → s.SafeToStop) s₁ fs :=
      Steps.meets_of_forall fun e he _ heq ↦ absurd (heq ▸ he) hfs
    exact (Steps.steps_inv (fun _ _ _ ↦ quiet_step) hmeets h₂
      (quiet_step (fun _ ↦ hsafe) hstop hq)).idle h₃
  intro hidle
  by_contra hsafe
  simp only [SafeToStop, not_or, Line.Safe, not_forall, Bool.not_eq_true] at hsafe
  obtain ⟨hd, j, hj, k, hk, hkq, hr⟩ := hsafe
  have hlt : j < k := hq.sound.inv.front_lt j hj k (List.mem_append_left _ hkq)
  -- the last job is in the queue, so none is on its way there
  have hhand : s.client.hand = none := by
    by_contra h
    obtain ⟨i, hi⟩ := Option.ne_none_iff_exists'.mp h
    have hw : s.line.waiting = s.tasks ++ [i] := by simp [Line.waiting, line, hi]
    have hsorted := (List.pairwise_append.mp hq.sound.inv.sorted).2.1
    rw [hw] at hsorted
    have h1 := (List.pairwise_append.mp hsorted).2.2 k hkq i List.mem_cons_self
    have h2 := hq.sound.inv.waiting_lt (j := i) (by simp [hw])
    have h3 := (hq.sound.inv.last k).mp hk
    omega
  have hs₁ : s₁.Sound := hq.sound.steps (Steps.steps_one hstop)
  obtain ⟨hline, hclient, hmaster⟩ := stop_spec hstop
  have hr₁ : (s₁.line.jobs j).ready = false := by
    rwa [hline, Line.jobs_drop, if_neg (hq.sound.inv.front_not_mem hj)]
  have hk₁ : (s₁.line.jobs k).ready = true := by
    rw [hline, Line.jobs_drop, if_pos hkq]
    rfl
  -- the client waits in `join`, and the job in front is executing
  obtain ⟨fs, hfs, h₂⟩ := exists_joining (s := s₁) (j := j) (hclient ▸ hd) (hclient ▸ hhand)
    (hmaster ▸ hj)
  obtain ⟨gs, s₃, hgs, h₃, hexec, hclient', hlast, hjobs⟩ :=
    exists_executing (hs₁.steps h₂) (hmaster ▸ hj) hr₁
  have hready : s₃.lastReady = true := by
    have hk' : s₁.lastFuture = some k := (congrArg Line.last hline).trans hk
    simp only [lastReady, hlast, hk', hjobs k (Nat.ne_of_gt hlt)]
    exact hk₁
  have h₄ : s₃.step .joinReturn = some { s₃ with client := .idle } := by
    simp [step, joinReturn, hclient', hready]
  have := hidle (fs ++ gs) s₃ _ (by simp [hfs, hgs]) (by rw [Steps.steps_append, h₂]; exact h₃) h₄ j
  exact absurd (hexec.symm.trans this) (by decide)

end Sequence
end Jobs
end Cppkg
