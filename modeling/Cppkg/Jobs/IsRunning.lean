import Cppkg.Jobs.InOrder

/-!
# What `isRunning` tells

`isRunning` looks whether there is a future of the job that was attached last.  `attachJob` puts one
there and nothing takes it away: not the end of the job, not `stop`, not `join`.  So it tells
whether a job was ever attached, and goes on to do so when there is nothing left to run.

`isRunning_iff`: it is right along a run exactly if no step of the run ends the last job there is.
-/

set_option autoImplicit false

namespace Cppkg
namespace Jobs
namespace Sequence

variable {s s' : Sequence} {e : Event} {es : List Event} {j : ℕ}

/-! ## What is still to be done -/

/-- Some attached job is queued or executing: its task has neither ended nor been dropped. -/
def Busy (s : Sequence) : Prop := ∃ j < s.attached, (s.jobs j).ready = false

instance : DecidablePred Busy := fun s ↦
  inferInstanceAs (Decidable (∃ j < s.attached, (s.jobs j).ready = false))

/-- Where such a job is: on its way to the queue or in it, taken by the master, or in its calls. -/
theorem Sound.busy_iff (hs : s.Sound) :
    s.Busy ↔ (∃ j, j ∈ s.line.waiting) ∨
      ∃ j, s.master.front = some j ∧ (s.jobs j).ready = false := by
  constructor
  · rintro ⟨j, hj, hr⟩
    have hfront : s.jobs j = .spawned ∨ (s.jobs j).executing = true → s.master.front = some j :=
      hs.inv.thread j
    cases hjob : s.jobs j with
    | packaged =>
      exact (hs.inv.rest j hj hjob).imp (fun h ↦ ⟨j, h⟩) fun h ↦ ⟨j, h, hr⟩
    | spawned => exact .inr ⟨j, hfront (.inl hjob), hr⟩
    | calling i | polling i => exact .inr ⟨j, hfront (.inr (by rw [hjob]; rfl)), hr⟩
    | ended o => simp [hjob, Job.ready] at hr
  · rintro (⟨j, hj⟩ | ⟨j, hj, hr⟩)
    · have hp : s.jobs j = .packaged := hs.inv.packaged j hj
      exact ⟨j, hs.inv.waiting_lt hj, by rw [hp]; rfl⟩
    · exact ⟨j, Nat.lt_of_not_le fun h ↦ (hs.inv.fresh j h).2.2 hj, hr⟩

/-- A step ends the task of job `j`, or drops it. -/
def EndsJob (s : Sequence) : Event → ℕ → Prop
  | .stop, j => j ∈ s.tasks
  | .callReturn i done, j => j = i ∧ done = true
  | .callThrow i, j => j = i
  | .pollStop i, j => j = i ∧ s.stopSignal = true
  | _, _ => False

instance (s : Sequence) (e : Event) (j : ℕ) : Decidable (s.EndsJob e j) := by
  cases e <;> unfold EndsJob <;> infer_instance

/-- If a job is queued or executing, the step leaves one that is.  In the destructor nobody asks. -/
def StaysBusy (s : Sequence) (e : Event) : Prop :=
  s.stopped = false → s.Busy → ∃ j < s.attached, (s.jobs j).ready = false ∧ ¬ s.EndsJob e j

instance (s : Sequence) (e : Event) : Decidable (s.StaysBusy e) :=
  inferInstanceAs (Decidable (s.stopped = false → s.Busy →
    ∃ j < s.attached, (s.jobs j).ready = false ∧ ¬ s.EndsJob e j))

/-! ## What a step changes -/

theorem notifyOne_frame (s : Sequence) : s.notifyOne.attached = s.attached ∧
    s.notifyOne.lastFuture = s.lastFuture ∧ s.notifyOne.stopped = s.stopped ∧
    s.notifyOne.jobs = s.jobs := by
  unfold notifyOne
  split <;> exact ⟨rfl, rfl, rfl, rfl⟩

/-- Only `attachJob` counts a job and takes its future, and only the destructor stops that. -/
theorem attached_step (h : s.step e = some s') :
    (s'.attached = if e = .attachJob then s.attached + 1 else s.attached) ∧
      (s'.lastFuture = if e = .attachJob then some s.attached else s.lastFuture) ∧
      s'.stopped = (s.stopped || e == .destroy) := by
  have hn := notifyOne_frame s
  cases e
  case pushBack =>
    simp only [step, pushBack] at h
    split at h
    · split at h
      · cases h
      · split at h <;> (cases h; simp [setJob])
    · cases h
  all_goals
    simp only [step, attachJob, notify, join, joinReturn, destroy, signalExit, joinMaster, stop,
      setSignal, stopReturn, lock, evaluate, block, wake, popFront, spawn, joinThread, testExit,
      call, callReturn, callThrow, pollStop] at h
    repeat (split at h)
    all_goals first | (cases h; simp [setJob, hn]) | cases h

/-- A job that has not ended changes its state. -/
theorem ready_setJob {i : ℕ} {a : Job} (hi : (s.jobs i).ready = false) :
    ((s.setJob i a).jobs j).ready = true ↔
      (s.jobs j).ready = true ∨ j = i ∧ a.ready = true := by
  simp only [setJob, Function.update_apply]
  split
  · rename_i h
    simp [h, hi]
  · rename_i h
    simp [h]

/-- **Which jobs a step ends.** -/
theorem ready_step (hs : s.Sound) (hst : s.stopped = false) (h : s.step e = some s') :
    (s'.jobs j).ready = true ↔ (s.jobs j).ready = true ∨ s.EndsJob e j := by
  have hn := notifyOne_frame s
  cases e
  case pushBack =>
    simp only [step, pushBack, hst] at h
    split at h
    · simp only [Bool.false_eq_true, if_false, Option.ite_none_left_eq_some,
        Option.some.injEq] at h
      obtain ⟨-, rfl⟩ := h
      simp [EndsJob]
    · cases h
  case stop =>
    simp only [step, stop, Option.ite_none_right_eq_some, Option.some.injEq] at h
    obtain ⟨-, rfl⟩ := h
    by_cases hj : j ∈ s.tasks <;> simp [EndsJob, hj, Job.ready]
  case spawn =>
    obtain ⟨i, hm, rfl⟩ := spawn_eq_some.mp h
    have hi : s.jobs i = .packaged := (hs.taken i (congrArg Master.front hm)).mpr hm
    refine (ready_setJob (by rw [hi]; rfl)).trans ?_
    simp [EndsJob, Job.ready]
  case call i =>
    obtain ⟨hi, rfl⟩ := call_eq_some.mp h
    refine (ready_setJob (by rw [hi]; rfl)).trans ?_
    simp [EndsJob, Job.ready]
  case callReturn i done =>
    obtain ⟨n, hi, rfl⟩ := callReturn_eq_some.mp h
    refine (ready_setJob (by rw [hi]; rfl)).trans ?_
    cases done <;> simp [EndsJob, Job.ready]
  case callThrow i =>
    obtain ⟨n, hi, rfl⟩ := callThrow_eq_some.mp h
    refine (ready_setJob (by rw [hi]; rfl)).trans ?_
    simp [EndsJob, Job.ready]
  case pollStop i =>
    obtain ⟨n, hi, rfl⟩ := pollStop_eq_some.mp h
    refine (ready_setJob (by rw [hi]; rfl)).trans ?_
    cases hsig : s.stopSignal <;> simp [EndsJob, Job.ready, hsig]
  all_goals
    simp only [step, attachJob, notify, join, joinReturn, destroy, signalExit, joinMaster,
      setSignal, stopReturn, lock, evaluate, block, wake, popFront, joinThread, testExit] at h
    repeat (split at h)
    all_goals first | (cases h; simp [EndsJob, hn]) | cases h

/-! ## Runs -/

/-- `isRunning` is right, as long as it can be asked. -/
def Right (s : Sequence) : Prop := s.stopped = false → (s.isRunning = true ↔ s.Busy)

/-- The state of a run along which `isRunning` was right. -/
structure Answers (s : Sequence) : Prop where
  sound : s.Sound
  right : s.Right

theorem answers_init : init.Answers :=
  ⟨sound_init, fun _ ↦ by simp [isRunning, Busy, init]⟩

/-- What a step does to the answer, and to what the answer should be. -/
theorem busy_step (hs : s.Sound) (hst : s'.stopped = false) (h : s.step e = some s') :
    (s'.isRunning = true ↔ e = .attachJob ∨ s.isRunning = true) ∧
      (s'.Busy ↔ e = .attachJob ∨
        ∃ j < s.attached, (s.jobs j).ready = false ∧ ¬ s.EndsJob e j) := by
  obtain ⟨hatt, hlast, hstop⟩ := attached_step h
  have hst' : s.stopped = false := by
    rw [hstop, Bool.or_eq_false_iff] at hst
    exact hst.1
  have hready : ∀ j, (s'.jobs j).ready = false ↔ (s.jobs j).ready = false ∧ ¬ s.EndsJob e j := by
    intro j
    rw [← Bool.not_eq_true, ready_step hs hst' h, not_or, Bool.not_eq_true]
  refine ⟨by rw [isRunning, hlast]; split <;> simp_all [isRunning], ?_⟩
  simp only [Busy, hready, hatt]
  constructor
  · rintro ⟨j, hj, hr⟩
    split at hj
    · rename_i he
      exact .inl he
    · exact .inr ⟨j, hj, hr⟩
  · rintro (rfl | ⟨j, hj, hr⟩)
    · have hfresh : s.jobs s.attached = .packaged := (hs.inv.fresh _ (Nat.le_refl _)).1
      exact ⟨s.attached, by simp, by rw [hfresh]; rfl, id⟩
    · exact ⟨j, by split <;> omega, hr⟩

/-- **When `isRunning` is right.**  Along a run it says whether a job is queued or executing exactly
if no step ends the last of the jobs that are. -/
theorem isRunning_iff {es : List Event} {s : Sequence} (h : run es = some s) :
    Steps.Meets step StaysBusy init es ↔
      ∀ fs gs u, es = fs ++ gs → run fs = some u → u.stopped = false →
        (u.isRunning = true ↔ u.Busy) := by
  refine Steps.meets_iff (P := Right) (fun _ hs ↦ hs.right) ?_ h answers_init
  rintro s e s' hstep ⟨hs, hright⟩
  have hs' : s'.Sound := hs.steps (Steps.steps_one hstep)
  have hstop := (attached_step hstep).2.2
  refine ⟨fun hstays ↦ ⟨hs', fun hst' ↦ ?_⟩, fun hright' hst hbusy ↦ ?_⟩
  · have hst : s.stopped = false := by
      rw [hstop, Bool.or_eq_false_iff] at hst'
      exact hst'.1
    obtain ⟨hrun, hbusy⟩ := busy_step hs hst' hstep
    rw [hrun, hbusy, hright hst]
    exact or_congr_right ⟨hstays hst, fun ⟨j, hj, hr, _⟩ ↦ ⟨j, hj, hr⟩⟩
  · by_cases he : ∀ j, ¬ s.EndsJob e j
    · obtain ⟨j, hj, hr⟩ := hbusy
      exact ⟨j, hj, hr, he j⟩
    -- the step that ends a job neither attaches one nor begins the destruction
    push Not at he
    obtain ⟨i, hi⟩ := he
    have hne : e ≠ .attachJob ∧ e ≠ .destroy := by
      constructor <;> (rintro rfl; exact hi)
    have hst' : s'.stopped = false := by
      rw [hstop, hst]
      simpa using hne.2
    obtain ⟨hrun, hbusy'⟩ := busy_step hs hst' hstep
    exact (hbusy'.mp ((hright' hst').mp (hrun.mpr (.inr ((hright hst).mpr hbusy))))).resolve_left
      hne.1

/-- A job that has not ended: the answer was right from the beginning. -/
theorem isRunning_iff_small :
    ∃ s, run [.attachJob, .pushBack, .notify, .lock, .evaluate, .popFront] = some s ∧
      (s.isRunning = true ↔ s.Busy) :=
  ⟨_, rfl, (@isRunning_iff [.attachJob, .pushBack, .notify, .lock, .evaluate, .popFront] _ rfl).mp
    (by decide) _ [] _ (List.append_nil _).symm rfl rfl⟩

/-- A job that has returned, and a client that has joined it: still running. -/
theorem not_isRunning_iff :
    ¬ ∀ es s, run es = some s → s.stopped = false → (s.isRunning = true ↔ s.Busy) := by
  intro h
  have := h [.attachJob, .pushBack, .notify, .lock, .evaluate, .popFront, .spawn, .call 0,
    .callReturn 0 true, .join, .joinReturn] _ rfl rfl
  exact absurd (this.mp rfl) (by decide)

end Sequence
end Jobs
end Cppkg
