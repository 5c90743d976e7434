import Cppkg.Jobs.IsRunning
import Cppkg.Jobs.Destructor

/-!
# A `Sequence` does all its work

That nothing goes wrong is shown elsewhere.  Here it is shown that things go on, whichever of the
threads that can take a step comes next.

`stuck_iff_done`: no notification is lost.  When no thread can go on, every attached job has ended,
the queue is empty and nobody waits in `join`; the master waits for the next job — unless the
destructor is in the deadlock of `Deadlocked`.

`length_run_le`: and it comes to that.  Each call of a function is worth a number of steps, and so
are each wake-up without a notification and each call of a job that returns false; a run has no more
steps than these are worth.

`last_calls`: after the stop signal at most one call of each job ends.
-/

set_option autoImplicit false

namespace Cppkg
namespace Jobs
namespace Sequence

variable {s s' t : Sequence} {e : Event} {es fs : List Event} {j : ℕ}

/-! ## What the threads know of each other -/

/-- What every state keeps to of the queue, the lock and the signals. -/
structure Watched (s : Sequence) : Prop where
  sound : s.Sound
  /-- Who is in `stop` has the lock. -/
  locked : s.stopper ≠ .idle → s.master ≠ .holding ∧ s.master ≠ .passed ∧ s.master ≠ .failed
  /-- The master gives up on an empty queue only. -/
  failed : s.master = .failed → s.tasks = []
  /-- The master waits while there is a job only until it is notified of that. -/
  waiting : s.master = .waiting → s.tasks = [] ∨ s.client = .notifying
  /-- The predicate was true, and nothing has changed since. -/
  passed : s.master = .passed → s.tasks = [] → s.exitSignal = true
  cleared : s.client = .stopping → s.stopper ≠ .idle → s.tasks = []
  ending : s.client.ending = true ∨ s.client = .gone → s.tasks = []
  signal : s.exitSignal = true → s.client = .joiningMaster ∨ s.client = .gone
  ended : s.master = .ended → s.exitSignal = true
  gone : s.client = .gone → s.master = .ended

theorem watched_init : init.Watched where
  sound := sound_init
  locked h := absurd rfl h
  failed h := by simp [init] at h
  waiting h := by simp [init] at h
  passed h := by simp [init] at h
  cleared h := by simp [init] at h
  ending h := by simp [init, Client.ending] at h
  signal h := by simp [init] at h
  ended h := by simp [init] at h
  gone h := by simp [init] at h

namespace Watched

/-- The state of a job changes. -/
theorem of_job (hw : s.Watched) (hs' : s'.Sound) (hmaster : s'.master = s.master)
    (hstopper : s'.stopper = s.stopper) (hclient : s'.client = s.client)
    (htasks : s'.tasks = s.tasks) (hexit : s'.exitSignal = s.exitSignal) : s'.Watched := by
  obtain ⟨-, h1, h2, h3, h4, h5, h6, h7, h8, h9⟩ := hw
  exact ⟨hs', by simpa only [hmaster, hstopper] using h1, by simpa only [hmaster, htasks] using h2,
    by simpa only [hmaster, htasks, hclient] using h3,
    by simpa only [hmaster, htasks, hexit] using h4,
    by simpa only [hclient, hstopper, htasks] using h5, by simpa only [hclient, htasks] using h6,
    by simpa only [hclient, hexit] using h7, by simpa only [hmaster, hexit] using h8,
    by simpa only [hmaster, hclient] using h9⟩

/-- The master goes on, which has not ended. -/
theorem of_master (hw : s.Watched) (hs' : s'.Sound) (hclient : s'.client = s.client)
    (hstopper : s'.stopper = s.stopper) (hexit : s'.exitSignal = s.exitSignal)
    (hfrom : s.master ≠ .ended) (htasks : s.tasks = [] → s'.tasks = [])
    (hlock : s.stopper ≠ .idle → s'.master ≠ .holding ∧ s'.master ≠ .passed ∧ s'.master ≠ .failed)
    (hwait : s'.master = .failed ∨ s'.master = .waiting → s'.tasks = [])
    (hpassed : s'.master = .passed → s'.tasks = [] → s.exitSignal = true)
    (hended : s'.master = .ended → s.exitSignal = true) : s'.Watched where
  sound := hs'
  locked := hstopper ▸ hlock
  failed h := hwait (.inl h)
  waiting h := .inl (hwait (.inr h))
  passed h h' := hexit ▸ hpassed h h'
  cleared h h' := htasks (hw.cleared (hclient ▸ h) (hstopper ▸ h'))
  ending h := htasks (hw.ending (hclient ▸ h))
  signal h := hclient ▸ hw.signal (hexit ▸ h)
  ended h := hexit ▸ hended h
  gone h := absurd (hw.gone (hclient ▸ h)) hfrom

/-- The client goes on, which does not have to notify anybody. -/
theorem of_client (hw : s.Watched) (hs' : s'.Sound) (hmaster : s'.master = s.master)
    (hstopper : s'.stopper = s.stopper) (htasks : s'.tasks = s.tasks)
    (hfrom : s.client ≠ .notifying) (hexit : s.exitSignal = true → s'.exitSignal = true)
    (hempty : s'.client.ending = true ∨ s'.client = .gone → s.tasks = [])
    (hidle : s'.client = .stopping → s.stopper = .idle)
    (hsignal : s'.exitSignal = true → s'.client = .joiningMaster ∨ s'.client = .gone)
    (hgone : s'.client = .gone → s.master = .ended) : s'.Watched where
  sound := hs'
  locked := hstopper ▸ hmaster ▸ hw.locked
  failed := htasks ▸ hmaster ▸ hw.failed
  waiting h := .inl (htasks ▸ (hw.waiting (hmaster ▸ h)).resolve_right hfrom)
  passed h h' := hexit (hw.passed (hmaster ▸ h) (htasks ▸ h'))
  cleared h h' := absurd (hidle h) (hstopper ▸ h')
  ending h := htasks ▸ hempty h
  signal := hsignal
  ended h := hexit (hw.ended (hmaster ▸ h))
  gone h := hmaster ▸ hgone h

/-- The destructor has not signalled the exit yet. -/
theorem not_exitSignal (hw : s.Watched) (h : s.client ≠ .joiningMaster ∧ s.client ≠ .gone) :
    s.exitSignal ≠ true := fun hexit ↦ (hw.signal hexit).elim h.1 h.2

/-! ### The steps of the client -/

/-- `attach_job` is not refused: nobody attaches once the destructor has begun. -/
theorem pushBack_eq_some (hw : s.Watched) (h : s.pushBack = some s') :
    ∃ j, s.client = .attaching j ∧ s.locked ≠ true ∧
      { s with tasks := s.tasks ++ [j], client := .notifying } = s' := by
  unfold Sequence.pushBack at h
  split at h
  · rename_i j hc
    have hopen : s.stopped ≠ true := fun h ↦ by
      simpa [hc, Client.destroying] using hw.sound.closed h
    simp only [if_neg hopen, Option.ite_none_left_eq_some, Option.some.injEq] at h
    exact ⟨j, hc, h⟩
  · simp at h

theorem pushBack (hw : s.Watched) (h : s.pushBack = some s') (hs' : s'.Sound) : s'.Watched := by
  obtain ⟨j, hc, hlock, rfl⟩ := hw.pushBack_eq_some h
  refine ⟨hs', hw.locked, fun h ↦ ?_, fun _ ↦ .inr rfl, fun _ h ↦ by simp at h,
    fun h ↦ by simp at h, fun h ↦ by simp [Client.ending] at h, fun h ↦ ?_, hw.ended,
    fun h ↦ by simp at h⟩
  · -- the lock was free
    have : s.master = .failed := h
    exact absurd (show s.locked = true by simp [Sequence.locked, this]) hlock
  · simpa [hc] using hw.signal h

/-- Where the master is after it was notified: not waiting, and else where it was, or woken. -/
theorem notifyOne (s : Sequence) : ∃ m, s.notifyOne = { s with master := m } ∧
    m ≠ .waiting ∧ ∀ a, a ≠ .locking → a ≠ .waiting → (m = a ↔ s.master = a) := by
  unfold Sequence.notifyOne
  split
  · rename_i h
    exact ⟨.locking, rfl, by simp, fun a h1 h2 ↦ by simp [h, h1.symm, h2.symm]⟩
  · rename_i h
    exact ⟨s.master, rfl, h, fun a _ _ ↦ Iff.rfl⟩

theorem notify (hw : s.Watched) (h : s.notify = some s') (hs' : s'.Sound) : s'.Watched := by
  simp only [Sequence.notify, Option.ite_none_right_eq_some, Option.some.injEq] at h
  obtain ⟨hc, rfl⟩ := h
  obtain ⟨m, hn, hm, hm'⟩ := notifyOne s
  rw [hn] at hs' ⊢
  have hexit : s.exitSignal ≠ true := hw.not_exitSignal (by simp [hc])
  refine ⟨hs', fun h ↦ ?_, fun h ↦ ?_, fun h ↦ absurd h hm, fun h ↦ ?_, fun h ↦ by simp at h,
    fun h ↦ by simp [Client.ending] at h, fun h ↦ absurd h hexit, fun h ↦ ?_, fun h ↦ by simp at h⟩
  · have hlock := hw.locked h
    simpa [hm'] using hlock
  · exact hw.failed ((hm' _ (by simp) (by simp)).mp h)
  · exact hw.passed ((hm' _ (by simp) (by simp)).mp h)
  · exact hw.ended ((hm' _ (by simp) (by simp)).mp h)

/-! ### The steps of `stop` -/

theorem stop (hw : s.Watched) (h : s.stop = some s') (hs' : s'.Sound) : s'.Watched := by
  simp only [Sequence.stop, Option.ite_none_right_eq_some, Option.some.injEq] at h
  obtain ⟨⟨hlock, -⟩, rfl⟩ := h
  -- the lock was free
  have hfree : s.master ≠ .holding ∧ s.master ≠ .passed ∧ s.master ≠ .failed := by
    refine ⟨?_, ?_, ?_⟩ <;> intro h <;> simp [Sequence.locked, h] at hlock
  exact ⟨hs', fun _ ↦ hfree, fun _ ↦ rfl, fun _ ↦ .inl rfl, fun h ↦ absurd h hfree.2.1,
    fun _ _ ↦ rfl, fun _ ↦ rfl, hw.signal, hw.ended, hw.gone⟩

theorem setSignal (hw : s.Watched) (h : s.setSignal = some s') (hs' : s'.Sound) : s'.Watched := by
  simp only [Sequence.setSignal, Option.ite_none_right_eq_some, Option.some.injEq] at h
  obtain ⟨hst, rfl⟩ := h
  have hne : s.stopper ≠ .idle := by simp [hst]
  exact ⟨hs', fun _ ↦ hw.locked hne, hw.failed, hw.waiting, hw.passed, fun h _ ↦ hw.cleared h hne,
    hw.ending, hw.signal, hw.ended, hw.gone⟩

theorem stopReturn (hw : s.Watched) (h : s.stopReturn = some s') (hs' : s'.Sound) :
    s'.Watched := by
  simp only [Sequence.stopReturn, Option.ite_none_right_eq_some, Option.some.injEq] at h
  obtain ⟨hst, rfl⟩ := h
  obtain ⟨m, hn, hm, hm'⟩ := notifyOne s
  rw [hn] at hs' ⊢
  refine ⟨hs', fun h ↦ absurd rfl h, fun h ↦ ?_, fun h ↦ absurd h hm, fun h ↦ ?_,
    fun _ h ↦ absurd rfl h, fun h ↦ ?_, fun h ↦ ?_, fun h ↦ ?_, fun h ↦ ?_⟩
  · exact hw.failed ((hm' _ (by simp) (by simp)).mp h)
  · exact hw.passed ((hm' _ (by simp) (by simp)).mp h)
  · by_cases hc : s.client = .stopping
    · exact hw.cleared hc (by simp [hst])
    · exact hw.ending (by simpa [hc] using h)
  · have hclient := hw.signal h
    rcases hclient with hc | hc <;> simp [hc]
  · exact hw.ended ((hm' _ (by simp) (by simp)).mp h)
  · by_cases hc : s.client = .stopping
    · simp [hc] at h
    · exact (hm' _ (by simp) (by simp)).mpr (hw.gone (by simpa [hc] using h))

/-! ### The steps of the master -/

theorem popFront (hw : s.Watched) (h : s.popFront = some s') (hs' : s'.Sound) : s'.Watched := by
  simp only [Sequence.popFront, Option.ite_none_right_eq_some] at h
  obtain ⟨hm, h⟩ := h
  split at h
  all_goals
    rename_i ht
    obtain rfl := Option.some.inj h
  · exact hw.of_master hs' rfl rfl rfl (by simp [hm]) id (by simp) (by simp) (by simp) (by simp)
  · exact hw.of_master hs' rfl rfl rfl (by simp [hm]) (by simp [ht]) (by simp) (by simp) (by simp)
      (by simp)

theorem evaluate (hw : s.Watched) (h : s.evaluate = some s') (hs' : s'.Sound) : s'.Watched := by
  simp only [Sequence.evaluate, Option.ite_none_right_eq_some, Option.some.injEq] at h
  obtain ⟨hm, rfl⟩ := h
  have hidle : s.stopper = .idle := by
    by_contra hne
    exact (hw.locked hne).1 hm
  by_cases hp : s.exitSignal = true ∨ s.tasks ≠ []
  all_goals
    simp only [hp, if_true, if_false] at hs' ⊢
  · exact hw.of_master hs' rfl rfl rfl (by simp [hm]) id (absurd hidle) (by simp)
      (fun _ h ↦ hp.resolve_right fun hne ↦ hne h) (by simp)
  · exact hw.of_master hs' rfl rfl rfl (by simp [hm]) id (absurd hidle)
      (fun _ ↦ by_contra fun hne ↦ hp (.inr hne)) (by simp) (by simp)

theorem testExit (hw : s.Watched) (h : s.testExit = some s') (hs' : s'.Sound) : s'.Watched := by
  simp only [Sequence.testExit, Option.ite_none_right_eq_some, Option.some.injEq] at h
  obtain ⟨hm, rfl⟩ := h
  by_cases hexit : s.exitSignal = true
  · rw [if_pos hexit] at hs' ⊢
    exact hw.of_master hs' rfl rfl rfl (by simp [hm]) id (by simp) (by simp) (by simp)
      (fun _ ↦ hexit)
  · rw [if_neg hexit] at hs' ⊢
    exact hw.of_master hs' rfl rfl rfl (by simp [hm]) id (by simp) (by simp) (by simp) (by simp)

end Watched

theorem watched_step (h : s.step e = some s') (hw : s.Watched) : s'.Watched := by
  have hs' : s'.Sound := hw.sound.steps (Steps.steps_one h)
  cases e with
  | attachJob =>
    simp only [step, attachJob, Option.ite_none_right_eq_some, Option.some.injEq] at h
    obtain ⟨hc, rfl⟩ := h
    have hexit := hw.not_exitSignal (by simp [hc])
    exact hw.of_client hs' rfl rfl rfl (by simp [hc]) id (by simp [Client.ending]) (by simp)
      (fun h ↦ absurd h hexit) (by simp)
  | pushBack => exact hw.pushBack h hs'
  | notify => exact hw.notify h hs'
  | join | joinReturn =>
    simp only [step, join, joinReturn, Option.ite_none_right_eq_some, Option.some.injEq] at h
    obtain ⟨hc, rfl⟩ := h
    have hexit := hw.not_exitSignal (by simp [hc])
    exact hw.of_client hs' rfl rfl rfl (by simp [hc]) id (by simp [Client.ending]) (by simp)
      (fun h ↦ absurd h hexit) (by simp)
  | destroy =>
    simp only [step, destroy, Option.ite_none_right_eq_some, Option.some.injEq] at h
    obtain ⟨⟨hc, hst⟩, rfl⟩ := h
    have hexit := hw.not_exitSignal (by simp [hc])
    exact hw.of_client hs' rfl rfl rfl (by simp [hc]) id (by simp [Client.ending]) (fun _ ↦ hst)
      (fun h ↦ absurd h hexit) (by simp)
  | signalExit =>
    simp only [step, signalExit, Option.ite_none_right_eq_some, Option.some.injEq] at h
    obtain ⟨hc, rfl⟩ := h
    have htasks : s.tasks = [] := hw.ending (.inl (by rw [hc]; rfl))
    exact hw.of_client hs' rfl rfl rfl (by simp [hc]) (fun _ ↦ rfl) (fun _ ↦ htasks) (by simp)
      (by simp) (by simp)
  | joinMaster =>
    simp only [step, joinMaster, Option.ite_none_right_eq_some, Option.some.injEq] at h
    obtain ⟨⟨hc, hm⟩, rfl⟩ := h
    have htasks : s.tasks = [] := hw.ending (.inl (by rw [hc]; rfl))
    exact hw.of_client hs' rfl rfl rfl (by simp [hc]) id (fun _ ↦ htasks) (by simp) (by simp)
      (fun _ ↦ hm)
  | stop => exact hw.stop h hs'
  | setSignal => exact hw.setSignal h hs'
  | stopReturn => exact hw.stopReturn h hs'
  | lock =>
    simp only [step, lock, Option.ite_none_right_eq_some, Option.some.injEq] at h
    obtain ⟨⟨hm, hlock⟩, rfl⟩ := h
    have hidle : s.stopper = .idle := by simpa [locked, hm] using hlock
    exact hw.of_master hs' rfl rfl rfl (by simp [hm]) id (absurd hidle) (by simp) (by simp)
      (by simp)
  | evaluate => exact hw.evaluate h hs'
  | block =>
    simp only [step, block, Option.ite_none_right_eq_some, Option.some.injEq] at h
    obtain ⟨hm, rfl⟩ := h
    exact hw.of_master hs' rfl rfl rfl (by simp [hm]) id (by simp) (fun _ ↦ hw.failed hm) (by simp)
      (by simp)
  | wake =>
    simp only [step, wake, Option.ite_none_right_eq_some, Option.some.injEq] at h
    obtain ⟨hm, rfl⟩ := h
    exact hw.of_master hs' rfl rfl rfl (by simp [hm]) id (by simp) (by simp) (by simp) (by simp)
  | popFront => exact hw.popFront h hs'
  | spawn =>
    obtain ⟨i, hm, rfl⟩ := spawn_eq_some.mp h
    exact hw.of_master hs' rfl rfl rfl (by simp [hm]) id (by simp) (by simp) (by simp) (by simp)
  | joinThread =>
    obtain ⟨i, hm, -, rfl⟩ := joinThread_eq_some.mp h
    exact hw.of_master hs' rfl rfl rfl (by simp [hm]) id (by simp) (by simp) (by simp) (by simp)
  | testExit => exact hw.testExit h hs'
  | call i =>
    obtain ⟨-, rfl⟩ := call_eq_some.mp h
    exact hw.of_job hs' rfl rfl rfl rfl rfl
  | callReturn i done =>
    obtain ⟨n, -, rfl⟩ := callReturn_eq_some.mp h
    exact hw.of_job hs' rfl rfl rfl rfl rfl
  | callThrow i =>
    obtain ⟨n, -, rfl⟩ := callThrow_eq_some.mp h
    exact hw.of_job hs' rfl rfl rfl rfl rfl
  | pollStop i =>
    obtain ⟨n, -, rfl⟩ := pollStop_eq_some.mp h
    exact hw.of_job hs' rfl rfl rfl rfl rfl

theorem watched_run (h : run es = some s) : s.Watched :=
  Steps.steps_inv_all (fun _ _ _ ↦ watched_step) h watched_init

/-! ## When no thread can go on -/

/-- The step begins a call that somebody may make or not, or it is a wake-up that nobody sent.  The
destructor does call `stop()`. -/
def Asked (s : Sequence) : Event → Prop
  | .attachJob | .join | .destroy | .wake => True
  | .stop => s.client ≠ .stopping
  | _ => False

/-- No thread can go on with what it is doing. -/
def Stuck (s : Sequence) : Prop := ∀ e, (s.step e).isSome = true → s.Asked e

/-- Then a step that is not asked for cannot happen. -/
theorem Stuck.not_step (hstuck : s.Stuck) (he : ¬ s.Asked e) : s.step e = none :=
  Option.not_isSome_iff_eq_none.mp fun h ↦ he (hstuck e h)

/-- Nobody is in `stop`. -/
theorem Stuck.stopper (hstuck : s.Stuck) : s.stopper = .idle := by
  have h1 : s.setSignal = none := hstuck.not_step (e := .setSignal) id
  have h2 : s.stopReturn = none := hstuck.not_step (e := .stopReturn) id
  cases hst : s.stopper with
  | idle => rfl
  | cleared => simp [setSignal, hst] at h1
  | signalled => simp [stopReturn, hst] at h2

/-- The master waits, or has ended. -/
theorem Stuck.master (hstuck : s.Stuck) (hw : s.Watched) :
    s.master = .waiting ∨ s.master = .ended := by
  have hst := hstuck.stopper
  cases hm : s.master with
  | waiting => exact .inl rfl
  | ended => exact .inr rfl
  | locking =>
    have h : s.lock = none := hstuck.not_step (e := .lock) id
    simp [lock, locked, hm, hst] at h
  | holding =>
    have h : s.evaluate = none := hstuck.not_step (e := .evaluate) id
    simp [evaluate, hm] at h
  | passed =>
    have h : s.popFront = none := hstuck.not_step (e := .popFront) id
    cases ht : s.tasks <;> simp [popFront, hm, ht] at h
  | failed =>
    have h : s.block = none := hstuck.not_step (e := .block) id
    simp [block, hm] at h
  | popped j =>
    have h : s.spawn = none := hstuck.not_step (e := .spawn) id
    simp [spawn, hm] at h
  | returned =>
    have h : s.testExit = none := hstuck.not_step (e := .testExit) id
    simp [testExit, hm] at h
  | joins j =>
    -- the thread of the job can go on, or has ended
    have htaken := hw.sound.taken j (congrArg Master.front hm)
    cases hj : s.jobs j with
    | packaged => simpa [hm] using htaken.mp hj
    | spawned =>
      have h : s.call j = none := hstuck.not_step (e := .call j) id
      simp [call, hj] at h
    | calling i =>
      have h : s.callReturn j true = none := hstuck.not_step (e := .callReturn j true) id
      simp [callReturn, hj] at h
    | polling i =>
      have h : s.pollStop j = none := hstuck.not_step (e := .pollStop j) id
      simp [pollStop, hj] at h
    | ended o =>
      have h : s.joinThread = none := hstuck.not_step (e := .joinThread) id
      simp [joinThread, hm, hj, Job.ready] at h

/-- The lock is free. -/
theorem Stuck.not_locked (hstuck : s.Stuck) (hw : s.Watched) : s.locked = false := by
  have hst := hstuck.stopper
  rcases hstuck.master hw with hm | hm <;> simp [locked, hst, hm]

/-- The client is between two calls, in `join`, in `master_.join()`, or gone. -/
theorem Stuck.client (hstuck : s.Stuck) (hw : s.Watched) :
    s.client = .idle ∨ s.client = .joining ∨ s.client = .joiningMaster ∧ s.master = .waiting ∨
      s.client = .gone ∧ s.master = .ended := by
  have hlock := hstuck.not_locked hw
  cases hc : s.client with
  | idle => simp
  | joining => simp
  | attaching j =>
    have h : s.pushBack = none := hstuck.not_step (e := .pushBack) id
    cases hst : s.stopped <;> simp [pushBack, hc, hlock, hst] at h
  | notifying =>
    have h : s.notify = none := hstuck.not_step (e := .notify) id
    simp [notify, hc] at h
  | stopping =>
    have h : s.stop = none := hstuck.not_step (e := .stop) fun h ↦ h hc
    simp [stop, hlock, pastStop, hc] at h
  | signalling =>
    have h : s.signalExit = none := hstuck.not_step (e := .signalExit) id
    simp [signalExit, hc] at h
  | joiningMaster =>
    have h : s.joinMaster = none := hstuck.not_step (e := .joinMaster) id
    have hm : s.master ≠ .ended := by simpa [joinMaster, hc] using h
    simpa [hm] using hstuck.master hw
  | gone => simp [hw.gone hc]

/-- **No work is left.** -/
theorem Stuck.tasks (hstuck : s.Stuck) (hw : s.Watched) : s.tasks = [] := by
  have hnot : s.client ≠ .notifying := by
    rcases hstuck.client hw with h | h | ⟨h, -⟩ | ⟨h, -⟩ <;> simp [h]
  rcases hstuck.master hw with hm | hm
  · exact (hw.waiting hm).resolve_right hnot
  · rcases hw.signal (hw.ended hm) with hc | hc
    · exact hw.ending (.inl (by rw [hc]; rfl))
    · exact hw.ending (.inr hc)

theorem Stuck.ready (hstuck : s.Stuck) (hw : s.Watched) (hj : j < s.attached) :
    (s.jobs j).ready = true := by
  by_contra hr
  have hhand : s.client.hand = none := by
    rcases hstuck.client hw with h | h | ⟨h, -⟩ | ⟨h, -⟩ <;> simp [h, Client.hand]
  have hfront : s.master.front = none := by
    rcases hstuck.master hw with h | h <;> simp [h, Master.front]
  rcases hw.sound.busy_iff.mp ⟨j, hj, by simpa using hr⟩ with ⟨i, hi⟩ | ⟨i, hi, -⟩
  · simp [Line.waiting, line, hstuck.tasks hw, hhand] at hi
  · simp [hfront] at hi

/-- A job whose thread can go on has not ended. -/
theorem Watched.not_job_step (hw : s.Watched) (hr : ∀ j < s.attached, (s.jobs j).ready = true)
    (hjob : s.jobs j = .spawned ∨ (s.jobs j).executing = true) : False := by
  by_cases hj : j < s.attached
  · have hnot := Job.not_of_ready (hr j hj)
    rcases hjob with h | h
    · exact hnot.2.1 h
    · exact absurd h (by simp [hnot.2.2])
  · have hp : s.jobs j = .packaged := (hw.sound.inv.fresh j (Nat.le_of_not_lt hj)).1
    simp [hp, Job.executing] at hjob

/-- What is left when all is done. -/
structure Done (s : Sequence) : Prop where
  ready : ∀ j < s.attached, (s.jobs j).ready = true
  tasks : s.tasks = []
  stopper : s.stopper = .idle
  /-- The client is between two calls and the master waits for the next job; or the sequence is
  destroyed; or the destructor is deadlocked. -/
  places : s.client = .idle ∧ s.master = .waiting ∨ s.client = .gone ∧ s.master = .ended ∨
    s.Deadlocked

theorem Done.stuck (hd : s.Done) (hw : s.Watched) : s.Stuck := by
  obtain ⟨hr, ht, hst, hp⟩ := hd
  intro e he
  cases e
  case call i =>
    obtain ⟨s', h⟩ := Option.isSome_iff_exists.mp he
    exact (hw.not_job_step hr (.inl (call_eq_some.mp h).1)).elim
  case callReturn i done =>
    obtain ⟨s', h⟩ := Option.isSome_iff_exists.mp he
    obtain ⟨n, hj, -⟩ := callReturn_eq_some.mp h
    exact (hw.not_job_step (j := i) hr (.inr (by rw [hj]; rfl))).elim
  case callThrow i =>
    obtain ⟨s', h⟩ := Option.isSome_iff_exists.mp he
    obtain ⟨n, hj, -⟩ := callThrow_eq_some.mp h
    exact (hw.not_job_step (j := i) hr (.inr (by rw [hj]; rfl))).elim
  case pollStop i =>
    obtain ⟨s', h⟩ := Option.isSome_iff_exists.mp he
    obtain ⟨n, hj, -⟩ := pollStop_eq_some.mp h
    exact (hw.not_job_step (j := i) hr (.inr (by rw [hj]; rfl))).elim
  case attachJob | join | destroy | wake => trivial
  case stop =>
    rcases hp with ⟨hc, -⟩ | ⟨hc, -⟩ | ⟨hc, -, -, -⟩ <;> simp [Asked, hc]
  all_goals
    rcases hp with ⟨hc, hm⟩ | ⟨hc, hm⟩ | ⟨hc, hm, -, -⟩ <;>
      simp [step, pushBack, notify, joinReturn, signalExit, joinMaster, setSignal, stopReturn, lock,
        evaluate, block, popFront, spawn, joinThread, testExit, hc, hm, hst] at he

/-- **No thread can go on exactly when all is done**, in whatever order they went: no notification
is lost.  Every attached job has ended, the queue is empty, and nobody waits in `join`; the client
is between two calls and the master waits for the next job, or the sequence is destroyed — or the
destructor is deadlocked. -/
theorem stuck_iff_done {es : List Event} {s : Sequence} (h : run es = some s) :
    s.Stuck ↔ s.Done := by
  have hw := watched_run h
  refine ⟨fun hstuck ↦ ⟨fun j hj ↦ hstuck.ready hw hj, hstuck.tasks hw, hstuck.stopper, ?_⟩,
    fun hd ↦ hd.stuck hw⟩
  rcases hstuck.client hw with hc | hc | ⟨hc, hm⟩ | ⟨hc, hm⟩
  · refine .inl ⟨hc, (hstuck.master hw).resolve_right fun hm ↦ ?_⟩
    simpa [hc] using hw.signal (hw.ended hm)
  · -- `join` returns, since the last job has ended
    have hlast : s.lastReady = true := by
      unfold lastReady
      split
      · rename_i k hk
        have hk' : k + 1 = s.attached := (hw.sound.inv.last k).mp hk
        exact hstuck.ready hw (by omega)
      · rfl
    have hret : s.joinReturn = none := hstuck.not_step (e := .joinReturn) id
    simp [joinReturn, hc, hlast] at hret
  · exact .inr (.inr ⟨hc, hm, hstuck.tasks hw, hstuck.stopper⟩)
  · exact .inr (.inl ⟨hc, hm⟩)

/-- A job that is called twice, after which the master has come to wait again. -/
theorem stuck_iff_done_small :
    ∃ s, run [.attachJob, .pushBack, .lock, .evaluate, .notify, .popFront, .spawn, .call 0,
        .callReturn 0 false, .pollStop 0, .join, .callReturn 0 true, .joinReturn, .joinThread,
        .testExit, .lock, .evaluate, .block] = some s ∧ s.Stuck := by
  refine ⟨_, rfl, ?_⟩
  exact (@stuck_iff_done [.attachJob, .pushBack, .lock, .evaluate, .notify, .popFront, .spawn,
    .call 0, .callReturn 0 false, .pollStop 0, .join, .callReturn 0 true, .joinReturn, .joinThread,
    .testExit, .lock, .evaluate, .block] _ rfl).mpr ⟨by decide, rfl, rfl, .inl ⟨rfl, rfl⟩⟩

/-! ## How long it takes -/

/-- The steps left to the thread of a job, until it ends or looks at the stop signal. -/
def Job.rest : Job → ℕ
  | .spawned | .polling _ => 2
  | .calling _ => 1
  | _ => 0

/-- The steps left to the master, until it waits or ends, if it finds no other job in the queue. -/
def masterRest (s : Sequence) : ℕ :=
  match s.master with
  | .waiting | .ended => 0
  | .failed => 1
  | .passed => 2
  | .holding => 3
  | .locking => 4
  | .returned => if s.exitSignal = true then 1 else 5
  | .joins j => 6 + Job.rest (s.jobs j)
  | .popped _ => 9

/-- The steps left to the client in the call it is in, and those of others that it makes
possible. -/
def Client.rest : Client → ℕ
  | .attaching _ => 14
  | .notifying => 5
  | .joining | .joiningMaster => 1
  | .stopping | .signalling => 2
  | .idle | .gone => 0

/-- The steps left to `stop`, and those of the master that is woken. -/
def Stopper.rest : Stopper → ℕ
  | .idle => 0
  | .cleared => 6
  | .signalled => 5

/-- What is left to do: a job in the queue takes the master eight steps. -/
def rest (s : Sequence) : ℕ :=
  masterRest s + 8 * s.tasks.length + Client.rest s.client + Stopper.rest s.stopper

/-- The steps that an event is worth: a new call, a wake-up that nobody sent, a job that wants to be
called again. -/
def Event.worth : Event → ℕ
  | .attachJob => 15
  | .stop => 7
  | .wake => 5
  | .destroy => 3
  | .join => 2
  | .callReturn _ false => 2
  | _ => 0

/-- A job that the master joins changes its state. -/
theorem rest_setJob {a : Job} (hm : s.master = .joins j) :
    (s.setJob j a).rest + Job.rest (s.jobs j) = s.rest + Job.rest a := by
  simp [rest, masterRest, setJob, hm]
  omega

/-- The job whose thread can go on is the one that the master joins. -/
theorem Watched.joins (hw : s.Watched)
    (hj : s.jobs j = .spawned ∨ (s.jobs j).executing = true) : s.master = .joins j := by
  have hfront : s.master.front = some j := hw.sound.inv.thread j hj
  have htaken := hw.sound.taken j hfront
  cases hm : s.master with
  | joins i => simpa [hm, Master.front] using hfront
  | popped i =>
    obtain rfl : i = j := by simpa [hm, Master.front] using hfront
    have hp : s.jobs i = .packaged := htaken.mpr hm
    simp [hp, Job.executing] at hj
  | _ => simp [hm, Master.front] at hfront

/-- Waking the master makes it do four steps. -/
theorem masterRest_notifyOne (s : Sequence) : ∃ m, s.notifyOne = { s with master := m } ∧
    masterRest { s with master := m } ≤ masterRest s + 4 := by
  unfold notifyOne
  split
  · rename_i hm
    exact ⟨.locking, rfl, by simp [masterRest]⟩
  · exact ⟨s.master, rfl, Nat.le_add_right _ _⟩

/-- **Every step is paid for**: by what was left to do, or by the event. -/
theorem rest_step (h : s.step e = some s') (hw : s.Watched) : 1 + s'.rest ≤ s.rest + e.worth := by
  cases e
  case call i =>
    obtain ⟨hj, rfl⟩ := call_eq_some.mp h
    have hrest := rest_setJob (a := .calling 0) (hw.joins (.inl hj))
    simp only [hj, Job.rest] at hrest
    exact (by omega : 1 + (s.setJob i (.calling 0)).rest ≤ s.rest + 0)
  case callReturn i done =>
    obtain ⟨n, hj, rfl⟩ := callReturn_eq_some.mp h
    have hm := hw.joins (j := i) (.inr (by rw [hj]; rfl))
    cases done with
    | true =>
      have hrest := rest_setJob (a := .ended .value) hm
      simp only [hj, Job.rest] at hrest
      simp only [if_true]
      omega
    | false =>
      have hrest := rest_setJob (a := .polling n) hm
      simp only [hj, Job.rest] at hrest
      simp only [Bool.false_eq_true, if_false, Event.worth]
      omega
  case callThrow i =>
    obtain ⟨n, hj, rfl⟩ := callThrow_eq_some.mp h
    have hrest := rest_setJob (a := .ended .exception) (hw.joins (j := i) (.inr (by rw [hj]; rfl)))
    simp only [hj, Job.rest] at hrest
    omega
  case pollStop i =>
    obtain ⟨n, hj, rfl⟩ := pollStop_eq_some.mp h
    have hm := hw.joins (j := i) (.inr (by rw [hj]; rfl))
    split
    · have hrest := rest_setJob (a := .ended .value) hm
      simp only [hj, Job.rest] at hrest
      omega
    · have hrest := rest_setJob (a := .calling ((n + 1) % 2 ^ 64)) hm
      simp only [hj, Job.rest] at hrest
      omega
  case spawn =>
    obtain ⟨i, hm, rfl⟩ := spawn_eq_some.mp h
    simp [rest, masterRest, setJob, hm, Job.rest, Event.worth]
    omega
  case joinThread =>
    obtain ⟨i, hm, -, rfl⟩ := joinThread_eq_some.mp h
    simp only [rest, masterRest, hm]
    split <;> omega
  case popFront =>
    simp only [step, popFront, Option.ite_none_right_eq_some] at h
    obtain ⟨hm, h⟩ := h
    split at h
    all_goals
      rename_i ht
      obtain rfl := Option.some.inj h
    · have hexit := hw.passed hm ht
      simp [rest, masterRest, hm, ht, hexit]
      omega
    · simp [rest, masterRest, hm, ht]
      omega
  case pushBack =>
    obtain ⟨i, hc, -, rfl⟩ := hw.pushBack_eq_some h
    simp [rest, masterRest, Client.rest, hc]
    omega
  case notify =>
    simp only [step, notify, Option.ite_none_right_eq_some, Option.some.injEq] at h
    obtain ⟨hc, rfl⟩ := h
    obtain ⟨m, hn, hle⟩ := masterRest_notifyOne s
    rw [hn]
    simp only [rest, masterRest, Client.rest, hc] at hle ⊢
    omega
  case stopReturn =>
    simp only [step, stopReturn, Option.ite_none_right_eq_some, Option.some.injEq] at h
    obtain ⟨hst, rfl⟩ := h
    obtain ⟨m, hn, hle⟩ := masterRest_notifyOne s
    have hclient : Client.rest (if s.client = .stopping then .signalling else s.client) =
        Client.rest s.client := by
      split
      · rename_i hc
        rw [hc]
        rfl
      · rfl
    rw [hn]
    simp only [rest, masterRest, Stopper.rest, hst, hclient] at hle ⊢
    omega
  case stop =>
    simp only [step, stop, Option.ite_none_right_eq_some, Option.some.injEq] at h
    obtain ⟨⟨hlock, -⟩, rfl⟩ := h
    have hst : s.stopper = .idle := by
      by_contra hne
      simp [locked, hne] at hlock
    -- the job that the master joins is not in the queue
    have hmaster : ∀ i, s.master = .joins i → i ∉ s.tasks := fun i hm ↦
      hw.sound.inv.front_not_mem (congrArg Master.front hm)
    simp only [rest, masterRest, Stopper.rest, Event.worth, hst, List.length_nil]
    split <;> simp_all <;> omega
  case evaluate =>
    simp only [step, evaluate, Option.ite_none_right_eq_some, Option.some.injEq] at h
    obtain ⟨hm, rfl⟩ := h
    by_cases hp : s.exitSignal = true ∨ s.tasks ≠ [] <;> simp only [rest, masterRest, hm, hp] <;>
      simp <;> omega
  case testExit =>
    simp only [step, testExit, Option.ite_none_right_eq_some, Option.some.injEq] at h
    obtain ⟨hm, rfl⟩ := h
    by_cases hexit : s.exitSignal = true <;> simp [rest, masterRest, hm, hexit] <;> omega
  case signalExit =>
    simp only [step, signalExit, Option.ite_none_right_eq_some, Option.some.injEq] at h
    obtain ⟨hc, rfl⟩ := h
    have hle : masterRest { s with exitSignal := true } ≤ masterRest s := by
      unfold masterRest
      cases s.master <;> simp
      split <;> omega
    simp only [rest, masterRest, Client.rest, hc] at hle ⊢
    omega
  all_goals
    simp only [step, attachJob, join, joinReturn, destroy, joinMaster, setSignal, lock, block, wake,
      Option.ite_none_right_eq_some, Option.some.injEq] at h
    obtain ⟨hc, rfl⟩ := h
    simp only [rest, masterRest, Client.rest, Stopper.rest, Event.worth, hc]
    omega

/-- **A run comes to an end.**  From any state that is reached, a run has no more steps than are
left to do there, and its events are worth: fifteen for each `attach_job`, seven for each `stop`,
three and two for the destructor and `join`, five for each wake-up that nobody sent, two for each
call of a job that returns false. -/
theorem length_run_le {es fs : List Event} {s t : Sequence} (h : run es = some s)
    (h' : Steps.steps step s fs = some t) :
    fs.length + t.rest ≤ s.rest + (fs.map Event.worth).sum := by
  have hle := Steps.weight_le (P := Watched) (μ := rest) (w := fun _ ↦ 1) (c := Event.worth)
    (fun s e s' h hw ↦ ⟨watched_step h hw, rest_step h hw⟩) h' (watched_run h)
  rwa [List.map_const', List.sum_replicate_nat, Nat.mul_one] at hle

/-- One job that is attached, and what the threads do then: twelve steps of the 26 they have. -/
theorem length_run_le_small :
    ∃ s t, run [.attachJob, .pushBack] = some s ∧
      Steps.steps step s [.notify, .lock, .evaluate, .popFront, .spawn, .call 0, .callThrow 0,
        .joinThread, .testExit, .lock, .evaluate, .block] = some t ∧ 12 + t.rest ≤ s.rest := by
  refine ⟨_, _, rfl, rfl, ?_⟩
  exact @length_run_le [.attachJob, .pushBack] [.notify, .lock, .evaluate, .popFront, .spawn,
    .call 0, .callThrow 0, .joinThread, .testExit, .lock, .evaluate, .block] _ _ rfl rfl

/-! ## After the stop signal -/

/-- A call of job `j` ends. -/
def Event.ends (j : ℕ) : Event → Bool
  | .callReturn i _ => i == j
  | .callThrow i => i == j
  | _ => false

/-- Whether a call of the job can still end, once there is the stop signal. -/
def Job.calls : Job → ℕ
  | .packaged | .spawned | .calling _ => 1
  | .polling _ | .ended _ => 0

/-- Nobody takes the stop signal back. -/
theorem stopSignal_step (h : s.step e = some s') (hsig : s.stopSignal = true) :
    s'.stopSignal = true := by
  have hn : s.notifyOne.stopSignal = s.stopSignal := by
    unfold notifyOne
    split <;> rfl
  cases e
  case pushBack =>
    simp only [step, pushBack] at h
    split at h
    · split at h
      · cases h
      · split at h <;> (cases h; exact hsig)
    · cases h
  all_goals
    simp only [step, attachJob, notify, join, joinReturn, destroy, signalExit, joinMaster, stop,
      setSignal, stopReturn, lock, evaluate, block, wake, popFront, spawn, joinThread, testExit,
      call, callReturn, callThrow, pollStop] at h
    repeat (split at h)
    all_goals first | (cases h; simp [setJob, hn, hsig]) | cases h

/-- What a step does to job `j` once there is the stop signal: it does not get to a second call, and
if a call of it ends, no other will. -/
structure Calmed (j : ℕ) (e : Event) (a a' : Job) : Prop where
  calls : [e].countP (Event.ends j) + Job.calls a' ≤ Job.calls a
  calling : ∀ i, a' = .calling i → a = .calling i ∨ i = 0

/-- Another job goes on, or this one goes from `a` to `a'`. -/
theorem calmed_setJob {i : ℕ} {a' : Job} (he : e.ends j = true → i = j)
    (h : i = j → Calmed j e (s.jobs j) a') : Calmed j e (s.jobs j) ((s.setJob i a').jobs j) := by
  by_cases hij : j = i
  · subst hij
    simpa [setJob] using h rfl
  · have hne : e.ends j ≠ true := fun h ↦ hij (he h).symm
    refine ⟨?_, fun n hn ↦ .inl ?_⟩
    · simp [setJob, hij, hne]
    · simpa [setJob, hij] using hn

theorem calmed_step (h : s.step e = some s') (hsig : s.stopSignal = true) (hw : s.Watched) :
    Calmed j e (s.jobs j) (s'.jobs j) := by
  have hn := notifyOne_frame s
  cases e
  case call i =>
    obtain ⟨hi, rfl⟩ := call_eq_some.mp h
    refine calmed_setJob (by simp [Event.ends]) ?_
    rintro rfl
    exact ⟨by simp [hi, Event.ends, Job.calls], fun n hn ↦ .inr (by cases hn; rfl)⟩
  case callReturn i done =>
    obtain ⟨n, hi, rfl⟩ := callReturn_eq_some.mp h
    refine calmed_setJob (by simp [Event.ends]) ?_
    rintro rfl
    cases done <;> exact ⟨by simp [hi, Event.ends, Job.calls], fun n hn ↦ by cases hn⟩
  case callThrow i =>
    obtain ⟨n, hi, rfl⟩ := callThrow_eq_some.mp h
    refine calmed_setJob (by simp [Event.ends]) ?_
    rintro rfl
    exact ⟨by simp [hi, Event.ends, Job.calls], fun n hn ↦ by cases hn⟩
  case pollStop i =>
    obtain ⟨n, hi, rfl⟩ := pollStop_eq_some.mp h
    refine calmed_setJob (by simp [Event.ends]) ?_
    rintro rfl
    rw [if_pos hsig]
    exact ⟨by simp [hi, Event.ends, Job.calls], fun n hn ↦ by cases hn⟩
  case spawn =>
    obtain ⟨i, hm, rfl⟩ := spawn_eq_some.mp h
    have hi : s.jobs i = .packaged :=
      (hw.sound.taken i (congrArg Master.front hm)).mpr hm
    refine calmed_setJob (by simp [Event.ends]) ?_
    rintro rfl
    exact ⟨by simp [hi, Event.ends, Job.calls], fun n hn ↦ by cases hn⟩
  case pushBack =>
    obtain ⟨i, -, -, rfl⟩ := hw.pushBack_eq_some h
    exact ⟨by simp [Event.ends], fun n hn ↦ .inl hn⟩
  case stop =>
    simp only [step, stop, Option.ite_none_right_eq_some, Option.some.injEq] at h
    obtain ⟨-, rfl⟩ := h
    by_cases hj : j ∈ s.tasks
    · exact ⟨by simp [hj, Event.ends, Job.calls], fun n hn ↦ by simp [hj] at hn⟩
    · exact ⟨by simp [hj, Event.ends], fun n hn ↦ .inl (by simpa [hj] using hn)⟩
  all_goals
    have hjobs : s'.jobs = s.jobs := by
      simp only [step, attachJob, notify, join, joinReturn, destroy, signalExit, joinMaster,
        setSignal, stopReturn, lock, evaluate, block, wake, popFront, joinThread, testExit] at h
      repeat (split at h)
      all_goals first | (cases h; simp [hn]) | cases h
    rw [hjobs]
    exact ⟨by simp [Event.ends], fun n hn ↦ .inl hn⟩

/-- **After the stop signal there are only last calls.**  From any state with the signal on, at most
one call of each job ends, be it attached by then or later, and no job gets to a call beyond the
one it is in, or its first. -/
theorem last_calls {es fs : List Event} {s t : Sequence} (h : run es = some s)
    (hsig : s.stopSignal = true) (h' : Steps.steps step s fs = some t) (j : ℕ) :
    fs.countP (Event.ends j) ≤ 1 ∧
      ∀ i, t.jobs j = .calling i → s.jobs j = .calling i ∨ i = 0 := by
  have hw := watched_run h
  constructor
  · have hle := Steps.countP_le (P := fun u ↦ u.Watched ∧ u.stopSignal = true)
      (μ := fun u ↦ Job.calls (u.jobs j)) (q := Event.ends j)
      (fun u e u' h hu ↦ ⟨⟨watched_step h hu.1, stopSignal_step h hu.2⟩,
        (calmed_step h hu.2 hu.1).calls⟩) h' ⟨hw, hsig⟩
    have hone : Job.calls (s.jobs j) ≤ 1 := by cases s.jobs j <;> simp [Job.calls]
    exact Nat.le_trans (Nat.le_add_right _ _) (Nat.le_trans hle hone)
  · refine (Steps.steps_inv_all (P := fun u ↦ (u.Watched ∧ u.stopSignal = true) ∧
      ∀ i, u.jobs j = .calling i → s.jobs j = .calling i ∨ i = 0) ?_ h'
        ⟨⟨hw, hsig⟩, fun i hi ↦ .inl hi⟩).2
    rintro u e u' h ⟨⟨hu, hsig⟩, hcall⟩
    refine ⟨⟨watched_step h hu, stopSignal_step h hsig⟩, fun i hi ↦ ?_⟩
    rcases (calmed_step h hsig hu).calling i hi with hi | hi
    · exact hcall i hi
    · exact .inr hi

/-- A `stop` while a job is executing: it is called once more at most; and one that is attached
after that is called once. -/
theorem last_calls_small :
    ∃ s t, run [.attachJob, .pushBack, .notify, .lock, .evaluate, .popFront, .spawn, .call 0, .stop,
        .setSignal] = some s ∧
      Steps.steps step s [.stopReturn, .callReturn 0 false, .pollStop 0, .joinThread, .testExit,
        .attachJob, .pushBack, .notify, .lock, .evaluate, .popFront, .spawn, .call 1] = some t ∧
      ∀ i, t.jobs 1 = .calling i → s.jobs 1 = .calling i ∨ i = 0 := by
  refine ⟨_, _, rfl, rfl, ?_⟩
  exact (@last_calls [.attachJob, .pushBack, .notify, .lock, .evaluate, .popFront, .spawn, .call 0,
    .stop, .setSignal] [.stopReturn, .callReturn 0 false, .pollStop 0, .joinThread, .testExit,
    .attachJob, .pushBack, .notify, .lock, .evaluate, .popFront, .spawn, .call 1] _ _ rfl rfl rfl
    1).2

end Sequence
end Jobs
end Cppkg
