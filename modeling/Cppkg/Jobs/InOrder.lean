import Cppkg.Jobs.Line

/-!
# A `Sequence` runs its jobs in order

Every step of a `Sequence` is a step of a line of jobs, or none at all: `moves_step`.  So whatever
the threads do, and in whichever order, jobs are called one at a time and in the order they were
attached, a job that `stop` dropped is never called, and without a `stop` the last job is the last
one to end.
-/

set_option autoImplicit false

namespace Cppkg
namespace Jobs

/-- The job whose task the master took. -/
def Master.front : Master → Option ℕ
  | .popped j | .joins j => some j
  | _ => none

/-- The job whose task `attach_job` has. -/
def Client.hand : Client → Option ℕ
  | .attaching j => some j
  | _ => none

/-- The client is in the destructor, or behind it. -/
def Client.destroying : Client → Bool
  | .stopping | .signalling | .joiningMaster | .gone => true
  | _ => false

namespace Sequence

open Relation

/-- The jobs in line. -/
def line (s : Sequence) : Line :=
  ⟨s.attached, s.jobs, s.tasks, s.lastFuture, s.master.front, s.client.hand, s.started⟩

/-- What every state of a sequence keeps to. -/
structure Sound (s : Sequence) : Prop where
  inv : s.line.Inv
  /-- No job is attached after the destructor began. -/
  closed : s.stopped = true → s.client.destroying = true
  /-- The task that the master took is in a thread once the master joins that. -/
  taken : ∀ j, s.master.front = some j → (s.jobs j = .packaged ↔ s.master = .popped j)

/-- What a step of a sequence does. -/
structure Moves (drops : Line → Prop) (s s' : Sequence) : Prop where
  line : s'.line = s.line ∨ Line.Next drops s.line s'.line
  closed : s'.stopped = true → s'.client.destroying = true
  taken : ∀ j, s'.master.front = some j → (s'.jobs j = .packaged ↔ s'.master = .popped j)
  /-- There is no way back from the destructor. -/
  destroying : s.client.destroying = true → s'.client.destroying = true

variable {s s' : Sequence} {e : Event} {es fs : List Event} {drops : Line → Prop} {j : ℕ}

theorem sound_init : init.Sound where
  inv := Line.inv_init
  closed h := absurd h (by decide)
  taken j h := absurd h (by simp [init, Master.front])

theorem Sound.moves (hs : s.Sound) (h : Moves drops s s') : s'.Sound where
  inv := by
    rcases h.line with hl | hl
    · rw [hl]
      exact hs.inv
    · exact Line.inv_next hl hs.inv
  closed := h.closed
  taken := h.taken

namespace Moves

/-! ## The steps that the line does not see -/

/-- The threads go from one place to another. -/
theorem places {m : Master} {c : Client} (hs : s.Sound)
    (hm : m.front = s.master.front ∧ ∀ j, m = .popped j ↔ s.master = .popped j)
    (hc : c.hand = s.client.hand ∧ (s.client.destroying = true → c.destroying = true)) :
    Moves drops s { s with master := m, client := c } where
  line := .inl (by simp [Sequence.line, hm.1, hc.1])
  closed h := hc.2 (hs.closed h)
  taken j h := (hs.taken j (hm.1 ▸ h)).trans (hm.2 j).symm
  destroying := hc.2

/-- The client goes from one place to another. -/
theorem client {c : Client} (hs : s.Sound)
    (hc : c.hand = s.client.hand ∧ (s.client.destroying = true → c.destroying = true)) :
    Moves drops s { s with client := c } :=
  places hs ⟨rfl, fun _ ↦ Iff.rfl⟩ hc

/-- The master, which has no task, goes from one place to another. -/
theorem master {m : Master} (hs : s.Sound) (h : s.master.front = none ∧ m.front = none) :
    Moves drops s { s with master := m } where
  line := .inl (by simp [Sequence.line, h.1, h.2])
  closed := hs.closed
  taken j hj := absurd hj (by simp [h.2])
  destroying := id

/-- Where the master is after it was notified. -/
theorem notifyOne (s : Sequence) : ∃ m, s.notifyOne = { s with master := m } ∧
    m.front = s.master.front ∧ ∀ j, m = .popped j ↔ s.master = .popped j := by
  unfold Sequence.notifyOne
  split
  · rename_i h
    exact ⟨.locking, rfl, by rw [h]; rfl, by simp [h]⟩
  · exact ⟨s.master, rfl, rfl, fun _ ↦ Iff.rfl⟩

theorem notify (hs : s.Sound) (h : s.notify = some s') : Moves drops s s' := by
  simp only [Sequence.notify, Option.ite_none_right_eq_some, Option.some.injEq] at h
  obtain ⟨hc, rfl⟩ := h
  obtain ⟨m, hn, hm⟩ := notifyOne s
  rw [hn]
  exact places hs hm (by simp [hc, Client.hand, Client.destroying])

theorem stopReturn (hs : s.Sound) (h : s.stopReturn = some s') : Moves drops s s' := by
  simp only [Sequence.stopReturn, Option.ite_none_right_eq_some, Option.some.injEq] at h
  obtain ⟨-, rfl⟩ := h
  obtain ⟨m, hn, hm⟩ := notifyOne s
  rw [hn]
  have hc : ∀ c, (if s.client = .stopping then .signalling else s.client) = c →
      c.hand = s.client.hand ∧ (s.client.destroying = true → c.destroying = true) := by
    rintro c rfl
    split
    · rename_i h
      simp [h, Client.hand, Client.destroying]
    · exact ⟨rfl, id⟩
  obtain ⟨h1, h2, h3, h4⟩ := @places _ drops _ _ hs hm (hc _ rfl)
  exact ⟨h1, h2, h3, h4⟩

/-! ## The steps of the line -/

theorem attachJob (hs : s.Sound) (h : s.attachJob = some s') : Moves drops s s' := by
  simp only [Sequence.attachJob, Option.ite_none_right_eq_some, Option.some.injEq] at h
  obtain ⟨hc, rfl⟩ := h
  have hd : s.client.destroying ≠ true := by simp [hc, Client.destroying]
  exact ⟨.inr (.attach s.line (by simp [Sequence.line, hc, Client.hand])),
    fun h ↦ absurd (hs.closed h) hd, hs.taken, fun h ↦ absurd h hd⟩

theorem pushBack (hs : s.Sound) (h : s.pushBack = some s') : Moves drops s s' := by
  unfold Sequence.pushBack at h
  split at h
  · rename_i j hc
    -- the destructor has not begun, since the client is here
    have hd : s.client.destroying ≠ true := by simp [hc, Client.destroying]
    have hst : s.stopped ≠ true := fun h ↦ hd (hs.closed h)
    simp only [if_neg hst, Option.ite_none_left_eq_some, Option.some.injEq] at h
    obtain ⟨-, rfl⟩ := h
    exact ⟨.inr (.push s.line j (by simp [Sequence.line, hc, Client.hand])),
      fun h ↦ absurd h hst, hs.taken, fun h ↦ absurd h hd⟩
  · simp at h

theorem stop (hs : s.Sound) (hdrops : drops s.line) (h : s.stop = some s') :
    Moves drops s s' := by
  simp only [Sequence.stop, Option.ite_none_right_eq_some, Option.some.injEq] at h
  obtain ⟨-, rfl⟩ := h
  refine ⟨.inr (.drop s.line hdrops), hs.closed, fun j hj ↦ ?_, id⟩
  -- the task that the master took is not in the queue
  have hq : j ∉ s.tasks := hs.inv.front_not_mem hj
  simpa only [if_neg hq] using hs.taken j hj

theorem popFront (hs : s.Sound) (h : s.popFront = some s') : Moves drops s s' := by
  simp only [Sequence.popFront, Option.ite_none_right_eq_some] at h
  obtain ⟨hm, h⟩ := h
  split at h
  all_goals
    rename_i hq
    obtain rfl := Option.some.inj h
  · exact master hs (by simp [hm, Master.front])
  · rename_i j q
    refine ⟨.inr (.take s.line j q (by simp [Sequence.line, hm, Master.front]) hq), hs.closed,
      fun k hk ↦ ?_, id⟩
    obtain rfl : j = k := by simpa [Master.front] using hk
    have hj : j ∈ s.tasks := by simp [hq]
    exact iff_of_true (hs.inv.packaged j (List.mem_append_left _ hj)) rfl

theorem spawn (hs : s.Sound) (h : s.spawn = some s') : Moves drops s s' := by
  obtain ⟨j, hm, rfl⟩ := spawn_eq_some.mp h
  have hj : s.master.front = some j := congrArg Master.front hm
  refine ⟨.inr ?_, hs.closed, fun k hk ↦ ?_, id⟩
  · have := @Line.Next.spawn drops s.line j hj ((hs.taken j hj).mpr hm)
    simpa [Sequence.line, setJob, Line.setJob, hm, Master.front] using this
  · obtain rfl : j = k := by simpa [Master.front] using hk
    simp [setJob]

theorem joinThread (hs : s.Sound) (h : s.joinThread = some s') : Moves drops s s' := by
  obtain ⟨j, hm, hj, rfl⟩ := joinThread_eq_some.mp h
  exact ⟨.inr (.leave s.line j (congrArg Master.front hm) hj), hs.closed,
    fun k hk ↦ absurd hk (by simp [Master.front]), id⟩

/-- A job that has a thread changes its state. -/
theorem taken_setJob {a : Job} (hs : s.Sound) (hj : s.jobs j ≠ .packaged) (ha : a ≠ .packaged)
    (k : ℕ) (hk : s.master.front = some k) :
    (s.setJob j a).jobs k = .packaged ↔ s.master = .popped k := by
  by_cases h : k = j
  · subst h
    rw [← hs.taken k hk]
    simp [setJob, hj, ha]
  · rw [← hs.taken k hk]
    simp [setJob, Function.update_of_ne h]

theorem call (hs : s.Sound) (h : s.call j = some s') : Moves drops s s' := by
  obtain ⟨hj, rfl⟩ := call_eq_some.mp h
  exact ⟨.inr (.call s.line j hj), hs.closed, taken_setJob hs (by simp [hj]) (by simp), id⟩

/-- A job that is executing goes on. -/
theorem advance {a : Job} (hs : s.Sound) (hj : (s.jobs j).executing = true)
    (ha : a.begun = true) : Moves drops s (s.setJob j a) :=
  ⟨.inr (.advance s.line j a hj ha), hs.closed,
    taken_setJob hs (fun h ↦ absurd hj (by rw [h]; decide))
      (by rintro rfl; exact absurd ha (by decide)), id⟩

theorem callReturn {done : Bool} (hs : s.Sound) (h : s.callReturn j done = some s') :
    Moves drops s s' := by
  obtain ⟨i, hj, rfl⟩ := callReturn_eq_some.mp h
  exact advance hs (by rw [hj]; rfl) (by split <;> rfl)

theorem callThrow (hs : s.Sound) (h : s.callThrow j = some s') : Moves drops s s' := by
  obtain ⟨i, hj, rfl⟩ := callThrow_eq_some.mp h
  exact advance hs (by rw [hj]; rfl) rfl

theorem pollStop (hs : s.Sound) (h : s.pollStop j = some s') : Moves drops s s' := by
  obtain ⟨i, hj, rfl⟩ := pollStop_eq_some.mp h
  exact advance hs (by rw [hj]; rfl) (by split <;> rfl)

end Moves

/-! ## Runs -/

/-- **Every step is a step of the line or none.** -/
theorem moves_step (drops : Line → Prop) (hdrops : e = .stop → drops s.line) (hs : s.Sound)
    (h : s.step e = some s') : Moves drops s s' := by
  cases e with
  | attachJob => exact .attachJob hs h
  | pushBack => exact .pushBack hs h
  | notify => exact .notify hs h
  | join =>
    simp only [step, join, Option.ite_none_right_eq_some, Option.some.injEq] at h
    obtain ⟨hc, rfl⟩ := h
    exact .client hs (by simp [hc, Client.hand, Client.destroying])
  | joinReturn =>
    simp only [step, joinReturn, Option.ite_none_right_eq_some, Option.some.injEq] at h
    obtain ⟨⟨hc, -⟩, rfl⟩ := h
    exact .client hs (by simp [hc, Client.hand, Client.destroying])
  | destroy =>
    simp only [step, destroy, Option.ite_none_right_eq_some, Option.some.injEq] at h
    obtain ⟨⟨hc, -⟩, rfl⟩ := h
    exact ⟨.inl (by simp [line, hc, Client.hand]), fun _ ↦ rfl, hs.taken, fun _ ↦ rfl⟩
  | signalExit =>
    simp only [step, signalExit, Option.ite_none_right_eq_some, Option.some.injEq] at h
    obtain ⟨hc, rfl⟩ := h
    exact ⟨.inl (by simp [line, hc, Client.hand]), fun _ ↦ rfl, hs.taken, fun _ ↦ rfl⟩
  | joinMaster =>
    simp only [step, joinMaster, Option.ite_none_right_eq_some, Option.some.injEq] at h
    obtain ⟨⟨hc, -⟩, rfl⟩ := h
    exact .client hs (by simp [hc, Client.hand, Client.destroying])
  | stop => exact .stop hs (hdrops rfl) h
  | setSignal =>
    simp only [step, setSignal, Option.ite_none_right_eq_some, Option.some.injEq] at h
    obtain ⟨-, rfl⟩ := h
    exact ⟨.inl rfl, hs.closed, hs.taken, id⟩
  | stopReturn => exact .stopReturn hs h
  | lock =>
    simp only [step, lock, Option.ite_none_right_eq_some, Option.some.injEq] at h
    obtain ⟨⟨hm, -⟩, rfl⟩ := h
    exact .master hs (by simp [hm, Master.front])
  | evaluate =>
    simp only [step, evaluate, Option.ite_none_right_eq_some, Option.some.injEq] at h
    obtain ⟨hm, rfl⟩ := h
    exact .master hs (by split <;> simp [hm, Master.front])
  | block =>
    simp only [step, block, Option.ite_none_right_eq_some, Option.some.injEq] at h
    obtain ⟨hm, rfl⟩ := h
    exact .master hs (by simp [hm, Master.front])
  | wake =>
    simp only [step, wake, Option.ite_none_right_eq_some, Option.some.injEq] at h
    obtain ⟨hm, rfl⟩ := h
    exact .master hs (by simp [hm, Master.front])
  | popFront => exact .popFront hs h
  | spawn => exact .spawn hs h
  | joinThread => exact .joinThread hs h
  | testExit =>
    simp only [step, testExit, Option.ite_none_right_eq_some, Option.some.injEq] at h
    obtain ⟨hm, rfl⟩ := h
    exact .master hs (by split <;> simp [hm, Master.front])
  | call j => exact .call hs h
  | callReturn j done => exact .callReturn hs h
  | callThrow j => exact .callThrow hs h
  | pollStop j => exact .pollStop hs h

/-- Every run is a run of the line, in which jobs are dropped where `stop` was called. -/
theorem line_run (drops : Line → Prop)
    (hes : Steps.Meets step (fun s e ↦ e = .stop → drops s.line) s es)
    (hs : s.Sound) (h : Steps.steps step s es = some s') :
    s'.Sound ∧ ReflTransGen (Line.Next drops) s.line s'.line := by
  refine ⟨Steps.steps_inv (P := Sound) ?_ hes h hs, Steps.steps_refines (P := Sound) ?_ hes h hs⟩
  · exact fun s e s' hok h hs ↦ hs.moves (moves_step drops hok hs h)
  · intro s e s' hok h hs
    have hmoves := moves_step drops hok hs h
    exact ⟨hs.moves hmoves, hmoves.line⟩

/-- What is reached from a sound state is sound. -/
theorem Sound.steps (hs : s.Sound) (h : Steps.steps step s es = some s') : s'.Sound :=
  (line_run (fun _ ↦ True) (Steps.meets_of_forall fun _ _ _ _ ↦ trivial) hs h).1

theorem sound_run (h : run es = some s) : s.Sound := sound_init.steps h

/-- `stop` breaks the promises of the jobs in the queue, and leaves the others alone. -/
theorem stop_spec (h : s.step .stop = some s') :
    s'.line = s.line.drop ∧ s'.client = s.client ∧ s'.master = s.master := by
  simp only [step, stop, Option.ite_none_right_eq_some, Option.some.injEq] at h
  obtain ⟨-, rfl⟩ := h
  exact ⟨rfl, rfl, rfl⟩

/-- What `stop` drops is never called. -/
theorem not_started_of_dropped (h : run (es ++ .stop :: fs) = some s') :
    ∃ s, run es = some s ∧ ∀ j ∈ s.tasks, j ∉ s'.started := by
  obtain ⟨s, s₁, h, hstop, h'⟩ := Steps.steps_append_cons h
  refine ⟨s, h, fun j hj ↦ ?_⟩
  have hs₁ : s₁.Sound := (sound_run h).steps (Steps.steps_one hstop)
  obtain ⟨hs', hr⟩ := line_run (fun _ ↦ True)
    (Steps.meets_of_forall fun _ _ _ _ ↦ trivial) hs₁ h'
  have hbroken : s₁.line.jobs j = .ended .brokenPromise := by
    rw [(stop_spec hstop).1]
    exact if_pos hj
  have hended : s'.jobs j = .ended .brokenPromise := Line.ended_run hr hs₁.inv hbroken
  intro hjs
  have := (hs'.inv.mem_started j).mp hjs
  simp [line, hended, Job.begun, Job.executing, Job.completed] at this

/-- Without a `stop`, all jobs have returned or thrown when the last one has ended. -/
theorem completed_of_last_ready {k : ℕ} (h : run es = some s) (hes : .stop ∉ es)
    (hk : s.lastFuture = some k) (hr : (s.jobs k).ready = true) (hj : j ≤ k) :
    (s.jobs j).completed = true := by
  obtain ⟨hs, hl⟩ := line_run (fun _ ↦ False)
    (Steps.meets_of_forall fun e he _ heq ↦ hes (heq ▸ he)) sound_init h
  exact hs.inv.completed_of_ready (Line.not_broken_run hl fun j ↦ by simp [line, init]) hk hr hj

/-- **A sequence runs its jobs in order**, whatever the threads do, and in whichever order.  Jobs
are executed one at a time.  They are called in the order they were attached, each at most once, and
those that a `stop` found in the queue never.  Without a `stop`, all jobs have returned or thrown
when the last one has ended, and so when `join` returns. -/
theorem run_in_order {es : List Event} {s : Sequence} (h : run es = some s) :
    (∀ i j, (s.jobs i).executing = true → (s.jobs j).executing = true → i = j) ∧
      s.started.Pairwise (· < ·) ∧ (∀ j ∈ s.started, j < s.attached) ∧
      (∀ es₁ es₂, es = es₁ ++ .stop :: es₂ →
        ∃ s₁, run es₁ = some s₁ ∧ ∀ j ∈ s₁.tasks, j ∉ s.started) ∧
      (.stop ∉ es → ∀ k, s.lastFuture = some k → (s.jobs k).ready = true →
        ∀ j ≤ k, (s.jobs j).completed = true) ∧
      (.stop ∉ es → (s.step .joinReturn).isSome = true →
        ∀ j < s.attached, (s.jobs j).completed = true) := by
  have hs := sound_run h
  refine ⟨fun i j hi hj ↦ ?_, (List.pairwise_append.mp hs.inv.sorted).1,
    fun j ↦ hs.inv.started_lt, fun es₁ es₂ heq ↦ not_started_of_dropped (heq ▸ h),
    fun hes k hk hr j ↦ completed_of_last_ready h hes hk hr, fun hes hret j hj ↦ ?_⟩
  · have h1 := hs.inv.thread i (.inr hi)
    have h2 := hs.inv.thread j (.inr hj)
    exact Option.some.inj (h1.symm.trans h2)
  · -- the last job was attached after `j`, or is `j`
    have hk : s.lastFuture = some (s.attached - 1) :=
      (hs.inv.last (s.attached - 1)).mpr (Nat.sub_add_cancel (Nat.one_le_of_lt hj))
    refine completed_of_last_ready h hes hk ?_ (by omega)
    simp only [step, joinReturn, Option.isSome_ite, lastReady, hk] at hret
    exact hret.2

/-- Two jobs: the first is called twice, the second throws. -/
theorem run_in_order_small :
    ∃ s, run [.attachJob, .pushBack, .notify, .attachJob, .pushBack, .notify, .join,
        .lock, .evaluate, .popFront, .spawn, .call 0, .callReturn 0 false, .pollStop 0,
        .callReturn 0 true, .joinThread, .testExit,
        .lock, .evaluate, .popFront, .spawn, .call 1, .callThrow 1] = some s ∧
      s.started = [0, 1] ∧ ∀ j < s.attached, (s.jobs j).completed = true := by
  refine ⟨_, rfl, rfl, ?_⟩
  exact (@run_in_order [.attachJob, .pushBack, .notify, .attachJob, .pushBack, .notify, .join,
    .lock, .evaluate, .popFront, .spawn, .call 0, .callReturn 0 false, .pollStop 0,
    .callReturn 0 true, .joinThread, .testExit,
    .lock, .evaluate, .popFront, .spawn, .call 1, .callThrow 1] _ rfl).2.2.2.2.2 (by decide) rfl

end Sequence
end Jobs
end Cppkg
