import Cppkg.Jobs.InOrder

/-!
# The destructor of a `Sequence`

The destructor tells the master to end in two steps: `stop()` wakes it, and `master_.stop()` sets
the signal that lets it pass the wait.  The wake-up comes first.  If the master evaluates the
predicate of its wait in between, it finds no signal and no task, and blocks after the only
notification was sent: the destructor then waits for a thread that nobody wakes.

`never_deadlocked`: in a run in which the master does not evaluate the predicate in between, the
destructor never waits in vain.  `safeToEvaluate_iff`: and after the first time it does, it may.
-/

set_option autoImplicit false

namespace Cppkg
namespace Jobs

/-- The client is behind the `stop()` of the destructor, and the master is to end. -/
def Client.ending : Client → Bool
  | .signalling | .joiningMaster => true
  | _ => false

theorem Client.ending_of_not_destroying {c : Client} (h : c.destroying = false) :
    c.ending = false ∧ c ≠ .stopping ∧ c ≠ .joiningMaster ∧ c ≠ .gone := by
  cases c <;> simp_all [Client.destroying, Client.ending]

namespace Sequence

variable {s s' s₁ : Sequence} {e : Event} {es fs : List Event}

/-- The destructor waits for the master in `master_.join()`, the master is blocked on `condition_`
with an empty queue, and nobody is left to notify it. -/
structure Deadlocked (s : Sequence) : Prop where
  client : s.client = .joiningMaster
  master : s.master = .waiting
  tasks : s.tasks = []
  stopper : s.stopper = .idle

instance : DecidablePred Deadlocked := fun s ↦
  decidable_of_iff
    (s.client = .joiningMaster ∧ s.master = .waiting ∧ s.tasks = [] ∧ s.stopper = .idle)
    ⟨fun ⟨h1, h2, h3, h4⟩ ↦ ⟨h1, h2, h3, h4⟩, fun ⟨h1, h2, h3, h4⟩ ↦ ⟨h1, h2, h3, h4⟩⟩

/-- The master does not evaluate the predicate between the `stop()` of the destructor and
`master_.stop()`. -/
def SafeToEvaluate (s : Sequence) : Prop := s.client ≠ .signalling

instance : DecidablePred SafeToEvaluate := fun s ↦
  inferInstanceAs (Decidable (s.client ≠ .signalling))

/-- No step but a spurious wake-up ends a deadlock. -/
theorem deadlocked_step (he : e ≠ .wake) (h : s.step e = some s') (hs : s.Deadlocked) :
    s'.Deadlocked := by
  obtain ⟨hc, hm, ht, hst⟩ := hs
  have hpast : s.pastStop = true := by simp [pastStop, hc]
  cases e with
  | wake => exact absurd rfl he
  | call j | callReturn j done | callThrow j | pollStop j =>
    simp only [step, call, callReturn, callThrow, pollStop] at h
    split at h
    · obtain rfl := Option.some.inj h
      exact ⟨hc, hm, ht, hst⟩
    · simp at h
  | stop => simp [step, stop, hpast] at h
  | attachJob => simp [step, attachJob, hc] at h
  | pushBack => simp [step, pushBack, hc] at h
  | notify => simp [step, notify, hc] at h
  | join => simp [step, join, hc] at h
  | joinReturn => simp [step, joinReturn, hc] at h
  | destroy => simp [step, destroy, hc] at h
  | signalExit => simp [step, signalExit, hc] at h
  | joinMaster => simp [step, joinMaster, hm] at h
  | setSignal => simp [step, setSignal, hst] at h
  | stopReturn => simp [step, stopReturn, hst] at h
  | lock => simp [step, lock, hm] at h
  | evaluate => simp [step, evaluate, hm] at h
  | block => simp [step, block, hm] at h
  | popFront => simp [step, popFront, hm] at h
  | spawn => simp [step, spawn, hm] at h
  | joinThread => simp [step, joinThread, hm] at h
  | testExit => simp [step, testExit, hm] at h

/-- **A deadlock lasts**, however the threads go on, unless the master wakes up by itself. -/
theorem deadlocked_steps (hes : .wake ∉ es) (h : Steps.steps step s es = some s')
    (hs : s.Deadlocked) : s'.Deadlocked := by
  have hmeets : Steps.Meets step (fun _ e ↦ e ≠ .wake) s es :=
    Steps.meets_of_forall fun e he _ heq ↦ hes (heq ▸ he)
  exact Steps.steps_inv (fun _ _ _ ↦ deadlocked_step) hmeets h hs

/-! ## Safe runs -/

/-- What every state keeps to of a run in which the master does not evaluate the predicate in
between. -/
structure Roused (s : Sequence) : Prop where
  /-- Who is in `stop` has the lock. -/
  locked : s.stopper ≠ .idle → s.master ≠ .holding ∧ s.master ≠ .passed ∧ s.master ≠ .failed
  cleared : s.client = .stopping → s.stopper ≠ .idle → s.tasks = []
  stopped : s.client.ending = true → s.stopper = .idle ∧ s.tasks = []
  signal : s.exitSignal = true ↔ s.client = .joiningMaster ∨ s.client = .gone
  /-- The master was notified, and has not come to wait again. -/
  awake : s.client.ending = true → s.master ≠ .failed ∧ s.master ≠ .waiting

theorem roused_init : init.Roused where
  locked h := absurd rfl h
  cleared h := by simp [init] at h
  stopped h := by simp [init, Client.ending] at h
  signal := by simp [init]
  awake h := by simp [init, Client.ending] at h

namespace Roused

/-- The master goes on, or a job does. -/
theorem of_master (hs : s.Roused) (hclient : s'.client = s.client)
    (hstopper : s'.stopper = s.stopper) (hexit : s'.exitSignal = s.exitSignal)
    (htasks : s.tasks = [] → s'.tasks = [])
    (hlock : s.stopper ≠ .idle → s'.master ≠ .holding ∧ s'.master ≠ .passed ∧ s'.master ≠ .failed)
    (hwait : s.client.ending = true → s'.master ≠ .failed ∧ s'.master ≠ .waiting) : s'.Roused where
  locked := hstopper ▸ hlock
  cleared h h' := htasks (hs.cleared (hclient ▸ h) (hstopper ▸ h'))
  stopped h := ⟨hstopper ▸ (hs.stopped (hclient ▸ h)).1, htasks (hs.stopped (hclient ▸ h)).2⟩
  signal := by rw [hexit, hclient, hs.signal]
  awake h := hwait (hclient ▸ h)

theorem notifyOne (hs : s.Roused) : s.notifyOne.Roused := by
  unfold Sequence.notifyOne
  split
  · exact hs.of_master rfl rfl rfl id (by simp) (by simp)
  · exact hs

/-- The client goes on outside the destructor. -/
theorem of_client (hs : s.Roused) (hfrom : s.client.destroying = false)
    (hto : s'.client.destroying = false) (hstopper : s'.stopper = s.stopper)
    (hexit : s'.exitSignal = s.exitSignal) (hmaster : s'.master = s.master) : s'.Roused := by
  obtain ⟨-, -, hfrom₁, hfrom₂⟩ := Client.ending_of_not_destroying hfrom
  obtain ⟨hend, hstop, hto₁, hto₂⟩ := Client.ending_of_not_destroying hto
  refine ⟨hstopper ▸ hmaster ▸ hs.locked, fun h ↦ absurd h hstop, fun h ↦ absurd h (by simp [hend]),
    ?_, fun h ↦ absurd h (by simp [hend])⟩
  rw [hexit, hs.signal]
  simp [hfrom₁, hfrom₂, hto₁, hto₂]

/-! ### The steps of the client -/

theorem attachJob (hs : s.Roused) (h : s.attachJob = some s') : s'.Roused := by
  simp only [Sequence.attachJob, Option.ite_none_right_eq_some, Option.some.injEq] at h
  obtain ⟨hc, rfl⟩ := h
  exact hs.of_client (by rw [hc]; rfl) rfl rfl rfl rfl

theorem pushBack (hs : s.Roused) (h : s.pushBack = some s') : s'.Roused := by
  unfold Sequence.pushBack at h
  split at h
  · rename_i j hc
    simp only [Option.ite_none_left_eq_some] at h
    obtain ⟨-, h⟩ := h
    split at h
    all_goals
      obtain rfl := Option.some.inj h
      exact hs.of_client (by rw [hc]; rfl) rfl rfl rfl rfl
  · simp at h

theorem notify (hs : s.Roused) (h : s.notify = some s') : s'.Roused := by
  simp only [Sequence.notify, Option.ite_none_right_eq_some, Option.some.injEq] at h
  obtain ⟨hc, rfl⟩ := h
  have hc' : s.notifyOne.client.destroying = false := by
    unfold Sequence.notifyOne
    split <;> rw [hc] <;> rfl
  exact hs.notifyOne.of_client hc' rfl rfl rfl rfl

theorem join (hs : s.Roused) (h : s.join = some s') : s'.Roused := by
  simp only [Sequence.join, Option.ite_none_right_eq_some, Option.some.injEq] at h
  obtain ⟨hc, rfl⟩ := h
  exact hs.of_client (by rw [hc]; rfl) rfl rfl rfl rfl

theorem joinReturn (hs : s.Roused) (h : s.joinReturn = some s') : s'.Roused := by
  simp only [Sequence.joinReturn, Option.ite_none_right_eq_some, Option.some.injEq] at h
  obtain ⟨⟨hc, -⟩, rfl⟩ := h
  exact hs.of_client (by rw [hc]; rfl) rfl rfl rfl rfl

theorem destroy (hs : s.Roused) (h : s.destroy = some s') : s'.Roused := by
  simp only [Sequence.destroy, Option.ite_none_right_eq_some, Option.some.injEq] at h
  obtain ⟨⟨hc, hst⟩, rfl⟩ := h
  exact ⟨hs.locked, fun _ h ↦ absurd hst h, fun h ↦ absurd h (by simp [Client.ending]),
    hs.signal.trans (by simp [hc]), fun h ↦ absurd h (by simp [Client.ending])⟩

theorem signalExit (hs : s.Roused) (h : s.signalExit = some s') : s'.Roused := by
  simp only [Sequence.signalExit, Option.ite_none_right_eq_some, Option.some.injEq] at h
  obtain ⟨hc, rfl⟩ := h
  have hend : s.client.ending = true := by rw [hc]; rfl
  exact ⟨hs.locked, fun h ↦ by simp at h, fun _ ↦ hs.stopped hend, by simp, fun _ ↦ hs.awake hend⟩

theorem joinMaster (hs : s.Roused) (h : s.joinMaster = some s') : s'.Roused := by
  simp only [Sequence.joinMaster, Option.ite_none_right_eq_some, Option.some.injEq] at h
  obtain ⟨⟨hc, -⟩, rfl⟩ := h
  exact ⟨hs.locked, fun h ↦ by simp at h, fun h ↦ absurd h (by simp [Client.ending]),
    hs.signal.trans (by simp [hc]), fun h ↦ absurd h (by simp [Client.ending])⟩

/-! ### The steps of `stop` -/

theorem stop (hs : s.Roused) (h : s.stop = some s') : s'.Roused := by
  simp only [Sequence.stop, Option.ite_none_right_eq_some, Option.some.injEq] at h
  obtain ⟨⟨hl, hp⟩, rfl⟩ := h
  simp only [Sequence.locked, Bool.or_eq_false_iff, beq_eq_false_iff_ne] at hl
  have hend : s.client.ending = false := by
    cases hc : s.client <;> simp [pastStop, hc, Client.ending] at hp ⊢
  exact ⟨fun _ ↦ ⟨hl.1.1.2, hl.1.2, hl.2⟩, fun _ _ ↦ rfl, fun h ↦ absurd h (by simp [hend]),
    hs.signal, fun h ↦ absurd h (by simp [hend])⟩

theorem setSignal (hs : s.Roused) (h : s.setSignal = some s') : s'.Roused := by
  simp only [Sequence.setSignal, Option.ite_none_right_eq_some, Option.some.injEq] at h
  obtain ⟨hst, rfl⟩ := h
  have hne : s.stopper ≠ .idle := by simp [hst]
  exact ⟨fun _ ↦ hs.locked hne, fun hc _ ↦ hs.cleared hc hne,
    fun hc ↦ absurd (hs.stopped hc).1 hne, hs.signal, hs.awake⟩

/-- The destructor has woken the master, which did not have the lock. -/
theorem stopReturn (hs : s.Roused) (h : s.stopReturn = some s') : s'.Roused := by
  simp only [Sequence.stopReturn, Option.ite_none_right_eq_some, Option.some.injEq] at h
  obtain ⟨hst, rfl⟩ := h
  have hne : s.stopper ≠ .idle := by simp [hst]
  have hend : s.client.ending = false := by
    rw [← Bool.not_eq_true]
    exact fun hc ↦ hne (hs.stopped hc).1
  have hmaster : s.notifyOne.master ≠ .failed ∧ s.notifyOne.master ≠ .waiting := by
    unfold Sequence.notifyOne
    split
    · simp
    · rename_i hm
      exact ⟨(hs.locked hne).2.2, hm⟩
  have htasks : s.notifyOne.tasks = s.tasks := by
    unfold Sequence.notifyOne
    split <;> rfl
  refine ⟨fun h ↦ absurd rfl h, fun _ h ↦ absurd rfl h, fun hc ↦ ⟨rfl, htasks.trans ?_⟩, ?_,
    fun _ ↦ hmaster⟩
  · by_cases hstop : s.client = .stopping
    · exact hs.cleared hstop hne
    · rw [if_neg hstop, hend] at hc
      simp at hc
  · have hexit : s.notifyOne.exitSignal = s.exitSignal := by
      unfold Sequence.notifyOne
      split <;> rfl
    rw [hexit, hs.signal]
    split
    · rename_i hc
      simp [hc]
    · rfl

/-! ### The steps of the master -/

theorem lock (hs : s.Roused) (h : s.lock = some s') : s'.Roused := by
  simp only [Sequence.lock, Option.ite_none_right_eq_some, Option.some.injEq] at h
  obtain ⟨⟨hm, hl⟩, rfl⟩ := h
  simp only [Sequence.locked, Bool.or_eq_false_iff, bne_eq_false_iff_eq] at hl
  exact hs.of_master rfl rfl rfl id (fun h ↦ absurd hl.1.1.1 h) (by simp)

/-- The predicate is true once the signal is set. -/
theorem evaluate (hs : s.Roused) (hsafe : s.SafeToEvaluate) (h : s.evaluate = some s') :
    s'.Roused := by
  simp only [Sequence.evaluate, Option.ite_none_right_eq_some, Option.some.injEq] at h
  obtain ⟨hm, rfl⟩ := h
  refine hs.of_master rfl rfl rfl id (fun h ↦ absurd hm (hs.locked h).1) fun hc ↦ ?_
  have hexit : s.exitSignal = true := by
    cases hclient : s.client with
    | joiningMaster => exact hs.signal.mpr (.inl hclient)
    | signalling => exact absurd hclient hsafe
    | _ => simp [hclient, Client.ending] at hc
  simp [hexit]

theorem block (hs : s.Roused) (h : s.block = some s') : s'.Roused := by
  simp only [Sequence.block, Option.ite_none_right_eq_some, Option.some.injEq] at h
  obtain ⟨hm, rfl⟩ := h
  exact hs.of_master rfl rfl rfl id (by simp) fun hc ↦ absurd hm (hs.awake hc).1

theorem wake (hs : s.Roused) (h : s.wake = some s') : s'.Roused := by
  simp only [Sequence.wake, Option.ite_none_right_eq_some, Option.some.injEq] at h
  obtain ⟨-, rfl⟩ := h
  exact hs.of_master rfl rfl rfl id (by simp) (by simp)

theorem popFront (hs : s.Roused) (h : s.popFront = some s') : s'.Roused := by
  simp only [Sequence.popFront, Option.ite_none_right_eq_some] at h
  obtain ⟨-, h⟩ := h
  split at h
  all_goals
    rename_i hq
    obtain rfl := Option.some.inj h
    exact hs.of_master rfl rfl rfl (by simp [hq]) (by simp) (by simp)

theorem spawn (hs : s.Roused) (h : s.spawn = some s') : s'.Roused := by
  obtain ⟨j, -, rfl⟩ := spawn_eq_some.mp h
  exact hs.of_master rfl rfl rfl id (by simp) (by simp)

theorem joinThread (hs : s.Roused) (h : s.joinThread = some s') : s'.Roused := by
  obtain ⟨j, -, -, rfl⟩ := joinThread_eq_some.mp h
  exact hs.of_master rfl rfl rfl id (by simp) (by simp)

theorem testExit (hs : s.Roused) (h : s.testExit = some s') : s'.Roused := by
  simp only [Sequence.testExit, Option.ite_none_right_eq_some, Option.some.injEq] at h
  obtain ⟨-, rfl⟩ := h
  refine hs.of_master rfl rfl rfl id (fun _ ↦ ?_) fun _ ↦ ?_
  all_goals
    dsimp only
    split <;> simp

end Roused

theorem roused_step (hsafe : e = .evaluate → s.SafeToEvaluate) (h : s.step e = some s')
    (hs : s.Roused) : s'.Roused := by
  cases e with
  | attachJob => exact hs.attachJob h
  | pushBack => exact hs.pushBack h
  | notify => exact hs.notify h
  | join => exact hs.join h
  | joinReturn => exact hs.joinReturn h
  | destroy => exact hs.destroy h
  | signalExit => exact hs.signalExit h
  | joinMaster => exact hs.joinMaster h
  | stop => exact hs.stop h
  | setSignal => exact hs.setSignal h
  | stopReturn => exact hs.stopReturn h
  | lock => exact hs.lock h
  | evaluate => exact hs.evaluate (hsafe rfl) h
  | block => exact hs.block h
  | wake => exact hs.wake h
  | popFront => exact hs.popFront h
  | spawn => exact hs.spawn h
  | joinThread => exact hs.joinThread h
  | testExit => exact hs.testExit h
  | call j | callReturn j done | callThrow j | pollStop j =>
    simp only [step, call, callReturn, callThrow, pollStop] at h
    split at h
    · obtain rfl := Option.some.inj h
      exact hs.of_master rfl rfl rfl id hs.locked hs.awake
    · simp at h

/-- **The destructor does not wait in vain**, in a run in which the master does not evaluate the
predicate of its wait between `stop()` and `master_.stop()`. -/
theorem never_deadlocked {es : List Event} {s : Sequence}
    (hes : Steps.Meets step (fun s e ↦ e = .evaluate → s.SafeToEvaluate) init es)
    (h : run es = some s) : ¬ s.Deadlocked := by
  have hs : s.Roused := Steps.steps_inv (fun _ _ _ ↦ roused_step) hes h roused_init
  intro hd
  exact (hs.awake (by rw [hd.client]; rfl)).2 hd.master

/-- The master waits; the destructor wakes it, and sets the signal before it evaluates the predicate
again. -/
theorem never_deadlocked_small :
    ∃ s, run [.lock, .evaluate, .block, .destroy, .stop, .setSignal, .stopReturn, .lock,
        .signalExit] = some s ∧ s.client = .joiningMaster ∧ ¬ s.Deadlocked := by
  refine ⟨_, rfl, rfl, ?_⟩
  exact @never_deadlocked [.lock, .evaluate, .block, .destroy, .stop, .setSignal, .stopReturn,
    .lock, .signalExit] _ (by decide) rfl

/-- The master waits; the destructor wakes it, and it evaluates the predicate before the signal is
set. -/
theorem not_never_deadlocked : ¬ ∀ es s, run es = some s → ¬ s.Deadlocked := by
  intro h
  exact h [.lock, .evaluate, .block, .destroy, .stop, .setSignal, .stopReturn, .lock, .evaluate,
    .block, .signalExit] _ rfl (by decide)

/-- **When the master may evaluate the predicate**, after a run in which it did so only then:
exactly when no deadlock can follow without its doing so once more. -/
theorem safeToEvaluate_iff
    (hes : Steps.Meets step (fun s e ↦ e = .evaluate → s.SafeToEvaluate) init es)
    (h : run es = some s) (heval : s.step .evaluate = some s₁) :
    s.SafeToEvaluate ↔ ∀ fs s₂, .evaluate ∉ fs → Steps.steps step s₁ fs = some s₂ →
      ¬ s₂.Deadlocked := by
  have hs : s.Roused := Steps.steps_inv (fun _ _ _ ↦ roused_step) hes h roused_init
  constructor
  · intro hsafe fs s₂ hfs h₂ hd
    have hmeets : Steps.Meets step (fun s e ↦ e = .evaluate → s.SafeToEvaluate) s₁ fs :=
      Steps.meets_of_forall fun e he _ heq ↦ absurd (heq ▸ he) hfs
    have hs₂ : s₂.Roused := Steps.steps_inv (fun _ _ _ ↦ roused_step) hmeets h₂
      (roused_step (fun _ ↦ hsafe) heval hs)
    exact (hs₂.awake (by rw [hd.client]; rfl)).2 hd.master
  · intro hnot hc
    -- no signal and no task: the predicate is false
    have hexit : s.exitSignal ≠ true := fun h ↦ by simpa [hc] using hs.signal.mp h
    obtain ⟨hst, hq⟩ := hs.stopped (by rw [hc]; rfl)
    simp only [step, evaluate, Option.ite_none_right_eq_some, Option.some.injEq, hexit, hq, ne_eq,
      not_true_eq_false] at heval
    obtain ⟨-, rfl⟩ := heval
    have h₂ : Steps.steps step { s with master := .failed } [.block, .signalExit]
        = some { s with master := .waiting, exitSignal := true, client := .joiningMaster } := by
      simp [step, block, signalExit, hc]
    rw [hq] at h₂
    exact hnot [.block, .signalExit] _ (by simp) h₂ ⟨rfl, rfl, rfl, hst⟩

end Sequence
end Jobs
end Cppkg
