import Cppkg.Lib.Steps
import Mathlib.Algebra.Group.Nat.Defs
import Mathlib.Logic.Function.Basic
import Mathlib.Order.Basic

/-!
# `jobs/sequence.hpp`

A `Sequence` runs jobs one after the other.  `attach_job` packages a job and puts it in a queue; the
thread of `master_` waits for a job in the queue, takes it out, and runs it in a thread that it
joins.  `stop` empties the queue, and tells the job that is running to stop.

The model is a system that takes steps: one step for each part of a function that no other thread
can come between.  The threads are the client, which alone attaches, joins and destroys; the master;
the thread of each job; and the threads that call `stop`, which may be any.  `queue_mutex_` is
modelled by where its owner is: `locked` says that somebody is between taking it and releasing it.

Jobs are numbered in the order they are attached.  What a job does in its calls is its own affair:
each call returns true, returns false, or throws.  The promise of `stop_signal_` and the one of
`master_` are each modelled by whether they have a value.  The constructor has returned: the thread
of `master_` polls the future that `master_` holds.
-/

set_option autoImplicit false

namespace Cppkg
namespace Jobs

/-- What makes the future of a job ready. -/
inductive Outcome
  | value
  | exception
  /-- The task was destroyed before it ran. -/
  | brokenPromise
  deriving DecidableEq, Repr

/-- The packaged task of a job, and the thread that runs it. -/
inductive Job
  /-- It is not in a thread yet. -/
  | packaged
  /-- Its thread was started and has not called the job yet. -/
  | spawned
  /-- The job was called with `i` and has not returned. -/
  | calling (i : ℕ)
  /-- The call with `i` returned false; `stop_future_` is looked at next. -/
  | polling (i : ℕ)
  /-- The future of the job is ready. -/
  | ended (o : Outcome)
  deriving DecidableEq, Repr

/-- The job was called, and its task has not ended. -/
def Job.executing : Job → Bool
  | .calling _ | .polling _ => true
  | _ => false

/-- The job returned or threw. -/
def Job.completed : Job → Bool
  | .ended .value | .ended .exception => true
  | _ => false

/-- The future of the job is ready. -/
def Job.ready : Job → Bool
  | .ended _ => true
  | _ => false

/-- Where the thread of `master_` is. -/
inductive Master
  /-- About to take `queue_mutex_`, at first or because it was woken. -/
  | locking
  /-- About to evaluate the predicate, with the lock. -/
  | holding
  /-- The predicate was true; it has the lock. -/
  | passed
  /-- The predicate was false; it has the lock. -/
  | failed
  /-- Blocked on `condition_`, without the lock. -/
  | waiting
  /-- It took the task of `j` and released the lock. -/
  | popped (j : ℕ)
  /-- It joins the thread of `j`. -/
  | joins (j : ℕ)
  /-- The job of `master_` returned; the exit future is looked at next. -/
  | returned
  | ended
  deriving DecidableEq, Repr

/-- How far the `stop` that has the lock is. -/
inductive Stopper
  | idle
  /-- It cleared the queue. -/
  | cleared
  /-- It set the stop signal. -/
  | signalled
  deriving DecidableEq, Repr

/-- Where the client is. -/
inductive Client
  | idle
  /-- In `attach_job`: the future of `j` was taken, and `j` is not in the queue. -/
  | attaching (j : ℕ)
  /-- In `attach_job`: the job is in the queue, and nobody was notified. -/
  | notifying
  /-- In `join`. -/
  | joining
  /-- In the destructor, before the end of `stop()`. -/
  | stopping
  /-- In the destructor, before `master_.stop()`. -/
  | signalling
  /-- In the destructor, in `master_.join()`. -/
  | joiningMaster
  /-- The sequence was destroyed. -/
  | gone
  deriving DecidableEq, Repr

/-- A `Sequence` and its threads. -/
structure Sequence where
  /-- How many jobs were attached. -/
  attached : ℕ
  jobs : ℕ → Job
  tasks : List ℕ
  lastFuture : Option ℕ
  stopSignal : Bool
  exitSignal : Bool
  stopped : Bool
  master : Master
  stopper : Stopper
  client : Client
  /-- The jobs that were called, in the order of their first calls. -/
  started : List ℕ

namespace Sequence

/-- The sequence as constructed. -/
def init : Sequence :=
  ⟨0, fun _ ↦ .packaged, [], none, false, false, false, .locking, .idle, .idle, []⟩

variable (s : Sequence)

/-- The state of a job changes. -/
def setJob (j : ℕ) (a : Job) : Sequence := { s with jobs := Function.update s.jobs j a }

/-- Somebody owns `queue_mutex_`. -/
def locked : Bool :=
  s.stopper != .idle || s.master == .holding || s.master == .passed || s.master == .failed

/-- `condition_.notify_one()`: only the master ever waits. -/
def notifyOne : Sequence := if s.master = .waiting then { s with master := .locking } else s

/-- The destructor has called `stop()` and come further. -/
def pastStop : Bool :=
  s.client == .signalling || s.client == .joiningMaster || s.client == .gone

/-- The future that `join` waits for is ready, or there is none. -/
def lastReady : Bool :=
  match s.lastFuture with
  | some j => (s.jobs j).ready
  | none => true

/-- `is_running()`: whether there is a future of a job. -/
def isRunning : Bool := s.lastFuture.isSome

/-! ## The steps of the client -/

/-- `attach_job`, up to the lock: package the job, take its future. -/
def attachJob : Option Sequence :=
  if s.client = .idle then
    some { s with
      attached := s.attached + 1
      lastFuture := some s.attached
      client := .attaching s.attached }
  else none

/-- `attach_job`, with the lock: queue the job, unless the sequence is being destroyed, when
`logs::fatal` throws and the task goes with it. -/
def pushBack : Option Sequence :=
  match s.client with
  | .attaching j =>
    if s.locked = true then none
    else if s.stopped = true then some { s.setJob j (.ended .brokenPromise) with client := .idle }
    else some { s with tasks := s.tasks ++ [j], client := .notifying }
  | _ => none

/-- `attach_job`, after the lock. -/
def notify : Option Sequence :=
  if s.client = .notifying then some { s.notifyOne with client := .idle } else none

/-- `join()`. -/
def join : Option Sequence :=
  if s.client = .idle then some { s with client := .joining } else none

/-- `join()` returns. -/
def joinReturn : Option Sequence :=
  if s.client = .joining ∧ s.lastReady = true then some { s with client := .idle } else none

/-- The destructor, up to `stop()`.  No call of another thread is under way. -/
def destroy : Option Sequence :=
  if s.client = .idle ∧ s.stopper = .idle then some { s with stopped := true, client := .stopping }
  else none

/-- The destructor: `master_.stop()`. -/
def signalExit : Option Sequence :=
  if s.client = .signalling then some { s with exitSignal := true, client := .joiningMaster }
  else none

/-- The destructor: `master_.join()` returns. -/
def joinMaster : Option Sequence :=
  if s.client = .joiningMaster ∧ s.master = .ended then some { s with client := .gone } else none

/-! ## The steps of `stop` -/

/-- `stop()`, the lock and `tasks_.clear()`.  The call is the destructor's if that has come so far,
and any thread's before. -/
def stop : Option Sequence :=
  if s.locked = false ∧ s.pastStop = false then
    some { s with
      jobs := fun j ↦ if j ∈ s.tasks then .ended .brokenPromise else s.jobs j
      tasks := []
      stopper := .cleared }
  else none

/-- `stop()`, `stop_signal_.set_value()`, which throws the second time and is caught. -/
def setSignal : Option Sequence :=
  if s.stopper = .cleared then some { s with stopSignal := true, stopper := .signalled } else none

/-- `stop()`, the notification and the end. -/
def stopReturn : Option Sequence :=
  if s.stopper = .signalled then
    some { s.notifyOne with
      stopper := .idle
      client := if s.client = .stopping then .signalling else s.client }
  else none

/-! ## The steps of the master -/

/-- The master takes the lock. -/
def lock : Option Sequence :=
  if s.master = .locking ∧ s.locked = false then some { s with master := .holding } else none

/-- The predicate of the wait.  Waiting for the exit future times out unless it is ready. -/
def evaluate : Option Sequence :=
  if s.master = .holding then
    some { s with master := if s.exitSignal = true ∨ s.tasks ≠ [] then .passed else .failed }
  else none

/-- The master blocks on the condition, and releases the lock with that. -/
def block : Option Sequence :=
  if s.master = .failed then some { s with master := .waiting } else none

/-- The master is woken without a notification. -/
def wake : Option Sequence :=
  if s.master = .waiting then some { s with master := .locking } else none

/-- The master takes the first task, or returns because there is none, and releases the lock. -/
def popFront : Option Sequence :=
  if s.master = .passed then
    match s.tasks with
    | [] => some { s with master := .returned }
    | j :: tasks => some { s with tasks := tasks, master := .popped j }
  else none

/-- The master starts the thread of the task it took. -/
def spawn : Option Sequence :=
  match s.master with
  | .popped j => some { s.setJob j .spawned with master := .joins j }
  | _ => none

/-- The thread that the master joins has ended. -/
def joinThread : Option Sequence :=
  match s.master with
  | .joins j => if (s.jobs j).ready = true then some { s with master := .returned } else none
  | _ => none

/-- The loop of `master_`: again, unless the exit future is ready. -/
def testExit : Option Sequence :=
  if s.master = .returned then
    some { s with master := if s.exitSignal = true then .ended else .locking }
  else none

/-! ## The steps of the thread of a job -/

/-- The first call of job `j`. -/
def call (j : ℕ) : Option Sequence :=
  match s.jobs j with
  | .spawned => some { s.setJob j (.calling 0) with started := s.started ++ [j] }
  | _ => none

/-- A call of job `j` returns: true ends its task, false is followed by a look at `stop_future_`. -/
def callReturn (j : ℕ) (done : Bool) : Option Sequence :=
  match s.jobs j with
  | .calling i => some (s.setJob j (if done = true then .ended .value else .polling i))
  | _ => none

/-- A call of job `j` throws. -/
def callThrow (j : ℕ) : Option Sequence :=
  match s.jobs j with
  | .calling _ => some (s.setJob j (.ended .exception))
  | _ => none

/-- Waiting for `stop_future_` times out unless it is ready; job `j` is called again if it does. -/
def pollStop (j : ℕ) : Option Sequence :=
  match s.jobs j with
  | .polling i =>
    some (s.setJob j (if s.stopSignal = true then .ended .value else .calling ((i + 1) % 2 ^ 64)))
  | _ => none

/-! ## All steps -/

/-- Which thread comes next, and what it does. -/
inductive Event
  | attachJob
  | pushBack
  | notify
  | join
  | joinReturn
  | destroy
  | signalExit
  | joinMaster
  | stop
  | setSignal
  | stopReturn
  | lock
  | evaluate
  | block
  | wake
  | popFront
  | spawn
  | joinThread
  | testExit
  | call (j : ℕ)
  | callReturn (j : ℕ) (done : Bool)
  | callThrow (j : ℕ)
  | pollStop (j : ℕ)
  deriving DecidableEq, Repr

/-- The step of an event. -/
def step : Event → Option Sequence
  | .attachJob => s.attachJob
  | .pushBack => s.pushBack
  | .notify => s.notify
  | .join => s.join
  | .joinReturn => s.joinReturn
  | .destroy => s.destroy
  | .signalExit => s.signalExit
  | .joinMaster => s.joinMaster
  | .stop => s.stop
  | .setSignal => s.setSignal
  | .stopReturn => s.stopReturn
  | .lock => s.lock
  | .evaluate => s.evaluate
  | .block => s.block
  | .wake => s.wake
  | .popFront => s.popFront
  | .spawn => s.spawn
  | .joinThread => s.joinThread
  | .testExit => s.testExit
  | .call j => s.call j
  | .callReturn j done => s.callReturn j done
  | .callThrow j => s.callThrow j
  | .pollStop j => s.pollStop j

/-- Where a run of the sequence ends. -/
def run (es : List Event) : Option Sequence := Steps.steps step init es

/-! ## When a thread goes on

The steps that are matched on where a thread is, and what is left of the state after them. -/

variable {s} {s' : Sequence} {j : ℕ}

theorem spawn_eq_some : s.spawn = some s' ↔
    ∃ j, s.master = .popped j ∧ { s.setJob j .spawned with master := .joins j } = s' := by
  unfold spawn
  split
  · rename_i hm
    simp [hm]
  · rename_i hm
    simpa using fun j hj ↦ absurd hj (hm j)

theorem joinThread_eq_some : s.joinThread = some s' ↔
    ∃ j, s.master = .joins j ∧ (s.jobs j).ready = true ∧ { s with master := .returned } = s' := by
  unfold joinThread
  split
  · rename_i hm
    simp [hm]
  · rename_i hm
    simpa using fun j hj ↦ absurd hj (hm j)

theorem call_eq_some : s.call j = some s' ↔ s.jobs j = .spawned ∧
    { s.setJob j (.calling 0) with started := s.started ++ [j] } = s' := by
  unfold call
  split
  · rename_i hj
    simp [hj]
  · rename_i hj
    simpa using fun h ↦ absurd h hj

theorem callReturn_eq_some {done : Bool} : s.callReturn j done = some s' ↔
    ∃ i, s.jobs j = .calling i ∧
      s.setJob j (if done = true then .ended .value else .polling i) = s' := by
  unfold callReturn
  split
  · rename_i hj
    simp [hj]
  · rename_i hj
    simpa using fun i h ↦ absurd h (hj i)

theorem callThrow_eq_some : s.callThrow j = some s' ↔
    ∃ i, s.jobs j = .calling i ∧ s.setJob j (.ended .exception) = s' := by
  unfold callThrow
  split
  · rename_i hj
    simp [hj]
  · rename_i hj
    simpa using fun i h ↦ absurd h (hj i)

theorem pollStop_eq_some : s.pollStop j = some s' ↔ ∃ i, s.jobs j = .polling i ∧
    s.setJob j (if s.stopSignal = true then .ended .value else .calling ((i + 1) % 2 ^ 64)) =
      s' := by
  unfold pollStop
  split
  · rename_i hj
    simp [hj]
  · rename_i hj
    simpa using fun i h ↦ absurd h (hj i)

end Sequence
end Jobs
end Cppkg
