import Cppkg.Lib.Run
import Mathlib.Logic.Function.Basic

/-!
# `jobs/managed_job.hpp`

A `ManagedJob` couples a promise, a future of the same promise, and a thread that polls the future
and runs its job again and again until the future is ready.  All three can be moved but not copied.

The world is what the operations of any number of objects share: the shared states that promises and
futures refer to, the threads that were started, and the objects themselves.  `std::promise`,
`std::shared_future` and `std::thread` are modelled by what the operations can observe of them: a
shared state hands out its future once and is made ready once, and a thread ends only when the
future it polls is ready.
-/

set_option autoImplicit false

namespace Cppkg
namespace Jobs

/-- What a `std::future_error` is about. -/
inductive FutureErrc
  | futureAlreadyRetrieved
  | promiseAlreadySatisfied
  | noState
  deriving DecidableEq, Repr

/-- How an operation can end, other than by returning. -/
inductive Stop
  /-- It throws `std::future_error`.  Where the exception leaves a destructor, or its unwinding
  destroys a thread that is still joinable, that is the end of the program as well. -/
  | futureError (e : FutureErrc)
  /-- `std::terminate`, because a joinable thread was overwritten. -/
  | terminate
  /-- It waits for a thread that was not told to stop. -/
  | blocked
  /-- There is no such object, or there is one already. -/
  | undefined
  deriving DecidableEq, Repr

/-- The shared state of a promise and its futures. -/
structure SharedState where
  /-- Was `get_future` called? -/
  retrieved : Bool
  /-- Does it have a value, or the exception of a broken promise? -/
  ready : Bool
  deriving DecidableEq, Repr

/-- A `ManagedJob`.  Its members refer to shared states and threads by number. -/
structure ManagedJob where
  /-- The shared state of the future, if it is valid. -/
  exitFuture : Option ℕ
  /-- The shared state of the promise, unless it was moved from. -/
  exitSignal : Option ℕ
  /-- The thread, if it is joinable. -/
  job : Option ℕ
  deriving DecidableEq, Repr

/-- Return true if the job is running. -/
def ManagedJob.joinable (j : ManagedJob) : Bool := j.job.isSome

/-- All objects, and what they refer to. -/
structure World where
  /-- The objects alive, by address. -/
  objects : ℕ → Option ManagedJob
  /-- The shared states; those from `nshared` on do not exist yet. -/
  shared : ℕ → SharedState
  nshared : ℕ
  /-- The shared state each thread polls; threads from `nthreads` on were not started yet. -/
  polls : ℕ → ℕ
  nthreads : ℕ
  /-- The threads that were joined or detached, in order. -/
  ended : List ℕ

namespace World

/-- Nothing was ever constructed. -/
def init : World := ⟨fun _ ↦ none, fun _ ↦ ⟨false, false⟩, 0, fun _ ↦ 0, 0, []⟩

variable (w : World)

/-- Put an object, or nothing, at an address. -/
def put (x : ℕ) (o : Option ManagedJob) : World :=
  { w with objects := Function.update w.objects x o }

/-- Replace a shared state. -/
def setShared (s : ℕ) (st : SharedState) : World :=
  { w with shared := Function.update w.shared s st }

/-- A shared state becomes ready. -/
def makeReady (s : ℕ) : World := w.setShared s { w.shared s with ready := true }

/-- A thread was joined or detached. -/
def endThread (t : ℕ) : World := { w with ended := w.ended ++ [t] }

/-- The object at an address. -/
def object (x : ℕ) : Run Stop ManagedJob :=
  match w.objects x with
  | some j => pure j
  | none => .fail .undefined

/-! ## The standard library -/

/-- Construct a `std::promise`: its shared state, and the world that has it. -/
def newPromise : ℕ × World :=
  (w.nshared, { w.setShared w.nshared ⟨false, false⟩ with nshared := w.nshared + 1 })

/-- `std::promise::get_future`. -/
def getFuture (signal : Option ℕ) : Run Stop (ℕ × World) :=
  match signal with
  | none => .fail (.futureError .noState)
  | some s =>
    if (w.shared s).retrieved = true then .fail (.futureError .futureAlreadyRetrieved)
    else pure (s, w.setShared s { w.shared s with retrieved := true })

/-- `std::promise::set_value`. -/
def setValue (signal : Option ℕ) : Run Stop World :=
  match signal with
  | none => .fail (.futureError .noState)
  | some s =>
    if (w.shared s).ready = true then .fail (.futureError .promiseAlreadySatisfied)
    else pure (w.makeReady s)

/-- Destroy or overwrite a promise: a state that is not ready gets a broken promise. -/
def abandon (signal : Option ℕ) : World :=
  match signal with
  | none => w
  | some s => w.makeReady s

/-- Start a thread that polls `future`. -/
def startThread (future : ℕ) : ℕ × World :=
  (w.nthreads, { w with
    polls := Function.update w.polls w.nthreads future
    nthreads := w.nthreads + 1 })

/-- `std::thread::join`: the thread ends once the future it polls is ready. -/
def joinThread (t : ℕ) : Run Stop World :=
  if (w.shared (w.polls t)).ready = true then pure (w.endThread t) else .fail .blocked

end World

/-! ## The operations of `ManagedJob` -/

section Operations

variable (x y : ℕ) (w : World)

/-- `ManagedJob x;` -/
def construct : Run Stop World :=
  if (w.objects x).isSome = true then .fail .undefined
  else do
    let (signal, w) := w.newPromise
    let (future, w) ← w.getFuture (some signal)
    pure (w.put x (some ⟨some future, some signal, none⟩))

/-- `ManagedJob x(job);` -/
def constructJob : Run Stop World :=
  if (w.objects x).isSome = true then .fail .undefined
  else do
    let (signal, w) := w.newPromise
    let (future, w) ← w.getFuture (some signal)
    let (t, w) := w.startThread future
    pure (w.put x (some ⟨some future, some signal, some t⟩))

/-- `ManagedJob x(std::move(y));` -/
def moveConstruct : Run Stop World :=
  if (w.objects x).isSome = true then .fail .undefined
  else do
    let other ← w.object y
    let w := w.put y (some ⟨other.exitFuture, none, none⟩)
    let (future, w) ← w.getFuture other.exitSignal
    pure (w.put x (some ⟨some future, other.exitSignal, other.job⟩))

/-- `x = std::move(y);` -/
def moveAssign : Run Stop World := do
  let this ← w.object x
  let other ← w.object y
  if x = y then pure w
  else
    let w ←
      match this.job with
      | some t =>
        if this.exitFuture.isSome = true then do
          let w ← w.setValue this.exitSignal
          pure ((w.endThread t).put x (some { this with job := none }))
        else .fail .terminate
      | none => pure w
    let w := w.abandon this.exitSignal
    pure ((w.put x (some other)).put y (some ⟨none, none, none⟩))

/-- `x.join();` -/
def join : Run Stop World := do
  let this ← w.object x
  match this.job with
  | some t => do
    let w ← w.joinThread t
    pure (w.put x (some { this with job := none }))
  | none => pure w

/-- `x.stop();` -/
def stop : Run Stop World := do
  let this ← w.object x
  if this.joinable = true then w.setValue this.exitSignal else pure w

/-- The end of `x`. -/
def destroy : Run Stop World := do
  let this ← w.object x
  let w ← if this.joinable = true ∧ this.exitFuture.isSome = true then w.setValue this.exitSignal
    else pure w
  let w ← join x w
  pure ((w.abandon this.exitSignal).put x none)

end Operations

/-! ## Runs -/

/-- An operation on the objects at some addresses. -/
inductive Op
  | construct (x : ℕ)
  | constructJob (x : ℕ)
  | moveConstruct (x y : ℕ)
  | moveAssign (x y : ℕ)
  | stop (x : ℕ)
  | join (x : ℕ)
  | destroy (x : ℕ)
  deriving DecidableEq, Repr

/-- Do an operation. -/
def exec : Op → World → Run Stop World
  | .construct x => construct x
  | .constructJob x => constructJob x
  | .moveConstruct x y => moveConstruct x y
  | .moveAssign x y => moveAssign x y
  | .stop x => stop x
  | .join x => join x
  | .destroy x => destroy x

/-- Do operations, one after the other. -/
def run : List Op → World → Run Stop World
  | [], w => pure w
  | op :: ops, w => exec op w >>= run ops

end Jobs
end Cppkg
