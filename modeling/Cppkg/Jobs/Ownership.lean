import Cppkg.Jobs.ManagedJob

/-!
# Who owns a thread

Every thread that was started belongs to exactly one object until it is joined or detached, and
after that to none.  `Inv` says so, and it holds in every run: `exec_spec` goes through the
operations.  The same invariant says which states an operation trips in, which is `Trips`: moving a
`ManagedJob` into a new one always fails, because its future was already retrieved, and telling a
thread to stop fails the second time.
-/

set_option autoImplicit false

namespace Cppkg
namespace Jobs

variable {w w' : World} {x y z : ℕ} {t : ℕ} {o : Option ManagedJob}

/-! ## The invariant -/

namespace World

/-- The thread belongs to the object at `x`. -/
def Owns (w : World) (x t : ℕ) : Prop := ∃ j, w.objects x = some j ∧ j.job = some t

@[simp] theorem objects_put (w : World) (x : ℕ) (o : Option ManagedJob) :
    (w.put x o).objects = Function.update w.objects x o := rfl

@[simp] theorem objects_makeReady (w : World) (s : ℕ) : (w.makeReady s).objects = w.objects := rfl

@[simp] theorem objects_endThread (w : World) (t : ℕ) : (w.endThread t).objects = w.objects := rfl

@[simp] theorem objects_abandon (w : World) (s : Option ℕ) : (w.abandon s).objects = w.objects := by
  cases s <;> rfl

theorem owns_put_self : (w.put x o).Owns x t ↔ ∃ j, o = some j ∧ j.job = some t := by
  simp [Owns]

theorem owns_put_of_ne (h : y ≠ x) : (w.put x o).Owns y t ↔ w.Owns y t := by
  simp [Owns, Function.update_of_ne h]

/-- Nothing belongs to an object that does not exist. -/
theorem not_owns_of_none (hx : w.objects x = none) (t : ℕ) : ¬ w.Owns x t := by
  rintro ⟨j, hj, -⟩
  exact absurd (hx.symm.trans hj) (by simp)

/-- An object without a thread may be replaced by another one. -/
theorem owns_put_idle (hx : ∀ t, ¬ w.Owns x t) (ho : ∀ j, o = some j → j.job = none) :
    (w.put x o).Owns y t ↔ w.Owns y t := by
  by_cases h : y = x
  · subst h
    rw [owns_put_self]
    refine iff_of_false ?_ (hx t)
    rintro ⟨j, hj, ht⟩
    rw [ho j hj] at ht
    exact absurd ht (by simp)
  · exact owns_put_of_ne h

end World

open World

/-- What an object may be. -/
structure Sound (w : World) (j : ManagedJob) : Prop where
  /-- Its promise has handed out its future. -/
  signal : ∀ s, j.exitSignal = some s → s < w.nshared ∧ (w.shared s).retrieved = true
  /-- Its thread polls the shared state of both its promise and its future. -/
  thread : ∀ t, j.job = some t → t < w.nthreads ∧ j.exitSignal = some (w.polls t) ∧
    j.exitFuture = some (w.polls t)

theorem Sound.put {j : ManagedJob} (h : Sound w j) : Sound (w.put x o) j := ⟨h.signal, h.thread⟩

/-- An object that was moved from. -/
theorem Sound.empty (future : Option ℕ) : Sound w ⟨future, none, none⟩ :=
  ⟨fun _ h ↦ absurd h (by simp), fun _ h ↦ absurd h (by simp)⟩

/-- The invariant of all runs. -/
structure Inv (w : World) : Prop where
  /-- All objects are as they may be. -/
  sound : ∀ x j, w.objects x = some j → Sound w j
  /-- A thread belongs to one object at most. -/
  owner : ∀ x y t, w.Owns x t → w.Owns y t → x = y
  /-- A thread that belongs to an object was not ended. -/
  kept : ∀ x t, w.Owns x t → w.ended.count t = 0
  /-- A thread that belongs to none was ended once. -/
  gone : ∀ t, t < w.nthreads → (∀ x, ¬ w.Owns x t) → w.ended.count t = 1
  /-- A thread that was not started was not ended. -/
  fresh : ∀ t, w.nthreads ≤ t → w.ended.count t = 0

theorem inv_init : Inv init where
  sound x j h := by simp [init] at h
  owner x y t h := by simp [Owns, init] at h
  kept x t h := by simp [Owns, init] at h
  gone t h := by simp [init] at h
  fresh t _ := rfl

namespace Inv

/-- Making a state ready concerns nobody's ownership. -/
theorem makeReady (hi : Inv w) (s : ℕ) : Inv (w.makeReady s) where
  sound x j h := by
    refine ⟨fun s' hs' ↦ ⟨((hi.sound x j h).signal s' hs').1, ?_⟩, (hi.sound x j h).thread⟩
    have := ((hi.sound x j h).signal s' hs').2
    by_cases hs : s' = s
    · subst hs
      simpa [World.makeReady, setShared] using this
    · simpa [World.makeReady, setShared, Function.update_of_ne hs] using this
  owner := hi.owner
  kept := hi.kept
  gone := hi.gone
  fresh := hi.fresh

theorem abandon (hi : Inv w) (signal : Option ℕ) : Inv (w.abandon signal) := by
  cases signal with
  | none => exact hi
  | some s => exact hi.makeReady s

/-- An object without a thread may be put where there is none. -/
theorem put (hi : Inv w) (hx : ∀ t, ¬ w.Owns x t)
    (ho : ∀ j, o = some j → j.job = none ∧ Sound w j) : Inv (w.put x o) := by
  have hown : ∀ y t, (w.put x o).Owns y t ↔ w.Owns y t := fun y t ↦
    owns_put_idle hx fun j hj ↦ (ho j hj).1
  refine ⟨fun y j h ↦ ?_, ?_, ?_, ?_, hi.fresh⟩
  · by_cases hy : y = x
    · subst hy
      exact (ho j (by simpa using h)).2.put
    · exact (hi.sound y j (by simpa [Function.update_of_ne hy] using h)).put
  · simp only [hown]
    exact hi.owner
  · simp only [hown]
    exact hi.kept
  · simp only [hown]
    exact hi.gone

/-- A thread is ended, and its object gives it up. -/
theorem release {j : ManagedJob} (hi : Inv w) (hx : w.objects x = some j) (hj : j.job = some t) :
    Inv ((w.endThread t).put x (some { j with job := none })) := by
  have hxt : w.Owns x t := ⟨j, hx, hj⟩
  have hlt := ((hi.sound x j hx).thread t hj).1
  have hself : ∀ t', ¬ ((w.endThread t).put x (some { j with job := none })).Owns x t' := by
    intro t'
    rw [owns_put_self]
    simp
  have hown : ∀ y t', ((w.endThread t).put x (some { j with job := none })).Owns y t' →
      y ≠ x ∧ t' ≠ t ∧ w.Owns y t' := by
    intro y t' h
    have hne : y ≠ x := by rintro rfl; exact hself t' h
    rw [owns_put_of_ne hne] at h
    refine ⟨hne, ?_, h⟩
    rintro rfl
    exact hne (hi.owner y x t' h hxt)
  have hcount : ∀ t', t' ≠ t → (w.ended ++ [t]).count t' = w.ended.count t' := by
    intro t' h
    rw [List.count_append, List.count_singleton, if_neg (by simpa using Ne.symm h), Nat.add_zero]
  refine ⟨fun y k h ↦ ?_, fun y z t' hy hz ↦ ?_, fun y t' h ↦ ?_, fun t' hlt' h ↦ ?_,
    fun t' hge ↦ ?_⟩
  · by_cases hy : y = x
    · subst hy
      obtain rfl : { j with job := none } = k := by simpa using h
      exact ⟨(hi.sound y j hx).signal, fun _ h ↦ absurd h (by simp)⟩
    · obtain ⟨h1, h2⟩ := hi.sound y k (by simpa [Function.update_of_ne hy] using h)
      exact ⟨h1, h2⟩
  · exact hi.owner y z t' (hown y t' hy).2.2 (hown z t' hz).2.2
  · obtain ⟨-, hne, h'⟩ := hown y t' h
    exact (hcount t' hne).trans (hi.kept y t' h')
  · by_cases ht : t' = t
    · subst ht
      have := hi.kept x t' hxt
      show (w.ended ++ [t']).count t' = 1
      rw [List.count_append, this]
      simp
    · refine (hcount t' ht).trans (hi.gone t' hlt' fun y hy ↦ ?_)
      by_cases hyx : y = x
      · subst hyx
        obtain ⟨j', hj', ht'⟩ := hy
        rw [hx, Option.some.injEq] at hj'
        subst hj'
        rw [hj, Option.some.injEq] at ht'
        exact ht ht'.symm
      · exact h y ((owns_put_of_ne hyx).mpr hy)
  · have ht : t' ≠ t := by
      have : w.nthreads ≤ t' := hge
      omega
    exact (hcount t' ht).trans (hi.fresh t' hge)

/-- An object is moved to where there is no thread. -/
theorem move {k : ManagedJob} (hi : Inv w) (hxy : x ≠ y) (hy : w.objects y = some k)
    (hx : ∀ t, ¬ w.Owns x t) :
    Inv ((w.put x (some k)).put y (some ⟨none, none, none⟩)) := by
  -- what belonged to `y` belongs to `x`
  have hown : ∀ z t, ((w.put x (some k)).put y (some ⟨none, none, none⟩)).Owns z t ↔
      z ≠ y ∧ w.Owns (if z = x then y else z) t := by
    intro z t
    by_cases hzy : z = y
    · subst hzy
      rw [owns_put_self]
      simp
    rw [owns_put_of_ne hzy]
    by_cases hzx : z = x
    · subst hzx
      rw [owns_put_self]
      simp [Owns, hy, hzy]
    · rw [owns_put_of_ne hzx]
      simp [hzx, hzy]
  refine ⟨fun z j h ↦ ?_, fun z z' t h h' ↦ ?_, fun z t h ↦ ?_, fun t hlt h ↦ ?_, hi.fresh⟩
  · by_cases hzy : z = y
    · subst hzy
      obtain rfl : ⟨none, none, none⟩ = j := by simpa using h
      exact .empty none
    · have h' : (w.put x (some k)).objects z = some j := by
        simpa [Function.update_of_ne hzy] using h
      by_cases hzx : z = x
      · subst hzx
        obtain rfl : k = j := by simpa using h'
        exact (hi.sound y k hy).put.put
      · exact (hi.sound z j (by simpa [Function.update_of_ne hzx] using h')).put.put
  · rw [hown] at h h'
    have := hi.owner _ _ t h.2 h'.2
    split at this <;> split at this
    · rename_i h1 h2
      exact h1.trans h2.symm
    · exact absurd this.symm h'.1
    · exact absurd this h.1
    · exact this
  · exact hi.kept _ t ((hown z t).mp h).2
  · refine hi.gone t hlt fun z hz ↦ ?_
    by_cases hzy : z = y
    · subst hzy
      exact h x ((hown x t).mpr ⟨hxy, by simpa using hz⟩)
    · by_cases hzx : z = x
      · subst hzx
        exact hx t hz
      · exact h z ((hown z t).mpr ⟨hzy, by simpa [hzx] using hz⟩)

end Inv

/-! ## New promises and threads -/

/-- The world with a new promise whose future was retrieved. -/
def World.promised (w : World) : World :=
  { w.setShared w.nshared ⟨true, false⟩ with nshared := w.nshared + 1 }

/-- A new promise hands out its future. -/
theorem getFuture_newPromise (w : World) :
    w.newPromise.2.getFuture (some w.newPromise.1) = pure (w.nshared, w.promised) := by
  simp [newPromise, getFuture, setShared, promised]

theorem Inv.promised (hi : Inv w) : Inv w.promised := by
  refine ⟨fun x j h ↦ ⟨fun s hs ↦ ?_, (hi.sound x j h).thread⟩, hi.owner, hi.kept, hi.gone,
    hi.fresh⟩
  obtain ⟨h1, h2⟩ := (hi.sound x j h).signal s hs
  refine ⟨Nat.lt_succ_of_lt h1, ?_⟩
  simpa [World.promised, setShared, Function.update_of_ne (Nat.ne_of_lt h1)] using h2

/-- An object gets a new thread, which polls the object's own future. -/
theorem Inv.start {s : ℕ} (hi : Inv w) (hx : w.objects x = none)
    (hs : s < w.nshared ∧ (w.shared s).retrieved = true) :
    Inv ((w.startThread s).2.put x (some ⟨some s, some s, some (w.startThread s).1⟩)) := by
  have hnot : ∀ y t, w.Owns y t → t < w.nthreads := fun y t ⟨j, hj, ht⟩ ↦
    ((hi.sound y j hj).thread t ht).1
  have hown : ∀ y t, ((w.startThread s).2.put x
      (some ⟨some s, some s, some (w.startThread s).1⟩)).Owns y t ↔
      if y = x then t = w.nthreads else w.Owns y t := by
    intro y t
    split
    · rename_i h
      subst h
      rw [owns_put_self]
      simp [startThread, eq_comm]
    · rename_i h
      rw [owns_put_of_ne h]
      rfl
  refine ⟨fun y j h ↦ ?_, fun y z t hy hz ↦ ?_, fun y t h ↦ ?_, fun t hlt h ↦ ?_,
    fun t hge ↦ hi.fresh t (Nat.le_of_succ_le hge)⟩
  · by_cases hy : y = x
    · subst hy
      obtain rfl : ⟨some s, some s, some (w.startThread s).1⟩ = j := by simpa using h
      refine ⟨fun s' hs' ↦ ?_, fun t ht ↦ ?_⟩
      · obtain rfl : s = s' := by simpa using hs'
        exact hs
      · obtain rfl : w.nthreads = t := by simpa [startThread] using ht
        simp [startThread, World.put]
    · have hsound := hi.sound y j (by simpa [Function.update_of_ne hy, startThread] using h)
      refine ⟨hsound.signal, fun t ht ↦ ?_⟩
      obtain ⟨h1, h2, h3⟩ := hsound.thread t ht
      have hpolls : Function.update w.polls w.nthreads s t = w.polls t :=
        Function.update_of_ne (Nat.ne_of_lt h1) _ _
      exact ⟨Nat.lt_succ_of_lt h1, by simpa [startThread, World.put, hpolls] using h2,
        by simpa [startThread, World.put, hpolls] using h3⟩
  · rw [hown] at hy hz
    split at hy <;> split at hz
    · rename_i h1 h2
      exact h1.trans h2.symm
    · have := hnot z t hz
      omega
    · have := hnot y t hy
      omega
    · exact hi.owner y z t hy hz
  · rw [hown] at h
    split at h
    · exact hi.fresh t (by omega)
    · exact hi.kept y t h
  · have hne : t ≠ w.nthreads := by
      rintro rfl
      exact h x ((hown x _).mpr (by simp))
    have hlt' : t < w.nthreads + 1 := hlt
    refine hi.gone t (by omega) fun y hy ↦ ?_
    have hyx : y ≠ x := by
      rintro rfl
      exact not_owns_of_none hx t hy
    exact h y ((hown y t).mpr (by simpa [hyx] using hy))

/-! ## What the operations do -/

/-- The object's thread is still joinable, but was told to stop before. -/
def World.Told (w : World) (x : ℕ) : Prop :=
  ∃ t, w.Owns x t ∧ (w.shared (w.polls t)).ready = true

variable {j k : ManagedJob}

theorem object_eq (hx : w.objects x = some j) : w.object x = pure j := by rw [object, hx]

theorem told_iff (hx : w.objects x = some j) (hj : j.job = some t) :
    w.Told x ↔ (w.shared (w.polls t)).ready = true := by
  constructor
  · rintro ⟨t', ⟨j', hj', ht'⟩, h⟩
    rw [hx, Option.some.injEq] at hj'
    subst hj'
    rw [hj, Option.some.injEq] at ht'
    rwa [ht']
  · exact fun h ↦ ⟨t, ⟨j, hx, hj⟩, h⟩

theorem not_owns_of_idle (hx : w.objects x = some j) (hj : j.job = none) (t : ℕ) :
    ¬ w.Owns x t := by
  rintro ⟨j', hj', ht⟩
  rw [hx, Option.some.injEq] at hj'
  subst hj'
  rw [hj] at ht
  exact absurd ht (by simp)

theorem not_told_of_idle (hx : w.objects x = some j) (hj : j.job = none) : ¬ w.Told x :=
  fun h ↦ h.elim fun t ht ↦ not_owns_of_idle hx hj t ht.1

namespace Inv

/-- Telling a thread to stop works once. -/
theorem setValue_told (hi : Inv w) (hx : w.objects x = some j) (hj : j.job = some t)
    (h : w.Told x) : w.setValue j.exitSignal = .fail (.futureError .promiseAlreadySatisfied) := by
  rw [((hi.sound x j hx).thread t hj).2.1, setValue, if_pos ((told_iff hx hj).mp h)]

theorem setValue_not_told (hi : Inv w) (hx : w.objects x = some j) (hj : j.job = some t)
    (h : ¬ w.Told x) : w.setValue j.exitSignal = pure (w.makeReady (w.polls t)) := by
  rw [((hi.sound x j hx).thread t hj).2.1, setValue, if_neg fun hr ↦ h ((told_iff hx hj).mpr hr)]

end Inv

theorem construct_eq (hx : w.objects x = none) :
    construct x w = pure (w.promised.put x (some ⟨some w.nshared, some w.nshared, none⟩)) := by
  rw [construct, if_neg (by simp [hx])]
  show w.newPromise.2.getFuture (some w.newPromise.1) >>= _ = _
  rw [getFuture_newPromise]
  rfl

theorem constructJob_eq (hx : w.objects x = none) :
    constructJob x w = pure ((w.promised.startThread w.nshared).2.put x
      (some ⟨some w.nshared, some w.nshared, some (w.promised.startThread w.nshared).1⟩)) := by
  rw [constructJob, if_neg (by simp [hx])]
  show w.newPromise.2.getFuture (some w.newPromise.1) >>= _ = _
  rw [getFuture_newPromise]
  rfl

/-- **Move construction always fails**: the promise it takes over has handed out its future. -/
theorem moveConstruct_eq (hi : Inv w) (hx : w.objects x = none) (hy : w.objects y = some k) :
    ∃ e, moveConstruct x y w = .fail (.futureError e) := by
  rw [moveConstruct, if_neg (by simp [hx]), object_eq hy, Run.pure_bind]
  cases hs : k.exitSignal with
  | none => exact ⟨.noState, by simp only [getFuture, Run.fail_bind]⟩
  | some s =>
    have hr : ((w.put y (some ⟨k.exitFuture, none, none⟩)).shared s).retrieved = true :=
      ((hi.sound y k hy).signal s hs).2
    exact ⟨.futureAlreadyRetrieved, by simp only [getFuture, if_pos hr, Run.fail_bind]⟩

/-- `stop` fails for a thread that was told to stop. -/
theorem stop_eq (hi : Inv w) (hx : w.objects x = some j) :
    (w.Told x → stop x w = .fail (.futureError .promiseAlreadySatisfied)) ∧
      (¬ w.Told x → ∃ w', stop x w = pure w' ∧ Inv w') := by
  rw [stop, object_eq hx, Run.pure_bind, ManagedJob.joinable]
  cases hj : j.job with
  | none => exact ⟨fun h ↦ absurd h (not_told_of_idle hx hj), fun _ ↦ ⟨w, by simp, hi⟩⟩
  | some t =>
    rw [if_pos (by simp)]
    exact ⟨hi.setValue_told hx hj,
      fun h ↦ ⟨_, hi.setValue_not_told hx hj h, hi.makeReady _⟩⟩

/-- `join` returns if there is no thread or it was told to stop. -/
theorem join_eq (hi : Inv w) (hx : w.objects x = some j)
    (hready : ∀ t, j.job = some t → (w.shared (w.polls t)).ready = true) :
    ∃ w', join x w = pure w' ∧ Inv w' ∧ w'.objects x = some { j with job := none } := by
  rw [join, object_eq hx, Run.pure_bind]
  cases hj : j.job with
  | none =>
    refine ⟨w, rfl, hi, ?_⟩
    rw [hx, ← hj]
  | some t =>
    simp only [joinThread, if_pos (hready t hj), Run.pure_bind]
    exact ⟨_, rfl, hi.release hx hj, by simp⟩

/-- Otherwise it waits. -/
theorem join_blocked (hx : w.objects x = some j) (hj : j.job = some t)
    (h : ¬ (w.shared (w.polls t)).ready = true) : join x w = .fail .blocked := by
  rw [join, object_eq hx, Run.pure_bind, hj]
  simp only [joinThread, if_neg h, Run.fail_bind]

/-- The destructor tells a thread to stop, and fails if it was told before. -/
theorem destroy_eq (hi : Inv w) (hx : w.objects x = some j) :
    (w.Told x → destroy x w = .fail (.futureError .promiseAlreadySatisfied)) ∧
      (¬ w.Told x → ∃ w', destroy x w = pure w' ∧ Inv w') := by
  -- once the thread is joined the object can go
  have hjoin : ∀ w₁, Inv w₁ → w₁.objects x = some j →
      (∀ t, j.job = some t → (w₁.shared (w₁.polls t)).ready = true) →
      ∃ w', (join x w₁ >>= fun w ↦ pure ((w.abandon j.exitSignal).put x none)) = pure w' ∧
        Inv w' := by
    intro w₁ hi₁ hx₁ hready
    obtain ⟨w₂, hw₂, hi₂, hx₂⟩ := join_eq hi₁ hx₁ hready
    rw [hw₂, Run.pure_bind]
    refine ⟨_, rfl, (hi₂.abandon _).put ?_ (by simp)⟩
    exact not_owns_of_idle (by rw [objects_abandon]; exact hx₂) rfl
  rw [destroy, object_eq hx, Run.pure_bind, ManagedJob.joinable]
  cases hj : j.job with
  | none =>
    refine ⟨fun h ↦ absurd h (not_told_of_idle hx hj), fun _ ↦ ?_⟩
    rw [if_neg (by simp), Run.pure_bind]
    exact hjoin w hi hx (by simp [hj])
  | some t =>
    have hfuture := ((hi.sound x j hx).thread t hj).2.2
    rw [if_pos (by simp [hfuture])]
    refine ⟨fun h ↦ ?_, fun h ↦ ?_⟩
    · rw [hi.setValue_told hx hj h, Run.fail_bind]
    · rw [hi.setValue_not_told hx hj h, Run.pure_bind]
      refine hjoin _ (hi.makeReady _) hx fun t' ht' ↦ ?_
      obtain rfl : t = t' := by rwa [hj, Option.some.injEq] at ht'
      simp [makeReady, setShared]

/-- Move assignment stops and detaches the thread it overwrites, and fails if that thread was told
to stop before. -/
theorem moveAssign_eq (hi : Inv w) (hx : w.objects x = some j) (hy : w.objects y = some k)
    (hxy : x ≠ y) :
    (w.Told x → moveAssign x y w = .fail (.futureError .promiseAlreadySatisfied)) ∧
      (¬ w.Told x → ∃ w', moveAssign x y w = pure w' ∧ Inv w') := by
  have hmove : ∀ w₁, Inv w₁ → (∀ t, ¬ w₁.Owns x t) → w₁.objects y = some k →
      Inv (((w₁.abandon j.exitSignal).put x (some k)).put y (some ⟨none, none, none⟩)) := by
    intro w₁ hi₁ hidle hy₁
    refine (hi₁.abandon j.exitSignal).move hxy (by rw [objects_abandon]; exact hy₁) fun t ht ↦ ?_
    rw [Owns, objects_abandon] at ht
    exact hidle t ht
  rw [moveAssign, object_eq hx, Run.pure_bind, object_eq hy, Run.pure_bind, if_neg hxy]
  cases hj : j.job with
  | none =>
    refine ⟨fun h ↦ absurd h (not_told_of_idle hx hj), fun _ ↦ ?_⟩
    exact ⟨_, Run.pure_bind _ _, hmove w hi (not_owns_of_idle hx hj) hy⟩
  | some t =>
    have hvalid : j.exitFuture.isSome = true := by simp [((hi.sound x j hx).thread t hj).2.2]
    simp only [if_pos hvalid]
    refine ⟨fun h ↦ ?_, fun h ↦ ?_⟩
    · rw [hi.setValue_told hx hj h, Run.fail_bind]
    · rw [hi.setValue_not_told hx hj h, Run.pure_bind]
      have hrel := (hi.makeReady (w.polls t)).release (x := x) hx hj
      refine ⟨_, rfl, hmove _ hrel (not_owns_of_idle (j := { j with job := none }) ?_ rfl) ?_⟩
      · simp
      · simp [Function.update_of_ne (Ne.symm hxy), hy]

/-! ## Runs -/

/-- **What an operation trips over**: the state before it, in which it throws `std::future_error`.
An object is move-constructed, or a thread that was told to stop is told once more. -/
def Trips (w : World) : Op → Prop
  | .moveConstruct x y => w.objects x = none ∧ (w.objects y).isSome = true
  | .moveAssign x y => x ≠ y ∧ (w.objects y).isSome = true ∧ w.Told x
  | .stop x => w.Told x
  | .destroy x => w.Told x
  | _ => False

theorem object_fails (hx : w.objects x = none) : w.object x = .fail .undefined := by
  rw [object, hx]

/-- An operation that returns does not fail. -/
theorem spec_of_pure {r : Run Stop World} {P : Prop} (hP : ¬ P) (h : ∃ w', r = pure w' ∧ Inv w') :
    ((∃ e, r.Fails (.futureError e)) ↔ P) ∧ ∀ w', r.Returns w' → Inv w' := by
  obtain ⟨w', rfl, hi⟩ := h
  exact ⟨iff_of_false (by simp) hP, fun w'' hw ↦ Run.returns_pure.mp hw ▸ hi⟩

/-- An operation that throws does not return. -/
theorem spec_of_throw {r : Run Stop World} {P : Prop} {e : FutureErrc} (hP : P)
    (h : r = .fail (.futureError e)) :
    ((∃ e, r.Fails (.futureError e)) ↔ P) ∧ ∀ w', r.Returns w' → Inv w' := by
  subst h
  exact ⟨iff_of_true ⟨e, by simp⟩ hP, fun w' hw ↦ absurd hw Run.returns_fail⟩

/-- Nor does one that stops for another reason. -/
theorem spec_of_fail {r : Run Stop World} {P : Prop} {e : Stop} (hP : ¬ P)
    (he : ∀ e', e ≠ .futureError e') (h : r = .fail e) :
    ((∃ e, r.Fails (.futureError e)) ↔ P) ∧ ∀ w', r.Returns w' → Inv w' := by
  subst h
  exact ⟨iff_of_false (by simpa using he) hP, fun w' hw ↦ absurd hw Run.returns_fail⟩

/-- One that tells a thread to stop throws exactly if the thread was told before. -/
theorem spec_of_told {r : Run Stop World} {e : FutureErrc}
    (h : (w.Told x → r = .fail (.futureError e)) ∧
      (¬ w.Told x → ∃ w', r = pure w' ∧ Inv w')) :
    ((∃ e, r.Fails (.futureError e)) ↔ w.Told x) ∧ ∀ w', r.Returns w' → Inv w' := by
  by_cases htold : w.Told x
  · exact spec_of_throw htold (h.1 htold)
  · exact spec_of_pure htold (h.2 htold)

theorem not_told_of_none (hx : w.objects x = none) : ¬ w.Told x :=
  fun h ↦ h.elim fun t ht ↦ not_owns_of_none hx t ht.1

/-- **One operation**: in a state of a run it throws exactly if it trips, and otherwise it keeps the
invariant, if it ends at all. -/
theorem exec_spec (hi : Inv w) (op : Op) :
    ((∃ e, (exec op w).Fails (.futureError e)) ↔ Trips w op) ∧
      ∀ w', (exec op w).Returns w' → Inv w' := by
  have hundef : ∀ e, Stop.undefined ≠ .futureError e := by simp
  have hnew : w.nshared < w.promised.nshared ∧ (w.promised.shared w.nshared).retrieved = true :=
    ⟨Nat.lt_succ_self _, by simp [World.promised, setShared]⟩
  cases op with
  | construct x =>
    cases hx : w.objects x with
    | some j => exact spec_of_fail (by simp [Trips]) hundef (by simp [exec, construct, hx])
    | none =>
      refine spec_of_pure (by simp [Trips]) ⟨_, construct_eq hx, ?_⟩
      refine hi.promised.put (not_owns_of_none hx) fun j hj ↦ ?_
      obtain rfl := Option.some.inj hj
      refine ⟨rfl, fun s hs ↦ ?_, fun t ht ↦ absurd ht (by simp)⟩
      obtain rfl : w.nshared = s := by simpa using hs
      exact hnew
  | constructJob x =>
    cases hx : w.objects x with
    | some j => exact spec_of_fail (by simp [Trips]) hundef (by simp [exec, constructJob, hx])
    | none =>
      exact spec_of_pure (by simp [Trips]) ⟨_, constructJob_eq hx, hi.promised.start hx hnew⟩
  | moveConstruct x y =>
    cases hx : w.objects x with
    | some j =>
      exact spec_of_fail (by simp [Trips, hx]) hundef (by simp [exec, moveConstruct, hx])
    | none =>
      cases hy : w.objects y with
      | none =>
        refine spec_of_fail (by simp [Trips, hy]) hundef ?_
        simp only [exec, moveConstruct, hx, Option.isSome_none, Bool.false_eq_true, if_false,
          object_fails hy, Run.fail_bind]
      | some k =>
        obtain ⟨e, he⟩ := moveConstruct_eq hi hx hy
        exact spec_of_throw ⟨hx, by simp [hy]⟩ he
  | moveAssign x y =>
    cases hx : w.objects x with
    | none =>
      refine spec_of_fail (fun h ↦ not_told_of_none hx h.2.2) hundef ?_
      simp only [exec, moveAssign, object_fails hx, Run.fail_bind]
    | some j =>
      cases hy : w.objects y with
      | none =>
        refine spec_of_fail (by simp [Trips, hy]) hundef ?_
        simp only [exec, moveAssign, object_eq hx, object_fails hy, Run.pure_bind, Run.fail_bind]
      | some k =>
        by_cases hxy : x = y
        · refine spec_of_pure (fun h ↦ h.1 hxy) ⟨w, ?_, hi⟩
          simp only [exec, moveAssign, object_eq hx, object_eq hy, Run.pure_bind, if_pos hxy]
        · obtain ⟨h1, h2⟩ := moveAssign_eq hi hx hy hxy
          by_cases htold : w.Told x
          · exact spec_of_throw ⟨hxy, by simp [hy], htold⟩ (h1 htold)
          · exact spec_of_pure (fun h ↦ htold h.2.2) (h2 htold)
  | stop x =>
    cases hx : w.objects x with
    | none =>
      exact spec_of_fail (not_told_of_none hx) hundef
        (by simp only [exec, stop, object_fails hx, Run.fail_bind])
    | some j => exact spec_of_told (stop_eq hi hx)
  | join x =>
    cases hx : w.objects x with
    | none =>
      exact spec_of_fail (by simp [Trips]) hundef
        (by simp only [exec, join, object_fails hx, Run.fail_bind])
    | some j =>
      by_cases hready : ∀ t, j.job = some t → (w.shared (w.polls t)).ready = true
      · obtain ⟨w', hw, hi', -⟩ := join_eq hi hx hready
        exact spec_of_pure (by simp [Trips]) ⟨w', hw, hi'⟩
      · simp only [not_forall] at hready
        obtain ⟨t, ht, hr⟩ := hready
        exact spec_of_fail (by simp [Trips]) (by simp) (join_blocked hx ht hr)
  | destroy x =>
    cases hx : w.objects x with
    | none =>
      exact spec_of_fail (not_told_of_none hx) hundef
        (by simp only [exec, destroy, object_fails hx, Run.fail_bind])
    | some j => exact spec_of_told (destroy_eq hi hx)

/-- No operation of the run trips: the condition is about the state before each operation. -/
def NoTrip : List Op → World → Prop
  | [], _ => True
  | op :: ops, w => ¬ Trips w op ∧ ∀ w', (exec op w).Returns w' → NoTrip ops w'

/-- The run throws nothing, and if all objects are gone at its end, every thread that was started
was joined or detached exactly once. -/
def Clean (ops : List Op) (w : World) : Prop :=
  (∀ e, ¬ (run ops w).Fails (.futureError e)) ∧
    ∀ w', (run ops w).Returns w' → (∀ x, w'.objects x = none) →
      ∀ t, t < w'.nthreads → w'.ended.count t = 1

theorem run_inv {ops : List Op} (hi : Inv w) (h : (run ops w).Returns w') : Inv w' := by
  induction ops generalizing w with
  | nil => exact Run.returns_pure.mp h ▸ hi
  | cons op ops ih =>
    obtain ⟨w₁, hw₁, h⟩ := Run.returns_bind.mp h
    exact ih ((exec_spec hi op).2 w₁ hw₁) h

/-- A run throws exactly if one of its operations trips. -/
theorem run_throws_iff {ops : List Op} (hi : Inv w) :
    (∀ e, ¬ (run ops w).Fails (.futureError e)) ↔ NoTrip ops w := by
  induction ops generalizing w with
  | nil => simp [run, NoTrip]
  | cons op ops ih =>
    obtain ⟨hspec, hkeep⟩ := exec_spec hi op
    simp only [run, NoTrip, Run.fails_bind, not_or, not_exists, not_and]
    constructor
    · intro h
      refine ⟨fun htrips ↦ ?_, fun w' hw' ↦ (ih (hkeep w' hw')).mp fun e ↦ (h e).2 w' hw'⟩
      obtain ⟨e, he⟩ := hspec.mpr htrips
      exact (h e).1 he
    · rintro ⟨hno, h⟩ e
      exact ⟨fun he ↦ hno (hspec.mp ⟨e, he⟩),
        fun w' hw' ↦ (ih (hkeep w' hw')).mpr (h w' hw') e⟩

/-- **When a run is clean**: exactly when no object is move-constructed, and no thread is told to
stop — by `stop`, by the destructor of its object, or by an assignment to it — that is still
joinable and was told to stop before. -/
theorem clean_iff_noTrip (ops : List Op) : Clean ops init ↔ NoTrip ops init := by
  refine ⟨fun h ↦ (run_throws_iff inv_init).mp h.1,
    fun h ↦ ⟨(run_throws_iff inv_init).mpr h, fun w' hw' hgone t ht ↦ ?_⟩⟩
  exact (run_inv inv_init hw').gone t ht fun x ↦ not_owns_of_none (hgone x) t

/-- Stopping an object and leaving its scope, without joining it. -/
theorem not_clean_stop_destroy : ¬ Clean [.constructJob 0, .stop 0, .destroy 0] init := by
  intro h
  exact h.1 .promiseAlreadySatisfied ⟨0, rfl⟩

end Jobs
end Cppkg
