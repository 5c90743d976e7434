import Cppkg.Jobs.Sequence
import Mathlib.Tactic.Common

/-!
# Jobs in line

What a `Sequence` does with its jobs, without the lock, the notifications, and the places its
threads are at.  A job is attached, waits in line until it comes to the front, has its turn, and
leaves; or it is dropped while it waits.

`Line.Next` are the steps of such a line and `Line.Inv` is what they keep: jobs come to the front in
the order they were attached, and only the one in front is ever called.
-/

set_option autoImplicit false

namespace Cppkg
namespace Jobs

/-- The job was called. -/
def Job.begun (a : Job) : Bool := a.executing || a.completed

theorem Job.not_of_ready {a : Job} (h : a.ready = true) :
    a ≠ .packaged ∧ a ≠ .spawned ∧ a.executing = false := by
  cases a <;> simp_all [Job.ready, Job.executing]

/-- Jobs in line. -/
structure Line where
  /-- How many jobs were attached. -/
  attached : ℕ
  jobs : ℕ → Job
  /-- The jobs in the queue. -/
  queue : List ℕ
  /-- The job that was attached last. -/
  last : Option ℕ
  /-- The job in front, whose turn it is. -/
  front : Option ℕ
  /-- The job that was attached and is not in the queue yet. -/
  hand : Option ℕ
  /-- The jobs that were called, in the order of their first calls. -/
  started : List ℕ

namespace Line

open Relation

/-- Nothing was attached. -/
def init : Line := ⟨0, fun _ ↦ .packaged, [], none, none, none, []⟩

/-- The jobs that wait for their turn. -/
def waiting (l : Line) : List ℕ := l.queue ++ l.hand.toList

/-- The state of a job changes. -/
def setJob (l : Line) (j : ℕ) (a : Job) : Line := { l with jobs := Function.update l.jobs j a }

/-- All jobs in the queue are dropped. -/
def drop (l : Line) : Line :=
  { l with
    jobs := fun j ↦ if j ∈ l.queue then .ended .brokenPromise else l.jobs j
    queue := [] }

/-- What can happen to a line, if jobs are dropped only when `drops` allows it. -/
inductive Next (drops : Line → Prop) : Line → Line → Prop
  | attach (l : Line) (hl : l.hand = none) :
    Next drops l { l with
      attached := l.attached + 1, last := some l.attached, hand := some l.attached }
  | push (l : Line) (j : ℕ) (hl : l.hand = some j) :
    Next drops l { l with queue := l.queue ++ [j], hand := none }
  | take (l : Line) (j : ℕ) (q : List ℕ) (hl : l.front = none) (hq : l.queue = j :: q) :
    Next drops l { l with queue := q, front := some j }
  | spawn (l : Line) (j : ℕ) (hl : l.front = some j) (hj : l.jobs j = .packaged) :
    Next drops l (l.setJob j .spawned)
  | call (l : Line) (j : ℕ) (hj : l.jobs j = .spawned) :
    Next drops l { l.setJob j (.calling 0) with started := l.started ++ [j] }
  | advance (l : Line) (j : ℕ) (a : Job) (hj : (l.jobs j).executing = true)
    (ha : a.begun = true) : Next drops l (l.setJob j a)
  | leave (l : Line) (j : ℕ) (hl : l.front = some j) (hj : (l.jobs j).ready = true) :
    Next drops l { l with front := none }
  | drop (l : Line) (hl : drops l) : Next drops l l.drop

/-- What all lines keep to. -/
structure Inv (l : Line) : Prop where
  /-- Jobs are called in the order they were attached, and those waiting come later. -/
  sorted : (l.started ++ l.waiting).Pairwise (· < ·)
  /-- The one in front comes before those waiting, … -/
  front_lt : ∀ j, l.front = some j → ∀ k ∈ l.waiting, j < k
  /-- … and after those that were called before it. -/
  le_front : ∀ j, l.front = some j → ∀ i ∈ l.started, i ≤ j
  packaged : ∀ j ∈ l.waiting, l.jobs j = .packaged
  /-- A thread runs the one in front or none. -/
  thread : ∀ j, l.jobs j = .spawned ∨ (l.jobs j).executing = true → l.front = some j
  mem_started : ∀ j, j ∈ l.started ↔ (l.jobs j).begun = true
  /-- Nothing was done with a job that was not attached. -/
  fresh : ∀ j, l.attached ≤ j → l.jobs j = .packaged ∧ j ∉ l.waiting ∧ l.front ≠ some j
  /-- No job gets lost. -/
  rest : ∀ j < l.attached, l.jobs j = .packaged → j ∈ l.waiting ∨ l.front = some j
  last : ∀ j, l.last = some j ↔ j + 1 = l.attached
  /-- If any job waits, the last one does. -/
  last_waiting : ∀ j, l.last = some j → l.waiting ≠ [] → j ∈ l.waiting

theorem inv_init : Inv init := by
  constructor <;> simp [init, waiting, Job.executing, Job.begun, Job.completed]

variable {l l' : Line} {drops : Line → Prop} {j : ℕ} {a : Job}

/-! ## The invariant -/

theorem jobs_setJob (i : ℕ) : (l.setJob j a).jobs i = if i = j then a else l.jobs i :=
  Function.update_apply ..

theorem jobs_drop (i : ℕ) :
    l.drop.jobs i = if i ∈ l.queue then .ended .brokenPromise else l.jobs i := rfl

namespace Inv

/-- The one in front is not in the queue. -/
theorem front_not_mem (hi : Inv l) (hj : l.front = some j) : j ∉ l.queue :=
  fun h ↦ Nat.lt_irrefl j (hi.front_lt j hj j (List.mem_append_left _ h))

theorem waiting_lt (hi : Inv l) (hj : j ∈ l.waiting) : j < l.attached := by
  by_contra h
  exact (hi.fresh j (by omega)).2.1 hj

theorem started_lt (hi : Inv l) (hj : j ∈ l.started) : j < l.attached := by
  by_contra h
  rw [hi.mem_started, (hi.fresh j (by omega)).1] at hj
  exact absurd hj (by decide)

/-- A job is attached. -/
theorem attach (hi : Inv l) (hl : l.hand = none) :
    Inv { l with
      attached := l.attached + 1, last := some l.attached, hand := some l.attached } := by
  have hw : waiting { l with
      attached := l.attached + 1, last := some l.attached, hand := some l.attached } =
      l.waiting ++ [l.attached] := by
    simp [waiting, hl]
  constructor <;> try simp only [hw]
  case sorted =>
    rw [← List.append_assoc, List.pairwise_append]
    refine ⟨hi.sorted, List.pairwise_singleton _ _, fun i h j hj ↦ ?_⟩
    obtain rfl : j = l.attached := by simpa using hj
    rcases List.mem_append.mp h with h | h
    · exact hi.started_lt h
    · exact hi.waiting_lt h
  case front_lt =>
    intro j hj k hk
    rcases List.mem_append.mp hk with hk | hk
    · exact hi.front_lt j hj k hk
    · obtain rfl : k = l.attached := by simpa using hk
      by_contra h
      exact (hi.fresh j (by omega)).2.2 hj
  case le_front => exact hi.le_front
  case packaged =>
    intro j hj
    rcases List.mem_append.mp hj with hj | hj
    · exact hi.packaged j hj
    · obtain rfl : j = l.attached := by simpa using hj
      exact (hi.fresh _ (Nat.le_refl _)).1
  case thread => exact hi.thread
  case mem_started => exact hi.mem_started
  case fresh =>
    intro j hj
    obtain ⟨h1, h2, h3⟩ := hi.fresh j (by omega)
    exact ⟨h1, by simp [h2, Nat.ne_of_gt hj], h3⟩
  case rest =>
    intro j hj hp
    rcases Nat.lt_succ_iff_lt_or_eq.mp hj with hj | rfl
    · rcases hi.rest j hj hp with h | h
      · exact .inl (List.mem_append_left _ h)
      · exact .inr h
    · simp
  case last => simp [eq_comm]
  case last_waiting => simp

/-- The job that was attached joins the queue. -/
theorem push (hi : Inv l) (hl : l.hand = some j) :
    Inv { l with queue := l.queue ++ [j], hand := none } := by
  have hw : l.waiting = l.queue ++ [j] := by simp [waiting, hl]
  constructor <;> simp only [waiting, Option.toList_none, List.append_nil, ← hw]
  exacts [hi.sorted, hi.front_lt, hi.le_front, hi.packaged, hi.thread, hi.mem_started, hi.fresh,
    hi.rest, hi.last, hi.last_waiting]

/-- The first job of the queue has its turn. -/
theorem take {q : List ℕ} (hi : Inv l) (hl : l.front = none) (hq : l.queue = j :: q) :
    Inv { l with queue := q, front := some j } := by
  have hw : l.waiting = j :: (q ++ l.hand.toList) := by simp [waiting, hq]
  have hs := hi.sorted
  rw [hw, List.pairwise_append, List.pairwise_cons] at hs
  obtain ⟨hs, ⟨hj, hr⟩, hsr⟩ := hs
  have hp : l.jobs j = .packaged := hi.packaged j (by simp [hw])
  constructor <;> simp only [waiting, Option.some.injEq, forall_eq']
  case sorted =>
    exact List.pairwise_append.mpr ⟨hs, hr, fun i h k hk ↦ hsr i h k (List.mem_cons_of_mem _ hk)⟩
  case front_lt => exact hj
  case le_front => exact fun i h ↦ Nat.le_of_lt (hsr i h j List.mem_cons_self)
  case packaged => exact fun k hk ↦ hi.packaged k (hw ▸ List.mem_cons_of_mem _ hk)
  case thread =>
    intro k hk
    simpa [hl] using hi.thread k hk
  case mem_started => exact hi.mem_started
  case fresh =>
    intro k hk
    obtain ⟨h1, h2, -⟩ := hi.fresh k hk
    rw [hw, List.mem_cons, not_or] at h2
    exact ⟨h1, h2.2, by simpa using Ne.symm h2.1⟩
  case rest =>
    intro k hk hp
    rcases hi.rest k hk hp with h | h
    · rw [hw, List.mem_cons] at h
      exact h.symm.imp_right Eq.symm
    · simp [hl] at h
  case last => exact hi.last
  case last_waiting =>
    intro k hk hne
    have h := hi.last_waiting k hk (by simp [hw])
    rw [hw, List.mem_cons] at h
    refine h.resolve_left ?_
    -- the last job is not in front of another one
    rintro rfl
    obtain ⟨i, hi'⟩ := List.exists_mem_of_ne_nil _ hne
    have := hj i hi'
    have : i < l.attached := hi.waiting_lt (hw ▸ List.mem_cons_of_mem _ hi')
    have := (hi.last k).mp hk
    omega

/-- The job in front changes its state, and is called if that is how. -/
theorem setFront {st : List ℕ} (hi : Inv l) (hl : l.front = some j) (ha : a ≠ .packaged)
    (hbegun : j ∈ l.started → a.begun = true)
    (hst : ∀ k, k ∈ st ↔ k ∈ l.started ∨ k = j ∧ a.begun = true)
    (hsorted : (st ++ l.waiting).Pairwise (· < ·)) : Inv { l.setJob j a with started := st } := by
  have hjw : j ∉ l.waiting := fun h ↦ Nat.lt_irrefl _ (hi.front_lt j hl j h)
  constructor <;> simp only [waiting, setJob, Function.update_apply]
  case sorted => exact hsorted
  case front_lt => exact hi.front_lt
  case le_front =>
    intro k hk i h
    obtain rfl : j = k := by simpa [hl] using hk
    rcases (hst i).mp h with h | ⟨rfl, -⟩
    · exact hi.le_front j hl i h
    · exact Nat.le_refl i
  case packaged => exact fun k hk ↦ by rw [if_neg (by rintro rfl; exact hjw hk), hi.packaged k hk]
  case thread =>
    intro k hk
    split at hk
    · rename_i h
      rw [h, hl]
    · exact hi.thread k hk
  case mem_started =>
    intro k
    rw [hst]
    split
    · rename_i h
      subst h
      simpa using hbegun
    · rename_i h
      simpa [h] using hi.mem_started k
  case fresh =>
    intro k hk
    rw [if_neg (by rintro rfl; exact (hi.fresh _ hk).2.2 hl)]
    exact hi.fresh k hk
  case rest =>
    intro k hk hp
    split at hp
    · exact absurd hp ha
    · exact hi.rest k hk hp
  case last => exact hi.last
  case last_waiting => exact hi.last_waiting

/-- The thread of the job in front is started, … -/
theorem spawn (hi : Inv l) (hl : l.front = some j) (hj : l.jobs j = .packaged) :
    Inv (l.setJob j .spawned) :=
  hi.setFront hl (by simp) (by rw [hi.mem_started, hj]; exact id)
    (fun k ↦ ⟨.inl, fun h ↦ h.elim id fun h ↦ absurd h.2 (by decide)⟩) hi.sorted

/-- … calls the job, … -/
theorem call (hi : Inv l) (hj : l.jobs j = .spawned) :
    Inv { l.setJob j (.calling 0) with started := l.started ++ [j] } := by
  have hl := hi.thread j (.inl hj)
  have hjs : j ∉ l.started := by
    rw [hi.mem_started, hj]
    decide
  have hb : (Job.calling 0).begun = true := rfl
  refine hi.setFront hl (by simp) (fun _ ↦ hb) (by simp [hb]) ?_
  have hs := hi.sorted
  rw [List.pairwise_append] at hs
  rw [List.append_assoc, List.pairwise_append, List.singleton_append, List.pairwise_cons]
  refine ⟨hs.1, ⟨hi.front_lt j hl, hs.2.1⟩, fun i h k hk ↦ ?_⟩
  rcases List.mem_cons.mp hk with rfl | hk
  · exact Nat.lt_of_le_of_ne (hi.le_front k hl i h) (by rintro rfl; exact hjs h)
  · exact hs.2.2 i h k hk

/-- … and goes on with it. -/
theorem advance (hi : Inv l) (hj : (l.jobs j).executing = true) (ha : a.begun = true) :
    Inv (l.setJob j a) := by
  have hjs : j ∈ l.started := (hi.mem_started j).mpr (by simp [Job.begun, hj])
  refine hi.setFront (hi.thread j (.inr hj)) (by rintro rfl; exact absurd ha (by decide))
    (fun _ ↦ ha) ?_ hi.sorted
  exact fun k ↦ ⟨.inl, fun h ↦ h.elim id (by rintro ⟨rfl, -⟩; exact hjs)⟩

/-- The job in front leaves. -/
theorem leave (hi : Inv l) (hl : l.front = some j) (hj : (l.jobs j).ready = true) :
    Inv { l with front := none } where
  sorted := hi.sorted
  front_lt k hk := by simp at hk
  le_front k hk := by simp at hk
  packaged := hi.packaged
  thread k hk := by
    obtain rfl : j = k := by simpa [hl] using hi.thread k hk
    obtain ⟨-, h1, h2⟩ := Job.not_of_ready hj
    simp [h1, h2] at hk
  mem_started := hi.mem_started
  fresh k hk := ⟨(hi.fresh k hk).1, (hi.fresh k hk).2.1, by simp⟩
  rest k hk hp := by
    refine .inl ((hi.rest k hk hp).resolve_right fun h ↦ ?_)
    obtain rfl : j = k := by simpa [hl] using h
    exact (Job.not_of_ready hj).1 hp
  last := hi.last
  last_waiting := hi.last_waiting

/-- The queue is dropped. -/
theorem drop (hi : Inv l) : Inv l.drop := by
  have hsub : ∀ k ∈ l.drop.waiting, k ∈ l.waiting := fun k hk ↦ List.mem_append_right _ hk
  -- a job is dropped before it was called
  have hjobs : ∀ k, l.drop.jobs k = l.jobs k ∨
      l.jobs k = .packaged ∧ l.drop.jobs k = .ended .brokenPromise := by
    intro k
    by_cases hk : k ∈ l.queue
    · exact .inr ⟨hi.packaged k (List.mem_append_left _ hk), if_pos hk⟩
    · exact .inl (if_neg hk)
  have hnot : ∀ k ∈ l.drop.waiting, k ∉ l.queue := by
    intro k hk hq
    have hs := (List.pairwise_append.mp hi.sorted).2.1
    exact Nat.lt_irrefl k ((List.pairwise_append.mp hs).2.2 k hq k hk)
  constructor
  case sorted =>
    exact hi.sorted.sublist ((List.sublist_append_right _ _).append_left _)
  case front_lt => exact fun j hj k hk ↦ hi.front_lt j hj k (hsub k hk)
  case le_front => exact hi.le_front
  case packaged => exact fun k hk ↦ (if_neg (hnot k hk)).trans (hi.packaged k (hsub k hk))
  case thread =>
    intro k hk
    rcases hjobs k with h | ⟨-, h⟩
    · exact hi.thread k (h ▸ hk)
    · simp [h, Job.executing] at hk
  case mem_started =>
    intro k
    refine (hi.mem_started k).trans ?_
    rcases hjobs k with h | ⟨h, h'⟩
    · rw [h]
    · rw [h, h']
      decide
  case fresh =>
    intro k hk
    obtain ⟨h1, h2, h3⟩ := hi.fresh k hk
    have hq : k ∉ l.queue := fun h ↦ h2 (List.mem_append_left _ h)
    exact ⟨(if_neg hq).trans h1, fun h ↦ h2 (hsub k h), h3⟩
  case rest =>
    intro k hk hp
    have hq : k ∉ l.queue := fun h ↦ by simp [Line.drop, h] at hp
    rcases hi.rest k hk ((if_neg hq).symm.trans hp) with h | h
    · exact .inl ((List.mem_append.mp h).resolve_left hq)
    · exact .inr h
  case last => exact hi.last
  case last_waiting =>
    intro k hk hne
    obtain ⟨i, h⟩ := List.exists_mem_of_ne_nil _ hne
    refine (List.mem_append.mp (hi.last_waiting k hk (List.ne_nil_of_mem (hsub i h)))).resolve_left
      fun hq ↦ ?_
    have hs := (List.pairwise_append.mp hi.sorted).2.1
    have h1 : k < i := (List.pairwise_append.mp hs).2.2 k hq i h
    have h2 := hi.waiting_lt (hsub i h)
    have h3 := (hi.last k).mp hk
    omega

/-- If no promise was broken, and the job that was attached last has ended, all have. -/
theorem completed_of_ready (hi : Inv l) (hb : ∀ j, l.jobs j ≠ .ended .brokenPromise) {k : ℕ}
    (hk : l.last = some k) (hr : (l.jobs k).ready = true) (hj : j ≤ k) :
    (l.jobs j).completed = true := by
  have hkl := (hi.last k).mp hk
  have hks : k ∈ l.started := by
    rw [hi.mem_started]
    have := hb k
    cases h : l.jobs k with
    | ended o => cases o <;> simp_all [Job.begun, Job.completed]
    | _ => simp [h, Job.ready] at hr
  have hw : l.waiting = [] := by
    by_contra h
    exact (Job.not_of_ready hr).1 (hi.packaged k (hi.last_waiting k hk h))
  -- what has not ended is in front, and what was called before has ended
  have hfront : l.front = some j → (l.jobs j).ready = true := by
    intro h
    obtain rfl : k = j := Nat.le_antisymm (hi.le_front j h k hks) hj
    exact hr
  cases h : l.jobs j with
  | packaged =>
    have := hfront ((hi.rest j (by omega) h).resolve_left (by simp [hw]))
    simp [h, Job.ready] at this
  | spawned =>
    have := hfront (hi.thread j (.inl h))
    simp [h, Job.ready] at this
  | calling i =>
    have := hfront (hi.thread j (.inr (by simp [h, Job.executing])))
    simp [h, Job.ready] at this
  | polling i =>
    have := hfront (hi.thread j (.inr (by simp [h, Job.executing])))
    simp [h, Job.ready] at this
  | ended o => cases o <;> simp_all [Job.completed]

end Inv

/-! ## Runs -/

/-- One step keeps the invariant, … -/
theorem inv_next (h : Next drops l l') (hi : Inv l) : Inv l' := by
  cases h with
  | attach hl => exact hi.attach hl
  | push j hl => exact hi.push hl
  | take j q hl hq => exact hi.take hl hq
  | spawn j hl hj => exact hi.spawn hl hj
  | call j hj => exact hi.call hj
  | advance j a hj ha => exact hi.advance hj ha
  | leave j hl hj => exact hi.leave hl hj
  | drop hl => exact hi.drop

/-- … and so does a run. -/
theorem inv_run (h : ReflTransGen (Next drops) l l') (hi : Inv l) : Inv l' := by
  induction h with
  | refl => exact hi
  | tail _ h ih => exact inv_next h ih

/-- What has ended stays as it is, … -/
theorem ended_next {o : Outcome} (h : Next drops l l') (hi : Inv l) (hj : l.jobs j = .ended o) :
    l'.jobs j = .ended o := by
  have hset : ∀ k a, l.jobs k ≠ .ended o → (l.setJob k a).jobs j = .ended o := by
    intro k a hk
    rw [jobs_setJob, if_neg (by rintro rfl; exact hk hj), hj]
  cases h with
  | attach | push | take | leave => exact hj
  | spawn k hl hk => exact hset k _ (by simp [hk])
  | call k hk => exact hset k _ (by simp [hk])
  | advance k a hk ha => exact hset k a (by intro h; simp [h, Job.executing] at hk)
  | drop =>
    refine (if_neg fun h ↦ ?_).trans hj
    simp [hi.packaged j (List.mem_append_left _ h)] at hj

/-- … whatever happens. -/
theorem ended_run {o : Outcome} (h : ReflTransGen (Next drops) l l') (hi : Inv l)
    (hj : l.jobs j = .ended o) : l'.jobs j = .ended o := by
  induction h with
  | refl => exact hj
  | tail hr h ih => exact ended_next h (inv_run hr hi) ih

/-- A line that drops no job breaks no promise. -/
theorem not_broken_run (h : ReflTransGen (Next fun _ ↦ False) l l')
    (hl : ∀ j, l.jobs j ≠ .ended .brokenPromise) (j : ℕ) : l'.jobs j ≠ .ended .brokenPromise := by
  induction h with
  | refl => exact hl j
  | @tail l₁ l₂ _ h ih =>
    have hset : ∀ k a, a ≠ .ended .brokenPromise →
        (l₁.setJob k a).jobs j ≠ .ended .brokenPromise := by
      intro k a ha
      rw [jobs_setJob]
      split
      · exact ha
      · exact ih
    cases h with
    | attach | push | take | leave => exact ih
    | spawn k => exact hset k _ (by simp)
    | call k => exact hset k _ (by simp)
    | advance k a _ ha => exact hset k a (by rintro rfl; exact absurd ha (by decide))
    | drop h => exact h.elim

end Line
end Jobs
end Cppkg
