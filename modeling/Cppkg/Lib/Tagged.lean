import Cppkg.Lib.Steps
import Mathlib.Data.List.Count

/-!
# Objects that are the tags of their operations

Objects issue operations on a queue, each with itself as the tag.  A loop takes completions out of
the queue and calls the object that the tag names.  What an object does when it is called is a
`Behaviour`: it may issue operations, create objects, and delete itself.

An object that is deleted while the queue still holds an operation of its own leaves a tag that
names nothing.  None of the objects does if all are `Settled`.

What an object has been through can depend on what was outside when it was served; `served_inv` is
the invariant rule for that.  Objects that serve requests have a `Lifecycle`; objects that are
`Tidy` all go when the loop winds up, `woundUp`.
-/

set_option autoImplicit false

namespace Tagged

variable {Env σ ω ρ : Type}

/-! ## Objects -/

/-- An object: its members, the operations issued with it as the tag, those of them that have not
completed, and how often it was deleted. -/
structure Object (σ ω : Type) where
  state : σ
  issued : List ω
  pending : List ω
  deleted : ℕ
deriving DecidableEq

/-- What a call of an object does. -/
structure Reaction (σ ω : Type) where
  state : σ
  issues : List ω := []
  creates : List (Object σ ω) := []
  deletes : Bool := false

namespace Object

/-- A new object, whose constructor issues an operation. -/
def new (state : σ) (op : ω) : Object σ ω := ⟨state, [op], [op], 0⟩

/-- The `i`-th of the operations that have not completed does. -/
def complete (o : Object σ ω) (i : ℕ) : Object σ ω := { o with pending := o.pending.eraseIdx i }

/-- The object after a call. -/
def react (o : Object σ ω) (r : Reaction σ ω) : Object σ ω where
  state := r.state
  issued := o.issued ++ r.issues
  pending := o.pending ++ r.issues
  deleted := o.deleted + r.deletes.toNat

end Object

/-! ## The loop -/

/-- What the objects of a class do: what the completion of an operation leaves in the object, and
the two ways to call it.  Calls may use and change what is outside the objects. -/
structure Behaviour (Env σ ω ρ : Type) where
  receive : ω → ρ → σ → σ
  serve : Env → σ → Env × Reaction σ ω
  shutdown : σ → Reaction σ ω

/-- All objects ever created, and what is outside them. -/
structure Pool (Env σ ω : Type) where
  env : Env
  objects : List (Object σ ω)

/-- What can happen: the `i`-th operation of the `k`-th object completes and the object is served,
or is shut down in place of that; an object is shut down while its operations go on; something
outside the objects changes. -/
inductive Event (Env ρ : Type)
  | serve (k i : ℕ) (data : ρ)
  | discard (k i : ℕ)
  | shutdown (k : ℕ)
  | environment (env : Env)

/-- Nothing is shut down. -/
def Event.Serves : Event Env ρ → Prop
  | .serve _ _ _ | .environment _ => True
  | .discard _ _ | .shutdown _ => False

/-- The `k`-th object is served. -/
def Event.isServe (k : ℕ) : Event Env ρ → Bool
  | .serve j _ _ => j = k
  | _ => false

namespace Pool

/-- The `k`-th object, which is `o` now, is called. -/
def call (p : Pool Env σ ω) (k : ℕ) (o : Object σ ω) (env : Env) (r : Reaction σ ω) :
    Pool Env σ ω :=
  ⟨env, p.objects.set k (o.react r) ++ r.creates⟩

/-- The loop does not know whether an object is still there when it takes a completion from the
queue; who shuts one down while its operations go on has to. -/
def step (b : Behaviour Env σ ω ρ) (p : Pool Env σ ω) : Event Env ρ → Option (Pool Env σ ω)
  | .serve k i data => do
    let o ← p.objects[k]?
    let op ← o.pending[i]?
    let r := b.serve p.env (b.receive op data o.state)
    some (p.call k (o.complete i) r.1 r.2)
  | .discard k i => do
    let o ← p.objects[k]?
    let _ ← o.pending[i]?
    some (p.call k (o.complete i) p.env (b.shutdown o.state))
  | .shutdown k => do
    let o ← p.objects[k]?
    if o.deleted = 0 then some (p.call k o p.env (b.shutdown o.state)) else none
  | .environment env => some { p with env }

end Pool

/-! ## Objects that leave no tags behind -/

/-- The object is there, and one of its operations is outstanding; or it was deleted, and none
is. -/
def Object.Settled (o : Object σ ω) : Prop :=
  (o.deleted = 0 ∧ o.pending.length = 1) ∨ (o.deleted = 1 ∧ o.pending = [])

namespace Object

variable {o : Object σ ω} {op : ω} {i : ℕ} {r : Reaction σ ω}

theorem settled_new (state : σ) (op : ω) : (new state op).Settled := .inl ⟨rfl, rfl⟩

/-- The operation that completes was the only one. -/
theorem Settled.complete (h : o.Settled) (hop : o.pending[i]? = some op) :
    o.deleted = 0 ∧ (o.complete i).pending = [] := by
  rcases h with ⟨hdel, hlen⟩ | ⟨-, hnil⟩
  · refine ⟨hdel, List.eq_nil_of_length_eq_zero ?_⟩
    obtain ⟨hi, -⟩ := List.getElem?_eq_some_iff.mp hop
    rw [Object.complete, List.length_eraseIdx_of_lt hi, hlen]
  · simp [hnil] at hop

/-- The operation that completes, when there is only one. -/
theorem eq_of_singleton {x op : ω} {i : ℕ} (hop : [x][i]? = some op) : i = 0 ∧ x = op := by
  simpa [List.getElem?_singleton] using hop

/-- A call in place of which an operation has completed has to issue one, or to delete the
object. -/
theorem Settled.react (h : o.Settled) (hop : o.pending[i]? = some op)
    (hr : r.issues.length = if r.deletes then 0 else 1) : ((o.complete i).react r).Settled := by
  obtain ⟨hdel, hnil⟩ := h.complete hop
  cases hdeletes : r.deletes with
  | false =>
    refine .inl ⟨by simp [Object.react, hdeletes, Object.complete, hdel], ?_⟩
    rw [hdeletes, if_neg Bool.false_ne_true] at hr
    rw [Object.react, hnil, List.nil_append, hr]
  | true =>
    refine .inr ⟨by simp [Object.react, hdeletes, Object.complete, hdel], ?_⟩
    rw [hdeletes, if_pos rfl] at hr
    rw [Object.react, hnil, List.nil_append, List.eq_nil_of_length_eq_zero hr]

end Object

namespace Pool

/-- What becomes of an object that is called: itself, and the objects it creates. -/
def after (o : Object σ ω) (r : Reaction σ ω) : List (Object σ ω) := o.react r :: r.creates

end Pool

/-- What every object keeps when it is served, and every object has that it creates then. -/
def Behaviour.Keeps (b : Behaviour Env σ ω ρ) (I : Object σ ω → Prop) : Prop :=
  ∀ env o i op data, I o → o.pending[i]? = some op →
    ∀ o' ∈ Pool.after (o.complete i) (b.serve env (b.receive op data o.state)).2, I o'

namespace Pool

/-! ## What a step does -/

variable {b : Behaviour Env σ ω ρ} {p p' : Pool Env σ ω} {e : Event Env ρ}
  {es : List (Event Env ρ)} {I : Object σ ω → Prop} {o o' : Object σ ω} {k : ℕ}

theorem step_cases (h : p.step b e = some p') :
    (∃ env, e = .environment env ∧ p' = { p with env }) ∨
    ∃ k o, p.objects[k]? = some o ∧
      ((∃ i data op, e = .serve k i data ∧ o.pending[i]? = some op ∧
          p' = p.call k (o.complete i) (b.serve p.env (b.receive op data o.state)).1
            (b.serve p.env (b.receive op data o.state)).2) ∨
        (∃ i op, e = .discard k i ∧ o.pending[i]? = some op ∧
          p' = p.call k (o.complete i) p.env (b.shutdown o.state)) ∨
        (e = .shutdown k ∧ o.deleted = 0 ∧ p' = p.call k o p.env (b.shutdown o.state))) := by
  cases e with
  | serve k i data =>
    simp only [step, Option.bind_eq_bind, Option.bind_eq_some_iff, Option.some.injEq] at h
    obtain ⟨o, ho, op, hop, rfl⟩ := h
    exact .inr ⟨k, o, ho, .inl ⟨i, data, op, rfl, hop, rfl⟩⟩
  | discard k i =>
    simp only [step, Option.bind_eq_bind, Option.bind_eq_some_iff, Option.some.injEq] at h
    obtain ⟨o, ho, op, hop, rfl⟩ := h
    exact .inr ⟨k, o, ho, .inr (.inl ⟨i, op, rfl, hop, rfl⟩)⟩
  | shutdown k =>
    simp only [step, Option.bind_eq_bind, Option.bind_eq_some_iff,
      Option.ite_none_right_eq_some, Option.some.injEq] at h
    obtain ⟨o, ho, hdel, rfl⟩ := h
    exact .inr ⟨k, o, ho, .inr (.inr ⟨rfl, hdel, rfl⟩)⟩
  | environment env => exact .inl ⟨env, rfl, (Option.some.inj h).symm⟩

/-- All objects but the one that is called stay as they are. -/
theorem mem_call {env : Env} {r : Reaction σ ω} (h : o' ∈ (p.call k o env r).objects) :
    o' ∈ after o r ∨ o' ∈ p.objects := by
  rcases List.mem_append.mp h with h | h
  · rcases List.mem_or_eq_of_mem_set h with h | rfl
    · exact .inr h
    · exact .inl List.mem_cons_self
  · exact .inl (List.mem_cons_of_mem _ h)

/-- What all objects have after a call. -/
theorem forall_call {env : Env} {r : Reaction σ ω} (hp : ∀ o ∈ p.objects, I o) (ho : I (o.react r))
    (hcreates : ∀ o' ∈ r.creates, I o') : ∀ o' ∈ (p.call k o env r).objects, I o' := by
  intro o' ho'
  rcases mem_call ho' with ho' | ho'
  · rcases List.mem_cons.mp ho' with rfl | ho'
    · exact ho
    · exact hcreates o' ho'
  · exact hp o' ho'

theorem react_mem_call {o₀ : Object σ ω} (ho : p.objects[k]? = some o₀) (o : Object σ ω) (env : Env)
    (r : Reaction σ ω) : o.react r ∈ (p.call k o env r).objects := by
  obtain ⟨hk, -⟩ := List.getElem?_eq_some_iff.mp ho
  exact List.mem_append_left _ (List.mem_set hk _)

/-- Where an object is after a call of one of them. -/
theorem getElem?_call {o₀ : Object σ ω} (ho : p.objects[k]? = some o₀) (o : Object σ ω) (env : Env)
    (r : Reaction σ ω) {j : ℕ} {o' : Object σ ω} (hj : p.objects[j]? = some o') :
    (p.call k o env r).objects[j]? = some (if j = k then o.react r else o') := by
  obtain ⟨hk, -⟩ := List.getElem?_eq_some_iff.mp ho
  obtain ⟨hlt, -⟩ := List.getElem?_eq_some_iff.mp hj
  rw [call, List.getElem?_append_left (by rwa [List.length_set])]
  by_cases h : j = k
  · subst h
    rw [if_pos rfl, List.getElem?_set_self hk]
  · rw [if_neg h, List.getElem?_set_ne (Ne.symm h), hj]

theorem countP_call (q : Object σ ω → Bool) (ho : p.objects[k]? = some o) (o₁ : Object σ ω)
    (env : Env) (r : Reaction σ ω) : (p.call k o₁ env r).objects.countP q + [o].countP q
      = p.objects.countP q + (after o₁ r).countP q := by
  obtain ⟨hk, rfl⟩ := List.getElem?_eq_some_iff.mp ho
  have hle : [p.objects[k]].countP q ≤ p.objects.countP q :=
    List.Sublist.countP_le (List.singleton_sublist.mpr (List.getElem_mem hk))
  rw [List.countP_singleton] at hle
  rw [call, List.countP_append, List.countP_set hk, after, List.countP_cons (l := r.creates),
    List.countP_singleton]
  omega

/-! ## Objects that are only served -/

theorem step_cases_of_serves (he : e.Serves) (h : p.step b e = some p') :
    (∃ env, e = .environment env ∧ p' = { p with env }) ∨
    ∃ k o i data op, e = .serve k i data ∧ p.objects[k]? = some o ∧ o.pending[i]? = some op ∧
      p' = p.call k (o.complete i) (b.serve p.env (b.receive op data o.state)).1
        (b.serve p.env (b.receive op data o.state)).2 := by
  obtain ⟨env, rfl, rfl⟩ | ⟨k, o, ho, h⟩ := step_cases h
  · exact .inl ⟨env, rfl, rfl⟩
  rcases h with ⟨i, data, op, rfl, hop, rfl⟩ | ⟨_, _, rfl, -, -⟩ | ⟨rfl, -, -⟩
  · exact .inr ⟨k, o, i, data, op, rfl, ho, hop, rfl⟩
  · exact he.elim
  · exact he.elim

/-- What becomes of the `j`-th object: nothing, or it is served. -/
theorem getElem?_step_of_serves {j : ℕ} (he : e.Serves) (h : p.step b e = some p')
    (hj : p.objects[j]? = some o) : p'.objects[j]? = some o ∨
      ∃ i data op, o.pending[i]? = some op ∧ p'.objects[j]? =
        some ((o.complete i).react (b.serve p.env (b.receive op data o.state)).2) := by
  obtain ⟨env, -, rfl⟩ | ⟨k, o₁, i, data, op, -, ho, hop, rfl⟩ := step_cases_of_serves he h
  · exact .inl hj
  · rw [getElem?_call ho _ _ _ hj]
    by_cases hjk : j = k
    · subst hjk
      obtain rfl : o₁ = o := Option.some.inj (ho.symm.trans hj)
      exact .inr ⟨i, data, op, hop, by rw [if_pos rfl]⟩
    · exact .inl (by rw [if_neg hjk])

theorem meets_serves (hes : ∀ e ∈ es, e.Serves) : Steps.Meets (step b) (fun _ e ↦ e.Serves) p es :=
  Steps.meets_of_forall fun e he _ ↦ hes e he

theorem serves_step (hI : b.Keeps I) (he : e.Serves) (h : p.step b e = some p')
    (hp : ∀ o ∈ p.objects, I o) : ∀ o ∈ p'.objects, I o := by
  intro o' ho'
  obtain ⟨env, -, rfl⟩ | ⟨k, o, i, data, op, -, ho, hop, rfl⟩ := step_cases_of_serves he h
  · exact hp o' ho'
  · rcases mem_call ho' with ho' | ho'
    · exact hI p.env o i op data (hp o (List.mem_of_getElem? ho)) hop o' ho'
    · exact hp o' ho'

/-- **The invariant rule for objects.**  What every object that is served keeps, and every object
that it creates has, all objects have. -/
theorem serves_inv (hI : b.Keeps I) (hes : ∀ e ∈ es, e.Serves)
    (h : Steps.steps (step b) p es = some p') (hp : ∀ o ∈ p.objects, I o) : ∀ o ∈ p'.objects, I o :=
  Steps.steps_inv (fun _ _ _ he h hp ↦ serves_step hI he h hp) (meets_serves hes) h hp

/-! ## When an object was served -/

/-- In the run, the `k`-th object was served with `data` when `env` was outside. -/
def ServedIn (b : Behaviour Env σ ω ρ) (p : Pool Env σ ω) (es : List (Event Env ρ)) (k : ℕ)
    (env : Env) (data : ρ) : Prop :=
  ∃ fs i gs q, es = fs ++ .serve k i data :: gs ∧ Steps.steps (step b) p fs = some q ∧ q.env = env

theorem ServedIn.append {env : Env} {data : ρ} (h : ServedIn b p es k env data)
    (fs : List (Event Env ρ)) : ServedIn b p (es ++ fs) k env data := by
  obtain ⟨es₁, i, es₂, q, rfl, hq, henv⟩ := h
  exact ⟨es₁, i, es₂ ++ fs, q, by simp, hq, henv⟩

end Pool

/-- What is kept by an object that is served, if `R` has what is outside then and what it is served
with, and what an object has that was created. -/
structure Behaviour.KeepsServed (b : Behaviour Env σ ω ρ)
    (I : (Env → ρ → Prop) → Object σ ω → Prop) : Prop where
  mono : ∀ R R' o, (∀ env data, R env data → R' env data) → I R o → I R' o
  serves : ∀ R env o i op data, I R o → o.pending[i]? = some op → R env data →
    I R ((o.complete i).react (b.serve env (b.receive op data o.state)).2)
  creates : ∀ R env c, ∀ o ∈ (b.serve env c).2.creates, I R o

/-- Whatever is outside. -/
theorem Behaviour.KeepsServed.keeps {b : Behaviour Env σ ω ρ}
    {I : (Env → ρ → Prop) → Object σ ω → Prop} (hI : b.KeepsServed I) :
    b.Keeps (I fun _ _ ↦ True) := by
  intro env o i op data ho hop
  exact List.forall_mem_cons.mpr
    ⟨hI.serves _ env o i op data ho hop trivial, hI.creates _ env _⟩

namespace Pool

variable {b : Behaviour Env σ ω ρ} {p p' : Pool Env σ ω} {es : List (Event Env ρ)}
  {o o' : Object σ ω} {k j : ℕ}

/-- An object after a call is the one that was called, was there before, or was created. -/
theorem of_getElem?_call {o₀ : Object σ ω} (ho : p.objects[k]? = some o₀) {env : Env}
    {r : Reaction σ ω} (h : (p.call k o env r).objects[j]? = some o') :
    (j = k ∧ o' = o.react r) ∨ p.objects[j]? = some o' ∨ o' ∈ r.creates := by
  rcases Nat.lt_or_ge j p.objects.length with hlt | hge
  · rw [getElem?_call ho o env r (List.getElem?_eq_getElem hlt), Option.some.injEq] at h
    by_cases hjk : j = k
    · rw [if_pos hjk] at h
      exact .inl ⟨hjk, h.symm⟩
    · rw [if_neg hjk] at h
      exact .inr (.inl ((List.getElem?_eq_getElem hlt).trans (congrArg some h)))
  · rw [call, List.getElem?_append_right (by rwa [List.length_set])] at h
    exact .inr (.inr (List.mem_of_getElem? h))

/-- **The invariant rule for when objects are served**: what each object keeps has held of what was
outside in the run when the object was served, and of what it was served with. -/
theorem served_inv {I : (Env → ρ → Prop) → Object σ ω → Prop} (hI : b.KeepsServed I)
    (hes : ∀ e ∈ es, e.Serves) (h : Steps.steps (step b) p es = some p')
    (hp : ∀ o ∈ p.objects, ∀ R, I R o) (ho : p'.objects[k]? = some o) :
    I (ServedIn b p es k) o := by
  refine Steps.steps_history_of (P := fun es p' ↦ ∀ k o, p'.objects[k]? = some o →
    I (ServedIn b p es k) o) ?_ hes h (fun k o ho ↦ hp o (List.mem_of_getElem? ho) _) k o ho
  intro es p₁ e p₂ hrun hserves he hinv k o ho
  have hmono : ∀ o, I (ServedIn b p es k) o → I (ServedIn b p (es ++ [e]) k) o := fun o ↦
    hI.mono _ _ o fun _ _ hserved ↦ hserved.append [e]
  obtain ⟨env, -, rfl⟩ | ⟨j, o₁, i, data, op, rfl, ho₁, hop, rfl⟩ :=
    step_cases_of_serves hserves he
  · exact hmono o (hinv k o ho)
  · rcases of_getElem?_call ho₁ ho with ⟨rfl, rfl⟩ | hold | hcreated
    · refine hI.serves _ p₁.env o₁ i op data (hmono o₁ (hinv _ o₁ ho₁)) hop ?_
      exact ⟨es, i, [], p₁, rfl, hrun, rfl⟩
    · exact hmono o (hinv k o hold)
    · exact hI.creates _ p₁.env _ o hcreated

end Pool

/-! ## From the request to the end -/

/-- How many operations of the `k`-th object have completed. -/
def Pool.completed (p : Pool Env σ ω) (k : ℕ) : ℕ :=
  match p.objects[k]? with
  | some o => o.issued.length - o.pending.length
  | none => 0

theorem Pool.completed_call {p : Pool Env σ ω} {o : Object σ ω} {k i : ℕ} {op : ω} {env : Env}
    {r : Reaction σ ω} (ho : p.objects[k]? = some o) (hop : o.pending[i]? = some op)
    (hlen : o.pending.length ≤ o.issued.length)
    (hcreates : ∀ o' ∈ r.creates, o'.issued.length = o'.pending.length) (j : ℕ) :
    (p.call k (o.complete i) env r).completed j = p.completed j + if k = j then 1 else 0 := by
  obtain ⟨hk, -⟩ := List.getElem?_eq_some_iff.mp ho
  obtain ⟨hi, -⟩ := List.getElem?_eq_some_iff.mp hop
  rcases Nat.lt_or_ge j p.objects.length with hj | hj
  · have hcall : (p.call k (o.complete i) env r).objects[j]?
        = (p.objects.set k ((o.complete i).react r))[j]? :=
      List.getElem?_append_left (by rwa [List.length_set])
    by_cases hkj : k = j
    · subst hkj
      rw [completed, completed, hcall, List.getElem?_set_self hk, ho, if_pos rfl]
      simp only [Object.react, Object.complete, List.length_append, List.length_eraseIdx_of_lt hi]
      omega
    · rw [completed, completed, hcall, List.getElem?_set_ne hkj, if_neg hkj, Nat.add_zero]
  · have hnone : p.objects[j]? = none := List.getElem?_eq_none hj
    have hcall : (p.call k (o.complete i) env r).objects[j]?
        = r.creates[j - p.objects.length]? := by
      rw [call, List.getElem?_append_right (by rwa [List.length_set]), List.length_set]
    rw [completed, completed, hcall, hnone, if_neg (by omega)]
    cases hcreated : r.creates[j - p.objects.length]? with
    | none => rfl
    | some o' =>
      exact Nat.sub_eq_zero_of_le (Nat.le_of_eq (hcreates o' (List.mem_of_getElem? hcreated)))

/-- **What is to be shown of a class** whose objects serve requests, each in a finite number of
operations: `I` is what an object has been through, `waits` which objects wait for a request, and
`bound` how many operations an object issues. -/
structure Lifecycle (b : Behaviour Env σ ω ρ) (I : Object σ ω → Prop) (waits : Object σ ω → Bool)
    (bound : σ → ℕ) : Prop where
  keeps : b.Keeps I
  /-- An object that waits has one successor when it is served. -/
  succeeds : ∀ env o i op data, I o → o.pending[i]? = some op →
    (Pool.after (o.complete i) (b.serve env (b.receive op data o.state)).2).countP waits
      = [o].countP waits
  settled : ∀ o, I o → o.Settled
  pending_le : ∀ o, I o → o.pending.length ≤ o.issued.length
  issued_le : ∀ o, I o → o.issued.length ≤ bound o.state
  fresh : ∀ env c, ∀ o ∈ (b.serve env c).2.creates, o.issued.length = o.pending.length

namespace Lifecycle

variable {b : Behaviour Env σ ω ρ} {I : Object σ ω → Prop} {waits : Object σ ω → Bool}
  {bound : σ → ℕ} {p p' : Pool Env σ ω} {es : List (Event Env ρ)}

/-- As many objects wait for a request as at the start. -/
theorem countP_waits (hb : Lifecycle b I waits bound) (hes : ∀ e ∈ es, e.Serves)
    (h : Steps.steps (Pool.step b) p es = some p') (hp : ∀ o ∈ p.objects, I o) :
    p'.objects.countP waits = p.objects.countP waits := by
  refine (Steps.steps_inv (P := fun p' ↦ (∀ o ∈ p'.objects, I o) ∧
    p'.objects.countP waits = p.objects.countP waits) ?_ (Pool.meets_serves hes) h ⟨hp, rfl⟩).2
  rintro p₁ e p₂ he h ⟨hp₁, hcount⟩
  refine ⟨Pool.serves_step hb.keeps he h hp₁, ?_⟩
  obtain ⟨env, -, rfl⟩ | ⟨k, o, i, data, op, -, ho, hop, rfl⟩ := Pool.step_cases_of_serves he h
  · exact hcount
  · have hcall := Pool.countP_call waits ho (o.complete i)
      (b.serve p₁.env (b.receive op data o.state)).1 (b.serve p₁.env (b.receive op data o.state)).2
    rw [hb.succeeds p₁.env o i op data (hp₁ o (List.mem_of_getElem? ho)) hop] at hcall
    exact (Nat.add_right_cancel hcall).trans hcount

/-- An operation of an object completes each time the object is served. -/
theorem completed (hb : Lifecycle b I waits bound) (hes : ∀ e ∈ es, e.Serves)
    (h : Steps.steps (Pool.step b) p es = some p') (hp : ∀ o ∈ p.objects, I o) (j : ℕ) :
    p'.completed j = p.completed j + es.countP (Event.isServe j) := by
  refine Steps.steps_count (P := fun p ↦ ∀ o ∈ p.objects, I o) (m := fun p ↦ p.completed j) ?_
    (Pool.meets_serves hes) h hp
  intro p₁ e p₂ he h hp₁
  refine ⟨Pool.serves_step hb.keeps he h hp₁, ?_⟩
  obtain ⟨env, rfl, rfl⟩ | ⟨k, o, i, data, op, rfl, ho, hop, rfl⟩ := Pool.step_cases_of_serves he h
  · rfl
  · rw [Pool.completed_call ho hop (hb.pending_le o (hp₁ o (List.mem_of_getElem? ho)))
      (hb.fresh _ _)]
    simp [Event.isServe]

/-- **Every object ends.**  An object that has been served as often as it issues operations has been
deleted. -/
theorem deleted (hb : Lifecycle b I waits bound) (hes : ∀ e ∈ es, e.Serves)
    (h : Steps.steps (Pool.step b) p es = some p') (hp : ∀ o ∈ p.objects, I o) {k : ℕ}
    {o : Object σ ω} (ho : p'.objects[k]? = some o)
    (hk : bound o.state ≤ es.countP (Event.isServe k)) : o.deleted = 1 := by
  have hcompleted := hb.completed hes h hp k
  have hI := Pool.serves_inv hb.keeps hes h hp o (List.mem_of_getElem? ho)
  rcases hb.settled o hI with ⟨-, hone⟩ | ⟨hdel, -⟩
  · have hpending := hb.pending_le o hI
    have hissued := hb.issued_le o hI
    rw [Pool.completed, ho] at hcompleted
    dsimp only at hcompleted
    omega
  · exact hdel

end Lifecycle

/-! ## Winding up -/

/-- The loop calls objects in place of completions, to serve them or to shut them down. -/
def Event.OfLoop : Event Env ρ → Prop
  | .serve _ _ _ | .discard _ _ | .environment _ => True
  | .shutdown _ => False

/-- An object is shut down in place of being served. -/
def Event.Discards : Event Env ρ → Prop
  | .discard _ _ => True
  | .serve _ _ _ | .shutdown _ | .environment _ => False

theorem Event.Discards.ofLoop {e : Event Env ρ} (h : e.Discards) : e.OfLoop := by
  cases e with
  | serve | discard | environment => trivial
  | shutdown => exact h.elim

/-- The object is there. -/
def Object.alive (o : Object σ ω) : Bool := o.deleted == 0

/-- Objects that issue one operation when they are served, or go; and go when they are shut down. -/
structure Behaviour.Tidy (b : Behaviour Env σ ω ρ) : Prop where
  serves : ∀ env c, (b.serve env c).2.issues.length = if (b.serve env c).2.deletes then 0 else 1
  settles : ∀ env c, ∀ o ∈ (b.serve env c).2.creates, o.Settled
  deletes : ∀ c, (b.shutdown c).deletes = true
  creates : ∀ c, (b.shutdown c).creates = []

/-- An object that is shut down issues nothing on its way out. -/
def Behaviour.Quiet (b : Behaviour Env σ ω ρ) (p : Pool Env σ ω) : Event Env ρ → Prop
  | .discard k _ => ∀ o ∈ p.objects[k]?, (b.shutdown o.state).issues = []
  | .serve _ _ _ | .shutdown _ | .environment _ => True

namespace Pool

variable {b : Behaviour Env σ ω ρ} {p p' : Pool Env σ ω} {e : Event Env ρ}
  {es : List (Event Env ρ)} {o : Object σ ω} {k i : ℕ} {op : ω}

theorem settled_discard (hb : b.Tidy) (ho : o.Settled) (hop : o.pending[i]? = some op)
    (hquiet : (b.shutdown o.state).issues = []) :
    ((o.complete i).react (b.shutdown o.state)).Settled := by
  refine ho.react hop ?_
  rw [hquiet, hb.deletes]
  rfl

/-- **One call by the loop** leaves no tag behind. -/
theorem settled_step (hb : b.Tidy) (he : e.OfLoop) (hquiet : b.Quiet p e)
    (h : p.step b e = some p') (hp : ∀ o ∈ p.objects, o.Settled) :
    ∀ o ∈ p'.objects, o.Settled := by
  obtain ⟨env, -, rfl⟩ | ⟨k, o, ho, h⟩ := step_cases h
  · exact hp
  have hsettled := hp o (List.mem_of_getElem? ho)
  rcases h with ⟨i, data, op, rfl, hop, rfl⟩ | ⟨i, op, rfl, hop, rfl⟩ | ⟨rfl, -, -⟩
  · exact forall_call hp (hsettled.react hop (hb.serves _ _)) (hb.settles _ _)
  · refine forall_call hp (settled_discard hb hsettled hop (hquiet o ho)) ?_
    rw [hb.creates]
    exact List.forall_mem_nil _
  · exact he.elim

/-- No tag is left behind while the loop calls. -/
theorem settled_steps (hb : b.Tidy) (hes : ∀ e ∈ es, e.OfLoop)
    (hquiet : Steps.Meets (step b) b.Quiet p es) (h : Steps.steps (step b) p es = some p')
    (hp : ∀ o ∈ p.objects, o.Settled) : ∀ o ∈ p'.objects, o.Settled := by
  induction es generalizing p with
  | nil =>
    obtain rfl := Steps.steps_nil_iff.mp h
    exact hp
  | cons e es ih =>
    obtain ⟨p₁, he, h⟩ := Steps.steps_cons_iff.mp h
    obtain ⟨hfirst, hrest⟩ := List.forall_mem_cons.mp hes
    obtain ⟨hq, hqs⟩ := (Steps.meets_cons he).mp hquiet
    exact ih hrest hqs h (settled_step hb hfirst hq he hp)

/-- **One object goes** each time one is shut down. -/
theorem countP_alive_discard (hb : b.Tidy) (h : p.step b (.discard k i) = some p')
    (hp : ∀ o ∈ p.objects, o.Settled) :
    p'.objects.countP Object.alive + 1 = p.objects.countP Object.alive := by
  simp only [step, Option.bind_eq_bind, Option.bind_eq_some_iff, Option.some.injEq] at h
  obtain ⟨o, ho, op, hop, rfl⟩ := h
  have hdel := ((hp o (List.mem_of_getElem? ho)).complete hop).1
  have hcall := countP_call Object.alive ho (o.complete i) p.env (b.shutdown o.state)
  have halive : [o].countP Object.alive = 1 := by simp [Object.alive, hdel]
  have hgone : (after (o.complete i) (b.shutdown o.state)).countP Object.alive = 0 := by
    rw [after, hb.creates]
    simp [Object.alive, Object.react, hb.deletes]
  omega

/-- **All of them go**, if the loop shuts down what it takes from the queue. -/
theorem countP_alive_discards (hb : b.Tidy) (hes : ∀ e ∈ es, e.Discards)
    (hquiet : Steps.Meets (step b) b.Quiet p es) (h : Steps.steps (step b) p es = some p')
    (hp : ∀ o ∈ p.objects, o.Settled) :
    p'.objects.countP Object.alive + es.length = p.objects.countP Object.alive := by
  induction es generalizing p with
  | nil =>
    obtain rfl := Steps.steps_nil_iff.mp h
    rfl
  | cons e es ih =>
    obtain ⟨p₁, he, hsteps⟩ := Steps.steps_cons_iff.mp h
    obtain ⟨hfirst, hrest⟩ := List.forall_mem_cons.mp hes
    obtain ⟨hq, hqs⟩ := (Steps.meets_cons he).mp hquiet
    have hall := ih hrest hqs hsteps (settled_step hb hfirst.ofLoop hq he hp)
    cases e with
    | discard k i =>
      have hone := countP_alive_discard hb he hp
      rw [List.length_cons]
      omega
    | serve | shutdown | environment => exact hfirst.elim

/-- When nothing is left in the queue, every object was deleted once. -/
theorem deleted_of_idle (hp : ∀ o ∈ p.objects, o.Settled)
    (hidle : ∀ k i, p.step b (.discard k i) = none) :
    ∀ o ∈ p.objects, o.deleted = 1 ∧ o.pending = [] := by
  intro o ho
  rcases hp o ho with ⟨-, hlen⟩ | hgone
  · obtain ⟨k, hk⟩ := List.getElem?_of_mem ho
    obtain ⟨op, hop⟩ : ∃ op, o.pending[0]? = some op := by
      refine ⟨_, List.getElem?_eq_getElem ?_⟩
      rw [hlen]
      exact Nat.one_pos
    have hnone := hidle k 0
    simp [step, hk, hop] at hnone
  · exact hgone

/-- `n` of the objects of `p` have been shut down, and have left nothing in the queue; once there is
nothing at all in the queue, all objects are gone. -/
structure WoundUp (b : Behaviour Env σ ω ρ) (p p' : Pool Env σ ω) (n : ℕ) : Prop where
  settled : ∀ o ∈ p'.objects, o.Settled
  alive : p'.objects.countP Object.alive + n = p.objects.countP Object.alive
  gone : (∀ k i, p'.step b (.discard k i) = none) →
    ∀ o ∈ p'.objects, o.deleted = 1 ∧ o.pending = []

theorem woundUp (hb : b.Tidy) (hes : ∀ e ∈ es, e.Discards)
    (hquiet : Steps.Meets (step b) b.Quiet p es) (h : Steps.steps (step b) p es = some p')
    (hp : ∀ o ∈ p.objects, o.Settled) : WoundUp b p p' es.length := by
  have hsettled := settled_steps hb (fun e he ↦ (hes e he).ofLoop) hquiet h hp
  exact ⟨hsettled, countP_alive_discards hb hes hquiet h hp, deleted_of_idle hsettled⟩

end Pool
end Tagged
