import Mathlib.Tactic.Common

/-!
# Running imperative code

A `Run ε α` is a computation that ends with a value of `α`, ends with a fault of `ε`, or goes on
forever.  It is evaluated with a budget: `eval i` is the outcome if the computation ends within
budget `i` and `none` otherwise.  The field `mono` says that a larger budget never changes an
outcome, so an outcome is a property of the computation and not of the budget it was seen with.

Loops are written with `Run.loop`, which repeats a body until the body asks to stop.  Nothing about
a loop has to be known to write it down; that it ends is a theorem about it.

Programs are reasoned about with three predicate transformers:

* `Run.wp r Q` — total correctness: `r` ends, without a fault, in a value satisfying `Q`;
* `Run.wlp r Q` — partial correctness: if `r` ends without a fault, its value satisfies `Q`;
* `Run.safe r Q` — safety: `r` never ends in a fault, and if it ends, its value satisfies `Q`.

Their rules are one per program construct: `wp_pure`, `wp_bind`, `wp_ite`, `wp_loop`, and the same
for `wlp` and `safe`.  The rules for the constructs without a loop are equivalences tagged `simp`,
so `simp` turns a statement about straight-line code into one about the values it computes.  A
computation that is safe with a postcondition that nothing satisfies goes on forever.

Two computations are compared with `RefinedBy`, which every construct keeps: where the parts of a
program are replaced by parts that return as much, so does the program.
-/

set_option autoImplicit false

/-- A computation that returns an `α`, fails with an `ε`, or runs forever. -/
structure Run (ε α : Type) where
  /-- The outcome, when the budget is large enough to see it. -/
  eval : ℕ → Option (Except ε α)
  /-- A larger budget sees the same outcome. -/
  mono : ∀ {i j : ℕ} {r : Except ε α}, i ≤ j → eval i = some r → eval j = some r

namespace Run

variable {ε α β σ : Type}

/-! ## The constructs -/

/-- Return `a` at once. -/
def ret (a : α) : Run ε α := ⟨fun _ ↦ some (.ok a), fun _ h ↦ h⟩

/-- Fail with `e` at once. -/
def fail (e : ε) : Run ε α := ⟨fun _ ↦ some (.error e), fun _ h ↦ h⟩

/-- Run `r`, then `f` on its value; a fault of `r` skips `f`. -/
def seq (r : Run ε α) (f : α → Run ε β) : Run ε β where
  eval i :=
    match r.eval i with
    | none => none
    | some (.error e) => some (.error e)
    | some (.ok a) => (f a).eval i
  mono := by
    intro i j b hij h
    cases hr : r.eval i with
    | none => simp [hr] at h
    | some o =>
      rw [r.mono hij hr]
      cases o with
      | error e => simpa [hr] using h
      | ok a => exact (f a).mono hij (by simpa [hr] using h)

instance : Monad (Run ε) where
  pure := ret
  bind := seq

/-- A value is passed on. -/
theorem pure_bind (a : α) (f : α → Run ε β) : (pure a : Run ε α) >>= f = f a := rfl

/-- A fault skips what comes after it. -/
theorem fail_bind (e : ε) (f : α → Run ε β) : fail e >>= f = fail e := rfl

/-- The outcome of a loop: each round costs one unit of the budget. -/
def loopEval (body : σ → Run ε (σ ⊕ β)) : ℕ → σ → Option (Except ε β)
  | 0, _ => none
  | i + 1, s =>
    match (body s).eval i with
    | none => none
    | some (.error e) => some (.error e)
    | some (.ok (.inl s')) => loopEval body i s'
    | some (.ok (.inr b)) => some (.ok b)

theorem loopEval_mono (body : σ → Run ε (σ ⊕ β)) {r : Except ε β} :
    ∀ {i j : ℕ} {s : σ}, i ≤ j → loopEval body i s = some r → loopEval body j s = some r
  | 0, _, _, _, h => by simp [loopEval] at h
  | i + 1, 0, _, hij, _ => by omega
  | i + 1, j + 1, s, hij, h => by
    have hij' : i ≤ j := by omega
    rw [loopEval] at h ⊢
    cases hb : (body s).eval i with
    | none => simp [hb] at h
    | some o =>
      rw [(body s).mono hij' hb]
      rw [hb] at h
      match o, h with
      | .error e, h => exact h
      | .ok (.inl s'), h => exact loopEval_mono body hij' h
      | .ok (.inr b), h => exact h

/-- Repeat `body` from the state `s`: `.inl s'` asks for another round from `s'`, and `.inr b` ends
the loop with `b`. -/
def loop (body : σ → Run ε (σ ⊕ β)) (s : σ) : Run ε β :=
  ⟨fun i ↦ loopEval body i s, fun hij h ↦ loopEval_mono body hij h⟩

/-! ## Outcomes -/

/-- `r` ends with the value `a`. -/
def Returns (r : Run ε α) (a : α) : Prop := ∃ i, r.eval i = some (.ok a)

/-- `r` ends with the fault `e`. -/
def Fails (r : Run ε α) (e : ε) : Prop := ∃ i, r.eval i = some (.error e)

theorem Returns.unique {r : Run ε α} {a b : α} (ha : r.Returns a) (hb : r.Returns b) : a = b := by
  obtain ⟨i, hi⟩ := ha
  obtain ⟨j, hj⟩ := hb
  have h := r.mono (Nat.le_max_left i j) hi
  rw [r.mono (Nat.le_max_right i j) hj] at h
  simpa using h.symm

@[simp] theorem returns_pure {a b : α} : (pure a : Run ε α).Returns b ↔ a = b := by
  show (∃ _ : ℕ, some (Except.ok a) = some (Except.ok b)) ↔ a = b
  simp

@[simp] theorem returns_fail {e : ε} {a : α} : ¬ (fail e : Run ε α).Returns a := by
  rintro ⟨i, hi⟩
  simp [fail] at hi

@[simp] theorem fails_fail {e e' : ε} : (fail e : Run ε α).Fails e' ↔ e = e' := by
  simp [Fails, fail]

@[simp] theorem fails_pure {a : α} {e : ε} : ¬ (pure a : Run ε α).Fails e := by
  rintro ⟨i, hi⟩
  change some (Except.ok a) = some (Except.error e) at hi
  simp at hi

/-- Where an outcome comes from: a fault from the first part, anything else from both. -/
theorem eval_bind {r : Run ε α} {f : α → Run ε β} {i : ℕ} {o : Except ε β}
    (h : (r >>= f).eval i = some o) : (∃ e, r.eval i = some (.error e) ∧ o = .error e) ∨
      ∃ a, r.eval i = some (.ok a) ∧ (f a).eval i = some o := by
  change (seq r f).eval i = _ at h
  rw [seq] at h
  cases hr : r.eval i with
  | none => simp [hr] at h
  | some o' =>
    cases o' with
    | error e => exact .inl ⟨e, rfl, by simpa [hr] using h.symm⟩
    | ok a => exact .inr ⟨a, rfl, by simpa [hr] using h⟩

theorem eval_bind_of_error {r : Run ε α} {f : α → Run ε β} {i : ℕ} {e : ε}
    (h : r.eval i = some (.error e)) : (r >>= f).eval i = some (.error e) := by
  show (seq r f).eval i = _
  simp only [seq, h]

theorem eval_bind_of_ok {r : Run ε α} {f : α → Run ε β} {i j : ℕ} {a : α} {o : Except ε β}
    (hi : r.eval i = some (.ok a)) (hj : (f a).eval j = some o) :
    (r >>= f).eval (max i j) = some o := by
  show (seq r f).eval (max i j) = _
  simp only [seq, r.mono (Nat.le_max_left i j) hi]
  exact (f a).mono (Nat.le_max_right i j) hj

theorem returns_bind {r : Run ε α} {f : α → Run ε β} {b : β} :
    (r >>= f).Returns b ↔ ∃ a, r.Returns a ∧ (f a).Returns b := by
  constructor
  · rintro ⟨i, hi⟩
    rcases eval_bind hi with ⟨e, -, ho⟩ | ⟨a, hr, hf⟩
    · cases ho
    · exact ⟨a, ⟨i, hr⟩, ⟨i, hf⟩⟩
  · rintro ⟨a, ⟨i, hi⟩, ⟨j, hj⟩⟩
    exact ⟨max i j, eval_bind_of_ok hi hj⟩

theorem fails_bind {r : Run ε α} {f : α → Run ε β} {e : ε} :
    (r >>= f).Fails e ↔ r.Fails e ∨ ∃ a, r.Returns a ∧ (f a).Fails e := by
  constructor
  · rintro ⟨i, hi⟩
    rcases eval_bind hi with ⟨e', hr, ho⟩ | ⟨a, hr, hf⟩
    · obtain rfl := Except.error.inj ho
      exact .inl ⟨i, hr⟩
    · exact .inr ⟨a, ⟨i, hr⟩, ⟨i, hf⟩⟩
  · rintro (⟨i, hi⟩ | ⟨a, ⟨i, hi⟩, ⟨j, hj⟩⟩)
    · exact ⟨i, eval_bind_of_error hi⟩
    · exact ⟨max i j, eval_bind_of_ok hi hj⟩

/-- Where the outcome of a loop comes from: a fault of its first round, the rounds after it, or a
value with which the first round ends the loop. -/
theorem loopEval_succ {body : σ → Run ε (σ ⊕ β)} {i : ℕ} {s : σ} {o : Except ε β}
    (h : loopEval body (i + 1) s = some o) :
    (∃ e, (body s).eval i = some (.error e) ∧ o = .error e) ∨
      (∃ s', (body s).eval i = some (.ok (.inl s')) ∧ loopEval body i s' = some o) ∨
      ∃ b, (body s).eval i = some (.ok (.inr b)) ∧ o = .ok b := by
  rw [loopEval] at h
  cases hr : (body s).eval i with
  | none => simp [hr] at h
  | some o' =>
    rw [hr] at h
    match o', h with
    | .error e, h => exact .inl ⟨e, rfl, (Option.some.inj h).symm⟩
    | .ok (.inl s'), h => exact .inr (.inl ⟨s', rfl, h⟩)
    | .ok (.inr b), h => exact .inr (.inr ⟨b, rfl, (Option.some.inj h).symm⟩)

/-- A loop returns what one round of its body leads to. -/
theorem returns_loop {body : σ → Run ε (σ ⊕ β)} {s : σ} {b : β} :
    (loop body s).Returns b ↔
      (body s).Returns (.inr b) ∨ ∃ s', (body s).Returns (.inl s') ∧ (loop body s').Returns b := by
  constructor
  · rintro ⟨i, hi⟩
    change loopEval body i s = _ at hi
    cases i with
    | zero => simp [loopEval] at hi
    | succ i =>
      rcases loopEval_succ hi with ⟨e, -, ho⟩ | ⟨s', hr, hrest⟩ | ⟨b', hr, ho⟩
      · cases ho
      · exact .inr ⟨s', ⟨i, hr⟩, ⟨i, hrest⟩⟩
      · obtain rfl := Except.ok.inj ho
        exact .inl ⟨i, hr⟩
  · rintro (⟨i, hi⟩ | ⟨s', ⟨i, hi⟩, ⟨j, hj⟩⟩)
    · refine ⟨i + 1, ?_⟩
      show loopEval body (i + 1) s = _
      simp only [loopEval, hi]
    · refine ⟨max i j + 1, ?_⟩
      show loopEval body (max i j + 1) s = _
      simp only [loopEval, (body s).mono (Nat.le_max_left i j) hi]
      exact loopEval_mono body (Nat.le_max_right i j) hj

/-- **Induction on the rounds of a loop that returns `b`**, from its last round back to its
first. -/
theorem Returns.loop_induction {body : σ → Run ε (σ ⊕ β)} {b : β} {P : σ → Prop} {s : σ}
    (h : (loop body s).Returns b) (hlast : ∀ s, (body s).Returns (.inr b) → P s)
    (hround : ∀ s s', (body s).Returns (.inl s') → P s' → P s) : P s := by
  obtain ⟨i, hi⟩ := h
  change loopEval body i s = _ at hi
  induction i generalizing s with
  | zero => simp [loopEval] at hi
  | succ i ih =>
    rcases loopEval_succ hi with ⟨e, -, ho⟩ | ⟨s', hr, hrest⟩ | ⟨b', hr, ho⟩
    · cases ho
    · exact hround s s' ⟨i, hr⟩ (ih hrest)
    · obtain rfl := Except.ok.inj ho
      exact hlast s ⟨i, hr⟩

/-! ## Total correctness -/

/-- `r` returns, and what it returns satisfies `Q`. -/
def wp (r : Run ε α) (Q : α → Prop) : Prop := ∃ a, r.Returns a ∧ Q a

variable {r : Run ε α} {Q Q' : α → Prop}

theorem wp_mono (h : r.wp Q) (hQ : ∀ a, Q a → Q' a) : r.wp Q' :=
  h.imp fun _ ha ↦ ⟨ha.1, hQ _ ha.2⟩

theorem Returns.wp {a : α} (h : r.Returns a) (ha : Q a) : r.wp Q := ⟨a, h, ha⟩

/-- Returning `a` as a postcondition. -/
theorem wp_eq_iff {a : α} : (r.wp fun b ↦ b = a) ↔ r.Returns a :=
  ⟨fun ⟨_, hb, h⟩ ↦ h ▸ hb, fun h ↦ ⟨a, h, rfl⟩⟩

/-- What a computation is known to return is all that is left to look at. -/
theorem Returns.wp_iff {a : α} (h : r.Returns a) : r.wp Q ↔ Q a :=
  ⟨fun ⟨_, hb, hQ⟩ ↦ h.unique hb ▸ hQ, fun ha ↦ ⟨a, h, ha⟩⟩

@[simp] theorem wp_pure {a : α} : (pure a : Run ε α).wp Q ↔ Q a := by
  simp [Run.wp]

@[simp] theorem wp_fail {e : ε} : ¬ (fail e : Run ε α).wp Q := by
  simp [Run.wp]

@[simp] theorem wp_bind {f : α → Run ε β} {Q : β → Prop} :
    (r >>= f).wp Q ↔ r.wp fun a ↦ (f a).wp Q := by
  simp only [Run.wp, returns_bind]
  constructor
  · rintro ⟨b, ⟨a, ha, hb⟩, hQ⟩
    exact ⟨a, ha, b, hb, hQ⟩
  · rintro ⟨a, ha, b, hb, hQ⟩
    exact ⟨b, ⟨a, ha, hb⟩, hQ⟩

@[simp] theorem wp_ite {c : Prop} [Decidable c] {r₁ r₂ : Run ε α} :
    (if c then r₁ else r₂).wp Q ↔ if c then r₁.wp Q else r₂.wp Q := by
  split <;> rfl

/-- One round of a loop: what `Q` asks of the value a stopping round returns, and the loop itself of
the state another round starts from. -/
def Round (Q : β → Prop) (next : σ → Prop) : σ ⊕ β → Prop
  | .inl s => next s
  | .inr b => Q b

@[simp] theorem round_inl {Q : β → Prop} {next : σ → Prop} {s : σ} :
    Round Q next (.inl s) ↔ next s := Iff.rfl

@[simp] theorem round_inr {Q : β → Prop} {next : σ → Prop} {b : β} :
    Round Q next (.inr b) ↔ Q b := Iff.rfl

/-- Unrolling a loop once. -/
theorem wp_loop_iff {body : σ → Run ε (σ ⊕ β)} {s : σ} {Q : β → Prop} :
    (loop body s).wp Q ↔ (body s).wp (Round Q fun s' ↦ (loop body s').wp Q) := by
  constructor
  · rintro ⟨b, hb, hQ⟩
    rcases returns_loop.mp hb with h | ⟨s', h, h'⟩
    · exact ⟨.inr b, h, hQ⟩
    · exact ⟨.inl s', h, b, h', hQ⟩
  · rintro ⟨o, ho, hQ⟩
    cases o with
    | inl s' =>
      obtain ⟨b, hb, hQ⟩ := hQ
      exact ⟨b, returns_loop.mpr (.inr ⟨s', ho, hb⟩), hQ⟩
    | inr b => exact ⟨b, returns_loop.mpr (.inl ho), hQ⟩

/-- **The loop rule.**  A loop whose rounds keep `Inv` and lower `meas` ends, and establishes
whatever its last round does. -/
theorem wp_loop {body : σ → Run ε (σ ⊕ β)} {Q : β → Prop} (Inv : σ → Prop) (meas : σ → ℕ)
    (hstep : ∀ s, Inv s → (body s).wp (Round Q fun s' ↦ Inv s' ∧ meas s' < meas s))
    {s : σ} (hs : Inv s) : (loop body s).wp Q := by
  induction hn : meas s using Nat.strongRecOn generalizing s with
  | ind n ih =>
    rw [wp_loop_iff]
    refine wp_mono (hstep s hs) fun o ho ↦ ?_
    cases o with
    | inl s' => exact ih (meas s') (hn ▸ ho.2) ho.1 rfl
    | inr b => exact ho

/-! ## Partial correctness -/

/-- If `r` returns, what it returns satisfies `Q`. -/
def wlp (r : Run ε α) (Q : α → Prop) : Prop := ∀ a, r.Returns a → Q a

theorem wlp_mono (h : r.wlp Q) (hQ : ∀ a, Q a → Q' a) : r.wlp Q' :=
  fun a ha ↦ hQ a (h a ha)

theorem wlp_of_wp (h : r.wp Q) : r.wlp Q := by
  obtain ⟨a, ha, hQ⟩ := h
  exact fun b hb ↦ ha.unique hb ▸ hQ

@[simp] theorem wlp_pure {a : α} : (pure a : Run ε α).wlp Q ↔ Q a := by
  simp [wlp]

@[simp] theorem wlp_fail {e : ε} : (fail e : Run ε α).wlp Q := by
  simp [wlp]

@[simp] theorem wlp_bind {f : α → Run ε β} {Q : β → Prop} :
    (r >>= f).wlp Q ↔ r.wlp fun a ↦ (f a).wlp Q := by
  simp only [wlp, returns_bind]
  exact ⟨fun h a ha b hb ↦ h b ⟨a, ha, hb⟩, fun h b ⟨a, ha, hb⟩ ↦ h a ha b hb⟩

@[simp] theorem wlp_ite {c : Prop} [Decidable c] {r₁ r₂ : Run ε α} :
    (if c then r₁ else r₂).wlp Q ↔ if c then r₁.wlp Q else r₂.wlp Q := by
  split <;> rfl

/-- **The loop rule for partial correctness**: an invariant is enough. -/
theorem wlp_loop {body : σ → Run ε (σ ⊕ β)} {Q : β → Prop} (Inv : σ → Prop)
    (hstep : ∀ s, Inv s → (body s).wlp (Round Q Inv)) {s : σ} (hs : Inv s) :
    (loop body s).wlp Q := by
  intro b hb
  refine hb.loop_induction (P := fun s ↦ Inv s → Q b) ?_ ?_ hs
  · intro s hlast hs
    exact hstep s hs _ hlast
  · intro s s' hround ih hs
    exact ih (hstep s hs _ hround)

/-! ## Refinement -/

/-- `r'` returns whatever `r` returns.  Nothing is asked of it where `r` fails or goes on
forever. -/
def RefinedBy (r r' : Run ε α) : Prop := ∀ a, r.Returns a → r'.Returns a

theorem RefinedBy.refl (r : Run ε α) : r.RefinedBy r := fun _ h ↦ h

theorem fail_refinedBy (e : ε) (r : Run ε α) : (fail e).RefinedBy r :=
  fun _ h ↦ absurd h returns_fail

theorem RefinedBy.bind {r r' : Run ε α} {f f' : α → Run ε β} (h : r.RefinedBy r')
    (hf : ∀ a, (f a).RefinedBy (f' a)) : (r >>= f).RefinedBy (r' >>= f') := by
  intro b hb
  obtain ⟨a, ha, hb⟩ := returns_bind.mp hb
  exact returns_bind.mpr ⟨a, h a ha, hf a b hb⟩

theorem RefinedBy.ite {c : Prop} [Decidable c] {r₁ r₁' r₂ r₂' : Run ε α} (h₁ : r₁.RefinedBy r₁')
    (h₂ : r₂.RefinedBy r₂') :
    (if c then r₁ else r₂).RefinedBy (if c then r₁' else r₂') := by
  split
  · exact h₁
  · exact h₂

/-- A loop is refined round by round. -/
theorem RefinedBy.loop {body body' : σ → Run ε (σ ⊕ β)} (h : ∀ s, (body s).RefinedBy (body' s))
    (s : σ) : (loop body s).RefinedBy (loop body' s) := by
  intro b hb
  refine hb.loop_induction (P := fun s ↦ (Run.loop body' s).Returns b) ?_ ?_
  · intro s hlast
    exact returns_loop.mpr (.inl (h s _ hlast))
  · intro s s' hround ih
    exact returns_loop.mpr (.inr ⟨s', h s _ hround, ih⟩)

/-! ## Safety, and going on forever -/

/-- `r` ends: in a value or in a fault. -/
def Halts (r : Run ε α) : Prop := ∃ i o, r.eval i = some o

/-- If `r` ends, then without a fault and in a value that satisfies `Q`. -/
def safe (r : Run ε α) (Q : α → Prop) : Prop :=
  ∀ i o, r.eval i = some o → ∃ a, o = .ok a ∧ Q a

theorem Returns.halts {a : α} (h : r.Returns a) : r.Halts :=
  h.imp fun _ hi ↦ ⟨_, hi⟩

theorem Fails.halts {e : ε} (h : r.Fails e) : r.Halts :=
  h.imp fun _ hi ↦ ⟨_, hi⟩

/-- What does not end at first does not end at all. -/
theorem Halts.of_bind {f : α → Run ε β} (h : (r >>= f).Halts) : r.Halts := by
  obtain ⟨i, o, hi⟩ := h
  rcases eval_bind hi with ⟨e, hr, -⟩ | ⟨a, hr, -⟩
  · exact ⟨i, _, hr⟩
  · exact ⟨i, _, hr⟩

theorem Returns.halts_bind {f : α → Run ε β} {a : α} (ha : r.Returns a) (h : (f a).Halts) :
    (r >>= f).Halts := by
  obtain ⟨i, hi⟩ := ha
  obtain ⟨j, o, hj⟩ := h
  exact ⟨max i j, o, eval_bind_of_ok hi hj⟩

/-- A computation that may end in nothing goes on forever. -/
theorem not_halts_of_safe (h : r.safe fun _ ↦ False) : ¬ r.Halts := by
  rintro ⟨i, o, hi⟩
  obtain ⟨a, -, hQ⟩ := h i o hi
  exact hQ

theorem safe_mono (h : r.safe Q) (hQ : ∀ a, Q a → Q' a) : r.safe Q' :=
  fun i o hi ↦ (h i o hi).imp fun _ ha ↦ ⟨ha.1, hQ _ ha.2⟩

theorem safe_of_wp (h : r.wp Q) : r.safe Q := by
  obtain ⟨a, ⟨j, hj⟩, hQ⟩ := h
  intro i o hi
  have heq := r.mono (Nat.le_max_left i j) hi
  rw [r.mono (Nat.le_max_right i j) hj] at heq
  exact ⟨a, by simpa using heq.symm, hQ⟩

@[simp] theorem safe_pure {a : α} : (pure a : Run ε α).safe Q ↔ Q a := by
  constructor
  · intro h
    obtain ⟨b, hb, hQ⟩ := h 0 (.ok a) rfl
    obtain rfl : a = b := by simpa using hb
    exact hQ
  · exact fun h ↦ safe_of_wp (wp_pure.mpr h)

@[simp] theorem safe_bind {f : α → Run ε β} {Q : β → Prop} :
    (r >>= f).safe Q ↔ r.safe fun a ↦ (f a).safe Q := by
  constructor
  · intro h i o hi
    cases o with
    | error e =>
      obtain ⟨b, hb, -⟩ := h i (.error e) (eval_bind_of_error hi)
      cases hb
    | ok a => exact ⟨a, rfl, fun j o' hj ↦ h (max i j) o' (eval_bind_of_ok hi hj)⟩
  · intro h i o hi
    rcases eval_bind hi with ⟨e, hr, -⟩ | ⟨a, hr, hf⟩
    · obtain ⟨b, hb, -⟩ := h i _ hr
      cases hb
    · obtain ⟨b, hb, hsafe⟩ := h i _ hr
      obtain rfl := Except.ok.inj hb
      exact hsafe i o hf

@[simp] theorem safe_ite {c : Prop} [Decidable c] {r₁ r₂ : Run ε α} :
    (if c then r₁ else r₂).safe Q ↔ if c then r₁.safe Q else r₂.safe Q := by
  split <;> rfl

/-- **The loop rule for safety**: an invariant is enough, if no round breaks it in a fault. -/
theorem safe_loop {body : σ → Run ε (σ ⊕ β)} {Q : β → Prop} (Inv : σ → Prop)
    (hstep : ∀ s, Inv s → (body s).safe (Round Q Inv)) {s : σ} (hs : Inv s) :
    (loop body s).safe Q := by
  intro i o hi
  change loopEval body i s = _ at hi
  induction i generalizing s with
  | zero => simp [loopEval] at hi
  | succ i ih =>
    rcases loopEval_succ hi with ⟨e, hr, -⟩ | ⟨s', hr, hrest⟩ | ⟨b, hr, rfl⟩
    · obtain ⟨p, hp, -⟩ := hstep s hs i _ hr
      cases hp
    · obtain ⟨p, hp, hround⟩ := hstep s hs i _ hr
      obtain rfl := Except.ok.inj hp
      exact ih hround hrest
    · obtain ⟨p, hp, hround⟩ := hstep s hs i _ hr
      obtain rfl := Except.ok.inj hp
      exact ⟨b, rfl, hround⟩

end Run
