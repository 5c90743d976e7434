import Mathlib.Algebra.GroupWithZero.Nat
import Mathlib.Data.List.Induction
import Mathlib.Data.Nat.Notation
import Mathlib.Data.Option.Basic
import Mathlib.Logic.Function.Basic
import Mathlib.Logic.Relation

/-!
# Systems that take steps

A system is a partial function `step : σ → ε → Option σ`: event `e` takes state `s` to `s'` when
`step s e = some s'`, and cannot happen in `s` when `step s e = none`.  A run is a list of events,
each of which can happen in the state that the ones before it lead to.

What is shown of all runs is shown of one step: `steps_inv` for an invariant, `steps_history_of` for
one that says what has happened, `meets_iff` for one that holds of some runs only, `meets_iff_end`
for one that is lost for good, `length_le` for a measure, `weight_le` and `countP_le` for one that
some events add to or take from, `steps_part` for the steps of a part of the system,
`steps_refines` for those of a more abstract system.  Most are about runs whose steps meet a
condition on the event and on the state it happens in, which is `Meets`; the condition that always
holds gives all runs.

`side` puts systems side by side: an event of one leaves the others as they are.
-/

set_option autoImplicit false

namespace Steps

variable {σ ε α : Type} (step : σ → ε → Option σ)

/-- Where a run ends. -/
def steps (s : σ) (es : List ε) : Option σ := es.foldlM step s

/-- Every step that a run takes meets the condition `ok`. -/
def Meets (ok : σ → ε → Prop) : σ → List ε → Prop
  | _, [] => True
  | s, e :: es => ok s e ∧ match step s e with
    | some s' => Meets ok s' es
    | none => True

instance Meets.decidable (ok : σ → ε → Prop) [∀ s e, Decidable (ok s e)] :
    ∀ s es, Decidable (Meets step ok s es)
  | _, [] => isTrue trivial
  | s, e :: es =>
    have : Decidable (match step s e with
        | some s' => Meets step ok s' es
        | none => True) :=
      match step s e with
      | some s' => Meets.decidable ok s' es
      | none => isTrue trivial
    inferInstanceAs (Decidable (ok s e ∧ _))

variable {step} {ok : σ → ε → Prop} {s s' t : σ} {e : ε} {es fs : List ε}

@[simp] theorem steps_nil : steps step s [] = some s := rfl

@[simp] theorem steps_cons :
    steps step s (e :: es) = (step s e).bind fun s' ↦ steps step s' es := rfl

theorem steps_nil_iff : steps step s [] = some t ↔ s = t := by simp

/-- A run takes its first event, and then the others. -/
theorem steps_cons_iff : steps step s (e :: es) = some t ↔
    ∃ s', step s e = some s' ∧ steps step s' es = some t := by
  rw [steps_cons, Option.bind_eq_some_iff]

theorem meets_cons (h : step s e = some s') :
    Meets step ok s (e :: es) ↔ ok s e ∧ Meets step ok s' es := by
  rw [Meets, h]

theorem steps_one (h : step s e = some s') : steps step s [e] = some s' := by simp [h]

theorem steps_append :
    steps step s (es ++ fs) = (steps step s es).bind fun s' ↦ steps step s' fs := by
  simp [steps, List.foldlM_append, bind]

/-- A system in which every event can happen. -/
theorem steps_some (f : σ → ε → σ) (s : σ) (es : List ε) :
    steps (fun s e ↦ some (f s e)) s es = some (es.foldl f s) := by
  induction es generalizing s with
  | nil => rfl
  | cons e es ih => rw [steps_cons, Option.bind_some, ih, List.foldl_cons]

/-- A run that ends with an event goes through the state before it. -/
theorem steps_append_cons (h : steps step s (es ++ e :: fs) = some t) :
    ∃ s₁ s₂, steps step s es = some s₁ ∧ step s₁ e = some s₂ ∧ steps step s₂ fs = some t := by
  rw [steps_append, Option.bind_eq_some_iff] at h
  obtain ⟨s₁, h₁, h⟩ := h
  obtain ⟨s₂, h₂, h₃⟩ := steps_cons_iff.mp h
  exact ⟨s₁, s₂, h₁, h₂, h₃⟩

/-- A condition that the events of the run meet in every state. -/
theorem meets_of_forall (h : ∀ e ∈ es, ∀ s, ok s e) : Meets step ok s es := by
  induction es generalizing s with
  | nil => trivial
  | cons e es ih =>
    refine ⟨h e List.mem_cons_self s, ?_⟩
    split
    · exact ih fun e' he' ↦ h e' (List.mem_cons_of_mem e he')
    · trivial

theorem meets_mono {ok' : σ → ε → Prop} (hok : ∀ s e, ok s e → ok' s e) (h : Meets step ok s es) :
    Meets step ok' s es := by
  induction es generalizing s with
  | nil => trivial
  | cons e es ih =>
    obtain ⟨he, h⟩ := h
    refine ⟨hok s e he, ?_⟩
    split
    · rename_i s' hs'
      rw [hs'] at h
      exact ih h
    · trivial

/-- **The invariant rule.**  What every step that meets the condition preserves, holds at the end of
every run whose steps do. -/
theorem steps_inv {P : σ → Prop} (hstep : ∀ s e s', ok s e → step s e = some s' → P s → P s')
    (hes : Meets step ok s es) (h : steps step s es = some t) (hs : P s) : P t := by
  induction es generalizing s with
  | nil =>
    obtain rfl := steps_nil_iff.mp h
    exact hs
  | cons e es ih =>
    obtain ⟨s', hs', h⟩ := steps_cons_iff.mp h
    obtain ⟨hok, hes⟩ := (meets_cons hs').mp hes
    exact ih hes h (hstep s e s' hok hs' hs)

/-- What every step preserves holds at the end of every run. -/
theorem steps_inv_all {P : σ → Prop} (hstep : ∀ s e s', step s e = some s' → P s → P s')
    (h : steps step s es = some t) (hs : P s) : P t := by
  have hes : Meets step (fun _ _ ↦ True) s es := meets_of_forall fun _ _ _ ↦ trivial
  exact steps_inv (fun s e s' _ ↦ hstep s e s') hes h hs

/-- **The history rule.**  What holds of no events and the start, and each step carries on to its
own event, holds of the events of every run and its end.  A step goes on from where the run is after
its history, and its event is one of the run. -/
theorem steps_history_of {Q : ε → Prop} {P : List ε → σ → Prop}
    (hstep : ∀ es u e u', steps step s es = some u → Q e → step u e = some u' → P es u →
      P (es ++ [e]) u')
    (hes : ∀ e ∈ es, Q e) (h : steps step s es = some t) (hs : P [] s) : P es t := by
  induction es using List.reverseRecOn generalizing t with
  | nil =>
    obtain rfl := steps_nil_iff.mp h
    exact hs
  | append_singleton es e ih =>
    obtain ⟨u, u', hu, huu', hu'⟩ := steps_append_cons h
    obtain rfl := steps_nil_iff.mp hu'
    obtain ⟨hbefore, hlast⟩ := List.forall_mem_append.mp hes
    exact hstep es u e u' hu (hlast e List.mem_cons_self) huu' (ih hbefore hu)

/-- The same, whatever the run is. -/
theorem steps_history {P : List ε → σ → Prop}
    (hstep : ∀ es s e s', step s e = some s' → P es s → P (es ++ [e]) s')
    (h : steps step s es = some t) (hs : P [] s) : P es t :=
  steps_history_of (fun es u e u' _ _ ↦ hstep es u e u') (fun _ _ ↦ trivial) h hs

/-- What happens once in a history happens there at one place. -/
theorem split_unique {κ : Type} {f : ε → Option κ} {e e' : ε} {k : κ} {es₁ es₂ fs₁ fs₂ : List ε}
    (hnodup : ((es₁ ++ e :: es₂).filterMap f).Nodup) (h : es₁ ++ e :: es₂ = fs₁ ++ e' :: fs₂)
    (he : f e = some k) (he' : f e' = some k) : es₁ = fs₁ ∧ e = e' := by
  rcases List.append_eq_append_iff.mp h with ⟨gs, rfl, hrest⟩ | ⟨gs, rfl, hrest⟩
  all_goals
    cases gs with
    | nil => exact ⟨by simp, by simpa [eq_comm] using (List.cons.inj hrest).1⟩
    | cons g gs =>
      -- the other event would be one of the same kind
      obtain ⟨rfl, rfl⟩ := List.cons.inj hrest
      simp [he, he', List.nodup_append] at hnodup

/-- If each step that meets the condition adds one to a number when its event is of some kind, and
nothing otherwise, a run adds as much as it has events of that kind. -/
theorem steps_count {P : σ → Prop} {m : σ → ℕ} {q : ε → Bool}
    (hstep : ∀ s e s', ok s e → step s e = some s' → P s → P s' ∧ m s' = m s + [e].countP q)
    (hes : Meets step ok s es) (h : steps step s es = some t) (hs : P s) :
    m t = m s + es.countP q := by
  induction es generalizing s with
  | nil =>
    obtain rfl := steps_nil_iff.mp h
    rfl
  | cons e es ih =>
    obtain ⟨s', hs', h⟩ := steps_cons_iff.mp h
    obtain ⟨hok, hes⟩ := (meets_cons hs').mp hes
    obtain ⟨hP, hm⟩ := hstep s e s' hok hs' hs
    rw [ih hes h hP, hm, Nat.add_assoc, ← List.countP_append, List.singleton_append]

/-- **An exact condition.**  If the steps that meet the condition keep the invariant, which gives
the property, and all others lose the property, then the property holds along a run, from its start
to its end, exactly when all steps of the run meet the condition. -/
theorem meets_iff {Inv P : σ → Prop} (hP : ∀ s, Inv s → P s)
    (hstep : ∀ s e s', step s e = some s' → Inv s → (ok s e → Inv s') ∧ (P s' → ok s e))
    (h : steps step s es = some t) (hs : Inv s) :
    Meets step ok s es ↔ ∀ fs gs u, es = fs ++ gs → steps step s fs = some u → P u := by
  constructor
  · rintro hes fs gs u rfl hu
    induction fs generalizing s with
    | nil =>
      obtain rfl := steps_nil_iff.mp hu
      exact hP s hs
    | cons e fs ih =>
      obtain ⟨s', hs', hu⟩ := steps_cons_iff.mp hu
      obtain ⟨hok, hes⟩ := (meets_cons hs').mp hes
      rw [List.cons_append, steps_cons, hs', Option.bind_some] at h
      exact ih ((hstep s e s' hs' hs).1 hok) h hes hu
  · intro hprop
    induction es generalizing s with
    | nil => trivial
    | cons e es ih =>
      obtain ⟨s', hs', h⟩ := steps_cons_iff.mp h
      obtain ⟨hinv, hok⟩ := hstep s e s' hs' hs
      have hok := hok (hprop [e] es s' rfl (steps_one hs'))
      refine (meets_cons hs').mpr ⟨hok, ih h (hinv hok) fun fs gs u heq hu ↦ ?_⟩
      exact hprop (e :: fs) gs u (by rw [heq]; rfl) (steps_cons_iff.mpr ⟨s', hs', hu⟩)

/-- **What is lost for good.**  If a property that was lost never comes back, and the steps that
lose it are those that do not meet the condition, then a run has the property at its end exactly
when it has it at its start and all steps meet the condition. -/
theorem meets_iff_end {Inv P : σ → Prop}
    (hstep : ∀ s, ∀ e ∈ es, ∀ s', step s e = some s' → Inv s → Inv s' ∧ (P s' ↔ P s ∧ ok s e))
    (h : steps step s es = some t) (hs : Inv s) : P t ↔ P s ∧ Meets step ok s es := by
  induction es generalizing s with
  | nil =>
    obtain rfl := steps_nil_iff.mp h
    exact (and_iff_left trivial).symm
  | cons e es ih =>
    obtain ⟨s', hs', h⟩ := steps_cons_iff.mp h
    obtain ⟨hinv, hP⟩ := hstep s e List.mem_cons_self s' hs' hs
    have hrest := ih (fun u f hf ↦ hstep u f (List.mem_cons_of_mem e hf)) h hinv
    rw [hrest, hP, and_assoc, meets_cons hs']

/-- **Runs that end.**  If each step takes something off a number, a run has no more steps than that
number is at its start. -/
theorem length_le {μ : σ → ℕ} (hstep : ∀ s e s', step s e = some s' → μ s' < μ s)
    (h : steps step s es = some t) : es.length + μ t ≤ μ s := by
  induction es generalizing s with
  | nil =>
    obtain rfl := steps_nil_iff.mp h
    exact Nat.le_of_eq (Nat.zero_add _)
  | cons e es ih =>
    obtain ⟨s', hs', h⟩ := steps_cons_iff.mp h
    have hlt := hstep s e s' hs'
    have hle := ih h
    rw [List.length_cons]
    omega

/-- **Runs that are paid for.**  If each step takes what its event weighs off a number, but for what
the event pays, then the events of a run weigh no more than the number was and they paid. -/
theorem weight_le {P : σ → Prop} {μ : σ → ℕ} {w c : ε → ℕ}
    (hstep : ∀ s e s', step s e = some s' → P s → P s' ∧ w e + μ s' ≤ μ s + c e)
    (h : steps step s es = some t) (hs : P s) :
    (es.map w).sum + μ t ≤ μ s + (es.map c).sum := by
  induction es generalizing s with
  | nil =>
    obtain rfl := steps_nil_iff.mp h
    simp
  | cons e es ih =>
    obtain ⟨s', hs', h⟩ := steps_cons_iff.mp h
    obtain ⟨hP, hle⟩ := hstep s e s' hs' hs
    have hrest := ih h hP
    rw [List.map_cons, List.map_cons, List.sum_cons, List.sum_cons]
    omega

/-- If each step takes one off a number when its event is of some kind, and never adds to it, a run
has no more events of that kind than that number is at its start. -/
theorem countP_le {P : σ → Prop} {μ : σ → ℕ} {q : ε → Bool}
    (hstep : ∀ s e s', step s e = some s' → P s → P s' ∧ [e].countP q + μ s' ≤ μ s)
    (h : steps step s es = some t) (hs : P s) : es.countP q + μ t ≤ μ s := by
  have hle := weight_le (c := fun _ ↦ 0) hstep h hs
  have hsum : (es.map fun e ↦ [e].countP q).sum = es.countP q := by
    rw [← Function.comp_def (List.countP q) fun e ↦ [e], ← List.countP_flatMap,
      List.flatMap_singleton']
  rw [hsum, List.map_const', List.sum_replicate_nat] at hle
  simpa only [Nat.mul_zero, Nat.add_zero] using hle

/-- **The rule for a part.**  If each event is an event of a part of the system, or nothing to it,
then a run of the system is a run of the part.  `P` holds at the end, and so all the way. -/
theorem steps_part {τ δ : Type} {part : τ → δ → Option τ} (view : σ → τ) {event? : ε → Option δ}
    {P : σ → Prop}
    (hstep : ∀ s e s', step s e = some s' → P s' →
      P s ∧ steps part (view s) (event? e).toList = some (view s'))
    (h : steps step s es = some t) (ht : P t) :
    P s ∧ steps part (view s) (es.filterMap event?) = some (view t) := by
  induction es generalizing s with
  | nil =>
    obtain rfl := steps_nil_iff.mp h
    exact ⟨ht, rfl⟩
  | cons e es ih =>
    obtain ⟨s', hs', h⟩ := steps_cons_iff.mp h
    obtain ⟨hP', hrest⟩ := ih h
    obtain ⟨hP, hfirst⟩ := hstep s e s' hs' hP'
    have hcons : (e :: es).filterMap event? = (event? e).toList ++ es.filterMap event? := by
      cases he : event? e with
      | none => rw [List.filterMap_cons_none he]; rfl
      | some d => rw [List.filterMap_cons_some he]; rfl
    refine ⟨hP, ?_⟩
    rw [hcons, steps_append, hfirst, Option.bind_some, hrest]

/-- **The refinement rule.**  If every step that meets the condition is, seen through `view`, a step
of `R` or none, then so is every run whose steps do. -/
theorem steps_refines {view : σ → α} {R : α → α → Prop} {P : σ → Prop}
    (hstep : ∀ s e s', ok s e → step s e = some s' → P s →
      P s' ∧ (view s' = view s ∨ R (view s) (view s')))
    (hes : Meets step ok s es) (h : steps step s es = some t) (hs : P s) :
    Relation.ReflTransGen R (view s) (view t) := by
  refine (steps_inv (P := fun u ↦ P u ∧ Relation.ReflTransGen R (view s) (view u)) ?_ hes h
    ⟨hs, .refl⟩).2
  rintro u e u' hok hu ⟨hP, hR⟩
  obtain ⟨hP', h | h⟩ := hstep u e u' hok hu hP
  · exact ⟨hP', by rwa [h]⟩
  · exact ⟨hP', hR.tail h⟩

/-! ## Systems side by side -/

section

variable {ι : Type} [DecidableEq ι] {τ η : ι → Type}

/-- One of the systems takes a step. -/
def side (steps : ∀ i, τ i → η i → Option (τ i)) (s : ∀ i, τ i) (e : Σ i, η i) :
    Option (∀ i, τ i) :=
  (steps e.1 (s e.1) e.2).map (Function.update s e.1)

variable {steps : ∀ i, τ i → η i → Option (τ i)} {s s' : ∀ i, τ i} {e : Σ i, η i}

/-- What holds of every system from before a step to after it, if it holds where nothing happens. -/
theorem side_step {R : ∀ i, τ i → τ i → Prop} (hrefl : ∀ i t, R i t t)
    (hstep : ∀ i t e t', steps i t e = some t' → R i t t') (h : side steps s e = some s') (i : ι) :
    R i (s i) (s' i) := by
  obtain ⟨t, ht, rfl⟩ := Option.map_eq_some_iff.mp h
  by_cases hi : i = e.1
  · subst hi
    rw [Function.update_self]
    exact hstep e.1 _ _ _ ht
  · rw [Function.update_of_ne hi]
    exact hrefl i _

/-- An invariant of each system. -/
theorem side_inv {P : ∀ i, τ i → Prop}
    (hstep : ∀ i t e t', steps i t e = some t' → P i t → P i t') (h : side steps s e = some s')
    (hs : ∀ i, P i (s i)) (i : ι) : P i (s' i) :=
  side_step (R := fun i t t' ↦ P i t → P i t') (fun _ _ ↦ id) hstep h i (hs i)

/-- No system goes on when they cannot side by side. -/
theorem side_eq_none : (∀ e, side steps s e = none) ↔ ∀ i e, steps i (s i) e = none :=
  ⟨fun h i e ↦ by simpa [side] using h ⟨i, e⟩, fun h e ↦ by simp [side, h]⟩

end

end Steps
