import Cppkg.Estd.Refines

/-!
# Copies of a `HashList`

The copy operations of a `HashList` are the implicit ones.  They copy the list into new nodes and
the map as it is, so that the iterators in the map of a copy still point into the list it was
copied from.  The copy of an empty list has no iterators, and nothing is wrong with it.

`Independent` says of a run that its objects have nothing to do with each other;
`independent_iff` says in which runs they have not: in those that copy only empty lists.
-/

set_option autoImplicit false

namespace Cppkg
namespace Estd
namespace Memory

open HashList

variable {T : Type} {m m' : Memory T}

/-! ## Objects and their copies -/

/-- In every object, each iterator in the map points to the node of the object's own list that holds
its value, and the values are different. -/
def Coupled (m : Memory T) : Prop := ∀ self l, m.objects self = some l → l.Coupled self m.next

theorem coupled_init : (init : Memory T).Coupled := fun _ _ h ↦ absurd h (by simp [init])

/-- One object changes, and stays coupled. -/
theorem Becomes.all {self : ℕ} {l : HashList T} (h : m.Becomes m' self l) (hm : m.Coupled) :
    m'.Coupled := by
  intro a l' hl'
  rw [h.objects] at hl'
  by_cases ha : a = self
  · subst ha
    rw [Function.update_self, Option.some.injEq] at hl'
    exact hl' ▸ h.coupled
  · rw [Function.update_of_ne ha] at hl'
    exact (hm a l' hl').mono h.next_le

/-- What the copy of a list is: its nodes are new, its iterators are not. -/
theorem objects_copyMembers (self : ℕ) (l : HashList T) : (m.copyMembers self l).objects
    = Function.update m.objects self
        (some ⟨(List.range' m.next l.lst.length).zip l.values, l.umap⟩) := rfl

/-- A map has no iterators if the list has no nodes, … -/
theorem becomes_copyMembers {self other : ℕ} {l : HashList T} (h : l.Coupled other m.next)
    (hnil : l.lst = []) : m.Becomes (m.copyMembers self l) self ⟨[], l.umap⟩ where
  objects := by simp [objects_copyMembers, HashList.values, hnil]
  next_le := Nat.le_add_right _ _
  coupled := ⟨.nil, by simp [HashList.nodes], .nil, fun val position ↦ by simp [h.umap, hnil]⟩

/-- … and has some otherwise, all of which stay with the object they came from. -/
theorem not_coupled_copyMembers {self other : ℕ} {l : HashList T} (h : l.Coupled other m.next)
    (hne : self ≠ other) (hcons : l.lst ≠ []) : ¬ (m.copyMembers self l).Coupled := by
  intro hm
  obtain ⟨⟨n, val⟩, hmem⟩ := List.exists_mem_of_ne_nil _ hcons
  have hcopy := hm self _ (by rw [objects_copyMembers, Function.update_self])
  obtain ⟨n', heq, -⟩ := (hcopy.umap val ⟨other, some n⟩).mp ((h.umap val _).mpr ⟨n, rfl, hmem⟩)
  exact hne (congrArg Iter.owner heq).symm

variable [DecidableEq T] {e : Event T} {es : List (Event T)}

/-! ## One step -/

/-- What is copied has no elements, or is copied to itself. -/
def CopiesNothing (m : Memory T) : Event T → Prop
  | .copyConstruct _ other => ∀ l ∈ m.objects other, l.lst = []
  | .copyAssign self other => self = other ∨ ∀ l ∈ m.objects other, l.lst = []
  | _ => True

/-- An operation happens on an object that exists, at a position that exists. -/
theorem exists_of_call {self : ℕ} {op : OrderedSet.Op T} {r : Memory T × Option Iter}
    (h : m.call self op = some r) :
    ∃ l, m.objects self = some l ∧
      ∀ hl : l.Coupled self m.next, (hl.set.step op).isSome = true := by
  cases hl : m.objects self with
  | none =>
    cases op <;> simp [call, pushBack, erase, popBack, clear, hl] at h
  | some l =>
    refine ⟨l, rfl, fun hc ↦ ?_⟩
    cases op with
    | insert i val =>
      simp only [call, hl, Option.bind_eq_bind, Option.bind_some,
        Option.ite_none_right_eq_some] at h
      rw [OrderedSet.step, hc.length_set, if_pos h.1]
      rfl
    | _ => rfl

/-- What a step does when the objects are coupled. -/
theorem step_cases (hm : m.Coupled) (h : m.step e = some m') :
    (m.CopiesNothing e ∧ ∃ l, m.Becomes m' e.target l) ∨
    (m.CopiesNothing e ∧ m' = { m with objects := Function.update m.objects e.target none }) ∨
    (¬ m.CopiesNothing e ∧ ∃ other l, e.target ≠ other ∧ m.objects other = some l ∧ l.lst ≠ [] ∧
      m' = m.copyMembers e.target l) := by
  cases e with
  | construct self vals =>
    have hself : m.objects self = none := by
      by_contra hc
      simp [step, construct, hc] at h
    obtain ⟨m₁, l, hcall, hm₁, -⟩ := construct_spec hself vals
    obtain rfl : m₁ = m' := Option.some.inj (hcall.symm.trans h)
    exact .inl ⟨trivial, l, hm₁⟩
  | call self op =>
    obtain ⟨r, hr, rfl⟩ := Option.map_eq_some_iff.mp h
    obtain ⟨l, hl, hop⟩ := exists_of_call hr
    obtain ⟨set, hset⟩ := Option.isSome_iff_exists.mp (hop (hm self l hl))
    obtain ⟨m₁, l', ret, hcall, hm₁, -⟩ := call_spec hl (hm self l hl) hset
    obtain rfl : (m₁, ret) = r := Option.some.inj (hcall.symm.trans hr)
    exact .inl ⟨trivial, l', hm₁⟩
  | destroy self =>
    simp only [step, destroy, Option.bind_eq_bind, Option.bind_eq_some_iff, Option.some.injEq] at h
    obtain ⟨l, -, rfl⟩ := h
    exact .inr (.inl ⟨trivial, rfl⟩)
  | copyConstruct self other =>
    simp only [step, copyConstruct, Option.bind_eq_bind, Option.bind_eq_some_iff,
      Option.ite_none_right_eq_some, Option.some.injEq] at h
    obtain ⟨l, hl, hself, rfl⟩ := h
    by_cases hnil : l.lst = []
    · refine .inl ⟨fun l' hl' ↦ ?_, _, becomes_copyMembers (hm other l hl) hnil⟩
      rwa [← Option.some.inj (hl.symm.trans hl')]
    · refine .inr (.inr ⟨fun hc ↦ hnil (hc l hl), other, l, ?_, hl, hnil, rfl⟩)
      intro (heq : self = other)
      subst heq
      simp [hself] at hl
  | copyAssign self other =>
    simp only [step, copyAssign, Option.bind_eq_bind, Option.bind_eq_some_iff] at h
    obtain ⟨l, hl, l₀, hl₀, h⟩ := h
    split at h
    all_goals
      rename_i heq
      obtain rfl := Option.some.inj h
    · exact .inl ⟨.inl heq, l₀, becomes_self hl₀ (hm self l₀ hl₀)⟩
    · by_cases hnil : l.lst = []
      · refine .inl ⟨.inr fun l' hl' ↦ ?_, _, becomes_copyMembers (hm other l hl) hnil⟩
        rwa [← Option.some.inj (hl.symm.trans hl')]
      · exact .inr (.inr ⟨fun hc ↦ hnil (hc.resolve_left heq l hl), other, l, heq, hl, hnil, rfl⟩)

/-- **Which steps keep the objects coupled**: those that copy no elements. -/
theorem coupled_step_iff (h : m.step e = some m') (hm : m.Coupled) :
    m'.Coupled ↔ m.CopiesNothing e := by
  rcases step_cases hm h with ⟨hok, l, hm'⟩ | ⟨hok, rfl⟩ | ⟨hnok, other, l, hne, hl, hcons, rfl⟩
  · exact iff_of_true (hm'.all hm) hok
  · refine iff_of_true (fun a l hl ↦ ?_) hok
    by_cases ha : a = e.target
    · subst ha
      simp at hl
    · exact hm a l ((Function.update_of_ne ha none m.objects).symm.trans hl)
  · exact iff_of_false (not_coupled_copyMembers (hm other l hl) hne hcons) hnok

/-- When the objects are coupled, a step changes no object that it is not about. -/
theorem objects_step (hm : m.Coupled) (h : m.step e = some m') {other : ℕ}
    (hne : other ≠ e.target) : m'.objects other = m.objects other := by
  rcases step_cases hm h with ⟨-, l, hm'⟩ | ⟨-, rfl⟩ | ⟨-, _, l, -, -, -, rfl⟩
  · rw [hm'.objects, Function.update_of_ne hne]
  · exact Function.update_of_ne hne _ _
  · rw [objects_copyMembers, Function.update_of_ne hne]

/-! ## Runs -/

/-- Where a run of a program ends. -/
def run (es : List (Event T)) : Option (Memory T) := Steps.steps step init es

/-- In every state that the run goes through, every iterator in a map points into the object's own
list; and no step changes an object that it is not about. -/
structure Independent (es : List (Event T)) : Prop where
  coupled : ∀ fs gs m, es = fs ++ gs → run fs = some m → m.Coupled
  apart : ∀ fs e gs m m', es = fs ++ e :: gs → run fs = some m → m.step e = some m' →
    ∀ other ≠ e.target, m'.objects other = m.objects other

/-- **Which objects are independent**: those of a run that copies no elements, or copies them only
to where they are. -/
theorem independent_iff {es : List (Event T)} {m : Memory T} (h : run es = some m) :
    Independent es ↔ Steps.Meets step CopiesNothing init es := by
  rw [Steps.meets_iff (fun _ ↦ id)
    (fun _ _ _ hm' hm ↦ ⟨(coupled_step_iff hm' hm).mpr, (coupled_step_iff hm' hm).mp⟩) h
    coupled_init]
  constructor
  · exact fun hi ↦ hi.coupled
  · intro hcoupled
    refine ⟨hcoupled, ?_⟩
    intro fs e gs m m' heq hm hm' other hne
    exact objects_step (hcoupled fs (e :: gs) m heq hm) hm' hne

theorem independent_iff_small :
    Independent [.construct 0 [2, 5], .construct 1 [], .copyConstruct 2 1, .call 2 (.pushBack 5),
        .copyAssign 2 2, .call 0 (.erase 5), .destroy 1] ↔
      Steps.Meets step CopiesNothing (init : Memory ℕ) [.construct 0 [2, 5], .construct 1 [],
        .copyConstruct 2 1, .call 2 (.pushBack 5), .copyAssign 2 2, .call 0 (.erase 5),
        .destroy 1] :=
  independent_iff (m := _) rfl

/-- A list with one element is copied. -/
theorem not_independent : ¬ ∀ (es : List (Event ℕ)) m, run es = some m → Independent es := by
  intro h
  have hi := h [.construct 0 [5], .copyConstruct 1 0] _ rfl
  have hcopy := hi.coupled _ [] _ (List.append_nil _).symm rfl 1 _ rfl
  obtain ⟨n, heq, -⟩ := (hcopy.umap 5 ⟨0, some 0⟩).mp rfl
  exact Nat.zero_ne_one (congrArg Iter.owner heq)

/-- Erasing a value from a copy takes it out of the original, and leaves it in the copy. -/
example : (run [.construct 0 [5], .copyConstruct 1 0, .call 1 (.erase 5)]).map
    (fun m ↦ ((m.objects 0).map HashList.values, (m.objects 1).map HashList.values))
      = some (some [], some [5]) := by decide

end Memory
end Estd
end Cppkg
