import Cppkg.Estd.Copies

/-!
# How long an iterator is good

`push_back` and `insert` return an iterator, which the map keeps.  It is good as long as the value
stays in the list, whatever else is done with the object or with others; and an iterator that was
good once never comes to stand for another value, or for a value in another list, because a node is
never used twice.  Both are in `iterators_stable`, for the programs that copy no elements.
-/

set_option autoImplicit false

namespace Cppkg
namespace Estd
namespace Memory

open HashList

variable {T : Type} [DecidableEq T] {m m' m₁ m₂ : Memory T} {self : ℕ} {l l' : HashList T} {val : T}
  {it : Iter} {e : Event T} {es fs gs : List (Event T)}

/-! ## What an operation does to the nodes -/

/-- Each node of `l'` is one of `l`, or is a new one with a new value. -/
def Renews (m : Memory T) (l l' : HashList T) : Prop :=
  ∀ c ∈ l'.lst, c ∈ l.lst ∨ m.next ≤ c.1 ∧ c.2 ∉ l.values

omit [DecidableEq T] in
theorem Renews.refl (m : Memory T) (l : HashList T) : m.Renews l l := fun _ hc ↦ .inl hc

omit [DecidableEq T] in
/-- Nodes go. -/
theorem Renews.of_subset (h : l'.lst ⊆ l.lst) : m.Renews l l' := fun _ hc ↦ .inl (h hc)

theorem renews_insert (hl : m.objects self = some l) (hc : l.Coupled self m.next)
    {position it : Iter} (h : m.insert self position val = some (m', it)) :
    ∃ l', m'.objects self = some l' ∧ m.Renews l l' := by
  simp only [insert, hl, Option.bind_eq_bind, Option.bind_some] at h
  split at h
  · cases h
    exact ⟨l, hl, .refl m l⟩
  · rename_i hval
    simp only [Option.ite_none_right_eq_some, Option.bind_eq_some_iff] at h
    obtain ⟨-, i, -, h⟩ := h
    cases h
    refine ⟨_, Function.update_self _ _ _, fun c hmem ↦ ?_⟩
    rcases List.mem_append.mp hmem with hmem | hmem
    · exact .inl (List.mem_of_mem_take hmem)
    · rcases List.mem_cons.mp hmem with rfl | hmem
      · exact .inr ⟨Nat.le_refl _, hc.notMem_values hval⟩
      · exact .inl (List.mem_of_mem_drop hmem)

theorem renews_pushBack (hl : m.objects self = some l) (hc : l.Coupled self m.next)
    (h : m.pushBack self val = some (m', it)) :
    ∃ l', m'.objects self = some l' ∧ m.Renews l l' := by
  have hinsert : m.pushBack self val = m.insert self ⟨self, none⟩ val := by
    simp [pushBack, insert, hl, indexOf]
  exact renews_insert hl hc (hinsert.symm.trans h)

theorem renews_erase (hl : m.objects self = some l) (hc : l.Coupled self m.next)
    (h : m.erase self val = some m') : ∃ l', m'.objects self = some l' ∧ m.Renews l l' := by
  cases hval : l.umap val with
  | none =>
    obtain rfl : m = m' := by simpa [erase, hl, hval] using h
    exact ⟨l, hl, .refl m l⟩
  | some position =>
    obtain ⟨n, i, rfl, hindex, -⟩ := hc.indexOf_umap hval
    simp only [erase, listErase, hl, hval, hindex, put, Option.bind_eq_bind, Option.bind_some,
      Function.update_self, Option.some.injEq] at h
    obtain rfl := h
    exact ⟨_, Function.update_self _ _ _, .of_subset (List.eraseIdx_sublist _ _).subset⟩

theorem renews_popBack (hl : m.objects self = some l) (h : m.popBack self = some m') :
    ∃ l', m'.objects self = some l' ∧ m.Renews l l' := by
  simp only [popBack, hl, Option.bind_eq_bind, Option.bind_some] at h
  split at h
  · obtain rfl := Option.some.inj h
    exact ⟨l, hl, .refl m l⟩
  · obtain rfl := Option.some.inj h
    exact ⟨_, Function.update_self _ _ _, .of_subset (List.dropLast_subset _)⟩

/-- **One operation**: nodes go, and a new one may come. -/
theorem renews_call {op : OrderedSet.Op T} {ret : Option Iter} (hl : m.objects self = some l)
    (hc : l.Coupled self m.next) (h : m.call self op = some (m', ret)) :
    ∃ l', m'.objects self = some l' ∧ m.Renews l l' := by
  cases op with
  | pushBack val =>
    obtain ⟨⟨m₁, it⟩, hcall, heq⟩ := Option.map_eq_some_iff.mp h
    cases heq
    exact renews_pushBack hl hc hcall
  | insert i val =>
    simp only [call, hl, Option.bind_eq_bind, Option.bind_some, Option.ite_none_right_eq_some,
      Option.map_eq_some_iff] at h
    obtain ⟨-, ⟨m₁, it⟩, hcall, heq⟩ := h
    cases heq
    exact renews_insert hl hc hcall
  | erase val =>
    obtain ⟨m₁, hcall, heq⟩ := Option.map_eq_some_iff.mp h
    cases heq
    exact renews_erase hl hc hcall
  | popBack =>
    obtain ⟨m₁, hcall, heq⟩ := Option.map_eq_some_iff.mp h
    cases heq
    exact renews_popBack hl hcall
  | clear =>
    obtain ⟨m₁, hcall, heq⟩ := Option.map_eq_some_iff.mp h
    cases heq
    simp only [clear, hl, Option.bind_eq_bind, Option.bind_some, Option.some.injEq] at hcall
    obtain rfl := hcall
    exact ⟨_, Function.update_self _ _ _, .of_subset (List.nil_subset _)⟩

/-- The constructor uses new nodes. -/
theorem le_of_pushAll {vals : List T} {k : ℕ} (hl : m.objects self = some l)
    (hc : l.Coupled self m.next) (hk : k ≤ m.next) (hnodes : ∀ c ∈ l.lst, k ≤ c.1)
    (h : vals.foldlM (fun m val ↦ (m.pushBack self val).map Prod.fst) m = some m')
    (hl' : m'.objects self = some l') : ∀ c ∈ l'.lst, k ≤ c.1 := by
  induction vals generalizing m l with
  | nil =>
    obtain rfl : m = m' := Option.some.inj h
    obtain rfl := Option.some.inj (hl.symm.trans hl')
    exact hnodes
  | cons val vals ih =>
    obtain ⟨m₁, l₁, it, hcall, hm₁, -⟩ := pushBack_spec val hl hc
    rw [List.foldlM_cons, hcall] at h
    obtain ⟨l₂, hl₂, hrenews⟩ := renews_pushBack hl hc hcall
    obtain rfl : l₁ = l₂ := Option.some.inj (hm₁.object.symm.trans hl₂)
    refine ih hm₁.object hm₁.coupled (Nat.le_trans hk hm₁.next_le) (fun c hmem ↦ ?_) h
    rcases hrenews c hmem with hold | ⟨hnew, -⟩
    · exact hnodes c hold
    · exact Nat.le_trans hk hnew

/-- **One step**: an object that was there has its nodes renewed, and one that was not has new
nodes. -/
theorem renews_step (hm : m.Coupled) (hok : m.CopiesNothing e) (h : m.step e = some m') {a : ℕ}
    (hl' : m'.objects a = some l') : (∃ l, m.objects a = some l ∧ m.Renews l l') ∨
      m.objects a = none ∧ ∀ c ∈ l'.lst, m.next ≤ c.1 := by
  by_cases ha : a = e.target
  · subst ha
    cases e with
    | construct self vals =>
      obtain ⟨hself, hrun⟩ := Option.ite_none_right_eq_some.mp h
      have hempty : (m.put self .empty).objects self = some .empty := Function.update_self _ _ _
      have hnone : ∀ c ∈ (HashList.empty : HashList T).lst, m.next ≤ c.1 :=
        fun c hc ↦ absurd hc List.not_mem_nil
      exact .inr ⟨hself, le_of_pushAll hempty coupled_empty (Nat.le_refl _) hnone hrun hl'⟩
    | copyConstruct self other =>
      simp only [step, copyConstruct, Option.bind_eq_bind, Option.bind_eq_some_iff,
        Option.ite_none_right_eq_some, Option.some.injEq] at h
      obtain ⟨l, hl, hself, rfl⟩ := h
      refine .inr ⟨hself, ?_⟩
      have hnil : l.lst = [] := hok l hl
      rw [objects_copyMembers, Event.target, Function.update_self, Option.some.injEq] at hl'
      simp [← hl', hnil]
    | copyAssign self other =>
      simp only [step, copyAssign, Option.bind_eq_bind, Option.bind_eq_some_iff] at h
      obtain ⟨l, hl, l₀, hl₀, h⟩ := h
      split at h
      · obtain rfl := Option.some.inj h
        exact .inl ⟨l', hl', .refl m l'⟩
      · rename_i hne
        obtain rfl := Option.some.inj h
        have hnil : l.lst = [] := hok.resolve_left hne l hl
        rw [objects_copyMembers, Event.target, Function.update_self, Option.some.injEq] at hl'
        exact .inl ⟨l₀, hl₀, .of_subset (by simp [← hl', hnil])⟩
    | destroy self =>
      simp only [step, destroy, Option.bind_eq_bind, Option.bind_eq_some_iff,
        Option.some.injEq] at h
      obtain ⟨l, -, rfl⟩ := h
      simp [Event.target] at hl'
    | call self op =>
      obtain ⟨⟨m₁, ret⟩, hcall, rfl⟩ := Option.map_eq_some_iff.mp h
      obtain ⟨l, hl, -⟩ := exists_of_call hcall
      obtain ⟨l₁, hl₁, hrenews⟩ := renews_call hl (hm self l hl) hcall
      obtain rfl := Option.some.inj (hl₁.symm.trans hl')
      exact .inl ⟨l, hl, hrenews⟩
  · rw [objects_step hm h ha] at hl'
    exact .inl ⟨l', hl', .refl m l'⟩

theorem next_le_step (hm : m.Coupled) (h : m.step e = some m') : m.next ≤ m'.next := by
  rcases step_cases hm h with ⟨-, l, hm'⟩ | ⟨-, rfl⟩ | ⟨-, other, l, -, -, -, rfl⟩
  · exact hm'.next_le
  · exact Nat.le_refl _
  · exact Nat.le_add_right _ _

/-- A value that stays in the list stays where it is. -/
theorem umap_step (hm : m.Coupled) (hok : m.CopiesNothing e) (h : m.step e = some m')
    (hl : m.objects self = some l) (hit : l.umap val = some it) (hl' : m'.objects self = some l')
    (hval : val ∈ l'.values) : l'.umap val = some it := by
  have hc' := (coupled_step_iff h hm).mpr hok self l' hl'
  obtain ⟨⟨n, v⟩, hmem, rfl⟩ := List.mem_map.mp hval
  rcases renews_step hm hok h hl' with ⟨l₁, hl₁, hrenews⟩ | ⟨hnone, -⟩
  · obtain rfl := Option.some.inj (hl₁.symm.trans hl)
    have hc := hm self l₁ hl
    rcases hrenews _ hmem with hold | ⟨-, hnew⟩
    · have hown := (hc.umap v ⟨self, some n⟩).mpr ⟨n, rfl, hold⟩
      rw [← hit, hown]
      exact (hc'.umap v _).mpr ⟨n, rfl, hmem⟩
    · exact absurd (hc.mem_values.mpr (Option.isSome_iff_exists.mpr ⟨it, hit⟩)) hnew
  · cases hnone.symm.trans hl

/-- A node that is not new was there. -/
theorem mem_of_step (hm : m.Coupled) (hok : m.CopiesNothing e) (h : m.step e = some m') {a : ℕ}
    {c : ℕ × T} (hl' : m'.objects a = some l') (hmem : c ∈ l'.lst) (hlt : c.1 < m.next) :
    ∃ l, m.objects a = some l ∧ c ∈ l.lst := by
  rcases renews_step hm hok h hl' with ⟨l, hl, hrenews⟩ | ⟨-, hnew⟩
  · rcases hrenews c hmem with hold | ⟨hnew, -⟩
    · exact ⟨l, hl, hold⟩
    · exact absurd hlt (Nat.not_lt_of_le hnew)
  · exact absurd hlt (Nat.not_lt_of_le (hnew c hmem))

/-! ## Runs -/

/-- The objects stay coupled in a run that copies no elements. -/
theorem coupled_steps (hm : m.Coupled) (hok : Steps.Meets step CopiesNothing m es)
    (h : Steps.steps step m es = some m') : m'.Coupled :=
  Steps.steps_inv (fun _ _ _ hok h hm ↦ (coupled_step_iff h hm).mpr hok) hok h hm

/-- The value is in the list of the object after the step. -/
def KeepsValue (self : ℕ) (val : T) (m : Memory T) (e : Event T) : Prop :=
  ∀ m' ∈ m.step e, ∃ l ∈ m'.objects self, val ∈ l.values

instance (self : ℕ) (val : T) (m : Memory T) (e : Event T) :
    Decidable (KeepsValue self val m e) :=
  inferInstanceAs (Decidable (∀ _ ∈ _, _))

theorem umap_steps (hm : m.Coupled) (hok : Steps.Meets step CopiesNothing m es)
    (h : Steps.steps step m es = some m') (hl : m.objects self = some l)
    (hit : l.umap val = some it) (hkeeps : Steps.Meets step (KeepsValue self val) m es) :
    ∃ l' ∈ m'.objects self, l'.umap val = some it := by
  induction es generalizing m l with
  | nil =>
    obtain rfl := Steps.steps_nil_iff.mp h
    exact ⟨l, hl, hit⟩
  | cons e es ih =>
    obtain ⟨m₁, he, hsteps⟩ := Steps.steps_cons_iff.mp h
    obtain ⟨hfirst, hrest⟩ := (Steps.meets_cons he).mp hok
    obtain ⟨hkeep, hkeeps⟩ := (Steps.meets_cons he).mp hkeeps
    obtain ⟨l₁, hl₁, hval⟩ := hkeep m₁ he
    exact ih ((coupled_step_iff he hm).mpr hfirst) hrest hsteps hl₁
      (umap_step hm hfirst he hl hit hl₁ hval) hkeeps

theorem mem_of_steps (hm : m.Coupled) (hok : Steps.Meets step CopiesNothing m es)
    (h : Steps.steps step m es = some m') {a : ℕ} {c : ℕ × T} (hl' : m'.objects a = some l')
    (hmem : c ∈ l'.lst) (hlt : c.1 < m.next) : ∃ l, m.objects a = some l ∧ c ∈ l.lst := by
  induction es generalizing m with
  | nil =>
    obtain rfl := Steps.steps_nil_iff.mp h
    exact ⟨l', hl', hmem⟩
  | cons e es ih =>
    obtain ⟨m₁, he, hsteps⟩ := Steps.steps_cons_iff.mp h
    obtain ⟨hfirst, hrest⟩ := (Steps.meets_cons he).mp hok
    have hlt₁ := Nat.lt_of_lt_of_le hlt (next_le_step hm he)
    obtain ⟨l₁, hl₁, hmem₁⟩ := ih ((coupled_step_iff he hm).mpr hfirst) hrest hsteps hlt₁
    exact mem_of_step hm hfirst he hl₁ hmem₁ hlt

/-- **How long an iterator is good.**  In a program that copies no elements, the iterator that the
map of an object has for a value is the one that it has for it later, if the value has been in the
list all the time; and if any map has that iterator later, it is the map of that object, and has it
for that value. -/
theorem iterators_stable {fs gs : List (Event T)} (h₁ : run fs = some m₁)
    (h₂ : Steps.steps step m₁ gs = some m₂) (hok₁ : Steps.Meets step CopiesNothing init fs)
    (hok₂ : Steps.Meets step CopiesNothing m₁ gs) (self : ℕ) (val : T) (it : Iter) (l : HashList T)
    (hl : m₁.objects self = some l) (hit : l.umap val = some it) :
    (Steps.Meets step (KeepsValue self val) m₁ gs →
      ∃ l' ∈ m₂.objects self, l'.umap val = some it) ∧
    ∀ a l' val', m₂.objects a = some l' → l'.umap val' = some it → a = self ∧ val' = val := by
  have hm₁ : m₁.Coupled := coupled_steps coupled_init hok₁ h₁
  refine ⟨umap_steps hm₁ hok₂ h₂ hl hit, fun a l' val' hl' hit' ↦ ?_⟩
  have hc := hm₁ self l hl
  obtain ⟨n, rfl, hmem⟩ := (hc.umap val it).mp hit
  obtain ⟨n', heq, hmem'⟩ := ((coupled_steps hm₁ hok₂ h₂ a l' hl').umap val' _).mp hit'
  cases heq
  have hlt := hc.fresh n (List.mem_map.mpr ⟨_, hmem, rfl⟩)
  obtain ⟨l₁, hl₁, hold⟩ := mem_of_steps hm₁ hok₂ h₂ hl' hmem' hlt
  obtain rfl := Option.some.inj (hl₁.symm.trans hl)
  have hsame := List.inj_on_of_nodup_map hc.nodes hold hmem rfl
  exact ⟨rfl, congrArg Prod.snd hsame⟩

/-- An element in the middle, while others come and go around it. -/
theorem iterators_stable_small : ∃ m₁ m₂ : Memory ℕ, run [.construct 0 [2, 5, 7]] = some m₁ ∧
    Steps.steps step m₁ [.call 0 (.insert 1 9), .call 0 (.erase 2)] = some m₂ ∧
    (∃ l' ∈ m₂.objects 0, l'.umap 5 = some ⟨0, some 1⟩) ∧
    ∀ a l' val', m₂.objects a = some l' → l'.umap val' = some ⟨0, some 1⟩ →
      a = 0 ∧ val' = 5 := by
  have hok : ∀ m, Steps.Meets step CopiesNothing m
      [(.construct 0 [2, 5, 7] : Event ℕ)] := fun m ↦
    Steps.meets_of_forall (List.forall_mem_singleton.mpr fun _ ↦ trivial)
  have hok' : ∀ m, Steps.Meets step CopiesNothing m
      [(.call 0 (.insert 1 9) : Event ℕ), .call 0 (.erase 2)] := fun m ↦
    Steps.meets_of_forall (List.forall_mem_cons.mpr ⟨fun _ ↦ trivial,
      List.forall_mem_singleton.mpr fun _ ↦ trivial⟩)
  obtain ⟨hstable, hunique⟩ := @iterators_stable ℕ _ _ _ [.construct 0 [2, 5, 7]]
    [.call 0 (.insert 1 9), .call 0 (.erase 2)] rfl rfl (hok _) (hok' _) 0 5 ⟨0, some 1⟩ _ rfl rfl
  exact ⟨_, _, rfl, rfl, hstable (by decide), hunique⟩

end Memory
end Estd
end Cppkg
