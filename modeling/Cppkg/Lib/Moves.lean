import Cppkg.Lib.Steps
import Mathlib.Data.List.Nodup
import Mathlib.Data.List.Pairwise
import Mathlib.Logic.Function.Iterate

/-!
# Moving things one after the other

Things are at places, one thing at a place.  A move takes what is at one place to another, and what
was there is lost.  Moves that are made one after the other do what they would do all at once if no
place is moved to or from before it is moved from, and only then: that is `keeps_iff`.

A move from a place to itself may be left out.  Things can also be changed where they are, one after
the other, `steps_change`.
-/

set_option autoImplicit false

namespace Moves

open Steps

variable {ι γ : Type} [DecidableEq ι]

/-- Move what is at `m.1` to `m.2`, if there is anything. -/
def move (fs : ι → Option γ) (m : ι × ι) : Option (ι → Option γ) :=
  match fs m.1 with
  | some c => some (Function.update (Function.update fs m.1 none) m.2 (some c))
  | none => none

/-- The moves `ms` are all the moves of `all` but some from a place to itself. -/
inductive Made : List (ι × ι) → List (ι × ι) → Prop
  | nil : Made [] []
  | make {all ms : List (ι × ι)} (m : ι × ι) (h : Made all ms) : Made (m :: all) (m :: ms)
  | skip {all ms : List (ι × ι)} (a : ι) (h : Made all ms) : Made ((a, a) :: all) ms

variable (γ) in
/-- If there is something at each place that is moved from, then it ends up at the place that it is
moved to. -/
def Keeps (all ms : List (ι × ι)) : Prop :=
  ∀ fs : ι → Option γ, (∀ m ∈ all, fs m.1 ≠ none) →
    ∃ fs', steps move fs ms = some fs' ∧ ∀ m ∈ all, fs' m.2 = fs m.1

variable {fs fs' : ι → Option γ} {m m' : ι × ι} {all ms : List (ι × ι)} {x : ι} {c : γ}

theorem move_eq_some (h : fs m.1 = some c) :
    move fs m = some (Function.update (Function.update fs m.1 none) m.2 (some c)) := by
  rw [move, h]

/-- **One move**: what was moved, and what is left. -/
theorem of_move (h : move fs m = some fs') :
    fs' m.2 = fs m.1 ∧ (m.1 ≠ m.2 → fs' m.1 = none) ∧ ∀ x, x ≠ m.1 → x ≠ m.2 → fs' x = fs x := by
  rw [move] at h
  split at h
  · rename_i c hc
    obtain rfl := Option.some.inj h
    refine ⟨by simp [hc], fun hne ↦ by simp [hne], fun x hx hx' ↦ by simp [hx, hx']⟩
  · cases h

/-! ## Enough -/

/-- The places a list of moves is about. -/
def Untouched (all : List (ι × ι)) (x : ι) : Prop := ∀ m ∈ all, x ≠ m.1 ∧ x ≠ m.2

/-- No place is moved to twice, and none is moved to or from before it is moved from. -/
def Apart (m m' : ι × ι) : Prop := m.2 ≠ m'.2 ∧ m.1 ≠ m'.1 ∧ m.2 ≠ m'.1

theorem steps_of_apart (hmade : Made all ms) (hapart : all.Pairwise Apart)
    (hfs : ∀ m ∈ all, fs m.1 ≠ none) :
    ∃ fs', steps move fs ms = some fs' ∧ (∀ m ∈ all, fs' m.2 = fs m.1) ∧
      ∀ x, Untouched all x → fs' x = fs x := by
  induction hmade generalizing fs with
  | nil => exact ⟨fs, rfl, by simp, fun _ _ ↦ rfl⟩
  | @make all ms m _ ih =>
    obtain ⟨hm, hapart⟩ := List.pairwise_cons.mp hapart
    obtain ⟨c, hc⟩ := Option.ne_none_iff_exists'.mp (hfs m List.mem_cons_self)
    have hmove := move_eq_some hc
    generalize Function.update (Function.update fs m.1 none) m.2 (some c) = fs₁ at hmove
    obtain ⟨hto, -, hrest⟩ := of_move hmove
    -- the places that are moved from later are as they were
    have hlater : ∀ m' ∈ all, fs₁ m'.1 = fs m'.1 :=
      fun m' hm' ↦ hrest _ (hm m' hm').2.1.symm (hm m' hm').2.2.symm
    have hfs₁ : ∀ m' ∈ all, fs₁ m'.1 ≠ none := fun m' hm' ↦ by
      rw [hlater m' hm']
      exact hfs m' (List.mem_cons_of_mem m hm')
    obtain ⟨fs', hsteps, hdone, hframe⟩ := ih hapart hfs₁
    refine ⟨fs', by rw [steps_cons, hmove]; exact hsteps, fun m' hm' ↦ ?_, fun x hx ↦ ?_⟩
    · rcases List.mem_cons.mp hm' with rfl | hm'
      · rw [hframe m'.2 fun m₂ hm₂ ↦ ⟨(hm m₂ hm₂).2.2, (hm m₂ hm₂).1⟩, hto]
      · rw [hdone m' hm', hlater m' hm']
    · obtain ⟨hx1, hx2⟩ := hx m List.mem_cons_self
      rw [hframe x fun m' hm' ↦ hx m' (List.mem_cons_of_mem m hm'), hrest x hx1 hx2]
  | @skip all ms a _ ih =>
    obtain ⟨hm, hapart⟩ := List.pairwise_cons.mp hapart
    obtain ⟨fs', hsteps, hdone, hframe⟩ :=
      ih hapart fun m' hm' ↦ hfs m' (List.mem_cons_of_mem _ hm')
    refine ⟨fs', hsteps, fun m' hm' ↦ ?_, fun x hx ↦ ?_⟩
    · rcases List.mem_cons.mp hm' with rfl | hm'
      · exact hframe a fun m₂ hm₂ ↦ ⟨(hm m₂ hm₂).2.2, (hm m₂ hm₂).1⟩
      · exact hdone m' hm'
    · exact hframe x fun m' hm' ↦ hx m' (List.mem_cons_of_mem _ hm')

/-- A place that something is moved from, and nothing is moved to, is empty in the end. -/
theorem steps_emptied (h : steps move fs ms = some fs') (hto : ∀ m ∈ ms, m.2 ≠ x)
    (hfrom : fs x = none ∨ ∃ m ∈ ms, m.1 = x) : fs' x = none := by
  induction ms generalizing fs with
  | nil =>
    obtain rfl := steps_nil_iff.mp h
    simpa using hfrom
  | cons m ms ih =>
    obtain ⟨fs₁, hm, h⟩ := steps_cons_iff.mp h
    obtain ⟨-, hgone, hrest⟩ := of_move hm
    refine ih h (fun m' hm' ↦ hto m' (List.mem_cons_of_mem m hm')) ?_
    have hne : m.2 ≠ x := hto m List.mem_cons_self
    by_cases hx : m.1 = x
    · exact .inl (hx ▸ hgone (hx ▸ hne.symm))
    · rcases hfrom with hnone | ⟨m', hm', hx'⟩
      · exact .inl (by rw [hrest x (Ne.symm hx) hne.symm, hnone])
      · rcases List.mem_cons.mp hm' with rfl | hm'
        · exact absurd hx' hx
        · exact .inr ⟨m', hm', hx'⟩

/-! ## Changing things where they are -/

/-- Change what is at `x`, if there is anything. -/
def change (f : γ → γ) (fs : ι → Option γ) (x : ι) : Option (ι → Option γ) :=
  match fs x with
  | some c => some (Function.update fs x (some (f c)))
  | none => none

/-- **Changes one after the other**: each thing is changed as often as its place is named. -/
theorem steps_change {f : γ → γ} {xs : List ι} (h : ∀ x ∈ xs, fs x ≠ none) :
    steps (change f) fs xs = some fun x ↦ (fs x).map f^[xs.countP fun y ↦ y = x] := by
  induction xs generalizing fs with
  | nil => simp
  | cons x xs ih =>
    obtain ⟨c, hc⟩ := Option.ne_none_iff_exists'.mp (h x List.mem_cons_self)
    have hchange : change f fs x = some (Function.update fs x (some (f c))) := by
      rw [change, hc]
    have hthere : ∀ y ∈ xs, Function.update fs x (some (f c)) y ≠ none := fun y hy ↦ by
      by_cases hyx : y = x
      · simp [hyx]
      · rw [Function.update_of_ne hyx]
        exact h y (List.mem_cons_of_mem x hy)
    rw [steps_cons, hchange, Option.bind_some, ih hthere]
    congr 1
    funext y
    by_cases hyx : y = x
    · rw [hyx, Function.update_self, hc, List.countP_cons_of_pos (by simp)]
      rfl
    · rw [Function.update_of_ne hyx, List.countP_cons_of_neg (by simpa using Ne.symm hyx)]

/-- If no place is named twice, the things there are changed once, and no others. -/
theorem steps_change_of_nodup {f : γ → γ} {xs : List ι} (hxs : xs.Nodup)
    (h : ∀ x ∈ xs, fs x ≠ none) :
    ∃ fs', steps (change f) fs xs = some fs' ∧ (∀ x ∈ xs, fs' x = (fs x).map f) ∧
      ∀ x, x ∉ xs → fs' x = fs x := by
  have hcount : ∀ x, (xs.countP fun y ↦ y = x) = xs.count x := fun _ ↦ rfl
  refine ⟨_, steps_change h, fun x hx ↦ ?_, fun x hx ↦ ?_⟩
  · rw [hcount, List.count_eq_one_of_mem hxs hx, Function.iterate_one]
  · rw [hcount, List.count_eq_zero_of_not_mem hx, Function.iterate_zero, Option.map_id, id]

/-! ## Necessary -/

/-- There is one `c` at most. -/
def Single (c : γ) (fs : ι → Option γ) : Prop := ∀ x y, fs x = some c → fs y = some c → x = y

/-- There is a `c` only at `x`, if at all. -/
def OnlyAt (c : γ) (x : ι) (fs : ι → Option γ) : Prop := ∀ y, fs y = some c → y = x

/-- Where something is after a move, and where it was. -/
theorem of_move_eq_some (h : move fs m = some fs') {y : ι} (hy : fs' y = some c) :
    (y = m.2 ∧ fs m.1 = some c) ∨ (y ≠ m.2 ∧ y ≠ m.1 ∧ fs y = some c) := by
  obtain ⟨hto, hfrom, hrest⟩ := of_move h
  by_cases h2 : y = m.2
  · exact .inl ⟨h2, by rw [← hto, ← h2, hy]⟩
  · by_cases h1 : y = m.1
    · subst h1
      rw [hfrom h2] at hy
      cases hy
    · exact .inr ⟨h2, h1, by rw [← hrest y h1 h2, hy]⟩

/-- A move makes no copy. -/
theorem Single.move (hs : Single c fs) (h : move fs m = some fs') : Single c fs' := by
  intro x y hx hy
  rcases of_move_eq_some h hx with ⟨rfl, hx'⟩ | ⟨-, hx1, hx'⟩
  · rcases of_move_eq_some h hy with ⟨rfl, -⟩ | ⟨-, hy1, hy'⟩
    · rfl
    · exact absurd (hs _ _ hy' hx') hy1
  · rcases of_move_eq_some h hy with ⟨rfl, hy'⟩ | ⟨-, -, hy'⟩
    · exact absurd (hs _ _ hx' hy') hx1
    · exact hs _ _ hx' hy'

/-- What is at `x` stays there, or is lost, until it is moved from there. -/
theorem OnlyAt.move (hx : OnlyAt c x fs) (h : Moves.move fs m = some fs') (hne : m.1 ≠ x) :
    OnlyAt c x fs' := by
  intro y hy
  rcases of_move_eq_some h hy with ⟨-, hy'⟩ | ⟨-, -, hy'⟩
  · exact absurd (hx _ hy') hne
  · exact hx _ hy'

/-- Moving something else there is the end of it. -/
theorem OnlyAt.lost (hx : OnlyAt c x fs) (h : Moves.move fs m = some fs') (hne : m.1 ≠ x)
    (hto : m.2 = x) (y : ι) : fs' y ≠ some c := by
  intro hy
  rcases of_move_eq_some h hy with ⟨-, hy'⟩ | ⟨hy2, -, hy'⟩
  · exact hne (hx _ hy')
  · exact hy2 (hto ▸ hx _ hy')

/-- What is lost does not come back. -/
theorem steps_lost (hs : ∀ y, fs y ≠ some c) (h : steps move fs ms = some fs') (y : ι) :
    fs' y ≠ some c := by
  refine steps_inv_all (P := fun fs ↦ ∀ y, fs y ≠ some c) ?_ h hs y
  intro s m s' hm hs y hy
  rcases of_move_eq_some hm hy with ⟨-, hy'⟩ | ⟨-, -, hy'⟩
  · exact hs _ hy'
  · exact hs _ hy'

omit [DecidableEq ι] in
/-- A move that is not from a place to itself was made. -/
theorem Made.of_append_cons {l₁ l₂ : List (ι × ι)} (h : Made (l₁ ++ m :: l₂) ms) (hm : m.1 ≠ m.2) :
    ∃ ms₁ ms₂, ms = ms₁ ++ m :: ms₂ ∧ ∀ m' ∈ ms₁, m' ∈ l₁ := by
  induction l₁ generalizing ms with
  | nil =>
    cases h with
    | make _ h => exact ⟨[], _, rfl, by simp⟩
    | skip a _ => exact absurd rfl hm
  | cons m₁ l₁ ih =>
    cases h with
    | make _ h =>
      obtain ⟨ms₁, ms₂, rfl, hmem⟩ := ih h
      refine ⟨m₁ :: ms₁, ms₂, rfl, fun m' hm' ↦ ?_⟩
      rcases List.mem_cons.mp hm' with rfl | hm'
      · exact List.mem_cons_self
      · exact List.mem_cons_of_mem _ (hmem m' hm')
    | skip a h =>
      obtain ⟨ms₁, ms₂, rfl, hmem⟩ := ih h
      exact ⟨ms₁, ms₂, rfl, fun m' hm' ↦ List.mem_cons_of_mem _ (hmem m' hm')⟩

variable [Nontrivial γ]

/-- Something that is nowhere else, and something else everywhere else. -/
theorem exists_onlyAt (γ : Type) [Nontrivial γ] (x : ι) :
    ∃ (fs : ι → Option γ) (c : γ), (∀ y, fs y ≠ none) ∧ fs x = some c ∧ OnlyAt c x fs := by
  obtain ⟨c, c', hne⟩ := exists_pair_ne γ
  refine ⟨fun y ↦ if y = x then some c else some c', c, fun y ↦ ?_, if_pos rfl, fun y hy ↦ ?_⟩
  · simp only
    split <;> simp
  · by_contra hyx
    simp only [if_neg hyx, Option.some.injEq] at hy
    exact hne hy.symm

/-- Two things cannot be moved from the same place. -/
theorem Keeps.from_ne (h : Keeps γ all ms) (hm : m ∈ all) (hm' : m' ∈ all) (hto : m.2 ≠ m'.2) :
    m.1 ≠ m'.1 := by
  intro heq
  obtain ⟨fs, c, hfs, hc, honly⟩ := exists_onlyAt γ m.1
  obtain ⟨fs', hsteps, hdone⟩ := h fs fun m _ ↦ hfs m.1
  have hsingle : Single c fs' := by
    refine steps_inv_all (fun s m s' hm hs ↦ hs.move hm) hsteps fun x y hx hy ↦ ?_
    rw [honly x hx, honly y hy]
  exact hto (hsingle _ _ (by rw [hdone m hm, hc]) (by rw [hdone m' hm', ← heq, hc]))

/-- Nothing can be moved to a place from which something is moved later. -/
theorem Keeps.to_ne {l₁ l₂ : List (ι × ι)} (hmade : Made (l₁ ++ m :: l₂) ms)
    (h : Keeps γ (l₁ ++ m :: l₂) ms) (hm' : m' ∈ l₂)
    (hfrom : ∀ m₁ ∈ l₁, m₁.1 ≠ m'.1) (hne : m.1 ≠ m'.1) : m.2 ≠ m'.1 := by
  intro heq
  obtain ⟨ms₁, ms₂, rfl, hmem⟩ := hmade.of_append_cons (heq ▸ hne)
  obtain ⟨fs, c, hfs, hc, honly⟩ := exists_onlyAt γ m'.1
  obtain ⟨fs', hsteps, hdone⟩ := h fs fun m _ ↦ hfs m.1
  obtain ⟨s₁, s₂, h₁, h₂, h₃⟩ := steps_append_cons hsteps
  have hmeets : Meets move (fun _ m₁ ↦ m₁.1 ≠ m'.1) fs ms₁ :=
    meets_of_forall fun m₁ hm₁ _ ↦ hfrom m₁ (hmem m₁ hm₁)
  have honly₁ : OnlyAt c m'.1 s₁ :=
    steps_inv (fun s m₁ s' hok hs ho ↦ ho.move hs hok) hmeets h₁ honly
  have hlost := steps_lost (honly₁.lost h₂ hne heq) h₃ m'.2
  exact hlost (by rw [hdone m' (by simp [hm']), hc])

/-- **When moves one after the other lose nothing**: when nothing is moved from or to a place before
what is moved from there. -/
theorem keeps_iff (hmade : Made all ms) (hto : all.Pairwise fun m m' ↦ m.2 ≠ m'.2) :
    Keeps γ all ms ↔ all.Pairwise fun m m' ↦ m.1 ≠ m'.1 ∧ m.2 ≠ m'.1 := by
  constructor
  · intro h
    have hfrom : all.Pairwise fun m m' ↦ m.1 ≠ m'.1 := by
      refine hto.imp_of_mem ?_
      intro m m' hm hm' hne
      exact h.from_ne hm hm' hne
    refine hfrom.and (List.pairwise_iff_forall_sublist.mpr ?_)
    intro m m' hsub
    obtain ⟨r₁, r₂, rfl, hmem, hsub'⟩ := List.cons_sublist_iff.mp hsub
    obtain ⟨l₁, l₂, rfl⟩ := List.append_of_mem hmem
    have hm' : m' ∈ l₂ ++ r₂ := List.mem_append_right _ (List.singleton_sublist.mp hsub')
    rw [List.append_assoc, List.cons_append] at hmade h hfrom
    obtain ⟨-, hright, hcross⟩ := List.pairwise_append.mp hfrom
    exact h.to_ne hmade hm' (fun m₁ hm₁ ↦ hcross m₁ hm₁ m' (List.mem_cons_of_mem m hm'))
      ((List.pairwise_cons.mp hright).1 m' hm')
  · intro h fs hfs
    obtain ⟨fs', hsteps, hdone, -⟩ := steps_of_apart hmade (hto.and h) hfs
    exact ⟨fs', hsteps, hdone⟩

end Moves
