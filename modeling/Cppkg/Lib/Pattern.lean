import Mathlib.Data.List.Infix
import Mathlib.Data.List.TakeWhile

/-!
# Patterns of a fixed length

A pattern is a list of tests, one for each character of a match, so all matches of a pattern have
the same length.  A word is the pattern of the characters it is made of.

* `Pattern.find` is where the first match begins.  `find_word_append` says that a word without a
  border is not found across the end of a text that it does not occur in.
* `Pattern.replace` replaces the matches from left to right.  `replace_append_cons` says that this
  can be done line by line, if no match goes across the end of a line; `length_replace` says that
  the matches that were replaced show in the length; `Swapped` says of two texts that one comes
  from the other so, match by match.
* `Pattern.replaceAll` does that for several rules, one after the other.
-/

set_option autoImplicit false

namespace Pattern

variable {α : Type}

/-- Does `s` begin with a match of `p`? -/
def starts : List (α → Bool) → List α → Bool
  | [], _ => true
  | _ :: _, [] => false
  | t :: p, a :: s => t a && starts p s

/-- Where the first match of `p` begins. -/
def find (p : List (α → Bool)) : List α → Option ℕ
  | [] => if starts p [] = true then some 0 else none
  | a :: s => if starts p (a :: s) = true then some 0 else (find p s).map (· + 1)

/-- Somewhere in `s` there is a match of `p`. -/
def Occurs (p : List (α → Bool)) (s : List α) : Prop := ∃ i, starts p (s.drop i) = true

variable {p : List (α → Bool)} {r s s' : List α} {a : α} {i : ℕ}

@[simp] theorem starts_nil_left (s : List α) : starts [] s = true := by
  cases s <;> rfl

theorem length_le_of_starts (h : starts p s = true) : p.length ≤ s.length := by
  fun_induction starts p s with
  | case1 => exact Nat.zero_le _
  | case2 => simp at h
  | case3 t p a s ih =>
    rw [Bool.and_eq_true] at h
    exact Nat.succ_le_succ (ih h.2)

/-- A match begins with a character that the first test lets through. -/
theorem head_of_starts {t : α → Bool} (h : starts (t :: p) s = true) :
    ∃ a ∈ s.head?, t a = true := by
  cases s with
  | nil => simp [starts] at h
  | cons a s => exact ⟨a, rfl, (Bool.and_eq_true _ _ ▸ h).1⟩

/-- What comes behind a match does not matter. -/
theorem starts_append_of_le (h : p.length ≤ s.length) (s' : List α) :
    starts p (s ++ s') = starts p s := by
  fun_induction starts p s with
  | case1 => simp
  | case2 => simp at h
  | case3 t p a s ih =>
    rw [List.cons_append, starts, ih (Nat.le_of_succ_le_succ h)]

theorem starts_append (h : starts p s = true) (s' : List α) : starts p (s ++ s') = true := by
  rwa [starts_append_of_le (length_le_of_starts h)]

/-- A match of one pattern and, behind it, of another. -/
theorem starts_append_pattern (p q : List (α → Bool)) (s : List α) :
    starts (p ++ q) s = (starts p s && starts q (s.drop p.length)) := by
  induction p generalizing s with
  | nil => simp
  | cons t p ih =>
    cases s with
    | nil => rfl
    | cons a s => rw [List.cons_append, starts, starts, ih, Bool.and_assoc]; rfl

/-- A match does not go on behind a character that no test lets through. -/
theorem starts_append_cons_of_not (ha : ∀ t ∈ p, t a = false) (s' : List α) :
    starts p (s ++ a :: s') = starts p s := by
  induction p generalizing s with
  | nil => simp
  | cons t p ih =>
    cases s with
    | nil => simp [starts, ha t List.mem_cons_self]
    | cons b s =>
      rw [List.cons_append, starts, starts, ih fun t ht ↦ ha t (List.mem_cons_of_mem _ ht)]

/-! ## Finding a match -/

/-- **The first match.** -/
theorem find_eq_some_iff : find p s = some i ↔
    i ≤ s.length ∧ starts p (s.drop i) = true ∧ ∀ j < i, starts p (s.drop j) = false := by
  induction s generalizing i with
  | nil =>
    rw [find]
    split
    · rename_i h
      simp only [Option.some.injEq, List.length_nil, Nat.le_zero, List.drop_nil]
      constructor
      · rintro rfl
        exact ⟨rfl, h, by simp⟩
      · exact fun h ↦ h.1.symm
    · rename_i h
      simp [h]
  | cons a s ih =>
    rw [find]
    split
    · rename_i h
      rw [Option.some.injEq]
      constructor
      · rintro rfl
        exact ⟨Nat.zero_le _, h, by simp⟩
      · rintro ⟨-, -, hmin⟩
        by_contra hne
        have := hmin 0 (by omega)
        simp [h] at this
    · rename_i h
      rw [Option.map_eq_some_iff]
      constructor
      · rintro ⟨j, hj, rfl⟩
        obtain ⟨hle, hst, hmin⟩ := ih.mp hj
        refine ⟨by simpa using hle, by simpa using hst, fun k hk ↦ ?_⟩
        cases k with
        | zero => simpa using h
        | succ k => simpa using hmin k (by omega)
      · rintro ⟨hle, hst, hmin⟩
        cases i with
        | zero => exact absurd hst (by simpa using h)
        | succ i =>
          refine ⟨i, ih.mpr ⟨by simpa using hle, by simpa using hst, fun j hj ↦ ?_⟩, rfl⟩
          simpa using hmin (j + 1) (by omega)

theorem find_eq_none_iff : find p s = none ↔ ¬ Occurs p s := by
  induction s with
  | nil => simp [find, Occurs]
  | cons a s ih =>
    rw [find]
    split
    · rename_i h
      simp only [reduceCtorEq, false_iff, not_not]
      exact ⟨0, h⟩
    · rename_i h
      rw [Option.map_eq_none_iff, ih, not_iff_not]
      constructor
      · exact fun ⟨i, hi⟩ ↦ ⟨i + 1, hi⟩
      · rintro ⟨i, hi⟩
        cases i with
        | zero => exact absurd hi h
        | succ i => exact ⟨i, hi⟩

instance (p : List (α → Bool)) (s : List α) : Decidable (Occurs p s) :=
  decidable_of_iff (¬ find p s = none) (not_iff_comm.mp find_eq_none_iff.symm)

/-- A match that begins where it was found. -/
theorem add_length_le_of_find (h : find p s = some i) : i + p.length ≤ s.length := by
  obtain ⟨hle, hst, -⟩ := find_eq_some_iff.mp h
  have := length_le_of_starts hst
  rw [List.length_drop] at this
  omega

/-! ## Words -/

section word

variable [DecidableEq α]

/-- The pattern of a word. -/
def word (w : List α) : List (α → Bool) := w.map fun a b ↦ b == a

variable {w x : List α}

@[simp] theorem length_word (w : List α) : (word w).length = w.length := List.length_map _

theorem starts_word : starts (word w) s = true ↔ w <+: s := by
  induction w generalizing s with
  | nil => simp [word]
  | cons a w ih =>
    cases s with
    | nil => simp [word, starts]
    | cons b s =>
      rw [word, List.map_cons, starts, Bool.and_eq_true, beq_iff_eq, List.cons_prefix_cons,
        eq_comm]
      exact and_congr_right' ih

theorem occurs_word : Occurs (word w) s ↔ w <:+: s := by
  simp only [Occurs, starts_word]
  constructor
  · exact fun ⟨i, hi⟩ ↦ hi.isInfix.trans (List.drop_suffix i s).isInfix
  · rintro ⟨u, v, rfl⟩
    exact ⟨u.length, by simp⟩

theorem find_word_eq_some (h : find (word w) s = some i) :
    s = s.take i ++ w ++ s.drop (i + w.length) := by
  obtain ⟨-, hst, -⟩ := find_eq_some_iff.mp h
  obtain ⟨v, hv⟩ := starts_word.mp hst
  have hdrop : s.drop (i + w.length) = v := by
    rw [← List.drop_drop, ← hv, List.drop_left]
  rw [hdrop, List.append_assoc, hv, List.take_append_drop]

/-- No proper part at the beginning of the word is also its end. -/
def Unbordered (w : List α) : Prop := ∀ b, b ≠ [] → b ≠ w → b <+: w → ¬ b <:+ w

omit [DecidableEq α] in
/-- A word that begins inside of `x`, in front of itself, is all in `x` or has a border. -/
theorem infix_of_prefix_append (hw : Unbordered w) {u v : List α} (hu : u ≠ [])
    (h : w <+: u ++ (w ++ v)) : w <+: u := by
  rcases Nat.lt_or_ge u.length w.length with hlt | hge
  · obtain ⟨d, rfl⟩ : u <+: w :=
      List.prefix_of_prefix_length_le (List.prefix_append u _) h (Nat.le_of_lt hlt)
    have hd : d <+: u ++ d := by
      have hd' : d <+: (u ++ d) ++ v := (List.prefix_append_right_inj u).mp h
      exact List.prefix_of_prefix_length_le hd' (List.prefix_append _ v) (by simp)
    refine absurd (List.suffix_append u d) (hw d ?_ ?_ hd)
    · rintro rfl
      simp at hlt
    · intro heq
      exact hu (List.self_eq_append_left.mp heq)
  · exact List.prefix_of_prefix_length_le h (List.prefix_append u _) hge

/-- **A word without a border** is not found across the end of a text that it does not occur in. -/
theorem find_word_append (hw : Unbordered w) (hx : ¬ w <:+: x) (v : List α) :
    find (word w) (x ++ (w ++ v)) = some x.length := by
  rw [find_eq_some_iff]
  refine ⟨by simp, by simp [starts_word], fun j hj ↦ ?_⟩
  rw [Bool.eq_false_iff, Ne, starts_word, List.drop_append_of_le_length (Nat.le_of_lt hj)]
  intro hst
  have hne : x.drop j ≠ [] := by simpa using hj
  exact hx ((infix_of_prefix_append hw hne hst).isInfix.trans (List.drop_suffix j x).isInfix)

end word

/-! ## Replacing the matches -/

/-- Replace the matches from left to right.  The number counts what is left of a match that was
replaced. -/
def replaceFrom (p : List (α → Bool)) (r : List α) : ℕ → List α → List α
  | _, [] => []
  | k + 1, _ :: s => replaceFrom p r k s
  | 0, a :: s =>
    if starts p (a :: s) = true then r ++ replaceFrom p r (p.length - 1) s
    else a :: replaceFrom p r 0 s

/-- Replace the matches of `p` in `s` by `r`.  An empty pattern matches in front of every character
and at the end. -/
def replace (p : List (α → Bool)) (r s : List α) : List α :=
  if p.isEmpty = true then r ++ s.flatMap fun a ↦ a :: r else replaceFrom p r 0 s

theorem replaceFrom_eq (p : List (α → Bool)) (r : List α) (k : ℕ) (s : List α) :
    replaceFrom p r k s = replaceFrom p r 0 (s.drop k) := by
  induction s generalizing k with
  | nil => cases k <;> rfl
  | cons a s ih =>
    cases k with
    | zero => rfl
    | succ k => rw [replaceFrom, ih, List.drop_succ_cons]

@[simp] theorem replace_nil (hp : p ≠ []) : replace p r [] = [] := by
  simp [replace, hp, replaceFrom]

/-- A match at the beginning. -/
theorem replace_of_starts (hp : p ≠ []) (h : starts p s = true) :
    replace p r s = r ++ replace p r (s.drop p.length) := by
  obtain ⟨t, p, rfl⟩ := List.exists_cons_of_ne_nil hp
  cases s with
  | nil => simp [starts] at h
  | cons a s =>
    simp only [replace, List.isEmpty_cons, Bool.false_eq_true, if_false]
    rw [replaceFrom, if_pos h, replaceFrom_eq]
    rfl

/-- No match at the beginning. -/
theorem replace_cons (hp : p ≠ []) (h : ¬ starts p (a :: s) = true) :
    replace p r (a :: s) = a :: replace p r s := by
  obtain ⟨t, p, rfl⟩ := List.exists_cons_of_ne_nil hp
  simp only [replace, List.isEmpty_cons, Bool.false_eq_true, if_false]
  rw [replaceFrom, if_neg h]

/-- Replacing goes from match to match. -/
theorem replace_induct {motive : List α → Prop} (p : List (α → Bool)) (hp : p ≠ [])
    (nil : motive []) (starts : ∀ s, starts p s = true → motive (s.drop p.length) → motive s)
    (cons : ∀ a s, ¬ Pattern.starts p (a :: s) = true → motive s → motive (a :: s)) (s : List α) :
    motive s := by
  induction hn : s.length using Nat.strongRecOn generalizing s with
  | ind n ih =>
    cases s with
    | nil => exact nil
    | cons a s =>
      have hpos := List.length_pos_iff.mpr hp
      rw [List.length_cons] at hn
      by_cases h : Pattern.starts p (a :: s) = true
      · refine starts _ h (ih _ ?_ _ rfl)
        rw [List.length_drop, List.length_cons]
        omega
      · exact cons a s h (ih s.length (by omega) s rfl)

theorem not_occurs_cons (h : ¬ Occurs p (a :: s)) : ¬ starts p (a :: s) = true ∧ ¬ Occurs p s :=
  ⟨fun hs ↦ h ⟨0, hs⟩, fun ⟨i, hi⟩ ↦ h ⟨i + 1, hi⟩⟩

/-- Without a match, nothing is replaced. -/
theorem replace_of_not_occurs (h : ¬ Occurs p s) : replace p r s = s := by
  have hp : p ≠ [] := by
    rintro rfl
    exact h ⟨0, starts_nil_left _⟩
  induction s with
  | nil => exact replace_nil hp
  | cons a s ih =>
    obtain ⟨hs, ho⟩ := not_occurs_cons h
    rw [replace_cons hp hs, ih ho]

/-- A text that is a match. -/
theorem replace_of_match (hp : p ≠ []) (h : starts p s = true) (hlen : s.length = p.length) :
    replace p r s = r := by
  rw [replace_of_starts hp h, List.drop_eq_nil_of_le (by omega), replace_nil hp, List.append_nil]

theorem replace_empty (r s : List α) : replace [] r s = r ++ s.flatMap fun a ↦ a :: r := rfl

/-- **Line by line**: nothing is replaced across a character that no test lets through. -/
theorem replace_append_cons (ha : ∀ t ∈ p, t a = false) (s s' : List α) :
    replace p r (s ++ a :: s') = replace p r s ++ a :: replace p r s' := by
  rcases eq_or_ne p [] with rfl | hp
  · simp [replace_empty]
  · induction s using replace_induct p hp with
    | nil =>
      have hno : ¬ starts p (a :: s') = true := by
        obtain ⟨t, p, rfl⟩ := List.exists_cons_of_ne_nil hp
        simp [starts, ha t List.mem_cons_self]
      rw [List.nil_append, replace_cons hp hno, replace_nil hp, List.nil_append]
    | starts s h ih =>
      have hle := length_le_of_starts h
      rw [replace_of_starts hp (starts_append h _), List.drop_append_of_le_length hle, ih,
        replace_of_starts hp h, List.append_assoc]
    | cons b s h ih =>
      have hno : ¬ starts p (b :: (s ++ a :: s')) = true := by
        rwa [← List.cons_append, starts_append_cons_of_not ha]
      rw [List.cons_append, replace_cons hp hno, ih, replace_cons hp h, List.cons_append]

/-- The same for all lines. -/
theorem replace_intercalate (ha : ∀ t ∈ p, t a = false) {ls : List (List α)} (hls : ls ≠ []) :
    replace p r ([a].intercalate ls) = [a].intercalate (ls.map (replace p r)) := by
  match ls with
  | [l] => simp
  | l :: l' :: ls =>
    rw [List.intercalate_cons_cons, List.append_assoc, List.singleton_append,
      replace_append_cons ha, replace_intercalate ha (List.cons_ne_nil l' ls)]
    simp [List.intercalate_cons_cons]

/-- Nothing comes into a text but by what replaces the matches. -/
theorem mem_replace {b : α} (h : b ∈ replace p r s) : b ∈ r ∨ b ∈ s := by
  rcases eq_or_ne p [] with rfl | hp
  · rw [replace_empty, List.mem_append, List.mem_flatMap] at h
    rcases h with h | ⟨a, ha, h⟩
    · exact .inl h
    · rcases List.mem_cons.mp h with rfl | h
      · exact .inr ha
      · exact .inl h
  · induction s using replace_induct p hp with
    | nil => simp [replace_nil hp] at h
    | starts s hs ih =>
      rw [replace_of_starts hp hs, List.mem_append] at h
      rcases h with h | h
      · exact .inl h
      · exact (ih h).imp_right List.mem_of_mem_drop
    | cons a s hs ih =>
      rw [replace_cons hp hs] at h
      rcases List.mem_cons.mp h with rfl | h
      · exact .inr List.mem_cons_self
      · exact (ih h).imp_right (List.mem_cons_of_mem a)

theorem pos_of_occurs (hp : p ≠ []) (h : Occurs p s) : 0 < s.length := by
  obtain ⟨i, hi⟩ := h
  have hlen := length_le_of_starts hi
  have hpos := List.length_pos_iff.mpr hp
  rw [List.length_drop] at hlen
  omega

theorem occurs_of_cons (h : Occurs p (a :: s)) (hs : ¬ starts p (a :: s) = true) : Occurs p s := by
  by_contra ho
  obtain ⟨i, hi⟩ := h
  cases i with
  | zero => exact hs hi
  | succ i => exact ho ⟨i, hi⟩

/-- **The length** after `k` matches have been replaced. -/
theorem length_replace (hp : p ≠ []) (s : List α) : ∃ k,
    (replace p r s).length + k * p.length = s.length + k * r.length ∧ (Occurs p s → 0 < k) := by
  induction s using replace_induct p hp with
  | nil =>
    refine ⟨0, by rw [replace_nil hp, Nat.zero_mul, Nat.zero_mul], fun h ↦ ?_⟩
    exact absurd (pos_of_occurs hp h) (Nat.lt_irrefl 0)
  | starts s h ih =>
    obtain ⟨k, hk, -⟩ := ih
    have hle := length_le_of_starts h
    rw [List.length_drop] at hk
    refine ⟨k + 1, ?_, fun _ ↦ Nat.succ_pos k⟩
    rw [replace_of_starts hp h, List.length_append, Nat.succ_mul, Nat.succ_mul]
    omega
  | cons a s h ih =>
    obtain ⟨k, hk, hpos⟩ := ih
    refine ⟨k, ?_, fun ho ↦ hpos (occurs_of_cons ho h)⟩
    rw [replace_cons hp h, List.length_cons, List.length_cons]
    omega

/-- What replaces a match may be longer; then the text is no shorter, and longer if there was
one. -/
theorem length_le_replace (hp : p ≠ []) (hr : p.length < r.length) (s : List α) :
    s.length ≤ (replace p r s).length ∧ (Occurs p s → s.length < (replace p r s).length) := by
  obtain ⟨k, hk, hpos⟩ := @length_replace _ _ r hp s
  refine ⟨?_, fun ho ↦ ?_⟩
  · have := Nat.mul_le_mul_left k (Nat.le_of_lt hr)
    omega
  · have := Nat.mul_lt_mul_of_pos_left hr (hpos ho)
    omega

/-- Or shorter; then the text is no longer, and shorter if there was one. -/
theorem length_replace_le (hr : r.length < p.length) (s : List α) :
    (replace p r s).length ≤ s.length ∧ (Occurs p s → (replace p r s).length < s.length) := by
  have hp : p ≠ [] := List.ne_nil_of_length_pos (Nat.zero_lt_of_lt hr)
  obtain ⟨k, hk, hpos⟩ := @length_replace _ _ r hp s
  refine ⟨?_, fun ho ↦ ?_⟩
  · have := Nat.mul_le_mul_left k (Nat.le_of_lt hr)
    omega
  · have := Nat.mul_lt_mul_of_pos_left hr (hpos ho)
    omega

/-- Nothing becomes empty by replacing. -/
theorem replace_ne_nil (hr : r ≠ []) (hs : s ≠ []) : replace p r s ≠ [] := by
  obtain ⟨a, s, rfl⟩ := List.exists_cons_of_ne_nil hs
  rcases eq_or_ne p [] with rfl | hp
  · simp [replace, hr]
  · by_cases h : starts p (a :: s) = true
    · rw [replace_of_starts hp h]
      simp [hr]
    · rw [replace_cons hp h]
      simp

/-! ## Texts that differ at the matches -/

/-- **The texts are the same but at the matches**, from left to right and each behind the one
before: where one begins in the first text, the other has `r`.  An empty pattern matches in front of
every character and at the end. -/
inductive Swapped (p : List (α → Bool)) (r : List α) : List α → List α → Prop
  | nil (hp : p ≠ []) : Swapped p r [] []
  | keep {a : α} {s t : List α} (hp : p ≠ []) (hno : ¬ starts p (a :: s) = true)
      (h : Swapped p r s t) : Swapped p r (a :: s) (a :: t)
  | swap {s t : List α} (hp : p ≠ []) (hmatch : starts p s = true)
      (h : Swapped p r (s.drop p.length) t) : Swapped p r s (r ++ t)
  | empty (hp : p = []) (s : List α) : Swapped p r s (r ++ s.flatMap fun a ↦ a :: r)

theorem swapped_replace (p : List (α → Bool)) (r s : List α) : Swapped p r s (replace p r s) := by
  rcases eq_or_ne p [] with rfl | hp
  · exact .empty rfl s
  · induction s using replace_induct p hp with
    | nil =>
      rw [replace_nil hp]
      exact .nil hp
    | starts s h ih =>
      rw [replace_of_starts hp h]
      exact .swap hp h ih
    | cons a s h ih =>
      rw [replace_cons hp h]
      exact .keep hp h ih

theorem Swapped.replace_eq {t : List α} (h : Swapped p r s t) : replace p r s = t := by
  induction h with
  | nil hp => exact replace_nil hp
  | keep hp hno _ ih => rw [replace_cons hp hno, ih]
  | swap hp hmatch _ ih => rw [replace_of_starts hp hmatch, ih]
  | empty hp s =>
    subst hp
    exact replace_empty r s

/-- **Replacing makes these and no others.** -/
theorem swapped_iff {t : List α} : Swapped p r s t ↔ replace p r s = t :=
  ⟨Swapped.replace_eq, fun h ↦ h ▸ swapped_replace p r s⟩

instance [DecidableEq α] (p : List (α → Bool)) (r s t : List α) : Decidable (Swapped p r s t) :=
  decidable_of_iff _ swapped_iff.symm

/-! ## Replacing by several rules -/

/-- A rule is a pattern and what its matches are replaced by.  The rules are used one after the
other, each on what those before it have made. -/
def replaceAll (rs : List (List (α → Bool) × List α)) (s : List α) : List α :=
  rs.foldl (fun s c ↦ replace c.1 c.2 s) s

variable {rs : List (List (α → Bool) × List α)} {c : List (α → Bool) × List α}

@[simp] theorem replaceAll_cons (c : List (α → Bool) × List α)
    (rs : List (List (α → Bool) × List α)) (s : List α) :
    replaceAll (c :: rs) s = replaceAll rs (replace c.1 c.2 s) := rfl

/-- Rules that are made of something else. -/
theorem replaceAll_map {β : Type} (f : β → List (α → Bool) × List α) (l : List β) (s : List α) :
    replaceAll (l.map f) s = l.foldl (fun s b ↦ replace (f b).1 (f b).2 s) s :=
  List.foldl_map

/-- **Several rules, line by line.** -/
theorem replaceAll_intercalate (ha : ∀ c ∈ rs, ∀ t ∈ c.1, t a = false) {ls : List (List α)}
    (hls : ls ≠ []) :
    replaceAll rs ([a].intercalate ls) = [a].intercalate (ls.map (replaceAll rs)) := by
  induction rs generalizing ls with
  | nil =>
    have hid : replaceAll ([] : List (List (α → Bool) × List α)) = id := rfl
    rw [hid, List.map_id, id]
  | cons c rs ih =>
    have hne : ls.map (replace c.1 c.2) ≠ [] := by simpa using hls
    rw [replaceAll_cons, replace_intercalate (ha c List.mem_cons_self) hls,
      ih (fun c' hc' ↦ ha c' (List.mem_cons_of_mem c hc')) hne, List.map_map]
    rfl

/-- What is in no line and in no text that a rule puts in does not come in. -/
theorem notMem_replaceAll (hr : ∀ c ∈ rs, a ∉ c.2) (hs : a ∉ s) : a ∉ replaceAll rs s := by
  induction rs generalizing s with
  | nil => exact hs
  | cons c rs ih =>
    refine ih (fun c' hc' ↦ hr c' (List.mem_cons_of_mem c hc')) fun h ↦ ?_
    exact (mem_replace h).elim (hr c List.mem_cons_self) hs

/-- Rules that make the text shorter make it no longer, and leave it as it was if it is not shorter
at the end. -/
theorem length_replaceAll_le (hr : ∀ c ∈ rs, c.2.length < c.1.length) (s : List α) :
    (replaceAll rs s).length ≤ s.length ∧
      (s.length ≤ (replaceAll rs s).length → replaceAll rs s = s) := by
  induction rs generalizing s with
  | nil => exact ⟨Nat.le_refl _, fun _ ↦ rfl⟩
  | cons c rs ih =>
    obtain ⟨hle, hlt⟩ := length_replace_le (hr c List.mem_cons_self) s
    obtain ⟨hle', heq⟩ := ih (fun c' hc' ↦ hr c' (List.mem_cons_of_mem c hc')) (replace c.1 c.2 s)
    rw [replaceAll_cons]
    refine ⟨Nat.le_trans hle' hle, fun h ↦ ?_⟩
    have hno : ¬ Occurs c.1 s := fun ho ↦ absurd (hlt ho) (by omega)
    rw [replace_of_not_occurs hno] at heq hle' h ⊢
    exact heq h

end Pattern
