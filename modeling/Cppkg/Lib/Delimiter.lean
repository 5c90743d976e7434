import Cppkg.Lib.Escape

/-!
# Escaped texts and any delimiter

Texts whose special characters are escaped are written one after the other, with a word between
them, which is not escaped.  `delimited_inj_iff` says which words let one read the texts back:
those that `Delimits` describes.

There are two ways to see where a text ends.  If no text can begin as the word does, then whoever
reads on gets stuck in the word, and always in the same place.  If a text can, but the word is not a
text itself, then it is one with a lone `esc` behind it.  What follows may be taken for the
character that this is in front of, and is, if there is nothing but `esc` in the word.  Otherwise
there are as many of them behind the last other character of the word each time, which is `Spaced`.
-/

set_option autoImplicit false

namespace Escape

variable {α : Type} (esc : α) (special : α → Bool)

/-- Texts with a word between them. -/
def delimited (delim : List α) : List (List α) → List α
  | [] => []
  | [x] => encode esc special (x.map some)
  | x :: y :: xs => encode esc special (x.map some) ++ (delim ++ delimited delim (y :: xs))

variable [DecidableEq α]

/-- Where it shows that characters are not the beginning of a text.  The flag is whether there is an
`esc` in front of them. -/
def stuckAt : Bool → List α → Option ℕ
  | _, [] => none
  | true, a :: w => if special a = true then (stuckAt false w).map (· + 1) else some 0
  | false, a :: w =>
    if a = esc then (stuckAt true w).map (· + 1)
    else if special a = true then some 0 else (stuckAt false w).map (· + 1)

/-- There are `d` characters `esc`, and another one before these, in front of each delimiter.  What
came before is the number of `esc` behind the last other character, if there is one. -/
def Spaced (d : ℕ) : Option ℕ → List (Option α) → Prop
  | _, [] => True
  | n, none :: ts => n = some d ∧ Spaced d none ts
  | n, some a :: ts => Spaced d (if a = esc then n.map (· + 1) else some 0) ts

variable {esc special} {a : α} {w w' x y x' y' u delim : List α} {xs ys : List (List α)} {d : ℕ}
  {n : Option ℕ} {ts ts' : List (Option α)}

/-! ## Words that no text begins with -/

/-- Texts are read without getting stuck. -/
theorem stuckAt_encode (hesc : special esc = true) (x w : List α) :
    stuckAt esc special false (encode esc special (x.map some) ++ w)
      = (stuckAt esc special false w).map (· + (encode esc special (x.map some)).length) := by
  induction x with
  | nil => simp
  | cons a x ih =>
    rw [List.map_cons, encode_cons, List.append_assoc, List.length_append]
    cases ha : special a with
    | true =>
      rw [token_of_special ha, List.cons_append, List.singleton_append, stuckAt, if_pos rfl,
        stuckAt, if_pos ha, ih, Option.map_map, Option.map_map]
      congr 1
      funext i
      simp only [Function.comp_apply, List.length_cons, List.length_nil]
      omega
    | false =>
      have hne : a ≠ esc := by
        rintro rfl
        simp [hesc] at ha
      rw [token_of_not_special ha, List.singleton_append, stuckAt, if_neg hne, ha,
        if_neg Bool.false_ne_true, ih, Option.map_map]
      congr 1
      funext i
      simp only [Function.comp_apply, List.length_singleton]
      omega

/-- Who is stuck does not see what comes after. -/
theorem stuckAt_append {b : Bool} {i : ℕ} (h : stuckAt esc special b w = some i) (w' : List α) :
    stuckAt esc special b (w ++ w') = some i := by
  induction w generalizing b i with
  | nil => cases b <;> cases h
  | cons a w ih =>
    cases b with
    | true =>
      rw [List.cons_append, stuckAt] at *
      split at h
      · obtain ⟨j, hj, rfl⟩ := Option.map_eq_some_iff.mp h
        rw [if_pos ‹_›, ih hj, Option.map_some]
      · rw [if_neg ‹_›, h]
    | false =>
      rw [List.cons_append, stuckAt] at *
      split at h
      · obtain ⟨j, hj, rfl⟩ := Option.map_eq_some_iff.mp h
        rw [if_pos ‹_›, ih hj, Option.map_some]
      · split at h
        · rw [if_neg ‹_›, if_pos ‹_›, h]
        · obtain ⟨j, hj, rfl⟩ := Option.map_eq_some_iff.mp h
          rw [if_neg ‹_›, if_neg ‹_›, ih hj, Option.map_some]

omit [DecidableEq α] in
/-- A character of a text in front of one is written in front of what is written. -/
theorem encode_cons_of {v : List α} (h : token esc special (some a) = v)
    (hw : w = encode esc special (x.map some) ∨ w = encode esc special (x.map some) ++ [esc]) :
    v ++ w = encode esc special ((a :: x).map some) ∨
      v ++ w = encode esc special ((a :: x).map some) ++ [esc] := by
  rw [List.map_cons, encode_cons, h]
  exact hw.imp (congrArg (v ++ ·)) fun h ↦ (congrArg (v ++ ·) h).trans (List.append_assoc ..).symm

/-- Who is not stuck has read a text, or one and an `esc`. -/
theorem of_stuckAt_eq_none {b : Bool} (h : stuckAt esc special b w = none) :
    ∃ x : List α, (if b then esc :: w else w) = encode esc special (x.map some) ∨
      (if b then esc :: w else w) = encode esc special (x.map some) ++ [esc] := by
  induction w generalizing b with
  | nil =>
    cases b with
    | true => exact ⟨[], .inr rfl⟩
    | false => exact ⟨[], .inl rfl⟩
  | cons a w ih =>
    cases b with
    | true =>
      rw [stuckAt] at h
      split at h
      · obtain ⟨x, hx⟩ := ih (Option.map_eq_none_iff.mp h)
        exact ⟨a :: x, encode_cons_of (token_of_special ‹_›) hx⟩
      · cases h
    | false =>
      rw [stuckAt] at h
      split at h
      · subst a
        exact ih (Option.map_eq_none_iff.mp h)
      · split at h
        · cases h
        · rename_i ha
          obtain ⟨x, hx⟩ := ih (Option.map_eq_none_iff.mp h)
          exact ⟨a :: x, encode_cons_of (token_of_not_special (Bool.eq_false_iff.mpr ha)) hx⟩

omit [DecidableEq α] in
theorem delimited_cons_cons : delimited esc special delim (x :: y :: xs)
    = encode esc special (x.map some) ++ (delim ++ delimited esc special delim (y :: xs)) := rfl

/-- **Who gets stuck knows where the delimiter is.** -/
theorem delimited_inj_of_stuck (hesc : special esc = true) {i : ℕ}
    (hdelim : stuckAt esc special false delim = some i) (hxs : xs ≠ []) (hys : ys ≠ [])
    (h : delimited esc special delim xs = delimited esc special delim ys) : xs = ys := by
  have hone : ∀ x : List α, stuckAt esc special false (delimited esc special delim [x]) = none := by
    intro x
    have hx := stuckAt_encode hesc x []
    rwa [List.append_nil] at hx
  have hmore : ∀ (x y : List α) xs, stuckAt esc special false
      (delimited esc special delim (x :: y :: xs))
        = some (i + (encode esc special (x.map some)).length) := by
    intro x y xs
    rw [delimited_cons_cons, stuckAt_encode hesc, stuckAt_append hdelim, Option.map_some]
  induction xs generalizing ys with
  | nil => exact absurd rfl hxs
  | cons x xs ih =>
    obtain ⟨y, ys, rfl⟩ := List.exists_cons_of_ne_nil hys
    match xs, ys with
    | [], [] => rw [encode_map_inj hesc h]
    | [], y' :: ys => cases (hone x).symm.trans ((congrArg _ h).trans (hmore y y' ys))
    | x' :: xs, [] => cases (hone y).symm.trans ((congrArg _ h.symm).trans (hmore x x' xs))
    | x' :: xs, y' :: ys =>
      have hi := (hmore x x' xs).symm.trans ((congrArg _ h).trans (hmore y y' ys))
      have hlen : (encode esc special (x.map some)).length
          = (encode esc special (y.map some)).length := by
        have := Option.some.inj hi
        omega
      obtain ⟨hx, hrest⟩ := List.append_inj h hlen
      rw [encode_map_inj hesc hx,
        ih (by simp) (by simp) (List.append_cancel_left hrest)]

/-! ## Words that end in the middle of an escape -/

/-- The number of `esc` behind the last other character, after a text. -/
def trailing (esc : α) (n : Option ℕ) (x : List α) : Option ℕ :=
  x.foldl (fun n a ↦ if a = esc then n.map (· + 1) else some 0) n

theorem trailing_append (n : Option ℕ) (x y : List α) :
    trailing esc n (x ++ y) = trailing esc (trailing esc n x) y := List.foldl_append

theorem trailing_singleton (n : Option ℕ) (a : α) :
    trailing esc n [a] = if a = esc then n.map (· + 1) else some 0 := rfl

/-- It does not depend on what was before, if there is another character. -/
theorem exists_trailing (h : ∃ a ∈ u, a ≠ esc) : ∃ d, ∀ n, trailing esc n u = some d := by
  induction u using List.reverseRecOn with
  | nil => simp at h
  | append_singleton u a ih =>
    by_cases ha : a = esc
    · obtain ⟨b, hb, hne⟩ := h
      have hmem : b ∈ u := (List.mem_append.mp hb).resolve_right fun hb ↦
        hne ((List.mem_singleton.mp hb).trans ha)
      obtain ⟨d, hd⟩ := ih ⟨b, hmem, hne⟩
      refine ⟨d + 1, fun n ↦ ?_⟩
      rw [trailing_append, hd, trailing_singleton, if_pos ha, Option.map_some]
    · refine ⟨0, fun n ↦ ?_⟩
      rw [trailing_append, trailing_singleton, if_neg ha]

theorem spaced_append (x : List α) :
    Spaced esc d n (x.map some ++ ts) ↔ Spaced esc d (trailing esc n x) ts := by
  induction x generalizing n with
  | nil => rfl
  | cons a x ih => rw [List.map_cons, List.cons_append, Spaced, ih]; rfl

/-- A list of tokens that is an `esc` behind another one never makes up for it. -/
theorem not_spaced_of_behind (hesc : special esc = true) {k : ℕ} (hk : d < k)
    (hts : Spaced esc d (some k) ts) (hts' : Spaced esc d none ts') :
    encode esc special ts' ≠ esc :: encode esc special ts := by
  induction ts' generalizing ts k with
  | nil => simp
  | cons t' ts' ih =>
    intro h
    rcases encode_eq_esc_cons hesc h with ⟨r, hr, -⟩ | ⟨r, hr, hw⟩ | ⟨a, r, hr, ha, hne, hw⟩
    all_goals obtain ⟨rfl, rfl⟩ := List.cons.inj hr
    · cases hts'.1
    · -- the lists change places
      rw [Spaced, if_pos rfl] at hts'
      rcases encode_eq_esc_cons hesc hw with ⟨r, rfl, -⟩ | ⟨r, rfl, hr⟩ | ⟨a, r, -, ha, hne, hr⟩
      · have hkd := Option.some.inj hts.1
        omega
      · rw [Spaced, if_pos rfl] at hts
        exact ih (Nat.lt_succ_of_lt hk) hts hts' hr
      · rw [not_special_head hr hne] at ha
        cases ha
    · rw [not_special_head hw hne] at ha
      cases ha

/-- **Lists of tokens that are spaced** are written differently if they differ. -/
theorem encode_inj_of_spaced (hesc : special esc = true) (hts : Spaced esc d n ts)
    (hts' : Spaced esc d n ts') (h : encode esc special ts = encode esc special ts') :
    ts = ts' := by
  induction ts generalizing n ts' with
  | nil => exact (encode_eq_nil.mp h.symm).symm
  | cons t ts ih =>
    cases ts' with
    | nil => exact encode_eq_nil.mp h
    | cons t' ts' =>
      rcases encode_cons_eq hesc h with ⟨rfl, h'⟩ | ⟨rfl, rfl, h'⟩ | ⟨rfl, rfl, h'⟩
      · cases t with
        | none => rw [ih hts.2 hts'.2 h']
        | some a => rw [ih hts hts' h']
      · obtain ⟨rfl, hts'⟩ := hts'
        rw [Spaced, if_pos rfl] at hts
        exact absurd h' (not_spaced_of_behind hesc (Nat.lt_succ_self d) hts hts')
      · obtain ⟨rfl, hts⟩ := hts
        rw [Spaced, if_pos rfl] at hts'
        exact absurd h' (not_spaced_of_behind hesc (Nat.lt_succ_self d) hts' hts)

/-- Texts with another text behind each but the last. -/
def followed (u : List α) : List (List α) → List (List α)
  | [] => []
  | [x] => [x]
  | x :: y :: xs => (x ++ u) :: followed u (y :: xs)

omit [DecidableEq α] in
theorem followed_ne_nil (h : xs ≠ []) : followed u xs ≠ [] := by
  match xs with
  | [_] => simp [followed]
  | _ :: _ :: _ => simp [followed]

omit [DecidableEq α] in
theorem followed_inj (h : followed u xs = followed u ys) : xs = ys := by
  fun_induction followed u xs generalizing ys with
  | case1 =>
    match ys with
    | [] => rfl
    | [_] | _ :: _ :: _ => simp [followed] at h
  | case2 x =>
    match ys with
    | [] => simp [followed] at h
    | [_] => exact h
    | _ :: y' :: ys => exact absurd (List.cons.inj h).2.symm (followed_ne_nil (by simp))
  | case3 x x' xs ih =>
    match ys with
    | [] => simp [followed] at h
    | [_] => exact absurd (List.cons.inj h).2 (followed_ne_nil (by simp))
    | y :: y' :: ys =>
      obtain ⟨hx, hrest⟩ := List.cons.inj h
      rw [List.append_cancel_right hx, ih hrest]

omit [DecidableEq α] in
/-- A word that is a text with an `esc` behind it, as a delimiter that is only an `esc`. -/
theorem delimited_eq_tokens (u : List α) (xs : List (List α)) :
    delimited esc special (encode esc special (u.map some) ++ [esc]) xs
      = encode esc special (tokens (followed u xs)) := by
  fun_induction followed u xs with
  | case1 => rfl
  | case2 x => rfl
  | case3 x y xs ih =>
    obtain ⟨z, zs, hz⟩ := List.exists_cons_of_ne_nil (@followed_ne_nil _ u (y :: xs) (by simp))
    rw [delimited_cons_cons, ih, hz, tokens]
    simp

theorem spaced_tokens (hd : ∀ n, trailing esc n u = some d) (xs : List (List α)) (n : Option ℕ) :
    Spaced esc d n (tokens (followed u xs)) := by
  fun_induction followed u xs generalizing n with
  | case1 => trivial
  | case2 x =>
    rw [tokens, ← List.append_nil (x.map some), spaced_append]
    trivial
  | case3 x y xs ih =>
    obtain ⟨z, zs, hz⟩ := List.exists_cons_of_ne_nil (@followed_ne_nil _ u (y :: xs) (by simp))
    rw [hz] at ih ⊢
    rw [tokens, spaced_append, trailing_append, hd]
    exact ⟨rfl, ih none⟩

/-! ## All words -/

omit [DecidableEq α] in
theorem mem_encode (h : a ∈ encode esc special (x.map some)) : a = esc ∨ a ∈ x := by
  obtain ⟨t, ht, ha⟩ := List.mem_flatMap.mp h
  obtain ⟨b, hb, rfl⟩ := List.mem_map.mp ht
  rw [token] at ha
  split at ha
  · rcases List.mem_cons.mp ha with rfl | ha
    · exact .inl rfl
    · exact .inr (List.mem_singleton.mp ha ▸ hb)
  · exact .inr (List.mem_singleton.mp ha ▸ hb)

omit [DecidableEq α] in
/-- A character other than `esc` is one of the text. -/
theorem exists_ne_of_encode
    (h : ∃ a ∈ encode esc special (u.map some) ++ [esc], a ≠ esc) : ∃ a ∈ u, a ≠ esc := by
  obtain ⟨a, ha, hne⟩ := h
  rcases List.mem_append.mp ha with ha | ha
  · exact ⟨a, (mem_encode ha).resolve_left hne, hne⟩
  · exact absurd (List.mem_singleton.mp ha) hne

/-- A word that ends in the middle of an escape and has another character than `esc`. -/
theorem delimited_inj_of_pending (hesc : special esc = true)
    (hother : ∃ a ∈ encode esc special (u.map some) ++ [esc], a ≠ esc) (hxs : xs ≠ [])
    (hys : ys ≠ []) (h : delimited esc special (encode esc special (u.map some) ++ [esc]) xs
      = delimited esc special (encode esc special (u.map some) ++ [esc]) ys) : xs = ys := by
  obtain ⟨d, hd⟩ := exists_trailing (exists_ne_of_encode hother)
  rw [delimited_eq_tokens, delimited_eq_tokens] at h
  have htokens := encode_inj_of_spaced hesc (spaced_tokens hd xs none) (spaced_tokens hd ys none) h
  refine followed_inj (u := u) ?_
  rw [← texts_tokens (followed_ne_nil hxs), htokens, texts_tokens (followed_ne_nil hys)]

variable (esc special) in
/-- The word is not a text that is written, and has another character than `esc`. -/
def Delimits (delim : List α) : Prop :=
  (∀ x : List α, encode esc special (x.map some) ≠ delim) ∧ ∃ a ∈ delim, a ≠ esc

theorem Delimits.inj (hesc : special esc = true) (hdelim : Delimits esc special delim)
    (hxs : xs ≠ []) (hys : ys ≠ [])
    (h : delimited esc special delim xs = delimited esc special delim ys) : xs = ys := by
  obtain ⟨hword, hother⟩ := hdelim
  cases hstuck : stuckAt esc special false delim with
  | some i => exact delimited_inj_of_stuck hesc hstuck hxs hys h
  | none =>
    obtain ⟨u, hu | hu⟩ := of_stuckAt_eq_none hstuck
    · exact absurd hu.symm (hword u)
    · obtain rfl : delim = encode esc special (u.map some) ++ [esc] := hu
      exact delimited_inj_of_pending hesc hother hxs hys h

/-- With any other word, there are two texts that are written as another two. -/
theorem exists_of_not_delimits (hesc : special esc = true) (hdelim : ¬ Delimits esc special delim) :
    ∃ x : List α, x ≠ [] ∧
      delimited esc special delim [[], x] = delimited esc special delim [x, []] := by
  by_cases hother : ∃ a ∈ delim, a ≠ esc
  · obtain ⟨x, rfl⟩ : ∃ x : List α, encode esc special (x.map some) = delim := by
      by_contra hno
      exact hdelim ⟨not_exists.mp hno, hother⟩
    refine ⟨x, ?_, by simp [delimited]⟩
    rintro rfl
    simp at hother
  · obtain ⟨k, rfl⟩ : ∃ k, delim = List.replicate k esc :=
      ⟨_, List.eq_replicate_iff.mpr ⟨rfl, by simpa using hother⟩⟩
    have htwo : encode esc special ([esc].map some) = List.replicate 2 esc := by
      simp [token_of_special hesc]
    refine ⟨[esc], by simp, ?_⟩
    simp only [delimited, htwo, List.map_nil, encode_nil, List.nil_append, List.append_nil]
    rw [List.replicate_append_replicate, List.replicate_append_replicate, Nat.add_comm]

/-- **Which words texts can be read back with**, of whatever number they are. -/
theorem delimited_inj_iff (hesc : special esc = true) (delim : List α) :
    (∀ xs ys : List (List α), xs ≠ [] → ys ≠ [] →
        delimited esc special delim xs = delimited esc special delim ys → xs = ys) ↔
      Delimits esc special delim := by
  refine ⟨fun h ↦ ?_, fun hdelim _ _ ↦ hdelim.inj hesc⟩
  by_contra hdelim
  obtain ⟨x, hx, hsame⟩ := exists_of_not_delimits hesc hdelim
  exact hx (List.cons.inj (h [[], x] [x, []] (by simp) (by simp) hsame)).1.symm

/-- They are the same for two texts. -/
theorem delimited_two_inj_iff (hesc : special esc = true) (delim : List α) :
    (∀ x y x' y' : List α, delimited esc special delim [x, y] = delimited esc special delim [x', y']
        → x = x' ∧ y = y') ↔ Delimits esc special delim := by
  refine ⟨fun h ↦ ?_, fun hdelim x y x' y' hsame ↦ ?_⟩
  · by_contra hdelim
    obtain ⟨x, hx, hsame⟩ := exists_of_not_delimits hesc hdelim
    exact hx (h [] x x [] hsame).1.symm
  · have hlists := hdelim.inj hesc (by simp) (by simp) hsame
    simpa using hlists

end Escape
