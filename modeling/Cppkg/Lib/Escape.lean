import Mathlib.Data.List.Chain
import Mathlib.Data.List.Count
import Mathlib.Data.List.Perm.Basic

/-!
# Escape characters

Texts are written one after the other, with a delimiter between them and an escape character `esc`
in front of every special character in them.  If the delimiter is one of the characters that are
escaped and not the escape character itself, the texts can be read back: it is the only one of its
kind that is not `Escaped`, which is `delim_iff`.  The rest of this file is about the case where the
two are the same character `esc`.

What is written then is a list of tokens: `some a` for a character of a text, `none` for a
delimiter.  A delimiter is written as `esc`, the character `esc` as two of them, so a run of them
can be read in more than one way.  `encode_unique_iff` says when a list of tokens is the only one,
of those with as many delimiters, that is written as it is; `texts_unique_iff` says the same of
texts.
-/

set_option autoImplicit false

namespace Escape

variable {α : Type} (esc : α) (special : α → Bool)

/-- How a token is written. -/
def token : Option α → List α
  | some a => if special a = true then [esc, a] else [a]
  | none => [esc]

/-- How a list of tokens is written. -/
def encode (ts : List (Option α)) : List α := ts.flatMap (token esc special)

/-- No delimiter is next to the character `esc`. -/
def Apart (ts : List (Option α)) : Prop :=
  ts.IsChain fun t t' ↦ ¬ (t = some esc ∧ t' = none) ∧ ¬ (t = none ∧ t' = some esc)

/-- No delimiter is next to another. -/
def Single (ts : List (Option α)) : Prop := ts.IsChain fun t t' ↦ ¬ (t = none ∧ t' = none)

variable {esc special} {ts ts' : List (Option α)} {t t' : Option α} {a : α} {w : List α}

@[simp] theorem encode_nil : encode esc special [] = [] := rfl

@[simp] theorem encode_cons :
    encode esc special (t :: ts) = token esc special t ++ encode esc special ts := rfl

@[simp] theorem encode_append :
    encode esc special (ts ++ ts') = encode esc special ts ++ encode esc special ts' :=
  List.flatMap_append

@[simp] theorem token_none : token esc special none = [esc] := rfl

theorem token_of_special (h : special a = true) : token esc special (some a) = [esc, a] := if_pos h

theorem token_of_not_special (h : special a = false) : token esc special (some a) = [a] :=
  if_neg (by simp [h])

theorem encode_eq_nil : encode esc special ts = [] ↔ ts = [] := by
  cases ts with
  | nil => simp
  | cons t ts =>
    refine iff_of_false ?_ (by simp)
    cases t with
    | none => simp
    | some a => by_cases h : special a = true <;> simp [token, h]

/-- A special character is not written without `esc` in front. -/
theorem not_special_head (h : encode esc special ts = a :: w) (hne : a ≠ esc) :
    special a = false := by
  cases ts with
  | nil => simp at h
  | cons t ts =>
    cases t with
    | none => exact absurd (List.cons.inj h).1.symm hne
    | some b =>
      cases hb : special b with
      | true =>
        rw [encode_cons, token_of_special hb] at h
        exact absurd (List.cons.inj h).1.symm hne
      | false =>
        rw [encode_cons, token_of_not_special hb] at h
        exact (List.cons.inj h).1 ▸ hb

/-- What `esc` may be the beginning of. -/
theorem encode_eq_esc_cons (hesc : special esc = true) (h : encode esc special ts = esc :: w) :
    (∃ r, ts = none :: r ∧ w = encode esc special r) ∨
    (∃ r, ts = some esc :: r ∧ w = esc :: encode esc special r) ∨
    ∃ a r, ts = some a :: r ∧ special a = true ∧ a ≠ esc ∧ w = a :: encode esc special r := by
  cases ts with
  | nil => simp at h
  | cons t ts =>
    cases t with
    | none => exact .inl ⟨ts, rfl, (List.cons.inj h).2.symm⟩
    | some b =>
      cases hb : special b with
      | true =>
        rw [encode_cons, token_of_special hb] at h
        have hw := (List.cons.inj h).2.symm
        by_cases hbe : b = esc
        · subst hbe
          exact .inr (.inl ⟨ts, rfl, hw⟩)
        · exact .inr (.inr ⟨b, ts, rfl, hb, hbe, hw⟩)
      | false =>
        rw [encode_cons, token_of_not_special hb] at h
        have : b = esc := (List.cons.inj h).1
        rw [this, hesc] at hb
        simp at hb

/-- Where two lists of tokens that are written the same begin to differ, one has `esc` and the other
a delimiter. -/
theorem encode_cons_eq (hesc : special esc = true)
    (h : encode esc special (t :: ts) = encode esc special (t' :: ts')) :
    (t = t' ∧ encode esc special ts = encode esc special ts') ∨
    (t = some esc ∧ t' = none ∧ encode esc special ts' = esc :: encode esc special ts) ∨
    (t = none ∧ t' = some esc ∧ encode esc special ts = esc :: encode esc special ts') := by
  cases t with
  | none =>
    rcases encode_eq_esc_cons hesc h.symm with ⟨r, hr, hw⟩ | ⟨r, hr, hw⟩ | ⟨a, r, hr, ha, hne, hw⟩
    · obtain ⟨rfl, rfl⟩ := List.cons.inj hr
      exact .inl ⟨rfl, hw⟩
    · obtain ⟨rfl, rfl⟩ := List.cons.inj hr
      exact .inr (.inr ⟨rfl, rfl, hw⟩)
    · exact absurd (not_special_head hw hne) (by simp [ha])
  | some a =>
    cases ha : special a with
    | true =>
      rw [encode_cons, token_of_special ha] at h
      rcases encode_eq_esc_cons hesc h.symm with ⟨r, hr, hw⟩ | ⟨r, hr, hw⟩ | ⟨b, r, hr, hb, hne, hw⟩
      all_goals obtain ⟨rfl, rfl⟩ := List.cons.inj hr
      · by_cases hae : a = esc
        · subst hae
          exact .inr (.inl ⟨rfl, rfl, hw.symm⟩)
        · exact absurd (not_special_head hw.symm hae) (by simp [ha])
      · obtain ⟨rfl, hw'⟩ := List.cons.inj hw
        exact .inl ⟨rfl, hw'⟩
      · obtain ⟨rfl, hw'⟩ := List.cons.inj hw
        exact .inl ⟨rfl, hw'⟩
    | false =>
      have hae : a ≠ esc := by
        rintro rfl
        simp [hesc] at ha
      rw [encode_cons, token_of_not_special ha] at h
      cases t' with
      | none => exact absurd (List.cons.inj h).1 hae
      | some b =>
        cases hb : special b with
        | true =>
          rw [encode_cons, token_of_special hb] at h
          exact absurd (List.cons.inj h).1 hae
        | false =>
          rw [encode_cons, token_of_not_special hb] at h
          obtain ⟨rfl, h'⟩ := List.cons.inj h
          exact .inl ⟨rfl, h'⟩

/-- Different texts are written differently. -/
theorem encode_map_inj {x y : List α} (hesc : special esc = true)
    (h : encode esc special (x.map some) = encode esc special (y.map some)) : x = y := by
  induction x generalizing y with
  | nil => exact (List.map_eq_nil_iff.mp (encode_eq_nil.mp h.symm)).symm
  | cons a x ih =>
    cases y with
    | nil => exact absurd (encode_eq_nil.mp h) (by simp)
    | cons b y =>
      rcases encode_cons_eq hesc h with ⟨hab, h'⟩ | ⟨-, hnone, -⟩ | ⟨hnone, -, -⟩
      · rw [Option.some.inj hab, ih h']
      · simp at hnone
      · simp at hnone

/-! ## When the delimiter is another character -/

section other

variable [BEq α]

variable (esc) in
/-- Does reading `w` end right after an escape character that is not escaped itself? -/
def pending (w : List α) : Bool := w.foldl (fun b a ↦ !b && a == esc) false

variable (esc) in
/-- What is at index `i` of `w` is escaped. -/
def Escaped (w : List α) (i : ℕ) : Prop := pending esc (w.take i) = true

variable {x y : List α} {delim : α}

/-- Once nothing is pending, what was read does not matter any more. -/
theorem pending_append (h : pending esc w = false) (w' : List α) :
    pending esc (w ++ w') = pending esc w' := by
  rw [pending, List.foldl_append, show w.foldl _ false = false from h]
  rfl

variable [LawfulBEq α]

theorem pending_token (hesc : special esc = true) (a : α) :
    pending esc (token esc special (some a)) = false := by
  cases ha : special a with
  | true => simp [token_of_special ha, pending]
  | false =>
    have hne : a ≠ esc := by
      rintro rfl
      simp [hesc] at ha
    simp [token_of_not_special ha, pending, hne]

/-- A text that is written leaves nothing pending. -/
theorem pending_encode (hesc : special esc = true) (x : List α) :
    pending esc (encode esc special (x.map some)) = false := by
  induction x with
  | nil => rfl
  | cons a x ih => rw [List.map_cons, encode_cons, pending_append (pending_token hesc a), ih]

/-- All special characters of a text are escaped. -/
theorem escaped_encode (hesc : special esc = true) (x : List α) {i : ℕ}
    (hi : (encode esc special (x.map some))[i]? = some a) (ha : special a = true) (hne : a ≠ esc) :
    Escaped esc (encode esc special (x.map some)) i := by
  induction x generalizing i with
  | nil => simp at hi
  | cons b x ih =>
    rw [List.map_cons, encode_cons] at hi ⊢
    rcases Nat.lt_or_ge i (token esc special (some b)).length with hlt | hge
    · rw [List.getElem?_append_left hlt] at hi
      rw [Escaped, List.take_append_of_le_length (Nat.le_of_lt hlt)]
      cases hb : special b with
      | true =>
        rw [token_of_special hb] at hi hlt ⊢
        match i, hlt with
        | 0, _ => exact absurd (by simpa using hi) hne.symm
        | 1, _ => simp [pending]
      | false =>
        rw [token_of_not_special hb] at hi hlt
        obtain rfl : i = 0 := by simpa using hlt
        obtain rfl : b = a := by simpa using hi
        simp [hb] at ha
    · rw [List.getElem?_append_right hge] at hi
      have h := ih hi
      rwa [Escaped, List.take_append, List.take_of_length_le hge,
        pending_append (pending_token hesc b)]

/-- **The delimiter** is the only one of its kind that is not escaped. -/
theorem delim_iff (hesc : special esc = true) (hdelim : special delim = true) (hne : delim ≠ esc)
    (x y : List α) (i : ℕ) :
    ((encode esc special (x.map some) ++ delim :: encode esc special (y.map some))[i]? = some delim
      ∧ ¬ Escaped esc (encode esc special (x.map some) ++ delim :: encode esc special (y.map some))
        i) ↔ i = (encode esc special (x.map some)).length := by
  have hx := pending_encode hesc x
  constructor
  · rintro ⟨hi, hopen⟩
    rcases Nat.lt_trichotomy i (encode esc special (x.map some)).length with hlt | heq | hgt
    · rw [List.getElem?_append_left hlt] at hi
      rw [Escaped, List.take_append_of_le_length (Nat.le_of_lt hlt)] at hopen
      exact absurd (escaped_encode hesc x hi hdelim hne) hopen
    · exact heq
    · obtain ⟨j, rfl⟩ : ∃ j, i = (encode esc special (x.map some)).length + (j + 1) :=
        ⟨i - (encode esc special (x.map some)).length - 1, by omega⟩
      rw [List.getElem?_append_right (Nat.le_add_right ..), Nat.add_sub_cancel_left,
        List.getElem?_cons_succ] at hi
      rw [Escaped, List.take_length_add_append, List.take_succ_cons, pending_append hx] at hopen
      have hd : pending esc [delim] = false := by simp [pending, hne]
      rw [← List.singleton_append, pending_append hd] at hopen
      exact absurd (escaped_encode hesc y hi hdelim hne) hopen
  · rintro rfl
    refine ⟨by simp, ?_⟩
    rw [Escaped, List.take_left, hx]
    simp

/-- **Two texts with a delimiter between them** can be read back. -/
theorem encode_delim_inj {x' y' : List α} (hesc : special esc = true)
    (hdelim : special delim = true) (hne : delim ≠ esc)
    (h : encode esc special (x.map some) ++ delim :: encode esc special (y.map some)
      = encode esc special (x'.map some) ++ delim :: encode esc special (y'.map some)) :
    x = x' ∧ y = y' := by
  have hlen : (encode esc special (x.map some)).length
      = (encode esc special (x'.map some)).length := by
    rw [← delim_iff hesc hdelim hne x' y', ← h, delim_iff hesc hdelim hne x y]
  obtain ⟨hx, hy⟩ := List.append_inj h hlen
  exact ⟨encode_map_inj hesc hx, encode_map_inj hesc (List.cons.inj hy).2⟩

end other

/-! ## Without the character `esc` -/

/-- Without `esc` in them, different lists of tokens are written differently. -/
theorem encode_inj_of_notMem (hesc : special esc = true) (hts : some esc ∉ ts)
    (hts' : some esc ∉ ts') (h : encode esc special ts = encode esc special ts') : ts = ts' := by
  induction ts generalizing ts' with
  | nil => exact (encode_eq_nil.mp h.symm).symm
  | cons t ts ih =>
    cases ts' with
    | nil => exact encode_eq_nil.mp h
    | cons t' ts' =>
      rcases encode_cons_eq hesc h with ⟨rfl, h'⟩ | ⟨rfl, -, -⟩ | ⟨-, rfl, -⟩
      · rw [ih (List.not_mem_of_not_mem_cons hts) (List.not_mem_of_not_mem_cons hts') h']
      · exact absurd List.mem_cons_self hts
      · exact absurd List.mem_cons_self hts'

section count

variable [DecidableEq α]

/-- The special characters other than `esc` can be counted in what is written. -/
theorem countP_encode : (encode esc special ts).countP (fun a ↦ special a && decide (a ≠ esc))
    = ts.countP fun t ↦ t.any fun a ↦ special a && decide (a ≠ esc) := by
  induction ts with
  | nil => rfl
  | cons t ts ih =>
    rw [encode_cons, List.countP_append, ih, List.countP_cons, Nat.add_comm]
    congr 1
    cases t with
    | none => simp
    | some a => by_cases ha : special a = true <;> simp [token, ha]

/-- And so can `esc`: it is in front of those, it is a delimiter, or it is there twice. -/
theorem count_encode (hesc : special esc = true) : (encode esc special ts).count esc
    = ts.count none + 2 * ts.count (some esc) +
      ts.countP fun t ↦ t.any fun a ↦ special a && decide (a ≠ esc) := by
  induction ts with
  | nil => rfl
  | cons t ts ih =>
    rw [encode_cons, List.count_append, ih]
    simp only [List.count_cons, List.countP_cons]
    cases t with
    | none => simp; omega
    | some a =>
      by_cases hae : a = esc
      · subst hae
        simp [token, hesc]
        omega
      · by_cases ha : special a = true
        · simp [token, ha, hae]
          omega
        · simp [token, ha, hae]

/-- What is written shows how many characters `esc` there are, if one knows how many delimiters. -/
theorem count_esc_eq (hesc : special esc = true)
    (h : encode esc special ts = encode esc special ts') (hcount : ts.count none = ts'.count none) :
    ts.count (some esc) = ts'.count (some esc) := by
  have hothers : (encode esc special ts).countP (fun a ↦ special a && decide (a ≠ esc))
      = (encode esc special ts').countP fun a ↦ special a && decide (a ≠ esc) := by rw [h]
  have hall : (encode esc special ts).count esc = (encode esc special ts').count esc := by rw [h]
  rw [countP_encode, countP_encode] at hothers
  rw [count_encode hesc, count_encode hesc] at hall
  omega

end count

/-! ## With lone delimiters

If a delimiter is next to nothing that is written with `esc` alone, every other list of tokens that
is written the same has more delimiters. -/

section lone

variable [DecidableEq α]

/-- The first part is about lists that are written the same.  The second is about lists after a
character `esc` in `ts` where `ts'` has a delimiter, so that `ts'` is behind. -/
theorem count_none_le (hesc : special esc = true) :
    (∀ {ts : List (Option α)}, Apart esc ts → Single ts →
      encode esc special ts = encode esc special ts' →
        ts.count none ≤ ts'.count none ∧ (ts'.count none ≤ ts.count none → ts = ts')) ∧
    ∀ {ts : List (Option α)}, Apart esc (some esc :: ts) → Single ts →
      esc :: encode esc special ts = encode esc special ts' →
        ts.count none + 1 ≤ ts'.count none := by
  induction ts' with
  | nil =>
    refine ⟨fun _ _ h ↦ ?_, fun _ _ h ↦ absurd h (by simp)⟩
    obtain rfl := encode_eq_nil.mp h
    exact ⟨Nat.le_refl _, fun _ ↦ rfl⟩
  | cons t' ts' ih =>
    constructor
    · intro ts hapart hsingle h
      cases ts with
      | nil => exact absurd (encode_eq_nil.mp h.symm) (by simp)
      | cons t ts =>
        rcases encode_cons_eq hesc h with ⟨rfl, h'⟩ | ⟨rfl, rfl, h'⟩ | ⟨rfl, rfl, h'⟩
        · have hapart' : Apart esc ts := hapart.tail
          obtain ⟨hle, heq⟩ := ih.1 hapart' hsingle.tail h'
          simp only [List.count_cons]
          exact ⟨by omega, fun hc ↦ by rw [heq (by omega)]⟩
        · have hlt := ih.2 hapart hsingle.tail h'.symm
          simp only [List.count_cons]
          exact ⟨by simp; omega, fun hc ↦ by simp at hc; omega⟩
        -- behind a delimiter there is no delimiter, no `esc`, and no other special character
        · rcases encode_eq_esc_cons hesc h' with ⟨r, rfl, -⟩ | ⟨r, rfl, -⟩ | ⟨a, r, -, ha, hne, hw⟩
          · exact absurd ⟨rfl, rfl⟩ hsingle.rel
          · exact absurd ⟨rfl, rfl⟩ hapart.rel.2
          · exact absurd (not_special_head hw hne) (by simp [ha])
    · intro ts hapart hsingle h
      rcases encode_eq_esc_cons hesc h.symm with ⟨r, hr, hw⟩ | ⟨r, hr, hw⟩ | ⟨a, r, -, ha, hne, hw⟩
      · obtain ⟨rfl, rfl⟩ := List.cons.inj hr
        have hle := (ih.1 hapart.tail hsingle hw).1
        simpa using hle
      · obtain ⟨rfl, rfl⟩ := List.cons.inj hr
        rcases encode_eq_esc_cons hesc hw with
          ⟨r', rfl, -⟩ | ⟨r', rfl, hw'⟩ | ⟨a, r', -, ha, hne, hw'⟩
        · exact absurd ⟨rfl, rfl⟩ hapart.rel.1
        · have hlt := ih.2 hapart.tail hsingle.tail hw'.symm
          simpa using hlt
        · exact absurd (not_special_head hw' hne) (by simp [ha])
      · exact absurd (not_special_head hw hne) (by simp [ha])

end lone

/-! ## When tokens are unique -/

/-- Tokens that are next to each other can be exchanged, if they are `esc` and a delimiter. -/
theorem exists_of_not_apart (hesc : special esc = true) (h : ¬ Apart esc ts) :
    ∃ ts', ts'.Perm ts ∧ encode esc special ts' = encode esc special ts ∧ ts' ≠ ts := by
  have hesc' : token esc special (some esc) = [esc, esc] := token_of_special hesc
  rw [Apart, List.isChain_iff_forall_rel_of_append_cons_cons] at h
  simp only [not_forall] at h
  obtain ⟨t, t', l₁, l₂, rfl, h⟩ := h
  have ht : (t = some esc ∧ t' = none) ∨ (t = none ∧ t' = some esc) := by
    by_contra hc
    exact h (not_or.mp hc)
  rcases ht with ⟨rfl, rfl⟩ | ⟨rfl, rfl⟩
  · refine ⟨l₁ ++ none :: some esc :: l₂, (List.Perm.swap ..).append_left l₁, by simp [hesc'], ?_⟩
    simp
  · refine ⟨l₁ ++ some esc :: none :: l₂, (List.Perm.swap ..).append_left l₁, by simp [hesc'], ?_⟩
    simp

/-- Two delimiters can be exchanged for `esc`. -/
theorem exists_of_not_single (hesc : special esc = true) (h : ¬ Single ts) (hmem : some esc ∈ ts) :
    ∃ ts', ts'.Perm ts ∧ encode esc special ts' = encode esc special ts ∧ ts' ≠ ts := by
  have hesc' : token esc special (some esc) = [esc, esc] := token_of_special hesc
  rw [Single, List.isChain_iff_forall_rel_of_append_cons_cons] at h
  simp only [not_forall, not_not] at h
  obtain ⟨t, t', l₁, l₂, rfl, rfl, rfl⟩ := h
  have hmem' : some esc ∈ l₁ ∨ some esc ∈ l₂ := by simpa using hmem
  rcases hmem' with hmem' | hmem'
  · obtain ⟨a, b, rfl⟩ := List.append_of_mem hmem'
    refine ⟨a ++ none :: none :: (b ++ some esc :: l₂), ?_, by simp [hesc'], by simp⟩
    classical
    rw [List.perm_iff_count]
    intro t
    simp only [List.count_append, List.count_cons]
    omega
  · obtain ⟨a, b, rfl⟩ := List.append_of_mem hmem'
    refine ⟨l₁ ++ some esc :: (a ++ none :: none :: b), ?_, by simp [hesc'], by simp⟩
    classical
    rw [List.perm_iff_count]
    intro t
    simp only [List.count_append, List.count_cons]
    omega

/-- **When tokens are unique** among those with as many delimiters: when delimiters keep apart from
`esc`, and from each other unless there is no `esc`. -/
theorem encode_unique_iff [DecidableEq α] (hesc : special esc = true) :
    (∀ ts', ts'.count none = ts.count none → encode esc special ts' = encode esc special ts →
        ts' = ts) ↔ Apart esc ts ∧ (some esc ∉ ts ∨ Single ts) := by
  constructor
  · intro h
    have hperm : ¬ ∃ ts' : List (Option α), ts'.Perm ts ∧
        encode esc special ts' = encode esc special ts ∧ ts' ≠ ts :=
      fun ⟨ts', hp, he, hne⟩ ↦ hne (h ts' (hp.count_eq none) he)
    constructor
    · by_contra hapart
      exact hperm (exists_of_not_apart hesc hapart)
    · by_contra hc
      rw [not_or, not_not] at hc
      exact hperm (exists_of_not_single hesc hc.2 hc.1)
  · rintro ⟨hapart, hmem | hsingle⟩ ts' hcount he
    · have hzero := count_esc_eq hesc he hcount
      rw [List.count_eq_zero_of_not_mem hmem, List.count_eq_zero] at hzero
      exact encode_inj_of_notMem hesc hzero hmem he
    · exact (((count_none_le hesc).1 hapart hsingle he.symm).2 (Nat.le_of_eq hcount)).symm

/-! ## Texts -/

/-- The tokens of texts, with delimiters between them. -/
def tokens : List (List α) → List (Option α)
  | [] => []
  | [x] => x.map some
  | x :: y :: xs => x.map some ++ none :: tokens (y :: xs)

/-- What makes texts unique: `esc` is neither the first nor the last character of a text next to a
delimiter, and no text between two delimiters is empty unless `esc` is in no text at all. -/
structure Unique (esc : α) (xs : List (List α)) : Prop where
  head : ∀ x ∈ xs.tail, x.head? ≠ some esc
  last : ∀ x ∈ xs.dropLast, x.getLast? ≠ some esc
  inner : (∀ x ∈ xs, esc ∉ x) ∨ ∀ x ∈ xs.tail.dropLast, x ≠ []

variable {x y : List α} {xs ys : List (List α)}

theorem count_none_tokens [DecidableEq α] : (tokens xs).count none = xs.length - 1 := by
  have hmap : ∀ x : List α, (x.map some).count none = 0 := fun x ↦ by simp [List.count_eq_zero]
  fun_induction tokens xs with
  | case1 => rfl
  | case2 x => exact hmap x
  | case3 x y xs ih => simp [hmap, ih]

/-- The texts that a list of tokens is about. -/
def texts : List (Option α) → List (List α)
  | [] => [[]]
  | none :: ts => [] :: texts ts
  | some a :: ts => (texts ts).modifyHead (a :: ·)

theorem texts_ne_nil (ts : List (Option α)) : texts ts ≠ [] := by
  fun_induction texts ts with
  | case1 | case2 => simp
  | case3 a ts ih => simpa using ih

theorem tokens_texts (ts : List (Option α)) : tokens (texts ts) = ts := by
  fun_induction texts ts with
  | case1 => rfl
  | case2 ts ih =>
    obtain ⟨x, xs, hx⟩ := List.exists_cons_of_ne_nil (texts_ne_nil ts)
    rw [hx] at ih ⊢
    rw [tokens, ih]
    rfl
  | case3 a ts ih =>
    obtain ⟨x, xs, hx⟩ := List.exists_cons_of_ne_nil (texts_ne_nil ts)
    rw [hx] at ih ⊢
    rw [← ih]
    cases xs <;> rfl

theorem texts_tokens (hxs : xs ≠ []) : texts (tokens xs) = xs := by
  have hlast : ∀ x : List α, texts (x.map some) = [x] := by
    intro x
    induction x with
    | nil => rfl
    | cons a x ih => rw [List.map_cons, texts, ih]; rfl
  have hmore : ∀ (x : List α) (ts : List (Option α)),
      texts (x.map some ++ none :: ts) = x :: texts ts := by
    intro x ts
    induction x with
    | nil => rfl
    | cons a x ih => rw [List.map_cons, List.cons_append, texts, ih]; rfl
  fun_induction tokens xs with
  | case1 => exact absurd rfl hxs
  | case2 x => exact hlast x
  | case3 x y xs ih => rw [hmore, ih (by simp)]

theorem mem_tokens : some a ∈ tokens xs ↔ ∃ x ∈ xs, a ∈ x := by
  fun_induction tokens xs with
  | case1 => simp
  | case2 x => simp
  | case3 x y xs ih => simp [ih]

/-- What relates characters to delimiters only, does so in a list of tokens where two texts meet. -/
theorem isChain_tokens {R : Option α → Option α → Prop} (hR : ∀ a b, R (some a) (some b)) :
    (tokens (x :: y :: xs)).IsChain R ↔ (∀ a ∈ x.getLast?, R (some a) none) ∧
      (∀ t ∈ (tokens (y :: xs)).head?, R none t) ∧ (tokens (y :: xs)).IsChain R := by
  have hx : (x.map some).IsChain R := List.isChain_iff_getElem.mpr fun i hi ↦ by
    simpa using hR _ _
  rw [tokens, List.isChain_append, List.isChain_cons]
  simp [hx, and_comm, and_left_comm]

theorem head?_tokens : (tokens (y :: xs)).head? = match y, xs with
    | a :: _, _ => some (some a)
    | [], [] => none
    | [], _ :: _ => some none := by
  cases y <;> cases xs <;> rfl

theorem isChain_tokens_singleton {R : Option α → Option α → Prop}
    (hR : ∀ a b, R (some a) (some b)) : (tokens [x]).IsChain R :=
  List.isChain_iff_getElem.mpr fun i hi ↦ by simpa [tokens] using hR _ _

theorem apart_tokens_iff : Apart esc (tokens xs) ↔
    (∀ x ∈ xs.tail, x.head? ≠ some esc) ∧ ∀ x ∈ xs.dropLast, x.getLast? ≠ some esc := by
  fun_induction tokens xs with
  | case1 => simp [Apart]
  | case2 x => exact iff_of_true (isChain_tokens_singleton (by simp)) (by simp)
  | case3 x y xs ih =>
    have h := @isChain_tokens _ x y xs
      (fun t t' ↦ ¬ (t = some esc ∧ t' = none) ∧ ¬ (t = none ∧ t' = some esc)) (by simp)
    rw [Apart] at ih ⊢
    rw [tokens] at h
    rw [h, ih, head?_tokens]
    cases y <;> cases xs <;> simp <;> grind

theorem single_tokens_iff : Single (tokens xs) ↔ ∀ x ∈ xs.tail.dropLast, x ≠ [] := by
  fun_induction tokens xs with
  | case1 => simp [Single]
  | case2 x => exact iff_of_true (isChain_tokens_singleton (by simp)) (by simp)
  | case3 x y xs ih =>
    have h := @isChain_tokens _ x y xs (fun t t' ↦ ¬ (t = none ∧ t' = none)) (by simp)
    rw [Single] at ih ⊢
    rw [tokens] at h
    rw [h, ih, head?_tokens]
    cases y <;> cases xs <;> simp

theorem unique_iff : Unique esc xs ↔ Apart esc (tokens xs) ∧
    (some esc ∉ tokens xs ∨ Single (tokens xs)) := by
  rw [apart_tokens_iff, single_tokens_iff, mem_tokens]
  simp only [not_exists, not_and]
  exact ⟨fun ⟨h1, h2, h3⟩ ↦ ⟨⟨h1, h2⟩, h3⟩, fun ⟨⟨h1, h2⟩, h3⟩ ↦ ⟨h1, h2, h3⟩⟩

/-- **When texts are unique** among as many texts that are written the same. -/
theorem texts_unique_iff [DecidableEq α] (hesc : special esc = true) :
    (∀ ys : List (List α), ys.length = xs.length →
        encode esc special (tokens ys) = encode esc special (tokens xs) → ys = xs) ↔
      Unique esc xs := by
  rcases eq_or_ne xs [] with rfl | hxs
  · refine iff_of_true (fun ys hlen _ ↦ List.length_eq_zero_iff.mp hlen) ?_
    exact ⟨by simp, by simp, by simp⟩
  rw [unique_iff, ← encode_unique_iff hesc]
  constructor
  · intro h ts hcount he
    have hpos := List.length_pos_iff.mpr hxs
    have hpos' := List.length_pos_iff.mpr (texts_ne_nil ts)
    rw [← tokens_texts ts, count_none_tokens, count_none_tokens] at hcount
    rw [← h (texts ts) (by omega) (by rw [tokens_texts, he]), tokens_texts]
  · intro h ys hlen he
    have hys : ys ≠ [] := fun hnil ↦ hxs (List.length_eq_zero_iff.mp (by simp [← hlen, hnil]))
    have htokens := h (tokens ys) (by rw [count_none_tokens, count_none_tokens, hlen]) he
    rw [← texts_tokens hys, htokens, texts_tokens hxs]

end Escape
