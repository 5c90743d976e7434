import Cppkg.Fmts.Arrays
import Cppkg.Lib.Pattern

/-!
# Splitting and joining, from `fmts/fmts.hpp` and `fmts/src/fmts.cpp`

`join` writes the elements of an array of `std::string`s with a delimiter between them, and `split`
takes such a text apart again.  With a delimiter that is not empty nothing is lost, and what was
joined is split where it was joined if the delimiter has no border.  An empty delimiter is found at
once in every text, so that `split` goes on forever.
-/

set_option autoImplicit false

namespace Cppkg
namespace Fmts

/-! ## The functions -/

/-- `std::string::find` from the beginning: where `delim` first occurs in `s`; `none` is `npos`. -/
def find (s delim : Str) : Option ℕ := Pattern.find (Pattern.word delim) s

/-- `std::string::substr` to the end. -/
def substr (s : Str) (pos : ℕ) : Run Fault Str :=
  if pos ≤ s.length then pure (s.drop pos) else .fail .outOfRange

/-- Return string `s` split into all substrings separated by `delim` as a vector.  The state is `s`
and the vector. -/
def split (s delim : Str) : Run Fault StringsT :=
  Run.loop (fun (s, out) ↦
    match find s delim with
    | some i => do
      let rest ← substr s (i + delim.length)
      pure (.inl (rest, out ++ [s.take i]))
    | none => pure (.inr (out ++ [s]))) (s, [])

namespace Strings

/-- Stream values as an array delimited by `delim`.  A `std::string` is streamed as it is. -/
def arrToStream (s : Str) (vals : StringsT) (delim : Str) : Str :=
  match vals with
  | [] => s
  | val :: vals => vals.foldl (fun s val ↦ s ++ delim ++ val) (s ++ val)

/-- The values as one string, delimited by `delim`. -/
def join (delim : Str) (vals : StringsT) : Str := arrToStream [] vals delim

variable {delim : Str} {vals : StringsT} {val val' : Str}

@[simp] theorem join_singleton (delim val : Str) : join delim [val] = val := rfl

theorem join_cons_cons : join delim (val :: val' :: vals)
    = val ++ (delim ++ join delim (val' :: vals)) := by
  have h : ∀ a b : Str, vals.foldl (fun s val ↦ s ++ delim ++ val) (a ++ b)
      = a ++ vals.foldl (fun s val ↦ s ++ delim ++ val) b := by
    induction vals with
    | nil => exact fun _ _ ↦ rfl
    | cons v vals ih =>
      intro a b
      rw [List.foldl_cons, List.foldl_cons, List.append_assoc, List.append_assoc, ih]
      simp
  rw [join, join, arrToStream, arrToStream, List.foldl_cons, List.nil_append, List.append_assoc, h,
    h, List.nil_append]

theorem join_concat (h : vals ≠ []) :
    join delim (vals ++ [val]) = join delim vals ++ delim ++ val := by
  obtain ⟨v, vals, rfl⟩ := List.exists_cons_of_ne_nil h
  simp [join, arrToStream, List.foldl_append]

/-- A value that contains a delimiter is joined like its two parts. -/
theorem join_concat_concat :
    join delim (vals ++ [val] ++ [val']) = join delim (vals ++ [val ++ delim ++ val']) := by
  rw [join_concat (by simp)]
  rcases eq_or_ne vals [] with rfl | hvals
  · rfl
  · rw [join_concat hvals, join_concat hvals]
    simp

end Strings

open Strings Pattern

variable {s delim : Str} {out : StringsT} {i : ℕ}

/-! ## One round -/

/-- The body of the loop of `split`. -/
def splitRound (delim : Str) : Str × StringsT → Run Fault ((Str × StringsT) ⊕ StringsT)
  | (s, out) =>
    match find s delim with
    | some i => do
      let rest ← substr s (i + delim.length)
      pure (.inl (rest, out ++ [s.take i]))
    | none => pure (.inr (out ++ [s]))

theorem split_eq (s delim : Str) : split s delim = Run.loop (splitRound delim) (s, []) := rfl

/-- A round that finds a delimiter takes off what is in front of it. -/
theorem splitRound_of_find (h : find s delim = some i) :
    splitRound delim (s, out) = pure (.inl (s.drop (i + delim.length), out ++ [s.take i])) := by
  have hle := add_length_le_of_find h
  rw [length_word] at hle
  rw [splitRound, h]
  simp only [substr, if_pos hle, Run.pure_bind]

/-- A round that finds none is the last. -/
theorem splitRound_last (h : ¬ delim <:+: s) :
    splitRound delim (s, out) = pure (.inr (out ++ [s])) := by
  have hnone : find s delim = none := find_eq_none_iff.mpr (by rwa [occurs_word])
  rw [splitRound, hnone]

/-! ## What is split -/

/-- The state of the loop of `split`: nothing is lost. -/
def SplitInv (delim whole : Str) : Str × StringsT → Prop
  | (s, out) => join delim (out ++ [s]) = whole ∧ ∀ x ∈ out, ¬ delim <:+: x

/-- **`split` loses nothing.** -/
theorem split_wp (hdelim : delim ≠ []) (s : Str) :
    (split s delim).wp fun pieces ↦ (∀ x ∈ pieces, ¬ delim <:+: x) ∧ join delim pieces = s := by
  rw [split_eq]
  refine Run.wp_loop (SplitInv delim s) (fun st ↦ st.1.length) ?_ ⟨rfl, by simp⟩
  rintro ⟨rest, out⟩ ⟨hjoin, hout⟩
  cases hf : find rest delim with
  | some i =>
    rw [splitRound_of_find hf]
    simp only [Run.wp_pure, Run.round_inl]
    have hcut := find_word_eq_some hf
    have hle := add_length_le_of_find hf
    rw [length_word] at hle
    have hpos := List.length_pos_iff.mpr hdelim
    refine ⟨⟨?_, fun x hx ↦ ?_⟩, by rw [List.length_drop]; omega⟩
    · rw [join_concat_concat, ← hcut, hjoin]
    · rcases List.mem_append.mp hx with hx | hx
      · exact hout x hx
      -- what is in front of the first delimiter has none
      · obtain rfl := List.mem_singleton.mp hx
        rw [← occurs_word]
        rintro ⟨j, hj⟩
        obtain ⟨-, -, hmin⟩ := find_eq_some_iff.mp hf
        have hlen := length_le_of_starts hj
        rw [length_word, List.length_drop, List.length_take] at hlen
        have hst := starts_append hj (rest.drop i)
        rw [← List.drop_append_of_le_length (by rw [List.length_take]; omega),
          List.take_append_drop, hmin j (by omega)] at hst
        simp at hst
  | none =>
    have hno : ¬ delim <:+: rest := by rw [← occurs_word]; exact find_eq_none_iff.mp hf
    rw [splitRound_last hno]
    simp only [Run.wp_pure, Run.round_inr]
    refine ⟨fun x hx ↦ ?_, hjoin⟩
    rcases List.mem_append.mp hx with hx | hx
    · exact hout x hx
    · exact List.mem_singleton.mp hx ▸ hno

/-- **`split` finds the pieces** that were joined. -/
theorem loop_splitRound_join (hw : Unbordered delim) (pieces : StringsT) (hne : pieces ≠ [])
    (hfree : ∀ x ∈ pieces, ¬ delim <:+: x) (out : StringsT) :
    (Run.loop (splitRound delim) (join delim pieces, out)).Returns (out ++ pieces) := by
  induction pieces generalizing out with
  | nil => exact absurd rfl hne
  | cons x pieces ih =>
    rw [← Run.wp_eq_iff, Run.wp_loop_iff]
    have hx := hfree x List.mem_cons_self
    cases pieces with
    | nil =>
      rw [join_singleton, splitRound_last hx]
      simp
    | cons y pieces =>
      have hf : find (join delim (x :: y :: pieces)) delim = some x.length := by
        rw [join_cons_cons]
        exact find_word_append hw hx _
      rw [splitRound_of_find hf]
      simp only [Run.wp_pure, Run.round_inl]
      have htake : (join delim (x :: y :: pieces)).take x.length = x := by
        rw [join_cons_cons, List.take_left]
      have hdrop : (join delim (x :: y :: pieces)).drop (x.length + delim.length)
          = join delim (y :: pieces) := by
        rw [join_cons_cons, ← List.drop_drop, List.drop_left, List.drop_left]
      rw [htake, hdrop, Run.wp_eq_iff]
      have h := ih (by simp) (fun z hz ↦ hfree z (List.mem_cons_of_mem x hz)) (out ++ [x])
      simpa using h

/-- **Splitting and joining.**  With a delimiter that is not empty, what `split` returns contains no
delimiter, and is what the text was joined from; if the delimiter has no border, it is the only
thing it can have been joined from. -/
theorem split_join (delim : Str) (hdelim : delim ≠ []) :
    (∀ s, ∃ pieces, (split s delim).Returns pieces ∧ (∀ x ∈ pieces, ¬ delim <:+: x) ∧
      join delim pieces = s) ∧
    (Unbordered delim → ∀ pieces, pieces ≠ [] → (∀ x ∈ pieces, ¬ delim <:+: x) →
      (split (join delim pieces) delim).Returns pieces) :=
  ⟨split_wp hdelim, fun hw pieces hne hfree ↦ loop_splitRound_join hw pieces hne hfree []⟩

/-- An empty piece at either end, and one between two delimiters. -/
theorem split_join_colons : (∃ pieces, (split [':', 'a', ':', ':'] [':']).Returns pieces ∧
      (∀ x ∈ pieces, ¬ [':'] <:+: x) ∧ join [':'] pieces = [':', 'a', ':', ':']) ∧
    (split (join [':'] [[], ['a'], [], []]) [':']).Returns [[], ['a'], [], []] := by
  obtain ⟨h₁, h₂⟩ := split_join [':'] (by decide)
  refine ⟨h₁ _, h₂ ?_ _ (by decide) (by decide)⟩
  rintro b hb hne ⟨t, ht⟩
  cases b with
  | nil => exact absurd rfl hb
  | cons c b =>
    obtain ⟨rfl, ht'⟩ := List.cons.inj ht
    have hnil : b = [] := (List.append_eq_nil_iff.mp ht').1
    exact absurd (by rw [hnil]) hne

/-! ## The empty delimiter -/

/-- With an empty delimiter, each round takes off nothing. -/
theorem not_halts_split_nil (s : Str) : ¬ (split s []).Halts := by
  refine Run.not_halts_of_safe ?_
  rw [split_eq]
  refine Run.safe_loop (fun _ ↦ True) ?_ trivial
  rintro ⟨s, out⟩ -
  have hf : find s [] = some 0 := by
    rw [find, find_eq_some_iff]
    exact ⟨Nat.zero_le _, by simp [word], by simp⟩
  rw [splitRound_of_find hf]
  simp

/-- **When `split` ends**: with every delimiter but the empty one. -/
theorem split_halts_iff (s delim : Str) : (split s delim).Halts ↔ delim ≠ [] := by
  constructor
  · rintro hhalts rfl
    exact not_halts_split_nil s hhalts
  · intro hdelim
    obtain ⟨pieces, h, -⟩ := split_wp hdelim s
    exact h.halts

theorem not_split_halts : ¬ ∀ s delim : Str, (split s delim).Halts :=
  fun h ↦ not_halts_split_nil ['a'] (h ['a'] [])

end Fmts
end Cppkg
