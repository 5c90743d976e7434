import Mathlib.Data.List.TakeWhile

/-!
# Lines

The lines of a text, with whatever separator: a line ends at a separator, and what comes after the
last separator is a line only if there is something.  So a text may end with a separator or without,
and it has the same lines.

* `Text.lines_of_ne_nil` — the first line and the rest, which is how a loop reads them;
* `Text.lines_flatten` — writing lines out, each with a separator behind, loses nothing;
* `Text.intercalate_map_inj` — nor does writing them out with separators between them.
-/

set_option autoImplicit false

namespace Text

variable {α : Type} [DecidableEq α] {sep : α}

/-- The lines of `l`. -/
def lines (sep : α) (l : List α) : List (List α) :=
  if (l.splitOn sep).getLast? = some [] then (l.splitOn sep).dropLast else l.splitOn sep

@[simp] theorem lines_nil (sep : α) : lines sep [] = [] := by simp [lines]

theorem lines_append_cons {a : List α} (h : sep ∉ a) (l : List α) :
    lines sep (a ++ sep :: l) = a :: lines sep l := by
  have hne := List.splitOn_ne_nil sep l
  rw [lines, lines, List.splitOn_append_cons_self_of_not_mem h, List.getLast?_cons_of_ne_nil hne,
    List.dropLast_cons_of_ne_nil hne]
  split <;> rfl

theorem lines_of_not_mem {l : List α} (h : sep ∉ l) (hl : l ≠ []) : lines sep l = [l] := by
  simp [lines, List.splitOn_eq_singleton h, hl]

/-- The first line, and the lines of what comes after its separator. -/
theorem lines_of_ne_nil {l : List α} (hl : l ≠ []) :
    lines sep l = l.takeWhile (· != sep) :: lines sep (l.dropWhile (· != sep)).tail := by
  have hnot : sep ∉ l.takeWhile (· != sep) := fun h ↦ by simpa using List.mem_takeWhile_imp h
  have happ := List.takeWhile_append_dropWhile (p := (· != sep)) (l := l)
  cases hd : l.dropWhile (· != sep) with
  | nil =>
    rw [hd, List.append_nil] at happ
    rw [happ] at hnot ⊢
    rw [lines_of_not_mem hnot hl, List.tail_nil, lines_nil]
  | cons c rest =>
    have hc : c = sep := by
      have := List.head?_dropWhile_not (· != sep) l
      simpa [hd] using this
    rw [hd, hc] at happ
    calc lines sep l = lines sep (l.takeWhile (· != sep) ++ sep :: rest) := by rw [happ]
      _ = _ := by rw [lines_append_cons hnot, List.tail_cons]

/-- **Lines can be read back.** -/
theorem lines_flatten {ls : List (List α)} (h : ∀ a ∈ ls, sep ∉ a) :
    lines sep (ls.map (· ++ [sep])).flatten = ls := by
  induction ls with
  | nil => simp
  | cons a ls ih =>
    have happ :
      ((a :: ls).map (· ++ [sep])).flatten = a ++ sep :: (ls.map (· ++ [sep])).flatten := by
      simp
    rw [happ, lines_append_cons (h a List.mem_cons_self),
      ih fun b hb ↦ h b (List.mem_cons_of_mem a hb)]

/-! ## All that is between two separators -/

theorem notMem_of_mem_splitOn {l a : List α} (h : a ∈ l.splitOn sep) : sep ∉ a := by
  induction l generalizing a with
  | nil =>
    obtain rfl : a = [] := by simpa using h
    exact List.not_mem_nil
  | cons c l ih =>
    rw [List.splitOn_cons_eq_if_modifyHead] at h
    split at h
    · rcases List.mem_cons.mp h with rfl | h
      · exact List.not_mem_nil
      · exact ih h
    · rename_i hc
      obtain ⟨b, bs, hb⟩ := List.exists_cons_of_ne_nil (List.splitOn_ne_nil sep l)
      rw [hb, List.modifyHead_cons] at h
      rcases List.mem_cons.mp h with rfl | h
      · rw [List.mem_cons, not_or]
        exact ⟨fun hsep ↦ hc (by simp [hsep]), ih (hb ▸ List.mem_cons_self)⟩
      · exact ih (hb ▸ List.mem_cons_of_mem b h)

/-- Two texts that are put together of lines are the same if the lines are. -/
theorem intercalate_map_inj {β : Type} {ls : List β} {f g : β → List α}
    (hf : ∀ l ∈ ls, sep ∉ f l) (hg : ∀ l ∈ ls, sep ∉ g l) (hls : ls ≠ []) :
    [sep].intercalate (ls.map f) = [sep].intercalate (ls.map g) ↔ ∀ l ∈ ls, f l = g l := by
  rw [← List.map_inj_left]
  refine ⟨fun h ↦ ?_, fun h ↦ by rw [h]⟩
  have hsplit := congrArg (List.splitOn sep) h
  rwa [List.splitOn_intercalate sep (List.forall_mem_map.mpr hf) (by simpa using hls),
    List.splitOn_intercalate sep (List.forall_mem_map.mpr hg) (by simpa using hls)] at hsplit

end Text
