import Cppkg.Fmts.Trim

/-!
# Paths, as the scripts use them

`os.path.basename`, `dirname` and `join` for POSIX.  A path is a text; the base name is what is
behind the last slash, and what is in front of it is the directory, without the slashes at its end
unless it is nothing but slashes.
-/

set_option autoImplicit false

namespace Cppkg
namespace Scripts

/-- `os.path.basename` -/
def basename (p : Str) : Str := p.rtakeWhile (· != '/')

/-- `os.path.dirname` -/
def dirname (p : Str) : Str :=
  let head := p.rdropWhile (· != '/')
  if head.all (· == '/') = true then head else head.rdropWhile (· == '/')

/-- `os.path.join` -/
def join (a b : Str) : Str :=
  if b.head? = some '/' then b
  else if a = [] ∨ a.getLast? = some '/' then a ++ b
  else a ++ '/' :: b

variable {p a d f : Str}

/-! ## A name behind a directory -/

/-- The text `d` ends where a base name can begin. -/
def EndsDir (d : Str) : Prop := d = [] ∨ d.getLast? = some '/'

theorem rtakeWhile_append (hd : EndsDir d) (hf : '/' ∉ f) :
    (d ++ f).rtakeWhile (· != '/') = f ∧ (d ++ f).rdropWhile (· != '/') = d := by
  have hall : ∀ c ∈ f.reverse, (c != '/') = true := by
    intro c hc
    rw [bne_iff_ne]
    rintro rfl
    exact hf (List.mem_reverse.mp hc)
  have hhead : d.reverse = [] ∨ ∃ l, d.reverse = '/' :: l := by
    rcases hd with rfl | hd
    · exact .inl rfl
    · exact .inr (List.head?_eq_some_iff.mp (by rwa [List.head?_reverse]))
  rw [List.rtakeWhile, List.rdropWhile, List.reverse_append, List.takeWhile_append_of_pos hall,
    List.dropWhile_append_of_pos hall]
  rcases hhead with h | ⟨l, h⟩
  · have hd : d = [] := by simpa using h
    simp [hd]
  · rw [h, List.takeWhile_cons_of_neg (by simp), List.dropWhile_cons_of_neg (by simp), ← h]
    simp

theorem basename_append (hd : EndsDir d) (hf : '/' ∉ f) : basename (d ++ f) = f :=
  (rtakeWhile_append hd hf).1

/-- There is no slash in a base name. -/
theorem not_mem_basename (p : Str) : '/' ∉ basename p := by
  intro h
  have := List.mem_rtakeWhile_imp h
  simp at this

/-- A name without slashes is put behind the directory, and a slash. -/
theorem join_eq (a : Str) (hf : '/' ∉ f) :
    join a f = (if a = [] ∨ a.getLast? = some '/' then a else a ++ ['/']) ++ f := by
  have hhead : f.head? ≠ some '/' := fun h ↦ hf (List.mem_of_mem_head? h)
  rw [join, if_neg hhead]
  split <;> simp

theorem endsDir_join (a : Str) :
    EndsDir (if a = [] ∨ a.getLast? = some '/' then a else a ++ ['/']) := by
  split
  · assumption
  · exact .inr (by simp)

/-- **The base name** of what was joined. -/
theorem basename_join (a : Str) (hf : '/' ∉ f) : basename (join a f) = f := by
  rw [join_eq a hf, basename_append (endsDir_join a) hf]

/-- What `dirname` returns is all slashes, or does not end with one. -/
theorem dirname_cases (p : Str) :
    (dirname p).all (· == '/') = true ∨ (dirname p).getLast? ≠ some '/' := by
  rw [dirname]
  split
  · rename_i h
    exact .inl h
  · refine .inr fun h ↦ ?_
    obtain ⟨hne, hlast⟩ := List.mem_getLast?_eq_getLast h
    exact List.rdropWhile_last_not _ _ hne (by rw [← hlast]; rfl)

/-- **The directory** of a file that is put where another one is. -/
theorem dirname_join (p : Str) (hf : '/' ∉ f) : dirname (join (dirname p) f) = dirname p := by
  have hcases := dirname_cases p
  generalize dirname p = a at hcases
  rw [dirname, join_eq a hf, (rtakeWhile_append (endsDir_join a) hf).2]
  split
  · rename_i ha
    rcases ha with rfl | ha
    · rfl
    · rw [if_pos (hcases.resolve_right (not_not_intro ha))]
  · rename_i ha
    rw [not_or] at ha
    have hself : a.rdropWhile (· == '/') = a := by
      rw [List.rdropWhile_eq_self_iff]
      intro hne hc
      exact ha.2 (by rw [List.getLast?_eq_some_getLast hne, beq_iff_eq.mp hc])
    have hnot : ¬ (a ++ ['/']).all (· == '/') = true := by
      intro hall
      have hmem := List.all_eq_true.mp hall (a.getLast ha.1)
        (List.mem_append_left _ (List.getLast_mem ha.1))
      exact ha.2 (by rw [List.getLast?_eq_some_getLast ha.1, beq_iff_eq.mp hmem])
    rw [if_neg hnot, List.rdropWhile_concat_pos _ _ _ (by simp), hself]

end Scripts
end Cppkg
