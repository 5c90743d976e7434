import Cppkg.Lib.Moves
import Cppkg.Scripts.Paths
import Mathlib.Data.Finset.Card

/-!
# Making the names of files unique, from `scripts/label_uniquify.py`

Files of the same name in different directories get different names: the first keeps its name, and
the others get a number behind the first part of theirs.  The names are found first, and then the
files are renamed one after the other.  A new name is one that no file before has, but a file that
comes later may have it, and it may be in the same directory; then the renaming overwrites it.

`keepsFiles_iff` says when no file is lost.
-/

set_option autoImplicit false

namespace Cppkg
namespace Scripts

/-! ## The names -/

/-- `d[key] = value` for a `dict`, which keeps its keys in the order in which they were added. -/
def setItem (d : List (Str × Str)) (key value : Str) : List (Str × Str) :=
  if key ∈ d.map Prod.fst then d.map fun e ↦ if e.1 = key then (key, value) else e
  else d ++ [(key, value)]

/-- The parts of a file name between which a number is put: what is in front of the first dot, and
the rest with the dot. -/
def nameParts (filename : Str) : Str × Str :=
  let fileparts := filename.splitOn '.'
  (fileparts.headD [], '.' :: ['.'].intercalate fileparts.tail)

/-- The name with a number. -/
def numbered (parts : Str × Str) (i : ℕ) : Str := parts.1 ++ Nat.toDigits 10 i ++ parts.2

/-- The loop that looks for a free name.  The state is `i` and `nxfile`. -/
def nextFree (file2path : List (Str × Str)) (parts : Str × Str) : ℕ → ℕ → Str → Str
  | 0, _, nxfile => nxfile
  | fuel + 1, i, nxfile =>
    if nxfile ∈ file2path.map Prod.fst then
      nextFree file2path parts fuel (i + 1) (numbered parts i)
    else nxfile

/-- The name that the file at `path` gets. -/
def nameFor (file2path : List (Str × Str)) (path : Str) : Str :=
  let filename := basename path
  if filename ∈ file2path.map Prod.fst then
    nextFree file2path (nameParts filename) (file2path.length + 1) 0 filename
  else filename

/-- One round of the loop over the paths. -/
def addPath (file2path : List (Str × Str)) (path : Str) : List (Str × Str) :=
  setItem file2path (nameFor file2path path) path

def file2path (paths : List Str) : List (Str × Str) := paths.foldl addPath []

/-- The path that the file at `path` gets, if its name is `nxfile`. -/
def nxpath (nxfile path : Str) : Str := join (dirname path) nxfile

/-- The files to rename, and the paths that they get. -/
def conversions (file2path : List (Str × Str)) : List (Str × Str) :=
  file2path.filterMap fun (nxfile, path) ↦
    if path ≠ nxpath nxfile path then some (path, nxpath nxfile path) else none

variable {d d' : List (Str × Str)} {path p : Str} {paths : List Str}

/-! ### A free name is found -/

theorem numbered_inj (parts : Str × Str) : Function.Injective (numbered parts) := by
  intro i j h
  have hdigits : Nat.toDigits 10 i = Nat.toDigits 10 j := by
    simpa [numbered] using h
  rw [← @Nat.ofDigitChars_ten_toDigits i, hdigits, Nat.ofDigitChars_ten_toDigits]

/-- If the loop ends with a name that is not free, it has tried as many numbers as it could. -/
theorem numbered_mem_of_nextFree (parts : Str × Str) {fuel i : ℕ} {nxfile : Str}
    (h : nextFree d parts fuel i nxfile ∈ d.map Prod.fst) :
    ∀ j, i ≤ j → j < i + fuel → numbered parts j ∈ d.map Prod.fst := by
  induction fuel generalizing i nxfile with
  | zero => exact fun j h1 h2 ↦ absurd h2 (by omega)
  | succ fuel ih =>
    rw [nextFree] at h
    split at h
    · intro j h1 h2
      rcases Nat.eq_or_lt_of_le h1 with rfl | hlt
      -- the first name that it tries is not free: if it were, it would have ended with it
      · cases fuel with
        | zero => exact h
        | succ fuel =>
          by_contra hfree
          rw [nextFree, if_neg hfree] at h
          exact hfree h
      · exact ih h j hlt (by omega)
    · rename_i hfree
      exact absurd h hfree

/-- **The loop ends with a name that is free.** -/
theorem nextFree_notMem (d : List (Str × Str)) (parts : Str × Str) (nxfile : Str) :
    nextFree d parts (d.length + 1) 0 nxfile ∉ d.map Prod.fst := by
  intro h
  have hmem := numbered_mem_of_nextFree parts h
  have hsub : (Finset.range (d.length + 1)).image (numbered parts) ⊆ (d.map Prod.fst).toFinset := by
    intro x hx
    obtain ⟨j, hj, rfl⟩ := Finset.mem_image.mp hx
    exact List.mem_toFinset.mpr (hmem j (Nat.zero_le _) (by simpa using hj))
  have hcard := Finset.card_le_card hsub
  rw [Finset.card_image_of_injective _ (numbered_inj parts), Finset.card_range] at hcard
  have hlen := List.toFinset_card_le (d.map Prod.fst)
  rw [List.length_map] at hlen
  omega

theorem nameFor_notMem (d : List (Str × Str)) (path : Str) : nameFor d path ∉ d.map Prod.fst := by
  rw [nameFor]
  split
  · exact nextFree_notMem d _ _
  · assumption

/-- So that the path is added behind the others. -/
theorem addPath_eq (d : List (Str × Str)) (path : Str) :
    addPath d path = d ++ [(nameFor d path, path)] := by
  rw [addPath, setItem, if_neg (nameFor_notMem d path)]

/-! ### What the names are -/

theorem nameParts_append_cons {a : Str} (h : '.' ∉ a) (b : Str) :
    nameParts (a ++ '.' :: b) = (a, '.' :: b) := by
  rw [nameParts, List.splitOn_append_cons_self_of_not_mem h]
  simp [List.intercalate_splitOn]

theorem nameParts_of_notMem {a : Str} (h : '.' ∉ a) : nameParts a = (a, ['.']) := by
  rw [nameParts, List.splitOn_eq_singleton h]
  rfl

/-- The parts make up the name, with a dot if it has none. -/
theorem nameParts_append (filename : Str) : (nameParts filename).1 ++ (nameParts filename).2
    = filename ++ if '.' ∈ filename then [] else ['.'] := by
  split
  · rename_i h
    obtain ⟨a, b, rfl, ha⟩ := List.eq_append_cons_of_mem h
    rw [nameParts_append_cons ha, List.append_nil]
  · rename_i h
    rw [nameParts_of_notMem h]

/-- No number and no part of a name has a slash. -/
theorem notMem_numbered {filename : Str} (h : '/' ∉ filename) (i : ℕ) :
    '/' ∉ numbered (nameParts filename) i := by
  have hparts : '/' ∉ (nameParts filename).1 ++ (nameParts filename).2 := by
    rw [nameParts_append]
    split <;> simp [h]
  have hdigits : '/' ∉ Nat.toDigits 10 i := by
    intro hc
    exact absurd (Nat.isDigit_of_mem_toDigits (by decide) (by decide) hc) (by decide)
  rw [List.mem_append, not_or] at hparts
  simp only [numbered, List.mem_append, not_or]
  exact ⟨⟨hparts.1, hdigits⟩, hparts.2⟩

/-- The name that the loop ends with is the one that it began with, or one with a number. -/
theorem nextFree_cases (d : List (Str × Str)) (parts : Str × Str) (fuel i : ℕ) (nxfile : Str) :
    nextFree d parts fuel i nxfile = nxfile ∨
      ∃ j, nextFree d parts fuel i nxfile = numbered parts j := by
  induction fuel generalizing i nxfile with
  | zero => exact .inl rfl
  | succ fuel ih =>
    rw [nextFree]
    split
    · rcases ih (i + 1) (numbered parts i) with h | h
      · exact .inr ⟨i, h⟩
      · exact .inr h
    · exact .inl rfl

/-- **What a file is called**: what it was called, or that with a number. -/
theorem nameFor_cases (d : List (Str × Str)) (path : Str) : nameFor d path = basename path ∨
    ∃ j, nameFor d path = numbered (nameParts (basename path)) j := by
  rw [nameFor]
  split
  · exact nextFree_cases ..
  · exact .inl rfl

theorem notMem_nameFor (d : List (Str × Str)) (path : Str) : '/' ∉ nameFor d path := by
  rcases nameFor_cases d path with h | ⟨j, h⟩
  · rw [h]
    exact not_mem_basename path
  · rw [h]
    exact notMem_numbered (not_mem_basename path) j

/-- The names there are after some paths: every one has its name, no name is given twice, and no
name has a slash. -/
structure Named (d : List (Str × Str)) : Prop where
  nodup : (d.map Prod.fst).Nodup
  slash : ∀ e ∈ d, '/' ∉ e.1

theorem Named.addPath (h : Named d) (path : Str) : Named (addPath d path) := by
  rw [addPath_eq]
  constructor
  · rw [List.map_append, List.nodup_append']
    exact ⟨h.nodup, List.nodup_singleton _, by simpa using nameFor_notMem d path⟩
  · intro e he
    rcases List.mem_append.mp he with he | he
    · exact h.slash e he
    · obtain rfl := List.mem_singleton.mp he
      exact notMem_nameFor d path

/-- **Names are given once.** -/
theorem named_file2path (paths : List Str) : Named (file2path paths) := by
  have h : ∀ d, Named d → Named (paths.foldl addPath d) := by
    induction paths with
    | nil => exact fun _ h ↦ h
    | cons path paths ih => exact fun d h ↦ ih _ (h.addPath path)
  exact h [] ⟨List.nodup_nil, by simp⟩

/-- Each path has a name. -/
theorem map_snd_file2path (paths : List Str) : (file2path paths).map Prod.snd = paths := by
  have h : ∀ d : List (Str × Str), (paths.foldl addPath d).map Prod.snd
      = d.map Prod.snd ++ paths := by
    induction paths with
    | nil => simp
    | cons path paths ih =>
      intro d
      rw [List.foldl_cons, ih, addPath_eq]
      simp
  exact h []

/-! ## The files -/

open Steps Moves

variable {δ : Type}

/-- A file is in a directory and has a name there.  Which directory a path names is up to the
system: `dir` says it. -/
def entry (dir : Str → δ) (path : Str) : δ × Str := (dir (dirname path), basename path)

/-- `os.rename`: the file at `src` is taken to `dest`, and what was there is lost; it is an error if
there is no file. -/
def rename [DecidableEq δ] (dir : Str → δ) (fs : δ × Str → Option Str) (c : Str × Str) :
    Option (δ × Str → Option Str) :=
  move fs (entry dir c.1, entry dir c.2)

/-- The path that each file gets: its own path if it is not renamed. -/
def newPaths (paths : List Str) : List (Str × Str) :=
  (file2path paths).map fun (nxfile, path) ↦ (path, nxpath nxfile path)

/-- **No file is lost**: what was in a file is in the file of its new path after all have been
renamed, and all files have different names. -/
def KeepsFiles [DecidableEq δ] (dir : Str → δ) (paths : List Str) : Prop :=
  (∀ fs : δ × Str → Option Str, (∀ path ∈ paths, fs (entry dir path) ≠ none) →
    ∃ fs', steps (rename dir) fs (conversions (file2path paths)) = some fs' ∧
      ∀ c ∈ newPaths paths, fs' (entry dir c.2) = fs (entry dir c.1)) ∧
  ((newPaths paths).map fun c ↦ basename c.2).Nodup

/-- A path can be given a name without harm: no path before it is the same file, or was given the
place that it is in. -/
def Clear (dir : Str → δ) (file2path : List (Str × Str)) (path : Str) : Prop :=
  ∀ e ∈ file2path, entry dir e.2 ≠ entry dir path ∧ (dir (dirname e.2), e.1) ≠ entry dir path

instance [DecidableEq δ] (dir : Str → δ) (file2path : List (Str × Str)) (path : Str) :
    Decidable (Clear dir file2path path) :=
  inferInstanceAs (Decidable (∀ _ ∈ _, _))

/-! ### As moves -/

instance : Nontrivial Str := ⟨⟨[], ['a'], by decide⟩⟩

/-- Where the files of `d` are, and where they are to go. -/
def moves (dir : Str → δ) (d : List (Str × Str)) : List ((δ × Str) × (δ × Str)) :=
  d.map fun e ↦ (entry dir e.2, (dir (dirname e.2), e.1))

theorem entry_nxpath (dir : Str → δ) {nxfile : Str} (h : '/' ∉ nxfile) (path : Str) :
    entry dir (nxpath nxfile path) = (dir (dirname path), nxfile) := by
  rw [entry, nxpath, dirname_join path h, basename_join _ h]

/-- The script renames as in `moves`, but not the files that keep their paths. -/
theorem made_conversions (dir : Str → δ) (hslash : ∀ e ∈ d, '/' ∉ e.1) :
    Made (moves dir d) ((conversions d).map fun c ↦ (entry dir c.1, entry dir c.2)) := by
  induction d with
  | nil => exact .nil
  | cons e d ih =>
    have hrest := ih fun e' he' ↦ hslash e' (List.mem_cons_of_mem e he')
    have hentry := entry_nxpath dir (hslash e List.mem_cons_self) e.2
    rw [moves, List.map_cons, conversions, List.filterMap_cons]
    simp only
    split
    · rename_i h
      have heq : e.2 = nxpath e.1 e.2 := by simpa using h
      rw [← hentry, ← heq]
      exact .skip _ hrest
    · rename_i c h
      obtain ⟨-, rfl⟩ : e.2 ≠ nxpath e.1 e.2 ∧ (e.2, nxpath e.1 e.2) = c := by simpa using h
      rw [List.map_cons, ← hentry]
      exact .make _ hrest

/-- The places that the files go to are different. -/
theorem pairwise_moves (dir : Str → δ) (h : (d.map Prod.fst).Nodup) :
    (moves dir d).Pairwise fun m m' ↦ m.2 ≠ m'.2 := by
  rw [moves, List.pairwise_map]
  refine (List.pairwise_map.mp h).imp fun hne hc ↦ hne ?_
  exact congrArg Prod.snd hc

/-- **No file is in the way of another**, as far as the paths after `d` are concerned, if each can
be given a name without harm. -/
theorem pairwise_foldl_iff (dir : Str → δ) (paths : List Str) (d : List (Str × Str)) :
    ((moves dir (paths.foldl addPath d)).Pairwise fun m m' ↦ m.1 ≠ m'.1 ∧ m.2 ≠ m'.1) ↔
      ((moves dir d).Pairwise fun m m' ↦ m.1 ≠ m'.1 ∧ m.2 ≠ m'.1) ∧
        Meets (fun d path ↦ some (addPath d path)) (Clear dir) d paths := by
  induction paths generalizing d with
  | nil => simp [Meets]
  | cons path paths ih =>
    have hstep : ((moves dir (addPath d path)).Pairwise fun m m' ↦ m.1 ≠ m'.1 ∧ m.2 ≠ m'.1) ↔
        ((moves dir d).Pairwise fun m m' ↦ m.1 ≠ m'.1 ∧ m.2 ≠ m'.1) ∧ Clear dir d path := by
      rw [addPath_eq, moves, List.map_append, List.pairwise_append]
      simp only [List.map_cons, List.map_nil, List.pairwise_singleton, true_and,
        List.mem_singleton, forall_eq, List.forall_mem_map]
      rfl
    rw [List.foldl_cons, ih, hstep, Meets, and_assoc]

/-- The base names of the new paths are the names that were given. -/
theorem map_basename_newPaths (paths : List Str) :
    (newPaths paths).map (fun c ↦ basename c.2) = (file2path paths).map Prod.fst := by
  rw [newPaths, List.map_map]
  refine List.map_congr_left fun e he ↦ ?_
  exact basename_join _ ((named_file2path paths).slash e he)

/-- **When no file is lost**: when each path that the script comes to is another file than those
before it, and is not where one of them was given its place. -/
theorem keepsFiles_iff [DecidableEq δ] (dir : Str → δ) (paths : List Str) :
    KeepsFiles dir paths ↔ Meets (fun d path ↦ some (addPath d path)) (Clear dir) [] paths := by
  have hnamed := named_file2path paths
  have hmade := made_conversions dir hnamed.slash
  have hkeeps := (@keeps_iff _ Str _ _ _ _ hmade (pairwise_moves dir hnamed.nodup)).trans
    (pairwise_foldl_iff dir paths [])
  have hnil : (moves dir []).Pairwise fun m m' ↦ m.1 ≠ m'.1 ∧ m.2 ≠ m'.1 := .nil
  rw [and_iff_right hnil] at hkeeps
  rw [← hkeeps, KeepsFiles, map_basename_newPaths, and_iff_left hnamed.nodup]
  have hsteps : ∀ fs, steps (rename dir) fs (conversions (file2path paths)) = steps move fs
      ((conversions (file2path paths)).map fun c ↦ (entry dir c.1, entry dir c.2)) := by
    intro fs
    rw [steps, steps, List.foldlM_map]
    rfl
  have hsrc : ∀ fs : δ × Str → Option Str, (∀ path ∈ paths, fs (entry dir path) ≠ none) ↔
      ∀ m ∈ moves dir (file2path paths), fs m.1 ≠ none := by
    intro fs
    rw [moves, List.forall_mem_map]
    conv_lhs => rw [← map_snd_file2path paths, List.forall_mem_map]
  have hdest : ∀ fs fs' : δ × Str → Option Str,
      (∀ c ∈ newPaths paths, fs' (entry dir c.2) = fs (entry dir c.1)) ↔
        ∀ m ∈ moves dir (file2path paths), fs' m.2 = fs m.1 := by
    intro fs fs'
    rw [moves, newPaths, List.forall_mem_map, List.forall_mem_map]
    refine forall₂_congr fun e he ↦ ?_
    rw [entry_nxpath dir (hnamed.slash e he)]
  simp only [Keeps, hsteps, hsrc, hdest]

/-- `y/a.hpp` is to be called `a0.hpp`, which another file in its directory is still called. -/
theorem not_keepsFiles : ¬ ∀ (dir : Str → Str) (paths : List Str), paths.Nodup →
    KeepsFiles dir paths := by
  intro h
  obtain ⟨hfs, -⟩ := h id ["x/a.hpp".toList, "y/a.hpp".toList, "y/a0.hpp".toList] (by decide)
  obtain ⟨fs', hsteps, hdone⟩ := hfs (fun e ↦ some (e.1 ++ e.2)) (by simp)
  have hread := congrArg (Option.map fun fs ↦ fs ("y".toList, "a00.hpp".toList)) hsteps
  rw [Option.map_some, show fs' ("y".toList, "a00.hpp".toList) = some "ya0.hpp".toList from
    hdone ("y/a0.hpp".toList, "y/a00.hpp".toList) (by decide)] at hread
  exact absurd hread (by decide)

end Scripts
end Cppkg
