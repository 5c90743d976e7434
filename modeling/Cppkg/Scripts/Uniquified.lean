import Cppkg.Scripts.Includes
import Cppkg.Scripts.LabelReplace

/-!
# The whole of `scripts/label_uniquify.py`

The script reads the paths from its standard input, rewrites the includes of the files where they
are, renames the files, and prints the conversions.  `Includes` says which file includes which, as
far as a line names the label of a path.

What is here:

* no file that was renamed leaves its place to another one, `newPlace_ne`;
* if no file can be lost and each text is consistent with the conversions, the script ends, and
  leaves each text with its includes rewritten at the new path of its file, nothing at the old path,
  and everything else as it was, `uniquified_labelUniquify`;
* the files then include each other as before, and none includes a path that is no more,
  `includes_uniquified`.
-/

set_option autoImplicit false

namespace Cppkg
namespace Scripts

open Steps Moves

/-- `sys.stdin.read()`, split into lines. -/
def readPaths (rawPaths : Str) : List Str :=
  ((rawPaths.splitOn '\n').filter fun path ↦ 0 < (strip path).length).map strip

variable {δ : Type}

/-- One round of the loop over the files.  It is an error if there is no file. -/
def rewriteFile [DecidableEq δ] (dir : Str → δ) (ctx : Str) (paths : List Str)
    (fs : δ × Str → Option Str) (path : Str) : Option (δ × Str → Option Str) :=
  change (rewriteIncludes ctx paths) fs (entry dir path)

/-- The files that the script leaves, and what it prints. -/
def labelUniquify [DecidableEq δ] (dir : Str → δ) (removePrefix rawPaths : Str)
    (fs : δ × Str → Option Str) : Option ((δ × Str → Option Str) × Str) := do
  let paths := readPaths rawPaths
  let fs ← steps (rewriteFile dir removePrefix paths) fs paths
  let fs ← steps (rename dir) fs (conversions (file2path paths))
  return (fs, csv (includeConversions removePrefix paths))

/-- No path is lost: each can be given its name without harm. -/
def AllClear (dir : Str → δ) (paths : List Str) : Prop :=
  Meets (fun d path ↦ some (addPath d path)) (Clear dir) [] paths

instance [DecidableEq δ] (dir : Str → δ) (paths : List Str) : Decidable (AllClear dir paths) :=
  inferInstanceAs (Decidable (Meets _ _ _ _))

/-- The file at `path` has a line that is the include of the file at `incl`. -/
def Includes (dir : Str → δ) (ctx : Str) (fs : δ × Str → Option Str) (path incl : Str) : Prop :=
  ∃ txt ∈ fs (entry dir path), includeText (stripPrefix incl ctx) ∈ txt.splitOn '\n'

/-- What becomes of the files `fs`. -/
structure Uniquified (dir : Str → δ) (ctx : Str) (paths : List Str)
    (fs fs' : δ × Str → Option Str) : Prop where
  /-- The text of a file is at its new path, with its includes rewritten. -/
  moved : ∀ c ∈ newPaths paths, fs' (entry dir c.2)
    = (fs (entry dir c.1)).map (simultaneous (includeConversions ctx paths))
  /-- There is nothing at the old path. -/
  gone : ∀ c ∈ newPaths paths, entry dir c.1 ≠ entry dir c.2 → fs' (entry dir c.1) = none
  /-- What has nothing to do with the paths is as it was. -/
  frame : ∀ x, (∀ c ∈ newPaths paths, x ≠ entry dir c.1 ∧ x ≠ entry dir c.2) → fs' x = fs x

variable {dir : Str → δ} {d : List (Str × Str)} {e e' c c' : Str × Str} {ctx : Str}
  {paths : List Str} {fs fs' : δ × Str → Option Str}

/-! ## Old and new places -/

/-- Once a path has its name, the name that it had is not given any more. -/
theorem pairwise_name_ne (paths : List Str) :
    (file2path paths).Pairwise fun e e' ↦ e'.1 ≠ basename e.2 := by
  have h : ∀ d : List (Str × Str), (d.Pairwise fun e e' ↦ e'.1 ≠ basename e.2) →
      (∀ e ∈ d, basename e.2 ∈ d.map Prod.fst) →
      (paths.foldl addPath d).Pairwise fun e e' ↦ e'.1 ≠ basename e.2 := by
    induction paths with
    | nil => exact fun d hd _ ↦ hd
    | cons path paths ih =>
      intro d hd hbase
      rw [List.foldl_cons]
      refine ih _ ?_ ?_
      · rw [addPath_eq, List.pairwise_append]
        refine ⟨hd, List.pairwise_singleton _ _, fun e he e' he' heq ↦ ?_⟩
        obtain rfl := List.mem_singleton.mp he'
        have hname : nameFor d path = basename e.2 := heq
        exact nameFor_notMem d path (by rw [hname]; exact hbase e he)
      · intro e he
        rw [addPath_eq] at he ⊢
        rw [List.map_append]
        rcases List.mem_append.mp he with he | he
        · exact List.mem_append_left _ (hbase e he)
        · obtain rfl := List.mem_singleton.mp he
          by_cases hmem : basename path ∈ d.map Prod.fst
          · exact List.mem_append_left _ hmem
          · have hname : nameFor d path = basename path := if_neg hmem
            exact List.mem_append_right _ (by simp [hname])
  exact h [] .nil (by simp)

/-- The place that a file gets. -/
def newPlace (dir : Str → δ) (e : Str × Str) : δ × Str := (dir (dirname e.2), e.1)

theorem entry_newPath (he : e ∈ file2path paths) :
    entry dir (nxpath e.1 e.2) = newPlace dir e :=
  entry_nxpath dir (notMem_name he) e.2

theorem mem_newPaths :
    c ∈ newPaths paths ↔ ∃ e ∈ file2path paths, c = (e.2, nxpath e.1 e.2) := by
  rw [newPaths, List.mem_map]
  exact exists_congr fun e ↦ and_congr_right fun _ ↦ eq_comm

/-- The places, as `moves` has them. -/
theorem AllClear.pairwise (h : AllClear dir paths) :
    (file2path paths).Pairwise fun e e' ↦
      entry dir e.2 ≠ entry dir e'.2 ∧ newPlace dir e ≠ entry dir e'.2 := by
  have hnil : (moves dir []).Pairwise fun m m' ↦ m.1 ≠ m'.1 ∧ m.2 ≠ m'.1 := .nil
  exact List.pairwise_map.mp ((pairwise_foldl_iff dir paths []).mpr ⟨hnil, h⟩)

/-- **A place that a file leaves is not given to another one.** -/
theorem AllClear.newPlace_ne (h : AllClear dir paths) (he : e ∈ file2path paths)
    (he' : e' ∈ file2path paths) (hne : newPlace dir e ≠ entry dir e.2) :
    newPlace dir e' ≠ entry dir e.2 := by
  have hboth : (file2path paths).Pairwise fun e e' ↦
      newPlace dir e ≠ entry dir e'.2 ∧ newPlace dir e' ≠ entry dir e.2 := by
    refine (h.pairwise.and (pairwise_name_ne paths)).imp fun ⟨⟨_, hto⟩, hname⟩ ↦ ⟨hto, ?_⟩
    exact fun heq ↦ hname (congrArg Prod.snd heq)
  have hsymm : Std.Symm fun e e' : Str × Str ↦
      newPlace dir e ≠ entry dir e'.2 ∧ newPlace dir e' ≠ entry dir e.2 := ⟨fun _ _ ↦ And.symm⟩
  by_cases heq : e = e'
  · exact heq ▸ hne
  · exact (hboth.forall he he' heq).2

theorem AllClear.nodup_entries (h : AllClear dir paths) : (paths.map (entry dir)).Nodup := by
  have hmap : paths.map (entry dir) = (file2path paths).map fun e ↦ entry dir e.2 := by
    conv_lhs => rw [← map_snd_file2path paths, List.map_map]
    rfl
  rw [hmap]
  exact List.pairwise_map.mpr (h.pairwise.imp And.left)

theorem AllClear.nodup (h : AllClear dir paths) : paths.Nodup := h.nodup_entries.of_map

/-! ## The two loops -/

variable [DecidableEq δ]

theorem rewriteIncludes_of_consistent {txt : Str} (hchars : ∀ p ∈ paths, IsPath p)
    (h : Consistent (includeConversions ctx paths) txt) :
    rewriteIncludes ctx paths txt = simultaneous (includeConversions ctx paths) txt := by
  rw [rewriteIncludes_eq, replaceIncludes_iff fun c hc ↦ isPath_of_mem hchars hc]
  exact fun line hline ↦ replaceIncludes_line h.1 hline (h.2 line hline)

/-- **The texts are rewritten**, each once. -/
theorem steps_rewriteFile (ctx : Str) (hnodup : (paths.map (entry dir)).Nodup)
    (hfs : ∀ p ∈ paths, fs (entry dir p) ≠ none) :
    ∃ fs₁, steps (rewriteFile dir ctx paths) fs paths = some fs₁ ∧
      (∀ p ∈ paths, fs₁ (entry dir p) = (fs (entry dir p)).map (rewriteIncludes ctx paths)) ∧
      ∀ x, (∀ p ∈ paths, x ≠ entry dir p) → fs₁ x = fs x := by
  obtain ⟨fs₁, hsteps, hin, hout⟩ :=
    steps_change_of_nodup (f := rewriteIncludes ctx paths) hnodup (List.forall_mem_map.mpr hfs)
  rw [steps, List.foldlM_map] at hsteps
  refine ⟨fs₁, hsteps, List.forall_mem_map.mp hin, fun x hx ↦ hout x fun hmem ↦ ?_⟩
  obtain ⟨p, hp, rfl⟩ := List.mem_map.mp hmem
  exact hx p hp rfl

/-- **The files are renamed**, and what is at the places they leave. -/
theorem steps_rename (h : AllClear dir paths) (hfs : ∀ p ∈ paths, fs (entry dir p) ≠ none) :
    ∃ fs', steps (rename dir) fs (conversions (file2path paths)) = some fs' ∧
      (∀ e ∈ file2path paths, fs' (newPlace dir e) = fs (entry dir e.2)) ∧
      (∀ e ∈ file2path paths, newPlace dir e ≠ entry dir e.2 → fs' (entry dir e.2) = none) ∧
      ∀ x, (∀ e ∈ file2path paths, x ≠ entry dir e.2 ∧ x ≠ newPlace dir e) → fs' x = fs x := by
  have hnamed := named_file2path paths
  have hmade := made_conversions dir hnamed.slash
  have hapart : (moves dir (file2path paths)).Pairwise Apart := by
    refine (pairwise_moves dir hnamed.nodup).and ?_
    exact List.pairwise_map.mpr h.pairwise
  have hthere : ∀ m ∈ moves dir (file2path paths), fs m.1 ≠ none := by
    refine List.forall_mem_map.mpr fun e he ↦ hfs e.2 ?_
    exact (mem_file2path he).1
  obtain ⟨fs', hsteps, hdone, hframe⟩ := steps_of_apart hmade hapart hthere
  have hrename : steps (rename dir) fs (conversions (file2path paths)) = some fs' := by
    rw [steps, List.foldlM_map] at hsteps
    exact hsteps
  refine ⟨fs', hrename, fun e he ↦ ?_, fun e he hne ↦ ?_, fun x hx ↦ ?_⟩
  · exact hdone _ (List.mem_map_of_mem he)
  · refine steps_emptied hsteps (List.forall_mem_map.mpr fun c hc ↦ ?_) (.inr ?_)
    · obtain ⟨e', he', -, rfl⟩ := mem_conversions.mp hc
      simp only [entry_newPath he']
      exact h.newPlace_ne he he' hne
    · have hpath : e.2 ≠ nxpath e.1 e.2 := fun heq ↦ hne <| by
        rw [← entry_newPath he, ← heq]
      exact ⟨_, List.mem_map_of_mem (mem_conversions.mpr ⟨e, he, hpath, rfl⟩), rfl⟩
  · refine hframe x fun m hm ↦ ?_
    obtain ⟨e, he, rfl⟩ := List.mem_map.mp hm
    exact hx e he

/-- **The whole run**: each text is at the new path of its file with the right includes, and nothing
else has changed. -/
theorem uniquified_labelUniquify {rawPaths : Str} (hchars : ∀ p ∈ readPaths rawPaths, IsPath p)
    (hclear : AllClear dir (readPaths rawPaths))
    (hfs : ∀ p ∈ readPaths rawPaths, ∃ txt, fs (entry dir p) = some txt ∧
      Consistent (includeConversions ctx (readPaths rawPaths)) txt) :
    ∃ fs', labelUniquify dir ctx rawPaths fs
        = some (fs', csv (includeConversions ctx (readPaths rawPaths))) ∧
      Uniquified dir ctx (readPaths rawPaths) fs fs' := by
  rw [labelUniquify]
  generalize readPaths rawPaths = paths at hchars hclear hfs ⊢
  have hthere : ∀ p ∈ paths, fs (entry dir p) ≠ none := fun p hp ↦ by
    obtain ⟨txt, htxt, -⟩ := hfs p hp
    simp [htxt]
  obtain ⟨fs₁, hrewrite, htexts, hframe₁⟩ :=
    steps_rewriteFile ctx hclear.nodup_entries hthere
  have hthere₁ : ∀ p ∈ paths, fs₁ (entry dir p) ≠ none := fun p hp ↦ by
    rw [htexts p hp, Ne, Option.map_eq_none_iff]
    exact hthere p hp
  obtain ⟨fs', hrename, hdone, hgone, hframe⟩ := steps_rename hclear hthere₁
  refine ⟨fs', by simp [hrewrite, hrename], ?_, ?_, ?_⟩
  · intro c hc
    obtain ⟨e, he, rfl⟩ := mem_newPaths.mp hc
    have hpath := (mem_file2path he).1
    obtain ⟨txt, htxt, hcons⟩ := hfs e.2 hpath
    rw [entry_newPath he, hdone e he, htexts e.2 hpath, htxt, Option.map_some, Option.map_some,
      rewriteIncludes_of_consistent hchars hcons]
  · intro c hc hne
    obtain ⟨e, he, rfl⟩ := mem_newPaths.mp hc
    rw [entry_newPath he] at hne
    exact hgone e he hne.symm
  · intro x hx
    have hplaces : ∀ e ∈ file2path paths, x ≠ entry dir e.2 ∧ x ≠ newPlace dir e := by
      intro e he
      rw [← entry_newPath he]
      exact hx _ (mem_newPaths.mpr ⟨e, he, rfl⟩)
    rw [hframe x hplaces]
    refine hframe₁ x fun p hp heq ↦ ?_
    rw [← map_snd_file2path paths] at hp
    obtain ⟨e, he, rfl⟩ := List.mem_map.mp hp
    exact (hplaces e he).1 heq

/-! ## Who includes whom -/

omit [DecidableEq δ]

theorem notMem_substitute (hd : ∀ c ∈ d, IsPath c.1 ∧ IsPath c.2) {line : Str}
    (hline : '\n' ∉ line) : '\n' ∉ substitute d line := by
  rw [substitute]
  split
  · rename_i c hc
    exact notMem_includeText (hd c (List.mem_of_find?_eq_some hc)).2
  · exact hline

/-- Line by line. -/
theorem splitOn_simultaneous (hd : ∀ c ∈ d, IsPath c.1 ∧ IsPath c.2) (txt : Str) :
    (simultaneous d txt).splitOn '\n' = (txt.splitOn '\n').map (substitute d) := by
  rw [simultaneous, List.splitOn_intercalate]
  · exact List.forall_mem_map.mpr fun line hline ↦
      notMem_substitute hd (Text.notMem_of_mem_splitOn hline)
  · simp

/-- Where an include comes from: it is the new one of another, or it was there and is not to be
replaced. -/
theorem of_substitute_eq {line l : Str} (h : substitute d line = includeText l) :
    (∃ c ∈ d, c.2 = l ∧ line = includeText c.1) ∨
      line = includeText l ∧ ∀ c ∈ d, c.1 ≠ l := by
  rw [substitute] at h
  split at h
  · rename_i c hc
    have hkey : includeText c.1 = line := by simpa using List.find?_some hc
    exact .inl ⟨c, List.mem_of_find?_eq_some hc, includeText_injective h, hkey.symm⟩
  · rename_i hnone
    refine .inr ⟨h, fun c hc heq ↦ ?_⟩
    have hne := List.find?_eq_none.mp hnone c hc
    simp [h, heq] at hne

/-- A file that is renamed leaves its place. -/
theorem newPlace_ne_entry (h : Printed ctx e.2) (he : e ∈ file2path paths)
    (hne : e.2 ≠ nxpath e.1 e.2) : newPlace dir e ≠ entry dir e.2 := by
  intro heq
  obtain ⟨-, x, hp, hnx, -⟩ := h.spec
  have hname : e.1 = basename e.2 := congrArg Prod.snd heq
  refine hne ?_
  conv_lhs => rw [hp]
  rw [hnx e.1 (notMem_name he), hname]

section

variable (hprinted : ∀ p ∈ paths, Printed ctx p) (hclear : AllClear dir paths)

include hprinted hclear

/-- **A label that is given up is not the new label of any file.** -/
theorem label_ne_newLabel (he : e ∈ file2path paths) (he' : e' ∈ file2path paths)
    (hne : e.2 ≠ nxpath e.1 e.2) : stripPrefix e.2 ctx ≠ stripPrefix (nxpath e'.1 e'.2) ctx := by
  intro heq
  have hp := hprinted e.2 (mem_file2path he).1
  have hp' := hprinted e'.2 (mem_file2path he').1
  have hpath : e.2 = nxpath e'.1 e'.2 := by
    rw [← hp.label, heq, hp'.newLabel (name_ne_nil he' hp') (notMem_name he')]
  refine hclear.newPlace_ne he he' (newPlace_ne_entry hp he hne) ?_
  rw [← entry_newPath he', ← hpath]

/-- The conversion that has the label of a file is the file's own. -/
theorem eq_of_label (he : e ∈ file2path paths) (hc : c ∈ includeConversions ctx paths)
    (hlabel : c.1 = stripPrefix e.2 ctx) :
    e.2 ≠ nxpath e.1 e.2 ∧ c.2 = stripPrefix (nxpath e.1 e.2) ctx := by
  obtain ⟨e', he', hne, rfl⟩ := mem_includeConversions hc
  have hsnd : e'.2 = e.2 :=
    label_inj (hprinted _ (mem_file2path he').1) (hprinted _ (mem_file2path he).1) hlabel
  have hnodup : ((file2path paths).map Prod.snd).Nodup := by
    rw [map_snd_file2path]
    exact hclear.nodup
  obtain rfl := List.inj_on_of_nodup_map hnodup he' he hsnd
  exact ⟨hne, rfl⟩

/-- **Which lines become the include of a file**: those that were, and those that already had its
new label. -/
theorem substitute_eq_newLabel (he : e ∈ file2path paths) (line : Str) :
    substitute (includeConversions ctx paths) line
        = includeText (stripPrefix (nxpath e.1 e.2) ctx) ↔
      line = includeText (stripPrefix e.2 ctx) ∨
        line = includeText (stripPrefix (nxpath e.1 e.2) ctx) := by
  have hown : ∀ c ∈ includeConversions ctx paths, c.2 = stripPrefix (nxpath e.1 e.2) ctx →
      c.1 = stripPrefix e.2 ctx := by
    intro c hc heq
    obtain ⟨e', he', -, rfl⟩ := mem_includeConversions hc
    obtain rfl := newLabel_inj he' he (hprinted _ (mem_file2path he').1)
      (hprinted _ (mem_file2path he).1) heq
    rfl
  have hnew : ∀ c ∈ includeConversions ctx paths, c.1 ≠ stripPrefix (nxpath e.1 e.2) ctx := by
    intro c hc
    obtain ⟨e', he', hne, rfl⟩ := mem_includeConversions hc
    exact label_ne_newLabel hprinted hclear he' he hne
  constructor
  · intro h
    rcases of_substitute_eq h with ⟨c, hc, hnewc, hline⟩ | ⟨hline, -⟩
    · exact .inl (by rw [hline, hown c hc hnewc])
    · exact .inr hline
  · rintro (rfl | rfl)
    · by_cases hne : e.2 = nxpath e.1 e.2
      · rw [← hne]
        refine substitute_of_ne fun c hc heq ↦ ?_
        exact (eq_of_label hprinted hclear he hc (includeText_injective heq)).1 hne
      · have hmem := mem_includeConversions_of hclear.nodup hprinted he hne
        obtain ⟨n, hn⟩ := lookup_of_mem hmem
        rw [substitute_includeText hn]
        exact congrArg includeText (eq_of_label hprinted hclear he (mem_of_lookup hn) rfl).2
    · exact substitute_of_ne fun c hc heq ↦ hnew c hc (includeText_injective heq)

/-- **No line is left** that is the include of a path that is no more. -/
theorem substitute_ne_label (he : e ∈ file2path paths) (hne : e.2 ≠ nxpath e.1 e.2) (line : Str) :
    substitute (includeConversions ctx paths) line ≠ includeText (stripPrefix e.2 ctx) := by
  intro h
  rcases of_substitute_eq h with ⟨c, hc, hlabel, -⟩ | ⟨-, hno⟩
  · obtain ⟨e', he', -, rfl⟩ := mem_includeConversions hc
    exact label_ne_newLabel hprinted hclear he he' hne hlabel.symm
  · exact hno _ (mem_includeConversions_of hclear.nodup hprinted he hne) rfl

end

/-- What the file at a new path includes, in terms of the lines of its old text. -/
theorem Uniquified.includes_iff (h : Uniquified dir ctx paths fs fs')
    (hchars : ∀ p ∈ paths, IsPath p) (hc : c ∈ newPaths paths) (incl : Str) :
    Includes dir ctx fs' c.2 incl ↔ ∃ txt ∈ fs (entry dir c.1), ∃ line ∈ txt.splitOn '\n',
      substitute (includeConversions ctx paths) line = includeText (stripPrefix incl ctx) := by
  have hd : ∀ c ∈ includeConversions ctx paths, IsPath c.1 ∧ IsPath c.2 := fun c hc ↦
    isPath_of_mem hchars hc
  rw [Includes, h.moved c hc]
  simp only [Option.mem_def, Option.map_eq_some_iff, exists_exists_and_eq_and,
    splitOn_simultaneous hd, List.mem_map]

/-- **The script keeps who includes whom.**  It ends, and each text is at the new path of its file
and nothing at the old one.  There a file includes another one at its new path if it did at the old
one, or if it had a line already that named the new path; and no file includes a path that is no
more. -/
theorem labelUniquify_includes [DecidableEq δ] (dir : Str → δ) (ctx rawPaths : Str)
    (fs : δ × Str → Option Str) (hchars : ∀ p ∈ readPaths rawPaths, IsPath p)
    (hprinted : ∀ p ∈ readPaths rawPaths, Printed ctx p)
    (hclear : AllClear dir (readPaths rawPaths))
    (hfs : ∀ p ∈ readPaths rawPaths, ∃ txt, fs (entry dir p) = some txt ∧
      Consistent (includeConversions ctx (readPaths rawPaths)) txt) :
    ∃ fs', labelUniquify dir ctx rawPaths fs
        = some (fs', csv (includeConversions ctx (readPaths rawPaths))) ∧
      Uniquified dir ctx (readPaths rawPaths) fs fs' ∧
      ∀ c ∈ newPaths (readPaths rawPaths), ∀ c' ∈ newPaths (readPaths rawPaths),
        (Includes dir ctx fs' c.2 c'.2 ↔
          Includes dir ctx fs c.1 c'.1 ∨ Includes dir ctx fs c.1 c'.2) ∧
        (c'.1 ≠ c'.2 → ¬ Includes dir ctx fs' c.2 c'.1) := by
  obtain ⟨fs', hrun, huniq⟩ := uniquified_labelUniquify hchars hclear hfs
  refine ⟨fs', hrun, huniq, fun c hc c' hc' ↦ ?_⟩
  obtain ⟨e, he, rfl⟩ := mem_newPaths.mp hc'
  rw [huniq.includes_iff hchars hc, huniq.includes_iff hchars hc]
  constructor
  · simp only [substitute_eq_newLabel hprinted hclear he, Includes]
    constructor
    · rintro ⟨txt, htxt, line, hline, rfl | rfl⟩
      · exact .inl ⟨txt, htxt, hline⟩
      · exact .inr ⟨txt, htxt, hline⟩
    · rintro (⟨txt, htxt, hline⟩ | ⟨txt, htxt, hline⟩)
      · exact ⟨txt, htxt, _, hline, .inl rfl⟩
      · exact ⟨txt, htxt, _, hline, .inr rfl⟩
  · rintro hne ⟨txt, -, line, -, heq⟩
    exact substitute_ne_label hprinted hclear he hne line heq

/-- The first of two files of one name includes the second one. -/
theorem labelUniquify_includes_second : ∃ fs' : Str × Str → Option Str,
    labelUniquify id "t".toList "t/a.h\nt/b/a.h\n".toList
        (fun x ↦ if x = ("t".toList, "a.h".toList) then some "#include \"b/a.h\"\nint a;\n".toList
          else if x = ("t/b".toList, "a.h".toList) then some "int b;\n".toList else none)
        = some (fs', "b/a.h,b/a0.h\n".toList) ∧
      Includes id "t".toList fs' "t/a.h".toList "t/b/a0.h".toList ∧
      ¬ Includes id "t".toList fs' "t/a.h".toList "t/b/a.h".toList := by
  have hread : readPaths "t/a.h\nt/b/a.h\n".toList = ["t/a.h".toList, "t/b/a.h".toList] := by decide
  have hprinted : ∀ p ∈ ["t/a.h".toList, "t/b/a.h".toList], Printed "t".toList p := by
    refine List.forall_mem_cons.mpr ⟨?_, List.forall_mem_singleton.mpr ?_⟩
    · exact ⟨by decide, [], "a.h".toList, by decide, rfl⟩
    · exact ⟨by decide, ["b".toList], "a.h".toList, by decide, rfl⟩
  have hcsv : csv (includeConversions "t".toList ["t/a.h".toList, "t/b/a.h".toList])
      = "b/a.h,b/a0.h\n".toList := by decide
  obtain ⟨fs', hrun, -, hincl⟩ := labelUniquify_includes id "t".toList "t/a.h\nt/b/a.h\n".toList
    (fun x ↦ if x = ("t".toList, "a.h".toList) then some "#include \"b/a.h\"\nint a;\n".toList
      else if x = ("t/b".toList, "a.h".toList) then some "int b;\n".toList else none)
    (by rw [hread]; decide) (by rw [hread]; exact hprinted) (by rw [hread]; decide) (by
      rw [hread]
      refine List.forall_mem_cons.mpr ⟨?_, List.forall_mem_singleton.mpr ?_⟩
      · exact ⟨"#include \"b/a.h\"\nint a;\n".toList, by decide, by decide⟩
      · exact ⟨"int b;\n".toList, by decide, by decide⟩)
  rw [hread, hcsv] at hrun
  rw [hread] at hincl
  obtain ⟨hkept, hgone⟩ := hincl ("t/a.h".toList, "t/a.h".toList) (by decide)
    ("t/b/a.h".toList, "t/b/a0.h".toList) (by decide)
  refine ⟨fs', hrun, hkept.mpr (.inl ?_), hgone (by decide)⟩
  exact ⟨"#include \"b/a.h\"\nint a;\n".toList, by decide, by decide⟩

end Scripts
end Cppkg
