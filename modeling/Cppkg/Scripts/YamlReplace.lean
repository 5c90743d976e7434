import Cppkg.Scripts.LabelReplace
import Cppkg.Scripts.Uniquified

/-!
# Putting the new labels in, from `scripts/yaml_replace.py`

`yaml_replace.py` reads the conversions that `label_uniquify.py` prints and replaces in some files
each old label by the new one, one after the other and wherever it is found.  It writes a file only
if it has found a label in it.  A file is here the text that `read` returns.

What is here:

* what is not written is as it would have been written, so that a file is replaced in as often as
  it is named, line by line, and nothing else is touched, `yamlReplace_run`;
* what is printed is read back in the order in which it was printed, `parseConversions_csv`, the
  other way round than `label_replace.py` reads it;
* in a file of labels, the new ones are put in, and `label_replace.py` puts the old ones back,
  `yamlReplace_labels`.
-/

set_option autoImplicit false

namespace Cppkg
namespace Scripts

open Pattern Steps Moves

/-! ## The script -/

/-- One line.  A line that is not two values is left out. -/
def parseConversion (line : Str) : Option (Str × Str) :=
  match (strip line).splitOn ',' with
  | [src, dest] => some (src, dest)
  | _ => none

def parseConversions (txt : Str) : List (Str × Str) :=
  (Text.lines '\n' txt).filterMap parseConversion

/-- One round of the loop over the mapping.  The state is `subbed` and `content`; `re.findall` is
asked only if it finds anything. -/
def yamlStep (s : Bool × Str) (c : Str × Str) : Bool × Str :=
  (s.1 || (find (regex c.1) s.2).isSome, replace (regex c.1) c.2 s.2)

/-- What is in a file at the end.  It is only written if something was found. -/
def yamlContent (mapping : List (Str × Str)) (content : Str) : Str :=
  let s := mapping.foldl yamlStep (false, content)
  if s.1 = true then s.2 else content

variable {δ : Type} [DecidableEq δ]

/-- The files that the script leaves, if `repl` is what is in the file with the conversions.  It is
an error if one of the others is missing. -/
def yamlReplace (dir : Str → δ) (repl : Option Str) (rawPaths : Str)
    (fs : δ × Str → Option Str) : Option (δ × Str → Option Str) :=
  match repl with
  | some txt => steps (fun fs fname ↦ change (yamlContent (parseConversions txt)) fs
      (entry dir fname)) fs (readPaths rawPaths)
  | none => some fs

/-! ## Nothing found, nothing replaced -/

variable {mapping d rules : List (Str × Str)} {c : Str × Str} {content x new ctx : Str}
  {paths : List Str}

/-- What was found stays found. -/
theorem subbed_of_foldl {subbed : Bool}
    (h : (mapping.foldl yamlStep (subbed, content)).1 = false) : subbed = false := by
  induction mapping generalizing subbed content with
  | nil => exact h
  | cons c mapping ih => exact (Bool.or_eq_false_iff.mp (ih h)).1

/-- As long as nothing is found the content is as it was. -/
theorem foldl_yamlStep (mapping : List (Str × Str)) (subbed : Bool) (content : Str) :
    (mapping.foldl yamlStep (subbed, content)).2 = labelReplace content mapping ∧
      ((mapping.foldl yamlStep (subbed, content)).1 = false →
        labelReplace content mapping = content) := by
  induction mapping generalizing subbed content with
  | nil => exact ⟨rfl, fun _ ↦ rfl⟩
  | cons c mapping ih =>
    rw [List.foldl_cons, yamlStep, labelReplace_cons]
    obtain ⟨hcontent, hsame⟩ :=
      ih (subbed || (find (regex c.1) content).isSome) (replace (regex c.1) c.2 content)
    refine ⟨hcontent, fun hsubbed ↦ ?_⟩
    have hnone := (Bool.or_eq_false_iff.mp (subbed_of_foldl hsubbed)).2
    rw [Option.isSome_eq_false_iff, Option.isNone_iff_eq_none, find_eq_none_iff] at hnone
    rw [hsame hsubbed, replace_of_not_occurs hnone]

/-- **What is not written is as it would have been written.** -/
theorem yamlContent_eq (mapping : List (Str × Str)) (content : Str) :
    yamlContent mapping content = labelReplace content mapping := by
  obtain ⟨hcontent, hsame⟩ := foldl_yamlStep mapping false content
  rw [yamlContent]
  split
  · exact hcontent
  · rename_i h
    exact (hsame (Bool.eq_false_iff.mpr h)).symm

/-! ## Line by line -/

/-- **Rules that do not look at line ends** replace in each line. -/
theorem labelReplace_intercalate (hrules : ∀ c ∈ rules, IsPath c.1) {ls : List Str}
    (hls : ls ≠ []) : labelReplace (['\n'].intercalate ls) rules
      = ['\n'].intercalate (ls.map (labelReplace · rules)) := by
  have hnewline : ∀ r ∈ rules.map fun c ↦ (regex c.1, c.2), ∀ t ∈ r.1, t '\n' = false :=
    List.forall_mem_map.mpr fun c hc ↦ regex_newline ((hrules c hc).notMem (by decide))
  simp only [labelReplace_eq]
  exact replaceAll_intercalate hnewline hls

/-- Nothing but the lines changes. -/
theorem splitOn_labelReplace (hrules : ∀ c ∈ rules, IsPath c.1 ∧ IsPath c.2) :
    Function.Semiconj (List.splitOn '\n') (labelReplace · rules)
      (List.map (labelReplace · rules)) := by
  intro txt
  have hne : txt.splitOn '\n' ≠ [] := List.splitOn_ne_nil '\n' txt
  have hputs : ∀ r ∈ rules.map fun c ↦ (regex c.1, c.2), '\n' ∉ r.2 :=
    List.forall_mem_map.mpr fun c hc ↦ (hrules c hc).2.notMem (by decide)
  have hlines : ∀ l ∈ (txt.splitOn '\n').map (labelReplace · rules), '\n' ∉ l := by
    refine List.forall_mem_map.mpr fun l hl ↦ ?_
    rw [labelReplace_eq]
    exact notMem_replaceAll hputs (Text.notMem_of_mem_splitOn hl)
  have hreplace := labelReplace_intercalate (fun c hc ↦ (hrules c hc).1) hne
  rw [List.intercalate_splitOn] at hreplace
  exact (congrArg (List.splitOn '\n') hreplace).trans
    (List.splitOn_intercalate '\n' hlines (by simp))

/-! ## The whole run -/

/-- The loop over the files, as changes. -/
theorem yamlReplace_some (dir : Str → δ) (txt rawPaths : Str) (fs : δ × Str → Option Str) :
    yamlReplace dir (some txt) rawPaths fs
      = steps (change (labelReplace · (parseConversions txt))) fs
          ((readPaths rawPaths).map (entry dir)) := by
  have hcontent : yamlContent (parseConversions txt) = (labelReplace · (parseConversions txt)) :=
    funext (yamlContent_eq _)
  rw [steps, List.foldlM_map, ← hcontent]
  rfl

/-- How often a file is named. -/
def timesNamed (dir : Str → δ) (rawPaths : Str) (x : δ × Str) : ℕ :=
  (readPaths rawPaths).countP fun p ↦ entry dir p = x

/-- **The whole run**, if the conversions are made of the characters of paths, and the files that
are named are there: the labels in a file are replaced as often as it is named, in each line by
itself. -/
theorem yamlReplace_run (dir : Str → δ) (txt rawPaths : Str) (fs : δ × Str → Option Str)
    (hchars : ∀ c ∈ parseConversions txt, IsPath c.1 ∧ IsPath c.2)
    (hfs : ∀ p ∈ readPaths rawPaths, fs (entry dir p) ≠ none) :
    ∃ fs', yamlReplace dir (some txt) rawPaths fs = some fs' ∧ ∀ x,
      fs' x = (fs x).map (labelReplace · (parseConversions txt))^[timesNamed dir rawPaths x] ∧
        (fs' x).map (List.splitOn '\n') = ((fs x).map (List.splitOn '\n')).map
          (List.map (labelReplace · (parseConversions txt)))^[timesNamed dir rawPaths x] := by
  refine ⟨_, (yamlReplace_some dir txt rawPaths fs).trans
    (steps_change (List.forall_mem_map.mpr hfs)), fun x ↦ ?_⟩
  have htimes : ((readPaths rawPaths).map (entry dir)).countP (· = x)
      = timesNamed dir rawPaths x := by
    rw [List.countP_map]
    rfl
  rw [htimes]
  refine ⟨rfl, ?_⟩
  rw [Option.map_map, Option.map_map]
  exact congrFun (congrArg Option.map ((splitOn_labelReplace hchars).iterate_right _).comp_eq) _

/-- A file that is named twice is replaced in twice. -/
theorem yamlReplace_run_twice : ∃ fs' : Str × Str → Option Str,
    yamlReplace id (some "a.h,a0.h\na0,a1\n".toList) "t.yml\n\nt.yml\n".toList
        (fun x ↦ if x = ([], "t.yml".toList) then some "in: b/a.h\n".toList else none) = some fs' ∧
      fs' ([], "t.yml".toList) = some "in: b/a1.h\n".toList ∧
      fs' ([], "u.yml".toList) = none := by
  have hread : readPaths "t.yml\n\nt.yml\n".toList = ["t.yml".toList, "t.yml".toList] := by decide
  obtain ⟨fs', hrun, hfs'⟩ := yamlReplace_run id "a.h,a0.h\na0,a1\n".toList
    "t.yml\n\nt.yml\n".toList
    (fun x ↦ if x = ([], "t.yml".toList) then some "in: b/a.h\n".toList else none)
    (by decide) (by rw [hread]; decide)
  simp only [timesNamed, hread] at hfs'
  refine ⟨fs', hrun, (hfs' _).1.trans ?_, (hfs' _).1.trans ?_⟩ <;> decide

/-! ## The conversions that were printed -/

theorem parseConversions_eq (txt : Str) :
    parseConversions txt = (parseMapping txt).map Prod.swap := by
  rw [parseConversions, parseMapping, List.map_filterMap]
  refine List.filterMap_congr fun line _ ↦ ?_
  rw [parseConversion, parseLine]
  split <;> simp_all

/-- **What was printed is read back.** -/
theorem parseConversions_csv (h : ∀ c ∈ d, IsPath c.1 ∧ IsPath c.2) :
    parseConversions (csv d) = d := by
  rw [parseConversions_eq, parseMapping_csv h, List.map_map]
  exact List.map_id d

/-! ## The labels in a file -/

/-- The lines can be converted: each label that changes has its rule, and where a rule matches in a
line, as it is when the rule's turn comes, the new label has what the rule puts in. -/
def Convertible (ctx : Str) (paths : List Str) (ls : List (Option (Str × Str))) : Prop :=
  ∀ l ∈ ls, (oldLine ctx l = newLine ctx l ∨
      (oldLine ctx l, newLine ctx l) ∈ includeConversions ctx paths) ∧
    Meets labelStep (Mends (newLine ctx l)) (oldLine ctx l) (includeConversions ctx paths)

instance (ctx : Str) (paths : List Str) (ls : List (Option (Str × Str))) :
    Decidable (Convertible ctx paths ls) :=
  inferInstanceAs (Decidable (∀ _ ∈ _, (_ ∨ _) ∧ Meets labelStep _ _ _))

/-- A text whose lines are labels of the files, the old ones. -/
def Labels (ctx : Str) (paths : List Str) (ls : List (Option (Str × Str))) (txt : Str) : Prop :=
  (∀ l ∈ ls, ∀ e ∈ l, e ∈ file2path paths) ∧ txt.splitOn '\n' = ls.map (oldLine ctx)

instance (ctx : Str) (paths : List Str) (ls : List (Option (Str × Str))) (txt : Str) :
    Decidable (Labels ctx paths ls txt) :=
  inferInstanceAs (Decidable ((∀ _ ∈ _, _) ∧ _))

/-- **The new labels are put in.** -/
theorem labelReplace_labels {ls : List (Option (Str × Str))} {txt : Str}
    (hchars : ∀ p ∈ paths, IsPath p) (h : Labels ctx paths ls txt)
    (hconv : Convertible ctx paths ls) :
    labelReplace txt (includeConversions ctx paths)
      = ['\n'].intercalate (ls.map (newLine ctx)) := by
  have hne : ls.map (oldLine ctx) ≠ [] := h.2 ▸ List.splitOn_ne_nil '\n' txt
  have hrules : ∀ c ∈ includeConversions ctx paths, IsPath c.1 := fun c hc ↦
    (isPath_of_mem hchars hc).1
  rw [← @List.intercalate_splitOn _ txt _ _ '\n', h.2, labelReplace_intercalate hrules hne,
    List.map_map]
  refine congrArg _ (List.map_congr_left fun l hl ↦ ?_)
  obtain ⟨hrule, hmeets⟩ := hconv l hl
  exact labelReplace_line hmeets hrule

/-- **And the old ones are put back.** -/
theorem labelReplace_back {ls : List (Option (Str × Str))} {txt : Str}
    (hchars : ∀ p ∈ paths, IsPath p) (h : Labels ctx paths ls txt)
    (hrest : Restorable ctx paths ls) :
    labelReplace (['\n'].intercalate (ls.map (newLine ctx)))
      (parseMapping (csv (includeConversions ctx paths))) = txt := by
  rw [labelReplace_iff_lines hchars h.1 h.2]
  intro l hl
  obtain ⟨hrule, hmeets⟩ := hrest l hl
  refine labelReplace_line hmeets (hrule.imp_right fun hmem ↦ ?_)
  exact List.mem_map.mpr ⟨_, hmem, rfl⟩

/-- **There and back**: `yaml_replace.py`, given what `label_uniquify.py` printed, puts the new
labels into each file whose lines are labels and can be converted, and touches no other file; and
`label_replace.py` makes the file what it was, if the lines can be restored. -/
theorem yamlReplace_labels (dir : Str → δ) (ctx : Str) (paths : List Str) (rawPaths : Str)
    (fs : δ × Str → Option Str) (hchars : ∀ p ∈ paths, IsPath p)
    (hnodup : ((readPaths rawPaths).map (entry dir)).Nodup)
    (hfs : ∀ p ∈ readPaths rawPaths, fs (entry dir p) ≠ none) :
    ∃ fs', yamlReplace dir (some (csv (includeConversions ctx paths))) rawPaths fs = some fs' ∧
      (∀ x, x ∉ (readPaths rawPaths).map (entry dir) → fs' x = fs x) ∧
      ∀ p ∈ readPaths rawPaths, ∀ ls, ∀ txt ∈ fs (entry dir p), Labels ctx paths ls txt →
        Convertible ctx paths ls → ∃ nxtxt, fs' (entry dir p) = some nxtxt ∧
          nxtxt = ['\n'].intercalate (ls.map (newLine ctx)) ∧
          (Restorable ctx paths ls →
            labelReplace nxtxt (parseMapping (csv (includeConversions ctx paths))) = txt) := by
  obtain ⟨fs', hsteps, hin, hout⟩ := steps_change_of_nodup
    (f := (labelReplace · (parseConversions (csv (includeConversions ctx paths))))) hnodup
    (List.forall_mem_map.mpr hfs)
  refine ⟨fs', (yamlReplace_some dir _ rawPaths fs).trans hsteps, hout, ?_⟩
  intro p hp ls txt htxt hlabels hconv
  refine ⟨_, ?_, rfl, labelReplace_back hchars hlabels⟩
  rw [hin _ (List.mem_map_of_mem hp), Option.mem_def.mp htxt, Option.map_some,
    parseConversions_csv fun c hc ↦ isPath_of_mem hchars hc,
    labelReplace_labels hchars hlabels hconv]

/-- A file that names two files of one name. -/
theorem yamlReplace_labels_second : ∃ fs' : Str × Str → Option Str,
    yamlReplace id (some (csv (includeConversions "t".toList ["t/a.h".toList, "t/b/a.h".toList])))
        "t.yml\n".toList
        (fun x ↦ if x = ([], "t.yml".toList) then some "a.h\nb/a.h\n".toList else none) = some fs' ∧
      fs' ([], "t.yml".toList) = some "a.h\nb/a0.h\n".toList ∧
      labelReplace "a.h\nb/a0.h\n".toList
        (parseMapping (csv (includeConversions "t".toList ["t/a.h".toList, "t/b/a.h".toList])))
        = "a.h\nb/a.h\n".toList := by
  obtain ⟨fs', hrun, -, hfs'⟩ := yamlReplace_labels id "t".toList
    ["t/a.h".toList, "t/b/a.h".toList] "t.yml\n".toList
    (fun x ↦ if x = ([], "t.yml".toList) then some "a.h\nb/a.h\n".toList else none)
    (by decide) (by decide) (by decide)
  obtain ⟨nxtxt, hnxtxt, heq, hback⟩ := hfs' "t.yml".toList (by decide)
    [some ("a.h".toList, "t/a.h".toList), some ("a0.h".toList, "t/b/a.h".toList), none]
    "a.h\nb/a.h\n".toList (by decide) (by decide) (by decide)
  obtain rfl : nxtxt = "a.h\nb/a0.h\n".toList := heq.trans (by decide)
  exact ⟨fs', hrun, hnxtxt, hback (by decide)⟩

end Scripts
end Cppkg
