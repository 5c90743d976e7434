import Cppkg.Lib.Lines
import Cppkg.Scripts.Conversions

/-!
# Putting the old labels back, from `scripts/label_replace.py`

`label_uniquify.py` prints the conversions, one on a line with a comma between the labels.
`label_replace.py` reads them back, `parseMapping_csv`, and replaces in a coverage report each new
label by the old one, one after the other and wherever it is found.  A new label may be found in the
label of another file, `a0.hpp` in `d/ba0.hpp`, or in one that was put back before.

`labelReplace_iff` says when all the labels are as they were before.
-/

set_option autoImplicit false

namespace Cppkg
namespace Scripts

open Pattern Steps

/-! ## The conversions in a file -/

/-- What `label_uniquify.py` prints. -/
def csv (d : List (Str × Str)) : Str :=
  (d.map fun (src, dest) ↦ src ++ ',' :: dest ++ ['\n']).flatten

/-- The characters of which `str.isspace` is true. -/
def whitespace : List Char :=
  ['\t', '\n', '\x0b', '\x0c', '\r', '\x1c', '\x1d', '\x1e', '\x1f', ' ', '\x85', '\xa0',
    '\u1680', '\u2000', '\u2001', '\u2002', '\u2003', '\u2004', '\u2005', '\u2006', '\u2007',
    '\u2008', '\u2009', '\u200a', '\u2028', '\u2029', '\u202f', '\u205f', '\u3000']

def isWhitespace (c : Char) : Bool := whitespace.contains c

/-- `str.strip` -/
def strip (s : Str) : Str := (s.dropWhile isWhitespace).rdropWhile isWhitespace

/-- One line.  A line that is not two values is left out. -/
def parseLine (line : Str) : Option (Str × Str) :=
  match (strip line).splitOn ',' with
  | [dest, src] => some (src, dest)
  | _ => none

def parseMapping (txt : Str) : List (Str × Str) := (Text.lines '\n' txt).filterMap parseLine

variable {d rules : List (Str × Str)} {c : Str × Str} {p x old ctx : Str} {paths : List Str}

theorem isWhitespace_eq_false {a : Char} (h : PathChar a ∨ a = ',') : isWhitespace a = false := by
  have hno : whitespace.all (fun c ↦ ! decide (PathChar c ∨ c = ',')) = true := by decide
  rw [isWhitespace, Bool.eq_false_iff, Ne, List.contains_iff_mem]
  intro hmem
  simpa [h] using List.all_eq_true.mp hno a hmem

/-- Nothing is stripped from a line without white space. -/
theorem strip_eq_self {s : Str} (h : ∀ a ∈ s, isWhitespace a = false) : strip s = s := by
  have hdrop : s.dropWhile isWhitespace = s := by
    cases s with
    | nil => rfl
    | cons a s => rw [List.dropWhile_cons_of_neg (by simp [h a])]
  rw [strip, hdrop, List.rdropWhile_eq_self_iff]
  intro hs
  simp [h _ (List.getLast_mem hs)]

theorem parseLine_eq (h : IsPath c.1 ∧ IsPath c.2) :
    parseLine (c.1 ++ ',' :: c.2) = some (c.2, c.1) := by
  have hspace : ∀ a ∈ c.1 ++ ',' :: c.2, isWhitespace a = false := by
    intro a ha
    refine isWhitespace_eq_false ?_
    rcases List.mem_append.mp ha with ha | ha
    · exact .inl (h.1 a ha)
    · rcases List.mem_cons.mp ha with rfl | ha
      · exact .inr rfl
      · exact .inl (h.2 a ha)
  rw [parseLine, strip_eq_self hspace,
    List.splitOn_append_cons_self_of_not_mem (h.1.notMem (by decide)),
    List.splitOn_eq_singleton (h.2.notMem (by decide))]

/-- **What was printed is read back**, the new label first. -/
theorem parseMapping_csv (h : ∀ c ∈ d, IsPath c.1 ∧ IsPath c.2) :
    parseMapping (csv d) = d.map Prod.swap := by
  have hlines : csv d = ((d.map fun c ↦ c.1 ++ ',' :: c.2).map (· ++ ['\n'])).flatten := by
    rw [csv, List.map_map]
    rfl
  have hnewline : ∀ l ∈ d.map fun c ↦ c.1 ++ ',' :: c.2, '\n' ∉ l := by
    refine List.forall_mem_map.mpr fun c hc ↦ ?_
    have h1 := (h c hc).1.notMem (a := '\n') (by decide)
    have h2 := (h c hc).2.notMem (a := '\n') (by decide)
    simp [h1, h2]
  rw [parseMapping, hlines, Text.lines_flatten hnewline, List.filterMap_map,
    ← List.filterMap_eq_map]
  refine List.filterMap_congr fun c hc ↦ ?_
  exact parseLine_eq (h c hc)

/-! ## The labels in a report -/

def labelReplace (content : Str) (mapping : List (Str × Str)) : Str :=
  mapping.foldl (fun content c ↦ replace (regex c.1) c.2 content) content

/-- A line of a report: the label of a file, which is given by its name and its path, or nothing. -/
def oldLine (ctx : Str) : Option (Str × Str) → Str
  | some e => stripPrefix e.2 ctx
  | none => []

/-- The line after the files were renamed. -/
def newLine (ctx : Str) : Option (Str × Str) → Str
  | some e => stripPrefix (nxpath e.1 e.2) ctx
  | none => []

/-- One replacement. -/
def labelStep (x : Str) (c : Str × Str) : Option Str := some (replace (regex c.1) c.2 x)

/-- If the rule matches somewhere in the line, which is `x` now, then `old`, the line that is to
come back, has what the rule puts in where the rule matches, and is the same as `x` elsewhere. -/
def Mends (old x : Str) (c : Str × Str) : Prop :=
  Occurs (regex c.1) x → Swapped (regex c.1) c.2 x old

instance (old x : Str) (c : Str × Str) : Decidable (Mends old x c) :=
  inferInstanceAs (Decidable (_ → _))

theorem labelReplace_eq (x : Str) (rules : List (Str × Str)) :
    labelReplace x rules = replaceAll (rules.map fun c ↦ (regex c.1, c.2)) x :=
  (replaceAll_map (fun c : Str × Str ↦ (regex c.1, c.2)) rules x).symm

theorem labelReplace_cons (x : Str) (c : Str × Str) (rules : List (Str × Str)) :
    labelReplace x (c :: rules) = labelReplace (replace (regex c.1) c.2 x) rules := rfl

theorem meets_labelStep_cons {ok : Str → Str × Str → Prop} : Meets labelStep ok x (c :: rules) ↔
    ok x c ∧ Meets labelStep ok (replace (regex c.1) c.2 x) rules := Iff.rfl

/-- **Enough for a line.** -/
theorem labelReplace_line (h : Meets labelStep (Mends old) x rules)
    (hx : x = old ∨ (x, old) ∈ rules) : labelReplace x rules = old := by
  induction rules generalizing x with
  | nil =>
    rcases hx with rfl | hmem
    · rfl
    · cases hmem
  | cons c rules ih =>
    obtain ⟨hok, hrest⟩ := meets_labelStep_cons.mp h
    rw [labelReplace_cons]
    by_cases hocc : Occurs (regex c.1) x
    · exact ih hrest (.inl (hok hocc).replace_eq)
    · rw [replace_of_not_occurs hocc] at hrest ⊢
      refine ih hrest (hx.imp_right fun hmem ↦ ?_)
      rcases List.mem_cons.mp hmem with rfl | hmem
      · exact absurd ⟨0, starts_regex_self x⟩ hocc
      · exact hmem

/-- **Necessary for a line**, if one character at most was put into it: a replacement takes at least
one out, so there can only be one. -/
theorem meets_of_labelReplace (hrules : ∀ c ∈ rules, c.2.length < c.1.length)
    (hlen : x.length ≤ old.length + 1) (h : labelReplace x rules = old) :
    Meets labelStep (Mends old) x rules := by
  induction rules generalizing x with
  | nil => trivial
  | cons c rules ih =>
    rw [labelReplace_cons] at h
    have hshort : ∀ c' ∈ c :: rules, c'.2.length < (regex c'.1).length := fun c' hc' ↦ by
      rw [length_regex]
      exact hrules c' hc'
    obtain ⟨hfirst, hothers⟩ := List.forall_mem_cons.mp hshort
    obtain ⟨hle, hlt⟩ := length_replace_le hfirst x
    have hothers' : ∀ r ∈ rules.map fun c ↦ (regex c.1, c.2), r.2.length < r.1.length :=
      List.forall_mem_map.mpr hothers
    have hrest := (length_replaceAll_le hothers' (replace (regex c.1) c.2 x)).2
    rw [← labelReplace_eq, h] at hrest
    refine meets_labelStep_cons.mpr ⟨fun hocc ↦ ?_, ?_⟩
    · have hlt := hlt hocc
      exact swapped_iff.mpr (hrest (by omega)).symm
    · exact ih (fun c' hc' ↦ hrules c' (List.mem_cons_of_mem c hc')) (Nat.le_trans hle hlen) h

/-- The lines can be restored: each label that was changed has its rule, and where a rule matches in
a line, as it is when the rule's turn comes, the old label has what the rule puts in. -/
def Restorable (ctx : Str) (paths : List Str) (ls : List (Option (Str × Str))) : Prop :=
  ∀ l ∈ ls, (newLine ctx l = oldLine ctx l ∨
      (oldLine ctx l, newLine ctx l) ∈ includeConversions ctx paths) ∧
    Meets labelStep (Mends (oldLine ctx l)) (newLine ctx l)
      ((includeConversions ctx paths).map Prod.swap)

instance (ctx : Str) (paths : List Str) (ls : List (Option (Str × Str))) :
    Decidable (Restorable ctx paths ls) :=
  inferInstanceAs (Decidable (∀ _ ∈ _, (_ ∨ _) ∧ Meets labelStep _ _ _))

/-- The rules are those that were printed, and they do not look at line ends and put none in. -/
theorem labelReplace_iff_lines (hchars : ∀ p ∈ paths, IsPath p) {ls : List (Option (Str × Str))}
    (hls : ∀ l ∈ ls, ∀ e ∈ l, e ∈ file2path paths) {txt : Str}
    (htxt : txt.splitOn '\n' = ls.map (oldLine ctx)) :
    labelReplace (['\n'].intercalate (ls.map (newLine ctx)))
        (parseMapping (csv (includeConversions ctx paths))) = txt ↔
      ∀ l ∈ ls, labelReplace (newLine ctx l) ((includeConversions ctx paths).map Prod.swap)
        = oldLine ctx l := by
  have hpaths : ∀ c ∈ includeConversions ctx paths, IsPath c.1 ∧ IsPath c.2 := fun c hc ↦
    isPath_of_mem hchars hc
  rw [parseMapping_csv hpaths]
  have hrules : ∀ r ∈ ((includeConversions ctx paths).map Prod.swap).map
      fun c ↦ (regex c.1, c.2), (∀ t ∈ r.1, t '\n' = false) ∧ '\n' ∉ r.2 := by
    refine List.forall_mem_map.mpr (List.forall_mem_map.mpr fun c hc ↦ ?_)
    have h1 := (hpaths c hc).1.notMem (a := '\n') (by decide)
    exact ⟨regex_newline ((hpaths c hc).2.notMem (by decide)), h1⟩
  have hne : ls ≠ [] := by
    rintro rfl
    exact List.splitOn_ne_nil '\n' txt htxt
  have hne' : ls.map (newLine ctx) ≠ [] := by simpa using hne
  have hold : ∀ l ∈ ls, '\n' ∉ oldLine ctx l := fun l hl ↦
    Text.notMem_of_mem_splitOn (htxt ▸ List.mem_map_of_mem hl)
  have hnew : ∀ l ∈ ls, '\n' ∉ newLine ctx l := fun l hl ↦ by
    cases l with
    | none => exact List.not_mem_nil
    | some e => exact (isPath_newLabel hchars (hls _ hl e rfl) ctx).notMem (by decide)
  have hjoin : txt = ['\n'].intercalate (ls.map (oldLine ctx)) := by
    rw [← htxt, List.intercalate_splitOn]
  have hall := replaceAll_intercalate (fun r hr ↦ (hrules r hr).1) hne'
  simp only [labelReplace_eq]
  rw [hall, List.map_map, hjoin]
  refine Text.intercalate_map_inj (fun l hl ↦ ?_) hold hne
  exact notMem_replaceAll (fun r hr ↦ (hrules r hr).2) (hnew l hl)

/-- **When the old labels are restored**: when the lines can be restored rule by rule, and for paths
as `find` prints them, of which no label has become longer by more than one character, only then. -/
theorem labelReplace_iff (ctx : Str) (paths : List Str) (ls : List (Option (Str × Str))) (txt : Str)
    (hchars : ∀ p ∈ paths, IsPath p) (hls : ∀ l ∈ ls, ∀ e ∈ l, e ∈ file2path paths)
    (htxt : txt.splitOn '\n' = ls.map (oldLine ctx)) :
    (Restorable ctx paths ls →
      labelReplace (['\n'].intercalate (ls.map (newLine ctx)))
        (parseMapping (csv (includeConversions ctx paths))) = txt) ∧
    (paths.Nodup → (∀ p ∈ paths, Printed ctx p) →
      (∀ l ∈ ls, (newLine ctx l).length ≤ (oldLine ctx l).length + 1) →
      labelReplace (['\n'].intercalate (ls.map (newLine ctx)))
        (parseMapping (csv (includeConversions ctx paths))) = txt →
      Restorable ctx paths ls) := by
  rw [labelReplace_iff_lines hchars hls htxt]
  refine ⟨fun h l hl ↦ ?_, fun hnodup hprinted hlen h l hl ↦ ⟨?_, ?_⟩⟩
  · obtain ⟨hrule, hmeets⟩ := h l hl
    refine labelReplace_line hmeets (hrule.imp_right fun hmem ↦ ?_)
    exact List.mem_map.mpr ⟨_, hmem, rfl⟩
  · cases l with
    | none => exact .inl rfl
    | some e =>
      have he := hls _ hl e rfl
      by_cases hne : e.2 = nxpath e.1 e.2
      · exact .inl (by rw [newLine, oldLine, ← hne])
      · exact .inr (mem_includeConversions_of hnodup hprinted he hne)
  · refine meets_of_labelReplace (List.forall_mem_map.mpr fun c hc ↦ ?_) (hlen l hl) (h l hl)
    obtain ⟨e, he, hne, rfl⟩ := mem_includeConversions hc
    exact length_label_lt he (hprinted e.2 (mem_file2path he).1) hne

/-- Two files of one name, and a report that names both. -/
theorem labelReplace_iff_second :
    labelReplace "a.cpp\nb/a0.cpp\n".toList
        (parseMapping (csv (includeConversions "t".toList ["t/a.cpp".toList, "t/b/a.cpp".toList])))
        = "a.cpp\nb/a.cpp\n".toList ∧
      Restorable "t".toList ["t/a.cpp".toList, "t/b/a.cpp".toList]
        [some ("a.cpp".toList, "t/a.cpp".toList), some ("a0.cpp".toList, "t/b/a.cpp".toList),
          none] := by
  have hprinted : ∀ p ∈ ["t/a.cpp".toList, "t/b/a.cpp".toList], Printed "t".toList p := by
    refine List.forall_mem_cons.mpr ⟨?_, List.forall_mem_singleton.mpr ?_⟩
    · exact ⟨by decide, [], "a.cpp".toList, by decide, rfl⟩
    · exact ⟨by decide, ["b".toList], "a.cpp".toList, by decide, rfl⟩
  have h := labelReplace_iff "t".toList ["t/a.cpp".toList, "t/b/a.cpp".toList]
    [some ("a.cpp".toList, "t/a.cpp".toList), some ("a0.cpp".toList, "t/b/a.cpp".toList), none]
    "a.cpp\nb/a.cpp\n".toList (by decide) (by decide) (by decide)
  have hsame := h.1 (by decide)
  exact ⟨hsame, h.2 (by decide) hprinted (by decide) hsame⟩

/-- `a.cpp` is called `a0.cpp` for a time, and what was called `d/ba0.cpp` then becomes
`d/ba.cpp`. -/
theorem not_labelReplace : ¬ ∀ (ctx : Str) (paths : List Str) (ls : List (Option (Str × Str)))
    (txt : Str), paths.Nodup → (∀ p ∈ paths, IsPath p) →
    (∀ p ∈ paths, ".cpp".toList <:+: p ∨ ".hpp".toList <:+: p) →
    (∀ l ∈ ls, ∀ e ∈ l, e ∈ file2path paths) → txt.splitOn '\n' = ls.map (oldLine ctx) →
    labelReplace (['\n'].intercalate (ls.map (newLine ctx)))
      (parseMapping (csv (includeConversions ctx paths))) = txt := by
  intro h
  have := h "t".toList ["t/d/a.cpp".toList, "t/a.cpp".toList, "t/d/ba0.cpp".toList]
    [some ("ba0.cpp".toList, "t/d/ba0.cpp".toList)] "d/ba0.cpp".toList (by decide) (by decide)
    (by decide) (by decide) (by decide)
  exact absurd this (by decide)

end Scripts
end Cppkg
