import Cppkg.Lib.Lines
import Cppkg.Scripts.Conversions

/-!
# Rewriting the includes, from `scripts/label_uniquify.py`

The script looks for the includes of a text, and replaces those of the files that are renamed.  It
replaces them one after the other in the whole text, and the text of an include is the regular
expression that it looks for; so an include may be replaced that is not the one that was found, or
that an earlier replacement has put there.

`rewriteIncludes_iff` says when this is the same as replacing all the includes at once.
-/

set_option autoImplicit false

namespace Cppkg
namespace Scripts

open Pattern Steps

/-- The text in front of the path. -/
def includeStart : Str := "#include \"".toList

def includeText (p : Str) : Str := includeStart ++ p ++ ['"']

/-- What `#include "(.*)"\n` matches in a line: from the first place where it can begin, to a quote
that must be the last character of the line. -/
def includeOf (line : Str) : Option Str :=
  match find (word includeStart) line with
  | some i =>
    let rest := line.drop (i + includeStart.length)
    if rest.getLast? = some '"' then some rest.dropLast else none
  | none => none

/-- There must be a line end, so that the last line is not looked at. -/
def findIncludes (txt : Str) : List Str := (txt.splitOn '\n').dropLast.filterMap includeOf

/-- The rule for the include of `c.1`. -/
def includeRule (c : Str × Str) : List (Char → Bool) × Str :=
  (regex (includeText c.1), includeText c.2)

def replaceIncludes (txt : Str) (subs : List (Str × Str)) : Str :=
  subs.foldl (fun txt c ↦ replace (includeRule c).1 (includeRule c).2 txt) txt

/-- The loop over the includes. -/
def includeSubs (d : List (Str × Str)) (txt : Str) : List (Str × Str) :=
  (findIncludes txt).filterMap fun i ↦ (d.lookup i).map fun repl ↦ (i, repl)

/-- What is in the file at the end.  It is only written if there is something to write. -/
def rewriteIncludes (ctx : Str) (paths : List Str) (txt : Str) : Str :=
  let subs := includeSubs (includeConversions ctx paths) txt
  if subs ≠ [] then
    let nxtxt := replaceIncludes txt subs
    if nxtxt ≠ [] then nxtxt else txt
  else txt

/-- A line, if it is the include of a file that is renamed, is the include of its new path, and
every other line is what it was. -/
def substitute (d : List (Str × Str)) (line : Str) : Str :=
  match d.find? fun c ↦ includeText c.1 = line with
  | some c => includeText c.2
  | none => line

/-- All lines at once. -/
def simultaneous (d : List (Str × Str)) (txt : Str) : Str :=
  ['\n'].intercalate ((txt.splitOn '\n').map (substitute d))

variable {d subs : List (Str × Str)} {c : Str × Str} {line x txt p o n ctx : Str}
  {paths : List Str}

/-! ## As rules -/

theorem replaceIncludes_eq (txt : Str) (subs : List (Str × Str)) :
    replaceIncludes txt subs = replaceAll (subs.map includeRule) txt :=
  (replaceAll_map includeRule subs txt).symm

theorem includeText_injective : Function.Injective includeText := by
  intro p q h
  simpa [includeText] using h

theorem includeText_ne_nil (p : Str) : includeText p ≠ [] := by simp [includeText]

theorem length_includeText (p : Str) : (includeText p).length = p.length + 11 := by
  have hstart : includeStart.length = 10 := rfl
  simp only [includeText, List.length_append, List.length_singleton, hstart]
  omega

theorem replaceIncludes_ne_nil (h : txt ≠ []) : replaceIncludes txt subs ≠ [] := by
  induction subs generalizing txt with
  | nil => exact h
  | cons c subs ih => exact ih (replace_ne_nil (includeText_ne_nil c.2) h)

theorem rewriteIncludes_eq (ctx : Str) (paths : List Str) (txt : Str) :
    rewriteIncludes ctx paths txt
      = replaceIncludes txt (includeSubs (includeConversions ctx paths) txt) := by
  rw [rewriteIncludes]
  generalize includeSubs (includeConversions ctx paths) txt = subs
  simp only
  split
  · split
    · rfl
    · rename_i h
      by_contra hne
      refine h (replaceIncludes_ne_nil fun hnil ↦ hne ?_)
      rw [not_not] at h
      rw [h, hnil]
  · rename_i h
    rw [not_not.mp h]
    rfl

theorem mem_includeSubs :
    c ∈ includeSubs d txt ↔ c.1 ∈ findIncludes txt ∧ d.lookup c.1 = some c.2 := by
  rw [includeSubs, List.mem_filterMap]
  constructor
  · rintro ⟨i, hi, h⟩
    obtain ⟨repl, hrepl, rfl⟩ := Option.map_eq_some_iff.mp h
    exact ⟨hi, hrepl⟩
  · rintro ⟨hi, h⟩
    exact ⟨c.1, hi, Option.map_eq_some_iff.mpr ⟨c.2, h, rfl⟩⟩

theorem mem_of_lookup (h : d.lookup o = some n) : (o, n) ∈ d := by
  obtain ⟨l, l', rfl, -⟩ := List.lookup_eq_some_iff.mp h
  simp

theorem lookup_of_mem (h : c ∈ d) : ∃ n, d.lookup c.1 = some n := by
  refine Option.ne_none_iff_exists'.mp fun hnone ↦ ?_
  have := List.lookup_eq_none_iff.mp hnone c h
  simp at this

/-- What becomes of an include. -/
theorem substitute_includeText (h : d.lookup o = some n) :
    substitute d (includeText o) = includeText n := by
  obtain ⟨l, l', rfl, hl⟩ := List.lookup_eq_some_iff.mp h
  have hfind : (l ++ (o, n) :: l').find? (fun c ↦ includeText c.1 = includeText o)
      = some (o, n) := by
    rw [List.find?_append, List.find?_eq_none.mpr, Option.none_or, List.find?_cons_of_pos (by simp)]
    intro c hc heq
    have hne := hl c hc
    rw [includeText_injective (of_decide_eq_true heq)] at hne
    simp at hne
  rw [substitute, hfind]

/-- And of every other line. -/
theorem substitute_of_ne (h : ∀ c ∈ d, includeText c.1 ≠ line) : substitute d line = line := by
  rw [substitute, List.find?_eq_none.mpr (by simpa using h)]

/-! ## One line -/

/-- One replacement. -/
def lineStep (x : Str) (c : Str × Str) : Option Str :=
  some (replace (includeRule c).1 (includeRule c).2 x)

/-- If the replacement finds something in the line that was `line` and is `x` now, then the line is
as it was, and is the include that was to be replaced. -/
def OnlyOwn (line x : Str) (c : Str × Str) : Prop :=
  Occurs (includeRule c).1 x → x = line ∧ line = includeText c.1

instance (line x : Str) (c : Str × Str) : Decidable (OnlyOwn line x c) :=
  inferInstanceAs (Decidable (_ → _))

theorem steps_lineStep (x : Str) (subs : List (Str × Str)) :
    steps lineStep x subs = some (replaceIncludes x subs) :=
  steps_some _ x subs

theorem replaceIncludes_cons (x : Str) (c : Str × Str) (subs : List (Str × Str)) :
    replaceIncludes x (c :: subs)
      = replaceIncludes (replace (includeRule c).1 (includeRule c).2 x) subs := rfl

theorem meets_lineStep_cons {ok : Str → Str × Str → Prop} : Meets lineStep ok x (c :: subs) ↔
    ok x c ∧ Meets lineStep ok (replace (includeRule c).1 (includeRule c).2 x) subs := Iff.rfl

theorem includeRule_ne_nil (c : Str × Str) : (includeRule c).1 ≠ [] := by
  simp [includeRule, regex, includeText]

theorem occurs_self (c : Str × Str) : Occurs (includeRule c).1 (includeText c.1) :=
  ⟨0, starts_regex_self _⟩

theorem replace_self (c : Str × Str) :
    replace (includeRule c).1 (includeRule c).2 (includeText c.1) = includeText c.2 :=
  replace_of_match (includeRule_ne_nil c) (starts_regex_self _) (length_regex _).symm

/-- A line that is not to be replaced. -/
theorem replaceIncludes_of_ne (hno : ∀ c ∈ subs, includeText c.1 ≠ line)
    (h : Meets lineStep (OnlyOwn line) line subs) : replaceIncludes line subs = line := by
  induction subs with
  | nil => rfl
  | cons c subs ih =>
    obtain ⟨hok, hrest⟩ := meets_lineStep_cons.mp h
    have hocc : ¬ Occurs (includeRule c).1 line := fun hocc ↦
      hno c List.mem_cons_self (hok hocc).2.symm
    rw [replace_of_not_occurs hocc] at hrest
    rw [replaceIncludes_cons, replace_of_not_occurs hocc]
    exact ih (fun c' hc' ↦ hno c' (List.mem_cons_of_mem c hc')) hrest

/-- A line that is, or was. -/
theorem replaceIncludes_includeText (hsubs : ∀ c ∈ subs, c.1 = o → c.2 = n)
    (h : Meets lineStep (OnlyOwn (includeText o)) x subs)
    (hx : x = includeText n ∨ x = includeText o ∧ (o, n) ∈ subs) :
    replaceIncludes x subs = includeText n := by
  induction subs generalizing x with
  | nil =>
    rcases hx with rfl | ⟨-, hmem⟩
    · rfl
    · cases hmem
  | cons c subs ih =>
    obtain ⟨hok, hrest⟩ := meets_lineStep_cons.mp h
    rw [replaceIncludes_cons]
    have hsubs' : ∀ c ∈ subs, c.1 = o → c.2 = n := fun c' hc' ↦
      hsubs c' (List.mem_cons_of_mem c hc')
    by_cases hocc : Occurs (includeRule c).1 x
    · obtain ⟨rfl, hown⟩ := hok hocc
      have ho : c.1 = o := (includeText_injective hown).symm
      have hnew := replace_self c
      rw [ho, hsubs c List.mem_cons_self ho] at hnew
      refine ih hsubs' hrest (.inl hnew)
    · rw [replace_of_not_occurs hocc] at hrest ⊢
      refine ih hsubs' hrest (hx.imp_right fun ⟨hxo, hmem⟩ ↦ ⟨hxo, ?_⟩)
      rcases List.mem_cons.mp hmem with rfl | hmem
      · exact absurd (hxo ▸ occurs_self (o, n)) hocc
      · exact hmem

/-- Every include that is to be replaced is found somewhere. -/
def Found (d : List (Str × Str)) (txt : Str) : Prop :=
  ∀ c ∈ d, includeText c.1 ∈ txt.splitOn '\n' → c.1 ∈ findIncludes txt

instance (d : List (Str × Str)) (txt : Str) : Decidable (Found d txt) :=
  inferInstanceAs (Decidable (∀ _ ∈ _, _))

/-- **Enough for a line.** -/
theorem replaceIncludes_line (hfound : Found d txt) (hline : line ∈ txt.splitOn '\n')
    (h : Meets lineStep (OnlyOwn line) line (includeSubs d txt)) :
    replaceIncludes line (includeSubs d txt) = substitute d line := by
  by_cases hkey : ∃ c ∈ d, includeText c.1 = line
  · obtain ⟨c, hc, rfl⟩ := hkey
    obtain ⟨n, hn⟩ := lookup_of_mem hc
    rw [substitute_includeText hn]
    refine replaceIncludes_includeText (fun c' hc' hname ↦ ?_) h (.inr ⟨rfl, ?_⟩)
    · have hlookup := (mem_includeSubs.mp hc').2
      rw [hname, hn] at hlookup
      exact (Option.some.inj hlookup).symm
    · exact mem_includeSubs.mpr ⟨hfound c hc hline, hn⟩
  · have hno : ∀ c ∈ d, includeText c.1 ≠ line := fun c hc heq ↦ hkey ⟨c, hc, heq⟩
    rw [substitute_of_ne hno]
    refine replaceIncludes_of_ne (fun c hc ↦ ?_) h
    exact hno c (mem_of_lookup (mem_includeSubs.mp hc).2)

/-! ## When it is necessary -/

/-- The new labels are longer than the old ones, and no two are the same. -/
structure Fresh (d : List (Str × Str)) : Prop where
  path : ∀ c ∈ d, IsPath c.1 ∧ IsPath c.2
  longer : ∀ c ∈ d, c.1.length < c.2.length
  inj : ∀ c ∈ d, ∀ c' ∈ d, c.2 = c'.2 → c.1 = c'.1

theorem fresh_includeConversions (hchars : ∀ p ∈ paths, IsPath p)
    (h : ∀ p ∈ paths, Printed ctx p) : Fresh (includeConversions ctx paths) := by
  refine ⟨fun c hc ↦ isPath_of_mem hchars hc, fun c hc ↦ ?_, fun c hc c' hc' heq ↦ ?_⟩
  · obtain ⟨e, he, hne, rfl⟩ := mem_includeConversions hc
    exact length_label_lt he (h e.2 (mem_file2path he).1) hne
  · obtain ⟨e, he, -, rfl⟩ := mem_includeConversions hc
    obtain ⟨e', he', -, rfl⟩ := mem_includeConversions hc'
    rw [newLabel_inj he he' (h _ (mem_file2path he).1) (h _ (mem_file2path he').1) heq]

/-- In an include there is room for one include only, all of it. -/
theorem occurs_includeText (hp : IsPath p) (h : Occurs (includeRule c).1 (includeText p)) :
    c.1.length = p.length ∧
      replace (includeRule c).1 (includeRule c).2 (includeText p) = includeText c.2 := by
  obtain ⟨i, hi⟩ := h
  have hzero : i = 0 := by
    cases i with
    | zero => rfl
    | succ i =>
      obtain ⟨a, ha, hhash⟩ := head_of_starts hi
      obtain rfl : a = '#' := beq_iff_eq.mp hhash
      have hmem : '#' ∈ "include \"".toList ++ p ++ ['"'] :=
        List.mem_of_mem_drop (List.mem_of_mem_head? ha)
      have hnot := hp.notMem (a := '#') (by decide)
      simp [hnot] at hmem
  subst hzero
  have hsplit : (includeRule c).1 = regex includeStart ++ (regex c.1 ++ regex ['"']) := by
    simp [includeRule, includeText, regex]
  have htext : includeText p = includeStart ++ (p ++ ['"']) := List.append_assoc ..
  have hlen : c.1.length = p.length := by
    rw [List.drop_zero, hsplit, htext, starts_append_pattern, length_regex, List.drop_left,
      starts_append_pattern, length_regex, Bool.and_eq_true, Bool.and_eq_true] at hi
    obtain ⟨-, hname, hquote⟩ := hi
    have hle := length_le_of_starts hquote
    have hle' : c.1.length ≤ p.length := by
      rw [List.length_drop, List.length_append] at hle
      simp [regex] at hle
      omega
    rcases Nat.eq_or_lt_of_le hle' with heq | hlt
    · exact heq
    · obtain ⟨a, ha, heq⟩ := head_of_starts hquote
      obtain rfl : a = '"' := beq_iff_eq.mp heq
      rw [List.drop_append_of_le_length hle',
        List.head?_append_of_ne_nil _ (by simpa using hlt)] at ha
      exact absurd (List.mem_of_mem_drop (List.mem_of_mem_head? ha)) (hp.notMem (by decide))
  refine ⟨hlen, replace_of_match (includeRule_ne_nil c) hi ?_⟩
  rw [includeRule, length_regex, length_includeText, length_includeText, hlen]

/-- What a line is that was `line`: as it was, or longer; and an include, if it was one that is to
be replaced. -/
structure Grown (d : List (Str × Str)) (line x : Str) : Prop where
  longer : x = line ∨ line.length < x.length
  incl : (∃ c ∈ d, includeText c.1 = line) → x = line ∨ ∃ c ∈ d, x = includeText c.2

/-- The line is as it was, or as it is to be. -/
def Right (d : List (Str × Str)) (line x : Str) : Prop := x = line ∨ x = substitute d line

theorem length_lt_replace (hd : Fresh d) (hc : c ∈ d) (h : Occurs (includeRule c).1 x) :
    x.length < (replace (includeRule c).1 (includeRule c).2 x).length := by
  have hlonger : (includeRule c).1.length < (includeRule c).2.length := by
    rw [includeRule, length_regex, length_includeText, length_includeText]
    exact Nat.add_lt_add_right (hd.longer c hc) 11
  exact (length_le_replace (includeRule_ne_nil c) hlonger x).2 h

/-- The includes that a line can have become are as long as what it was, or longer. -/
theorem Grown.eq_includeText (h : Grown d line x) (hkey : ∃ c ∈ d, includeText c.1 = line) :
    x = line ∨ ∃ c ∈ d, x = includeText c.2 ∧ line.length < x.length := by
  rcases h.longer with hx | hlt
  · exact .inl hx
  · rcases h.incl hkey with hx | ⟨c, hc, hx⟩
    · exact .inl hx
    · exact .inr ⟨c, hc, hx, hlt⟩

/-- A replacement in an include puts an include there, which is the right one if it was the line's
own replacement. -/
theorem replace_include (hd : Fresh d) (hn : d.lookup o = some n) (hc : d.lookup c.1 = some c.2)
    (h : Grown d (includeText o) x) (hocc : Occurs (includeRule c).1 x) :
    replace (includeRule c).1 (includeRule c).2 x = includeText c.2 ∧
      (includeText c.2 = includeText n ↔
        Right d (includeText o) x ∧ OnlyOwn (includeText o) x c) := by
  have hon : (o, n) ∈ d := mem_of_lookup hn
  have hcd : c ∈ d := mem_of_lookup hc
  have hname : includeText c.2 = includeText n → c.1 = o := fun heq ↦
    hd.inj c hcd (o, n) hon (includeText_injective heq)
  rcases h.eq_includeText ⟨(o, n), hon, rfl⟩ with rfl | ⟨e, he, rfl, hlt⟩
  · refine ⟨(occurs_includeText (hd.path _ hon).1 hocc).2, fun heq ↦ ?_, fun ⟨_, hok⟩ ↦ ?_⟩
    · exact ⟨.inl rfl, fun _ ↦ ⟨rfl, by rw [hname heq]⟩⟩
    · have ho : o = c.1 := includeText_injective (hok hocc).2
      rw [ho, hc] at hn
      rw [Option.some.inj hn]
  · obtain ⟨hlen, hrep⟩ := occurs_includeText (hd.path e he).2 hocc
    rw [length_includeText, length_includeText] at hlt
    refine ⟨hrep, fun heq ↦ ?_, fun ⟨_, hok⟩ ↦ ?_⟩
    · rw [hname heq] at hlen
      omega
    · rw [includeText_injective (hok hocc).1] at hlt
      omega

/-- **One replacement** that is not the line's own makes it wrong, and so it stays. -/
theorem grown_step (hd : Fresh d) (hc : d.lookup c.1 = some c.2) (h : Grown d line x) :
    Grown d line (replace (includeRule c).1 (includeRule c).2 x) ∧
      (Right d line (replace (includeRule c).1 (includeRule c).2 x) ↔
        Right d line x ∧ OnlyOwn line x c) := by
  have hmem : c ∈ d := mem_of_lookup hc
  by_cases hocc : Occurs (includeRule c).1 x
  · have hlen := length_lt_replace hd hmem hocc
    have hlonger : line.length < (replace (includeRule c).1 (includeRule c).2 x).length := by
      rcases h.longer with rfl | hlt
      · exact hlen
      · exact Nat.lt_trans hlt hlen
    have hne : replace (includeRule c).1 (includeRule c).2 x ≠ line := fun heq ↦ by
      rw [heq] at hlonger
      exact Nat.lt_irrefl _ hlonger
    rw [Right, or_iff_right hne]
    by_cases hkey : ∃ e ∈ d, includeText e.1 = line
    · obtain ⟨e, he, rfl⟩ := hkey
      obtain ⟨n, hn⟩ := lookup_of_mem he
      obtain ⟨hrep, hown⟩ := replace_include hd hn hc h hocc
      rw [substitute_includeText hn, hrep]
      rw [hrep] at hlonger
      exact ⟨⟨.inr hlonger, fun _ ↦ .inr ⟨c, hmem, rfl⟩⟩, hown⟩
    · have hno : ∀ e ∈ d, includeText e.1 ≠ line := fun e he heq ↦ hkey ⟨e, he, heq⟩
      refine ⟨⟨.inr hlonger, fun h ↦ absurd h hkey⟩, ?_⟩
      rw [substitute_of_ne hno, iff_false_left hne]
      exact fun hok ↦ hno c hmem (hok.2 hocc).2.symm
  · rw [replace_of_not_occurs hocc]
    exact ⟨h, (and_iff_left fun ho ↦ absurd ho hocc).symm⟩

/-- **Necessary for a line.** -/
theorem meets_of_line (hd : Fresh d)
    (h : replaceIncludes line (includeSubs d txt) = substitute d line) :
    Meets lineStep (OnlyOwn line) line (includeSubs d txt) := by
  have hgrown : Grown d line line := ⟨.inl rfl, fun _ ↦ .inl rfl⟩
  refine ((meets_iff_end (P := Right d line) (fun x c hc x' hx' hx ↦ ?_) (steps_lineStep line _)
    hgrown).mp (.inr h)).2
  obtain rfl := Option.some.inj hx'
  exact grown_step hd (mem_includeSubs.mp hc).2 hx

/-- An include that became the right one was found. -/
theorem found_of_line (hd : Fresh d) (hc : c ∈ d)
    (h : replaceIncludes (includeText c.1) (includeSubs d txt) = substitute d (includeText c.1)) :
    c.1 ∈ findIncludes txt := by
  by_contra hnot
  have hno : ∀ c' ∈ includeSubs d txt, includeText c'.1 ≠ includeText c.1 := fun c' hc' heq ↦
    hnot (includeText_injective heq ▸ (mem_includeSubs.mp hc').1)
  obtain ⟨n, hn⟩ := lookup_of_mem hc
  rw [replaceIncludes_of_ne hno (meets_of_line hd h), substitute_includeText hn] at h
  have hlonger := hd.longer _ (mem_of_lookup hn)
  rw [includeText_injective h] at hlonger
  exact Nat.lt_irrefl _ hlonger

/-! ## All lines -/

/-- **What must be of a text**: every include that is to be replaced is found, and no replacement
finds anything in a line but what was there at first, and only if that is its own include. -/
def Consistent (d : List (Str × Str)) (txt : Str) : Prop :=
  Found d txt ∧
    ∀ line ∈ txt.splitOn '\n', Meets lineStep (OnlyOwn line) line (includeSubs d txt)

instance (d : List (Str × Str)) (txt : Str) : Decidable (Consistent d txt) :=
  inferInstanceAs (Decidable (Found d txt ∧ ∀ _ ∈ _, Meets lineStep _ _ _))

theorem notMem_includeText (hp : IsPath p) : '\n' ∉ includeText p := by
  have hnot := hp.notMem (a := '\n') (by decide)
  have hstart : '\n' ∉ includeStart := by decide
  simp [includeText, hnot, hstart]

/-- The rules do not look at line ends and put none in. -/
theorem replaceIncludes_iff (hd : ∀ c ∈ d, IsPath c.1 ∧ IsPath c.2) (txt : Str) :
    replaceIncludes txt (includeSubs d txt) = simultaneous d txt ↔
      ∀ line ∈ txt.splitOn '\n',
        replaceIncludes line (includeSubs d txt) = substitute d line := by
  have hsubs : ∀ c ∈ includeSubs d txt, IsPath c.1 ∧ IsPath c.2 := fun c hc ↦
    hd c (mem_of_lookup (mem_includeSubs.mp hc).2)
  have hrules : ∀ r ∈ (includeSubs d txt).map includeRule,
      (∀ t ∈ r.1, t '\n' = false) ∧ '\n' ∉ r.2 := by
    refine List.forall_mem_map.mpr fun c hc ↦ ⟨?_, notMem_includeText (hsubs c hc).2⟩
    exact regex_newline (notMem_includeText (hsubs c hc).1)
  have hlines : txt.splitOn '\n' ≠ [] := List.splitOn_ne_nil _ _
  have hnew : ∀ line ∈ txt.splitOn '\n', '\n' ∉ substitute d line := fun line hline ↦ by
    rw [substitute]
    split
    · rename_i c hc
      exact notMem_includeText (hd c (List.mem_of_find?_eq_some hc)).2
    · exact Text.notMem_of_mem_splitOn hline
  have hall := replaceAll_intercalate (fun r hr ↦ (hrules r hr).1) hlines
  rw [List.intercalate_splitOn] at hall
  simp only [replaceIncludes_eq]
  rw [hall, simultaneous]
  refine Text.intercalate_map_inj (fun line hline ↦ ?_) hnew hlines
  exact notMem_replaceAll (fun r hr ↦ (hrules r hr).2) (Text.notMem_of_mem_splitOn hline)

/-- **When the includes are rewritten as the files are renamed**: when the text is consistent with
the conversions, and for paths as `find` prints them only then. -/
theorem rewriteIncludes_iff (ctx : Str) (paths : List Str) (txt : Str)
    (hchars : ∀ p ∈ paths, IsPath p) :
    (Consistent (includeConversions ctx paths) txt →
      rewriteIncludes ctx paths txt = simultaneous (includeConversions ctx paths) txt) ∧
    ((∀ p ∈ paths, Printed ctx p) →
      rewriteIncludes ctx paths txt = simultaneous (includeConversions ctx paths) txt →
      Consistent (includeConversions ctx paths) txt) := by
  rw [rewriteIncludes_eq, replaceIncludes_iff fun c hc ↦ isPath_of_mem hchars hc]
  refine ⟨fun ⟨hfound, hlines⟩ line hline ↦ ?_, fun hprinted h ↦ ?_⟩
  · exact replaceIncludes_line hfound hline (hlines line hline)
  · have hd := fresh_includeConversions hchars hprinted
    refine ⟨fun c hc hline ↦ found_of_line hd hc (h _ hline), fun line hline ↦ ?_⟩
    exact meets_of_line hd (h line hline)

/-- The second of two files of one name is included, and what is no include at all is kept. -/
theorem rewriteIncludes_iff_second :
    rewriteIncludes "t".toList ["t/a.h".toList, "t/b/a.h".toList]
        "int a;\n#include \"b/a.h\"\n".toList = "int a;\n#include \"b/a0.h\"\n".toList ∧
      Consistent (includeConversions "t".toList ["t/a.h".toList, "t/b/a.h".toList])
        "int a;\n#include \"b/a.h\"\n".toList := by
  have hprinted : ∀ p ∈ ["t/a.h".toList, "t/b/a.h".toList], Printed "t".toList p := by
    refine List.forall_mem_cons.mpr ⟨?_, List.forall_mem_singleton.mpr ?_⟩
    · exact ⟨by decide, [], "a.h".toList, by decide, rfl⟩
    · exact ⟨by decide, ["b".toList], "a.h".toList, by decide, rfl⟩
  have h := rewriteIncludes_iff "t".toList ["t/a.h".toList, "t/b/a.h".toList]
    "int a;\n#include \"b/a.h\"\n".toList (by decide)
  have hsame := h.1 (by decide)
  exact ⟨hsame.trans (by decide), h.2 hprinted hsame⟩

/-- The include of `y/a.h` becomes one of `y/a0.h`, and then one of what that file is called. -/
theorem not_rewriteIncludes : ¬ ∀ (ctx : Str) (paths : List Str) (txt : Str), paths.Nodup →
    (∀ p ∈ paths, IsPath p) →
    rewriteIncludes ctx paths txt = simultaneous (includeConversions ctx paths) txt := by
  intro h
  have := h "t".toList ["t/a.h".toList, "t/y/a.h".toList, "t/y/a0.h".toList]
    "#include \"y/a.h\"\n#include \"y/a0.h\"\n".toList (by decide) (by decide)
  exact absurd this (by decide)

end Scripts
end Cppkg
