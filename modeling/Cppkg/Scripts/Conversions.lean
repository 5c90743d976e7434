import Cppkg.Lib.Pattern
import Cppkg.Scripts.LabelUniquify

/-!
# The conversions of labels, from `scripts/label_uniquify.py`

What a file is called in an include or in a coverage report is its path without the directory that
all paths are in.  `includeConversions` has these labels for the files that are renamed, the old one
and the new one.  Both scripts use the labels as regular expressions.

A label may be anything if the paths are.  Of paths as `find` prints them it is what is behind the
directory; then the new label is longer than the old one, and no two files have the same.
-/

set_option autoImplicit false

namespace Cppkg
namespace Scripts

/-- `path.strip('/')` -/
def stripSlashes (path : Str) : Str := (path.dropWhile (· == '/')).rdropWhile (· == '/')

def stripPrefix (path pre : Str) : Str :=
  stripSlashes (if pre.isPrefixOf path = true then path.drop pre.length else path)

/-- The list comprehension that the `dict` is made of. -/
def labels (ctx : Str) (conversions : List (Str × Str)) : List (Str × Str) :=
  conversions.map fun (realpath, nxpath) ↦ (stripPrefix realpath ctx, stripPrefix nxpath ctx)

def includeConversions (ctx : Str) (paths : List Str) : List (Str × Str) :=
  (labels ctx (conversions (file2path paths))).foldl (fun d c ↦ setItem d c.1 c.2) []

/-- A text as a regular expression, if it is made of the characters of paths (`PathChar`) and of an
include: a dot stands for every character but the end of a line, and a letter, a digit and each of
`_`, `/`, `"`, `#` and the blank for itself.  Other characters may mean something else to `re`, so
that what is said of a text with such characters is said of the model only. -/
def regex (s : Str) : List (Char → Bool) :=
  s.map fun c ↦ if c = '.' then (· != '\n') else (· == c)

/-- The characters of the paths: letters, digits, `_`, `/` and `.`. -/
def PathChar (c : Char) : Prop := c.isAlphanum = true ∨ c = '_' ∨ c = '/' ∨ c = '.'

instance : DecidablePred PathChar := fun _ ↦ inferInstanceAs (Decidable (_ ∨ _))

def IsPath (p : Str) : Prop := ∀ c ∈ p, PathChar c

instance : DecidablePred IsPath := fun p ↦ List.decidableBAll PathChar p

variable {d l : List (Str × Str)} {c e e' : Str × Str} {p f ctx : Str} {paths : List Str}

/-! ## The dictionary -/

theorem mem_setItem {key value : Str} (h : c ∈ setItem d key value) :
    c ∈ d ∨ c = (key, value) := by
  rw [setItem] at h
  split at h
  · obtain ⟨e, he, rfl⟩ := List.mem_map.mp h
    split
    · exact .inr rfl
    · exact .inl he
  · exact (List.mem_append.mp h).imp_right List.mem_singleton.mp

theorem mem_foldl_setItem (h : c ∈ l.foldl (fun d c ↦ setItem d c.1 c.2) d) : c ∈ d ∨ c ∈ l := by
  induction l generalizing d with
  | nil => exact .inl h
  | cons e l ih =>
    rcases ih h with h | h
    · refine (mem_setItem h).imp_right ?_
      rintro rfl
      exact List.mem_cons_self
    · exact .inr (List.mem_cons_of_mem e h)

/-- Without a repeated key the dictionary is what it is made of. -/
theorem foldl_setItem_of_nodup (h : ((d ++ l).map Prod.fst).Nodup) :
    l.foldl (fun d c ↦ setItem d c.1 c.2) d = d ++ l := by
  induction l generalizing d with
  | nil => simp
  | cons e l ih =>
    have hnew : e.1 ∉ d.map Prod.fst := by
      rw [List.map_append, List.nodup_append'] at h
      exact fun hmem ↦ h.2.2 hmem (by simp)
    have happ : d ++ e :: l = (d ++ [e]) ++ l := by simp
    rw [happ] at h ⊢
    rw [List.foldl_cons, setItem, if_neg hnew, ih h]

theorem mem_conversions : c ∈ conversions d ↔
    ∃ e ∈ d, e.2 ≠ nxpath e.1 e.2 ∧ (e.2, nxpath e.1 e.2) = c := by
  rw [conversions, List.mem_filterMap]
  refine exists_congr fun e ↦ and_congr_right fun _ ↦ ?_
  simp

/-- Where the entries come from. -/
theorem mem_includeConversions (h : c ∈ includeConversions ctx paths) :
    ∃ e ∈ file2path paths, e.2 ≠ nxpath e.1 e.2 ∧
      c = (stripPrefix e.2 ctx, stripPrefix (nxpath e.1 e.2) ctx) := by
  have hmem := (mem_foldl_setItem h).resolve_left (List.not_mem_nil)
  obtain ⟨c', hc', rfl⟩ := List.mem_map.mp hmem
  obtain ⟨e, he, hne, rfl⟩ := mem_conversions.mp hc'
  exact ⟨e, he, hne, rfl⟩

/-- The name of a file is one that was found for its path. -/
theorem mem_file2path (h : e ∈ file2path paths) : e.2 ∈ paths ∧ ∃ d, e.1 = nameFor d e.2 := by
  have hgen : ∀ (ps : List Str) (d : List (Str × Str)), e ∈ ps.foldl addPath d →
      e ∈ d ∨ e.2 ∈ ps ∧ ∃ d, e.1 = nameFor d e.2 := by
    intro ps
    induction ps with
    | nil => exact fun d h ↦ .inl h
    | cons path ps ih =>
      intro d h
      rcases ih _ h with h | ⟨hmem, hname⟩
      · rw [addPath_eq] at h
        rcases List.mem_append.mp h with h | h
        · exact .inl h
        · obtain rfl := List.mem_singleton.mp h
          exact .inr ⟨List.mem_cons_self, d, rfl⟩
      · exact .inr ⟨List.mem_cons_of_mem path hmem, hname⟩
  exact (hgen paths [] h).resolve_left List.not_mem_nil

/-- The name is the old one, or a number was put into it. -/
theorem name_cases (h : e ∈ file2path paths) : e.1 = basename e.2 ∨
    ∃ i, e.1 = numbered (nameParts (basename e.2)) i := by
  obtain ⟨-, d, hd⟩ := mem_file2path h
  rw [hd]
  exact nameFor_cases d e.2

/-! ## The characters of the labels -/

theorem IsPath.append (hp : IsPath p) (hf : IsPath f) : IsPath (p ++ f) := fun c hc ↦
  (List.mem_append.mp hc).elim (hp c) (hf c)

theorem IsPath.subset (hp : IsPath p) (h : f ⊆ p) : IsPath f := fun c hc ↦ hp c (h hc)

theorem IsPath.notMem (hp : IsPath p) {a : Char} (ha : ¬ PathChar a) : a ∉ p := fun h ↦ ha (hp a h)

theorem IsPath.basename (hp : IsPath p) : IsPath (basename p) :=
  hp.subset (List.rtakeWhile_suffix _ p).subset

theorem IsPath.dirname (hp : IsPath p) : IsPath (dirname p) := by
  rw [Scripts.dirname]
  split
  · exact hp.subset (List.rdropWhile_prefix _ p).subset
  · exact hp.subset ((List.rdropWhile_prefix _ _).trans (List.rdropWhile_prefix _ p)).subset

theorem IsPath.stripSlashes (hp : IsPath p) : IsPath (stripSlashes p) :=
  (hp.subset (List.dropWhile_suffix _).subset).subset (List.rdropWhile_prefix _ _).subset

theorem IsPath.stripPrefix (hp : IsPath p) (ctx : Str) : IsPath (stripPrefix p ctx) := by
  rw [Scripts.stripPrefix]
  split
  · exact (hp.subset (List.drop_subset _ p)).stripSlashes
  · exact hp.stripSlashes

theorem IsPath.numbered (hf : IsPath f) (i : ℕ) : IsPath (numbered (nameParts f) i) := by
  have hparts : IsPath ((nameParts f).1 ++ (nameParts f).2) := by
    rw [nameParts_append]
    refine hf.append ?_
    split
    · exact fun c hc ↦ absurd hc List.not_mem_nil
    · exact (by decide : IsPath ['.'])
  have hdigits : IsPath (Nat.toDigits 10 i) := fun c hc ↦ by
    have hdigit := Nat.isDigit_of_mem_toDigits (by decide) (by decide) hc
    exact .inl (by simp [Char.isAlphanum, hdigit])
  rw [Scripts.numbered, List.append_assoc]
  refine (hparts.subset (List.subset_append_left _ _)).append (hdigits.append ?_)
  exact hparts.subset (List.subset_append_right _ _)

theorem IsPath.nxpath (hp : IsPath p) (hf : IsPath f) : IsPath (nxpath f p) := by
  have hslash : IsPath ['/'] := by decide
  rw [Scripts.nxpath, join]
  split
  · exact hf
  · split
    · exact hp.dirname.append hf
    · exact hp.dirname.append (hslash.append hf)

theorem isPath_label (hpaths : ∀ p ∈ paths, IsPath p) (he : e ∈ file2path paths) (ctx : Str) :
    IsPath (stripPrefix e.2 ctx) :=
  (hpaths e.2 (mem_file2path he).1).stripPrefix ctx

theorem isPath_newLabel (hpaths : ∀ p ∈ paths, IsPath p) (he : e ∈ file2path paths) (ctx : Str) :
    IsPath (stripPrefix (nxpath e.1 e.2) ctx) := by
  have hpath := hpaths e.2 (mem_file2path he).1
  refine (hpath.nxpath ?_).stripPrefix ctx
  rcases name_cases he with hname | ⟨i, hname⟩
  · rw [hname]
    exact hpath.basename
  · rw [hname]
    exact hpath.basename.numbered i

/-- **The labels have the characters of paths.** -/
theorem isPath_of_mem (hpaths : ∀ p ∈ paths, IsPath p) (h : c ∈ includeConversions ctx paths) :
    IsPath c.1 ∧ IsPath c.2 := by
  obtain ⟨e, he, -, rfl⟩ := mem_includeConversions h
  exact ⟨isPath_label hpaths he ctx, isPath_newLabel hpaths he ctx⟩

/-- A text matches itself. -/
theorem starts_regex_self (s : Str) : Pattern.starts (regex s) s = true := by
  induction s with
  | nil => rfl
  | cons c s ih =>
    rw [regex, List.map_cons, Pattern.starts, Bool.and_eq_true]
    refine ⟨?_, ih⟩
    split
    · rename_i h
      rw [h]
      rfl
    · exact beq_self_eq_true c

/-- Nothing matches the end of a line. -/
theorem regex_newline {s : Str} (hs : '\n' ∉ s) : ∀ t ∈ regex s, t '\n' = false := by
  intro t ht
  obtain ⟨c, hc, rfl⟩ := List.mem_map.mp ht
  split
  · rfl
  · rw [beq_eq_false_iff_ne]
    rintro rfl
    exact hs hc

@[simp] theorem length_regex (s : Str) : (regex s).length = s.length := List.length_map _

/-! ## Paths as `find` prints them -/

/-- `find` prints the directory that it was given, and behind it the names on the way to a file. -/
def Printed (ctx path : Str) : Prop :=
  ctx.getLast? ≠ some '/' ∧ ∃ (names : List Str) (filename : Str),
    (∀ name ∈ names ++ [filename], name ≠ [] ∧ '/' ∉ name) ∧
      path = ctx ++ names.flatMap ('/' :: ·) ++ '/' :: filename

theorem getLast?_append_ne {a : Str} (hf : f ≠ []) (hslash : '/' ∉ f) :
    (a ++ f).getLast? ≠ some '/' := by
  rw [List.getLast?_append_of_ne_nil _ hf]
  exact fun h ↦ hslash (List.mem_of_getLast? h)

/-- The directory that `find` prints does not end with a slash. -/
theorem getLast?_names_ne {names : List Str} (hctx : ctx.getLast? ≠ some '/')
    (hnames : ∀ name ∈ names, name ≠ [] ∧ '/' ∉ name) :
    (ctx ++ names.flatMap ('/' :: ·)).getLast? ≠ some '/' := by
  rcases List.eq_nil_or_concat' names with rfl | ⟨names, name, rfl⟩
  · simpa using hctx
  · obtain ⟨hne, hslash⟩ := hnames name (by simp)
    have happ : ctx ++ (names ++ [name]).flatMap ('/' :: ·)
        = (ctx ++ names.flatMap ('/' :: ·) ++ ['/']) ++ name := by simp
    rw [happ]
    exact getLast?_append_ne hne hslash

/-- What is behind the directory begins with one slash and ends with none. -/
theorem stripSlashes_names {names : List Str}
    (hnames : ∀ name ∈ names ++ [f], name ≠ [] ∧ '/' ∉ name) :
    '/' :: stripSlashes (names.flatMap ('/' :: ·) ++ '/' :: f)
      = names.flatMap ('/' :: ·) ++ '/' :: f := by
  obtain ⟨hne, hslash⟩ := hnames f (by simp)
  obtain ⟨c, r, hr, hc⟩ :
      ∃ c r, names.flatMap ('/' :: ·) ++ '/' :: f = '/' :: c :: r ∧ c ≠ '/' := by
    cases names with
    | nil =>
      obtain ⟨c, f, rfl⟩ := List.exists_cons_of_ne_nil hne
      exact ⟨c, f, rfl, fun hc ↦ hslash (hc ▸ List.mem_cons_self)⟩
    | cons name names =>
      obtain ⟨hname, hslash'⟩ := hnames name (by simp)
      obtain ⟨c, name, rfl⟩ := List.exists_cons_of_ne_nil hname
      exact ⟨c, name ++ (names.flatMap ('/' :: ·) ++ '/' :: f), by simp,
        fun hc ↦ hslash' (hc ▸ List.mem_cons_self)⟩
  have hlast : (c :: r).getLast? ≠ some '/' := by
    have h := getLast?_append_ne (a := names.flatMap ('/' :: ·) ++ ['/']) hne hslash
    rwa [List.append_assoc, List.singleton_append, hr, List.getLast?_cons_cons] at h
  rw [hr, stripSlashes, List.dropWhile_cons_of_pos (by rfl),
    List.dropWhile_cons_of_neg (by simpa using hc), List.rdropWhile_eq_self_iff.mpr]
  intro hl hslash'
  exact hlast (by rw [List.getLast?_eq_some_getLast hl, beq_iff_eq.mp hslash'])

/-- The directory of a name that is put behind a slash. -/
theorem dirname_append {x : Str} (hx : x.getLast? ≠ some '/') (hf : '/' ∉ f) :
    dirname (x ++ '/' :: f) = if x = [] then ['/'] else x := by
  have hsplit := rtakeWhile_append (d := x ++ ['/']) (.inr (by simp)) hf
  rw [List.append_assoc, List.singleton_append] at hsplit
  rw [dirname, hsplit.2]
  by_cases hnil : x = []
  · simp [hnil]
  · have hlast : ¬ (x.getLast hnil == '/') = true := fun h ↦
      hx (by rw [List.getLast?_eq_some_getLast hnil, beq_iff_eq.mp h])
    have hall : ¬ (x ++ ['/']).all (· == '/') = true := fun h ↦
      hlast (List.all_eq_true.mp h _ (List.mem_append_left _ (List.getLast_mem hnil)))
    rw [if_neg hall, if_neg hnil, List.rdropWhile_concat_pos _ _ _ (by rfl)]
    exact List.rdropWhile_eq_self_iff.mpr fun _ ↦ hlast

/-- **A path as it is printed**: where another name is put, and what the label is then. -/
theorem Printed.spec (h : Printed ctx p) : basename p ≠ [] ∧ ∃ x, p = x ++ '/' :: basename p ∧
    (∀ f, '/' ∉ f → nxpath f p = x ++ '/' :: f) ∧
      ∀ f, f ≠ [] → '/' ∉ f → ctx ++ '/' :: stripPrefix (x ++ '/' :: f) ctx = x ++ '/' :: f := by
  obtain ⟨hctx, names, filename, hnames, rfl⟩ := h
  obtain ⟨hne, hslash⟩ := hnames filename (by simp)
  have hdirs : ∀ name ∈ names, name ≠ [] ∧ '/' ∉ name := fun name hname ↦
    hnames name (List.mem_append_left _ hname)
  have hlast := getLast?_names_ne hctx hdirs
  have hbase : basename (ctx ++ names.flatMap ('/' :: ·) ++ '/' :: filename) = filename := by
    rw [← List.singleton_append, ← List.append_assoc]
    exact basename_append (.inr (by simp)) hslash
  rw [hbase]
  refine ⟨hne, ctx ++ names.flatMap ('/' :: ·), rfl, fun f hf ↦ ?_, fun f hf hf' ↦ ?_⟩
  · rw [nxpath, join_eq _ hf, dirname_append hlast hslash]
    generalize ctx ++ names.flatMap ('/' :: ·) = x at hlast
    by_cases hx : x = []
    · simp [hx]
    · simp [hx, hlast]
  · have hnames' : ∀ name ∈ names ++ [f], name ≠ [] ∧ '/' ∉ name := fun name hname ↦
      (List.mem_append.mp hname).elim (hdirs name) fun h ↦ List.mem_singleton.mp h ▸ ⟨hf, hf'⟩
    rw [stripPrefix, if_pos (by simp), List.append_assoc, List.drop_left,
      stripSlashes_names hnames']

/-- The label of a path. -/
theorem Printed.label (h : Printed ctx p) : ctx ++ '/' :: stripPrefix p ctx = p := by
  obtain ⟨hne, x, hp, -, hlabel⟩ := h.spec
  have := hlabel (basename p) hne (not_mem_basename p)
  rwa [← hp] at this

/-- The label of the path that a file gets. -/
theorem Printed.newLabel (h : Printed ctx p) (hne : f ≠ []) (hf : '/' ∉ f) :
    ctx ++ '/' :: stripPrefix (nxpath f p) ctx = nxpath f p := by
  obtain ⟨-, x, -, hnx, hlabel⟩ := h.spec
  rw [hnx f hf]
  exact hlabel f hne hf

theorem length_numbered (f : Str) (i : ℕ) : f.length < (numbered (nameParts f) i).length := by
  have hparts := congrArg List.length (nameParts_append f)
  have hdigits : 0 < (Nat.toDigits 10 i).length := Nat.length_toDigits_pos
  simp only [numbered, List.length_append] at hparts ⊢
  omega

/-- A name that a file got is not empty. -/
theorem name_ne_nil (he : e ∈ file2path paths) (h : Printed ctx e.2) : e.1 ≠ [] := by
  rcases name_cases he with hname | ⟨i, hname⟩
  · rw [hname]
    exact h.spec.1
  · have := length_numbered (basename e.2) i
    rw [← hname] at this
    exact List.ne_nil_of_length_pos (by omega)

theorem notMem_name (he : e ∈ file2path paths) : '/' ∉ e.1 := (named_file2path paths).slash e he

/-- **The new label is longer.** -/
theorem length_label_lt (he : e ∈ file2path paths) (h : Printed ctx e.2)
    (hne : e.2 ≠ nxpath e.1 e.2) :
    (stripPrefix e.2 ctx).length < (stripPrefix (nxpath e.1 e.2) ctx).length := by
  have hold := congrArg List.length h.label
  have hnew := congrArg List.length (h.newLabel (name_ne_nil he h) (notMem_name he))
  obtain ⟨-, x, hp, hnx, -⟩ := h.spec
  have hnx := hnx e.1 (notMem_name he)
  rcases name_cases he with hname | ⟨i, hname⟩
  · exact absurd (by rw [hnx, hname, ← hp]) hne
  · have hnum := length_numbered (basename e.2) i
    have hlen := congrArg List.length hp
    rw [← hname] at hnum
    rw [hnx] at hnew ⊢
    simp only [List.length_append, List.length_cons] at hold hnew hlen
    omega

/-- **No two files have the same new label.** -/
theorem newLabel_inj (he : e ∈ file2path paths) (he' : e' ∈ file2path paths)
    (h : Printed ctx e.2) (h' : Printed ctx e'.2)
    (heq : stripPrefix (nxpath e.1 e.2) ctx = stripPrefix (nxpath e'.1 e'.2) ctx) : e = e' := by
  have hnew := h.newLabel (name_ne_nil he h) (notMem_name he)
  rw [heq, h'.newLabel (name_ne_nil he' h') (notMem_name he')] at hnew
  have hbase := congrArg basename hnew
  rw [nxpath, nxpath, basename_join _ (notMem_name he), basename_join _ (notMem_name he')] at hbase
  exact List.inj_on_of_nodup_map (named_file2path paths).nodup he he' hbase.symm

/-- No two files have the same old label. -/
theorem label_inj {p' : Str} (h : Printed ctx p) (h' : Printed ctx p')
    (heq : stripPrefix p ctx = stripPrefix p' ctx) : p = p' := by
  rw [← h.label, heq, h'.label]

theorem map_fst_conversions_sublist (d : List (Str × Str)) :
    ((conversions d).map Prod.fst).Sublist (d.map Prod.snd) := by
  induction d with
  | nil => exact .slnil
  | cons e d ih =>
    rw [conversions, List.filterMap_cons, List.map_cons]
    split
    · exact ih.cons e.2
    · rename_i c h
      obtain ⟨-, rfl⟩ : e.2 ≠ nxpath e.1 e.2 ∧ (e.2, nxpath e.1 e.2) = c := by simpa using h
      exact ih.cons_cons e.2

/-- Each file that is renamed has its entry. -/
theorem mem_includeConversions_of (hpaths : paths.Nodup) (h : ∀ p ∈ paths, Printed ctx p)
    (he : e ∈ file2path paths) (hne : e.2 ≠ nxpath e.1 e.2) :
    (stripPrefix e.2 ctx, stripPrefix (nxpath e.1 e.2) ctx) ∈ includeConversions ctx paths := by
  have hsub := map_fst_conversions_sublist (file2path paths)
  rw [map_snd_file2path] at hsub
  have hmap : (labels ctx (conversions (file2path paths))).map Prod.fst
      = ((conversions (file2path paths)).map Prod.fst).map (stripPrefix · ctx) := by
    rw [labels, List.map_map, List.map_map]
    rfl
  have hnodup : ((labels ctx (conversions (file2path paths))).map Prod.fst).Nodup := by
    rw [hmap]
    exact (hpaths.sublist hsub).map_on fun p hp p' hp' heq ↦
      label_inj (h p (hsub.subset hp)) (h p' (hsub.subset hp')) heq
  rw [includeConversions, foldl_setItem_of_nodup (by simpa using hnodup), List.nil_append, labels]
  exact List.mem_map.mpr ⟨_, mem_conversions.mpr ⟨e, he, hne, rfl⟩, rfl⟩

end Scripts
end Cppkg
