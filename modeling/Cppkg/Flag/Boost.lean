import Cppkg.Fmts.Trim
import Mathlib.Data.Finset.Dedup
import Mathlib.Data.Finset.Image

/-!
# What `flag` uses of Boost.Program_options

The library is not part of the repository.  `Boost` is what of it the code relies on: that an option
is looked up by its name, that a lookup with more than one answer throws `ambiguous_option`, and
that an option that is added shows in what is printed.

A parser looks options up, and decides by what it is told what to look up next; that is all it sees
of the description, except for the options that it has to do something about even if no argument
names them, because they are required or have a default.

`run_copies` says what becomes of a parser if an option is in the description more than once.
-/

set_option autoImplicit false

namespace Cppkg
namespace Flag

/-- `opt::option_description`; `σ` is `opt::value_semantic`. -/
structure OptionDescription (σ : Type) where
  name : Str
  semantic : σ
  description : Str

/-- `opt::options_description`. -/
structure OptionsDescription (σ : Type) where
  caption : Str
  options : List (OptionDescription σ)

namespace OptionsDescription

variable {σ : Type}

/-- Add options one by one, as the object that `add_options` returns does. -/
def addOptions (self : OptionsDescription σ) (options : List (OptionDescription σ)) :
    OptionsDescription σ :=
  { self with options := self.options ++ options }

/-- Add the options of another description. -/
def add (self desc : OptionsDescription σ) : OptionsDescription σ :=
  self.addOptions desc.options

end OptionsDescription

/-- `opt::error`.  An error stands for its text, `what()`. -/
inductive Error
  /-- The name that was looked up, and the options that it may be. -/
  | ambiguousOption (name : Str) (alternatives : Finset Str)
  | other (what : Str)
  deriving DecidableEq

/-- How well a name matches an option. -/
inductive MatchResult
  | noMatch
  | fullMatch
  | approximateMatch
  deriving DecidableEq

/-- Parse arguments into `V`, an `opt::variables_map`; `ε` is what is thrown that is not an
`opt::error`. -/
inductive Parser (σ V ε : Type)
  | done (vars : V)
  | fail (what : Str)
  | throws (e : ε)
  /-- Look up a name, or what it may be an abbreviation of. -/
  | find (name : Str) (approx : Bool) (next : Option (OptionDescription σ) → Parser σ V ε)

/-- How parsing ends. -/
inductive Parsed (V ε : Type)
  | stored (vars : V)
  | failed (e : Error)
  | thrown (e : ε)

/-! ## Lookups -/

section lookup

variable {σ : Type}

/-- The only option there is to pick. -/
def pick (name : Str) : List (OptionDescription σ) → Except Error (Option (OptionDescription σ))
  | [] => .ok none
  | [o] => .ok (some o)
  | options => .error (.ambiguousOption name (options.map (·.name)).toFinset)

/-- A lookup, if names are matched by `matcher`: an option whose name it is, or else one that it may
be an abbreviation of. -/
def lookup (matcher : Str → Str → Bool → MatchResult) (options : List (OptionDescription σ))
    (name : Str) (approx : Bool) : Except Error (Option (OptionDescription σ)) :=
  let fullMatches := options.filter fun o ↦ matcher o.name name approx = .fullMatch
  let approximateMatches := options.filter fun o ↦ matcher o.name name approx = .approximateMatch
  if fullMatches = [] then pick name approximateMatches else pick name fullMatches

end lookup

/-- What the code relies on. -/
structure Boost where
  /-- `opt::value_semantic` -/
  Semantic : Type
  /-- `opt::positional_options_description` -/
  Positional : Type
  /-- `opt::variables_map` -/
  Variables : Type
  /-- What is thrown that is not an `opt::error`. -/
  Exn : Type
  /-- The semantic of an option that is declared by a name and a description. -/
  untyped : Semantic
  /-- The option is required or has a default. -/
  eager : Semantic → Bool
  eager_untyped : eager untyped = false
  /-- `option_description::match` -/
  matcher : Str → Str → Bool → MatchResult
  /-- `options_description::find` -/
  find : List (OptionDescription Semantic) → Str → Bool →
    Except Error (Option (OptionDescription Semantic))
  find_eq : ∀ options name approx, find options name approx = lookup matcher options name approx
  /-- `command_line_parser::run` on the arguments behind the program, and `store`: a parser that is
  told the positional arguments, the options that are required or have a default, and what the
  variables are. -/
  store : List Str → Positional → List (OptionDescription Semantic) → Variables →
    Parser Semantic Variables Exn
  /-- `notify`: nothing, the text of an `opt::error`, or another exception. -/
  notify : Variables → Except (Str ⊕ Exn) Unit
  /-- `variables_map::count` -/
  count : Variables → Str → ℕ
  /-- `operator<<` of an `options_description` -/
  print : OptionsDescription Semantic → Str
  print_length_lt : ∀ desc option, (print desc).length < (print (desc.addOptions [option])).length
  /-- The object that nothing was added to. -/
  noPositional : Positional
  /-- `positional_options_description::add` -/
  add : Positional → Str → ℤ → Positional
  maxTotalCount : Positional → ℕ
  nameForPosition : Positional → ℕ → Str
  /-- `boost::filesystem::path(p).stem().string()` -/
  stem : Str → Str

section copies

variable {σ : Type} {matcher : Str → Str → Bool → MatchResult} {name : Str} {approx : Bool}
variable {os os' : List (OptionDescription σ)} {o : OptionDescription σ}

/-! ## Copies of an option -/

theorem pick_eq_error {l : List (OptionDescription σ)} (h : 2 ≤ l.length) :
    pick name l = .error (.ambiguousOption name (l.map (·.name)).toFinset) := by
  match l, h with
  | _ :: _ :: _, _ => rfl

/-- What is ambiguous is the name, and there is more than one option to pick from. -/
theorem of_pick_eq_error {l : List (OptionDescription σ)} {name' : Str} {alternatives : Finset Str}
    (h : pick name l = .error (.ambiguousOption name' alternatives)) :
    name = name' ∧ 2 ≤ l.length ∧ (l.map (·.name)).toFinset = alternatives := by
  match l, h with
  | o :: o' :: l, h =>
    simp only [pick, Except.error.injEq, Error.ambiguousOption.injEq] at h
    exact ⟨h.1, by simp, h.2⟩

theorem pick_eq_some {l : List (OptionDescription σ)} : pick name l = .ok (some o) ↔ l = [o] := by
  match l with
  | [] => simp [pick]
  | [o'] => simp [pick]
  | _ :: _ :: _ => simp [pick]

/-- If one of the options to pick from is there in copies, the pick is the same, or it was that
option. -/
theorem pick_copies (os os' : List (OptionDescription σ)) (o : OptionDescription σ) (k : ℕ) :
    (pick name (os ++ o :: os') = .ok (some o) ∧
      pick name (os ++ List.replicate (k + 2) o ++ os')
        = .error (.ambiguousOption name {o.name})) ∨
    (pick name (os ++ o :: os') ≠ .ok (some o) ∧
      pick name (os ++ List.replicate (k + 2) o ++ os') = pick name (os ++ o :: os')) := by
  by_cases h : os = [] ∧ os' = []
  · obtain ⟨rfl, rfl⟩ := h
    refine .inl ⟨rfl, ?_⟩
    rw [pick_eq_error (by simp)]
    simp [List.toFinset_replicate_of_ne_zero]
  · have hlen : 2 ≤ (os ++ o :: os').length := by
      rw [List.length_append, List.length_cons]
      rcases not_and_or.mp h with h | h
      all_goals
        have := List.length_pos_iff.mpr h
        omega
    have hlen' : 2 ≤ (os ++ List.replicate (k + 2) o ++ os').length := by
      simp only [List.length_append, List.length_replicate]
      omega
    refine .inr ⟨fun hc ↦ ?_, ?_⟩
    · rw [pick_eq_some.mp hc] at hlen
      exact absurd hlen (by simp)
    · rw [pick_eq_error hlen, pick_eq_error hlen']
      congr 2
      ext x
      simp [or_left_comm]

/-- Copies that do not pass are not there, and the others all are. -/
theorem filter_copies (q : OptionDescription σ → Bool) (os os' : List (OptionDescription σ))
    (o : OptionDescription σ) (n : ℕ) : (os ++ List.replicate n o ++ os').filter q
      = os.filter q ++ (if q o = true then List.replicate n o else []) ++ os'.filter q := by
  rw [List.filter_append, List.filter_append, List.filter_replicate]

/-- An option that is picked from those that pass does so. -/
theorem of_pick_filter {q : OptionDescription σ → Bool}
    (h : pick name (os.filter q) = .ok (some o)) : q o = true := by
  have hmem : o ∈ os.filter q := by
    rw [pick_eq_some.mp h]
    exact List.mem_singleton.mpr rfl
  exact (List.mem_filter.mp hmem).2

/-- A lookup picks from the options that match well enough. -/
theorem lookup_eq_pick (matcher : Str → Str → Bool → MatchResult)
    (os : List (OptionDescription σ)) (name : Str) (approx : Bool) : ∃ r ≠ .noMatch,
      lookup matcher os name approx
        = pick name (os.filter fun o ↦ matcher o.name name approx = r) := by
  rw [lookup]
  split
  · exact ⟨.approximateMatch, by simp, rfl⟩
  · exact ⟨.fullMatch, by simp, rfl⟩

/-- The option that answers a lookup is the only one that matches as well as it does. -/
theorem filter_of_lookup {matcher : Str → Str → Bool → MatchResult}
    (h : lookup matcher os name approx = .ok (some o)) : matcher o.name name approx ≠ .noMatch ∧
      os.filter (fun o' ↦ matcher o'.name name approx = matcher o.name name approx) = [o] := by
  obtain ⟨r, hr, hpick⟩ := lookup_eq_pick matcher os name approx
  rw [hpick] at h
  have hlist := pick_eq_some.mp h
  have hmem : o ∈ os.filter fun o ↦ matcher o.name name approx = r := by
    rw [hlist]
    exact List.mem_singleton.mpr rfl
  obtain rfl : matcher o.name name approx = r := by simpa using (List.mem_filter.mp hmem).2
  exact ⟨hr, hlist⟩

/-- **Copies of an option** make no difference to a lookup, unless it is answered by that option;
then it is ambiguous. -/
theorem lookup_copies (matcher : Str → Str → Bool → MatchResult) (name : Str) (approx : Bool)
    (os os' : List (OptionDescription σ)) (o : OptionDescription σ) (k : ℕ) :
    (lookup matcher (os ++ o :: os') name approx = .ok (some o) ∧
      lookup matcher (os ++ List.replicate (k + 2) o ++ os') name approx
        = .error (.ambiguousOption name {o.name})) ∨
    (lookup matcher (os ++ o :: os') name approx ≠ .ok (some o) ∧
      lookup matcher (os ++ List.replicate (k + 2) o ++ os') name approx
        = lookup matcher (os ++ o :: os') name approx) := by
  have hone : os ++ o :: os' = os ++ List.replicate 1 o ++ os' := by simp
  cases hm : matcher o.name name approx with
  | noMatch =>
    refine .inr ⟨fun hc ↦ (filter_of_lookup hc).1 hm, ?_⟩
    rw [hone, lookup, lookup]
    simp [hm]
  | fullMatch =>
    rw [hone, lookup, lookup]
    simp only [filter_copies, hm, decide_true, if_true, reduceCtorEq, decide_false,
      Bool.false_eq_true, if_false]
    have hne : ∀ n, List.filter (fun o ↦ decide (matcher o.name name approx = .fullMatch)) os ++
        List.replicate (n + 1) o ++
          List.filter (fun o ↦ decide (matcher o.name name approx = .fullMatch)) os' ≠ [] := by
      simp
    rw [if_neg (hne 0), if_neg (hne (k + 1))]
    simpa using pick_copies _ _ o k
  | approximateMatch =>
    by_cases hfull : (os ++ os').filter (fun o ↦ matcher o.name name approx = .fullMatch) = []
    · rw [List.filter_append] at hfull
      rw [hone, lookup, lookup]
      simp only [filter_copies, hm, decide_true, if_true, reduceCtorEq, decide_false,
        Bool.false_eq_true, if_false, List.append_nil, hfull]
      simpa using pick_copies _ _ o k
    -- there is an option of that name, which the copies are not in the way of
    · refine .inr ⟨fun hc ↦ ?_, ?_⟩
      · rw [lookup, hone] at hc
        simp only [filter_copies, hm, reduceCtorEq, decide_false, Bool.false_eq_true, if_false,
          List.append_nil, ← List.filter_append, if_neg hfull] at hc
        have := of_pick_filter hc
        simp [hm] at this
      · rw [hone, lookup, lookup]
        rw [List.filter_append] at hfull
        simp [hm, hfull]

/-- A name that is answered by an option is not ambiguous between options of that one's name. -/
theorem lookup_ne_versions {matcher : Str → Str → Bool → MatchResult}
    (h : lookup matcher os name approx = .ok (some o)) (approx' : Bool) :
    lookup matcher os name approx' ≠ .error (.ambiguousOption name {o.name}) := by
  obtain ⟨-, hone⟩ := filter_of_lookup h
  obtain ⟨r, -, hpick⟩ := lookup_eq_pick matcher os name approx'
  rw [hpick]
  intro hc
  generalize hl : os.filter (fun o ↦ matcher o.name name approx' = r) = l at hc
  obtain ⟨-, hlen, hnames⟩ := of_pick_eq_error hc
  have hall : l.filter (fun o' ↦ matcher o'.name name approx = matcher o.name name approx) = l := by
    rw [List.filter_eq_self]
    intro o' ho'
    have hmem : o'.name ∈ (l.map (·.name)).toFinset := by
      rw [List.mem_toFinset]
      exact List.mem_map_of_mem ho'
    rw [hnames, Finset.mem_singleton] at hmem
    simp [hmem]
  have hsub : l.Sublist [o] := by
    rw [← hall, ← hone]
    exact (hl ▸ List.filter_sublist).filter _
  exact absurd hsub.length_le (by simp; omega)

end copies

/-! ## Parsers with copies of an option -/

namespace Boost

variable (b : Boost)

/-- Run a parser on a description. -/
def run (options : List (OptionDescription b.Semantic)) :
    Parser b.Semantic b.Variables b.Exn → Parsed b.Variables b.Exn
  | .done vars => .stored vars
  | .fail what => .failed (.other what)
  | .throws e => .thrown e
  | .find name approx next =>
    match b.find options name approx with
    | .ok found => run options (next found)
    | .error e => .failed e

/-- The parser comes to look up a name that is answered by `o`. -/
def Asks (options : List (OptionDescription b.Semantic)) (o : OptionDescription b.Semantic) :
    Parser b.Semantic b.Variables b.Exn → Prop
  | .done _ => False
  | .fail _ => False
  | .throws _ => False
  | .find name approx next =>
    match b.find options name approx with
    | .ok found => found = some o ∨ Asks options o (next found)
    | .error _ => False

variable {b} {os os' : List (OptionDescription b.Semantic)} {o : OptionDescription b.Semantic}

/-- Once `o` has answered a name, that name is never ambiguous between options of the name of
`o`. -/
theorem run_ne_versions {name : Str} {approx : Bool} (h : b.find os name approx = .ok (some o))
    (p : Parser b.Semantic b.Variables b.Exn) :
    b.run os p ≠ .failed (.ambiguousOption name {o.name}) := by
  induction p with
  | done vars => simp [run]
  | fail what => simp [run]
  | throws e => simp [run]
  | find name' approx' next ih =>
    rw [run]
    split
    · exact ih _
    · rename_i e he
      intro hc
      obtain rfl : e = .ambiguousOption name {o.name} := by simpa using hc
      rw [b.find_eq] at h he
      obtain ⟨r, -, hpick⟩ := lookup_eq_pick b.matcher os name' approx'
      obtain rfl : name' = name := (of_pick_eq_error (hpick.symm.trans he)).1
      exact lookup_ne_versions h approx' he

/-- **A parser with copies of an option.**  If it does not ask for that option it does the same, and
otherwise it fails with an error that it would not have failed with. -/
theorem run_copies (os os' : List (OptionDescription b.Semantic)) (o : OptionDescription b.Semantic)
    (k : ℕ) (p : Parser b.Semantic b.Variables b.Exn) :
    (¬ b.Asks (os ++ o :: os') o p ∧
      b.run (os ++ List.replicate (k + 2) o ++ os') p = b.run (os ++ o :: os') p) ∨
    (b.Asks (os ++ o :: os') o p ∧ ∃ name,
      b.run (os ++ List.replicate (k + 2) o ++ os') p
        = .failed (.ambiguousOption name {o.name}) ∧
      b.run (os ++ o :: os') p ≠ .failed (.ambiguousOption name {o.name})) := by
  induction p with
  | done vars => exact .inl ⟨id, rfl⟩
  | fail what => exact .inl ⟨id, rfl⟩
  | throws e => exact .inl ⟨id, rfl⟩
  | find name approx next ih =>
    rcases lookup_copies b.matcher name approx os os' o k with ⟨h, hcopies⟩ | ⟨h, hcopies⟩
    · rw [← b.find_eq] at h hcopies
      refine .inr ⟨?_, name, ?_, run_ne_versions h _⟩
      · rw [Asks, h]
        exact .inl rfl
      · rw [run, hcopies]
    · rw [← b.find_eq, ← b.find_eq] at hcopies
      rw [← b.find_eq] at h
      rw [Asks, run, run, hcopies]
      cases hfind : b.find (os ++ o :: os') name approx with
      | error e => exact .inl ⟨id, rfl⟩
      | ok found =>
        have hne : found ≠ some o := by
          rintro rfl
          exact h hfind
        simpa only [hne, false_or] using ih found

/-! ## An instance

It knows long options without values, and no other exceptions. -/

/-- What begins with two hyphens is the name of an option, or an abbreviation. -/
def plainStore : List Str → List Str → Parser Unit (List Str) Empty
  | [], vars => .done vars
  | arg :: argv, vars =>
    if "--".toList <+: arg then
      .find (arg.drop 2) true fun
        | some o => plainStore argv (vars ++ [o.name])
        | none => .fail ("unrecognised option '".toList ++ arg ++ ['\''])
    else .fail "too many positional options have been specified on the command line".toList

def plainMatcher (option name : Str) (approx : Bool) : MatchResult :=
  if option = name then .fullMatch
  else if approx = true ∧ name <+: option then .approximateMatch
  else .noMatch

/-- The variables are the names of the options that were given.  Positional arguments have names,
and one for all those that are left. -/
def plain : Boost where
  Semantic := Unit
  Positional := List Str × Str
  Variables := List Str
  Exn := Empty
  untyped := ()
  eager _ := false
  eager_untyped := rfl
  matcher := plainMatcher
  find := lookup plainMatcher
  find_eq _ _ _ := rfl
  store argv _ _ vars := plainStore argv vars
  notify _ := .ok ()
  count vars name := vars.count name
  print desc := desc.caption ++ ":\n".toList ++ desc.options.flatMap fun o ↦
    "  --".toList ++ o.name ++ [' '] ++ o.description ++ ['\n']
  print_length_lt desc option := by simp [OptionsDescription.addOptions]
  noPositional := ([], [])
  add pos name maxcount :=
    if maxcount = -1 then (pos.1, name) else (pos.1 ++ List.replicate maxcount.toNat name, pos.2)
  maxTotalCount pos := if pos.2 = [] then pos.1.length else UInt32.size - 1
  nameForPosition pos i := pos.1.getD i pos.2
  stem p := p

end Boost

end Flag
end Cppkg
