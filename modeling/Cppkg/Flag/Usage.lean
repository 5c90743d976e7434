import Cppkg.Flag.FlagSet
import Mathlib.Data.List.GetD

/-!
# What the usage says, from `flag/src/flag.cpp`

`parse` answers a request for help with a usage, which is to list the positional arguments in
their order.  One of them may be there any number of times, after all others; Boost has no end of
names then, and the loop of `make_usage_string` goes on until it meets the name of that one.  So it
ends too early if another argument has the same name.

`parse_help` has the text, whatever was called before, and says when it is complete.
-/

set_option autoImplicit false

namespace Cppkg
namespace Flag

/-! ## Positional arguments -/

section names

variable (args : List (Str × ℤ))

/-- The names of the positions, for arguments with a name and how often each may be there. -/
def argNames : List Str :=
  args.flatMap fun a ↦ if a.2 = -1 then [] else List.replicate a.2.toNat a.1

/-- The names of the arguments that may be there any number of times. -/
def trailings : List Str := args.filterMap fun a ↦ if a.2 = -1 then some a.1 else none

/-- The name of the positions that are left. -/
def trailing : Str := (trailings args).headD []

/-- Arguments that may be added, one after the other: at most one any number of times, and so few
that positions are numbers. -/
structure Allowed : Prop where
  count : ∀ a ∈ args, a.2 = -1 ∨ 0 ≤ a.2
  trailings : (trailings args).length ≤ 1
  positions : (argNames args).length < unsignedMax

end names

/-- **What is documented of `positional_options_description`**: a position has the name that was
added for it, and those after the last one have the trailing name, if there is one. -/
structure Positions (b : Boost) where
  names : b.Positional → List Str
  /-- Empty if there is none. -/
  trailing : b.Positional → Str
  names_new : names b.noPositional = []
  trailing_new : trailing b.noPositional = []
  names_add : ∀ pos name (n : ℕ), names (b.add pos name n) = names pos ++ List.replicate n name
  trailing_add : ∀ pos name (n : ℕ), trailing (b.add pos name n) = trailing pos
  names_addTrailing : ∀ pos name, trailing pos = [] → names (b.add pos name (-1)) = names pos
  trailing_addTrailing : ∀ pos name, trailing pos = [] → trailing (b.add pos name (-1)) = name
  maxTotalCount_eq : ∀ pos, (names pos).length < unsignedMax → b.maxTotalCount pos
    = if trailing pos = [] then (names pos).length else unsignedMax
  nameForPosition_eq : ∀ pos i, i < b.maxTotalCount pos →
    b.nameForPosition pos i = (names pos).getD i (trailing pos)

namespace Positions

variable {b : Boost} (p : Positions b)

/-- **The positions after arguments were added.** -/
theorem add_args (args : List (Str × ℤ)) (pos : b.Positional)
    (hcount : ∀ a ∈ args, a.2 = -1 ∨ 0 ≤ a.2) (hone : (trailings args).length ≤ 1)
    (hnone : p.trailing pos = [] ∨ trailings args = []) :
    p.names (args.foldl (fun pos a ↦ b.add pos a.1 a.2) pos) = p.names pos ++ argNames args ∧
    p.trailing (args.foldl (fun pos a ↦ b.add pos a.1 a.2) pos)
      = (trailings args).headD (p.trailing pos) := by
  induction args generalizing pos with
  | nil => simp [argNames, trailings]
  | cons a args ih =>
    obtain ⟨name, maxcount⟩ := a
    have hcount' : ∀ a ∈ args, a.2 = -1 ∨ 0 ≤ a.2 := fun a ha ↦ hcount a (.tail _ ha)
    rcases hcount (name, maxcount) (.head _) with h | h
    · obtain rfl : maxcount = -1 := h
      have hcons : trailings ((name, -1) :: args) = name :: trailings args := rfl
      rw [hcons] at hone hnone ⊢
      have hnil : trailings args = [] := List.length_eq_zero_iff.mp (by simpa using hone)
      have hpos : p.trailing pos = [] := hnone.resolve_right (by simp)
      obtain ⟨hnames, htrailing⟩ := ih (b.add pos name (-1)) hcount' (by simp [hnil]) (.inr hnil)
      rw [p.names_addTrailing pos name hpos] at hnames
      rw [p.trailing_addTrailing pos name hpos, hnil] at htrailing
      exact ⟨hnames, htrailing⟩
    · obtain ⟨n, rfl⟩ := Int.eq_ofNat_of_zero_le h
      have hcons : trailings ((name, (n : ℤ)) :: args) = trailings args := by
        simp [trailings]
      have hnames' : argNames ((name, (n : ℤ)) :: args)
          = List.replicate n name ++ argNames args := by
        simp [argNames]
      rw [hcons] at hone hnone ⊢
      rw [hnames', ← List.append_assoc, ← p.names_add]
      rw [← p.trailing_add pos name n] at hnone ⊢
      exact ih (b.add pos name n) hcount' hone hnone

end Positions

/-- The positions of the instance. -/
def plainPositions : Positions .plain where
  names pos := pos.1
  trailing pos := pos.2
  names_new := rfl
  trailing_new := rfl
  names_add pos name n := by
    have h : (n : ℤ) ≠ -1 := by omega
    simp [Boost.plain, h]
  trailing_add pos name n := by
    have h : (n : ℤ) ≠ -1 := by omega
    simp [Boost.plain, h]
  names_addTrailing _ _ _ := rfl
  trailing_addTrailing _ _ _ := rfl
  maxTotalCount_eq _ _ := rfl
  nameForPosition_eq _ _ _ := rfl

/-! ## The loop -/

/-- The loop is over when it has met `last`. -/
theorem usageNames_last (nameForPosition : ℕ → Str) (last usage : Str) (fuel i : ℕ) :
    usageNames nameForPosition last fuel i (last, usage) = (last, usage) := by
  cases fuel with
  | zero => rfl
  | succ fuel => rw [usageNames, if_neg (not_not_intro rfl)]

/-- **The loop** over names that end in `last`: it writes them up to the first that is `last`. -/
theorem usageNames_eq {nameForPosition : ℕ → Str} {last : Str} {names : List Str} {fuel i : ℕ}
    {arg : Str} (usage : Str) (hfuel : names.length < fuel) (harg : arg ≠ last)
    (hnames : ∀ j ≤ names.length, nameForPosition (i + j) = names.getD j last) :
    usageNames nameForPosition last fuel i (arg, usage)
      = (last, usage ++ (names.takeWhile (· ≠ last) ++ [last]).flatMap (' ' :: ·)) := by
  induction names generalizing fuel i arg usage with
  | nil =>
    obtain ⟨fuel, rfl⟩ := Nat.exists_eq_add_of_lt hfuel
    have hi : nameForPosition i = last := hnames 0 (Nat.le_refl _)
    rw [usageNames, if_pos harg, hi, usageNames_last]
    simp
  | cons name names ih =>
    obtain ⟨k, rfl⟩ := Nat.exists_eq_add_of_lt hfuel
    have hi : nameForPosition i = name := hnames 0 (Nat.zero_le _)
    rw [usageNames, if_pos harg, hi]
    by_cases hname : name = last
    · rw [hname, usageNames_last, List.takeWhile_cons_of_neg (by simp)]
      simp
    · rw [ih _ (by simp; omega) hname, List.takeWhile_cons_of_pos (by simpa using hname)]
      · simp
      · intro j hj
        rw [Nat.add_right_comm, Nat.add_assoc]
        exact hnames (j + 1) (by simpa using hj)

/-- The other loop writes all names. -/
theorem foldl_range_names {nameForPosition : ℕ → Str} {names : List Str} (usage : Str)
    (hnames : ∀ i < names.length, nameForPosition i = names.getD i []) :
    (List.range names.length).foldl (fun usage i ↦ usage ++ ' ' :: nameForPosition i) usage
      = usage ++ names.flatMap (' ' :: ·) := by
  have hmap : (List.range names.length).map (fun i ↦ ' ' :: nameForPosition i)
      = names.map (' ' :: ·) := by
    refine List.ext_getElem (by simp) fun i hi _ ↦ ?_
    rw [List.length_map, List.length_range] at hi
    rw [List.getElem_map, List.getElem_map, List.getElem_range, hnames i hi,
      List.getD_eq_getElem _ _ hi]
  rw [List.foldl_append_eq_append, hmap, List.flatMap_def]

/-! ## The usage -/

/-- The usage that lists these names. -/
def usage {b : Boost} (programName : Str) (names : List Str) (trailing : Str)
    (flagDesc : OptionsDescription b.Semantic) : Str :=
  "usage: ".toList ++ programName ++ [' '] ++
    (if 0 < flagDesc.options.length then "[flags]".toList else []) ++
    names.flatMap (' ' :: ·) ++
    (if trailing = [] then [] else ' ' :: trailing ++ " [".toList ++ trailing ++ "...]".toList) ++
    '\n' :: b.print flagDesc

/-- The names that are listed. -/
def listed (names : List Str) (trailing : Str) : List Str :=
  if trailing = [] then names else names.takeWhile (· ≠ trailing)

/-- **What `make_usage_string` makes.** -/
theorem makeUsageString_eq {b : Boost} (p : Positions b) (programName : Str)
    (flagDesc : OptionsDescription b.Semantic) (pos : b.Positional)
    (hpos : (p.names pos).length < unsignedMax) :
    makeUsageString b programName flagDesc pos
      = usage programName (listed (p.names pos) (p.trailing pos)) (p.trailing pos) flagDesc := by
  have hmax := p.maxTotalCount_eq pos hpos
  have hname := p.nameForPosition_eq pos
  unfold makeUsageString usage listed
  by_cases h : p.trailing pos = []
  · rw [if_pos h] at hmax
    rw [hmax, h] at hname
    simp only [hmax, if_neg hpos.ne, foldl_range_names _ hname, if_pos h, List.append_nil]
    split <;> simp
  · rw [if_neg h] at hmax
    rw [hmax] at hname
    have hlast : b.nameForPosition pos (unsignedMax - 1) = p.trailing pos := by
      rw [hname _ (by omega), List.getD_eq_default _ _ (by omega)]
    have hloop := fun usage ↦ usageNames_eq (i := 0) usage hpos (Ne.symm h) fun j hj ↦
      (congrArg _ (Nat.zero_add j)).trans (hname j (by omega))
    simp only [hmax, if_true, hlast, hloop, if_neg h]
    split <;> simp

theorem listed_isPrefix (names : List Str) (trailing : Str) : listed names trailing <+: names := by
  rw [listed]
  split
  · exact List.prefix_rfl
  · exact List.takeWhile_prefix _

theorem listed_eq_iff (names : List Str) (trailing : Str) :
    listed names trailing = names ↔ trailing = [] ∨ trailing ∉ names := by
  rw [listed]
  split
  · simp [*]
  · rename_i h
    rw [List.takeWhile_eq_self_iff, or_iff_right h]
    exact ⟨fun hall hmem ↦ by simpa using hall _ hmem, fun hmem name hname ↦ by
      simpa using ne_of_mem_of_not_mem hname hmem⟩

/-- Fewer names are a shorter text. -/
theorem eq_of_prefix_of_flatMap {names names' : List Str} (h : names <+: names')
    (heq : names.flatMap (' ' :: ·) = names'.flatMap (' ' :: ·)) : names = names' := by
  obtain ⟨rest, rfl⟩ := h
  rw [List.flatMap_append, List.self_eq_append_right, List.flatMap_eq_nil_iff] at heq
  cases rest with
  | nil => rw [List.append_nil]
  | cons name rest => cases heq name (.head _)

/-- **When the usage is complete**: when no other name is the trailing one. -/
theorem usage_listed_iff {b : Boost} (programName : Str) (names : List Str) (trailing : Str)
    (flagDesc : OptionsDescription b.Semantic) :
    usage programName (listed names trailing) trailing flagDesc
        = usage programName names trailing flagDesc ↔
      trailing = [] ∨ trailing ∉ names := by
  rw [← listed_eq_iff]
  refine ⟨fun h ↦ ?_, fun h ↦ by rw [h]⟩
  unfold usage at h
  have hnames := List.append_cancel_left (List.append_cancel_right (List.append_cancel_right h))
  exact eq_of_prefix_of_flatMap (listed_isPrefix names trailing) hnames

/-! ## Whatever was called before -/

/-- What is called on a set. -/
inductive Op (b : Boost)
  | addFlags (options : List (OptionDescription b.Semantic))
  | addArg (name : Str) (s : b.Semantic) (description : Str) (maxcount : ℤ)
  | parse (call : FlagSet.Call b)

variable {b : Boost}

/-- The positional arguments that are added. -/
def Op.args : Op b → List (Str × ℤ)
  | .addArg name _ _ maxcount => [(name, maxcount)]
  | _ => []

/-- The flags that are added. -/
def Op.flags : Op b → List (OptionDescription b.Semantic)
  | .addFlags options => options
  | .addArg .. => []
  | .parse _ => [help b]

namespace FlagSet

def exec (self : FlagSet b) : Op b → FlagSet b
  | .addFlags options => self.addFlags options
  | .addArg name s description maxcount => self.addArg name s description maxcount
  | .parse c => (self.parse c.argv0 c.argv c.vars).1

/-- **One call**: what it adds. -/
theorem exec_eq (self : FlagSet b) (op : Op b) :
    (self.exec op).flags = self.flags.addOptions op.flags ∧
    (self.exec op).pos = op.args.foldl (fun pos a ↦ b.add pos a.1 a.2) self.pos := by
  cases op with
  | addFlags options => exact ⟨rfl, rfl⟩
  | addArg => exact ⟨by simp [exec, addArg, Op.flags, OptionsDescription.addOptions], rfl⟩
  | parse c => exact ⟨rfl, rfl⟩

/-- **Calls**, in their order. -/
theorem foldl_exec (self : FlagSet b) (ops : List (Op b)) :
    (ops.foldl exec self).flags = self.flags.addOptions (ops.flatMap Op.flags) ∧
    (ops.foldl exec self).pos
      = (ops.flatMap Op.args).foldl (fun pos a ↦ b.add pos a.1 a.2) self.pos := by
  induction ops generalizing self with
  | nil => exact ⟨by simp [OptionsDescription.addOptions], rfl⟩
  | cons op ops ih =>
    obtain ⟨hflags, hpos⟩ := self.exec_eq op
    obtain ⟨ihflags, ihpos⟩ := ih (self.exec op)
    constructor
    · rw [List.foldl_cons, ihflags, hflags, List.flatMap_cons]
      simp [OptionsDescription.addOptions]
    · rw [List.foldl_cons, ihpos, hpos, List.flatMap_cons, List.foldl_append]

/-- **The answer to a request for help**, on a set that anything was called on before, if the
positional arguments are allowed: if the arguments of this call are stored, so that no name among
them is ambiguous, and help is asked for, then `parse` says no and logs the usage with all flags,
the one for help included, and the positional arguments that were added, in their order, up to the
first that has the name of the one that may be there any number of times.  So the usage lists all of
them exactly if that one has a name of its own. -/
theorem parse_help (p : Positions b) (prog : Str) (ops : List (Op b))
    (hargs : Allowed (ops.flatMap Op.args)) (c : Call b) (vars : b.Variables)
    (hrun : b.run ((ops.foldl exec (new b prog)).optionsAfter 1)
      ((ops.foldl exec (new b prog)).parser c.argv c.vars) = .stored vars)
    (hhelp : b.count vars "help".toList ≠ 0) :
    let names := argNames (ops.flatMap Op.args)
    let last := trailing (ops.flatMap Op.args)
    let flags : OptionsDescription b.Semantic :=
      ⟨prog ++ " flags".toList, ops.flatMap Op.flags ++ [help b]⟩
    ((ops.foldl exec (new b prog)).parse c.argv0 c.argv c.vars).2 = .returns false
      (some (.warn (usage (b.stem c.argv0) (listed names last) last flags))) ∧
    (usage (b.stem c.argv0) (listed names last) last flags
      = usage (b.stem c.argv0) names last flags ↔ last = [] ∨ last ∉ names) := by
  intro names last flags
  refine ⟨?_, usage_listed_iff _ _ _ _⟩
  obtain ⟨hflags, hpos⟩ := (new b prog).foldl_exec ops
  obtain ⟨hnames, hlast⟩ := p.add_args (ops.flatMap Op.args) b.noPositional hargs.count
    hargs.trailings (.inl p.trailing_new)
  rw [p.names_new, List.nil_append] at hnames
  rw [p.trailing_new] at hlast
  have hparse := parse_snd (ops.foldl exec (new b prog)) 0 c.argv0 c.argv c.vars
  rw [List.replicate_zero, addFlags_nil, hrun, outcome, if_pos hhelp, hpos, hflags,
    makeUsageString_eq p _ _ _ (by rw [new, hnames]; exact hargs.positions)] at hparse
  rw [hparse, new, hnames, hlast]
  simp [OptionsDescription.addOptions, names, last, flags, trailing]

/-- More files may follow a file and an output. -/
def moreFiles : List (Op .plain) :=
  [.addArg "file".toList () [] 1, .addArg "out".toList () [] 1, .addArg "file".toList () [] (-1)]

/-- The usage does not list the output. -/
theorem parse_help_moreFiles :
    ((moreFiles.foldl exec (new .plain "p".toList)).parse "p".toList ["--help".toList] []).2
      = .returns false (some (.warn ("usage: p [flags] file [file...]\n" ++
          "p flags:\n  --help Display help message\n").toList)) :=
  (parse_help plainPositions "p".toList moreFiles ⟨by decide, by decide, by decide⟩
    ⟨"p".toList, ["--help".toList], []⟩ ["help".toList] rfl (by decide)).1

end FlagSet
end Flag
end Cppkg
