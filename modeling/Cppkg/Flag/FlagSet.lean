import Cppkg.Flag.Boost

/-!
# Sets of flags, from `flag/flag.hpp` and `flag/src/flag.cpp`

`parse` adds the flag `help` to the flags of the set before it looks at the arguments.  So after two
calls the set has the flag twice; a third call that asks for help gets an error instead, because the
name is ambiguous, and one that comes by its help in another way gets a longer message.

`parse_history_iff` says which calls take no notice of the ones before them.
-/

set_option autoImplicit false

namespace Cppkg
namespace Flag

variable {b : Boost}

/-! ## The functions -/

/-- `std::numeric_limits<unsigned>::max()` -/
def unsignedMax : ℕ := UInt32.size - 1

/-- The loop of `makeUsageString` that writes the names of positional arguments up to the `last`
one.  The state is `arg` and `usage`. -/
def usageNames (nameForPosition : ℕ → Str) (last : Str) : ℕ → ℕ → Str × Str → Str × Str
  | 0, _, st => st
  | fuel + 1, i, (arg, usage) =>
    if arg ≠ last then
      let arg := nameForPosition i
      usageNames nameForPosition last fuel (i + 1) (arg, usage ++ ' ' :: arg)
    else (arg, usage)

def makeUsageString (b : Boost) (programName : Str) (flagDesc : OptionsDescription b.Semantic)
    (pos : b.Positional) : Str :=
  let usage := "usage: ".toList
  let usage := usage ++ programName ++ [' ']
  let usage := if 0 < flagDesc.options.length then usage ++ "[flags]".toList else usage
  let n := b.maxTotalCount pos
  let usage :=
    if n = unsignedMax then
      let last := b.nameForPosition pos (unsignedMax - 1)
      let (arg, usage) := usageNames (b.nameForPosition pos) last unsignedMax 0 ([], usage)
      usage ++ " [".toList ++ arg ++ "...]".toList
    else (List.range n).foldl (fun usage i ↦ usage ++ ' ' :: b.nameForPosition pos i) usage
  usage ++ '\n' :: b.print flagDesc

/-- Set of flag description and variable maps. -/
structure FlagSet (b : Boost) where
  /-- Flag options. -/
  flags : OptionsDescription b.Semantic
  /-- Non-flag arguments. -/
  args : OptionsDescription b.Semantic
  /-- Position of non-flag arguments. -/
  pos : b.Positional

/-- The flag that every `parse` adds. -/
def help (b : Boost) : OptionDescription b.Semantic :=
  ⟨"help".toList, b.untyped, "Display help message".toList⟩

/-- What is logged: `logs::warn` of a text, or `logs::error` of the text of an error. -/
inductive Message
  | warn (text : Str)
  | error (e : Error)
  deriving DecidableEq

/-- How a call of `parse` ends. -/
inductive Outcome (ε : Type)
  | returns (ok : Bool) (logged : Option Message)
  | throws (e : ε)
  deriving DecidableEq

namespace FlagSet

def new (b : Boost) (prog : Str) : FlagSet b where
  flags := ⟨prog ++ " flags".toList, []⟩
  args := ⟨prog ++ " arguments".toList, []⟩
  pos := b.noPositional

/-- Add flags with the object that `add_flags` returns. -/
def addFlags (self : FlagSet b) (options : List (OptionDescription b.Semantic)) : FlagSet b :=
  { self with flags := self.flags.addOptions options }

/-- Add positional arguments, in addition to the option's position. -/
def addArg (self : FlagSet b) (name : Str) (s : b.Semantic) (description : Str) (maxcount : ℤ) :
    FlagSet b :=
  { self with
    args := self.args.addOptions [⟨name, s, description⟩]
    pos := b.add self.pos name maxcount }

/-- Return true if arguments are successfully parsed according to args; dump parsed variables to
`vars`.  `argv0` is the program and `argv` what comes behind it. -/
def parse (self : FlagSet b) (argv0 : Str) (argv : List Str) (vars : b.Variables) :
    FlagSet b × Outcome b.Exn :=
  let self := { self with flags := self.flags.addOptions [help b] }
  let allOptions : OptionsDescription b.Semantic := ⟨[], []⟩
  let allOptions := (allOptions.add self.flags).add self.args
  let parser := b.store argv self.pos (allOptions.options.filter fun o ↦ b.eager o.semantic) vars
  (self, match b.run allOptions.options parser with
    | .stored vars =>
      if b.count vars "help".toList ≠ 0 then
        .returns false (some (.warn (makeUsageString b (b.stem argv0) self.flags self.pos)))
      else
        match b.notify vars with
        | .ok () => .returns true none
        | .error (.inl what) => .returns false (some (.error (.other what)))
        | .error (.inr e) => .throws e
    | .failed e => .returns false (some (.error e))
    | .thrown e => .throws e)

end FlagSet

/-! ## The usage -/

/-- With more flags, the usage is another text. -/
theorem makeUsageString_ne (programName : Str) {flagDesc flagDesc' : OptionsDescription b.Semantic}
    (pos : b.Positional) (hopts : flagDesc.options ≠ []) (hopts' : flagDesc'.options ≠ [])
    (h : (b.print flagDesc).length < (b.print flagDesc').length) :
    makeUsageString b programName flagDesc' pos ≠ makeUsageString b programName flagDesc pos := by
  intro hc
  have hlen := congrArg List.length hc
  rw [makeUsageString, makeUsageString, if_pos (List.length_pos_iff.mpr hopts),
    if_pos (List.length_pos_iff.mpr hopts')] at hlen
  simp only [List.length_append, List.length_cons] at hlen
  omega

namespace FlagSet

/-! ## Earlier calls -/

/-- The arguments of a call of `parse`. -/
structure Call (b : Boost) where
  argv0 : Str
  argv : List Str
  vars : b.Variables

/-- The set after calls of `parse`. -/
def parses (self : FlagSet b) (calls : List (Call b)) : FlagSet b :=
  calls.foldl (fun self c ↦ (self.parse c.argv0 c.argv c.vars).1) self

/-- The set with more flags. -/
theorem addFlags_addFlags (self : FlagSet b) (os os' : List (OptionDescription b.Semantic)) :
    (self.addFlags os).addFlags os' = self.addFlags (os ++ os') := by
  simp [addFlags, OptionsDescription.addOptions]

/-- **One call** adds the flag `help`, whatever its arguments. -/
theorem parse_fst (self : FlagSet b) (argv0 : Str) (argv : List Str) (vars : b.Variables) :
    (self.parse argv0 argv vars).1 = self.addFlags [help b] := rfl

/-- **Calls** add a flag `help` each. -/
theorem parses_eq (self : FlagSet b) (calls : List (Call b)) :
    self.parses calls = self.addFlags (List.replicate calls.length (help b)) := by
  induction calls generalizing self with
  | nil => simp [parses, addFlags, OptionsDescription.addOptions]
  | cons c calls ih =>
    have h : self.parses (c :: calls) = (self.addFlags [help b]).parses calls := rfl
    rw [h, ih, addFlags_addFlags, List.length_cons, List.replicate_succ]
    rfl

/-- The number of flags that are called `help`. -/
def helps (self : FlagSet b) : ℕ := self.flags.options.countP fun o ↦ o.name = "help".toList

/-- All options there are after `n` calls. -/
def optionsAfter (self : FlagSet b) (n : ℕ) : List (OptionDescription b.Semantic) :=
  self.flags.options ++ List.replicate n (help b) ++ self.args.options

/-- The parser does not depend on the number of calls. -/
def parser (self : FlagSet b) (argv : List Str) (vars : b.Variables) :
    Parser b.Semantic b.Variables b.Exn :=
  b.store argv self.pos
    ((self.flags.options ++ self.args.options).filter fun o ↦ b.eager o.semantic) vars

/-- What `parse` makes of what was parsed, after `n` calls. -/
def outcome (self : FlagSet b) (n : ℕ) (argv0 : Str) :
    Parsed b.Variables b.Exn → Outcome b.Exn
  | .stored vars =>
    if b.count vars "help".toList ≠ 0 then
      .returns false (some (.warn (makeUsageString b (b.stem argv0)
        (self.flags.addOptions (List.replicate n (help b))) self.pos)))
    else
      match b.notify vars with
      | .ok () => .returns true none
      | .error (.inl what) => .returns false (some (.error (.other what)))
      | .error (.inr e) => .throws e
  | .failed e => .returns false (some (.error e))
  | .thrown e => .throws e

/-- The flag `help` has no default and is not required, so that it is looked at only if it is looked
up. -/
theorem parse_snd (self : FlagSet b) (n : ℕ) (argv0 : Str) (argv : List Str) (vars : b.Variables) :
    ((self.addFlags (List.replicate n (help b))).parse argv0 argv vars).2
      = self.outcome (n + 1) argv0 (b.run (self.optionsAfter (n + 1)) (self.parser argv vars)) := by
  have hopts : self.flags.options ++ List.replicate n (help b) ++ [help b]
      = self.flags.options ++ List.replicate (n + 1) (help b) := by
    rw [List.append_assoc, List.replicate_succ']
  have heager : (self.optionsAfter (n + 1)).filter (fun o ↦ b.eager o.semantic)
      = (self.flags.options ++ self.args.options).filter fun o ↦ b.eager o.semantic := by
    simp [optionsAfter, List.filter_append, help, b.eager_untyped]
  rw [parser, ← heager]
  simp only [parse, addFlags, OptionsDescription.addOptions, OptionsDescription.add, hopts,
    List.nil_append]
  rfl

/-- The arguments ask for help: the parser comes to look up a name that is answered by the flag
`help`, or it ends with variables that have it. -/
def AsksForHelp (self : FlagSet b) (argv : List Str) (vars : b.Variables) : Prop :=
  b.Asks (self.optionsAfter 1) (help b) (self.parser argv vars) ∨
    ∃ vars', b.run (self.optionsAfter 1) (self.parser argv vars) = .stored vars' ∧
      b.count vars' "help".toList ≠ 0

/-- Adding nothing. -/
@[simp] theorem addFlags_nil (self : FlagSet b) : self.addFlags [] = self := by
  simp [addFlags, OptionsDescription.addOptions]

/-- A text with more flags is longer. -/
theorem print_strictMono (self : FlagSet b) : StrictMono fun n ↦
    (b.print (self.flags.addOptions (List.replicate n (help b)))).length := by
  refine strictMono_nat_of_lt_succ fun n ↦ ?_
  have h := b.print_length_lt (self.flags.addOptions (List.replicate n (help b))) (help b)
  simpa [OptionsDescription.addOptions, List.replicate_succ'] using h

/-- What is parsed into variables with `help` in them ends in a usage, which shows the number of
calls. -/
theorem outcome_stored_ne (self : FlagSet b) (k : ℕ) (argv0 : Str) {vars : b.Variables}
    (h : b.count vars "help".toList ≠ 0) :
    self.outcome (k + 2) argv0 (.stored vars) ≠ self.outcome 1 argv0 (.stored vars) := by
  rw [outcome, outcome, if_pos h, if_pos h]
  have hlt : 1 < k + 2 := by omega
  have hne := makeUsageString_ne (b.stem argv0) self.pos
    (by simp [OptionsDescription.addOptions]) (by simp [OptionsDescription.addOptions])
    (self.print_strictMono hlt)
  simpa using hne

/-- What is parsed into variables without it does not. -/
theorem outcome_congr (self : FlagSet b) (n m : ℕ) (argv0 : Str) {parsed : Parsed b.Variables b.Exn}
    (h : ¬ ∃ vars, parsed = .stored vars ∧ b.count vars "help".toList ≠ 0) :
    self.outcome n argv0 parsed = self.outcome m argv0 parsed := by
  cases parsed with
  | stored vars =>
    have hno : ¬ b.count vars "help".toList ≠ 0 := fun hc ↦ h ⟨vars, rfl, hc⟩
    rw [outcome, outcome, if_neg hno, if_neg hno]
  | failed e => rfl
  | thrown e => rfl

/-- A name that is ambiguous is the outcome only of the error that says so. -/
theorem outcome_failed_ne (self : FlagSet b) (n m : ℕ) (argv0 name : Str)
    (alternatives : Finset Str) {parsed : Parsed b.Variables b.Exn}
    (h : parsed ≠ .failed (.ambiguousOption name alternatives)) :
    self.outcome n argv0 (.failed (.ambiguousOption name alternatives))
      ≠ self.outcome m argv0 parsed := by
  intro hc
  cases parsed with
  | stored vars =>
    rw [outcome, outcome] at hc
    split at hc
    · simp at hc
    · split at hc <;> simp at hc
  | failed e =>
    rw [outcome, outcome] at hc
    exact h (by simpa using hc.symm)
  | thrown e => simp [outcome] at hc

/-- **Which calls take no notice of those before them.**  A call of `parse` has the outcome that it
would have had on a set that was never parsed if there was no call before it, or the arguments do
not ask for help; and it leaves one flag `help` behind if there was no call before it and the set
was not given one. -/
theorem parse_history_iff (b : Boost) (self : FlagSet b) (calls : List (Call b)) (argv0 : Str)
    (argv : List Str) (vars : b.Variables) :
    (((self.parses calls).parse argv0 argv vars).2 = (self.parse argv0 argv vars).2 ↔
      calls = [] ∨ ¬ self.AsksForHelp argv vars) ∧
    (((self.parses calls).parse argv0 argv vars).1.helps = 1 ↔ calls = [] ∧ self.helps = 0) := by
  constructor
  · cases calls with
    | nil => simp [parses]
    | cons c calls =>
      have hfresh := self.parse_snd 0 argv0 argv vars
      rw [List.replicate_zero, addFlags_nil] at hfresh
      rw [parses_eq, List.length_cons, parse_snd, hfresh]
      simp only [reduceCtorEq, false_or, AsksForHelp]
      have hone : self.optionsAfter 1 = self.flags.options ++ help b :: self.args.options := by
        simp [optionsAfter]
      rw [Nat.zero_add, hone]
      rcases Boost.run_copies self.flags.options self.args.options (help b) calls.length
        (self.parser argv vars) with ⟨hno, hrun⟩ | ⟨hasks, name, hrun, hne⟩
      · rw [optionsAfter, hrun]
        simp only [hno, false_or]
        constructor
        · rintro heq ⟨vars', hvars', hcount⟩
          rw [hvars'] at heq
          exact self.outcome_stored_ne _ argv0 hcount heq
        · exact self.outcome_congr _ _ argv0
      · rw [optionsAfter, hrun]
        refine iff_of_false (self.outcome_failed_ne _ _ argv0 name _ hne) ?_
        exact not_not_intro (.inl hasks)
  · rw [parse_fst, parses_eq, addFlags_addFlags]
    have hcount : (self.addFlags (List.replicate calls.length (help b) ++ [help b])).helps
        = self.helps + calls.length + 1 := by
      simp [helps, addFlags, OptionsDescription.addOptions, help, List.countP_replicate]
      omega
    rw [hcount, ← List.length_eq_zero_iff]
    omega

/-- A set with a flag of its own, and arguments that name it. -/
def switchSet : FlagSet .plain :=
  (new .plain "program".toList).addFlags [⟨"switch".toList, (), "switch description".toList⟩]

theorem parse_history_iff_switch :
    (((switchSet.parses [⟨"program".toList, ["--help".toList], []⟩]).parse "program".toList
        ["--switch".toList] []).2 = (switchSet.parse "program".toList ["--switch".toList] []).2 ↔
      [Call.mk (b := .plain) "program".toList ["--help".toList] []] = [] ∨
        ¬ switchSet.AsksForHelp ["--switch".toList] []) ∧
    (((switchSet.parses [⟨"program".toList, ["--help".toList], []⟩]).parse "program".toList
        ["--switch".toList] []).1.helps = 1 ↔
      [Call.mk (b := .plain) "program".toList ["--help".toList] []] = [] ∧ switchSet.helps = 0) :=
  parse_history_iff .plain switchSet _ _ _ _

/-- Asking for help twice: the second time, the name is ambiguous. -/
theorem not_parse_history : ¬ ∀ (b : Boost) (self : FlagSet b) (calls : List (Call b)) (argv0 : Str)
    (argv : List Str) (vars : b.Variables),
    ((self.parses calls).parse argv0 argv vars).2 = (self.parse argv0 argv vars).2 ∧
      ((self.parses calls).parse argv0 argv vars).1.helps = 1 := by
  intro h
  obtain ⟨hsame, -⟩ := h .plain (new .plain "program".toList)
    [⟨"program".toList, ["--help".toList], []⟩] "program".toList ["--help".toList] []
  have : DecidableEq Boost.plain.Exn := inferInstanceAs (DecidableEq Empty)
  exact absurd hsame (by decide)

end FlagSet
end Flag
end Cppkg
