import Cppkg.Fmts.Trim

/-!
# The default logger, from `logs/logs.hpp`

Levels are numbers and have names.  `supportsLevel` takes names in any letter case, but
`setLogLevel` and the `log` that takes a name look the name up as it is: a name that is not in lower
case is not found, and a name that is not found leaves the level alone in the one and is logged at
the level of traces in the other.
-/

set_option autoImplicit false

namespace Cppkg
namespace Logs

/-- String tagged prepending a warning message in default logger. -/
def warnTag : Str := "[WARNING]:".toList

/-- String tagged prepending an error message in default logger. -/
def errTag : Str := "[ERROR]:".toList

def fatalLevel : Str := "fatal".toList

def throwErrLevel : Str := "throw_err".toList

def errorLevel : Str := "error".toList

def warnLevel : Str := "warn".toList

def infoLevel : Str := "info".toList

def debugLevel : Str := "debug".toList

def traceLevel : Str := "trace".toList

/-- Log verbosity encoding. -/
inductive LogLevel
  | fatal
  | throwErr
  | error
  | warn
  | info
  | debug
  | trace
  | notSet
  deriving DecidableEq, Repr

/-- The number of a level. -/
def LogLevel.toNat : LogLevel → ℕ
  | fatal => 0
  | throwErr => 1
  | error => 2
  | warn => 3
  | info => 4
  | debug => 5
  | trace => 6
  | notSet => 7

def names2log : List (Str × LogLevel) :=
  [(fatalLevel, .fatal), (throwErrLevel, .throwErr), (errorLevel, .error), (warnLevel, .warn),
    (infoLevel, .info), (debugLevel, .debug), (traceLevel, .trace)]

def lognames : StringsT :=
  [fatalLevel, throwErrLevel, errorLevel, warnLevel, infoLevel, debugLevel, traceLevel]

/-- `std::tolower` in the C locale. -/
def tolower (c : Char) : Char := c.toLower

/-- Where in the source a message is logged. -/
structure SrcLocT where
  fileName : Str
  line : ℕ

/-- What was written to the standard streams. -/
structure Streams where
  cout : Str
  cerr : Str

/-- Code that writes to the streams, and may throw a `std::runtime_error`. -/
abbrev Out := ExceptT Str (StateM Streams)

def toCout (str : Str) : Out Unit := modify fun out ↦ { out with cout := out.cout ++ str }

def toCerr (str : Str) : Out Unit := modify fun out ↦ { out with cerr := out.cerr ++ str }

/-- Every level but `notSet` has a name. -/
theorem LogLevel.toNat_lt {level : LogLevel} (h : level ≠ .notSet) :
    level.toNat < lognames.length := by
  cases level with
  | notSet => exact absurd rfl h
  | _ => decide

/-- What is found among the names is there. -/
theorem mem_of_lookup {s : Str} {level : LogLevel} (h : names2log.lookup s = some level) :
    (s, level) ∈ names2log := by
  obtain ⟨l₁, l₂, hl, -⟩ := List.lookup_eq_some_iff.mp h
  rw [hl]
  simp

theorem ne_notSet_of_lookup {s : Str} {level : LogLevel} (h : names2log.lookup s = some level) :
    level ≠ .notSet := by
  have hall : ∀ e ∈ names2log, e.2 ≠ .notSet := by decide
  exact hall _ (mem_of_lookup h)

/-- Default implementation of `iLogger` used in ADE. -/
structure DefLogger where
  /-- Logging levels above this are ignored. -/
  logLevel : LogLevel := .info
  /-- Only levels that have a name are ever set. -/
  named : logLevel ≠ .notSet := by decide

namespace DefLogger

def getLogLevel (self : DefLogger) : Str :=
  lognames.get ⟨self.logLevel.toNat, LogLevel.toNat_lt self.named⟩

def setLogLevel (self : DefLogger) (logLevel : Str) : DefLogger :=
  match h : names2log.lookup logLevel with
  | some level => ⟨level, ne_notSet_of_lookup h⟩
  | none => self

def supportsLevel (msgLevel : Str) : Bool :=
  let level := msgLevel.map tolower
  (names2log.lookup level).isSome

/-- Warn user of message regarding poor decisions. -/
def warn (self : DefLogger) (msg : Str) : Out Unit :=
  if LogLevel.warn.toNat ≤ self.logLevel.toNat then toCerr (warnTag ++ msg ++ ['\n'])
  else pure ()

/-- Notify user of message regarding recoverable error. -/
def error (self : DefLogger) (msg : Str) : Out Unit :=
  if LogLevel.error.toNat ≤ self.logLevel.toNat then toCerr (errTag ++ msg ++ ['\n'])
  else pure ()

/-- Notify user of message regarding fatal error, then finish him. -/
def fatal (msg : Str) : Out Unit := throw msg

def log (self : DefLogger) (msgLevel : ℕ) (msg : Str) (location : SrcLocT) : Out Unit :=
  if msgLevel ≤ self.logLevel.toNat then
    match msgLevel with
    | 0 => do
      fatal msg
      self.error msg
    | 2 => self.error msg
    | 3 => self.warn msg
    | _ => toCout (location.fileName ++ [':'] ++ Nat.toDigits 10 location.line ++ ['-'] ++ msg ++
        ['\n'])
  else pure ()

/-- The `log` that takes the name of the level. -/
def logNamed (self : DefLogger) (msgLevel msg : Str) (location : SrcLocT) : Out Unit :=
  let level := match names2log.lookup msgLevel with
    | some level => level
    | none => .trace
  self.log level.toNat msg location

/-! ## The names of the levels -/

variable {s : Str} {level : LogLevel}

/-- Names are in lower case. -/
theorem map_tolower_of_lookup (h : names2log.lookup s = some level) : s.map tolower = s := by
  have hall : ∀ e ∈ names2log, e.1.map tolower = e.1 := by decide
  exact hall _ (mem_of_lookup h)

/-- What is not in lower case is not found. -/
theorem lookup_eq_none (h : s.map tolower ≠ s) : names2log.lookup s = none := by
  rw [Option.eq_none_iff_forall_ne_some]
  exact fun level hlevel ↦ h (map_tolower_of_lookup hlevel)

/-- A name that is found is the name of its level. -/
theorem getLogLevel_of_lookup (h : names2log.lookup s = some level) {self : DefLogger}
    (hself : self.logLevel = level) : self.getLogLevel = s := by
  have hall : ∀ e ∈ names2log, lognames[e.2.toNat]? = some e.1 := by decide
  have hname := hall _ (mem_of_lookup h)
  rw [← hself] at hname
  obtain ⟨_, hget⟩ := List.getElem?_eq_some_iff.mp hname
  exact hget

theorem logLevel_setLogLevel (h : names2log.lookup s = some level) (self : DefLogger) :
    (self.setLogLevel s).logLevel = level := by
  rw [setLogLevel]
  split
  · rename_i level' h'
    exact Option.some.inj (h'.symm.trans h)
  · rename_i h'
    rw [h'] at h
    cases h

/-- A name that is not found sets nothing. -/
theorem setLogLevel_of_none (h : names2log.lookup s = none) (self : DefLogger) :
    self.setLogLevel s = self := by
  rw [setLogLevel]
  split
  · rename_i level' h'
    rw [h'] at h
    cases h
  · rfl

/-! ## The two interfaces -/

/-- **The interfaces agree on `s`**: if `level` is what `s` names in lower case, then the messages
logged at `s` are logged at `level`, whatever the current level, and setting `s` sets `level`, whose
name is returned from then on. -/
def Agrees (s : Str) : Prop :=
  ∀ level, names2log.lookup (s.map tolower) = some level → ∀ self : DefLogger,
    (∀ msg location, self.logNamed s msg location = self.log level.toNat msg location) ∧
    (self.setLogLevel s).logLevel = level ∧
    (self.setLogLevel s).getLogLevel = s.map tolower

theorem agrees_of_lower (h : s.map tolower = s) : Agrees s := by
  intro level hlevel self
  rw [h] at hlevel ⊢
  have hset := logLevel_setLogLevel hlevel self
  refine ⟨fun msg location ↦ ?_, hset, getLogLevel_of_lookup hlevel hset⟩
  rw [logNamed, hlevel]

/-- There is a logger at another level. -/
theorem exists_logLevel_ne (level : LogLevel) : ∃ self : DefLogger, self.logLevel ≠ level := by
  by_cases h : level = .info
  · exact ⟨⟨.fatal, by decide⟩, by rw [h]; decide⟩
  · exact ⟨{}, Ne.symm h⟩

/-- **When the two interfaces agree** on a name that is supported: when it is in lower case. -/
theorem agrees_iff (s : Str) (hs : supportsLevel s = true) : Agrees s ↔ s.map tolower = s := by
  refine ⟨fun h ↦ ?_, agrees_of_lower⟩
  by_contra hne
  obtain ⟨level, hlevel⟩ := Option.isSome_iff_exists.mp hs
  obtain ⟨self, hself⟩ := exists_logLevel_ne level
  obtain ⟨-, hset, -⟩ := h level hlevel self
  rw [setLogLevel_of_none (lookup_eq_none hne)] at hset
  exact hself hset

theorem agrees_iff_error : supportsLevel errorLevel = true ∧
    (Agrees errorLevel ↔ errorLevel.map tolower = errorLevel) :=
  ⟨by decide, agrees_iff errorLevel (by decide)⟩

/-- At the level of information, `ERROR` is logged as a trace, which is not logged. -/
theorem not_agrees : ¬ ∀ s : Str, supportsLevel s = true → Agrees s := by
  intro h
  obtain ⟨hlog, -⟩ := h "ERROR".toList (by decide) .error (by decide) {}
  have hrun := congrArg (fun out : Out Unit ↦ (out.run.run ⟨[], []⟩).2.cerr) (hlog [] ⟨[], 0⟩)
  exact absurd hrun (by decide)

end DefLogger
end Logs
end Cppkg
