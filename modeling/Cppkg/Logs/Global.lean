import Cppkg.Logs.DefLogger
import Mathlib.Logic.Function.Basic

/-!
# The global logger, from `logs/src/logs.cpp`

All code logs with the global logger, which code can replace and whose level it can set.  How much
is logged must not matter to the code: `run_quieter` says that a program that does not ask for the
level does the same with less verbose loggers, and only writes fewer lines.  What it takes is that
`fatal` throws at every level, and that nothing else does.
-/

set_option autoImplicit false

namespace Cppkg
namespace Logs

/-! ## Lines -/

/-- A line that is logged, and whether it goes to the stream for errors. -/
structure Line where
  err : Bool
  text : Str
  deriving DecidableEq

/-- A line is written. -/
def Streams.write (out : Streams) (line : Line) : Streams :=
  if line.err then { out with cerr := out.cerr ++ line.text }
  else { out with cout := out.cout ++ line.text }

/-- The line of a message at a level that is logged. -/
def line (msgLevel : ℕ) (msg : Str) (location : SrcLocT) : Line :=
  match msgLevel with
  | 2 => ⟨true, errTag ++ msg ++ ['\n']⟩
  | 3 => ⟨true, warnTag ++ msg ++ ['\n']⟩
  | _ => ⟨false, location.fileName ++ [':'] ++ Nat.toDigits 10 location.line ++ ['-'] ++ msg ++
      ['\n']⟩

/-- The lines of a message with a logger: one, or none if the level is above that of the logger.
What is fatal is not written. -/
def DefLogger.lines (self : DefLogger) (msgLevel : ℕ) (msg : Str) (location : SrcLocT) :
    List Line :=
  if msgLevel ≠ 0 ∧ msgLevel ≤ self.logLevel.toNat then [line msgLevel msg location] else []

section

variable (self : DefLogger) (msg : Str) (location : SrcLocT) (out : Streams) {msgLevel : ℕ}

/-- Nothing is written about what is fatal, at any level. -/
theorem DefLogger.lines_fatal : self.lines 0 msg location = [] :=
  if_neg fun h ↦ h.1 rfl

theorem DefLogger.lines_of_le (h0 : msgLevel ≠ 0) (h : msgLevel ≤ self.logLevel.toNat) :
    self.lines msgLevel msg location = [line msgLevel msg location] :=
  if_pos ⟨h0, h⟩

theorem DefLogger.lines_of_not_le (h : ¬ msgLevel ≤ self.logLevel.toNat) :
    self.lines msgLevel msg location = [] :=
  if_neg fun h' ↦ h h'.2

theorem DefLogger.error_of_le (h : LogLevel.error.toNat ≤ self.logLevel.toNat) :
    self.error msg = toCerr (errTag ++ msg ++ ['\n']) :=
  if_pos h

theorem DefLogger.warn_of_le (h : LogLevel.warn.toNat ≤ self.logLevel.toNat) :
    self.warn msg = toCerr (warnTag ++ msg ++ ['\n']) :=
  if_pos h

/-- **What `log` does**: what is fatal throws, at every level; anything else is written, or not. -/
theorem DefLogger.log_run (msgLevel : ℕ) : (self.log msgLevel msg location).run.run out
      = (if msgLevel = 0 then .error msg else .ok (),
        (self.lines msgLevel msg location).foldl Streams.write out) := by
  by_cases h : msgLevel ≤ self.logLevel.toNat
  · unfold log
    rw [if_pos h]
    match msgLevel, h with
    | 0, _ => rw [lines_fatal]; rfl
    | 1, h => rw [lines_of_le self msg location (by decide) h]; rfl
    | 2, h =>
      rw [lines_of_le self msg location (by decide) h]
      exact congrArg (fun code : Out Unit ↦ code.run.run out) (self.error_of_le msg h)
    | 3, h =>
      rw [lines_of_le self msg location (by decide) h]
      exact congrArg (fun code : Out Unit ↦ code.run.run out) (self.warn_of_le msg h)
    | n + 4, h => rw [lines_of_le self msg location (by simp) h]; rfl
  · have h0 : msgLevel ≠ 0 := fun h0 ↦ h (by rw [h0]; exact Nat.zero_le _)
    unfold log
    rw [if_neg h, lines_of_not_le self msg location h, if_neg h0]
    rfl

/-- A quieter logger writes no line that the other does not write. -/
theorem DefLogger.lines_sublist {self' : DefLogger}
    (h : self.logLevel.toNat ≤ self'.logLevel.toNat) (msgLevel : ℕ) :
    (self.lines msgLevel msg location).Sublist (self'.lines msgLevel msg location) := by
  rw [lines, lines]
  by_cases hle : msgLevel ≠ 0 ∧ msgLevel ≤ self.logLevel.toNat
  · rw [if_pos hle, if_pos ⟨hle.1, hle.2.trans h⟩]
  · rw [if_neg hle]
    exact List.nil_sublist _

end

/-! ## The global logger -/

/-- Where the message of a caller that does not say it is logged. -/
def SrcLocT.current : SrcLocT := ⟨[], 0⟩

/-- The loggers that there are, each at its address, and the global one. -/
structure Loggers where
  loggers : ℕ → DefLogger
  glogger : ℕ

namespace Loggers

/-- The global logger before anything is set. -/
def initial : Loggers := ⟨fun _ ↦ {}, 0⟩

variable (self : Loggers)

def setLogger (logger : ℕ) : Loggers := { self with glogger := logger }

def getLogger : DefLogger := self.loggers self.glogger

def getLogLevel : Str := self.getLogger.getLogLevel

def setLogLevel (logLevel : Str) : Loggers :=
  { self with
    loggers := Function.update self.loggers self.glogger (self.getLogger.setLogLevel logLevel) }

def trace (msg : Str) : Out Unit := self.getLogger.log LogLevel.trace.toNat msg .current

def debug (msg : Str) : Out Unit := self.getLogger.log LogLevel.debug.toNat msg .current

def info (msg : Str) : Out Unit := self.getLogger.log LogLevel.info.toNat msg .current

def warn (msg : Str) : Out Unit := self.getLogger.log LogLevel.warn.toNat msg .current

def error (msg : Str) : Out Unit := self.getLogger.log LogLevel.error.toNat msg .current

def fatal (msg : Str) : Out Unit := self.getLogger.log LogLevel.fatal.toNat msg .current

end Loggers

/-- What code calls.  The last two are for `get_logger`. -/
inductive Call
  | setLogger (logger : ℕ)
  | setLogLevel (logLevel : Str)
  | trace (msg : Str)
  | debug (msg : Str)
  | info (msg : Str)
  | warn (msg : Str)
  | error (msg : Str)
  | fatal (msg : Str)
  | log (msgLevel : ℕ) (msg : Str) (location : SrcLocT)
  | logNamed (msgLevel msg : Str) (location : SrcLocT)

namespace Loggers

variable (self : Loggers)

/-- Code is run that writes and does not change the loggers. -/
def written (code : Out Unit) (out : Streams) : Except Str Unit × Loggers × Streams :=
  ((code.run.run out).1, self, (code.run.run out).2)

/-- A call: what comes of it, and what there is after it. -/
def exec (out : Streams) : Call → Except Str Unit × Loggers × Streams
  | .setLogger logger => (.ok (), self.setLogger logger, out)
  | .setLogLevel logLevel => (.ok (), self.setLogLevel logLevel, out)
  | .trace msg => self.written (self.trace msg) out
  | .debug msg => self.written (self.debug msg) out
  | .info msg => self.written (self.info msg) out
  | .warn msg => self.written (self.warn msg) out
  | .error msg => self.written (self.error msg) out
  | .fatal msg => self.written (self.fatal msg) out
  | .log msgLevel msg location => self.written (self.getLogger.log msgLevel msg location) out
  | .logNamed msgLevel msg location =>
    self.written (self.getLogger.logNamed msgLevel msg location) out

end Loggers

/-- The message that a call logs, if it logs one. -/
def Call.message : Call → Option (ℕ × Str × SrcLocT)
  | .setLogger _ => none
  | .setLogLevel _ => none
  | .trace msg => some (LogLevel.trace.toNat, msg, .current)
  | .debug msg => some (LogLevel.debug.toNat, msg, .current)
  | .info msg => some (LogLevel.info.toNat, msg, .current)
  | .warn msg => some (LogLevel.warn.toNat, msg, .current)
  | .error msg => some (LogLevel.error.toNat, msg, .current)
  | .fatal msg => some (LogLevel.fatal.toNat, msg, .current)
  | .log msgLevel msg location => some (msgLevel, msg, location)
  | .logNamed msgLevel msg location =>
    some (((names2log.lookup msgLevel).getD .trace).toNat, msg, location)

namespace Loggers

variable {self self' : Loggers} {msg : Str} {location : SrcLocT}

/-- The lines that a call writes. -/
def lines (self : Loggers) (call : Call) : List Line :=
  match call.message with
  | none => []
  | some (msgLevel, msg, location) => self.getLogger.lines msgLevel msg location

/-- **Every call that logs is one `log`** of the global logger. -/
theorem exec_message {call : Call} {msgLevel : ℕ}
    (h : call.message = some (msgLevel, msg, location)) (out : Streams) :
    self.exec out call = (if msgLevel = 0 then .error msg else .ok (), self,
      (self.lines call).foldl Streams.write out) := by
  have hlines : self.lines call = self.getLogger.lines msgLevel msg location := by
    rw [lines, h]
  have hexec : self.exec out call
      = self.written (self.getLogger.log msgLevel msg location) out := by
    cases call with
    | setLogger => cases h
    | setLogLevel => cases h
    | logNamed level =>
      cases h
      rw [exec, DefLogger.logNamed]
      cases names2log.lookup level <;> rfl
    | _ => cases h; rfl
  rw [hexec, written, DefLogger.log_run, hlines]

/-- What a call writes are its lines. -/
theorem exec_out (self : Loggers) (call : Call) (out : Streams) :
    (self.exec out call).2.2 = (self.lines call).foldl Streams.write out := by
  cases h : call.message with
  | none => cases call <;> first | rfl | cases h
  | some m => rw [exec_message h]

/-! ## Quieter loggers -/

/-- **Quieter**: the same logger is the global one, and none is more verbose. -/
def Quieter (self self' : Loggers) : Prop :=
  self.glogger = self'.glogger ∧
    ∀ i, (self.loggers i).logLevel.toNat ≤ (self'.loggers i).logLevel.toNat

theorem Quieter.getLogger (h : Quieter self self') :
    self.getLogger.logLevel.toNat ≤ self'.getLogger.logLevel.toNat := by
  rw [Loggers.getLogger, Loggers.getLogger, h.1]
  exact h.2 _

theorem loggers_setLogLevel (self : Loggers) (logLevel : Str) :
    (self.setLogLevel logLevel).loggers =
      Function.update self.loggers self.glogger (self.getLogger.setLogLevel logLevel) :=
  rfl

/-- A level that is set is the level of both. -/
theorem Quieter.setLogLevel (h : Quieter self self') (logLevel : Str) :
    Quieter (self.setLogLevel logLevel) (self'.setLogLevel logLevel) := by
  refine ⟨h.1, fun i ↦ ?_⟩
  rw [loggers_setLogLevel, loggers_setLogLevel, ← h.1]
  by_cases hi : i = self.glogger
  · rw [hi, Function.update_self, Function.update_self]
    cases hl : names2log.lookup logLevel with
    | none =>
      rw [DefLogger.setLogLevel_of_none hl, DefLogger.setLogLevel_of_none hl]
      exact h.getLogger
    | some level =>
      rw [DefLogger.logLevel_setLogLevel hl, DefLogger.logLevel_setLogLevel hl]
  · rw [Function.update_of_ne hi, Function.update_of_ne hi]
    exact h.2 i

theorem Quieter.lines (h : Quieter self self') (call : Call) :
    (self.lines call).Sublist (self'.lines call) := by
  unfold Loggers.lines
  cases call.message with
  | none => exact .slnil
  | some m => exact DefLogger.lines_sublist _ _ _ h.getLogger _

/-- **A call**, with quieter loggers: the same comes of it, and the loggers are still quieter. -/
theorem Quieter.exec (h : Quieter self self') (call : Call) (out out' : Streams) :
    (self.exec out call).1 = (self'.exec out' call).1 ∧
      Quieter (self.exec out call).2.1 (self'.exec out' call).2.1 := by
  cases hm : call.message with
  | some m =>
    rw [exec_message hm, exec_message hm]
    exact ⟨rfl, h⟩
  | none =>
    cases call with
    | setLogger logger => exact ⟨rfl, rfl, h.2⟩
    | setLogLevel logLevel => exact ⟨rfl, h.setLogLevel logLevel⟩
    | _ => cases hm

end Loggers

/-! ## Programs -/

/-- A program that logs and does not ask for the level.  What it does next can depend on whether
a call has thrown, and on what it has thrown. -/
inductive Prog (ρ : Type)
  | done (result : ρ)
  | call (call : Call) (next : Except Str Unit → Prog ρ)

namespace Prog

variable {ρ : Type}

def run (self : Loggers) (out : Streams) : Prog ρ → ρ × Loggers × Streams
  | done result => (result, self, out)
  | call op next =>
    let after := self.exec out op
    (next after.1).run after.2.1 after.2.2

/-- The lines that a program writes. -/
def lines (self : Loggers) (out : Streams) : Prog ρ → List Line
  | done _ => []
  | call op next =>
    let after := self.exec out op
    self.lines op ++ (next after.1).lines after.2.1 after.2.2

theorem run_out (p : Prog ρ) (self : Loggers) (out : Streams) :
    (p.run self out).2.2 = (p.lines self out).foldl Streams.write out := by
  induction p generalizing self out with
  | done => rfl
  | call op next ih => rw [run, ih, lines, List.foldl_append, Loggers.exec_out]

/-- **Logging less makes no difference to a program**: with quieter loggers it has the same result,
the same logger is the global one, no logger is more verbose, and what is written to the streams
are some of the lines, in their order. -/
theorem run_quieter (p : Prog ρ) (self self' : Loggers) (h : Loggers.Quieter self self')
    (out out' : Streams) :
    (p.run self out).1 = (p.run self' out').1 ∧
    Loggers.Quieter (p.run self out).2.1 (p.run self' out').2.1 ∧
    (p.run self out).2.2 = (p.lines self out).foldl Streams.write out ∧
    (p.run self' out').2.2 = (p.lines self' out').foldl Streams.write out' ∧
    (p.lines self out).Sublist (p.lines self' out') := by
  refine and_assoc.mp ⟨?_, p.run_out self out, p.run_out self' out', ?_⟩
  · induction p generalizing self self' out out' with
    | done => exact ⟨rfl, h⟩
    | call op next ih =>
      obtain ⟨hres, hafter⟩ := h.exec op out out'
      rw [run, run, hres]
      exact ih _ _ _ hafter _ _
  · induction p generalizing self self' out out' with
    | done => exact .slnil
    | call op next ih =>
      obtain ⟨hres, hafter⟩ := h.exec op out out'
      rw [lines, lines, hres]
      exact (h.lines op).append (ih _ _ _ hafter _ _)

/-- A program that warns, and goes on with the text of what is fatal. -/
def caught : Prog Str :=
  call (.warn ['w']) fun _ ↦ call (.fatal ['f']) fun
    | .error msg => done msg
    | .ok _ => done []

/-- At the level of fatal messages nothing is written, and the same is thrown. -/
theorem run_quieter_caught :
    (caught.run (Loggers.initial.setLogLevel fatalLevel) ⟨[], []⟩).1 = ['f'] ∧
    (caught.run (Loggers.initial.setLogLevel fatalLevel) ⟨[], []⟩).1
      = (caught.run Loggers.initial ⟨[], []⟩).1 := by
  have h : Loggers.Quieter (Loggers.initial.setLogLevel fatalLevel) Loggers.initial := by
    refine ⟨rfl, fun i ↦ ?_⟩
    rw [Loggers.loggers_setLogLevel]
    by_cases hi : i = Loggers.initial.glogger
    · rw [hi, Function.update_self]
      decide
    · rw [Function.update_of_ne hi]
  exact ⟨rfl, (run_quieter caught _ _ h _ _).1⟩

end Prog
end Logs
end Cppkg
