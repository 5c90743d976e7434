import Cppkg.Diff.Myers
import Cppkg.Fmts.Trim

/-!
# `diff/format.hpp`, `diff/msg.hpp` and `diff/src/msg.cpp`

The messages: how a script is rendered, how long inputs are compared in batches, and how texts are
cut into lines.  A stream is the list of the characters not yet read from it, or written to it.
-/

set_option autoImplicit false

namespace Cppkg
namespace Diff

/-- A list of differences between lines. -/
abbrev MsgDiffT := List (Diff Str)

/-! ## `diff/format.hpp` -/

/-- `out << z` for an integer. -/
def decimal (z : ℤ) : Str :=
  if z < 0 then '-' :: Nat.toDigits 10 z.natAbs else Nat.toDigits 10 z.toNat

/-- Symbol for added lines. -/
def addToken : Char := '+'

/-- Symbol for removed lines. -/
def delToken : Char := '-'

/-- One line of a message. -/
def diffLineFormat (val : Str) (action : Action) (orig updated : ℤ) : Str :=
  (match action with
    | .eq => [' ', ' '] ++ decimal orig ++ ['\t'] ++ decimal updated
    | .add => [addToken] ++ [' ', ' ', '\t'] ++ decimal updated
    | .del => [delToken] ++ [' '] ++ decimal orig ++ ['\t', ' ']) ++
    ['\t'] ++ val ++ ['\n']

/-! ## Rendering a script -/

/-- Number of lines to display before lines where differences occurred. -/
def linesBefore : ℤ := 3

/-- Number of lines to display after lines where differences occurred. -/
def linesAfter : ℤ := 3

/-- Set the flags from `first` to `last`. -/
def memset (shown : List Bool) (first last : ℤ) : Run Fault (List Bool) :=
  if 0 ≤ first ∧ first ≤ last + 1 ∧ last < shown.length then
    pure (shown.mapIdx fun i s ↦ s || (decide (first ≤ i) && decide (i ≤ last)))
  else .fail .outOfRange

/-- Mark the lines to show: those near a difference. -/
def markShown (diffs : MsgDiffT) (ndiffs : ℤ) : Run Fault (List Bool) :=
  Run.loop (fun (i, shown) ↦ do
    if i < ndiffs then
      let diff ← deref diffs i
      if diff.action = .eq then pure (.inl (toIndexT (i + 1), shown))
      else
        let first := toIndexT (max 0 (i - linesBefore))
        let last := toIndexT (min (ndiffs - 1) (i + linesAfter))
        let shown ← memset shown first last
        pure (.inl (toIndexT (i + 1), shown))
    else pure (.inr shown)) ((0 : ℤ), List.replicate ndiffs.toNat false)

/-- How many lines of the original sequence an entry takes. -/
def Action.takes : Action → ℕ
  | .eq => 1
  | .add => 0
  | .del => 1

/-- How many lines of the updated sequence an entry gives. -/
def Action.gives : Action → ℕ
  | .eq => 1
  | .add => 1
  | .del => 0

/-- Write the lines to show, counting the lines of both sequences. -/
def writeShown (diffs : MsgDiffT) (ndiffs : ℤ) (shown : List Bool) : Run Fault Str :=
  Run.loop (fun (i, oidx, uidx, out) ↦ do
    if i < ndiffs then
      let diff ← deref diffs i
      let s ← deref shown i
      let out := if s = true then out ++ diffLineFormat diff.val diff.action oidx uidx else out
      pure (.inl (toIndexT (i + 1), oidx + diff.action.takes, uidx + diff.action.gives, out))
    else pure (.inr out)) ((0 : ℤ), (0 : ℤ), (0 : ℤ), [])

/-- Render a script.  The flags are an array on the stack, of a size that must not be negative. -/
def MsgDiffT.toString (diffs : MsgDiffT) : Run Fault Str := do
  let ndiffs := toIndexT diffs.length
  if ndiffs < 0 then .fail .outOfRange
  else
    let shown ← markShown diffs ndiffs
    writeShown diffs ndiffs shown

/-! ## Comparing in batches -/

/-- `std::equal_to<std::string>`. -/
def equalTo (a b : Str) : Bool := a == b

/-- Push the first `n` entries of `mdiffs`. -/
def pushDiffs (diffs mdiffs : MsgDiffT) (n : ℤ) : Run Fault MsgDiffT :=
  Run.loop (fun (i, diffs) ↦ do
    if i < n then
      let diff ← deref mdiffs i
      pure (.inl (toIndexT (i + 1), diffs ++ [diff]))
    else pure (.inr diffs)) ((0 : ℤ), diffs)

/-- Cut a batch back to its last `eq` entry, if it has one: the number of entries to keep, and the
number of lines of both sequences they deal with. -/
def cutBatch (mdiffs : MsgDiffT) (eoffset goffset : ℤ) : Run Fault (ℤ × ℤ × ℤ) :=
  Run.loop (fun (i, diffEnd, eoffset, goffset) ↦ do
    if i < toIndexT mdiffs.length then
      let diff ← deref mdiffs i
      if diff.action = .eq then
        pure (.inl (toIndexT (i + 1), toIndexT (i + 1), toIndexT (diff.orig + 1),
          toIndexT (diff.updated + 1)))
      else pure (.inl (toIndexT (i + 1), diffEnd, eoffset, goffset))
    else pure (.inr (diffEnd, eoffset, goffset)))
    ((0 : ℤ), toIndexT mdiffs.length, eoffset, goffset)

/-- `types::StringsT(begin + offset, end)`. -/
def dropLines (lines : StringsT) (offset : ℤ) : Run Fault StringsT :=
  if 0 ≤ offset ∧ offset ≤ lines.length then pure (lines.drop offset.toNat)
  else .fail .outOfRange

/-- What a call of `safeDiffMsgHelper` does: `.inr` is a return, with the accumulated script, and
`.inl` is the recursive call in tail position, with its arguments. -/
def helperCall (batchLimit : ℕ) :
    MsgDiffT × StringsT × StringsT → Run Fault ((MsgDiffT × StringsT × StringsT) ⊕ MsgDiffT) :=
  fun (diffs, expect, got) ↦ do
    if expect.length ≤ batchLimit ∧ got.length ≤ batchLimit then
      let mdiffs ← myersDiff wrapping equalTo expect got
      let diffs ← pushDiffs diffs mdiffs (toIndexT mdiffs.length)
      pure (.inr diffs)
    else
      let exbatch := expect.take (min batchLimit expect.length)
      let gobatch := got.take (min batchLimit got.length)
      let mdiffs ← myersDiff wrapping equalTo exbatch gobatch
      let (diffEnd, eoffset, goffset) ← cutBatch mdiffs
        (toIndexT (min batchLimit expect.length : ℕ)) (toIndexT (min batchLimit got.length : ℕ))
      let diffs ← pushDiffs diffs mdiffs diffEnd
      let expect ← dropLines expect eoffset
      let got ← dropLines got goffset
      pure (.inl (diffs, expect, got))

/-- Append to `diffs` the differences between `expect` and `got`, batch by batch. -/
def safeDiffMsgHelper (diffs : MsgDiffT) (expect got : StringsT) (batchLimit : ℕ) :
    Run Fault MsgDiffT :=
  Run.loop (helperCall batchLimit) (diffs, expect, got)

/-- The diff message of two lists of lines. -/
def diffMsg (expect got : StringsT) : Run Fault Str := do
  let diffs ← myersDiff wrapping equalTo expect got
  MsgDiffT.toString diffs

/-- The default batch limit: the largest `IndexT`. -/
def defaultBatchLimit : ℕ := 32767

/-- The diff message of two lists of lines, compared in batches. -/
def safeDiffMsg (expect got : StringsT) (batchLimit : ℕ) : Run Fault Str := do
  let diff ← safeDiffMsgHelper [] expect got batchLimit
  MsgDiffT.toString diff

/-! ## Comparing texts -/

/-- `std::getline`: the next line, without its newline, and what is left of the stream.  Fails when
there is nothing left to read. -/
def getline : List Char → Option (Str × List Char)
  | [] => none
  | str => some (str.takeWhile (· != '\n'), (str.dropWhile (· != '\n')).tail)

/-- The lines of a stream that are compared. -/
def processLines (str : List Char) (ignoreEmptyLines trimSpaces : Bool) : Run Fault StringsT :=
  Run.loop (fun (lines, str) ↦
    match getline str with
    | none => pure (.inr lines)
    | some (line, str) =>
      let line := if trimSpaces = true then Fmts.trim line else line
      if ignoreEmptyLines = false ∨ line.length > 0 then pure (.inl (lines ++ [line], str))
      else pure (.inl (lines, str))) ([], str)

/-- The diff message of two texts. -/
def diffLines (expect got : List Char) (ignoreEmptyLines trimSpaces : Bool) : Run Fault Str := do
  let exlines ← processLines expect ignoreEmptyLines trimSpaces
  let golines ← processLines got ignoreEmptyLines trimSpaces
  safeDiffMsg exlines golines defaultBatchLimit

end Diff
end Cppkg
