import Cppkg.Diff.Render
import Cppkg.Diff.Script
import Cppkg.Lib.Lines

/-!
# A message says everything

A message leaves out the unchanged lines far from a change, and the lines it does show are printed
next to each other with numbers, tabs and signs that could also be part of a line.  Nevertheless
nothing is lost: whoever has the expected lines can work out the others from the message.

`recover` does that.  It cuts the message into lines, reads the added and the deleted ones, and puts
the unchanged ones back from the expected side.  `recover_rendered` says that it gets it right, so
two messages that are the same come from the same lines.
-/

set_option autoImplicit false

namespace Cppkg
namespace Diff

/-! ## Reading a message -/

/-- A change, as a message shows it. -/
inductive Change
  /-- Line `u` of the updated sequence is `val`, which was added. -/
  | add (u : ℕ) (val : Str)
  /-- Line `o` of the original sequence was deleted. -/
  | del (o : ℕ)
  deriving DecidableEq, Repr

/-- Read a number, up to the first character that is not a digit. -/
def readNumber (s : Str) : ℕ := Nat.ofDigitChars 10 (s.takeWhile Char.isDigit) 0

/-- Read a line of a message; unchanged lines say nothing. -/
def readLine : Str → Option Change
  | '+' :: ' ' :: ' ' :: '\t' :: s => some (.add (readNumber s) (s.dropWhile Char.isDigit).tail)
  | '-' :: ' ' :: s => some (.del (readNumber s))
  | _ => none

/-- Read a message. -/
def readMessage (msg : Str) : List Change := (Text.lines '\n' msg).filterMap readLine

/-- Carry out changes: `o` and `u` are the numbers of the next lines on the two sides, and `expect`
are the lines of the original sequence from line `o` on.  What no change is about is unchanged. -/
def carryOut : ℕ → ℕ → StringsT → List Change → StringsT
  | _, _, expect, [] => expect
  | o, u, expect, .add u' val :: changes =>
    if u' = u then val :: carryOut o (u + 1) expect changes
    else
      match expect with
      | [] => []
      | line :: expect => line :: carryOut (o + 1) (u + 1) expect (.add u' val :: changes)
  | o, u, expect, .del o' :: changes =>
    match expect with
    | [] => []
    | line :: expect =>
      if o' = o then carryOut (o + 1) u expect changes
      else line :: carryOut (o + 1) (u + 1) expect (.del o' :: changes)
termination_by _ _ expect changes => expect.length + changes.length

/-- Work out the other lines from the expected ones and the message. -/
def recover (expect : StringsT) (msg : Str) : StringsT := carryOut 0 0 expect (readMessage msg)

/-! ## The lines of a message -/

variable {val : Str} {action : Action} {o u : ℕ}

theorem decimal_natCast (n : ℕ) : decimal n = Nat.toDigits 10 n := by
  rw [decimal, if_neg (by omega), Int.toNat_natCast]

theorem isDigit_of_mem_decimal {n : ℕ} {c : Char} (h : c ∈ decimal n) : c.isDigit = true := by
  rw [decimal_natCast] at h
  exact Nat.isDigit_of_mem_toDigits (by decide) (by decide) h

theorem newline_notMem_decimal (n : ℕ) : '\n' ∉ decimal n :=
  fun h ↦ absurd (isDigit_of_mem_decimal h) (by decide)

/-- A number ends where the tabulator behind it begins. -/
theorem readNumber_decimal (n : ℕ) (s : Str) : readNumber (decimal n ++ '\t' :: s) = n := by
  rw [readNumber, List.takeWhile_append_of_pos fun c hc ↦ isDigit_of_mem_decimal hc,
    List.takeWhile_cons_of_neg (by decide), List.append_nil, decimal_natCast,
    Nat.ofDigitChars_ten_toDigits]

theorem dropWhile_decimal (n : ℕ) (s : Str) :
    (decimal n ++ '\t' :: s).dropWhile Char.isDigit = '\t' :: s := by
  rw [List.dropWhile_append_of_pos fun c hc ↦ isDigit_of_mem_decimal hc,
    List.dropWhile_cons_of_neg (by decide)]

/-- What a line of a message says. -/
def changeOf (val : Str) (action : Action) (o u : ℕ) : Option Change :=
  match action with
  | .eq => none
  | .add => some (.add u val)
  | .del => some (.del o)

/-- **A line of a message can be read**, whatever characters the printed line has. -/
theorem readLine_diffLineFormat (val : Str) (action : Action) (o u : ℕ) :
    readLine (diffLineFormat val action o u).dropLast = changeOf val action o u := by
  have hlast : ∀ s : Str, (s ++ ['\n']).dropLast = s := fun s ↦ List.dropLast_concat
  unfold diffLineFormat
  rw [hlast]
  cases action with
  | eq => rfl
  | add =>
    show some (Change.add (readNumber ((decimal u ++ ['\t']) ++ val))
      (((decimal u ++ ['\t']) ++ val).dropWhile Char.isDigit).tail) = _
    rw [List.append_assoc, List.singleton_append, readNumber_decimal, dropWhile_decimal]
    rfl
  | del =>
    show some (Change.del (readNumber (((decimal o ++ ['\t', ' ']) ++ ['\t']) ++ val))) = _
    rw [List.append_assoc, List.append_assoc, List.cons_append, readNumber_decimal]
    rfl

/-- A line of a message is one line. -/
theorem diffLineFormat_line (hval : '\n' ∉ val) (action : Action) (o u : ℕ) :
    '\n' ∉ (diffLineFormat val action o u).dropLast ∧
      (diffLineFormat val action o u).dropLast ++ ['\n'] = diffLineFormat val action o u := by
  have hlast : ∀ s : Str, (s ++ ['\n']).dropLast = s := fun s ↦ List.dropLast_concat
  have ho := newline_notMem_decimal o
  have hu := newline_notMem_decimal u
  unfold diffLineFormat
  rw [hlast]
  refine ⟨?_, rfl⟩
  cases action <;> simp [addToken, delToken, hval, ho, hu]

/-! ## The changes of a script -/

variable {shown : ℕ → Bool} {i : ℕ} {diffs : MsgDiffT} {expect got : StringsT} {x y : ℕ}

/-- The changes of a script. -/
def changesOf : ℕ → ℕ → MsgDiffT → List Change
  | _, _, [] => []
  | o, u, diff :: diffs =>
    (changeOf diff.val diff.action o u).toList ++
      changesOf (o + diff.action.takes) (u + diff.action.gives) diffs

/-- Every change of a script is shown, and can be read. -/
theorem filterMap_shownLines
    (hshown : ∀ (j : ℕ) (diff : Diff Str), diffs[j]? = some diff → diff.action ≠ .eq →
      shown (i + j) = true) :
    ((shownLines shown i o u diffs).map List.dropLast).filterMap readLine
      = changesOf o u diffs := by
  induction diffs generalizing i o u with
  | nil => rfl
  | cons diff diffs ih =>
    have ih' := ih (i := i + 1) (o := o + diff.action.takes) (u := u + diff.action.gives)
      fun j diff' hj hne ↦ by
        have := hshown (j + 1) diff' (by simpa using hj) hne
        rwa [Nat.add_assoc, Nat.add_comm 1]
    rw [shownLines, changesOf]
    split
    · rw [List.map_cons, List.filterMap_cons, readLine_diffLineFormat, ih']
      cases diff.action <;> rfl
    · rename_i hs
      have heq : diff.action = .eq := by
        by_contra hne
        exact hs (hshown 0 diff rfl hne)
      rw [ih', heq]
      rfl

/-- A message falls into the lines it was made of. -/
theorem lines_shownLines (hval : ∀ diff ∈ diffs, '\n' ∉ diff.val) :
    Text.lines '\n' (shownLines shown i o u diffs).flatten
      = (shownLines shown i o u diffs).map List.dropLast := by
  have hline : ∀ line ∈ shownLines shown i o u diffs,
      '\n' ∉ line.dropLast ∧ line.dropLast ++ ['\n'] = line := by
    induction diffs generalizing i o u with
    | nil => simp [shownLines]
    | cons diff diffs ih =>
      have ih' := ih (i := i + 1) (o := o + diff.action.takes) (u := u + diff.action.gives)
        fun diff' hdiff' ↦ hval diff' (List.mem_cons_of_mem diff hdiff')
      intro line hmem
      rw [shownLines] at hmem
      split at hmem
      · rcases List.mem_cons.mp hmem with rfl | hmem
        · exact diffLineFormat_line (hval diff List.mem_cons_self) _ _ _
        · exact ih' line hmem
      · exact ih' line hmem
  have hback : ((shownLines shown i o u diffs).map List.dropLast).map (· ++ ['\n'])
      = shownLines shown i o u diffs := by
    rw [List.map_map]
    exact (List.map_congr_left fun line h ↦ (hline line h).2).trans (List.map_id _)
  rw [← hback, Text.lines_flatten, hback]
  intro body hbody
  obtain ⟨line, hmem, rfl⟩ := List.mem_map.mp hbody
  exact (hline line hmem).1

/-- What is read from a message are the changes of its script. -/
theorem readMessage_rendered (hval : ∀ diff ∈ diffs, '\n' ∉ diff.val) :
    readMessage (rendered diffs) = changesOf 0 0 diffs := by
  rw [readMessage, rendered, lines_shownLines hval, filterMap_shownLines]
  intro j diff hj hne
  exact near_iff.mpr ⟨j, diff, hj, hne, by omega, by omega⟩

/-! ## Carrying out the changes -/

/-- A change is about the lines from `o` and `u` on. -/
def Change.From (o u : ℕ) : Change → Prop
  | .add u' _ => u ≤ u'
  | .del o' => o ≤ o'

theorem from_of_mem_changesOf {change : Change} (h : change ∈ changesOf o u diffs) :
    change.From o u := by
  induction diffs generalizing o u with
  | nil => simp [changesOf] at h
  | cons diff diffs ih =>
    rw [changesOf, List.mem_append, Option.mem_toList] at h
    rcases h with h | h
    · cases hact : diff.action <;> simp [changeOf, hact] at h <;> subst h <;>
        exact Nat.le_refl _
    · have := ih h
      cases change with
      | add u' val => exact Nat.le_trans (Nat.le_add_right _ _) this
      | del o' => exact Nat.le_trans (Nat.le_add_right _ _) this

/-- If all changes come later, the next line is unchanged. -/
theorem carryOut_cons {line : Str} {changes : List Change}
    (h : ∀ change ∈ changes, change.From (o + 1) (u + 1)) :
    carryOut o u (line :: expect) changes
      = line :: carryOut (o + 1) (u + 1) expect changes := by
  cases changes with
  | nil => simp [carryOut]
  | cons change changes =>
    have hfirst := h change List.mem_cons_self
    cases change with
    | add u' val => rw [carryOut, if_neg (by rw [Change.From] at hfirst; omega)]
    | del o' => rw [carryOut, if_neg (by rw [Change.From] at hfirst; omega)]

/-- Carrying out the changes of a script gives the updated sequence. -/
theorem carryOut_changesOf (h : Script equalTo x y expect got diffs) :
    carryOut x y expect (changesOf x y diffs) = got := by
  induction h with
  | nil => simp [carryOut, changesOf]
  | @eq x y a b orig updated diffs hab _ ih =>
    obtain rfl : a = b := by simpa [equalTo] using hab
    have hstep : changesOf x y (⟨a, x, y, .eq⟩ :: diffs) = changesOf (x + 1) (y + 1) diffs := rfl
    rw [hstep, carryOut_cons fun _ ↦ from_of_mem_changesOf, ih]
  | @add x y b orig updated diffs _ ih =>
    have hstep : changesOf x y (⟨b, -1, y, .add⟩ :: diffs)
        = .add y b :: changesOf x (y + 1) diffs := rfl
    have hadd : carryOut x y orig (.add y b :: changesOf x (y + 1) diffs)
        = b :: carryOut x (y + 1) orig (changesOf x (y + 1) diffs) := by
      cases orig <;> rw [carryOut, if_pos rfl]
    rw [hstep, hadd, ih]
  | @del x y a orig updated diffs _ ih =>
    have hstep : changesOf x y (⟨a, x, -1, .del⟩ :: diffs)
        = .del x :: changesOf (x + 1) y diffs := rfl
    rw [hstep, carryOut, if_pos rfl, ih]

theorem Script.val_mem {α : Type} {cmp : α → α → Bool} {orig updated : List α}
    {diffs : List (Diff α)} (h : Script cmp x y orig updated diffs) :
    ∀ diff ∈ diffs, diff.val ∈ orig ∨ diff.val ∈ updated := by
  induction h with
  | nil => simp
  | eq _ _ ih => simp only [List.mem_cons, forall_eq_or_imp]; grind
  | add _ ih => simp only [List.mem_cons, forall_eq_or_imp]; grind
  | del _ ih => simp only [List.mem_cons, forall_eq_or_imp]; grind

/-! ## Nothing is lost -/

/-- **Reading a message back** gives the lines it is about. -/
theorem recover_rendered (h : Script equalTo 0 0 expect got diffs)
    (hexpect : ∀ line ∈ expect, '\n' ∉ line) (hgot : ∀ line ∈ got, '\n' ∉ line) :
    recover expect (rendered diffs) = got := by
  have hval : ∀ diff ∈ diffs, '\n' ∉ diff.val := fun diff hdiff ↦
    (h.val_mem diff hdiff).elim (hexpect diff.val) (hgot diff.val)
  rw [recover, readMessage_rendered hval, carryOut_changesOf h]

/-- What `diffMsg` returns can be read back. -/
theorem diffMsg_wp (hsize : expect.length + got.length ≤ 16383)
    (hexpect : ∀ line ∈ expect, '\n' ∉ line) (hgot : ∀ line ∈ got, '\n' ∉ line) :
    (diffMsg expect got).wp fun msg ↦ recover expect msg = got := by
  simp only [diffMsg, Run.wp_bind]
  refine Run.wp_mono (myersDiff_wp hsize) ?_
  rintro diffs ⟨hscript, -⟩
  have hlen := hscript.length_le
  rw [(toString_returns_of_le (by omega)).wp_iff]
  exact recover_rendered hscript hexpect hgot

/-- **A message is lossless**: relative to the expected lines, messages that are the same come from
the same lines. -/
theorem diffMsg_lossless (expected got₁ got₂ : StringsT)
    (hexpected : ∀ line ∈ expected, '\n' ∉ line) (hgot₁ : ∀ line ∈ got₁, '\n' ∉ line)
    (hgot₂ : ∀ line ∈ got₂, '\n' ∉ line) (hsize₁ : expected.length + got₁.length ≤ 16383)
    (hsize₂ : expected.length + got₂.length ≤ 16383) :
    ∃ msg₁ msg₂, (diffMsg expected got₁).Returns msg₁ ∧ (diffMsg expected got₂).Returns msg₂ ∧
      (msg₁ = msg₂ → got₁ = got₂) := by
  obtain ⟨msg₁, hret₁, hrec₁⟩ := diffMsg_wp hsize₁ hexpected hgot₁
  obtain ⟨msg₂, hret₂, hrec₂⟩ := diffMsg_wp hsize₂ hexpected hgot₂
  refine ⟨msg₁, msg₂, hret₁, hret₂, ?_⟩
  rintro rfl
  exact hrec₁.symm.trans hrec₂

theorem diffMsg_lossless_small :
    ∃ msg₁ msg₂, (diffMsg [['a'], ['b']] [['a'], ['\t', '+']]).Returns msg₁ ∧
      (diffMsg [['a'], ['b']] [['b'], ['c']]).Returns msg₂ ∧
      (msg₁ = msg₂ → [['a'], ['\t', '+']] = [['b'], ['c']]) :=
  diffMsg_lossless [['a'], ['b']] [['a'], ['\t', '+']] [['b'], ['c']] (by decide) (by decide)
    (by decide) (by decide) (by decide)

end Diff
end Cppkg
