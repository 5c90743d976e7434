import Cppkg.Egrpc.Status
import Cppkg.Lib.Tagged
import Mathlib.Data.List.TakeWhile

/-!
# A stream of replies

An `AsyncClientStreamHandler` is the tag of all operations of one call: the start of the call, the
reads, and `Finish`.  It goes through three states.  In each it is called when the operation that it
issued last has completed; it then issues the next one, and in the last state deletes itself, which
sets the promise.

A read that completes has written `reply_`, and `Finish` has written `status_`, before the handler
is called.
-/

set_option autoImplicit false

namespace Cppkg
namespace Egrpc

namespace AsyncClientStreamHandler

inductive CallStatus
  | startup | process | finish
deriving DecidableEq

/-- What is issued with the handler as the tag. -/
inductive Operation
  | start | read | finish
deriving DecidableEq

end AsyncClientStreamHandler

/-- A handler, which may have no promise. -/
structure AsyncClientStreamHandler (DATA : Type) where
  callStatus : AsyncClientStreamHandler.CallStatus
  reply : DATA
  status : Status
  completePromise : Bool
  error : Option String
deriving DecidableEq

namespace AsyncClientStreamHandler

variable {DATA : Type}

/-- A completion in the queue: which of the outstanding operations it is of, whether the operation
went well, and what a read writes to `reply_`, or `Finish` to `status_`. -/
structure Completion (DATA : Type) where
  index : ℕ
  eventStatus : Bool
  data : DATA
  status : Status

/-- The handler with its operations, the data that `handler_` was called with, and the values that
the promise was set to. -/
structure Stream (DATA : Type) where
  object : Tagged.Object (AsyncClientStreamHandler DATA) Operation
  handled : List DATA
  fulfilled : List (Option String)
deriving DecidableEq

/-- What the completion of an operation leaves in the handler. -/
def receive (h : AsyncClientStreamHandler DATA) (e : Completion DATA) :
    Operation → AsyncClientStreamHandler DATA
  | .start => h
  | .read => { h with reply := e.data }
  | .finish => { h with status := e.status }

namespace Stream

def issue (s : Stream DATA) (h : AsyncClientStreamHandler DATA) (op : Operation) : Stream DATA :=
  { s with object := s.object.react { state := h, issues := [op] } }

/-- `delete this`: the destructor of `iClientHandler` sets the promise. -/
def delete (s : Stream DATA) (h : AsyncClientStreamHandler DATA) : Stream DATA :=
  { s with
    object := s.object.react { state := h, deletes := true }
    fulfilled := if h.completePromise then s.fulfilled ++ [h.error] else s.fulfilled }

/-- `handle`.  `handler` is what `handler_` leaves in `reply_`, which it gets by reference. -/
def handle (handler : DATA → DATA) (s : Stream DATA) (h : AsyncClientStreamHandler DATA)
    (eventStatus : Bool) : Stream DATA :=
  match h.callStatus with
  | .startup =>
    if eventStatus then s.issue { h with callStatus := .process } .read
    else s.issue { h with callStatus := .finish } .finish
  | .process =>
    if eventStatus then
      { s with handled := s.handled ++ [h.reply] }.issue { h with reply := handler h.reply } .read
    else s.issue { h with callStatus := .finish } .finish
  | .finish =>
    if h.status.ok then s.delete h
    else s.delete { h with error := some h.status.errorMessage }

/-- A completion is taken out of the queue, and the handler is called. -/
def step (handler : DATA → DATA) (s : Stream DATA) (e : Completion DATA) :
    Option (Stream DATA) := do
  let op ← s.object.pending[e.index]?
  some ({ s with object := s.object.complete e.index }.handle handler
    (s.object.state.receive e op) e.eventStatus)

/-- The call was started.  `reply` is what a `DATA` is made with. -/
def start (reply : DATA) (completePromise : Bool) : Stream DATA :=
  ⟨.new ⟨.startup, reply, .OK, completePromise, none⟩ .start, [], []⟩

/-- Where the stream is after these completions. -/
def run (handler : DATA → DATA) (reply : DATA) (completePromise : Bool)
    (es : List (Completion DATA)) : Option (Stream DATA) :=
  Steps.steps (step handler) (start reply completePromise) es

/-! ## What has happened -/

variable {handler : DATA → DATA} {reply : DATA} {completePromise : Bool} {s s' : Stream DATA}
  {e : Completion DATA} {es : List (Completion DATA)}

/-- What the promise is set to when the call ends with this status. -/
def outcome (status : Status) : Option String :=
  if status.ok then none else some status.errorMessage

/-- **How far the stream is.**  The handler waits for the start; or all went well so far, and it
waits for a read; or something did not, and it waits for `Finish`; or that has completed. -/
inductive Progress (reply : DATA) (completePromise : Bool) :
    List (Completion DATA) → Stream DATA → Prop
  | starting : Progress reply completePromise [] (start reply completePromise)
  | reading (e : Completion DATA) (oks : List (Completion DATA)) (reply₁ : DATA)
      (hoks : ∀ e' ∈ e :: oks, e'.eventStatus = true) :
      Progress reply completePromise (e :: oks)
        ⟨⟨⟨.process, reply₁, .OK, completePromise, none⟩,
          .start :: List.replicate (oks.length + 1) .read, [.read], 0⟩, oks.map (·.data), []⟩
  | finishing (oks : List (Completion DATA)) (e : Completion DATA) (reply₁ : DATA)
      (hoks : ∀ e' ∈ oks, e'.eventStatus = true) (he : e.eventStatus = false) :
      Progress reply completePromise (oks ++ [e])
        ⟨⟨⟨.finish, reply₁, .OK, completePromise, none⟩,
          .start :: List.replicate oks.length .read ++ [.finish], [.finish], 0⟩,
          oks.tail.map (·.data), []⟩
  | finished (oks : List (Completion DATA)) (e e' : Completion DATA) (reply₁ : DATA)
      (hoks : ∀ e' ∈ oks, e'.eventStatus = true) (he : e.eventStatus = false) :
      Progress reply completePromise (oks ++ [e] ++ [e'])
        ⟨⟨⟨.finish, reply₁, e'.status, completePromise, outcome e'.status⟩,
          .start :: List.replicate oks.length .read ++ [.finish], [], 1⟩,
          oks.tail.map (·.data), if completePromise then [outcome e'.status] else []⟩

/-- The only operation that is outstanding is the one that completes. -/
theorem step_cases {h : AsyncClientStreamHandler DATA} {issued : List Operation} {op : Operation}
    {deleted : ℕ} {handled : List DATA} {fulfilled : List (Option String)}
    (hstep : step handler ⟨⟨h, issued, [op], deleted⟩, handled, fulfilled⟩ e = some s') :
    s' = handle handler ⟨⟨h, issued, [], deleted⟩, handled, fulfilled⟩ (h.receive e op)
      e.eventStatus := by
  simp only [step, Option.bind_eq_bind, Option.bind_eq_some_iff, Option.some.injEq] at hstep
  obtain ⟨op', hop, rfl⟩ := hstep
  obtain ⟨hindex, rfl⟩ := Tagged.Object.eq_of_singleton hop
  simp [Tagged.Object.complete, hindex]

/-- What is left of a handler that deletes itself when nothing is outstanding. -/
theorem delete_eq (h h' : AsyncClientStreamHandler DATA) (issued : List Operation)
    (handled : List DATA) : delete ⟨⟨h, issued, [], 0⟩, handled, []⟩ h'
      = ⟨⟨h', issued, [], 1⟩, handled, if h'.completePromise then [h'.error] else []⟩ := by
  simp [delete, Tagged.Object.react]

/-- **One step** takes the stream from where it is to where it is next. -/
theorem progress_step (hstep : s.step handler e = some s')
    (hs : Progress reply completePromise es s) : Progress reply completePromise (es ++ [e]) s' := by
  cases hs with
  | starting =>
    rw [step_cases hstep]
    cases he : e.eventStatus with
    | true => exact .reading e [] reply (List.forall_mem_singleton.mpr he)
    | false => exact .finishing [] e reply (List.forall_mem_nil _) he
  | reading e₁ oks reply₁ hoks =>
    rw [step_cases hstep]
    cases he : e.eventStatus with
    | true =>
      have hread : Progress reply completePromise (e₁ :: (oks ++ [e])) _ :=
        .reading e₁ (oks ++ [e]) (handler e.data)
          (List.forall_mem_append.mpr ⟨hoks, List.forall_mem_singleton.mpr he⟩)
      rw [List.length_append, List.replicate_succ', List.map_append] at hread
      exact hread
    | false => exact .finishing (e₁ :: oks) e e.data hoks he
  | finishing oks e₁ reply₁ hoks he₁ =>
    rw [step_cases hstep]
    have hfinish : Progress reply completePromise (oks ++ [e₁] ++ [e]) _ :=
      .finished oks e₁ e reply₁ hoks he₁
    cases hok : e.status.ok with
    | true =>
      rw [outcome, if_pos hok] at hfinish
      simp only [handle, receive, hok, if_true, delete_eq]
      exact hfinish
    | false =>
      rw [outcome, if_neg (by simp [hok])] at hfinish
      simp only [handle, receive, hok, delete_eq]
      exact hfinish
  | finished => simp [step] at hstep

theorem progress_run (h : run handler reply completePromise es = some s) :
    Progress reply completePromise es s :=
  Steps.steps_history (fun _ _ _ _ ↦ progress_step) h .starting

/-! ## What a run has done -/

/-- The data of the reads that went well, when the operations complete in the order in which they
were issued. -/
def reads (issued : List Operation) (es : List (Completion DATA)) : List DATA :=
  ((issued.zip es).filter fun c ↦ c.1 = .read ∧ c.2.eventStatus = true).map (·.2.data)

theorem reads_replicate {oks : List (Completion DATA)} (hoks : ∀ e ∈ oks, e.eventStatus = true)
    (ops : List Operation) (es : List (Completion DATA)) :
    reads (List.replicate oks.length .read ++ ops) (oks ++ es)
      = oks.map (·.data) ++ reads ops es := by
  induction oks with
  | nil => rfl
  | cons e oks ih =>
    obtain ⟨he, hoks⟩ := List.forall_mem_cons.mp hoks
    have hcons : reads (.read :: (List.replicate oks.length .read ++ ops)) (e :: (oks ++ es))
        = e.data :: reads (List.replicate oks.length .read ++ ops) (oks ++ es) := by
      simp [reads, he]
    rw [List.length_cons, List.replicate_succ, List.cons_append, List.cons_append, hcons, ih hoks]
    rfl

/-- The start is no read, nor is what comes after the first failure. -/
theorem reads_failed {oks : List (Completion DATA)} (hoks : ∀ e ∈ oks, e.eventStatus = true)
    (he : e.eventStatus = false) (es : List (Completion DATA)) :
    reads (.start :: List.replicate oks.length .read ++ [.finish]) (oks ++ e :: es)
      = oks.tail.map (·.data) := by
  have hfinish : reads [.finish] es = [] := by cases es <;> simp [reads]
  cases oks with
  | nil => exact hfinish
  | cons e₁ oks =>
    have hreads := reads_replicate (List.forall_mem_cons.mp hoks).2 [.read, .finish] (e :: es)
    have hcons : reads [.read, .finish] (e :: es) = reads [.finish] es := by simp [reads, he]
    rw [hcons, hfinish, List.append_nil] at hreads
    rw [List.length_cons, List.replicate_succ', List.cons_append, List.append_assoc]
    exact hreads

/-- **What a stream has done** after these completions.  Exactly one operation is outstanding, or
the handler was deleted once and none is; the operations complete in the order in which they were
issued; a read is issued after each operation that went well, and `Finish` after the first that did
not; `handler_` was called with what the reads that went well have read; and when the handler is
deleted, `Finish` was the last operation to complete, and its status is in the promise. -/
structure Lawful (completePromise : Bool) (es : List (Completion DATA)) (s : Stream DATA) :
    Prop where
  settled : s.object.Settled
  pending : s.object.pending = s.object.issued.drop es.length
  issued : s.object.issued =
    .start :: List.replicate (es.takeWhile (·.eventStatus)).length .read ++
      if es.all (·.eventStatus) then [] else [.finish]
  handled : s.handled = reads s.object.issued es
  unfinished : s.object.deleted = 0 → s.fulfilled = []
  finished : s.object.deleted = 1 → s.object.issued.count .finish = 1 ∧
    s.object.issued.getLast? = some .finish ∧ ∃ e, es.getLast? = some e ∧
      s.fulfilled = if completePromise then [outcome e.status] else []

/-- What was issued when all went well so far. -/
theorem issued_of_ok {oks : List (Completion DATA)} (hoks : ∀ e ∈ oks, e.eventStatus = true) :
    List.replicate (oks.takeWhile (·.eventStatus)).length Operation.read ++
      (if oks.all (·.eventStatus) then [] else [.finish]) = List.replicate oks.length .read := by
  rw [List.takeWhile_eq_self_iff.mpr hoks, if_pos (List.all_eq_true.mpr hoks), List.append_nil]

/-- What was issued when something did not go well. -/
theorem issued_of_failed {oks : List (Completion DATA)} (hoks : ∀ e ∈ oks, e.eventStatus = true)
    (he : e.eventStatus = false) (es : List (Completion DATA)) :
    List.replicate ((oks ++ e :: es).takeWhile (·.eventStatus)).length Operation.read ++
      (if (oks ++ e :: es).all (·.eventStatus) then [] else [.finish])
      = List.replicate oks.length .read ++ [.finish] := by
  rw [List.takeWhile_append_of_pos hoks, List.takeWhile_cons_of_neg (by simp [he]),
    List.append_nil, if_neg (by simp [he])]

theorem lawful_of_progress (hs : Progress reply completePromise es s) :
    Lawful completePromise es s := by
  cases hs with
  | starting =>
    exact ⟨Tagged.Object.settled_new _ _, rfl, rfl, rfl, fun _ ↦ rfl, fun h ↦ by cases h⟩
  | reading e oks reply₁ hoks =>
    refine ⟨.inl ⟨rfl, rfl⟩, ?_, ?_, ?_, fun _ ↦ rfl, fun h ↦ by cases h⟩
    · simp
    · exact congrArg _ (issued_of_ok hoks).symm
    · have hreads := reads_replicate (List.forall_mem_cons.mp hoks).2 [.read] []
      have hnone : reads [.read] ([] : List (Completion DATA)) = [] := rfl
      rw [List.append_nil, ← List.replicate_succ', hnone, List.append_nil] at hreads
      exact hreads.symm
  | finishing oks e reply₁ hoks he =>
    refine ⟨.inl ⟨rfl, rfl⟩, ?_, ?_, ?_, fun _ ↦ rfl, fun h ↦ by cases h⟩
    · simp
    · exact congrArg _ (issued_of_failed hoks he []).symm
    · exact (reads_failed hoks he []).symm
  | finished oks e e' reply₁ hoks he =>
    rw [List.append_assoc]
    refine ⟨.inr ⟨rfl, rfl⟩, ?_, ?_, ?_, fun h ↦ absurd h Nat.one_ne_zero,
      fun _ ↦ ⟨?_, ?_, e', ?_, rfl⟩⟩
    · simp
    · exact congrArg _ (issued_of_failed hoks he [e']).symm
    · exact (reads_failed hoks he [e']).symm
    · simp [List.count_replicate]
    · simp [List.getLast?_cons]
    · simp

/-- **Every stream runs to its end in order**, with any number of replies and any end: whatever the
completions are, what has been done is lawful. -/
theorem stream_lawful (handler : DATA → DATA) (reply : DATA) (completePromise : Bool)
    (es : List (Completion DATA)) (s : Stream DATA)
    (h : run handler reply completePromise es = some s) : Lawful completePromise es s :=
  lawful_of_progress (progress_run h)

/-- One reply is read, then the call fails. -/
def oneReply : List (Completion ℕ) :=
  [⟨0, true, 0, .OK⟩, ⟨0, true, 7, .OK⟩, ⟨0, false, 0, .OK⟩, ⟨0, true, 0, ⟨13, "oh no"⟩⟩]

theorem stream_lawful_oneReply : ∃ s, run id 0 true oneReply = some s ∧ s.handled = [7] ∧
    s.fulfilled = [some "oh no"] ∧ Lawful true oneReply s :=
  ⟨_, rfl, rfl, rfl, stream_lawful id 0 true oneReply _ rfl⟩

/-- The call does not start. -/
example : (run id 0 true [⟨0, false, 0, .OK⟩, ⟨0, true, 0, .OK⟩]).map
    (fun s ↦ (s.object.issued, s.handled, s.fulfilled))
      = some ([.start, .finish], [], [none]) := by decide

end Stream
end AsyncClientStreamHandler
end Egrpc
end Cppkg
