import Cppkg.Egrpc.Status
import Cppkg.Lib.Tagged

/-!
# A server call that streams replies

`AsyncServerStreamCall` waits for a request, lets `init_call_` make a range of it, and writes one
reply for each element of the range that `write_call_` accepts.  One completion of a write leads to
the next: the loop in `serve` goes on to the next element that is accepted, and if there is none the
call finishes.

All elements that one `serve` goes through are offered the same reply, which is a new one each time
`serve` is called.
-/

set_option autoImplicit false

namespace Cppkg
namespace Egrpc

open Tagged

/-- The operations of a call: the request, and those of its writer. -/
inductive AsyncServerStreamCall.Op (RES : Type)
  | request
  | write (res : RES)
  | finish (status : Status)
deriving DecidableEq

/-- A call of `write_call_`: the element, what was returned, and what was left in the reply. -/
structure AsyncServerStreamCall.Attempt (RES E : Type) where
  elem : E
  wrote : Bool
  reply : RES
deriving DecidableEq

inductive AsyncServerStreamCall.CallStatus
  | startup | process | finish
deriving DecidableEq

/-- The members of a call that change; `it` is the rest of the range from `it_` on.  The last two
are no members: they are what `init_call_` returned, and the calls of `write_call_`. -/
structure AsyncServerStreamCall (REQ RES E : Type) where
  req : REQ
  ranges : List E
  it : List E
  status : AsyncServerStreamCall.CallStatus
  initialized : Option Status
  attempts : List (AsyncServerStreamCall.Attempt RES E)
deriving DecidableEq

namespace AsyncServerStreamCall

variable {Env REQ RES E : Type}

/-- The two callbacks, which may use and change what is outside the calls. -/
structure Callbacks (Env REQ RES E : Type) where
  initCall : Env → REQ → Env × Status × List E
  writeCall : Env → REQ → E → RES → Env × Bool × RES

/-! ## The loop -/

/-- The local variables after the loop, and its calls of `write_call_`. -/
structure Loop (Env RES E : Type) where
  env : Env
  wrote : Bool
  reply : RES
  it : List E
  attempts : List (Attempt RES E)

/-- `while (false == wrote && it_ != ranges_.end())`. -/
def writeLoop (f : Callbacks Env REQ RES E) (req : REQ) : Env → List E → RES → Loop Env RES E
  | env, [], reply => ⟨env, false, reply, [], []⟩
  | env, e :: it, reply =>
    let r := f.writeCall env req e reply
    if r.2.1 then ⟨r.1, true, r.2.2, it, [⟨e, true, r.2.2⟩]⟩
    else
      let loop := writeLoop f req r.1 it r.2.2
      { loop with attempts := ⟨e, false, r.2.2⟩ :: loop.attempts }

/-! ## The call -/

/-- A call that is past its request finishes. -/
def finishing (status : Status) (c : AsyncServerStreamCall REQ RES E) :
    Reaction (AsyncServerStreamCall REQ RES E) (Op RES) where
  state := { c with status := .finish }
  issues := [.finish status]

def shutdown (c : AsyncServerStreamCall REQ RES E) :
    Reaction (AsyncServerStreamCall REQ RES E) (Op RES) where
  state := c
  issues := if c.status = .process then [.finish .CANCELLED] else []
  deletes := true

/-- The request that has come in is in `req_`. -/
def receive : Op RES → REQ → AsyncServerStreamCall REQ RES E → AsyncServerStreamCall REQ RES E
  | .request, req, c => { c with req }
  | .write _, _, c | .finish _, _, c => c

variable [Inhabited REQ] [Inhabited RES]

/-- The constructor, which issues the request. -/
def create : Object (AsyncServerStreamCall REQ RES E) (Op RES) :=
  .new ⟨default, [], [], .startup, none, []⟩ .request

/-- `case PROCESS`.  At the end of the range the loop does nothing. -/
def process (f : Callbacks Env REQ RES E) (env : Env) (c : AsyncServerStreamCall REQ RES E) :
    Env × Reaction (AsyncServerStreamCall REQ RES E) (Op RES) :=
  let c := { c with status := .process }
  let loop := writeLoop f c.req env c.it default
  let c := { c with it := loop.it, attempts := c.attempts ++ loop.attempts }
  if loop.wrote then (loop.env, { state := c, issues := [.write loop.reply] })
  else if c.it.isEmpty then (loop.env, finishing .OK c)
  else (loop.env, { state := c })

def serve (f : Callbacks Env REQ RES E) (env : Env) (c : AsyncServerStreamCall REQ RES E) :
    Env × Reaction (AsyncServerStreamCall REQ RES E) (Op RES) :=
  match c.status with
  | .startup =>
    let r := f.initCall env c.req
    let c := { c with ranges := r.2.2, initialized := some r.2.1 }
    if r.2.1.ok = false then (r.1, { finishing r.2.1 c with creates := [create] })
    else
      let r := process f r.1 { c with it := c.ranges }
      (r.1, { r.2 with creates := [create] })
  | .process => process f env c
  | .finish => (env, c.shutdown)

def behaviour (f : Callbacks Env REQ RES E) :
    Behaviour Env (AsyncServerStreamCall REQ RES E) (Op RES) REQ where
  receive := receive
  serve := serve f
  shutdown := shutdown

/-- A server with one call. -/
def start (env : Env) : Pool Env (AsyncServerStreamCall REQ RES E) (Op RES) := ⟨env, [create]⟩

/-- Where the server is after these events. -/
def run (f : Callbacks Env REQ RES E) (env : Env) (es : List (Event Env REQ)) :
    Option (Pool Env (AsyncServerStreamCall REQ RES E) (Op RES)) :=
  Steps.steps (Pool.step (behaviour f)) (start env) es

/-- Callbacks that stream the odd numbers below the one that is asked for, and fail if that is
`0`. -/
def oddNumbers : Callbacks Unit ℕ ℕ ℕ where
  initCall env req := (env, if req = 0 then ⟨13, "zero"⟩ else .OK, List.range req)
  writeCall env _ e reply := (env, e % 2 = 1, if e % 2 = 1 then reply + e else reply)

/-- Two calls, of which the second is refused before the first has written all its replies. -/
example : ((run oddNumbers () [.serve 0 0 5, .serve 1 0 0, .serve 0 0 0, .serve 1 0 0, .serve 0 0 0,
      .serve 0 0 0]).map fun p ↦ p.objects.map fun o ↦ (o.issued, o.deleted))
    = some [([.request, .write 1, .write 3, .finish .OK], 1),
        ([.request, .finish ⟨13, "zero"⟩], 1), ([.request], 0)] := by decide

/-! ## What `serve` does -/

section

variable (f : Callbacks Env REQ RES E)

omit [Inhabited REQ] [Inhabited RES] in
/-- The loop skips elements up to one that is accepted, or up to the end. -/
theorem writeLoop_cases (req : REQ) (env : Env) (it : List E) (reply : RES) :
    (∃ skipped e, (writeLoop f req env it reply).wrote = true ∧
      (writeLoop f req env it reply).attempts
        = skipped ++ [⟨e, true, (writeLoop f req env it reply).reply⟩] ∧
      it = skipped.map Attempt.elem ++ e :: (writeLoop f req env it reply).it ∧
      ∀ a ∈ skipped, a.wrote = false) ∨
    ((writeLoop f req env it reply).wrote = false ∧
      (writeLoop f req env it reply).it = [] ∧
      it = (writeLoop f req env it reply).attempts.map Attempt.elem ∧
      ∀ a ∈ (writeLoop f req env it reply).attempts, a.wrote = false) := by
  induction it generalizing env reply with
  | nil => exact .inr ⟨rfl, rfl, rfl, by simp [writeLoop]⟩
  | cons e it ih =>
    rw [writeLoop]
    by_cases hw : (f.writeCall env req e reply).2.1
    · rw [if_pos hw]
      exact .inl ⟨[], e, rfl, rfl, rfl, by simp⟩
    · rw [if_neg hw]
      rcases ih (f.writeCall env req e reply).1 (f.writeCall env req e reply).2.2 with
        ⟨skipped, e', hwrote, hattempts, hit, hskip⟩ | ⟨hwrote, hend, hit, hskip⟩
      · exact .inl ⟨⟨e, false, (f.writeCall env req e reply).2.2⟩ :: skipped, e', hwrote,
          congrArg (List.cons _) hattempts, congrArg (List.cons e) hit,
          List.forall_mem_cons.mpr ⟨rfl, hskip⟩⟩
      · exact .inr ⟨hwrote, hend, congrArg (List.cons e) hit, List.forall_mem_cons.mpr ⟨rfl, hskip⟩⟩

omit [Inhabited REQ] in
/-- A call that goes on writes one reply or finishes. -/
theorem process_cases (env : Env) (c : AsyncServerStreamCall REQ RES E) :
    (∃ skipped e reply it env', c.it = skipped.map Attempt.elem ++ e :: it ∧
      (∀ a ∈ skipped, a.wrote = false) ∧
      process f env c = (env', ⟨{ c with
        it, status := .process, attempts := c.attempts ++ (skipped ++ [⟨e, true, reply⟩]) },
        [.write reply], [], false⟩)) ∨
    (∃ skipped env', c.it = skipped.map Attempt.elem ∧ (∀ a ∈ skipped, a.wrote = false) ∧
      process f env c = (env', ⟨{ c with
        it := [], status := .finish, attempts := c.attempts ++ skipped },
        [.finish .OK], [], false⟩)) := by
  rcases writeLoop_cases f c.req env c.it default with
    ⟨skipped, e, hwrote, hattempts, hit, hskip⟩ | ⟨hwrote, hend, hit, hskip⟩
  · refine .inl ⟨skipped, e, (writeLoop f c.req env c.it default).reply,
      (writeLoop f c.req env c.it default).it, (writeLoop f c.req env c.it default).env, hit, hskip,
      ?_⟩
    simp [process, hwrote, hattempts]
  · refine .inr ⟨(writeLoop f c.req env c.it default).attempts,
      (writeLoop f c.req env c.it default).env, hit, hskip, ?_⟩
    simp [process, hwrote, hend, finishing]

variable {f} {env : Env} {c : AsyncServerStreamCall REQ RES E}

theorem serve_refused (hstatus : c.status = .startup)
    (hok : (f.initCall env c.req).2.1.ok = false) :
    serve f env c = ((f.initCall env c.req).1,
      ⟨{ c with
        ranges := (f.initCall env c.req).2.2
        initialized := some (f.initCall env c.req).2.1
        status := .finish },
        [.finish (f.initCall env c.req).2.1], [create], false⟩) := by
  rw [serve, hstatus]
  exact if_pos hok

theorem serve_accepted (hstatus : c.status = .startup)
    (hok : (f.initCall env c.req).2.1.ok = true) :
    serve f env c =
      let r := process f (f.initCall env c.req).1 { c with
        ranges := (f.initCall env c.req).2.2
        initialized := some (f.initCall env c.req).2.1
        it := (f.initCall env c.req).2.2 }
      (r.1, { r.2 with creates := [create] }) := by
  rw [serve, hstatus]
  exact if_neg (Bool.eq_false_iff.not.mpr (not_not.mpr hok))

theorem serve_process (hstatus : c.status = .process) : serve f env c = process f env c := by
  rw [serve, hstatus]

theorem serve_finish (hstatus : c.status = .finish) : serve f env c = (env, ⟨c, [], [], true⟩) := by
  rw [serve, hstatus]
  simp [shutdown, hstatus]

/-- What becomes of a call that is served. -/
theorem serve_cases (f : Callbacks Env REQ RES E) (env : Env)
    (c : AsyncServerStreamCall REQ RES E) :
    (c.status = .startup ∧ (f.initCall env c.req).2.1.ok = false ∧
      (serve f env c).2 = ⟨{ c with
        ranges := (f.initCall env c.req).2.2
        initialized := some (f.initCall env c.req).2.1
        status := .finish },
        [.finish (f.initCall env c.req).2.1], [create], false⟩) ∨
    (c.status = .startup ∧ (f.initCall env c.req).2.1.ok = true ∧
      (serve f env c).2 = { (process f (f.initCall env c.req).1 { c with
        ranges := (f.initCall env c.req).2.2
        initialized := some (f.initCall env c.req).2.1
        it := (f.initCall env c.req).2.2 }).2 with creates := [create] }) ∨
    (c.status = .process ∧ (serve f env c).2 = (process f env c).2) ∨
    (c.status = .finish ∧ (serve f env c).2 = ⟨c, [], [], true⟩) := by
  cases hstatus : c.status with
  | startup =>
    cases hok : (f.initCall env c.req).2.1.ok with
    | false => exact .inl ⟨rfl, rfl, congrArg Prod.snd (serve_refused hstatus hok)⟩
    | true => exact .inr (.inl ⟨rfl, rfl, congrArg Prod.snd (serve_accepted hstatus hok)⟩)
  | process => exact .inr (.inr (.inl ⟨rfl, congrArg Prod.snd (serve_process hstatus)⟩))
  | finish => exact .inr (.inr (.inr ⟨rfl, congrArg Prod.snd (serve_finish hstatus)⟩))

omit [Inhabited REQ] in
/-- A call that goes on is past its request, and creates no other. -/
theorem process_onward (f : Callbacks Env REQ RES E) (env : Env)
    (c : AsyncServerStreamCall REQ RES E) :
    (process f env c).2.state.status ≠ .startup ∧ (process f env c).2.creates = [] := by
  rcases process_cases f env c with
    ⟨skipped, e, reply, it, env', -, -, hprocess⟩ | ⟨skipped, env', -, -, hprocess⟩
  all_goals
    rw [hprocess]
    simp

/-- A call that is served is past its request, and has created one call if it was not before. -/
theorem serve_onward (f : Callbacks Env REQ RES E) (env : Env)
    (c : AsyncServerStreamCall REQ RES E) :
    (serve f env c).2.state.status ≠ .startup ∧
      (serve f env c).2.creates = if c.status = .startup then [create] else [] := by
  rcases serve_cases f env c with ⟨hstatus, -, hserve⟩ | ⟨hstatus, -, hserve⟩ |
    ⟨hstatus, hserve⟩ | ⟨hstatus, hserve⟩
  all_goals rw [hserve, hstatus]
  · exact ⟨by simp, rfl⟩
  · exact ⟨(process_onward f _ _).1, rfl⟩
  · exact process_onward f env c
  · exact ⟨by simp, rfl⟩

theorem creates_serve {o : Object (AsyncServerStreamCall REQ RES E) (Op RES)}
    (ho : o ∈ (serve f env c).2.creates) : o = create := by
  rw [(serve_onward f env c).2] at ho
  split at ho
  · exact List.mem_singleton.mp ho
  · exact absurd ho List.not_mem_nil

end

/-! ## The life of a call -/

def Op.isRequest : Op RES → Bool
  | .request => true
  | .write _ | .finish _ => false

/-- The call is there and waits for a request. -/
def waits (o : Object (AsyncServerStreamCall REQ RES E) (Op RES)) : Bool :=
  o.deleted == 0 && o.pending.any Op.isRequest

/-- The replies that were accepted, in order. -/
def writes (attempts : List (Attempt RES E)) : List (Op RES) :=
  (attempts.filter Attempt.wrote).map fun a ↦ .write a.reply

section

variable {attempts skipped : List (Attempt RES E)} {e : E} {reply : RES}

omit [Inhabited RES]

theorem length_writes_le (attempts : List (Attempt RES E)) :
    (writes attempts).length ≤ attempts.length := by
  rw [writes, List.length_map]
  exact List.length_filter_le _ _

theorem writes_append (hskip : ∀ a ∈ skipped, a.wrote = false) :
    writes (attempts ++ skipped) = writes attempts := by
  have hnil : skipped.filter Attempt.wrote = [] := by
    simpa [List.filter_eq_nil_iff] using hskip
  rw [writes, List.filter_append, hnil, List.append_nil, writes]

theorem writes_concat (hskip : ∀ a ∈ skipped, a.wrote = false) :
    writes (attempts ++ (skipped ++ [⟨e, true, reply⟩])) = writes attempts ++ [.write reply] := by
  rw [← List.append_assoc, writes, List.filter_append, List.map_append]
  exact congrArg (· ++ _) (writes_append hskip)

end

/-- What `write_call_` makes of some elements, one after the other: each is offered the reply that
the one before it has left. -/
def tries (f : Callbacks Env REQ RES E) (req : REQ) : Env → RES → List E → List (Attempt RES E)
  | _, _, [] => []
  | env, reply, e :: es =>
    let r := f.writeCall env req e reply
    ⟨e, r.2.1, r.2.2⟩ :: tries f req r.1 r.2.2 es

/-- **What a call has made of its elements.**  Each time it is served it tries some, with a new
reply, of which only the last may be accepted; the first time, after `init_call_`, and again when
the last was accepted.  `R` has what was outside when the call was served. -/
inductive Made (f : Callbacks Env REQ RES E) (R : Env → REQ → Prop) (req : REQ) (env : Env) :
    List (Attempt RES E) → Prop
  | first (es : List E)
      (hskip : ∀ a ∈ (tries f req (f.initCall env req).1 default es).dropLast, a.wrote = false) :
      Made f R req env (tries f req (f.initCall env req).1 default es)
  | next (tried : List (Attempt RES E)) (e : E) (reply : RES) (env' : Env) (data : REQ)
      (es : List E) (hmade : Made f R req env (tried ++ [⟨e, true, reply⟩]))
      (hserved : R env' data)
      (hskip : ∀ a ∈ (tries f req env' default es).dropLast, a.wrote = false) :
      Made f R req env (tried ++ [⟨e, true, reply⟩] ++ tries f req env' default es)

/-- **The operations of a call**: a request; if `init_call_` failed, a finish with what it returned;
otherwise a write for each element that `write_call_` accepted, and when all elements of the range
were tried, in order, a finish; and when that has completed, the call is deleted.  `R` has what was
outside when the call was served, and what it was served with, so that `init_call_` and
`write_call_` have returned what they return there. -/
inductive Follows (f : Callbacks Env REQ RES E) (R : Env → REQ → Prop) :
    Object (AsyncServerStreamCall REQ RES E) (Op RES) → Prop
  | waiting : Follows f R create
  | refusing (env : Env) (req : REQ) (ranges : List E) (status : Status) (hserved : R env req)
      (hinit : (f.initCall env req).2 = (status, ranges)) (hstatus : status.ok = false) :
      Follows f R ⟨⟨req, ranges, [], .finish, some status, []⟩, [.request, .finish status],
        [.finish status], 0⟩
  | refused (env : Env) (req : REQ) (ranges : List E) (status : Status) (hserved : R env req)
      (hinit : (f.initCall env req).2 = (status, ranges)) (hstatus : status.ok = false) :
      Follows f R ⟨⟨req, ranges, [], .finish, some status, []⟩, [.request, .finish status], [], 1⟩
  | writing (env : Env) (req : REQ) (ranges it : List E) (status : Status)
      (tried : List (Attempt RES E)) (e : E) (reply : RES) (hserved : R env req)
      (hinit : (f.initCall env req).2 = (status, ranges)) (hstatus : status.ok = true)
      (hmade : Made f R req env (tried ++ [⟨e, true, reply⟩]))
      (hranges : tried.map Attempt.elem ++ e :: it = ranges) :
      Follows f R ⟨⟨req, ranges, it, .process, some status, tried ++ [⟨e, true, reply⟩]⟩,
        .request :: writes (tried ++ [⟨e, true, reply⟩]), [.write reply], 0⟩
  | finishing (env : Env) (req : REQ) (ranges : List E) (status : Status)
      (attempts : List (Attempt RES E)) (hserved : R env req)
      (hinit : (f.initCall env req).2 = (status, ranges)) (hstatus : status.ok = true)
      (hmade : Made f R req env attempts) (hranges : attempts.map Attempt.elem = ranges) :
      Follows f R ⟨⟨req, ranges, [], .finish, some status, attempts⟩,
        .request :: writes attempts ++ [.finish .OK], [.finish .OK], 0⟩
  | finished (env : Env) (req : REQ) (ranges : List E) (status : Status)
      (attempts : List (Attempt RES E)) (hserved : R env req)
      (hinit : (f.initCall env req).2 = (status, ranges)) (hstatus : status.ok = true)
      (hmade : Made f R req env attempts) (hranges : attempts.map Attempt.elem = ranges) :
      Follows f R ⟨⟨req, ranges, [], .finish, some status, attempts⟩,
        .request :: writes attempts ++ [.finish .OK], [], 1⟩

variable {f : Callbacks Env REQ RES E} {R R' : Env → REQ → Prop}
  {o : Object (AsyncServerStreamCall REQ RES E) (Op RES)}
  {env : Env} {i : ℕ} {op : Op RES} {data : REQ} {c : AsyncServerStreamCall REQ RES E}

omit [Inhabited REQ] in
theorem Made.mono (hR : ∀ env data, R env data → R' env data) {req : REQ}
    {attempts : List (Attempt RES E)} (h : Made f R req env attempts) :
    Made f R' req env attempts := by
  induction h with
  | first es hskip => exact .first es hskip
  | next tried e reply env' data es _ hserved hskip ih =>
    exact .next tried e reply env' data es ih (hR env' data hserved) hskip

theorem Follows.mono (hR : ∀ env data, R env data → R' env data) (h : Follows f R o) :
    Follows f R' o := by
  cases h with
  | waiting => exact .waiting
  | refusing env req ranges status hserved hinit hstatus =>
    exact .refusing env req ranges status (hR env req hserved) hinit hstatus
  | refused env req ranges status hserved hinit hstatus =>
    exact .refused env req ranges status (hR env req hserved) hinit hstatus
  | writing env req ranges it status tried e reply hserved hinit hstatus hmade hranges =>
    exact .writing env req ranges it status tried e reply (hR env req hserved) hinit hstatus
      (hmade.mono hR) hranges
  | finishing env req ranges status attempts hserved hinit hstatus hmade hranges =>
    exact .finishing env req ranges status attempts (hR env req hserved) hinit hstatus
      (hmade.mono hR) hranges
  | finished env req ranges status attempts hserved hinit hstatus hmade hranges =>
    exact .finished env req ranges status attempts (hR env req hserved) hinit hstatus
      (hmade.mono hR) hranges

theorem Follows.settled (h : Follows f R o) : o.Settled := by
  cases h with
  | waiting => exact Object.settled_new _ _
  | refusing | writing | finishing => exact .inl ⟨rfl, rfl⟩
  | refused | finished => exact .inr ⟨rfl, rfl⟩

omit [Inhabited REQ] [Inhabited RES] in
/-- What the loop has tried. -/
theorem writeLoop_tries (f : Callbacks Env REQ RES E) (req : REQ) (env : Env) (it : List E)
    (reply : RES) : (writeLoop f req env it reply).attempts
      = tries f req env reply ((writeLoop f req env it reply).attempts.map Attempt.elem) := by
  induction it generalizing env reply with
  | nil => rfl
  | cons e it ih =>
    rw [writeLoop]
    by_cases hw : (f.writeCall env req e reply).2.1 = true
    · simp [hw, tries]
    · rw [if_neg hw]
      have hfalse : (f.writeCall env req e reply).2.1 = false := Bool.eq_false_iff.mpr hw
      have htries := ih (f.writeCall env req e reply).1 (f.writeCall env req e reply).2.2
      rw [List.map_cons, tries, hfalse, ← htries]

omit [Inhabited REQ] in
/-- What a call that goes on tries: some elements with a new reply, of which only the last may be
accepted. -/
theorem process_tries (f : Callbacks Env REQ RES E) (env : Env)
    (c : AsyncServerStreamCall REQ RES E) : ∃ es,
      (process f env c).2.state.attempts = c.attempts ++ tries f c.req env default es ∧
      ∀ a ∈ (tries f c.req env default es).dropLast, a.wrote = false := by
  have hattempts : (process f env c).2.state.attempts
      = c.attempts ++ (writeLoop f c.req env c.it default).attempts := by
    rw [process]
    split
    · rfl
    · split <;> rfl
  refine ⟨_, hattempts.trans (congrArg _ (writeLoop_tries f c.req env c.it default)), ?_⟩
  rw [← writeLoop_tries]
  rcases writeLoop_cases f c.req env c.it default with
    ⟨skipped, e, -, htried, -, hskip⟩ | ⟨-, -, -, hskip⟩
  · rw [htried, List.dropLast_concat]
    exact hskip
  · exact fun a ha ↦ hskip a (List.dropLast_subset _ ha)

/-- A call that goes on stays on its way, if what it tries is made then. -/
theorem Follows.process (f : Callbacks Env REQ RES E) (env₀ env : Env) (req : REQ)
    (callStatus : CallStatus) {ranges it : List E} {status : Status}
    {attempts : List (Attempt RES E)} (hserved : R env₀ req)
    (hinit : (f.initCall env₀ req).2 = (status, ranges)) (hstatus : status.ok = true)
    (hranges : attempts.map Attempt.elem ++ it = ranges)
    (hmade : ∀ es, (∀ a ∈ (tries f req env default es).dropLast, a.wrote = false) →
      Made f R req env₀ (attempts ++ tries f req env default es)) :
    Follows f R ((⟨⟨req, ranges, it, callStatus, some status, attempts⟩,
        .request :: writes attempts, [], 0⟩ : Object _ (Op RES)).react
      (process f env ⟨req, ranges, it, callStatus, some status, attempts⟩).2) := by
  obtain ⟨es, htries, hes⟩ :=
    process_tries f env ⟨req, ranges, it, callStatus, some status, attempts⟩
  replace hmade := hmade es hes
  rcases process_cases f env ⟨req, ranges, it, callStatus, some status, attempts⟩ with
    ⟨skipped, e, reply, it', env', hit, hskip, hprocess⟩ | ⟨skipped, env', hit, hskip, hprocess⟩
  · replace hit : it = skipped.map Attempt.elem ++ e :: it' := hit
    rw [hprocess] at htries ⊢
    rw [← htries] at hmade
    rw [← List.append_assoc] at hmade
    have hfollows := Follows.writing env₀ req ranges it' status (attempts ++ skipped) e reply
      hserved hinit hstatus hmade (by rw [← hranges, hit]; simp)
    rwa [List.append_assoc, writes_concat hskip] at hfollows
  · replace hit : it = skipped.map Attempt.elem := hit
    rw [hprocess] at htries ⊢
    rw [← htries] at hmade
    have hfollows := Follows.finishing env₀ req ranges status (attempts ++ skipped) hserved hinit
      hstatus hmade (by rw [← hranges, hit, List.map_append])
    rwa [writes_append hskip] at hfollows

/-- A call that is served stays on its way, … -/
theorem Follows.step (h : Follows f R o) (hop : o.pending[i]? = some op) (hserved : R env data) :
    Follows f R ((o.complete i).react (serve f env (receive op data o.state)).2) := by
  cases h with
  | waiting =>
    obtain ⟨rfl, rfl⟩ := Object.eq_of_singleton hop
    cases hok : (f.initCall env data).2.1.ok with
    | false =>
      rw [serve_refused rfl hok]
      exact .refusing env data _ _ hserved rfl hok
    | true =>
      rw [serve_accepted rfl hok]
      have hranges : ([] : List (Attempt RES E)).map Attempt.elem ++ (f.initCall env data).2.2
        = (f.initCall env data).2.2 := rfl
      exact Follows.process f env (f.initCall env data).1 data .startup hserved rfl hok hranges
        fun es hes ↦ .first es hes
  | refusing env₀ req ranges status hserved₀ hinit hstatus =>
    obtain ⟨rfl, rfl⟩ := Object.eq_of_singleton hop
    rw [serve_finish rfl]
    exact .refused env₀ req ranges status hserved₀ hinit hstatus
  | writing env₀ req ranges it status tried e reply hserved₀ hinit hstatus hmade hranges =>
    obtain ⟨rfl, rfl⟩ := Object.eq_of_singleton hop
    rw [serve_process rfl]
    exact Follows.process f env₀ env req .process hserved₀ hinit hstatus (by simpa using hranges)
      fun es hes ↦ .next tried e reply env data es hmade hserved hes
  | finishing env₀ req ranges status attempts hserved₀ hinit hstatus hmade hranges =>
    obtain ⟨rfl, rfl⟩ := Object.eq_of_singleton hop
    rw [serve_finish rfl, Object.react, List.append_nil]
    exact .finished env₀ req ranges status attempts hserved₀ hinit hstatus hmade hranges
  | refused | finished => simp at hop

/-- What a call has been through, and when. -/
theorem keepsServed (f : Callbacks Env REQ RES E) : (behaviour f).KeepsServed (Follows f) where
  mono _ _ _ hR h := h.mono hR
  serves _ _ _ _ _ _ h hop hserved := h.step hop hserved
  creates _ _ _ _ ho := by
    rw [creates_serve ho]
    exact .waiting

/-- The calls that wait for a request are those that have not had one. -/
theorem Follows.waits_iff (h : Follows f R o) : waits o = true ↔ o.state.status = .startup := by
  cases h <;> simp [waits, create, Object.new, Op.isRequest]

/-- … and leaves one call behind that waits for a request if it did so itself. -/
theorem Follows.countP_waits (h : Follows f R o) (hop : o.pending[i]? = some op) :
    (Pool.after (o.complete i) (serve f env (receive op data o.state)).2).countP waits
      = [o].countP waits := by
  have hstatus : (receive op data o.state).status = o.state.status := by cases op <;> rfl
  obtain ⟨honward, hcreates⟩ := serve_onward f env (receive op data o.state)
  have hfollows : Follows f (fun _ _ ↦ True)
      ((o.complete i).react (serve f env (receive op data o.state)).2) :=
    (h.mono fun _ _ _ ↦ trivial).step hop trivial
  have hreact := hfollows.waits_iff.not.mpr honward
  rw [Pool.after, List.countP_cons, if_neg hreact, hcreates, hstatus, List.countP_singleton,
    Nat.add_zero]
  by_cases hstartup : o.state.status = .startup
  · rw [if_pos hstartup, if_pos (h.waits_iff.mpr hstartup)]
    rfl
  · rw [if_neg hstartup, if_neg (h.waits_iff.not.mpr hstartup)]
    rfl

theorem Follows.length_issued (h : Follows f R o) :
    o.pending.length ≤ o.issued.length ∧ o.issued.length ≤ o.state.ranges.length + 2 := by
  cases h with
  | waiting => simp [create, Object.new]
  | refusing | refused => simp
  | writing env req ranges it status tried e reply hserved hinit hstatus hmade hranges =>
    have hwrites := length_writes_le (tried ++ [⟨e, true, reply⟩])
    have hlength := congrArg List.length hranges
    rw [List.length_append, List.length_map, List.length_cons] at hlength
    rw [List.length_append, List.length_singleton] at hwrites
    simp only [List.length_cons, List.length_nil]
    omega
  | finishing env req ranges status attempts hserved hinit hstatus hmade hranges
  | finished env req ranges status attempts hserved hinit hstatus hmade hranges =>
    have hwrites := length_writes_le attempts
    have hlength := congrArg List.length hranges
    rw [List.length_map] at hlength
    simp only [List.length_append, List.length_cons, List.length_nil]
    omega

theorem lifecycle (f : Callbacks Env REQ RES E) :
    Lifecycle (behaviour f) (Follows f fun _ _ ↦ True) waits fun c ↦ c.ranges.length + 2 where
  keeps := (keepsServed f).keeps
  succeeds _ _ _ _ _ h hop := h.countP_waits hop
  settled _ h := h.settled
  pending_le _ h := h.length_issued.1
  issued_le _ h := h.length_issued.2
  fresh env c o ho := by
    rw [creates_serve ho]
    rfl

/-- In a server none of whose calls is shut down, one call waits for a request and all are on their
way; and a call that was served once for each element of its range, and twice more, has been
deleted. -/
theorem run_serves {es : List (Event Env REQ)}
    {p : Pool Env (AsyncServerStreamCall REQ RES E) (Op RES)} (hes : ∀ e ∈ es, e.Serves)
    (h : run f env es = some p) : p.objects.countP waits = 1 ∧ ∀ k o, p.objects[k]? = some o →
      Follows f (Pool.ServedIn (behaviour f) (start env) es k) o ∧
        (o.state.ranges.length + 2 ≤ es.countP (Event.isServe k) → o.deleted = 1) := by
  have hstart : ∀ R, ∀ o ∈ (start env : Pool Env (AsyncServerStreamCall REQ RES E) _).objects,
      Follows f R o := fun _ ↦ List.forall_mem_singleton.mpr .waiting
  have hlife := lifecycle f
  refine ⟨hlife.countP_waits hes h (hstart _), fun k o ho ↦ ⟨?_, hlife.deleted hes h (hstart _) ho⟩⟩
  exact Pool.served_inv (keepsServed f) hes h (fun o ho R ↦ hstart R o ho) ho

end AsyncServerStreamCall
end Egrpc
end Cppkg
