import Cppkg.Egrpc.ServerAsyncStream

/-!
# What a stream says

`write_call_` as a function of the request, the element and the reply: whether it accepts the
element, and what it leaves in the reply.  In `serve` the reply is one for all elements up to the
first that is accepted, so that an element is offered what the elements skipped directly before it
have left there.

The messages of a stream are what `write_call_` makes of the accepted elements alone exactly if what
has been left there makes no difference to any of them, which is `Unaffected`.
-/

set_option autoImplicit false

namespace Cppkg
namespace Egrpc
namespace AsyncServerStreamCall

open Tagged

variable {Env REQ RES E : Type} [Inhabited RES]

/-! ## Replies that are handed on -/

/-- The elements of a range, each with the reply it is offered. -/
def offered (w : E → RES → Bool × RES) : RES → List E → List (E × RES)
  | _, [] => []
  | reply, e :: es =>
    let r := w e reply
    (e, reply) :: offered w (if r.1 then default else r.2) es

/-- What `write_call_` makes of the elements of a range. -/
def tried (w : E → RES → Bool × RES) (reply : RES) (es : List E) : List (Attempt RES E) :=
  (offered w reply es).map fun x ↦ ⟨x.1, (w x.1 x.2).1, (w x.1 x.2).2⟩

/-- For the elements of a range that are accepted, what the elements skipped before have left in the
reply makes no difference. -/
def Unaffected (w : E → RES → Bool × RES) (ranges : List E) : Prop :=
  ∀ x ∈ offered w default ranges, (w x.1 x.2).1 = true → (w x.1 x.2).2 = (w x.1 default).2

variable {f : Callbacks Env REQ RES E} {w : REQ → E → RES → Bool × RES}

/-- The loop leaves off where it can go on with a new reply. -/
theorem tried_writeLoop (hw : ∀ env req e reply, (f.writeCall env req e reply).2 = w req e reply)
    (req : REQ) (env : Env) (it : List E) (reply : RES) :
    tried (w req) reply it = (writeLoop f req env it reply).attempts
      ++ tried (w req) default (writeLoop f req env it reply).it := by
  induction it generalizing env reply with
  | nil => rfl
  | cons e it ih =>
    rw [writeLoop, tried, offered, hw]
    cases hwrote : (w req e reply).1 with
    | true => simp [tried, hwrote]
    | false =>
      have htried := ih (f.writeCall env req e reply).1 (w req e reply).2
      simpa [hwrote, tried] using htried

/-! ## The attempts of a call -/

/-- What a call has made of the elements so far, and would make of the others, is what it makes of
the range. -/
def Replays (w : REQ → E → RES → Bool × RES) (c : AsyncServerStreamCall REQ RES E) : Prop :=
  c.initialized.any Status.ok = true →
    c.attempts ++ tried (w c.req) default c.it = tried (w c.req) default c.ranges

theorem replays_process (hw : ∀ env req e reply, (f.writeCall env req e reply).2 = w req e reply)
    {env : Env} {c : AsyncServerStreamCall REQ RES E} (hc : Replays w c) :
    Replays w (process f env c).2.state := by
  have hstate : (process f env c).2.state = { c with
      status := (process f env c).2.state.status
      it := (writeLoop f c.req env c.it default).it
      attempts := c.attempts ++ (writeLoop f c.req env c.it default).attempts } := by
    rw [process]
    split
    · rfl
    · split <;> rfl
  rw [hstate]
  intro hok
  have htried := hc hok
  rwa [tried_writeLoop hw c.req env, ← List.append_assoc] at htried

variable [Inhabited REQ] {es : List (Event Env REQ)} {env : Env} {R : Env → REQ → Prop}
  {p : Pool Env (AsyncServerStreamCall REQ RES E) (Op RES)}
  {o : Object (AsyncServerStreamCall REQ RES E) (Op RES)}

theorem replays_serve (hw : ∀ env req e reply, (f.writeCall env req e reply).2 = w req e reply)
    {env : Env} {c : AsyncServerStreamCall REQ RES E}
    (hstartup : c.status = .startup → c.attempts = []) (hc : Replays w c) :
    Replays w (serve f env c).2.state := by
  rcases serve_cases f env c with
    ⟨-, hok, hserve⟩ | ⟨hstatus, -, hserve⟩ | ⟨-, hserve⟩ | ⟨-, hserve⟩
  all_goals rw [hserve]
  · intro hok'
    simp [hok] at hok'
  · refine replays_process hw fun _ ↦ ?_
    rw [hstartup hstatus, List.nil_append]
  · exact replays_process hw hc
  · exact hc

theorem attempts_of_startup (h : Follows f R o) (hstatus : o.state.status = .startup) :
    o.state.attempts = [] := by
  cases h with
  | waiting => rfl
  | refusing | refused | writing | finishing | finished => cases hstatus

/-- Only a call that has not tried anything receives a request. -/
theorem replays_receive {i : ℕ} {op : Op RES} {data : REQ} (h : Follows f R o)
    (hop : o.pending[i]? = some op) (ho : Replays w o.state) :
    Replays w (receive op data o.state) := by
  cases op with
  | write | finish => exact ho
  | request =>
    cases h with
    | waiting => exact fun hok ↦ by cases hok
    | refusing | refused | writing | finishing | finished =>
      simp [List.getElem?_singleton] at hop

/-- In a server none of whose calls is shut down, what a call makes of its range is what
`write_call_` makes of it. -/
theorem run_replays (hw : ∀ env req e reply, (f.writeCall env req e reply).2 = w req e reply)
    (hes : ∀ e ∈ es, e.Serves) (h : run f env es = some p) :
    ∀ o ∈ p.objects, Follows f (fun _ _ ↦ True) o ∧ Replays w o.state := by
  refine Pool.serves_inv ?_ hes h (List.forall_mem_singleton.mpr ⟨.waiting, fun hok ↦ by cases hok⟩)
  intro env o i op data ho hop o' ho'
  refine ⟨(lifecycle f).keeps env o i op data ho.1 hop o' ho', ?_⟩
  rcases List.mem_cons.mp ho' with rfl | ho'
  · refine replays_serve hw ?_ (replays_receive ho.1 hop ho.2)
    intro hstatus
    cases op with
    | request | write | finish => exact attempts_of_startup ho.1 hstatus
  · obtain rfl := creates_serve ho'
    exact fun hok ↦ by cases hok

/-! ## The messages of a call -/

/-- The message that is sent by an operation. -/
def Op.message? : Op RES → Option RES
  | .write res => some res
  | .request | .finish _ => none

/-- The messages that a call has sent, from the first. -/
def messages (o : Object (AsyncServerStreamCall REQ RES E) (Op RES)) : List RES :=
  o.issued.filterMap Op.message?

omit [Inhabited RES] [Inhabited REQ] in
theorem messages_finish (attempts : List (Attempt RES E)) (status : Status) :
    (Op.request :: writes attempts ++ [Op.finish status]).filterMap Op.message?
      = (attempts.filter Attempt.wrote).map Attempt.reply := by
  have hwrites : (writes attempts).filterMap Op.message?
      = (attempts.filter Attempt.wrote).map Attempt.reply := by
    rw [writes, List.filterMap_map]
    exact congrFun List.filterMap_eq_map' _
  rw [List.cons_append, List.filterMap_cons_none rfl, List.filterMap_append, hwrites]
  exact List.append_nil _

omit [Inhabited REQ] in
/-- What is made of the elements that are accepted is made of them alone if they are unaffected. -/
theorem map_tried_iff (g : E → RES → Bool × RES) (ranges : List E) :
    ((tried g default ranges).filter Attempt.wrote).map Attempt.reply
        = ((tried g default ranges).filter Attempt.wrote).map (fun a ↦ (g a.elem default).2) ↔
      Unaffected g ranges := by
  rw [List.map_inj_left, List.forall_mem_filter, tried, List.forall_mem_map, Unaffected]

/-- **Messages that are made of elements alone**: those of the elements that were accepted, in
order, each as `write_call_` makes it with a new reply. -/
def MadeAlone (w : REQ → E → RES → Bool × RES)
    (o : Object (AsyncServerStreamCall REQ RES E) (Op RES)) : Prop :=
  messages o = (o.state.attempts.filter Attempt.wrote).map
    fun a ↦ (w o.state.req a.elem default).2

/-- **When messages are made of elements alone**: in a whole run of a call on whose request
`init_call_` succeeds, exactly if what skipped elements leave in the reply makes no difference to
the element that is accepted after them. -/
theorem madeAlone_iff (hw : ∀ env req e reply, (f.writeCall env req e reply).2 = w req e reply)
    (hes : ∀ e ∈ es, e.Serves) (h : run f env es = some p) (ho : o ∈ p.objects)
    (hdel : o.deleted = 1) (hok : o.state.initialized.any Status.ok = true) :
    MadeAlone w o ↔ Unaffected (w o.state.req) o.state.ranges := by
  obtain ⟨hfollows, hreplays⟩ := run_replays hw hes h o ho
  cases hfollows with
  | waiting | refusing | writing | finishing => cases hdel
  | refused env req ranges status hserved hinit hstatus => simp [hstatus] at hok
  | finished env req ranges status attempts hserved hinit hstatus hmade hranges =>
    have htried : attempts = tried (w req) default ranges :=
      (List.append_nil _).symm.trans (hreplays hok)
    rw [MadeAlone, messages, messages_finish, htried]
    exact map_tried_iff (w req) ranges

/-- The stream of the odd numbers below `2`. -/
theorem madeAlone_iff_small :
    ∃ p o, run oddNumbers () [.serve 0 0 2, .serve 0 0 0, .serve 0 0 0] = some p ∧ o ∈ p.objects ∧
      (MadeAlone (fun req e reply ↦ (oddNumbers.writeCall () req e reply).2) o ↔
        Unaffected (fun e reply ↦ (oddNumbers.writeCall () 2 e reply).2) [0, 1]) := by
  have hes : ∀ e ∈ ([.serve 0 0 2, .serve 0 0 0, .serve 0 0 0] : List (Event Unit ℕ)),
      e.Serves := by
    simp [Event.Serves]
  refine ⟨_, _, rfl, List.mem_cons_self, ?_⟩
  exact madeAlone_iff (fun _ _ _ _ ↦ rfl) hes rfl List.mem_cons_self rfl rfl

/-- Callbacks that add each number to the reply, and stream where they are at the odd ones. -/
def sums : Callbacks Unit ℕ ℕ ℕ :=
  { oddNumbers with writeCall := fun env _ e reply ↦ (env, e % 2 = 1, reply + e) }

/-- The message for `3` is `5`, since the number before it was added to the same reply. -/
theorem not_madeAlone : ¬ ∀ (es : List (Event Unit ℕ)) p, (∀ e ∈ es, e.Serves) →
    run sums () es = some p → ∀ o ∈ p.objects, o.deleted = 1 →
      o.state.initialized.any Status.ok = true →
        MadeAlone (fun req e reply ↦ (sums.writeCall () req e reply).2) o := by
  intro h
  have halone : [1, 5] = [1, 3] := h [.serve 0 0 4, .serve 0 0 0, .serve 0 0 0, .serve 0 0 0] _
    (by simp [Event.Serves]) rfl _ List.mem_cons_self rfl rfl
  exact absurd halone (by decide)

end AsyncServerStreamCall
end Egrpc
end Cppkg
