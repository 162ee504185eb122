import DistributedLabs.Labrpc.Contract

/-!
# The goroutines of a request

`Call`, `processReq`, the goroutine of the handler, the one that drains its channel, and the timer
that sends a late message. `Together` says how far each of them is when the others have come to a
certain point: every goroutine that blocks on a channel is waited for by another one, and the
channel of the handler has exactly one receiver as long as the handler has not ended. It holds of
every request of every run (`all_together`).
-/

namespace DistributedLabs.Labrpc

variable {E N S R : Type}

/-- `processReq` is started and has neither sent nor scheduled a message. -/
def ProcessPc.busy : ProcessPc N S → Bool
  | .idle => false
  | .finished => false
  | _ => true

/-- `processReq` has not started the handler. -/
def ProcessPc.early : ProcessPc N S → Bool
  | .idle => true
  | .read => true
  | .noReply => true
  | .delay _ => true
  | .drop _ => true
  | .execute _ => true
  | _ => false

/-- `processReq` waits for the handler. -/
def ProcessPc.awaits : ProcessPc N S → Bool
  | .wait _ => true
  | .poll _ => true
  | _ => false

/-- The message that `processReq` has at hand. -/
def ProcessPc.message : ProcessPc N S → Option ReplyMsg
  | .recheck _ reply => reply
  | .answer _ reply _ => reply
  | .reorder _ reply => some reply
  | .send msg => some msg
  | _ => none

/-- The handler's goroutine is started and has not ended. -/
def HandlerPc.opened : HandlerPc N S R → Bool
  | .absent => false
  | .finished _ _ => false
  | _ => true

/-- The goroutines of a request fit together: each one that waits for a message is waited for. -/
structure Together (wire : Wire R) (req : Request E N S R) : Prop where
  sending : req.call = .sending → req.process = .idle
  waiting : req.call = .waiting → req.process.busy = true ∨ req.timer.isSome = true
  busy : req.process.busy = true → req.call = .waiting ∧ req.timer = none
  early : req.process.early = true → req.handler = .absent
  handler : req.handler.opened = true → req.process.awaits = true ∨ req.draining = true
  awaits : req.process.awaits = true → req.handler.opened = true ∧ req.draining = false
  drains : req.draining = true → req.handler.opened = true
  message : ∀ msg, req.process.message = some msg → (received wire msg).isSome = true
  timer : ∀ msg, req.timer = some msg → req.call = .waiting ∧ (received wire msg).isSome = true

/-- A new request. -/
theorem Together.new (wire : Wire R) (endname : E) :
    Together wire (newRequest endname : Request E N S R) := by
  constructor <;>
    simp [newRequest, ProcessPc.busy, ProcessPc.awaits, HandlerPc.opened, ProcessPc.message]

/-- A failure is received. -/
theorem received_failure (wire : Wire R) : (received wire failure).isSome = true := rfl

/-- A reply that was encoded is received. -/
theorem received_encode (wire : Wire R) (value : R) :
    (received wire ⟨true, wire.encode value⟩).isSome = true := by
  simp [received, wire.decode_encode]

section Requests

variable {wire : Wire R} {rn : Network E N S} {req next : Request E N S R}
  {fresh : List (RequestEvent N S R)}

/-- `processReq` goes on, and may have started the handler or a goroutine that drains its
channel. -/
theorem Together.move (h : Together wire req) {point : ProcessPc N S} {handler : HandlerPc N S R}
    {draining : Bool} (hbusy : req.process.busy = true) (hpoint : point.busy = true)
    (hearly : point.early = true → handler = .absent)
    (hopened : handler.opened = true → point.awaits = true ∨ draining = true)
    (hawaits : point.awaits = true → handler.opened = true ∧ draining = false)
    (hdrains : draining = true → handler.opened = true)
    (hmessage : ∀ msg, point.message = some msg → (received wire msg).isSome = true) :
    Together wire { req with process := point, handler := handler, draining := draining } where
  sending := by
    intro hcall
    rw [show req.call = .waiting from (h.busy hbusy).1] at hcall
    cases hcall
  waiting := fun _ => Or.inl hpoint
  busy := fun _ => h.busy hbusy
  early := hearly
  handler := hopened
  awaits := hawaits
  drains := hdrains
  message := hmessage
  timer := h.timer

/-- `processReq` leaves the message to a timer. -/
theorem Together.schedule (h : Together wire req) (hbusy : req.process.busy = true)
    (hawaits : req.handler.opened = true → req.draining = true) {msg : ReplyMsg}
    (hmessage : (received wire msg).isSome = true) :
    Together wire { req with process := .finished, timer := some msg } where
  sending := by
    intro hcall
    rw [show req.call = .waiting from (h.busy hbusy).1] at hcall
    cases hcall
  waiting := fun _ => Or.inr rfl
  busy := by simp [ProcessPc.busy]
  early := by simp [ProcessPc.early]
  handler := fun hopened => Or.inr (hawaits hopened)
  awaits := by simp [ProcessPc.awaits]
  drains := h.drains
  message := by simp [ProcessPc.message]
  timer := by
    intro other hother
    obtain rfl := Option.some.inj hother
    exact ⟨(h.busy hbusy).1, hmessage⟩

/-- The handler's goroutine goes on. -/
theorem Together.advance (h : Together wire req) {handler : HandlerPc N S R}
    (hopened : req.handler.opened = true) (hlater : handler.opened = true) :
    Together wire { req with handler := handler } :=
  { h with
    early := by
      intro hearly
      rw [h.early hearly] at hopened
      cases hopened
    handler := fun _ => h.handler hopened
    awaits := fun hawaits => ⟨hlater, (h.awaits hawaits).2⟩
    drains := fun _ => hlater }

/-- The channel of the handler is drained. -/
theorem Together.drained (h : Together wire req) {handler : HandlerPc N S R}
    (hdraining : req.draining = true) (hlater : handler.opened = false) :
    Together wire { req with handler := handler, draining := false } :=
  { h with
    early := by
      intro hearly
      have hopened := h.drains hdraining
      rw [h.early hearly] at hopened
      cases hopened
    handler := by simp [hlater]
    awaits := by
      intro hawaits
      rw [(h.awaits hawaits).2] at hdraining
      cases hdraining
    drains := by simp }

/-- A goroutine that is not busy neither waits for the handler nor has a message. -/
theorem ProcessPc.of_not_busy {point : ProcessPc N S} (h : point.busy = false) :
    point.awaits = false ∧ point.message = none := by
  cases point with
  | idle | finished => exact ⟨rfl, rfl⟩
  | _ => cases h

/-- A handler that `processReq` does not wait for is drained. -/
theorem Together.drained_of_opened (h : Together wire req) (hawaits : req.process.awaits = false)
    (hopened : req.handler.opened = true) : req.draining = true :=
  (h.handler hopened).resolve_left (by simp [hawaits])

/-- `Call` returns, and no message is left for it. -/
theorem Together.returns (h : Together wire req) {point : ProcessPc N S} {result : Option R}
    (hpoint : point.busy = false) (hearly : point.early = true → req.process.early = true)
    (hawaits : req.process.awaits = false) :
    Together wire { req with process := point, call := .returned result, timer := none } where
  sending := by simp
  waiting := by simp
  busy := by simp [hpoint]
  early := fun hnew => h.early (hearly hnew)
  handler := fun hopened => Or.inr (h.drained_of_opened hawaits hopened)
  awaits := by simp [(ProcessPc.of_not_busy hpoint).1]
  drains := h.drains
  message := by simp [(ProcessPc.of_not_busy hpoint).2]
  timer := by simp

/-- A message that a timer will send is for a `Call` that waits. -/
theorem Together.no_timer (h : Together wire req) (hcall : req.call = .sending) :
    req.timer = none := by
  refine Option.eq_none_iff_forall_ne_some.mpr fun msg hmsg => ?_
  rw [(h.timer msg hmsg).1] at hcall
  cases hcall

/-- `processReq` goes on before it has started the handler. -/
theorem Together.move_early (h : Together wire req) {point : ProcessPc N S}
    (hearly : req.process.early = true) (hbusy : req.process.busy = true)
    (hpoint : point.busy = true) (hnot : point.awaits = false)
    (hmessage : ∀ msg, point.message = some msg → (received wire msg).isSome = true) :
    Together wire { req with process := point } := by
  refine h.move hbusy hpoint (fun _ => h.early hearly) (fun hopened => ?_) (by simp [hnot]) h.drains
    hmessage
  rw [h.early hearly] at hopened
  cases hopened

/-- `processReq` goes on after it has got the reply or given up. -/
theorem Together.move_late (h : Together wire req) {point : ProcessPc N S}
    (hbusy : req.process.busy = true) (hawaits : req.process.awaits = false)
    (hpoint : point.busy = true) (hearly : point.early = false) (hnot : point.awaits = false)
    (hmessage : ∀ msg, point.message = some msg → (received wire msg).isSome = true) :
    Together wire { req with process := point } :=
  h.move hbusy hpoint (by simp [hearly])
    (fun hopened => Or.inr (h.drained_of_opened hawaits hopened)) (by simp [hnot]) h.drains hmessage

/-- `processReq` goes on and still waits for the handler. -/
theorem Together.move_waiting (h : Together wire req) {point : ProcessPc N S}
    (hbusy : req.process.busy = true) (hwaits : req.process.awaits = true)
    (hpoint : point.busy = true) (hearly : point.early = false) (hawaits : point.awaits = true)
    (hmessage : point.message = none) : Together wire { req with process := point } :=
  h.move hbusy hpoint (by simp [hearly]) (fun _ => Or.inl hawaits) (fun _ => h.awaits hwaits)
    h.drains (by simp [hmessage])

variable [DecidableEq S]

/-- Every statement of `processReq` keeps the goroutines together. -/
theorem Together.process_req (h : Together wire req)
    (hprocess : Processed rn req req.process next fresh) : Together wire next := by
  obtain ⟨endname, call, process, handler, draining, timer⟩ := req
  cases hprocess with
  | unconnected | reliable | unreliable | delay | kept =>
      exact h.move_early rfl rfl rfl rfl (by simp [ProcessPc.message])
  | dropped =>
      exact h.move_early rfl rfl rfl rfl (by simp [ProcessPc.message, received_failure])
  | noReply => exact h.schedule rfl (h.drained_of_opened rfl) (received_failure wire)
  | execute target =>
      have hnot : draining = false := by
        rw [← Bool.not_eq_true]
        intro hdraining
        have hopened : handler.opened = true := h.drains hdraining
        rw [show handler = .absent from h.early rfl] at hopened
        cases hopened
      exact h.move rfl rfl (by simp [ProcessPc.early]) (fun _ => Or.inl rfl) (fun _ => ⟨rfl, hnot⟩)
        (fun _ => rfl) (by simp [ProcessPc.message])
  | wait | alive => exact h.move_waiting rfl rfl rfl rfl rfl rfl
  | dead target hdead =>
      exact h.move rfl rfl (by simp [ProcessPc.early]) (fun _ => Or.inr rfl)
        (by simp [ProcessPc.awaits]) (fun _ => (h.awaits rfl).1) (by simp [ProcessPc.message])
  | recheck | pass | now => exact h.move_late rfl rfl rfl rfl rfl h.message
  | refuse =>
      exact h.move_late rfl rfl rfl rfl rfl (by simp [ProcessPc.message, received_failure])
  | later target reply => exact h.schedule rfl (h.drained_of_opened rfl) (h.message reply rfl)

/-- Every step on a request keeps its goroutines together. -/
theorem Together.step (h : Together wire req) {action : RequestAction R}
    (hstep : req.step wire rn action = some (next, fresh)) : Together wire next := by
  cases step_cases hstep with
  | processReq chance hprocess => exact h.process_req hprocess
  | @accept endname handler draining timer hlistening =>
      obtain rfl : timer = none := h.no_timer rfl
      exact {
        sending := by simp
        waiting := fun _ => Or.inl rfl
        busy := fun _ => ⟨rfl, rfl⟩
        early := fun _ => h.early rfl
        handler := h.handler
        awaits := by simp [ProcessPc.awaits]
        drains := h.drains
        message := by simp [ProcessPc.message]
        timer := by simp }
  | @giveUp endname process handler draining timer hdone =>
      obtain rfl : process = .idle := h.sending rfl
      obtain rfl : timer = none := h.no_timer rfl
      exact h.returns rfl id rfl
  | @takeReply endname call draining timer target server value =>
      have hnot : draining = false := (h.awaits rfl).2
      exact h.move rfl rfl (by simp [ProcessPc.early]) (by simp [HandlerPc.opened])
        (by simp [ProcessPc.awaits]) (by simp [hnot])
        (by simp [ProcessPc.message, received_encode])
  | dispatch | handlerReturn => exact h.advance rfl rfl
  | drain => exact h.drained rfl rfl
  | @receive endname handler draining timer msg result hresult =>
      obtain rfl : timer = none := (h.busy rfl).2
      exact h.returns rfl (by simp [ProcessPc.early]) rfl
  | @receiveLater endname process handler draining msg result hresult =>
      have hidle : process.busy = false := by
        rw [← Bool.not_eq_true]
        intro hbusy
        cases (h.busy hbusy).2
      exact h.returns hidle id (ProcessPc.of_not_busy hidle).1

/-- `processReq` shows messages only, and starts the handler if there was none. -/
theorem Together.process_req_quiet (h : Together wire req)
    (hprocess : Processed rn req req.process next fresh) :
    next.call = req.call ∧
      (next.handler = req.handler ∨
        req.handler = .absent ∧ ∃ target, next.handler = .spawned target) ∧
      (fresh = [] ∨ ∃ msg, fresh = [.posted msg]) := by
  obtain ⟨endname, call, process, handler, draining, timer⟩ := req
  cases hprocess with
  | execute target => exact ⟨rfl, Or.inr ⟨h.early rfl, target, rfl⟩, Or.inl rfl⟩
  | noReply | later => exact ⟨rfl, Or.inl rfl, Or.inr ⟨_, rfl⟩⟩
  | _ => exact ⟨rfl, Or.inl rfl, Or.inl rfl⟩

/-- Only the return of the handler gives a reply. -/
theorem Together.runs_step (h : Together wire req) {action : RequestAction R}
    (hother : ∀ value, action ≠ .handlerReturn value)
    (hstep : req.step wire rn action = some (next, fresh)) :
    next.handler.runs = req.handler.runs := by
  cases step_cases hstep with
  | handlerReturn target value => exact absurd rfl (hother value)
  | processReq chance hprocess =>
      obtain ⟨-, hsame | ⟨habsent, target, hspawned⟩, -⟩ := h.process_req_quiet hprocess
      · rw [hsame]
      · rw [habsent, hspawned]
        rfl
  | _ => rfl

end Requests

/-! ## All requests of a run -/

section Runs

variable [DecidableEq E] [DecidableEq N] [DecidableEq S] {wire : Wire R}

/-- The goroutine of `MakeNetwork` listens until the network is destroyed. -/
theorem listening_or_done {actions : List (Action E N S R)} {σ : System E N S R}
    (hrun : (labrpc E N S wire).run actions = some σ) :
    σ.rn.listening = true ∨ σ.rn.done = true := by
  refine Machine.run_induction (motive := fun _ σ => σ.rn.listening = true ∨ σ.rn.done = true)
    ?_ ?_ hrun
  · exact Or.inl rfl
  · intro actions σ action next _ ih hstep
    cases action with
    | network call =>
        obtain ⟨rn, hperform, rfl⟩ := Option.map_eq_some_iff.mp hstep
        cases call with
        | makeEnd endname =>
            simp only [Network.perform, makeEnd] at hperform
            split at hperform
            · cases hperform
            · obtain rfl := Option.some.inj hperform
              exact ih
        | deleteEnd endname =>
            simp only [Network.perform, deleteEnd] at hperform
            split at hperform
            · obtain rfl := Option.some.inj hperform
              exact ih
            · cases hperform
        | cleanup =>
            simp only [Network.perform, cleanup] at hperform
            split at hperform
            · cases hperform
            · obtain rfl := Option.some.inj hperform
              exact Or.inr rfl
        | stopListening =>
            simp only [Network.perform] at hperform
            split at hperform
            · rename_i hdone
              obtain rfl := Option.some.inj hperform
              exact Or.inr hdone
            · cases hperform
        | _ =>
            obtain rfl := Option.some.inj hperform
            exact ih
    | call endname =>
        obtain rfl := Option.some.inj hstep
        exact ih
    | request index action =>
        obtain ⟨req, later, fresh, -, -, rfl, -⟩ := step_request hstep
        exact ih

/-- What holds of a new request, and is kept by the steps on it whatever the network is, holds of
every request. -/
theorem forall_requests {motive : Request E N S R → Prop}
    (hnew : ∀ endname, motive (newRequest endname))
    (hkept : ∀ rn req action later fresh, motive req →
      req.step wire rn action = some (later, fresh) → motive later)
    {actions : List (Action E N S R)} {σ : System E N S R}
    (hrun : (labrpc E N S wire).run actions = some σ) : ∀ req ∈ σ.requests, motive req := by
  refine Machine.run_induction (motive := fun _ σ => ∀ req ∈ σ.requests, motive req) ?_ ?_ hrun
  · intro req hreq
    cases hreq
  · intro actions σ action next _ ih hstep
    cases action with
    | network call =>
        obtain ⟨rn, -, rfl⟩ := Option.map_eq_some_iff.mp hstep
        exact ih
    | call endname =>
        obtain rfl := Option.some.inj hstep
        intro req hreq
        rcases List.mem_append.mp hreq with hold | hlast
        · exact ih req hold
        · rw [List.mem_singleton.mp hlast]
          exact hnew endname
    | request index action =>
        obtain ⟨old, later, fresh, hold, hlater, rfl, -⟩ := step_request hstep
        intro req hreq
        rcases List.mem_or_eq_of_mem_set hreq with hmem | rfl
        · exact ih req hmem
        · exact hkept σ.rn old action _ fresh (ih old (List.mem_of_getElem? hold)) hlater

/-- The goroutines of every request fit together. -/
theorem all_together {actions : List (Action E N S R)} {σ : System E N S R}
    (hrun : (labrpc E N S wire).run actions = some σ) : ∀ req ∈ σ.requests, Together wire req :=
  forall_requests (Together.new wire) (fun _ _ _ _ _ h hstep => h.step hstep) hrun

end Runs

end DistributedLabs.Labrpc
