import DistributedLabs.Labrpc.Goroutines

/-!
# Every call returns

`Call` promises to return unless the handler does not. `Request.work` counts the statements that the
goroutines of a request have before them; every step on the request does one, except that
`processReq` goes back to wait when it has polled a server that is alive. So a request takes a
bounded number of steps apart from these polls, and without the timer of `processReq` it is stuck
only when it waits for a handler that runs or when it is over. When the handler returns, a few steps
end the call and all its goroutines, whatever has happened before (`call_returns`).
-/

namespace DistributedLabs.Labrpc

variable {E N S R : Type}

/-! ## The work that is left -/

/-- The statements of `processReq` that are left, if no poll finds the server alive. -/
def ProcessPc.work : ProcessPc N S → Nat
  | .idle => 11
  | .read => 10
  | .delay _ => 9
  | .drop _ => 8
  | .execute _ => 7
  | .wait _ => 6
  | .poll _ => 5
  | .recheck _ _ => 4
  | .answer _ _ _ => 3
  | .reorder _ _ => 2
  | .send _ => 1
  | .noReply => 1
  | .finished => 0

/-- The steps of the handler's goroutine that are left. -/
def HandlerPc.work : HandlerPc N S R → Nat
  | .absent => 3
  | .spawned _ => 3
  | .running _ => 2
  | .returned _ _ => 1
  | .finished _ _ => 0

/-- The return of `Call`. -/
def CallPc.work : CallPc R → Nat
  | .sending => 1
  | .waiting => 1
  | .returned _ => 0

/-- The work that is left on a request. -/
def Request.work (req : Request E N S R) : Nat :=
  req.process.work + req.handler.work + req.call.work

/-- The steps for which a poll leads back, if it finds the server alive. -/
def ProcessPc.polls : ProcessPc N S → Nat
  | .poll _ => 2
  | _ => 0

/-- The steps that are left on a request, if the timer does not fire again. -/
def Request.left (req : Request E N S R) : Nat :=
  req.work + req.process.polls

/-- A request has at most 15 steps before it. -/
theorem Request.left_le (req : Request E N S R) : req.left ≤ 15 := by
  have hhandler : req.handler.work ≤ 3 := by cases req.handler <;> simp [HandlerPc.work]
  have hcall : req.call.work ≤ 1 := by cases req.call <;> simp [CallPc.work]
  have hprocess : req.process.work + req.process.polls ≤ 11 := by
    cases req.process <;> simp [ProcessPc.work, ProcessPc.polls]
  unfold Request.left Request.work
  omega

section Requests

variable {wire : Wire R} {rn : Network E N S} {req next : Request E N S R}
  {fresh : List (RequestEvent N S R)} [DecidableEq S]

/-- The step polls a server that is alive. -/
def livePoll (rn : Network E N S) (req : Request E N S R) : RequestAction R → Bool
  | .processReq _ =>
      match req.process with
      | .poll target => !isServerDead rn req.endname target.servername target.server
      | _ => false
  | _ => false

/-- A statement of `processReq` is done, or a poll leads back to the one before. -/
theorem Together.process_req_work (h : Together wire req) (chance : Bool)
    (hprocess : Processed rn req req.process next fresh) :
    next.work + 1 ≤ req.work + 2 * (livePoll rn req (.processReq chance)).toNat := by
  obtain ⟨endname, call, process, handler, draining, timer⟩ := req
  cases hprocess with
  | execute target =>
      obtain rfl : handler = .absent := h.early rfl
      simp only [Request.work, ProcessPc.work, HandlerPc.work]
      omega
  | alive target halive =>
      have hlive : livePoll rn ⟨endname, call, .poll target, handler, draining, timer⟩
          (.processReq chance : RequestAction R) = true := by
        simpa [livePoll] using halive
      rw [hlive]
      simp only [Request.work, ProcessPc.work, Bool.toNat_true]
      omega
  | _ =>
      simp only [Request.work, ProcessPc.work]
      omega

/-- Every step does some work, or polls a server that is alive. -/
theorem Together.step_work (h : Together wire req) {action : RequestAction R}
    (hstep : req.step wire rn action = some (next, fresh)) :
    next.work + 1 ≤ req.work + 2 * (livePoll rn req action).toNat := by
  cases step_cases hstep with
  | processReq chance hprocess => exact h.process_req_work chance hprocess
  | _ =>
      simp only [Request.work, ProcessPc.work, HandlerPc.work, CallPc.work]
      omega

/-- The step lets 100 ms pass at the `select` of `processReq`. -/
def Request.fires (req : Request E N S R) : RequestAction R → Bool
  | .processReq _ =>
      match req.process with
      | .wait _ => true
      | _ => false
  | _ => false

/-- Only the timer leads to a poll, and no poll leads to another one. -/
theorem polls_step {action : RequestAction R}
    (hstep : req.step wire rn action = some (next, fresh)) (hfires : req.fires action = false) :
    next.process.polls + 2 * (livePoll rn req action).toNat ≤ req.process.polls := by
  cases step_cases hstep with
  | processReq chance hprocess =>
      obtain ⟨endname, call, process, handler, draining, timer⟩ := req
      cases hprocess with
      | wait target => cases hfires
      | dead target | alive target =>
          have hlive := Bool.toNat_le (livePoll rn ⟨endname, call, .poll target, handler, draining,
            timer⟩ (.processReq chance : RequestAction R))
          simp only [ProcessPc.polls]
          omega
      | _ => exact le_rfl
  | _ => exact le_rfl

/-- Every step but the firing of the timer brings the request nearer to its end. -/
theorem Together.step_left (h : Together wire req) {action : RequestAction R}
    (hstep : req.step wire rn action = some (next, fresh)) (hfires : req.fires action = false) :
    next.left < req.left := by
  have hwork := h.step_work hstep
  have hpolls := polls_step hstep hfires
  unfold Request.left
  omega

/-- `Call` has returned, and no goroutine of the request is left. -/
structure Request.Ended (req : Request E N S R) : Prop where
  returned : ∃ result, req.call = .returned result
  process : req.process = .idle ∨ req.process = .finished
  handler : req.handler = .absent ∨ ∃ target value, req.handler = .finished target value
  draining : req.draining = false
  timer : req.timer = none

/-- `Call` has returned, and the handler is left with the goroutine that drains its channel. -/
structure Request.Abandoned (req : Request E N S R) : Prop where
  returned : ∃ result, req.call = .returned result
  process : req.process = .idle ∨ req.process = .finished
  handler : ∃ target, req.handler = .running target
  draining : req.draining = true
  timer : req.timer = none

/-- `Call` and `processReq` wait for the handler. -/
structure Request.AwaitsHandler (req : Request E N S R) : Prop where
  waiting : req.call = .waiting
  process : ∃ target, req.process = .wait target
  handler : ∃ target, req.handler = .running target

/-- `processReq` is not stuck while it is busy, unless it waits for `Call`. -/
theorem process_req_enabled (rn : Network E N S) (hbusy : req.process.busy = true)
    (hsend : ∀ msg, req.process ≠ .send msg) : ∃ result, processReq rn req false = some result := by
  obtain ⟨endname, call, process, handler, draining, timer⟩ := req
  cases process with
  | idle | finished => cases hbusy
  | send msg => exact absurd rfl (hsend msg)
  | read =>
      simp only [processReq]
      split <;> exact ⟨_, rfl⟩
  | poll target | reorder target reply =>
      simp only [processReq]
      split <;> exact ⟨_, rfl⟩
  | answer target reply serverDead =>
      cases reply with
      | none => exact ⟨_, rfl⟩
      | some reply =>
          cases serverDead with
          | true => exact ⟨_, rfl⟩
          | false =>
              simp only [processReq]
              split <;> exact ⟨_, rfl⟩
  | noReply | delay | drop | execute | wait | recheck => exact ⟨_, rfl⟩

variable (wire rn) in
/-- `processReq` can receive the reply of the handler when it waits for it. -/
theorem take_reply_enabled {target server : Target N S} {value : R}
    (hwait : req.process = .wait target) (hreturned : req.handler = .returned server value) :
    ∃ result, req.step wire rn .takeReply = some result := by
  simp only [Request.step, hwait, hreturned]
  exact ⟨_, rfl⟩

variable (wire rn req) in
/-- No step can be taken on the request, but for the firing of the timer and the return of the
handler. -/
def Request.Stuck : Prop :=
  ∀ action, (∀ value, action ≠ .handlerReturn value) → req.fires action = false →
    req.step wire rn action = none

/-- A message is received. -/
theorem Request.Stuck.not_send (hstuck : req.Stuck wire rn) (h : Together wire req)
    (msg : ReplyMsg) : req.process ≠ .send msg := by
  intro hmsg
  obtain ⟨result, hresult⟩ := Option.isSome_iff_exists.mp (h.message msg (by rw [hmsg]; rfl))
  have hcall : req.call = .waiting := (h.busy (by rw [hmsg]; rfl)).1
  have hnone := hstuck .receive (by simp) rfl
  simp [Request.step, hcall, hmsg, hresult] at hnone

/-- A message of the timer is received. -/
theorem Request.Stuck.no_timer (hstuck : req.Stuck wire rn) (h : Together wire req) :
    req.timer = none := by
  refine Option.eq_none_iff_forall_ne_some.mpr fun msg hmsg => ?_
  obtain ⟨hcall, hreceived⟩ := h.timer msg hmsg
  obtain ⟨result, hresult⟩ := Option.isSome_iff_exists.mp hreceived
  have hnone := hstuck .receiveLater (by simp) rfl
  simp [Request.step, hcall, hmsg, hresult] at hnone

/-- The goroutine of the handler starts it. -/
theorem Request.Stuck.not_spawned (hstuck : req.Stuck wire rn) (target : Target N S) :
    req.handler ≠ .spawned target := by
  intro hhandler
  have hnone := hstuck .dispatch (by simp) rfl
  simp [Request.step, hhandler] at hnone

/-- When `processReq` waits for the handler, this has not returned: its reply would be received. -/
theorem Request.Stuck.awaits_handler (hstuck : req.Stuck wire rn) (h : Together wire req)
    {target : Target N S} (hwait : req.process = .wait target) : req.AwaitsHandler := by
  have hopened := (h.awaits (by rw [hwait]; rfl)).1
  refine ⟨(h.busy (by rw [hwait]; rfl)).1, ⟨target, hwait⟩, ?_⟩
  cases hhandler : req.handler with
  | running server => exact ⟨server, rfl⟩
  | spawned server => exact absurd hhandler (hstuck.not_spawned server)
  | returned server value =>
      obtain ⟨result, hresult⟩ := take_reply_enabled wire rn hwait hhandler
      rw [hstuck .takeReply (by simp) rfl] at hresult
      cases hresult
  | absent | finished =>
      rw [hhandler] at hopened
      cases hopened

/-- When `processReq` does not wait for the handler, it is not started or has ended. -/
theorem Request.Stuck.not_busy (hstuck : req.Stuck wire rn) (h : Together wire req)
    (hwait : ¬ ∃ target, req.process = .wait target) : req.process.busy = false := by
  rw [← Bool.not_eq_true]
  intro hbusy
  obtain ⟨result, hresult⟩ := process_req_enabled rn hbusy (hstuck.not_send h)
  have hfires : req.fires (.processReq false : RequestAction R) = false := by
    simp only [Request.fires]
    split
    · exact absurd ⟨_, ‹_›⟩ hwait
    · rfl
  have hnone := hstuck (.processReq false) (by simp) hfires
  rw [Request.step, hresult] at hnone
  cases hnone

/-- Then `Call` has returned: nothing is left that could answer it. -/
theorem Request.Stuck.returned (hstuck : req.Stuck wire rn) (h : Together wire req)
    (hnet : rn.listening = true ∨ rn.done = true) (hbusy : req.process.busy = false) :
    ∃ result, req.call = .returned result := by
  cases hcall : req.call with
  | returned result => exact ⟨result, rfl⟩
  | waiting =>
      have hserved := h.waiting hcall
      simp [hbusy, hstuck.no_timer h] at hserved
  | sending =>
      have hidle := h.sending hcall
      rcases hnet with hlistening | hdone
      · have hnone := hstuck .accept (by simp) rfl
        simp [Request.step, hcall, hidle, hlistening] at hnone
      · have hnone := hstuck .giveUp (by simp) rfl
        simp [Request.step, hcall, hdone] at hnone

/-- A stuck request has ended, or its handler runs. -/
theorem Together.of_stuck (h : Together wire req) (hnet : rn.listening = true ∨ rn.done = true)
    (hstuck : req.Stuck wire rn) : req.Ended ∨ req.Abandoned ∨ req.AwaitsHandler := by
  by_cases hwait : ∃ target, req.process = .wait target
  · obtain ⟨target, hwait⟩ := hwait
    exact Or.inr (Or.inr (hstuck.awaits_handler h hwait))
  · have hbusy := hstuck.not_busy h hwait
    have hreturned := hstuck.returned h hnet hbusy
    have htimer := hstuck.no_timer h
    have hprocess : req.process = .idle ∨ req.process = .finished := by
      cases hprocess : req.process with
      | idle => exact Or.inl rfl
      | finished => exact Or.inr rfl
      | _ =>
          rw [hprocess] at hbusy
          cases hbusy
    -- a handler that has not ended is waited for by the goroutine that drains its channel
    have hdraining := h.drained_of_opened (ProcessPc.of_not_busy hbusy).1
    have hdrained : req.handler.opened = false → req.draining = false := by
      intro hclosed
      rw [← Bool.not_eq_true]
      intro hdraining
      rw [h.drains hdraining] at hclosed
      cases hclosed
    cases hhandler : req.handler with
    | absent =>
        exact Or.inl ⟨hreturned, hprocess, Or.inl hhandler, hdrained (by rw [hhandler]; rfl),
          htimer⟩
    | finished target value =>
        exact Or.inl ⟨hreturned, hprocess, Or.inr ⟨target, value, hhandler⟩,
          hdrained (by rw [hhandler]; rfl), htimer⟩
    | running target =>
        exact Or.inr (Or.inl ⟨hreturned, hprocess, ⟨target, hhandler⟩,
          hdraining (by rw [hhandler]; rfl), htimer⟩)
    | spawned target => exact absurd hhandler (hstuck.not_spawned target)
    | returned target value =>
        have hnone := hstuck .drain (by simp) rfl
        simp [Request.step, hhandler, hdraining (by rw [hhandler]; rfl)] at hnone

/-- A request that has not ended can come nearer to its end, at most by the return of a handler that
runs. -/
theorem Together.exists_step (h : Together wire req) (hnet : rn.listening = true ∨ rn.done = true)
    (hopen : ¬ req.Ended) (value : R) :
    ∃ action next fresh, req.step wire rn action = some (next, fresh) ∧ next.left < req.left ∧
      ∀ other, action = .handlerReturn other → other = value ∧ req.handler.runs = [] := by
  by_cases hstuck : req.Stuck wire rn
  · obtain ⟨target, hrunning⟩ : ∃ target, req.handler = .running target := by
      rcases h.of_stuck hnet hstuck with hended | habandoned | hawaits
      · exact absurd hended hopen
      · exact habandoned.handler
      · exact hawaits.handler
    have hreturns : req.step wire rn (.handlerReturn value) =
        some ({ req with handler := .returned target value }, [.ran value]) := by
      simp only [Request.step, hrunning]
    refine ⟨_, _, _, hreturns, h.step_left hreturns rfl, fun other heq => ⟨?_, ?_⟩⟩
    · exact (RequestAction.handlerReturn.inj heq).symm
    · rw [hrunning]
      rfl
  · unfold Request.Stuck at hstuck
    push Not at hstuck
    obtain ⟨action, hother, hfires, hsome⟩ := hstuck
    obtain ⟨⟨next, fresh⟩, hstep⟩ := Option.ne_none_iff_exists'.mp hsome
    exact ⟨action, next, fresh, hstep, h.step_left hstep hfires,
      fun other heq => absurd heq (hother other)⟩

end Requests

/-! ## The steps of a run -/

section Runs

variable [DecidableEq E] [DecidableEq N] [DecidableEq S] {wire : Wire R}

/-- The step is one on the request. -/
def Action.isOn (index : Nat) : Action E N S R → Bool
  | .request other _ => other = index
  | _ => false

/-- What a step shows of the polls of a request that find its server alive. -/
def seePolls (index : Nat) (σ : System E N S R) : Action E N S R → List Unit
  | .request other action =>
      if other = index then
        match σ.requests[other]? with
        | some req => List.replicate (livePoll σ.rn req action).toNat ()
        | none => []
      else []
  | _ => []

/-- How often `processReq` has polled the server of the request and found it alive. -/
def livePolls (wire : Wire R) (index : Nat) (actions : List (Action E N S R)) : Nat :=
  ((labrpc E N S wire).observe (seePolls index) actions).length

/-- The steps on a request and the work that is left on it. -/
structure Worked (wire : Wire R) (index : Nat) (actions : List (Action E N S R))
    (σ : System E N S R) : Prop where
  unseen : σ.requests.length ≤ index → actions.countP (Action.isOn index) = 0
  bound : ∀ req, σ.requests[index]? = some req →
    actions.countP (Action.isOn index) + req.work ≤ 15 + 2 * livePolls wire index actions

/-- Every step does its work. -/
theorem Worked.of_step {index : Nat} {actions : List (Action E N S R)} {action : Action E N S R}
    {σ next : System E N S R} (h : Worked wire index actions σ)
    (hrun : (labrpc E N S wire).run actions = some σ)
    (hstep : (labrpc E N S wire).step σ action = some next) :
    Worked wire index (actions ++ [action]) next := by
  have hpolls : livePolls wire index (actions ++ [action]) =
      livePolls wire index actions + (seePolls index σ action).length := by
    rw [livePolls, Machine.observe_concat hrun hstep, List.length_append]
    rfl
  have hcount : (actions ++ [action]).countP (Action.isOn index) =
      actions.countP (Action.isOn index) + (action.isOn index).toNat := by
    rw [List.countP_append, List.countP_singleton]
    cases action.isOn index <;> rfl
  cases action with
  | network call =>
      obtain ⟨rn, -, rfl⟩ := Option.map_eq_some_iff.mp hstep
      exact ⟨fun hindex => by rw [hcount, h.unseen hindex]; rfl,
        fun req hreq => by rw [hcount, hpolls]; exact h.bound req hreq⟩
  | call endname =>
      obtain rfl := Option.some.inj hstep
      constructor
      · intro hindex
        rw [List.length_append, List.length_singleton] at hindex
        rw [hcount, h.unseen (by omega)]
        rfl
      · intro req hreq
        rw [hcount, hpolls]
        rcases Nat.lt_or_ge index σ.requests.length with hlt | hge
        · rw [List.getElem?_append_left hlt] at hreq
          exact h.bound req hreq
        · rw [List.getElem?_append_right hge] at hreq
          obtain rfl := List.mem_singleton.mp (List.mem_of_getElem? hreq)
          rw [h.unseen hge]
          simp [Action.isOn, newRequest, Request.work, ProcessPc.work, HandlerPc.work, CallPc.work]
  | request other action =>
      obtain ⟨old, later, fresh, hold, hlater, rfl, -⟩ := step_request hstep
      have hlength := (List.getElem?_eq_some_iff.mp hold).1
      constructor
      · intro hindex
        rw [List.length_set] at hindex
        have hne : other ≠ index := by omega
        rw [hcount, h.unseen hindex]
        simp [Action.isOn, hne]
      · intro req hreq
        rw [hcount, hpolls]
        by_cases hother : other = index
        · subst hother
          rw [List.getElem?_set_self hlength] at hreq
          obtain rfl := Option.some.inj hreq
          have hwork := (all_together hrun old (List.mem_of_getElem? hold)).step_work hlater
          have hbound := h.bound old hold
          simp only [Action.isOn, decide_true, Bool.toNat_true, seePolls, if_true, hold,
            List.length_replicate]
          omega
        · rw [List.getElem?_set_ne hother] at hreq
          simpa [Action.isOn, seePolls, hother] using h.bound req hreq

/-- The steps on one request that end it, from a state in which its goroutines fit together. -/
theorem exists_ending {index : Nat} {σ : System E N S R} {req : Request E N S R}
    (hnet : σ.rn.listening = true ∨ σ.rn.done = true) (hreq : σ.requests[index]? = some req)
    (h : Together wire req) (value : R) :
    ∃ (steps : List (RequestAction R)) (τ : System E N S R) (later : Request E N S R),
      steps.length ≤ req.left ∧
      (∀ other, .handlerReturn other ∈ steps → other = value ∧ req.handler.runs = []) ∧
      (labrpc E N S wire).runFrom σ (steps.map (.request index)) = some τ ∧
      τ.requests[index]? = some later ∧ later.Ended := by
  induction hleft : req.left using Nat.strong_induction_on generalizing σ req with
  | _ left ih =>
      by_cases hended : req.Ended
      · exact ⟨[], σ, req, Nat.zero_le _, by simp, rfl, hreq, hended⟩
      · obtain ⟨action, next, fresh, hstep, hless, hreturn⟩ := h.exists_step hnet hended value
        have hlt := (List.getElem?_eq_some_iff.mp hreq).1
        have hfirst : (labrpc E N S wire).step σ (.request index action) =
            some { σ with requests := σ.requests.set index next } := by
          simp [labrpc, step, hreq, hstep]
        obtain ⟨steps, τ, later, hlength, hvalues, hrest, hlater, hdone⟩ := ih next.left
          (by omega) (σ := { σ with requests := σ.requests.set index next }) hnet
          (List.getElem?_set_self hlt) (h.step hstep) rfl
        refine ⟨action :: steps, τ, later, ?_, ?_, ?_, hlater, hdone⟩
        · rw [List.length_cons]
          omega
        · intro other hother
          rcases List.mem_cons.mp hother with heq | hmem
          · exact hreturn other heq.symm
          · obtain ⟨heq, hruns⟩ := hvalues other hmem
            refine ⟨heq, ?_⟩
            -- the handler has not returned before this step either
            by_cases hnow : ∃ returned, action = .handlerReturn returned
            · obtain ⟨returned, hnow⟩ := hnow
              exact (hreturn returned hnow).2
            · rw [← h.runs_step (fun returned heq => hnow ⟨returned, heq⟩) hstep]
              exact hruns
        · simp [Machine.runFrom, hfirst, hrest]

/-- Whatever the interleaving: a call makes at most 15 steps, apart from two for each poll of a
server that is alive. A reply of the handler can be received as soon as `processReq` waits for it.
When the timer of `processReq` is left aside, the call is stuck only when it waits for a handler
that runs, or when `Call` has returned and nothing is left but, it may be, a running handler with
the goroutine that drains its channel. And at most 15 steps on the request lead to the end of the
call and of all its goroutines, among which the handler returns if it has not done so yet. -/
theorem call_returns {E N S R : Type} [DecidableEq E] [DecidableEq N] [DecidableEq S]
    (wire : Wire R) (actions : List (Action E N S R)) (σ : System E N S R)
    (hrun : (labrpc E N S wire).run actions = some σ) (index : Nat) (req : Request E N S R)
    (hreq : σ.requests[index]? = some req) :
    actions.countP (Action.isOn index) ≤ 15 + 2 * livePolls wire index actions ∧
      (∀ target server value, req.process = .wait target → req.handler = .returned server value →
        ∃ τ, (labrpc E N S wire).step σ (.request index .takeReply) = some τ) ∧
      ((∀ action, (∀ value, action ≠ .handlerReturn value) → req.fires action = false →
          (labrpc E N S wire).step σ (.request index action) = none) →
        req.Ended ∨ req.Abandoned ∨ req.AwaitsHandler) ∧
      ∀ value, ∃ (steps : List (RequestAction R)) (τ : System E N S R) (later : Request E N S R),
        steps.length ≤ 15 ∧
        (∀ other, .handlerReturn other ∈ steps → other = value ∧ req.handler.runs = []) ∧
        (labrpc E N S wire).runFrom σ (steps.map (.request index)) = some τ ∧
        τ.requests[index]? = some later ∧ later.Ended := by
  have htogether := all_together hrun req (List.mem_of_getElem? hreq)
  have hnet := listening_or_done hrun
  have hworked : Worked wire index actions σ := by
    refine Machine.run_induction (motive := Worked wire index) ?_ ?_ hrun
    · exact ⟨fun _ => rfl, fun req hreq => by cases hreq⟩
    · intro actions σ action next hrun ih hstep
      exact ih.of_step hrun hstep
  refine ⟨?_, ?_, ?_, ?_⟩
  · have hbound := hworked.bound req hreq
    omega
  · intro target server value hwait hreturned
    obtain ⟨result, hresult⟩ := take_reply_enabled wire σ.rn hwait hreturned
    exact ⟨{ σ with requests := σ.requests.set index result.1 }, by
      simp [labrpc, step, hreq, hresult]⟩
  · intro hstuck
    refine htogether.of_stuck hnet fun action hother hfires => ?_
    have hnone : step wire σ (.request index action) = none := hstuck action hother hfires
    simpa [step, hreq] using hnone
  · intro value
    obtain ⟨steps, τ, later, hlength, hsteps⟩ := exists_ending hnet hreq htogether value
    exact ⟨steps, τ, later, hlength.trans req.left_le, hsteps⟩

end Runs

/-- The server is deleted while the handler runs, and `Call` returns false. -/
def abandoned : List (Action Nat Nat Nat GoString) :=
  calling ++ [.network (.deleteServer 0), .request 0 (.processReq false),
    .request 0 (.processReq false), .request 0 (.processReq false), .request 0 (.processReq false),
    .request 0 .receive]

/-- After `abandoned` the handler is left, with the goroutine that drains its channel. When the
handler returns, they end too. -/
theorem call_returns_abandoned :
    ∃ σ req, (labrpc Nat Nat Nat plainWire).run abandoned = some σ ∧ σ.requests[0]? = some req ∧
      req.Abandoned ∧ ∃ (steps : List (RequestAction GoString)) (τ : System Nat Nat Nat GoString)
        (later : Request Nat Nat Nat GoString), steps.length ≤ 15 ∧
        (labrpc Nat Nat Nat plainWire).runFrom σ (steps.map (.request 0)) = some τ ∧
        τ.requests[0]? = some later ∧ later.Ended := by
  obtain ⟨σ, hrun, req, hreq, habandoned⟩ : ∃ σ,
      (labrpc Nat Nat Nat plainWire).run abandoned = some σ ∧
        ∃ req, σ.requests[0]? = some req ∧ req.Abandoned :=
    ⟨_, rfl, _, rfl, ⟨⟨_, rfl⟩, Or.inr rfl, ⟨_, rfl⟩, rfl, rfl⟩⟩
  obtain ⟨-, -, -, hends⟩ := call_returns plainWire abandoned σ hrun 0 req hreq
  obtain ⟨steps, τ, later, hlength, -, hrest⟩ := hends []
  exact ⟨σ, req, hrun, hreq, habandoned, steps, τ, later, hlength, hrest⟩

end DistributedLabs.Labrpc
