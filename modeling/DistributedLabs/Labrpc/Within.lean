import DistributedLabs.Labrpc.Returns

/-!
# Handlers that run within their calls

A handler that is still running when `processReq` gives up on its server goes on after `Call` has
returned. This takes a server that is deleted or replaced, or an end that is disabled, while a
request is with its server. In a steady run, one without such steps, the handler of a call runs only
while `Call` waits, and the events of a call come in the order that the clerks of the key/value
server rely on (`call_protocol`).

`Served` is the invariant of a request: every check of `processReq` finds its server alive, so that
it always waits for the handler.
-/

namespace DistributedLabs.Labrpc

variable {E N S R : Type}

/-! ## Calls that keep their servers -/

/-- The server whose state still matters to `processReq`. -/
def ProcessPc.target : ProcessPc N S → Option (Target N S)
  | .delay target => some target
  | .drop target => some target
  | .execute target => some target
  | .wait target => some target
  | .poll target => some target
  | _ => none

/-- A request on the end is with its server. -/
def EndInUse (σ : System E N S R) (endname : E) : Prop :=
  ∃ req ∈ σ.requests, req.endname = endname ∧ req.process.target.isSome = true

/-- A request is with the server of the name. -/
def ServerInUse [DecidableEq N] (σ : System E N S R) (servername : N) : Prop :=
  ∃ req ∈ σ.requests, req.process.target.any (fun target => target.servername = servername) = true

instance [DecidableEq E] (σ : System E N S R) (endname : E) : Decidable (EndInUse σ endname) :=
  inferInstanceAs (Decidable (∃ req ∈ σ.requests, _ ∧ _))

instance [DecidableEq N] (σ : System E N S R) (servername : N) :
    Decidable (ServerInUse σ servername) :=
  inferInstanceAs (Decidable (∃ req ∈ σ.requests, _ = true))

/-- The call on the network takes away no end and no server that is in use. -/
def KeepsServing [DecidableEq N] (σ : System E N S R) : NetworkCall E N S → Prop
  | .enable endname false => ¬ EndInUse σ endname
  | .makeEnd endname => ¬ EndInUse σ endname
  | .deleteEnd endname => ¬ EndInUse σ endname
  | .addServer servername rs =>
      σ.rn.servers servername = some rs ∨ ¬ ServerInUse σ servername
  | .deleteServer servername => ¬ ServerInUse σ servername
  | _ => True

instance [DecidableEq E] [DecidableEq N] [DecidableEq S] (σ : System E N S R) :
    (call : NetworkCall E N S) → Decidable (KeepsServing σ call)
  | .enable endname false => inferInstanceAs (Decidable (¬ EndInUse σ endname))
  | .makeEnd endname => inferInstanceAs (Decidable (¬ EndInUse σ endname))
  | .deleteEnd endname => inferInstanceAs (Decidable (¬ EndInUse σ endname))
  | .addServer servername rs =>
      inferInstanceAs (Decidable
        (σ.rn.servers servername = some rs ∨ ¬ ServerInUse σ servername))
  | .deleteServer servername => inferInstanceAs (Decidable (¬ ServerInUse σ servername))
  | .enable _ true => isTrue trivial
  | .reliable _ => isTrue trivial
  | .longReordering _ => isTrue trivial
  | .longDelays _ => isTrue trivial
  | .connect _ _ => isTrue trivial
  | .cleanup => isTrue trivial
  | .stopListening => isTrue trivial

/-- Steps of a run in which the servers keep serving. -/
def Steady [DecidableEq N] (σ : System E N S R) : Action E N S R → Prop
  | .network call => KeepsServing σ call
  | _ => True

instance [DecidableEq E] [DecidableEq N] [DecidableEq S] (σ : System E N S R) :
    (action : Action E N S R) → Decidable (Steady σ action)
  | .network call => inferInstanceAs (Decidable (KeepsServing σ call))
  | .call _ => isTrue trivial
  | .request _ _ => isTrue trivial

/-- The end of the request is enabled and its server registered, as long as this matters. -/
structure Served (rn : Network E N S) (req : Request E N S R) : Prop where
  registered : ∀ target, req.process.target = some target →
    rn.enabled req.endname = true ∧ rn.servers target.servername = some target.server
  draining : req.draining = false

/-! ## What a call shows in order -/

/-- The event is not about a message of the network. -/
def RequestEvent.isOutward : RequestEvent N S R → Bool
  | .posted _ => false
  | _ => true

/-- What the handler has shown, by its program point. -/
def HandlerPc.shown : HandlerPc N S R → List (RequestEvent N S R)
  | .absent => []
  | .spawned _ => []
  | .running target => [.started target.servername target.server]
  | .returned target value => [.started target.servername target.server, .ran value]
  | .finished target value => [.started target.servername target.server, .ran value]

/-- What `Call` has shown, by its program point. -/
def CallPc.shown : CallPc R → List (RequestEvent N S R)
  | .sending => []
  | .waiting => []
  | .returned result => [.returned result]

/-- What a request has shown if its handler ran within its call. -/
def Request.shown (req : Request E N S R) : List (RequestEvent N S R) :=
  req.handler.shown ++ req.call.shown

/-- What a call may show, in order: nothing but a return with false, or one run of the handler and
a return with false or with the reply. -/
def CallProtocol (events : List (RequestEvent N S R)) : Prop :=
  events <+: [.returned none] ∨ ∃ servername server, events = [.started servername server] ∨
    ∃ value, events <+: [.started servername server, .ran value, .returned none] ∨
      events <+: [.started servername server, .ran value, .returned (some value)]

/-- Before the call returns. -/
theorem HandlerPc.shown_protocol (handler : HandlerPc N S R) : CallProtocol handler.shown := by
  cases handler with
  | absent | spawned target => exact Or.inl List.nil_prefix
  | running target => exact Or.inr ⟨target.servername, target.server, Or.inl rfl⟩
  | returned target value | finished target value =>
      exact Or.inr ⟨target.servername, target.server, Or.inr ⟨value, Or.inl ⟨[_], rfl⟩⟩⟩

/-- A call that has returned. -/
theorem Request.shown_protocol (req : Request E N S R)
    (hwithin : req.handler.opened = true → req.call = .waiting)
    (hreply : ∀ value, req.call = .returned (some value) →
      ∃ target, req.handler = .finished target value) : CallProtocol req.shown := by
  obtain ⟨endname, call, process, handler, draining, timer⟩ := req
  simp only [Request.shown]
  rcases call with _ | _ | _ | value
  · rw [CallPc.shown, List.append_nil]
    exact handler.shown_protocol
  · rw [CallPc.shown, List.append_nil]
    exact handler.shown_protocol
  · -- a handler that is not finished has a call that waits
    cases handler with
    | absent => exact Or.inl (List.prefix_refl _)
    | finished target value =>
        exact Or.inr ⟨_, _, Or.inr ⟨value, Or.inl (List.prefix_refl _)⟩⟩
    | _ => cases hwithin rfl
  · obtain ⟨target, hfinished⟩ := hreply value rfl
    obtain rfl : handler = .finished target value := hfinished
    exact Or.inr ⟨_, _, Or.inr ⟨value, Or.inr (List.prefix_refl _)⟩⟩

/-! ## Steps on a request -/

section Requests

variable {wire : Wire R} {rn : Network E N S} {req next : Request E N S R}
  {fresh : List (RequestEvent N S R)}

/-- A step after which the server no longer matters. -/
theorem Served.of_no_target (h : Served rn req) (htarget : next.process.target = none)
    (hdraining : next.draining = req.draining) : Served rn next where
  registered := by
    intro target hsome
    rw [htarget] at hsome
    cases hsome
  draining := hdraining.trans h.draining

/-- A step of another goroutine, or one after which the same server matters. -/
theorem Served.of_same_target (h : Served rn req)
    (htarget : next.process.target = req.process.target)
    (hend : next.endname = req.endname) (hdraining : next.draining = req.draining) :
    Served rn next where
  registered := by
    intro target hsome
    rw [hend]
    exact h.registered target (htarget.symm.trans hsome)
  draining := hdraining.trans h.draining

/-- The handler of a served request runs while `Call` waits. -/
theorem Served.waiting_of_opened (h : Served rn req) (htogether : Together wire req)
    (hopened : req.handler.opened = true) : req.call = .waiting := by
  rcases htogether.handler hopened with hawaits | hdraining
  · refine (htogether.busy ?_).1
    revert hawaits
    cases req.process <;> simp [ProcessPc.awaits, ProcessPc.busy]
  · rw [h.draining] at hdraining
    cases hdraining

variable [DecidableEq S]

/-- Every statement of `processReq` finds the server alive. -/
theorem Served.process_req (h : Served rn req)
    (hprocess : Processed rn req req.process next fresh) : Served rn next := by
  obtain ⟨endname, call, process, handler, draining, timer⟩ := req
  cases hprocess with
  | reliable target henabled hserver | unreliable target henabled hserver =>
      refine ⟨fun other hother => ?_, h.draining⟩
      obtain rfl := Option.some.inj hother
      exact ⟨henabled, hserver⟩
  | dead target hdead =>
      obtain ⟨henabled, hserver⟩ := h.registered target rfl
      have hend : rn.enabled endname = true := henabled
      simp [isServerDead, hserver, hend] at hdead
  | delay | kept | execute | wait | alive => exact h.of_same_target rfl rfl rfl
  | _ => exact h.of_no_target rfl rfl

/-- Every step on a request keeps its server. -/
theorem Served.step (h : Served rn req) {action : RequestAction R}
    (hstep : req.step wire rn action = some (next, fresh)) : Served rn next := by
  cases step_cases hstep with
  | processReq chance hprocess => exact h.process_req hprocess
  | accept | takeReply | receive => exact h.of_no_target rfl rfl
  | giveUp | dispatch | handlerReturn | receiveLater => exact h.of_same_target rfl rfl rfl
  | drain => exact h.of_same_target rfl rfl h.draining.symm

/-- A call that has returned does not do so again. -/
theorem Together.returned_step (h : Together wire req) {action : RequestAction R}
    (hstep : req.step wire rn action = some (next, fresh)) {result : Option R}
    (hcall : req.call = .returned result) : next.call = .returned result := by
  cases step_cases hstep with
  | processReq chance hprocess => exact (h.process_req_quiet hprocess).1.trans hcall
  | takeReply | dispatch | handlerReturn | drain => exact hcall
  | accept | giveUp | receive | receiveLater => cases hcall

/-- The events of a step that are not about messages. -/
theorem Served.step_shown (h : Served rn req) (htogether : Together wire req)
    {action : RequestAction R} (hstep : req.step wire rn action = some (next, fresh)) :
    next.shown = req.shown ++ fresh.filter RequestEvent.isOutward := by
  have hopen := h.waiting_of_opened htogether
  cases step_cases hstep with
  | processReq chance hprocess =>
      obtain ⟨hcall, hhandler, hfresh⟩ := htogether.process_req_quiet hprocess
      have hshown : next.handler.shown = req.handler.shown := by
        rcases hhandler with hsame | ⟨habsent, target, hspawned⟩
        · rw [hsame]
        · rw [habsent, hspawned]
          rfl
      have hinward : fresh.filter RequestEvent.isOutward = [] := by
        rcases hfresh with rfl | ⟨msg, rfl⟩ <;> rfl
      simp only [Request.shown, hcall, hshown, hinward, List.append_nil]
  | @dispatch endname call process draining timer target =>
      obtain rfl : call = .waiting := hopen rfl
      rfl
  | @handlerReturn endname call process draining timer target value =>
      obtain rfl : call = .waiting := hopen rfl
      rfl
  | accept | takeReply | drain => simp [Request.shown, CallPc.shown, HandlerPc.shown]
  | giveUp | receive | receiveLater =>
      simp [Request.shown, CallPc.shown, List.filter_cons, RequestEvent.isOutward]

end Requests

/-! ## All requests of a run -/

section Runs

variable [DecidableEq E] [DecidableEq N] {wire : Wire R}

/-- A call on the network that keeps serving keeps the server of every request. -/
theorem Served.perform {σ : System E N S R} {req : Request E N S R} {call : NetworkCall E N S}
    {rn : Network E N S} (h : Served σ.rn req) (hmem : req ∈ σ.requests)
    (hkeeps : KeepsServing σ call) (hperform : σ.rn.perform call = some rn) : Served rn req := by
  refine ⟨fun target htarget => ?_, h.draining⟩
  have hend : EndInUse σ req.endname := ⟨req, hmem, rfl, by rw [htarget]; rfl⟩
  have hname : ServerInUse σ target.servername :=
    ⟨req, hmem, by rw [htarget]; exact decide_eq_true rfl⟩
  obtain ⟨henabled, hserver⟩ := h.registered target htarget
  cases call with
  | makeEnd endname =>
      simp only [Network.perform, makeEnd] at hperform
      split at hperform
      · cases hperform
      · obtain rfl := Option.some.inj hperform
        have hne : req.endname ≠ endname := fun heq => hkeeps (heq ▸ hend)
        exact ⟨(Function.update_of_ne hne _ _).trans henabled, hserver⟩
  | deleteEnd endname =>
      simp only [Network.perform, deleteEnd] at hperform
      split at hperform
      · obtain rfl := Option.some.inj hperform
        have hne : req.endname ≠ endname := fun heq => hkeeps (heq ▸ hend)
        exact ⟨(Function.update_of_ne hne _ _).trans henabled, hserver⟩
      · cases hperform
  | addServer servername rs =>
      obtain rfl := Option.some.inj hperform
      refine ⟨henabled, ?_⟩
      by_cases heq : target.servername = servername
      · have hsame : target.server = rs := by
          have hsome := hkeeps.resolve_right (not_not_intro (heq ▸ hname))
          rw [heq, hsome] at hserver
          exact (Option.some.inj hserver).symm
        rw [heq, hsame]
        exact Function.update_self _ _ _
      · exact (Function.update_of_ne heq _ _).trans hserver
  | deleteServer servername =>
      obtain rfl := Option.some.inj hperform
      have hne : target.servername ≠ servername := fun heq => hkeeps (heq ▸ hname)
      exact ⟨henabled, (Function.update_of_ne hne _ _).trans hserver⟩
  | enable endname enabled =>
      obtain rfl := Option.some.inj hperform
      refine ⟨?_, hserver⟩
      by_cases heq : req.endname = endname
      · subst heq
        cases enabled with
        | true => exact Function.update_self _ _ _
        | false => exact absurd hend hkeeps
      · exact (Function.update_of_ne heq _ _).trans henabled
  | cleanup =>
      simp only [Network.perform, cleanup] at hperform
      split at hperform
      · cases hperform
      · obtain rfl := Option.some.inj hperform
        exact ⟨henabled, hserver⟩
  | stopListening =>
      simp only [Network.perform] at hperform
      split at hperform
      · obtain rfl := Option.some.inj hperform
        exact ⟨henabled, hserver⟩
      · cases hperform
  | reliable yes | longReordering yes | longDelays yes | connect endname servername =>
      obtain rfl := Option.some.inj hperform
      exact ⟨henabled, hserver⟩

variable [DecidableEq S]

/-- In a steady run every request keeps its server. -/
theorem all_served {actions : List (Action E N S R)} {σ : System E N S R}
    (hsteady : (labrpc E N S wire).Meets Steady actions)
    (hrun : (labrpc E N S wire).run actions = some σ) : ∀ req ∈ σ.requests, Served σ.rn req := by
  refine Machine.run_induction_of_meets
    (motive := fun _ σ => ∀ req ∈ σ.requests, Served σ.rn req) ?_ ?_ hsteady hrun
  · intro req hreq
    cases hreq
  · intro actions σ action next hrun ih hguard hstep
    cases action with
    | network call =>
        obtain ⟨rn, hperform, rfl⟩ := Option.map_eq_some_iff.mp hstep
        intro req hreq
        exact (ih req hreq).perform hreq hguard hperform
    | call endname =>
        obtain rfl := Option.some.inj hstep
        intro req hreq
        rcases List.mem_append.mp hreq with hold | hnew
        · exact ih req hold
        · rw [List.mem_singleton.mp hnew]
          exact ⟨(fun target htarget => by cases htarget), rfl⟩
    | request index action =>
        obtain ⟨old, later, fresh, hold, hlater, rfl, -⟩ := step_request hstep
        intro req hreq
        rcases List.mem_or_eq_of_mem_set hreq with hmem | rfl
        · exact ih req hmem
        · exact (ih old (List.mem_of_getElem? hold)).step hlater

/-- A call that has returned true has the reply of its handler. -/
theorem handler_of_returned {actions : List (Action E N S R)} {σ : System E N S R}
    (hrun : (labrpc E N S wire).run actions = some σ) :
    ∀ req ∈ σ.requests, ∀ value, req.call = .returned (some value) →
      ∃ target, req.handler = .finished target value := by
  intro req hreq value hcall
  obtain ⟨events, hsound⟩ := forall_requests
    (motive := fun req => ∃ events, Sound wire (fun _ _ => True) req events)
    (fun endname => ⟨[], Sound.new endname⟩)
    (by
      rintro rn req action later fresh ⟨events, hsound⟩ hlater
      exact ⟨_, hsound.step (fun _ _ _ _ => trivial) hlater⟩) hrun req hreq
  obtain ⟨target, hhandler, -⟩ := hsound.call value hcall
  exact ⟨target, hhandler⟩

/-- The events of a request that are not about messages. -/
def outwardEvents (index : Nat) (events : List (Event N S R)) : List (RequestEvent N S R) :=
  (eventsOf index events).filter RequestEvent.isOutward

/-- In a steady run every request has shown what its state says, in this order. -/
theorem outward_events_eq {actions : List (Action E N S R)} {σ : System E N S R}
    (hsteady : (labrpc E N S wire).Meets Steady actions)
    (hrun : (labrpc E N S wire).run actions = some σ) (index : Nat) :
    outwardEvents index (trace wire actions) = (σ.requests[index]?).elim [] Request.shown := by
  refine Machine.run_induction_of_meets (motive := fun actions σ =>
    (labrpc E N S wire).Meets Steady actions →
      outwardEvents index (trace wire actions) = (σ.requests[index]?).elim [] Request.shown)
    (fun _ => rfl) ?_ hsteady hrun hsteady
  intro actions σ action next hrun ih _ hstep hsteady
  have hbefore := hsteady.of_initial (List.prefix_append _ _)
  have hold := ih hbefore
  rw [trace_concat hrun hstep, outwardEvents, events_of_append, List.filter_append]
  rw [outwardEvents] at hold
  rw [hold]
  cases action with
  | network call =>
      obtain ⟨rn, -, rfl⟩ := Option.map_eq_some_iff.mp hstep
      simp [see]
  | call endname =>
      obtain rfl := Option.some.inj hstep
      rw [see, eventsOf, List.filterMap_nil, List.filter_nil, List.append_nil]
      rcases Nat.lt_trichotomy index σ.requests.length with hlt | rfl | hgt
      · rw [List.getElem?_append_left hlt]
      · rw [List.getElem?_eq_none le_rfl, List.getElem?_concat_length]
        rfl
      · have hlength : (σ.requests ++ [newRequest endname]).length ≤ index := by
          rw [List.length_append]
          exact hgt
        rw [List.getElem?_eq_none hgt.le, List.getElem?_eq_none hlength]
  | request other action =>
      obtain ⟨req, later, fresh, hreq, hlater, rfl, hsee⟩ := step_request hstep
      rw [hsee]
      by_cases hother : other = index
      · subst hother
        have hmem := List.mem_of_getElem? hreq
        have hshown := (all_served hbefore hrun req hmem).step_shown (all_together hrun req hmem)
          hlater
        rw [events_of_request, List.getElem?_set_self (List.getElem?_eq_some_iff.mp hreq).1, hreq]
        exact hshown.symm
      · rw [events_of_other hother, List.filter_nil, List.append_nil, List.getElem?_set_ne hother]

/-- In a run that takes away no end and no server that is in use, every call follows the protocol,
whatever is lost, delayed or reordered: its handler runs at most once and before it returns, and it
returns true only with the reply of this run. -/
theorem call_protocol {E N S R : Type} [DecidableEq E] [DecidableEq N] [DecidableEq S]
    (wire : Wire R) (actions : List (Action E N S R)) (σ : System E N S R)
    (hsteady : (labrpc E N S wire).Meets Steady actions)
    (hrun : (labrpc E N S wire).run actions = some σ) (index : Nat) :
    CallProtocol (outwardEvents index (trace wire actions)) := by
  rw [outward_events_eq hsteady hrun]
  rcases hreq : σ.requests[index]? with _ | req
  · exact Or.inl List.nil_prefix
  · have hmem := List.mem_of_getElem? hreq
    exact req.shown_protocol
      ((all_served hsteady hrun req hmem).waiting_of_opened (all_together hrun req hmem))
      (handler_of_returned hrun req hmem)

end Runs

/-- The end is disabled once the call has returned. -/
def disabledLater : List (Action Nat Nat Nat GoString) :=
  calling ++ answering ++ [.network (.enable 0 false)]

/-- The call of `disabledLater` follows the protocol to its end. When the server is deleted while
it is in use, as in `abandoned`, the handler can end after its call has returned. -/
theorem call_protocol_disabled_later :
    (∃ σ, (labrpc Nat Nat Nat plainWire).run disabledLater = some σ ∧
      (labrpc Nat Nat Nat plainWire).Meets Steady disabledLater ∧
      outwardEvents 0 (trace plainWire disabledLater) =
        [.started 0 0, .ran someReply, .returned (some someReply)] ∧
      CallProtocol (outwardEvents 0 (trace plainWire disabledLater))) ∧
    outwardEvents 0 (trace plainWire (abandoned ++ [.request 0 (.handlerReturn someReply)])) =
      [.started 0 0, .returned none, .ran someReply] := by
  obtain ⟨σ, hrun⟩ := Option.isSome_iff_exists.mp
    (show ((labrpc Nat Nat Nat plainWire).run disabledLater).isSome = true by decide)
  have hsteady : (labrpc Nat Nat Nat plainWire).Meets Steady disabledLater :=
    Machine.meets_of_check (by decide)
  have hprotocol := call_protocol plainWire disabledLater σ hsteady hrun 0
  exact ⟨⟨σ, hrun, hsteady, by decide, hprotocol⟩, by decide⟩

end DistributedLabs.Labrpc
