import DistributedLabs.Labrpc.Steps

/-!
# The life of a request

`Sound` relates the state of one request to the events that it has shown: how many messages
`processReq` has sent or scheduled, on which server the handler was started, what it returned, and
whose reply a message carries. `Sound.step` keeps it along every step on the request, however the
network changes between two steps. All that a request learns about the network is the last
`isServerDead`; what follows from it is the parameter `checked`.
-/

namespace DistributedLabs.Labrpc

variable {E N S R : Type}

/-! ## What the events of a request say -/

/-- The messages that were sent or scheduled on the reply channel. -/
def posted (events : List (RequestEvent N S R)) : List ReplyMsg :=
  events.filterMap fun
    | .posted msg => some msg
    | _ => none

/-- The servers on which the handler was started. -/
def started (events : List (RequestEvent N S R)) : List (N × S) :=
  events.filterMap fun
    | .started servername server => some (servername, server)
    | _ => none

/-- The replies of the runs of the handler. -/
def ran (events : List (RequestEvent N S R)) : List R :=
  events.filterMap fun
    | .ran value => some value
    | _ => none

@[simp] theorem posted_append (first second : List (RequestEvent N S R)) :
    posted (first ++ second) = posted first ++ posted second :=
  List.filterMap_append

@[simp] theorem started_append (first second : List (RequestEvent N S R)) :
    started (first ++ second) = started first ++ started second :=
  List.filterMap_append

@[simp] theorem ran_append (first second : List (RequestEvent N S R)) :
    ran (first ++ second) = ran first ++ ran second :=
  List.filterMap_append

/-- The number of messages that `processReq` has sent or scheduled. -/
def ProcessPc.posts : ProcessPc N S → Nat
  | .finished => 1
  | _ => 0

/-- The server for which the handler's goroutine was started. -/
def HandlerPc.target : HandlerPc N S R → Option (Target N S)
  | .absent => none
  | .spawned target => some target
  | .running target => some target
  | .returned target _ => some target
  | .finished target _ => some target

/-- The servers on which the handler was started, by its program point. -/
def HandlerPc.starts : HandlerPc N S R → List (N × S)
  | .absent => []
  | .spawned _ => []
  | .running target => [(target.servername, target.server)]
  | .returned target _ => [(target.servername, target.server)]
  | .finished target _ => [(target.servername, target.server)]

/-- The replies of the handler, by its program point. -/
def HandlerPc.runs : HandlerPc N S R → List R
  | .returned _ value => [value]
  | .finished _ value => [value]
  | _ => []

/-! ## The invariant of a request -/

section Sound

variable (wire : Wire R) (checked : Target N S → R → Prop)

/-- The message is the reply of the run that the handler has finished, and the run was checked. -/
def Carries (handler : HandlerPc N S R) (msg : ReplyMsg) : Prop :=
  ∃ target value, handler = .finished target value ∧ msg = ⟨true, wire.encode value⟩ ∧
    checked target value

/-- What a program point of `processReq` says about the handler. -/
def ProcessPc.Agrees (handler : HandlerPc N S R) : ProcessPc N S → Prop
  | .wait target => handler.target = some target
  | .poll target => handler.target = some target
  | .recheck _ none => True
  | .recheck target (some reply) =>
      ∃ value, handler = .finished target value ∧ reply = ⟨true, wire.encode value⟩
  | .answer _ (some reply) false => Carries wire checked handler reply
  | .answer _ _ _ => True
  | .reorder _ reply => Carries wire checked handler reply
  | .send msg => msg.ok → Carries wire checked handler msg
  | .finished => True
  | _ => handler = .absent

/-- The state of a request fits the events that it has shown. -/
structure Sound (req : Request E N S R) (events : List (RequestEvent N S R)) : Prop where
  posts : (posted events).length = req.process.posts
  starts : started events = req.handler.starts
  runs : ran events = req.handler.runs
  agrees : req.process.Agrees wire checked req.handler
  timer : ∀ msg, req.timer = some msg → msg.ok → Carries wire checked req.handler msg
  call : ∀ value, req.call = .returned (some value) →
    ∃ target, req.handler = .finished target value ∧ checked target value
  result : ∀ value, .returned (some value) ∈ events → req.call = .returned (some value)

variable {wire checked} {req next : Request E N S R} {events fresh : List (RequestEvent N S R)}

/-- A request that was not sent yet has shown nothing. -/
theorem Sound.new (endname : E) : Sound wire checked (newRequest endname) [] where
  posts := rfl
  starts := rfl
  runs := rfl
  agrees := rfl
  timer := by simp [newRequest]
  call := by simp [newRequest]
  result := by simp

/-- `processReq` goes on and shows nothing. -/
theorem Sound.move (h : Sound wire checked req events) {point : ProcessPc N S}
    (hposts : point.posts = req.process.posts) (hagrees : point.Agrees wire checked req.handler) :
    Sound wire checked { req with process := point } (events ++ []) := by
  rw [List.append_nil]
  exact { h with posts := h.posts.trans hposts.symm, agrees := hagrees }

/-- `processReq` schedules a message and is finished. -/
theorem Sound.schedule (h : Sound wire checked req events) {msg : ReplyMsg}
    (hposts : req.process.posts = 0)
    (hmsg : msg.ok → Carries wire checked req.handler msg) :
    Sound wire checked { req with process := .finished, timer := some msg }
      (events ++ [.posted msg]) where
  posts := by simpa [posted, ProcessPc.posts] using h.posts.trans hposts
  starts := by simpa [started] using h.starts
  runs := by simpa [ran] using h.runs
  agrees := trivial
  timer := by
    intro other heq hok
    obtain rfl := Option.some.inj heq
    exact hmsg hok
  call := h.call
  result := by simpa using h.result

/-- The handler goes on before it is finished, so no reply of it is on its way. -/
theorem Sound.advance (h : Sound wire checked req events)
    (hopen : ∀ target value, req.handler ≠ .finished target value)
    {point : ProcessPc N S} {handler : HandlerPc N S R} {draining : Bool}
    (hposts : point.posts = req.process.posts) (hagrees : point.Agrees wire checked handler)
    (hposted : posted fresh = [])
    (hstarts : handler.starts = req.handler.starts ++ started fresh)
    (hruns : handler.runs = req.handler.runs ++ ran fresh)
    (hresult : ∀ value, .returned (some value) ∉ fresh) :
    Sound wire checked { req with process := point, handler := handler, draining := draining }
      (events ++ fresh) where
  posts := by
    rw [posted_append, hposted, List.append_nil]
    exact h.posts.trans hposts.symm
  starts := by rw [started_append, h.starts, hstarts]
  runs := by rw [ran_append, h.runs, hruns]
  agrees := hagrees
  timer := by
    intro msg heq hok
    obtain ⟨target, value, hfinished, -⟩ := h.timer msg heq hok
    exact absurd hfinished (hopen target value)
  call := by
    intro value heq
    obtain ⟨target, hfinished, -⟩ := h.call value heq
    exact absurd hfinished (hopen target value)
  result := by
    intro value hmem
    exact h.result value ((List.mem_append.mp hmem).resolve_right (hresult value))

/-- What `processReq` knows of a handler that is not finished is its server. -/
theorem ProcessPc.Agrees.advance {point : ProcessPc N S} {handler later : HandlerPc N S R}
    (h : point.Agrees wire checked handler)
    (hopen : ∀ target value, handler ≠ .finished target value)
    (hsome : handler ≠ .absent) (htarget : later.target = handler.target) :
    point.Agrees wire checked later := by
  have hcarries : ∀ msg, ¬ Carries wire checked handler msg := by
    intro msg hmsg
    obtain ⟨target, value, hfinished, -⟩ := hmsg
    exact hopen target value hfinished
  cases point with
  | wait target => exact htarget.trans h
  | poll target => exact htarget.trans h
  | recheck target reply =>
      cases reply with
      | none => trivial
      | some reply =>
          obtain ⟨value, hfinished, -⟩ := h
          exact absurd hfinished (hopen target value)
  | answer target reply serverDead =>
      cases reply with
      | none => cases serverDead <;> trivial
      | some reply =>
          cases serverDead with
          | true => trivial
          | false => exact absurd h (hcarries reply)
  | reorder target reply => exact absurd h (hcarries reply)
  | send msg => exact fun hok => absurd (h hok) (hcarries msg)
  | finished => trivial
  | _ => exact absurd h hsome

/-- The last check of the server, after which a reply is only passed on if the server is alive. -/
theorem ProcessPc.Agrees.last_check {target : Target N S} {reply : Option ReplyMsg}
    {handler : HandlerPc N S R} {serverDead : Bool}
    (h : (ProcessPc.recheck target reply).Agrees wire checked handler)
    (halive : serverDead = false → ∀ value, handler = .finished target value →
      checked target value) :
    (ProcessPc.answer target reply serverDead).Agrees wire checked handler := by
  cases reply with
  | none => cases serverDead <;> trivial
  | some reply =>
      cases serverDead with
      | true => trivial
      | false =>
          obtain ⟨value, hfinished, hreply⟩ := h
          exact ⟨target, value, hfinished, hreply, halive rfl value hfinished⟩

/-- A failure carries nothing. -/
theorem failure_carries {handler : HandlerPc N S R} (hok : failure.ok = true) :
    Carries wire checked handler failure := by
  simp [failure] at hok

/-- One statement of `processReq`. The last check of the server is the only one that matters. -/
theorem process_req_sound [DecidableEq S] {rn : Network E N S} (h : Sound wire checked req events)
    (hcheck : ∀ target value, rn.servers target.servername = some target.server →
      value ∈ ran events → checked target value)
    (hprocess : Processed rn req req.process next fresh) :
    Sound wire checked next (events ++ fresh) := by
  obtain ⟨endname, call, process, handler, draining, timer⟩ := req
  cases hprocess with
  | unconnected | reliable | unreliable | delay | kept | wait | alive | pass =>
      exact h.move rfl h.agrees
  | noReply => exact h.schedule rfl failure_carries
  | dropped | refuse => exact h.move rfl failure_carries
  | execute target =>
      -- the handler's goroutine is started here and nowhere else
      obtain rfl : handler = .absent := h.agrees
      exact h.advance (by simp) rfl rfl rfl rfl rfl (by simp)
  | dead target hdead =>
      rw [List.append_nil]
      exact { h with agrees := trivial }
  | recheck target reply serverDead hdead =>
      refine h.move rfl (h.agrees.last_check ?_)
      intro halive value hfinished
      simp only [halive, isServerDead, decide_eq_false_iff_not, not_or, not_not] at hdead
      refine hcheck target value hdead.2 ?_
      rw [h.runs, hfinished]
      exact List.mem_singleton_self value
  | later target reply => exact h.schedule rfl fun _ => h.agrees
  | now target reply => exact h.move rfl fun _ => h.agrees

/-- `processReq` sends a message and is finished. -/
theorem Sound.send (h : Sound wire checked req events) {msg : ReplyMsg}
    (hsend : req.process = .send msg) :
    Sound wire checked { req with process := .finished } (events ++ [.posted msg]) where
  posts := by simpa [posted, ProcessPc.posts, hsend] using h.posts
  starts := by simpa [started] using h.starts
  runs := by simpa [ran] using h.runs
  agrees := trivial
  timer := h.timer
  call := h.call
  result := by simpa using h.result

/-- `Call` returns, with the reply of a checked run if it returns true. -/
theorem Sound.returns (h : Sound wire checked req events) {result : Option R}
    (hopen : ∀ value, req.call ≠ .returned (some value))
    (hresult : ∀ value, result = some value →
      ∃ target, req.handler = .finished target value ∧ checked target value) :
    Sound wire checked { req with call := .returned result } (events ++ [.returned result]) where
  posts := by simpa [posted] using h.posts
  starts := by simpa [started] using h.starts
  runs := by simpa [ran] using h.runs
  agrees := h.agrees
  timer := h.timer
  call := by
    intro value heq
    exact hresult value (CallPc.returned.inj heq)
  result := by
    intro value hmem
    rcases List.mem_append.mp hmem with hold | hnew
    · exact absurd (h.result value hold) (hopen value)
    · rw [RequestEvent.returned.inj (List.mem_singleton.mp hnew)]

/-- What `Call` decodes from a message is the reply that the message carries. -/
theorem received_carries {handler : HandlerPc N S R} {msg : ReplyMsg} {result : Option R}
    (hmsg : msg.ok → Carries wire checked handler msg) (h : received wire msg = some result)
    (value : R) (hvalue : result = some value) :
    ∃ target, handler = .finished target value ∧ checked target value := by
  subst hvalue
  unfold received at h
  split at h
  case isFalse => cases h
  case isTrue hok =>
    obtain ⟨target, reply, hfinished, rfl, hchecked⟩ := hmsg hok
    rw [wire.decode_encode] at h
    obtain rfl : reply = value := by simpa using h
    exact ⟨target, hfinished, hchecked⟩

/-- Every step on a request keeps the invariant. -/
theorem Sound.step [DecidableEq S] {rn : Network E N S} (h : Sound wire checked req events)
    (hcheck : ∀ target value, rn.servers target.servername = some target.server →
      value ∈ ran events → checked target value)
    {action : RequestAction R} (hstep : req.step wire rn action = some (next, fresh)) :
    Sound wire checked next (events ++ fresh) := by
  cases step_cases hstep with
  | processReq chance hprocess => exact process_req_sound h hcheck hprocess
  | accept hlistening =>
      rw [List.append_nil]
      refine { h with call := by simp, result := ?_ }
      intro value hmem
      cases h.result value hmem
  | giveUp hdone => exact h.returns (by simp) (by simp)
  | takeReply target server value =>
      obtain rfl : server = target := Option.some.inj h.agrees
      exact h.advance (by simp) rfl ⟨value, rfl, rfl⟩ rfl rfl rfl (by simp)
  | dispatch | handlerReturn | drain =>
      exact h.advance (by simp) rfl (h.agrees.advance (by simp) (by simp) rfl) rfl rfl rfl (by simp)
  | receive msg result hresult =>
      have hsent := (h.send rfl).returns (by simp) (received_carries h.agrees hresult)
      rwa [List.append_assoc] at hsent
  | @receiveLater endname process handler draining msg result hresult =>
      have hempty := { h with timer := by simp : Sound wire checked
        ⟨endname, .waiting, process, handler, draining, none⟩ events }
      exact hempty.returns (by simp) (received_carries (h.timer msg rfl) hresult)

/-- The invariant with a weaker reading of what was checked. -/
theorem Sound.mono {weaker : Target N S → R → Prop} (h : Sound wire checked req events)
    (hkept : ∀ target value, checked target value → weaker target value) :
    Sound wire weaker req events := by
  have hcarries : ∀ msg, Carries wire checked req.handler msg →
      Carries wire weaker req.handler msg := by
    intro msg hmsg
    obtain ⟨target, value, hfinished, hreply, hchecked⟩ := hmsg
    exact ⟨target, value, hfinished, hreply, hkept target value hchecked⟩
  refine { h with agrees := ?_, timer := ?_, call := ?_ }
  · have hagrees := h.agrees
    unfold ProcessPc.Agrees at hagrees ⊢
    split <;> simp_all
  · intro msg htimer hok
    exact hcarries msg (h.timer msg htimer hok)
  · intro value hcall
    obtain ⟨target, hfinished, hchecked⟩ := h.call value hcall
    exact ⟨target, hfinished, hkept target value hchecked⟩

end Sound

end DistributedLabs.Labrpc
