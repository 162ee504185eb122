import DistributedLabs.Labrpc.Requests

/-!
# The contract of a simulated call

`processReq` answers every request once, and a `Call` that returns true has run the handler once, on
a server that was still registered when the handler returned. A request only compares the registered
server with its own at the end, so this holds if servers that were removed from their name are never
added there again (`registered_not_removed`).
-/

namespace DistributedLabs.Labrpc

variable {E N S R : Type}

/-! ## All requests -/

/-- The events of one request. -/
def eventsOf (index : Nat) (events : List (Event N S R)) : List (RequestEvent N S R) :=
  events.filterMap fun
    | .server _ => none
    | .request other event => if other = index then some event else none

@[simp] theorem events_of_append (index : Nat) (first second : List (Event N S R)) :
    eventsOf index (first ++ second) = eventsOf index first ++ eventsOf index second :=
  List.filterMap_append

/-- What happens to the servers is no event of a request. -/
@[simp] theorem events_of_server (index : Nat) (events : List (ServerEvent N S)) :
    eventsOf index (events.map .server : List (Event N S R)) = [] := by
  simp [eventsOf]

/-- The events of a step on the request. -/
@[simp] theorem events_of_request (index : Nat) (events : List (RequestEvent N S R)) :
    eventsOf index (events.map (.request index)) = events := by
  simp [eventsOf, List.filterMap_map]

/-- The events of a step on another request. -/
theorem events_of_other {index other : Nat} (h : other ≠ index)
    (events : List (RequestEvent N S R)) : eventsOf index (events.map (.request other)) = [] := by
  simp [eventsOf, h]

/-- A run of the handler is an event of the system. -/
theorem mem_of_mem_ran {index : Nat} {value : R} {events : List (Event N S R)}
    (h : value ∈ ran (eventsOf index events)) : .request index (.ran value) ∈ events := by
  obtain ⟨event, hevent, hvalue⟩ := List.mem_filterMap.mp h
  obtain ⟨whole, hwhole, hrequest⟩ := List.mem_filterMap.mp hevent
  split at hrequest
  · cases hrequest
  · split at hrequest
    · next hindex =>
        obtain rfl := Option.some.inj hrequest
        split at hvalue
        · rw [← hindex, ← Option.some.inj hvalue]
          exact hwhole
        · cases hvalue
    · cases hrequest

/-- The run of the handler returned before the server was removed from its name. -/
def FinishedBefore (events : List (Event N S R)) (index : Nat) (target : Target N S) (value : R) :
    Prop :=
  ∃ before after, events = before ++ .request index (.ran value) :: after ∧
    .server (.removed target.servername target.server) ∉ before

/-- All requests of the system fit what was seen of them. -/
structure AllSound (wire : Wire R) (σ : System E N S R) (events : List (Event N S R)) : Prop where
  unseen : ∀ index, σ.requests.length ≤ index → eventsOf index events = []
  sound : ∀ index req, σ.requests[index]? = some req →
    Sound wire (FinishedBefore events index) req (eventsOf index events)

/-- Later events do not change when a run has finished. -/
theorem FinishedBefore.append {events : List (Event N S R)} {index : Nat} {target : Target N S}
    {value : R} (h : FinishedBefore events index target value) (later : List (Event N S R)) :
    FinishedBefore (events ++ later) index target value := by
  obtain ⟨before, after, rfl, hnot⟩ := h
  exact ⟨before, after ++ later, by simp, hnot⟩

/-- A step that shows nothing of a request leaves it sound. -/
theorem AllSound.other {wire : Wire R} {σ : System E N S R} {events later : List (Event N S R)}
    (h : AllSound wire σ events) {index : Nat} {req : Request E N S R}
    (hreq : σ.requests[index]? = some req) (hlater : eventsOf index later = []) :
    Sound wire (FinishedBefore (events ++ later) index) req (eventsOf index (events ++ later)) := by
  rw [events_of_append, hlater, List.append_nil]
  exact (h.sound index req hreq).mono fun target value hfinished => hfinished.append later

/-- A new request is sound. -/
theorem AllSound.call {wire : Wire R} {σ : System E N S R} {events : List (Event N S R)}
    (h : AllSound wire σ events) (endname : E) :
    AllSound wire { σ with requests := σ.requests ++ [newRequest endname] } events where
  unseen := by
    intro index hindex
    rw [List.length_append] at hindex
    exact h.unseen index (by omega)
  sound := by
    intro index req hreq
    by_cases hindex : index < σ.requests.length
    · rw [List.getElem?_append_left hindex] at hreq
      exact h.sound index req hreq
    · have hlength := (List.getElem?_eq_some_iff.mp hreq).1
      rw [List.length_append, List.length_singleton] at hlength
      obtain rfl : index = σ.requests.length := by omega
      rw [List.getElem?_concat_length] at hreq
      obtain rfl := Option.some.inj hreq
      rw [h.unseen σ.requests.length le_rfl]
      exact Sound.new endname

/-- A step on one request keeps all requests sound, if the servers that are registered were not
removed before. -/
theorem AllSound.request [DecidableEq S] {wire : Wire R} {σ : System E N S R}
    {events : List (Event N S R)} (h : AllSound wire σ events)
    (hregistered : ∀ servername server, σ.rn.servers servername = some server →
      .server (.removed servername server) ∉ events)
    {index : Nat} {req later : Request E N S R} {fresh : List (RequestEvent N S R)}
    {action : RequestAction R} (hreq : σ.requests[index]? = some req)
    (hlater : req.step wire σ.rn action = some (later, fresh)) :
    AllSound wire { σ with requests := σ.requests.set index later }
      (events ++ fresh.map (.request index)) where
  unseen := by
    intro other hother
    rw [List.length_set] at hother
    have hlength := (List.getElem?_eq_some_iff.mp hreq).1
    rw [events_of_append, h.unseen other hother, events_of_other (by omega)]
    rfl
  sound := by
    intro other now hnow
    by_cases hsame : index = other
    · subst hsame
      have hlength := (List.getElem?_eq_some_iff.mp hreq).1
      obtain rfl : later = now := by simpa [hlength] using hnow
      have hkept := (h.sound index req hreq).mono fun target value hfinished =>
        hfinished.append (fresh.map (.request index))
      rw [events_of_append, events_of_request]
      refine hkept.step ?_ hlater
      intro target value hserver hran
      -- the server is registered now, so it has not been removed since the run
      have hnot := hregistered target.servername target.server hserver
      obtain ⟨before, after, hsplit⟩ := List.append_of_mem (mem_of_mem_ran hran)
      refine FinishedBefore.append ⟨before, after, hsplit, fun hmem => hnot ?_⟩ _
      rw [hsplit]
      exact List.mem_append_left _ hmem
    · rw [List.getElem?_set_ne hsame] at hnow
      exact h.other hnow (events_of_other hsame fresh)

/-! ## Servers that are not added again -/

section System

variable [DecidableEq E] [DecidableEq N] [DecidableEq S] {wire : Wire R}

/-- The later event adds the server object that the earlier one removed from its name. -/
def readds : Event N S R → Event N S R → Bool
  | .server (.removed servername server), .server (.added other rs) =>
      servername = other ∧ server = rs
  | _, _ => false

/-- No server object that was removed from its name is added under the name again. -/
def NeverReadded (events : List (Event N S R)) : Prop :=
  events.Pairwise fun earlier later => readds earlier later = false

instance (events : List (Event N S R)) : Decidable (NeverReadded events) :=
  inferInstanceAs (Decidable (events.Pairwise _))

/-- Everything that a run shows. -/
def trace (wire : Wire R) (actions : List (Action E N S R)) : List (Event N S R) :=
  (labrpc E N S wire).observe (see wire) actions

/-- The servers after a call: a registered object was not removed by the call, and it was registered
before or is added now. -/
theorem servers_of_perform {rn next : Network E N S} {call : NetworkCall E N S}
    (h : rn.perform call = some next) {servername : N} {server : S}
    (hserver : next.servers servername = some server) :
    .removed servername server ∉ rn.see call ∧
      (rn.servers servername = some server ∨ .added servername server ∈ rn.see call) := by
  have hquiet : rn.see call = [] → next.servers = rn.servers →
      .removed servername server ∉ rn.see call ∧
        (rn.servers servername = some server ∨ .added servername server ∈ rn.see call) := by
    intro hsee hservers
    exact ⟨by simp [hsee], Or.inl (hservers ▸ hserver)⟩
  cases call with
  | addServer name rs =>
      obtain rfl := Option.some.inj h
      simp only [addServer, Function.update_apply] at hserver
      split at hserver
      next hname =>
        obtain rfl := Option.some.inj hserver
        simp [Network.see, hname]
      next hname => simp [Network.see, hserver, Ne.symm hname]
  | deleteServer name =>
      obtain rfl := Option.some.inj h
      simp only [deleteServer, Function.update_apply] at hserver
      split at hserver
      next => cases hserver
      next hname => simp [Network.see, hserver, Ne.symm hname]
  | makeEnd endname =>
      obtain ⟨-, ⟨⟩⟩ := Option.ite_none_left_eq_some.mp h
      exact hquiet rfl rfl
  | deleteEnd endname =>
      obtain ⟨-, ⟨⟩⟩ := Option.ite_none_right_eq_some.mp h
      exact hquiet rfl rfl
  | cleanup =>
      obtain ⟨-, ⟨⟩⟩ := Option.ite_none_left_eq_some.mp h
      exact hquiet rfl rfl
  | stopListening =>
      obtain ⟨-, ⟨⟩⟩ := Option.ite_none_right_eq_some.mp h
      exact hquiet rfl rfl
  | _ =>
      obtain rfl := Option.some.inj h
      exact hquiet rfl rfl

/-- The next step of a run adds its events. -/
theorem trace_concat {actions : List (Action E N S R)} {action : Action E N S R}
    {σ next : System E N S R} (hrun : (labrpc E N S wire).run actions = some σ)
    (hstep : (labrpc E N S wire).step σ action = some next) :
    trace wire (actions ++ [action]) = trace wire actions ++ see wire σ action :=
  Machine.observe_concat hrun hstep

/-- A step on a request is a step of one request, with its events. -/
theorem step_request {σ next : System E N S R} {index : Nat} {action : RequestAction R}
    (h : step wire σ (.request index action) = some next) :
    ∃ req later fresh, σ.requests[index]? = some req ∧
      req.step wire σ.rn action = some (later, fresh) ∧
      next = { σ with requests := σ.requests.set index later } ∧
      see wire σ (.request index action) = fresh.map (.request index) := by
  obtain ⟨req, hreq, hmap⟩ := Option.bind_eq_some_iff.mp h
  obtain ⟨⟨later, fresh⟩, hlater, rfl⟩ := Option.map_eq_some_iff.mp hmap
  exact ⟨req, later, fresh, hreq, hlater, rfl, by simp [see, hreq, hlater]⟩

/-- A registered server object was never removed from its name. -/
theorem registered_not_removed {actions : List (Action E N S R)} {σ : System E N S R}
    (hrun : (labrpc E N S wire).run actions = some σ) (hnever : NeverReadded (trace wire actions))
    {servername : N} {server : S} (hserver : σ.rn.servers servername = some server) :
    .server (.removed servername server) ∉ trace wire actions := by
  refine Machine.run_induction (motive := fun actions σ => NeverReadded (trace wire actions) →
    σ.rn.servers servername = some server →
    .server (.removed servername server) ∉ trace wire actions) ?_ ?_ hrun hnever hserver
  · intro _ hinit
    cases hinit
  · intro actions σ action next hrun ih hstep hnever hserver
    rw [trace_concat hrun hstep] at hnever ⊢
    obtain ⟨hbefore, -, hacross⟩ := List.pairwise_append.mp hnever
    cases action with
    | network call =>
        obtain ⟨rn, hperform, rfl⟩ := Option.map_eq_some_iff.mp hstep
        obtain ⟨hnot, hsource⟩ := servers_of_perform hperform hserver
        intro hmem
        rcases List.mem_append.mp hmem with hremoved | hnow
        · cases hsource with
          | inl hold => exact ih hbefore hold hremoved
          | inr hadded =>
              have hreadds := hacross _ hremoved (.server (.added servername server))
                (by simpa [see] using hadded)
              simp [readds] at hreadds
        · exact hnot (by simpa [see] using hnow)
    | call endname =>
        obtain rfl := Option.some.inj hstep
        simpa [see] using ih hbefore hserver
    | request index action =>
        obtain ⟨req, later, fresh, hreq, hlater, rfl, hsee⟩ := step_request hstep
        rw [hsee]
        simpa using ih hbefore hserver

/-- Every step keeps all requests sound. -/
theorem AllSound.step {actions : List (Action E N S R)} {σ next : System E N S R}
    {action : Action E N S R} (h : AllSound wire σ (trace wire actions))
    (hrun : (labrpc E N S wire).run actions = some σ)
    (hnever : NeverReadded (trace wire actions))
    (hstep : (labrpc E N S wire).step σ action = some next) :
    AllSound wire next (trace wire (actions ++ [action])) := by
  rw [trace_concat hrun hstep]
  cases action with
  | network call =>
      obtain ⟨rn, hperform, rfl⟩ := Option.map_eq_some_iff.mp hstep
      refine ⟨fun index hindex => ?_, fun index req hreq => h.other hreq (by simp [see])⟩
      simpa [see] using h.unseen index hindex
  | call endname =>
      obtain rfl := Option.some.inj hstep
      rw [see, List.append_nil]
      exact h.call endname
  | request index action =>
      obtain ⟨req, later, fresh, hreq, hlater, rfl, hsee⟩ := step_request hstep
      rw [hsee]
      exact h.request (fun _ _ => registered_not_removed hrun hnever) hreq hlater

/-- All requests are sound along every run. -/
theorem all_sound {actions : List (Action E N S R)} {σ : System E N S R}
    (hrun : (labrpc E N S wire).run actions = some σ)
    (hnever : NeverReadded (trace wire actions)) : AllSound wire σ (trace wire actions) := by
  refine Machine.run_induction (motive := fun actions σ => NeverReadded (trace wire actions) →
    AllSound wire σ (trace wire actions)) ?_ ?_ hrun hnever
  · intro _
    exact ⟨fun _ _ => rfl, fun index req hreq => by cases hreq⟩
  · intro actions σ action next hrun ih hstep hnever
    have hbefore : NeverReadded (trace wire actions) := by
      rw [trace_concat hrun hstep] at hnever
      exact (List.pairwise_append.mp hnever).1
    exact (ih hbefore).step hrun hbefore hstep

/-! ## The contract -/

/-- The contract of a call, for every interleaving of the network's calls with any number of
requests, if no server object is added again under a name from which it was deleted or replaced.
When `processReq` is finished it has sent or scheduled one message; the handler is started at most
once; and if `Call` has returned true, the handler ran once, what `Call` decoded is the reply of
that run, and the run finished before its server was deleted or replaced. -/
theorem rpc_contract {actions : List (Action E N S R)} {σ : System E N S R}
    (hrun : (labrpc E N S wire).run actions = some σ)
    (hnever : NeverReadded (trace wire actions)) {index : Nat} {req : Request E N S R}
    (hreq : σ.requests[index]? = some req) :
    (req.process = .finished → (posted (eventsOf index (trace wire actions))).length = 1) ∧
      (started (eventsOf index (trace wire actions))).length ≤ 1 ∧
      ∀ value, .returned (some value) ∈ eventsOf index (trace wire actions) →
        ∃ servername server before after,
          started (eventsOf index (trace wire actions)) = [(servername, server)] ∧
          ran (eventsOf index (trace wire actions)) = [value] ∧
          trace wire actions = before ++ .request index (.ran value) :: after ∧
          .server (.removed servername server) ∉ before := by
  have h := (all_sound hrun hnever).sound index req hreq
  refine ⟨?_, ?_, ?_⟩
  · intro hfinished
    rw [h.posts, hfinished]
    rfl
  · rw [h.starts]
    cases req.handler <;> simp [HandlerPc.starts]
  · intro value hreturned
    have hcall := h.result value hreturned
    obtain ⟨target, hhandler, before, after, hsplit, hnot⟩ := h.call value hcall
    refine ⟨target.servername, target.server, before, after, ?_, ?_, hsplit, hnot⟩
    · rw [h.starts, hhandler]
      rfl
    · rw [h.runs, hhandler]
      rfl

end System

/-- Replies that are their own encoding. -/
def plainWire : Wire GoString := ⟨id, some, fun _ => rfl⟩

/-- A reply. -/
def someReply : GoString := [byteOf 7]

/-- A call on an end that is connected to a server, until the handler runs. -/
def calling : List (Action Nat Nat Nat GoString) :=
  [.network (.makeEnd 0), .network (.addServer 0 0), .network (.connect 0 0),
    .network (.enable 0 true), .call 0, .request 0 .accept, .request 0 (.processReq false),
    .request 0 (.processReq false), .request 0 .dispatch]

/-- The handler returns, and its reply reaches the client. -/
def answering : List (Action Nat Nat Nat GoString) :=
  [.request 0 (.handlerReturn someReply), .request 0 .takeReply, .request 0 (.processReq false),
    .request 0 (.processReq false), .request 0 (.processReq false), .request 0 .receive]

/-- The server is deleted after the call has returned. -/
def deletedLater : List (Action Nat Nat Nat GoString) :=
  calling ++ answering ++ [.network (.deleteServer 0)]

/-- The server is replaced and added again while the handler runs. -/
def putBack : List (Action Nat Nat Nat GoString) :=
  calling ++ [.network (.addServer 0 1), .network (.addServer 0 0)] ++ answering

/-- The contract of a call whose server is deleted after it has returned. -/
theorem rpc_contract_deleted_later :
    ∃ σ req, (labrpc Nat Nat Nat plainWire).run deletedLater = some σ ∧
      NeverReadded (trace plainWire deletedLater) ∧ σ.requests[0]? = some req ∧
      .returned (some someReply) ∈ eventsOf 0 (trace plainWire deletedLater) ∧
      ∃ servername server before after,
        started (eventsOf 0 (trace plainWire deletedLater)) = [(servername, server)] ∧
        ran (eventsOf 0 (trace plainWire deletedLater)) = [someReply] ∧
        trace plainWire deletedLater = before ++ .request 0 (.ran someReply) :: after ∧
        .server (.removed servername server) ∉ before := by
  obtain ⟨σ, hrun, hsome⟩ := (labrpc Nat Nat Nat plainWire).exists_run_of_check deletedLater
    (fun σ => (σ.requests[0]?).isSome) (by decide)
  obtain ⟨req, hreq⟩ := Option.isSome_iff_exists.mp hsome
  have hnever : NeverReadded (trace plainWire deletedLater) := by decide
  have hreturned : .returned (some someReply) ∈ eventsOf 0 (trace plainWire deletedLater) := by
    decide
  have hcontract := rpc_contract hrun hnever hreq
  exact ⟨σ, req, hrun, hnever, hreq, hreturned, hcontract.2.2 someReply hreturned⟩

/-- No server is deleted in this run and `Call` returns true, but the handler returned after its
server had been replaced: `isServerDead` compares objects, and cannot see that another one had the
name in between. -/
theorem replaced_server_answers :
    ((labrpc Nat Nat Nat plainWire).run putBack).isSome ∧
      (∀ servername, .network (.deleteServer servername) ∉ putBack) ∧
      ∃ before after,
        trace plainWire putBack = before ++ .request 0 (.ran someReply) :: after ∧
        .request 0 (.started 0 0) ∈ before ∧ .server (.removed 0 0) ∈ before ∧
        .request 0 (.returned (some someReply)) ∈ after := by
  refine ⟨by decide, by simp [putBack, calling, answering], ?_⟩
  refine ⟨[.server (.added 0 0), .request 0 (.started 0 0), .server (.removed 0 0),
    .server (.added 0 1), .server (.removed 0 1), .server (.added 0 0)],
    [.request 0 (.posted ⟨true, someReply⟩), .request 0 (.returned (some someReply))], ?_⟩
  exact ⟨by decide, by decide, by decide, by decide⟩

end DistributedLabs.Labrpc
