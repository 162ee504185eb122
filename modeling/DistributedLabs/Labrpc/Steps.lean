import DistributedLabs.Labrpc.Network

/-!
# The steps on a request

The statements of `processReq` (`Processed`) and the steps on a request (`Stepped`) as relations,
each step with its conditions. What holds of all steps is proved by cases on them, through
`process_req_cases` and `step_cases`.
-/

namespace DistributedLabs.Labrpc

variable {E N S R : Type} [DecidableEq S]

/-- The statements of `processReq`, by the program point before them. -/
inductive Processed (rn : Network E N S) (req : Request E N S R) :
    ProcessPc N S → Request E N S R → List (RequestEvent N S R) → Prop where
  | unconnected : Processed rn req .read { req with process := .noReply } []
  | reliable (target : Target N S) (henabled : rn.enabled req.endname = true)
      (hserver : rn.servers target.servername = some target.server) :
      Processed rn req .read { req with process := .execute target } []
  | unreliable (target : Target N S) (henabled : rn.enabled req.endname = true)
      (hserver : rn.servers target.servername = some target.server) :
      Processed rn req .read { req with process := .delay target } []
  | noReply :
      Processed rn req .noReply { req with process := .finished, timer := some failure }
        [.posted failure]
  | delay (target : Target N S) :
      Processed rn req (.delay target) { req with process := .drop target } []
  | dropped (target : Target N S) :
      Processed rn req (.drop target) { req with process := .send failure } []
  | kept (target : Target N S) :
      Processed rn req (.drop target) { req with process := .execute target } []
  | execute (target : Target N S) :
      Processed rn req (.execute target)
        { req with process := .wait target, handler := .spawned target } []
  | wait (target : Target N S) :
      Processed rn req (.wait target) { req with process := .poll target } []
  | dead (target : Target N S)
      (hdead : isServerDead rn req.endname target.servername target.server = true) :
      Processed rn req (.poll target)
        { req with process := .recheck target none, draining := true } []
  | alive (target : Target N S)
      (halive : isServerDead rn req.endname target.servername target.server = false) :
      Processed rn req (.poll target) { req with process := .wait target } []
  | recheck (target : Target N S) (reply : Option ReplyMsg) (serverDead : Bool)
      (hdead : isServerDead rn req.endname target.servername target.server = serverDead) :
      Processed rn req (.recheck target reply)
        { req with process := .answer target reply serverDead } []
  | refuse (target : Target N S) (reply : Option ReplyMsg) (serverDead : Bool) :
      Processed rn req (.answer target reply serverDead) { req with process := .send failure } []
  | pass (target : Target N S) (reply : ReplyMsg) :
      Processed rn req (.answer target (some reply) false)
        { req with process := .reorder target reply } []
  | later (target : Target N S) (reply : ReplyMsg) :
      Processed rn req (.reorder target reply)
        { req with process := .finished, timer := some reply } [.posted reply]
  | now (target : Target N S) (reply : ReplyMsg) :
      Processed rn req (.reorder target reply) { req with process := .send reply } []

/-- Every statement of `processReq` is one of these. -/
theorem process_req_cases {rn : Network E N S} {req next : Request E N S R} {chance : Bool}
    {fresh : List (RequestEvent N S R)} (h : processReq rn req chance = some (next, fresh)) :
    Processed rn req req.process next fresh := by
  obtain ⟨endname, call, process, handler, draining, timer⟩ := req
  cases process with
  | idle | send | finished => cases h
  | read =>
      simp only [processReq] at h
      split at h
      next servername server henabled hname hserver =>
        have hregistered : rn.servers servername = some server := by
          have hbind : (rn.connections endname).bind rn.servers = some server := hserver
          rwa [show rn.connections endname = some servername from hname] at hbind
        obtain ⟨rfl, rfl⟩ := h
        split
        · exact .reliable _ henabled hregistered
        · exact .unreliable _ henabled hregistered
      next =>
        obtain ⟨rfl, rfl⟩ := h
        exact .unconnected
  | noReply =>
      obtain ⟨rfl, rfl⟩ := h
      exact .noReply
  | delay target =>
      obtain ⟨rfl, rfl⟩ := h
      exact .delay target
  | drop target =>
      simp only [processReq] at h
      split at h
      · obtain ⟨rfl, rfl⟩ := h
        exact .dropped target
      · obtain ⟨rfl, rfl⟩ := h
        exact .kept target
  | execute target =>
      obtain ⟨rfl, rfl⟩ := h
      exact .execute target
  | wait target =>
      obtain ⟨rfl, rfl⟩ := h
      exact .wait target
  | poll target =>
      simp only [processReq] at h
      split at h
      · rename_i hdead
        obtain ⟨rfl, rfl⟩ := h
        exact .dead target hdead
      · rename_i halive
        obtain ⟨rfl, rfl⟩ := h
        exact .alive target (Bool.not_eq_true _ ▸ halive)
  | recheck target reply =>
      obtain ⟨rfl, rfl⟩ := h
      exact .recheck target reply _ rfl
  | answer target reply serverDead =>
      rcases reply with _ | reply
      · obtain ⟨rfl, rfl⟩ := h
        exact .refuse target none serverDead
      · cases serverDead with
        | true =>
            obtain ⟨rfl, rfl⟩ := h
            exact .refuse target (some reply) true
        | false =>
            simp only [processReq] at h
            split at h
            · obtain ⟨rfl, rfl⟩ := h
              exact .refuse target (some reply) false
            · obtain ⟨rfl, rfl⟩ := h
              exact .pass target reply
  | reorder target reply =>
      simp only [processReq] at h
      split at h
      · obtain ⟨rfl, rfl⟩ := h
        exact .later target reply
      · obtain ⟨rfl, rfl⟩ := h
        exact .now target reply

/-- The steps on a request. Those of `processReq` are `Processed`. -/
inductive Stepped (wire : Wire R) (rn : Network E N S) : RequestAction R → Request E N S R →
    Request E N S R → List (RequestEvent N S R) → Prop where
  | accept {endname handler draining timer} (hlistening : rn.listening = true) :
      Stepped wire rn .accept ⟨endname, .sending, .idle, handler, draining, timer⟩
        ⟨endname, .waiting, .read, handler, draining, timer⟩ []
  | giveUp {endname process handler draining timer} (hdone : rn.done = true) :
      Stepped wire rn .giveUp ⟨endname, .sending, process, handler, draining, timer⟩
        ⟨endname, .returned none, process, handler, draining, timer⟩ [.returned none]
  | processReq {req next fresh} (chance : Bool)
      (hprocess : Processed rn req req.process next fresh) :
      Stepped wire rn (.processReq chance) req next fresh
  | takeReply {endname call draining timer} (target server : Target N S) (value : R) :
      Stepped wire rn .takeReply
        ⟨endname, call, .wait target, .returned server value, draining, timer⟩
        ⟨endname, call, .recheck target (some ⟨true, wire.encode value⟩), .finished server value,
          draining, timer⟩ []
  | dispatch {endname call process draining timer} (target : Target N S) :
      Stepped wire rn .dispatch ⟨endname, call, process, .spawned target, draining, timer⟩
        ⟨endname, call, process, .running target, draining, timer⟩
        [.started target.servername target.server]
  | handlerReturn {endname call process draining timer} (target : Target N S) (value : R) :
      Stepped wire rn (.handlerReturn value)
        ⟨endname, call, process, .running target, draining, timer⟩
        ⟨endname, call, process, .returned target value, draining, timer⟩ [.ran value]
  | drain {endname call process timer} (target : Target N S) (value : R) :
      Stepped wire rn .drain ⟨endname, call, process, .returned target value, true, timer⟩
        ⟨endname, call, process, .finished target value, false, timer⟩ []
  | receive {endname handler draining timer} (msg : ReplyMsg) (result : Option R)
      (hresult : received wire msg = some result) :
      Stepped wire rn .receive ⟨endname, .waiting, .send msg, handler, draining, timer⟩
        ⟨endname, .returned result, .finished, handler, draining, timer⟩
        [.posted msg, .returned result]
  | receiveLater {endname process handler draining} (msg : ReplyMsg) (result : Option R)
      (hresult : received wire msg = some result) :
      Stepped wire rn .receiveLater ⟨endname, .waiting, process, handler, draining, some msg⟩
        ⟨endname, .returned result, process, handler, draining, none⟩ [.returned result]

/-- Every step on a request is one of these. -/
theorem step_cases {wire : Wire R} {rn : Network E N S} {req next : Request E N S R}
    {action : RequestAction R} {fresh : List (RequestEvent N S R)}
    (h : req.step wire rn action = some (next, fresh)) : Stepped wire rn action req next fresh := by
  obtain ⟨endname, call, process, handler, draining, timer⟩ := req
  cases action with
  | processReq chance => exact .processReq chance (process_req_cases h)
  | accept =>
      simp only [Request.step] at h
      split at h
      next =>
        split at h
        · rename_i hlistening
          obtain ⟨rfl, rfl⟩ := h
          exact .accept hlistening
        · cases h
      next => cases h
  | giveUp =>
      simp only [Request.step] at h
      split at h
      next =>
        split at h
        · rename_i hdone
          obtain ⟨rfl, rfl⟩ := h
          exact .giveUp hdone
        · cases h
      next => cases h
  | takeReply =>
      simp only [Request.step] at h
      split at h
      next target server value =>
        obtain ⟨rfl, rfl⟩ := h
        exact .takeReply target server value
      next => cases h
  | dispatch =>
      simp only [Request.step] at h
      split at h
      next target =>
        obtain ⟨rfl, rfl⟩ := h
        exact .dispatch target
      next => cases h
  | handlerReturn value =>
      simp only [Request.step] at h
      split at h
      next target =>
        obtain ⟨rfl, rfl⟩ := h
        exact .handlerReturn target value
      next => cases h
  | drain =>
      simp only [Request.step] at h
      split at h
      next target value =>
        split at h
        · rename_i hdraining
          obtain rfl : draining = true := hdraining
          obtain ⟨rfl, rfl⟩ := h
          exact .drain target value
        · cases h
      next => cases h
  | receive =>
      simp only [Request.step] at h
      split at h
      next msg =>
        obtain ⟨result, hresult, heq⟩ := Option.map_eq_some_iff.mp h
        obtain ⟨rfl, rfl⟩ := heq
        exact .receive msg result hresult
      next => cases h
  | receiveLater =>
      simp only [Request.step] at h
      split at h
      next msg =>
        obtain ⟨result, hresult, heq⟩ := Option.map_eq_some_iff.mp h
        obtain ⟨rfl, rfl⟩ := heq
        exact .receiveLater msg result hresult
      next => cases h

end DistributedLabs.Labrpc
