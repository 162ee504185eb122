import DistributedLabs.Library.GoString
import DistributedLabs.Library.Machine
import Mathlib.Logic.Function.Basic

/-!
# The simulated network

`labrpc/labrpc.go` simulates a network on which requests and replies can be lost or delayed and
servers can be killed. The model has the state of the `Network` that its locked methods read and
write, and for every `Call` the goroutines that work on it: the caller, `processReq`, the handler
that `processReq` starts, the goroutine that drains the handler's channel, and the timer of a reply
that is sent later. `ProcessPc`, `HandlerPc` and `CallPc` are their program points.

All channels are unbuffered: a send and the receive that takes it are one step. The durations of
sleeps and timers are left open, and random decisions are given with the step. What a handler does
is up to the server; a step of it is its start or its return with a reply.
-/

namespace DistributedLabs.Labrpc

/-- A message on a reply channel. -/
structure ReplyMsg where
  ok : Bool
  reply : GoString
  deriving DecidableEq

/-- `replyMsg{false, nil}`. -/
def failure : ReplyMsg := ⟨false, []⟩

/-- The encoding of replies by labgob, which decodes what it encoded (into a fresh variable). -/
structure Wire (R : Type) where
  encode : R → GoString
  decode : GoString → Option R
  decode_encode : ∀ value, decode (encode value) = some value

/-! ## The network -/

section Network

variable {E N S : Type} [DecidableEq E] [DecidableEq N] [DecidableEq S]

/-- The state of the network, by names of ends and of servers. A server is the object that is
registered under its name. `listening` says that the goroutine of `MakeNetwork` is running. -/
structure Network (E N S : Type) where
  reliable : Bool
  longDelays : Bool
  longReordering : Bool
  ends : E → Bool
  enabled : E → Bool
  servers : N → Option S
  connections : E → Option N
  done : Bool
  listening : Bool

/-- A new network. -/
def makeNetwork : Network E N S where
  reliable := true
  longDelays := false
  longReordering := false
  ends := fun _ => false
  enabled := fun _ => false
  servers := fun _ => none
  connections := fun _ => none
  done := false
  listening := true

/-- What `readEndnameInfo` returns. -/
structure EndnameInfo (N S : Type) where
  enabled : Bool
  servername : Option N
  server : Option S
  reliable : Bool
  longreordering : Bool

/-- What a request finds out about its end. -/
def readEndnameInfo (rn : Network E N S) (endname : E) : EndnameInfo N S where
  enabled := rn.enabled endname
  servername := rn.connections endname
  server := (rn.connections endname).bind rn.servers
  reliable := rn.reliable
  longreordering := rn.longReordering

/-- Whether the end is disabled or another server, or none, is registered under the name. -/
def isServerDead (rn : Network E N S) (endname : E) (servername : N) (server : S) : Bool :=
  rn.enabled endname = false ∨ rn.servers servername ≠ some server

/-- Create a client end. A second end with the same name stops the program. -/
def makeEnd (rn : Network E N S) (endname : E) : Option (Network E N S) :=
  if rn.ends endname then none
  else some { rn with
    ends := Function.update rn.ends endname true
    enabled := Function.update rn.enabled endname false
    connections := Function.update rn.connections endname none }

/-- Delete a client end. -/
def deleteEnd (rn : Network E N S) (endname : E) : Option (Network E N S) :=
  if rn.ends endname then some { rn with
    ends := Function.update rn.ends endname false
    enabled := Function.update rn.enabled endname false
    connections := Function.update rn.connections endname none }
  else none

/-- Register a server, in place of the one that has the name now. -/
def addServer (rn : Network E N S) (servername : N) (rs : S) : Network E N S :=
  { rn with servers := Function.update rn.servers servername (some rs) }

/-- Eliminate the server with the name. -/
def deleteServer (rn : Network E N S) (servername : N) : Network E N S :=
  { rn with servers := Function.update rn.servers servername none }

/-- Connect an end to a server. -/
def connect (rn : Network E N S) (endname : E) (servername : N) : Network E N S :=
  { rn with connections := Function.update rn.connections endname (some servername) }

/-- Enable or disable an end. -/
def enable (rn : Network E N S) (endname : E) (enabled : Bool) : Network E N S :=
  { rn with enabled := Function.update rn.enabled endname enabled }

/-- Close the channel `done`. Closing it twice panics. -/
def cleanup (rn : Network E N S) : Option (Network E N S) :=
  if rn.done then none else some { rn with done := true }

/-- The calls that change the network, and the end of the goroutine of `MakeNetwork`. -/
inductive NetworkCall (E N S : Type) where
  | reliable (yes : Bool)
  | longReordering (yes : Bool)
  | longDelays (yes : Bool)
  | makeEnd (endname : E)
  | deleteEnd (endname : E)
  | addServer (servername : N) (rs : S)
  | deleteServer (servername : N)
  | connect (endname : E) (servername : N)
  | enable (endname : E) (enabled : Bool)
  | cleanup
  | stopListening
  deriving DecidableEq

/-- The network after a call; `none` if the program stops. -/
def Network.perform (rn : Network E N S) : NetworkCall E N S → Option (Network E N S)
  | .reliable yes => some { rn with reliable := yes }
  | .longReordering yes => some { rn with longReordering := yes }
  | .longDelays yes => some { rn with longDelays := yes }
  | .makeEnd endname => makeEnd rn endname
  | .deleteEnd endname => deleteEnd rn endname
  | .addServer servername rs => some (addServer rn servername rs)
  | .deleteServer servername => some (deleteServer rn servername)
  | .connect endname servername => some (connect rn endname servername)
  | .enable endname enabled => some (enable rn endname enabled)
  | .cleanup => cleanup rn
  | .stopListening => if rn.done then some { rn with listening := false } else none

/-- What happens to the server objects. An object is removed from its name by `DeleteServer`, and by
`AddServer` of another object under the name. -/
inductive ServerEvent (N S : Type) where
  | added (servername : N) (server : S)
  | removed (servername : N) (server : S)
  deriving DecidableEq

/-- The events of a call. -/
def Network.see (rn : Network E N S) : NetworkCall E N S → List (ServerEvent N S)
  | .addServer servername rs =>
      (((rn.servers servername).filter (· ≠ rs)).map (.removed servername)).toList ++
        [.added servername rs]
  | .deleteServer servername => ((rn.servers servername).map (.removed servername)).toList
  | _ => []

end Network

/-! ## Requests -/

/-- The server that a request is for, with what else was read about its end. -/
structure Target (N S : Type) where
  servername : N
  server : S
  reliable : Bool
  longreordering : Bool

/-- The program points of `processReq`. `idle` is before it is started. -/
inductive ProcessPc (N S : Type) where
  | idle
  /-- before `readEndnameInfo` -/
  | read
  /-- simulate no reply -/
  | noReply
  /-- the short delay of an unreliable network -/
  | delay (target : Target N S)
  /-- drop the request or not -/
  | drop (target : Target N S)
  /-- start the handler -/
  | execute (target : Target N S)
  /-- wait for the handler -/
  | wait (target : Target N S)
  /-- 100 ms have passed -/
  | poll (target : Target N S)
  /-- the loop is over, with or without a reply -/
  | recheck (target : Target N S) (reply : Option ReplyMsg)
  /-- the server was checked once more -/
  | answer (target : Target N S) (reply : Option ReplyMsg) (serverDead : Bool)
  /-- delay the reply or not -/
  | reorder (target : Target N S) (reply : ReplyMsg)
  /-- send on the reply channel -/
  | send (msg : ReplyMsg)
  | finished

/-- The program points of the goroutine that runs the handler. -/
inductive HandlerPc (N S R : Type) where
  | absent
  | spawned (target : Target N S)
  | running (target : Target N S)
  /-- send the reply to `processReq` -/
  | returned (target : Target N S) (value : R)
  | finished (target : Target N S) (value : R)

/-- The program points of `Call`. -/
inductive CallPc (R : Type) where
  | sending
  | waiting
  | returned (result : Option R)

/-- A request and the goroutines that work on it. `timer` has the message that `time.AfterFunc` will
send, and `draining` says that there is a goroutine that waits to drain the handler's channel. -/
structure Request (E N S R : Type) where
  endname : E
  call : CallPc R
  process : ProcessPc N S
  handler : HandlerPc N S R
  draining : Bool
  timer : Option ReplyMsg

/-- The steps on one request. -/
inductive RequestAction (R : Type) where
  /-- the network takes the request and starts `processReq` -/
  | accept
  /-- `Call` finds that the network was destroyed -/
  | giveUp
  /-- the next statement of `processReq`, with the outcome of a random decision -/
  | processReq (chance : Bool)
  /-- `processReq` receives the handler's reply -/
  | takeReply
  | dispatch
  | handlerReturn (value : R)
  | drain
  /-- `Call` receives what `processReq` sends -/
  | receive
  /-- `Call` receives what the timer sends -/
  | receiveLater
  deriving DecidableEq

/-- What the steps on a request show. -/
inductive RequestEvent (N S R : Type) where
  /-- a message was sent or scheduled on the reply channel -/
  | posted (msg : ReplyMsg)
  /-- the handler was started, on a server -/
  | started (servername : N) (server : S)
  /-- the handler has returned -/
  | ran (value : R)
  /-- `Call` has returned; `some` means true -/
  | returned (result : Option R)
  deriving DecidableEq

section Requests

variable {E N S R : Type} [DecidableEq E] [DecidableEq N] [DecidableEq S]

/-- A request that `Call` is about to send. -/
def newRequest (endname : E) : Request E N S R where
  endname := endname
  call := .sending
  process := .idle
  handler := .absent
  draining := false
  timer := none

/-- The next statement of `processReq`. -/
def processReq (rn : Network E N S) (req : Request E N S R) (chance : Bool) :
    Option (Request E N S R × List (RequestEvent N S R)) :=
  match req.process with
  | .read =>
      let info := readEndnameInfo rn req.endname
      match info.enabled, info.servername, info.server with
      | true, some servername, some server =>
          let target := ⟨servername, server, info.reliable, info.longreordering⟩
          let next := if info.reliable then .execute target else .delay target
          some ({ req with process := next }, [])
      | _, _, _ => some ({ req with process := .noReply }, [])
  | .noReply =>
      -- the delay depends on `longDelays`, which is read without the lock
      some ({ req with process := .finished, timer := some failure }, [.posted failure])
  | .delay target => some ({ req with process := .drop target }, [])
  | .drop target =>
      if chance then some ({ req with process := .send failure }, [])
      else some ({ req with process := .execute target }, [])
  | .execute target =>
      some ({ req with process := .wait target, handler := .spawned target }, [])
  | .wait target => some ({ req with process := .poll target }, [])
  | .poll target =>
      if isServerDead rn req.endname target.servername target.server then
        some ({ req with process := .recheck target none, draining := true }, [])
      else some ({ req with process := .wait target }, [])
  | .recheck target reply =>
      let serverDead := isServerDead rn req.endname target.servername target.server
      some ({ req with process := .answer target reply serverDead }, [])
  | .answer target (some reply) false =>
      if target.reliable = false ∧ chance then
        some ({ req with process := .send failure }, [])
      else some ({ req with process := .reorder target reply }, [])
  | .answer _ _ _ => some ({ req with process := .send failure }, [])
  | .reorder target reply =>
      if target.longreordering ∧ chance then
        some ({ req with process := .finished, timer := some reply }, [.posted reply])
      else some ({ req with process := .send reply }, [])
  | .idle => none
  | .send _ => none
  | .finished => none

/-- What `Call` returns for a message it received. A reply that cannot be decoded stops the
program. -/
def received (wire : Wire R) (msg : ReplyMsg) : Option (Option R) :=
  if msg.ok then (wire.decode msg.reply).map some else some none

/-- A step on a request: the request after it, and what it shows. -/
def Request.step (wire : Wire R) (rn : Network E N S) (req : Request E N S R) :
    RequestAction R → Option (Request E N S R × List (RequestEvent N S R))
  | .accept =>
      match req.call, req.process with
      | .sending, .idle =>
          if rn.listening then some ({ req with call := .waiting, process := .read }, []) else none
      | _, _ => none
  | .giveUp =>
      match req.call with
      | .sending =>
          if rn.done then some ({ req with call := .returned none }, [.returned none]) else none
      | _ => none
  | .processReq chance => processReq rn req chance
  | .takeReply =>
      match req.process, req.handler with
      | .wait target, .returned server value =>
          some ({ req with
            process := .recheck target (some ⟨true, wire.encode value⟩)
            handler := .finished server value }, [])
      | _, _ => none
  | .dispatch =>
      match req.handler with
      | .spawned target =>
          some ({ req with handler := .running target },
            [.started target.servername target.server])
      | _ => none
  | .handlerReturn value =>
      match req.handler with
      | .running target => some ({ req with handler := .returned target value }, [.ran value])
      | _ => none
  | .drain =>
      match req.handler with
      | .returned target value =>
          if req.draining then
            some ({ req with handler := .finished target value, draining := false }, [])
          else none
      | _ => none
  | .receive =>
      match req.call, req.process with
      | .waiting, .send msg =>
          (received wire msg).map fun result =>
            ({ req with process := .finished, call := .returned result },
              [.posted msg, .returned result])
      | _, _ => none
  | .receiveLater =>
      match req.call, req.timer with
      | .waiting, some msg =>
          (received wire msg).map fun result =>
            ({ req with timer := none, call := .returned result }, [.returned result])
      | _, _ => none

/-! ## The system -/

/-- The network and all requests so far. -/
structure System (E N S R : Type) where
  rn : Network E N S
  requests : List (Request E N S R)

/-- The steps of the system. -/
inductive Action (E N S R : Type) where
  | network (call : NetworkCall E N S)
  | call (endname : E)
  | request (index : Nat) (action : RequestAction R)
  deriving DecidableEq

/-- A step of the system. -/
def step (wire : Wire R) (σ : System E N S R) : Action E N S R → Option (System E N S R)
  | .network call => (σ.rn.perform call).map fun rn => { σ with rn := rn }
  | .call endname => some { σ with requests := σ.requests ++ [newRequest endname] }
  | .request index action =>
      (σ.requests[index]?).bind fun req =>
        (req.step wire σ.rn action).map fun result =>
          { σ with requests := σ.requests.set index result.1 }

/-- The network with any number of clients. -/
def labrpc (E N S : Type) {R : Type} [DecidableEq E] [DecidableEq N] [DecidableEq S]
    (wire : Wire R) : Machine (System E N S R) (Action E N S R) where
  init := ⟨makeNetwork, []⟩
  step := step wire

/-- What a step of the system shows. -/
inductive Event (N S R : Type) where
  | server (event : ServerEvent N S)
  | request (index : Nat) (event : RequestEvent N S R)
  deriving DecidableEq

/-- The events of a step. -/
def see (wire : Wire R) (σ : System E N S R) : Action E N S R → List (Event N S R)
  | .network call => (σ.rn.see call).map .server
  | .call _ => []
  | .request index action =>
      match σ.requests[index]? with
      | none => []
      | some req =>
          match req.step wire σ.rn action with
          | none => []
          | some result => result.2.map (.request index)

end Requests

end DistributedLabs.Labrpc
