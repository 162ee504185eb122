import DistributedLabs.Library.Machine
import DistributedLabs.Raft.Server
import Mathlib.Data.Fintype.Card
import Mathlib.Logic.Function.Basic

/-!
# A cluster of Raft servers

The goroutines of `n` servers created by `Make`, interleaved at the granularity of the lock. A
goroutine that `raft.go` spawns is an entry of the cluster state: the ticker of every server, the
`emitElection` calls that have been spawned but have not taken the lock, the vote and heartbeat
RPCs in progress, and the `sendHeartBeat` loops with their program point. The unlocked reads of
`rf.state` in `sendHeartBeat` are steps of their own.

Each `Call` delivers its request at most once and returns at most once, at any later time and in
any order. A call that never returns or whose request is never handled models a lost message. As
in `labrpc`, the handler may still run after `Call` has returned false.
-/

namespace DistributedLabs.Raft

/-- Where the `ticker` goroutine of a server stands: at the test of its loop, past the test and
about to read the clock, in the sleep that began at `startWaitTime`, or past the loop. -/
inductive TickerPc where
  | test
  | tested
  | sleeping (startWaitTime : Nat)
  | exited
  deriving DecidableEq

/-- Where a `sendHeartBeat` goroutine stands. `sample` reads the term under the lock, `send` is
the head of the loop over the peers, `check` is the role test after a send, `checkRound` is the
role test after the loop over the peers, and `sleeping` is the pause between two rounds. -/
inductive LoopPc (n : Nat) where
  | sample
  | send (appendentries : AppendEntries n) (i : Nat)
  | check (appendentries : AppendEntries n) (i : Nat)
  | checkRound
  | sleeping (since : Nat)
  | exited
  deriving DecidableEq

/-- A `sendHeartBeat` goroutine and the server that runs it. -/
structure HeartbeatLoop (n : Nat) where
  server : Fin n
  pc : LoopPc n
  deriving DecidableEq

/-- A `RequestVote` RPC. `reply` is set when the handler has run at `server`, and `returned` when
`Call` has returned at `caller`. -/
structure VoteCall (n : Nat) where
  caller : Fin n
  server : Fin n
  args : RequestVoteArgs n
  reply : Option RequestVoteReply := none
  returned : Bool := false
  deriving DecidableEq

/-- A `GetHeartbeat` RPC, with the same two flags. -/
structure HeartbeatCall (n : Nat) where
  caller : Fin n
  server : Fin n
  appendentries : AppendEntries n
  reply : Option HeartbeatReply := none
  returned : Bool := false
  deriving DecidableEq

/-- The state of the cluster. `elections` counts the `emitElection` goroutines of each server that
have been spawned and have not yet taken the lock. -/
structure Cluster (n : Nat) where
  now : Nat
  servers : Fin n → Server n
  tickers : Fin n → TickerPc
  elections : Fin n → Nat
  voteCalls : List (VoteCall n)
  loops : List (HeartbeatLoop n)
  heartbeatCalls : List (HeartbeatCall n)

/-- The atomic steps of the goroutines. RPCs and loops are named by their position in the list of
all that were ever started. -/
inductive Action (n : Nat) where
  | advance (ms : Nat)
  | tickerTest (s : Fin n)
  | tickerStart (s : Fin n)
  | tickerWake (s : Fin n)
  | emitElection (s : Fin n)
  | requestVote (k : Nat)
  | voteReturn (k : Nat) (ok : Bool)
  | sendHeartBeat (k : Nat)
  | getHeartbeat (k : Nat)
  | heartbeatReturn (k : Nat) (ok : Bool)
  | kill (s : Fin n)
  deriving DecidableEq

variable {n : Nat}

/-- Every server as `Make` leaves it, with its ticker started. The clock has passed the zero
time. -/
def initial (n : Nat) : Cluster n where
  now := 1
  servers := fun _ => make
  tickers := fun _ => .test
  elections := fun _ => 0
  voteCalls := []
  loops := []
  heartbeatCalls := []

/-- The vote requests of one election: one goroutine for every peer other than `me`. -/
def voteRequests (me : Fin n) (args : RequestVoteArgs n) : List (VoteCall n) :=
  ((List.finRange n).filter (· ≠ me)).map fun i => { caller := me, server := i, args := args }

/-- One step of a `sendHeartBeat` goroutine: its next program point and the RPC that it starts. -/
def sendHeartBeat (now : Nat) (rf : Server n) (me : Fin n) :
    LoopPc n → Option (LoopPc n × List (HeartbeatCall n))
  | .sample => some (.send ⟨rf.currentTerm, me⟩ 0, [])
  | .send appendentries i =>
      if h : i < n then
        if i = me then some (.send appendentries (i + 1), [])
        else some (.check appendentries i,
          [{ caller := me, server := ⟨i, h⟩, appendentries := appendentries }])
      else some (.checkRound, [])
  | .check appendentries i =>
      -- leaving the loop over the peers leads to the same test once more
      some (if rf.state = .leader then .send appendentries (i + 1) else .checkRound, [])
  | .checkRound => some (if rf.state = .leader then .sleeping now else .exited, [])
  | .sleeping since => if since + 100 ≤ now then some (.sample, []) else none
  | .exited => none

/-- Replace the struct of one server. -/
def Cluster.setServer (σ : Cluster n) (s : Fin n) (rf : Server n) : Cluster n :=
  { σ with servers := Function.update σ.servers s rf }

/-- The reply of a vote call reaches its goroutine, which counts a granted vote and starts a
heartbeat loop when the vote completes a majority. -/
def Cluster.receiveVote (σ : Cluster n) (caller : Fin n) (reply : RequestVoteReply) : Cluster n :=
  if reply.voteGranted then
    { σ.setServer caller (countVote (σ.servers caller)).1 with
      loops := if (countVote (σ.servers caller)).2 then σ.loops ++ [⟨caller, .sample⟩]
        else σ.loops }
  else σ

/-- One step of the cluster. -/
def step (σ : Cluster n) : Action n → Option (Cluster n)
  | .advance ms => some { σ with now := σ.now + ms }
  | .tickerTest s =>
      match σ.tickers s with
      | .test =>
          some { σ with
            tickers := Function.update σ.tickers s
              (if (σ.servers s).dead then .exited else .tested) }
      | _ => none
  | .tickerStart s =>
      match σ.tickers s with
      | .tested => some { σ with tickers := Function.update σ.tickers s (.sleeping σ.now) }
      | _ => none
  | .tickerWake s =>
      match σ.tickers s with
      | .sleeping startWaitTime =>
          if startWaitTime + 300 ≤ σ.now then
            some { σ.setServer s (tickerCheck (σ.servers s) startWaitTime).1 with
              tickers := Function.update σ.tickers s .test
              elections := Function.update σ.elections s
                (σ.elections s +
                  if (tickerCheck (σ.servers s) startWaitTime).2 then 1 else 0) }
          else none
      | _ => none
  | .emitElection s =>
      if 0 < σ.elections s then
        some { σ.setServer s (emitElection (σ.servers s) s).1 with
          elections := Function.update σ.elections s (σ.elections s - 1)
          voteCalls := σ.voteCalls ++ voteRequests s (emitElection (σ.servers s) s).2 }
      else none
  | .requestVote k => do
      let call ← σ.voteCalls[k]?
      if call.reply = none then
        let result := requestVote (σ.servers call.server) σ.now call.args
        some { σ.setServer call.server result.1 with
          voteCalls := σ.voteCalls.set k { call with reply := some result.2 } }
      else none
  | .voteReturn k ok => do
      let call ← σ.voteCalls[k]?
      if call.returned then none
      else
        let σ' := { σ with voteCalls := σ.voteCalls.set k { call with returned := true } }
        -- a reply can only arrive after the handler ran; a lost one ends the call at any time
        if ok then
          let reply ← call.reply
          some (σ'.receiveVote call.caller reply)
        else some σ'
  | .sendHeartBeat k => do
      let loop ← σ.loops[k]?
      let (pc, calls) ← sendHeartBeat σ.now (σ.servers loop.server) loop.server loop.pc
      some { σ with
        loops := σ.loops.set k { loop with pc := pc }
        heartbeatCalls := σ.heartbeatCalls ++ calls }
  | .getHeartbeat k => do
      let call ← σ.heartbeatCalls[k]?
      if call.reply = none then
        let result := getHeartbeat (σ.servers call.server) σ.now call.appendentries
        some { σ.setServer call.server result.1 with
          heartbeatCalls := σ.heartbeatCalls.set k { call with reply := some result.2 } }
      else none
  | .heartbeatReturn k ok => do
      let call ← σ.heartbeatCalls[k]?
      if call.returned then none
      else
        -- the goroutine ignores `ok`: a failed call leaves it with the zero reply
        let reply ← if ok then call.reply else some {}
        some { σ.setServer call.caller (heartbeatReturn (σ.servers call.caller) reply) with
          heartbeatCalls := σ.heartbeatCalls.set k { call with returned := true } }
  | .kill s => some (σ.setServer s (kill (σ.servers s)))

/-- The cluster as a machine: its runs are the interleavings of its goroutines. -/
def cluster (n : Nat) : Machine (Cluster n) (Action n) where
  init := initial n
  step := step

/-- Server 0 of a cluster of three. -/
def peer0 : Fin 3 := 0

/-- Server 2 of a cluster of three. -/
def peer2 : Fin 3 := 2

end DistributedLabs.Raft
