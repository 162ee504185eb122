import DistributedLabs.Raft.ElectionSafety

/-!
# Which messages make a stale server step down

A server that hears from a peer of a newer term should become a follower of that term, whichever
of the four messages it hears. Only requests do this, and only by the term written in them
(`steps_down_iff`). The goroutine that receives a vote looks at `VoteGranted` and never at `Term`,
and `GetHeartbeat` never fills in the `Term` of its reply, so that the return of a heartbeat
call changes no server (`heartbeat_return_keeps_servers`). A request may also carry less than the
term of its sender, because its arguments are built before it is sent.
-/

namespace DistributedLabs.Raft

variable {n : Nat} {σ σ' : Cluster n} {action : Action n} {actions : List (Action n)}

/-- The peer was in the given term at some moment of the run at which the call was under way. The
goroutines that make the calls run some time after the arguments were built, so each such moment
is one at which the request may have been sent. -/
def SentInTerm (actions : List (Action n)) (peer : Fin n) (term : Nat)
    (underWay : Cluster n → Prop) : Prop :=
  ∃ first σ, first <+: actions ∧ (cluster n).run first = some σ ∧ underWay σ ∧
    (σ.servers peer).currentTerm = term

/-- The peer was in the given term when it had finished the given handler. -/
def HandledInTerm (actions : List (Action n)) (peer : Fin n) (term : Nat) (handler : Action n) :
    Prop :=
  ∃ first σ, first ++ [handler] <+: actions ∧ (cluster n).run (first ++ [handler]) = some σ ∧
    (σ.servers peer).currentTerm = term

/-- The term of the peer when it sent the request, or finished handling the call, whose delivery is
the given step after the run. -/
def PeerTerm (actions : List (Action n)) (peer : Fin n) (term : Nat) : Action n → Prop
  | .requestVote k => SentInTerm actions peer term fun σ => k < σ.voteCalls.length
  | .voteReturn k true => HandledInTerm actions peer term (.requestVote k)
  | .getHeartbeat k => SentInTerm actions peer term fun σ => k < σ.heartbeatCalls.length
  | .heartbeatReturn k true => HandledInTerm actions peer term (.getHeartbeat k)
  | _ => False

/-- After the run, a step delivers to `server` a message that `peer` sent in a term that is newer
than the one of `server`. -/
structure NewerDelivery (actions : List (Action n)) (action : Action n) (σ σ' : Cluster n)
    (peer server : Fin n) (term : Nat) : Prop where
  reached : (cluster n).run actions = some σ
  taken : step σ action = some σ'
  message : delivered σ action = some (peer, server)
  sent : PeerTerm actions peer term action
  stale : (σ.servers server).currentTerm < term

/-- The server is a follower of the given term or a later one. -/
def SteppedDown (σ : Cluster n) (server : Fin n) (term : Nat) : Prop :=
  (σ.servers server).state = .follower ∧ term ≤ (σ.servers server).currentTerm

instance (σ : Cluster n) (server : Fin n) (term : Nat) : Decidable (SteppedDown σ server term) :=
  inferInstanceAs (Decidable (_ ∧ _))

/-- The `Term` field of the request that a step delivers. -/
def requestTerm (σ : Cluster n) : Action n → Option Nat
  | .requestVote k => σ.voteCalls[k]?.map (·.args.term)
  | .getHeartbeat k => σ.heartbeatCalls[k]?.map (·.appendentries.term)
  | _ => none

/-- `RequestVote` makes a stale server step down to a term exactly when it carries that term or a
later one. -/
theorem request_vote_steps_down {rf : Server n} {term : Nat} (hstale : rf.currentTerm < term)
    (now : Nat) (args : RequestVoteArgs n) :
    (requestVote rf now args).1.state = .follower ∧
      term ≤ (requestVote rf now args).1.currentTerm ↔ term ≤ args.term := by
  have hterm := request_vote_term rf now args
  constructor
  · rintro ⟨_, hle⟩
    omega
  · intro hle
    refine ⟨?_, by omega⟩
    rcases request_vote_state rf now args with ⟨_, hsame⟩ | ⟨hfollow, _⟩
    · omega
    · exact hfollow

/-- `GetHeartbeat` makes a stale server step down to a term exactly when it carries that term or a
later one. -/
theorem get_heartbeat_steps_down {rf : Server n} {term : Nat} (hstale : rf.currentTerm < term)
    (now : Nat) (appendentries : AppendEntries n) :
    (getHeartbeat rf now appendentries).1.state = .follower ∧
      term ≤ (getHeartbeat rf now appendentries).1.currentTerm ↔ term ≤ appendentries.term := by
  rcases get_heartbeat_cases rf now appendentries with ⟨hlt, heq⟩ | ⟨_, heq⟩
  · rw [heq]
    constructor
    · rintro ⟨_, hle⟩
      omega
    · intro hle
      omega
  · simp [heq]

/-- The return of a call, whatever its reply, changes no term. -/
theorem return_keeps_term (h : step σ action = some σ')
    (hreturn : ∃ k ok, action = .voteReturn k ok ∨ action = .heartbeatReturn k ok) (p : Fin n) :
    (σ'.servers p).currentTerm = (σ.servers p).currentTerm := by
  obtain ⟨k, ok, hreturn⟩ := hreturn
  generalize hrf : σ'.servers p = rf
  cases hrf ▸ server_step h p with
  | timer _ _ _ hterm => exact hterm
  | countVote =>
      rcases count_vote_cases (σ.servers p) with heq | ⟨_, _, heq⟩ <;> rw [heq]
  | heartbeatReturn =>
      unfold heartbeatReturn
      split <;> rfl
  | _ => simp at hreturn

/-- A message from a peer of a newer term makes its receiver step down to that term exactly when
it is a request that carries the term or a later one. -/
theorem steps_down_iff {n : Nat} {actions : List (Action n)} {action : Action n}
    {σ σ' : Cluster n} {peer server : Fin n} {term : Nat}
    (h : NewerDelivery actions action σ σ' peer server term) :
    SteppedDown σ' server term ↔ ∃ t, requestTerm σ action = some t ∧ term ≤ t := by
  have hmessage := h.message
  have hstale := h.stale
  -- a reply brings no request, and it leaves the term of the receiver behind
  have hreply : (∃ k ok, action = .voteReturn k ok ∨ action = .heartbeatReturn k ok) →
      requestTerm σ action = none →
      (SteppedDown σ' server term ↔ ∃ t, requestTerm σ action = some t ∧ term ≤ t) := by
    intro hreturn hnone
    have hterm := return_keeps_term h.taken hreturn server
    simp only [SteppedDown, hnone, reduceCtorEq, false_and, exists_false, iff_false, not_and]
    omega
  cases step_inversion h.taken with
  | requestVote k call hcall _ =>
      simp only [delivered, hcall, Option.map_some, Option.some.injEq, Prod.mk.injEq] at hmessage
      obtain ⟨-, rfl⟩ := hmessage
      simpa [SteppedDown, requestTerm, hcall, Cluster.setServer] using
        request_vote_steps_down hstale σ.now call.args
  | getHeartbeat k call hcall _ =>
      simp only [delivered, hcall, Option.map_some, Option.some.injEq, Prod.mk.injEq] at hmessage
      obtain ⟨-, rfl⟩ := hmessage
      simpa [SteppedDown, requestTerm, hcall, Cluster.setServer] using
        get_heartbeat_steps_down hstale σ.now call.appendentries
  | voteReturn k | voteFail k => exact hreply ⟨k, _, Or.inl rfl⟩ rfl
  | heartbeatReturn k ok => exact hreply ⟨k, ok, Or.inr rfl⟩ rfl
  | advance | tickerTest | tickerStart | tickerWake | emitElection | sendHeartBeat | kill =>
      simp [delivered] at hmessage

/-- Every reply of `GetHeartbeat` that is on its way carries term zero. -/
theorem heartbeat_replies_zero (h : (cluster n).run actions = some σ) :
    ∀ call ∈ σ.heartbeatCalls, ∀ reply, call.reply = some reply → reply.term = 0 := by
  refine Machine.run_induction (motive := fun _ σ => ∀ call ∈ σ.heartbeatCalls,
    ∀ reply, call.reply = some reply → reply.term = 0) ?_ ?_ h
  · intro call hcall
    simp [cluster, initial] at hcall
  · intro actions σ action σ' _ ih hstep call hcall reply hreply
    cases step_inversion hstep with
    | sendHeartBeat k loop pc calls hloop hnext =>
        rcases List.mem_append.mp hcall with hold | hnew
        · exact ih call hold reply hreply
        · obtain ⟨-, -, -, hnone⟩ := send_heart_beat_calls hnext hnew
          rw [hnone] at hreply
          cases hreply
    | getHeartbeat k old hold hnone =>
        rcases List.mem_or_eq_of_mem_set hcall with hmem | rfl
        · exact ih call hmem reply hreply
        · rw [← Option.some.inj hreply]
          exact get_heartbeat_reply_term _ _ _
    | heartbeatReturn k ok old sent hold hopen hsent =>
        rcases List.mem_or_eq_of_mem_set hcall with hmem | rfl
        · exact ih call hmem reply hreply
        · exact ih old (List.mem_of_getElem? hold) reply hreply
    | voteReturn k old sent hold hopen hsent =>
        unfold Cluster.receiveVote at hcall
        split at hcall <;> exact ih call hcall reply hreply
    | advance | tickerTest | tickerStart | tickerWake | emitElection | requestVote | voteFail
    | kill =>
        exact ih call hcall reply hreply

/-- The test of the term in the heartbeat goroutine never succeeds: the return of a heartbeat call
leaves all servers as they are. -/
theorem heartbeat_return_keeps_servers (h : (cluster n).run actions = some σ) {k : Nat} {ok : Bool}
    (hstep : step σ (.heartbeatReturn k ok) = some σ') : σ'.servers = σ.servers := by
  cases step_inversion hstep with
  | heartbeatReturn k ok call reply hcall hopen hreply =>
      have hzero : reply.term = 0 := by
        rcases hreply with ⟨-, hreply⟩ | ⟨-, rfl⟩
        · exact heartbeat_replies_zero h call (List.mem_of_getElem? hcall) reply hreply
        · rfl
      have hsame : heartbeatReturn (σ.servers call.caller) reply = σ.servers call.caller := by
        unfold heartbeatReturn
        rw [if_neg (by omega)]
      show Function.update σ.servers call.caller _ = σ.servers
      rw [hsame, Function.update_eq_self]

/-- Server 0 stands in term 1 and server 2, which stands twice, in term 2. -/
def newerCandidate : List (Action 3) :=
  [.tickerTest peer0, .tickerStart peer0, .tickerTest peer2, .tickerStart peer2, .advance 300,
    .tickerWake peer0, .tickerWake peer2, .emitElection peer0, .emitElection peer2,
    .tickerTest peer2, .tickerStart peer2, .advance 300, .tickerWake peer2, .emitElection peer2]

/-- The vote request that server 2 sends in term 2 makes server 0 a follower of term 2. -/
theorem steps_down_on_request :
    ∃ σ σ', NewerDelivery newerCandidate (.requestVote 4) σ σ' 2 0 2 ∧ SteppedDown σ' 0 2 := by
  obtain ⟨σ, σ', h, hstep, hmessage, hcall, hpeer, hstale, hcarried⟩ :=
    (cluster 3).exists_step_of_check newerCandidate (.requestVote 4)
      (fun σ _ => delivered σ (.requestVote 4) = some (2, 0) ∧ 4 < σ.voteCalls.length ∧
        (σ.servers 2).currentTerm = 2 ∧ (σ.servers 0).currentTerm < 2 ∧
        requestTerm σ (.requestVote 4) = some 2) (by decide)
  have hdelivery : NewerDelivery newerCandidate (.requestVote 4) σ σ' 2 0 2 :=
    ⟨h, hstep, hmessage, ⟨newerCandidate, σ, List.prefix_rfl, h, hcall, hpeer⟩, hstale⟩
  exact ⟨σ, σ', hdelivery, (steps_down_iff hdelivery).mpr ⟨2, hcarried, le_rfl⟩⟩

/-- Server 2 refuses the vote request of server 0 in term 2. Its reply says so, and server 0 stays
a candidate of term 1. -/
theorem vote_reply_ignored :
    ¬ ∀ (n : Nat) (actions : List (Action n)) (action : Action n) (σ σ' : Cluster n)
        (peer server : Fin n) (term : Nat),
        NewerDelivery actions action σ σ' peer server term → SteppedDown σ' server term := by
  intro hall
  obtain ⟨σ, σ', h, hstep, hmessage, hpeer, hstale, hafter⟩ :=
    (cluster 3).exists_step_of_check (newerCandidate ++ [.requestVote 1]) (.voteReturn 1 true)
      (fun σ σ' => delivered σ (.voteReturn 1 true) = some (2, 0) ∧
        (σ.servers 2).currentTerm = 2 ∧ (σ.servers 0).currentTerm < 2 ∧ ¬ SteppedDown σ' 0 2)
      (by decide)
  exact hafter (hall 3 _ (.voteReturn 1 true) σ σ' 2 0 2
    ⟨h, hstep, hmessage, ⟨newerCandidate, σ, List.prefix_rfl, h, hpeer⟩, hstale⟩)

end DistributedLabs.Raft
