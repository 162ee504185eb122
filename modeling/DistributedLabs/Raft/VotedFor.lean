import DistributedLabs.Raft.Votes

/-!
# Whether `votedFor` is a vote of the current term

`RequestVote` and `emitElection` set `votedFor` together with the term in which the vote is given,
and `RequestVote` clears it when it adopts a newer term. `GetHeartbeat` adopts a newer term too but
keeps the old vote. From then on the server seems to have voted in a term in which it has given no
vote, and refuses the candidates of that term (`stale_vote_blocks_new_term`). A recorded vote is a
vote of the current term exactly along the runs in which no heartbeat raises the term of a server
that has a vote recorded (`voted_for_current_iff`).
-/

namespace DistributedLabs.Raft

variable {n : Nat} {σ σ' : Cluster n} {action : Action n} {actions : List (Action n)}

/-- At every point of the run, a recorded vote was given in the present term of its server, and a
server that has given no vote in its present term has none recorded and grants the next request of
that term or of a newer one. -/
def VotedForCurrent (actions : List (Action n)) : Prop :=
  ∀ first σ, first <+: actions → (cluster n).run first = some σ → ∀ p,
    (∀ c, (σ.servers p).votedFor = some c → ⟨p, (σ.servers p).currentTerm, c⟩ ∈ votes first) ∧
    ((∀ vote ∈ votes first, vote.voter = p → vote.term ≠ (σ.servers p).currentTerm) →
      (σ.servers p).votedFor = none ∧
        ∀ now args, (σ.servers p).currentTerm ≤ args.term →
          (requestVote (σ.servers p) now args).2.voteGranted = true)

/-- A heartbeat that is about to raise the term of a server finds no vote recorded there. -/
def RaisesUnvoted (σ : Cluster n) : Action n → Prop
  | .getHeartbeat k => ∀ call ∈ σ.heartbeatCalls[k]?, call.reply = none →
      (σ.servers call.server).currentTerm < call.appendentries.term →
        (σ.servers call.server).votedFor = none
  | _ => True

/-- A server without a vote grants every request that is not of an older term. -/
theorem request_vote_of_unvoted {rf : Server n} (hvote : rf.votedFor = none) (now : Nat)
    {args : RequestVoteArgs n} (hterm : rf.currentTerm ≤ args.term) :
    (requestVote rf now args).2.voteGranted = true := by
  have hfree : (adoptTerm rf args.term).votedFor = none := by
    unfold adoptTerm
    split
    · rfl
    · exact hvote
  unfold requestVote
  rw [if_neg (by omega), if_pos (Or.inl hfree)]

/-- Where a recorded vote comes from: the step has given it, or it was recorded before and either
the term is the same or a heartbeat has raised it. -/
theorem voted_for_step (h : step σ action = some σ') {p c : Fin n}
    (hvote : (σ'.servers p).votedFor = some c) :
    ⟨p, (σ'.servers p).currentTerm, c⟩ ∈ votesCast σ action ∨
      (σ.servers p).votedFor = some c ∧
        ((σ'.servers p).currentTerm = (σ.servers p).currentTerm ∨
          ∃ k call, action = .getHeartbeat k ∧ σ.heartbeatCalls[k]? = some call ∧
            call.reply = none ∧ call.server = p ∧
            (σ.servers p).currentTerm < call.appendentries.term) := by
  generalize hrf : σ'.servers p = rf at hvote ⊢
  cases hrf ▸ server_step h p with
  | timer _ _ _ hterm hsame => exact Or.inr ⟨hsame ▸ hvote, Or.inl hterm⟩
  | emitElection =>
      obtain rfl : p = c := Option.some.inj hvote
      exact Or.inl (List.mem_singleton.mpr rfl)
  | requestVote k call hcall hreply hserver =>
      subst hserver
      rcases request_vote_cases (σ.servers call.server) σ.now call.args with
        ⟨heq, _⟩ | ⟨heq, _⟩ | ⟨heq, _⟩
      · rw [heq] at hvote ⊢
        exact Or.inr ⟨hvote, Or.inl rfl⟩
      · left
        rw [heq] at hvote
        obtain rfl : call.args.candidateId = c := Option.some.inj hvote
        simp [votesCast, hcall, heq]
      · left
        rw [heq] at hvote
        obtain rfl : call.args.candidateId = c := Option.some.inj hvote
        simp [votesCast, hcall, heq]
  | countVote =>
      right
      rcases count_vote_cases (σ.servers p) with heq | ⟨_, _, heq⟩
      · rw [heq] at hvote ⊢
        exact ⟨hvote, Or.inl rfl⟩
      · rw [heq] at hvote ⊢
        exact ⟨hvote, Or.inl rfl⟩
  | getHeartbeat k call hcall hreply hserver =>
      right
      rcases get_heartbeat_cases (σ.servers p) σ.now call.appendentries with
        ⟨_, heq⟩ | ⟨hle, heq⟩
      · rw [heq] at hvote ⊢
        exact ⟨hvote, Or.inl rfl⟩
      · rw [heq] at hvote ⊢
        refine ⟨hvote, ?_⟩
        rcases hle.eq_or_lt with hsame | hraised
        · exact Or.inl hsame.symm
        · exact Or.inr ⟨k, call, rfl, hcall, hreply, hserver, hraised⟩
  | heartbeatReturn =>
      right
      unfold heartbeatReturn at hvote ⊢
      split at hvote
      · rename_i hnewer
        rw [if_pos hnewer]
        exact ⟨hvote, Or.inl rfl⟩
      · rename_i holder
        rw [if_neg holder]
        exact ⟨hvote, Or.inl rfl⟩

/-- Along a run in which heartbeats raise the term of servers without a vote only, every recorded
vote was given in the present term. -/
theorem voted_for_given (hmeets : (cluster n).Meets RaisesUnvoted actions)
    (h : (cluster n).run actions = some σ) :
    ∀ p c, (σ.servers p).votedFor = some c →
      ⟨p, (σ.servers p).currentTerm, c⟩ ∈ votes actions := by
  refine Machine.run_induction_of_meets (motive := fun actions σ => ∀ p c,
    (σ.servers p).votedFor = some c → ⟨p, (σ.servers p).currentTerm, c⟩ ∈ votes actions)
    ?_ ?_ hmeets h
  · intro p c hvote
    simp [cluster, initial, make] at hvote
  · intro actions σ action σ' hrun ih hguard hstep p c hvote
    rw [votes, Machine.observe_concat hrun hstep, ← votes]
    refine List.mem_append.mpr ?_
    rcases voted_for_step hstep hvote with
      hcast | ⟨hold, hsame | ⟨k, call, rfl, hcall, hreply, rfl, hraised⟩⟩
    · exact Or.inr hcast
    · left
      rw [hsame]
      exact ih p c hold
    · -- the guard excludes a heartbeat that raises the term under a recorded vote
      have hnone : (σ.servers call.server).votedFor = none := hguard call hcall hreply hraised
      rw [hnone] at hold
      cases hold

/-- A heartbeat of a newer term is handled by adopting the term and keeping the vote. -/
theorem heartbeat_raises_term {k : Nat} {call : HeartbeatCall n}
    (hcall : σ.heartbeatCalls[k]? = some call) (hreply : call.reply = none)
    (hraised : (σ.servers call.server).currentTerm < call.appendentries.term) :
    ∃ σ', (cluster n).step σ (.getHeartbeat k) = some σ' ∧
      (σ'.servers call.server).currentTerm = call.appendentries.term ∧
      (σ'.servers call.server).votedFor = (σ.servers call.server).votedFor := by
  refine ⟨{ σ.setServer call.server
        (getHeartbeat (σ.servers call.server) σ.now call.appendentries).1 with
      heartbeatCalls := σ.heartbeatCalls.set k
        { call with
          reply := some (getHeartbeat (σ.servers call.server) σ.now call.appendentries).2 } },
    ?_, ?_⟩
  · show step σ (.getHeartbeat k) = _
    simp [step, hcall, hreply]
  · simp only [Cluster.setServer, Function.update_self]
    rw [getHeartbeat, if_neg (by omega)]
    exact ⟨rfl, rfl⟩

/-- In every run: at every point every recorded vote belongs to the present term of its server,
exactly when no heartbeat raises the term of a server that has a vote recorded. -/
theorem voted_for_current_iff {n : Nat} (actions : List (Action n)) :
    VotedForCurrent actions ↔ (cluster n).Meets RaisesUnvoted actions := by
  constructor
  · intro hcurrent before action after σ hsplit hrun
    cases action with
    | getHeartbeat k =>
        intro call hcall hreply hraised
        cases hvote : (σ.servers call.server).votedFor with
        | none => rfl
        | some c =>
            have hlookup : σ.heartbeatCalls[k]? = some call := hcall
            obtain ⟨σ', hstep, hterm, hkept⟩ := heartbeat_raises_term hlookup hreply hraised
            have hrun' : (cluster n).run (before ++ [.getHeartbeat k]) = some σ' :=
              Machine.run_concat_iff.mpr ⟨σ, hrun, hstep⟩
            have hgiven := (hcurrent _ σ' ⟨after, by simp [hsplit]⟩ hrun' call.server).1 c
              (hkept.trans hvote)
            rw [votes, Machine.observe_concat hrun hstep, ← votes] at hgiven
            -- a heartbeat gives no vote, and no earlier vote has the new term
            have hold := ((votes_invariant hrun).1 _ (by simpa [votesCast] using hgiven)).1
            simp only [hterm] at hold
            omega
    | _ => trivial
  · intro hmeets first σ hfirst hrun p
    have hgiven := voted_for_given (hmeets.of_initial hfirst) hrun p
    refine ⟨hgiven, fun hnone => ?_⟩
    have hvote : (σ.servers p).votedFor = none := by
      cases hvote : (σ.servers p).votedFor with
      | none => rfl
      | some c => exact absurd rfl (hnone _ (hgiven c hvote) rfl)
    exact ⟨hvote, fun now args hterm => request_vote_of_unvoted hvote now hterm⟩

/-- Servers 0 and 2 of three stand in term 1, each with its own vote. Server 0 stands again and is
elected in term 2 by server 1, and its heartbeat reaches server 2 before its vote request does. -/
def staleVote : List (Action 3) :=
  [.tickerTest peer0, .tickerStart peer0, .tickerTest peer2, .tickerStart peer2, .advance 300,
    .tickerWake peer0, .tickerWake peer2, .emitElection peer0, .emitElection peer2,
    .tickerTest peer0, .tickerStart peer0, .advance 300, .tickerWake peer0, .emitElection peer0,
    .requestVote 4, .voteReturn 4 true, .sendHeartBeat 0, .sendHeartBeat 0, .sendHeartBeat 0,
    .sendHeartBeat 0, .sendHeartBeat 0, .getHeartbeat 1]

/-- After `staleVote` server 2 is in term 2, in which it has given no vote. It still has its vote of
term 1 recorded, and refuses the request of server 0 for term 2. -/
theorem stale_vote_blocks_new_term :
    ¬ ∀ (n : Nat) (actions : List (Action n)), VotedForCurrent actions := by
  intro hall
  obtain ⟨σ, hrun, hterm, hrefused⟩ := (cluster 3).exists_run_of_check staleVote
    (fun σ => (σ.servers 2).currentTerm = 2 ∧
      (requestVote (σ.servers 2) σ.now ⟨2, 0⟩).2.voteGranted = false) (by decide)
  have hnone : ∀ vote ∈ votes staleVote, vote.voter = 2 → vote.term ≠ 2 := by decide
  obtain ⟨-, hgrants⟩ := hall 3 staleVote staleVote σ List.prefix_rfl hrun 2
  have hgranted := (hgrants (by rwa [hterm])).2 σ.now ⟨2, 0⟩ (by simp [hterm])
  rw [hrefused] at hgranted
  cases hgranted

end DistributedLabs.Raft
