import DistributedLabs.Raft.Cluster

/-!
# What a step of the cluster can do

`step_inversion` lists the transitions with their guards, once. `server_step`, `vote_call_step`
and `heartbeat_call_step` project it to what can happen to one server and to the two lists of
RPCs; the invariants of the cluster are proved from these projections.
-/

namespace DistributedLabs.Raft

variable {n : Nat}

/-- The steps of the cluster as a relation, with every guard. -/
inductive Transition (σ : Cluster n) : Action n → Cluster n → Prop where
  | advance (ms) : Transition σ (.advance ms) { σ with now := σ.now + ms }
  | tickerTest (s) (hpc : σ.tickers s = .test) :
      Transition σ (.tickerTest s)
        { σ with
          tickers := Function.update σ.tickers s
            (if (σ.servers s).dead then .exited else .tested) }
  | tickerStart (s) (hpc : σ.tickers s = .tested) :
      Transition σ (.tickerStart s)
        { σ with tickers := Function.update σ.tickers s (.sleeping σ.now) }
  | tickerWake (s startWaitTime) (hpc : σ.tickers s = .sleeping startWaitTime)
      (hslept : startWaitTime + 300 ≤ σ.now) :
      Transition σ (.tickerWake s)
        { σ.setServer s (tickerCheck (σ.servers s) startWaitTime).1 with
          tickers := Function.update σ.tickers s .test
          elections := Function.update σ.elections s
            (σ.elections s + if (tickerCheck (σ.servers s) startWaitTime).2 then 1 else 0) }
  | emitElection (s) (hspawned : 0 < σ.elections s) :
      Transition σ (.emitElection s)
        { σ.setServer s (emitElection (σ.servers s) s).1 with
          elections := Function.update σ.elections s (σ.elections s - 1)
          voteCalls := σ.voteCalls ++ voteRequests s (emitElection (σ.servers s) s).2 }
  | requestVote (k call) (hcall : σ.voteCalls[k]? = some call) (hreply : call.reply = none) :
      Transition σ (.requestVote k)
        { σ.setServer call.server (requestVote (σ.servers call.server) σ.now call.args).1 with
          voteCalls := σ.voteCalls.set k
            { call with
              reply := some (requestVote (σ.servers call.server) σ.now call.args).2 } }
  | voteReturn (k call reply) (hcall : σ.voteCalls[k]? = some call)
      (hreturned : call.returned = false) (hreply : call.reply = some reply) :
      Transition σ (.voteReturn k true)
        (Cluster.receiveVote
          { σ with voteCalls := σ.voteCalls.set k { call with returned := true } }
          call.caller reply)
  | voteFail (k call) (hcall : σ.voteCalls[k]? = some call) (hreturned : call.returned = false) :
      Transition σ (.voteReturn k false)
        { σ with voteCalls := σ.voteCalls.set k { call with returned := true } }
  | sendHeartBeat (k loop pc calls) (hloop : σ.loops[k]? = some loop)
      (hnext : sendHeartBeat σ.now (σ.servers loop.server) loop.server loop.pc =
        some (pc, calls)) :
      Transition σ (.sendHeartBeat k)
        { σ with
          loops := σ.loops.set k { loop with pc := pc }
          heartbeatCalls := σ.heartbeatCalls ++ calls }
  | getHeartbeat (k call) (hcall : σ.heartbeatCalls[k]? = some call) (hreply : call.reply = none) :
      Transition σ (.getHeartbeat k)
        { σ.setServer call.server
            (getHeartbeat (σ.servers call.server) σ.now call.appendentries).1 with
          heartbeatCalls := σ.heartbeatCalls.set k
            { call with
              reply := some
                (getHeartbeat (σ.servers call.server) σ.now call.appendentries).2 } }
  | heartbeatReturn (k ok call reply) (hcall : σ.heartbeatCalls[k]? = some call)
      (hreturned : call.returned = false)
      (hreply : ok = true ∧ call.reply = some reply ∨ ok = false ∧ reply = {}) :
      Transition σ (.heartbeatReturn k ok)
        { σ.setServer call.caller (heartbeatReturn (σ.servers call.caller) reply) with
          heartbeatCalls := σ.heartbeatCalls.set k { call with returned := true } }
  | kill (s) : Transition σ (.kill s) (σ.setServer s (kill (σ.servers s)))

variable {σ σ' : Cluster n} {action : Action n}

/-- Every step of the machine is one of the transitions. -/
theorem step_inversion (h : step σ action = some σ') : Transition σ action σ' := by
  cases action with
  | advance ms =>
      cases h
      exact .advance ms
  | tickerTest s =>
      simp only [step] at h
      split at h
      · cases h
        exact .tickerTest s (by assumption)
      · cases h
  | tickerStart s =>
      simp only [step] at h
      split at h
      · cases h
        exact .tickerStart s (by assumption)
      · cases h
  | tickerWake s =>
      simp only [step] at h
      split at h
      · split at h
        · cases h
          exact .tickerWake s _ (by assumption) (by assumption)
        · cases h
      · cases h
  | emitElection s =>
      simp only [step] at h
      split at h
      · cases h
        exact .emitElection s (by assumption)
      · cases h
  | requestVote k =>
      simp only [step, bind, Option.bind_eq_some_iff] at h
      obtain ⟨call, hcall, h⟩ := h
      split at h
      · cases h
        exact .requestVote k call hcall (by assumption)
      · cases h
  | voteReturn k ok =>
      simp only [step, bind, Option.bind_eq_some_iff] at h
      obtain ⟨call, hcall, h⟩ := h
      split at h
      · cases h
      · rename_i hreturned
        cases ok with
        | false =>
            cases h
            exact .voteFail k call hcall (by simpa using hreturned)
        | true =>
            simp only [if_true, Option.bind_eq_some_iff] at h
            obtain ⟨reply, hreply, h⟩ := h
            cases h
            exact .voteReturn k call reply hcall (by simpa using hreturned) hreply
  | sendHeartBeat k =>
      simp only [step, bind, Option.bind_eq_some_iff] at h
      obtain ⟨loop, hloop, ⟨pc, calls⟩, hnext, h⟩ := h
      cases h
      exact .sendHeartBeat k loop pc calls hloop hnext
  | getHeartbeat k =>
      simp only [step, bind, Option.bind_eq_some_iff] at h
      obtain ⟨call, hcall, h⟩ := h
      split at h
      · cases h
        exact .getHeartbeat k call hcall (by assumption)
      · cases h
  | heartbeatReturn k ok =>
      simp only [step, bind, Option.bind_eq_some_iff] at h
      obtain ⟨call, hcall, h⟩ := h
      split at h
      · cases h
      · rename_i hreturned
        have hopen : call.returned = false := by simpa using hreturned
        cases ok with
        | false =>
            cases h
            exact .heartbeatReturn k false call {} hcall hopen (Or.inr ⟨rfl, rfl⟩)
        | true =>
            obtain ⟨reply, hreply, h⟩ := Option.bind_eq_some_iff.mp h
            cases h
            exact .heartbeatReturn k true call reply hcall hopen (Or.inl ⟨rfl, hreply⟩)
  | kill s =>
      cases h
      exact .kill s

/-- What one step can do to server `p`: at most its timer or its `dead` flag changes, or one of
the locked sections runs at it. -/
inductive ServerStep (σ : Cluster n) (p : Fin n) : Action n → Server n → Prop where
  | timer (action rf) (hstate : rf.state = (σ.servers p).state)
      (hterm : rf.currentTerm = (σ.servers p).currentTerm)
      (hvote : rf.votedFor = (σ.servers p).votedFor)
      (hcount : rf.votednumber = (σ.servers p).votednumber) : ServerStep σ p action rf
  | emitElection : ServerStep σ p (.emitElection p) (emitElection (σ.servers p) p).1
  | requestVote (k call) (hcall : σ.voteCalls[k]? = some call) (hreply : call.reply = none)
      (hserver : call.server = p) :
      ServerStep σ p (.requestVote k) (requestVote (σ.servers p) σ.now call.args).1
  | countVote (k call reply) (hcall : σ.voteCalls[k]? = some call)
      (hreturned : call.returned = false) (hreply : call.reply = some reply)
      (hgranted : reply.voteGranted = true) (hcaller : call.caller = p) :
      ServerStep σ p (.voteReturn k true) (countVote (σ.servers p)).1
  | getHeartbeat (k call) (hcall : σ.heartbeatCalls[k]? = some call) (hreply : call.reply = none)
      (hserver : call.server = p) :
      ServerStep σ p (.getHeartbeat k)
        (getHeartbeat (σ.servers p) σ.now call.appendentries).1
  | heartbeatReturn (k ok call reply) (hcall : σ.heartbeatCalls[k]? = some call)
      (hreply : ok = true ∧ call.reply = some reply ∨ ok = false ∧ reply = {})
      (hcaller : call.caller = p) :
      ServerStep σ p (.heartbeatReturn k ok) (heartbeatReturn (σ.servers p) reply)

/-- A server that a step does not touch. -/
theorem ServerStep.same (σ : Cluster n) (p : Fin n) (action : Action n) :
    ServerStep σ p action (σ.servers p) :=
  .timer action _ rfl rfl rfl rfl

/-- Replacing the struct of `s` is seen at `p` only when `p` is `s`. -/
theorem ServerStep.of_set_server {s p : Fin n} {rf : Server n}
    (h : s = p → ServerStep σ p action rf) :
    ServerStep σ p action (Function.update σ.servers s rf p) := by
  by_cases hp : p = s
  · subst hp
    rw [Function.update_self]
    exact h rfl
  · rw [Function.update_of_ne hp]
    exact .same σ p action

/-- The projection of a step to one server. -/
theorem server_step (h : step σ action = some σ') (p : Fin n) :
    ServerStep σ p action (σ'.servers p) := by
  cases step_inversion h with
  | advance | tickerTest | tickerStart | voteFail | sendHeartBeat => exact .same σ p _
  | tickerWake s startWaitTime hpc hslept =>
      refine .of_set_server fun hs => ?_
      subst hs
      exact .timer _ _ rfl rfl rfl rfl
  | emitElection s hspawned =>
      refine .of_set_server fun hs => ?_
      subst hs
      exact .emitElection
  | requestVote k call hcall hreply =>
      refine .of_set_server fun hs => ?_
      subst hs
      exact .requestVote k call hcall hreply rfl
  | voteReturn k call reply hcall hreturned hreply =>
      unfold Cluster.receiveVote
      split
      · rename_i hgranted
        refine .of_set_server fun hs => ?_
        subst hs
        exact .countVote k call reply hcall hreturned hreply hgranted rfl
      · exact .same σ p _
  | getHeartbeat k call hcall hreply =>
      refine .of_set_server fun hs => ?_
      subst hs
      exact .getHeartbeat k call hcall hreply rfl
  | heartbeatReturn k ok call reply hcall hreturned hreply =>
      refine .of_set_server fun hs => ?_
      subst hs
      exact .heartbeatReturn k ok call reply hcall hreply rfl
  | kill s =>
      refine .of_set_server fun hs => ?_
      subst hs
      exact .timer _ _ rfl rfl rfl rfl

/-- What one step can do to the list of vote calls. -/
inductive VoteCallStep (σ : Cluster n) : Action n → List (VoteCall n) → Prop where
  | same (unrelated : Action n) (helection : ∀ s, unrelated ≠ .emitElection s)
      (hrequest : ∀ k, unrelated ≠ .requestVote k)
      (hreturn : ∀ k ok, unrelated ≠ .voteReturn k ok) : VoteCallStep σ unrelated σ.voteCalls
  | emitElection (s) :
      VoteCallStep σ (.emitElection s)
        (σ.voteCalls ++ voteRequests s (emitElection (σ.servers s) s).2)
  | requestVote (k call) (hcall : σ.voteCalls[k]? = some call) (hreply : call.reply = none) :
      VoteCallStep σ (.requestVote k)
        (σ.voteCalls.set k
          { call with
            reply := some (requestVote (σ.servers call.server) σ.now call.args).2 })
  | voteReturn (k ok call) (hcall : σ.voteCalls[k]? = some call)
      (hreturned : call.returned = false) (hreply : ok = true → call.reply.isSome = true) :
      VoteCallStep σ (.voteReturn k ok) (σ.voteCalls.set k { call with returned := true })

/-- The projection of a step to the vote calls. -/
theorem vote_call_step (h : step σ action = some σ') :
    VoteCallStep σ action σ'.voteCalls := by
  cases step_inversion h with
  | emitElection s hspawned => exact .emitElection s
  | requestVote k call hcall hreply => exact .requestVote k call hcall hreply
  | voteReturn k call reply hcall hreturned hreply =>
      have hcalls : ∀ τ : Cluster n, (τ.receiveVote call.caller reply).voteCalls = τ.voteCalls := by
        intro τ
        unfold Cluster.receiveVote
        split <;> rfl
      rw [hcalls]
      exact .voteReturn k true call hcall hreturned (fun _ => by simp [hreply])
  | voteFail k call hcall hreturned => exact .voteReturn k false call hcall hreturned (by simp)
  | advance | tickerTest | tickerStart | tickerWake | sendHeartBeat | getHeartbeat | heartbeatReturn
  | kill =>
      exact .same _ (by simp) (by simp) (by simp)

/-- The entries that a `sendHeartBeat` goroutine carries through its loop over the peers. -/
def LoopPc.entries : LoopPc n → Option (AppendEntries n)
  | .send appendentries _ | .check appendentries _ => some appendentries
  | .sample | .checkRound | .sleeping _ | .exited => none

/-- The entries carried after a step of the loop were carried before, or have just been sampled. -/
theorem send_heart_beat_entries {now : Nat} {rf : Server n} {me : Fin n} {pc next : LoopPc n}
    {calls : List (HeartbeatCall n)} (h : sendHeartBeat now rf me pc = some (next, calls))
    {appendentries : AppendEntries n} (hentries : next.entries = some appendentries) :
    pc.entries = some appendentries ∨ pc = .sample ∧ appendentries = ⟨rf.currentTerm, me⟩ := by
  cases pc with
  | sample =>
      cases h
      exact Or.inr ⟨rfl, (Option.some.inj hentries).symm⟩
  | send entries i =>
      simp only [sendHeartBeat] at h
      split at h
      · split at h <;> cases h <;> exact Or.inl hentries
      · cases h
        cases hentries
  | check entries i =>
      cases h
      split at hentries
      · exact Or.inl hentries
      · cases hentries
  | checkRound =>
      cases h
      split at hentries <;> cases hentries
  | sleeping since =>
      simp only [sendHeartBeat] at h
      split at h
      · cases h
        cases hentries
      · cases h
  | exited => cases h

/-- A loop sends only the entries that it carries, from its own server to another one, in a call
that is still to be handled. -/
theorem send_heart_beat_calls {now : Nat} {rf : Server n} {me : Fin n} {pc next : LoopPc n}
    {calls : List (HeartbeatCall n)} (h : sendHeartBeat now rf me pc = some (next, calls))
    {call : HeartbeatCall n} (hcall : call ∈ calls) :
    pc.entries = some call.appendentries ∧ call.caller = me ∧ call.server ≠ me ∧
      call.reply = none := by
  cases pc with
  | send entries i =>
      simp only [sendHeartBeat] at h
      split at h
      · split at h
        · cases h
          cases hcall
        · rename_i hne
          cases h
          obtain rfl := List.mem_singleton.mp hcall
          refine ⟨rfl, rfl, fun heq => hne ?_, rfl⟩
          rw [← heq]
      · cases h
        cases hcall
  | sleeping since =>
      simp only [sendHeartBeat] at h
      split at h
      · cases h
        cases hcall
      · cases h
  | sample | check | checkRound =>
      cases h
      cases hcall
  | exited => cases h

/-- Where a heartbeat call of the next state comes from: it is an old one with other flags, or a
loop that was about to send has sent it. -/
theorem mem_heartbeat_calls_step (h : step σ action = some σ') {call : HeartbeatCall n}
    (hcall : call ∈ σ'.heartbeatCalls) :
    (∃ old ∈ σ.heartbeatCalls, old.caller = call.caller ∧ old.server = call.server ∧
      old.appendentries = call.appendentries) ∨
    ∃ k loop, action = .sendHeartBeat k ∧ σ.loops[k]? = some loop ∧
      loop.pc.entries = some call.appendentries ∧ call.caller = loop.server ∧
      call.server ≠ loop.server := by
  have hsame : call ∈ σ.heartbeatCalls → ∃ old ∈ σ.heartbeatCalls, old.caller = call.caller ∧
      old.server = call.server ∧ old.appendentries = call.appendentries :=
    fun hmem => ⟨call, hmem, rfl, rfl, rfl⟩
  cases step_inversion h with
  | sendHeartBeat k loop pc calls hloop hnext =>
      rcases List.mem_append.mp hcall with hold | hnew
      · exact Or.inl (hsame hold)
      · obtain ⟨hentries, hcaller, hserver, -⟩ := send_heart_beat_calls hnext hnew
        exact Or.inr ⟨k, loop, rfl, hloop, hentries, hcaller, hserver⟩
  | getHeartbeat k old hold hreply =>
      rcases List.mem_or_eq_of_mem_set hcall with hmem | rfl
      · exact Or.inl (hsame hmem)
      · exact Or.inl ⟨old, List.mem_of_getElem? hold, rfl, rfl, rfl⟩
  | heartbeatReturn k ok old reply hold hopen hreply =>
      rcases List.mem_or_eq_of_mem_set hcall with hmem | rfl
      · exact Or.inl (hsame hmem)
      · exact Or.inl ⟨old, List.mem_of_getElem? hold, rfl, rfl, rfl⟩
  | voteReturn k old reply hold hopen hreply =>
      unfold Cluster.receiveVote at hcall
      split at hcall <;> exact Or.inl (hsame hcall)
  | advance | tickerTest | tickerStart | tickerWake | emitElection | requestVote | voteFail
  | kill =>
      exact Or.inl (hsame hcall)

/-- Where a heartbeat loop of the next state comes from: it is an old one, a new one that has not
sampled, or the one that has taken a step. -/
theorem mem_loops_step (h : step σ action = some σ') {loop : HeartbeatLoop n}
    (hloop : loop ∈ σ'.loops) :
    loop ∈ σ.loops ∨ loop.pc = .sample ∨
    ∃ k old calls, action = .sendHeartBeat k ∧ σ.loops[k]? = some old ∧
      loop.server = old.server ∧
      sendHeartBeat σ.now (σ.servers old.server) old.server old.pc = some (loop.pc, calls) := by
  cases step_inversion h with
  | sendHeartBeat k old pc calls hold hnext =>
      rcases List.mem_or_eq_of_mem_set hloop with hmem | rfl
      · exact Or.inl hmem
      · exact Or.inr (Or.inr ⟨k, old, calls, rfl, hold, rfl, hnext⟩)
  | voteReturn k old reply hold hopen hreply =>
      unfold Cluster.receiveVote at hloop
      split at hloop
      · simp only at hloop
        split at hloop
        · rcases List.mem_append.mp hloop with hmem | hnew
          · exact Or.inl hmem
          · obtain rfl := List.mem_singleton.mp hnew
            exact Or.inr (Or.inl rfl)
        · exact Or.inl hloop
      · exact Or.inl hloop
  | advance | tickerTest | tickerStart | tickerWake | emitElection | requestVote | voteFail
  | getHeartbeat | heartbeatReturn | kill => exact Or.inl hloop

/-! ## The term, the role and the vote of a server -/

/-- No step lowers the term of a server. -/
theorem step_term_le (h : step σ action = some σ') (p : Fin n) :
    (σ.servers p).currentTerm ≤ (σ'.servers p).currentTerm := by
  generalize hrf : σ'.servers p = rf
  cases hrf ▸ server_step h p with
  | timer _ _ _ hterm => exact hterm.ge
  | emitElection => exact Nat.le_succ _
  | requestVote k call =>
      rw [request_vote_term]
      exact le_max_left _ _
  | countVote =>
      rcases count_vote_cases (σ.servers p) with h | ⟨_, _, h⟩ <;> simp [h]
  | getHeartbeat k call =>
      rcases get_heartbeat_cases (σ.servers p) σ.now call.appendentries with ⟨_, h⟩ | ⟨hle, h⟩
      · rw [h]
      · rw [h]
        exact hle
  | heartbeatReturn =>
      unfold heartbeatReturn
      split <;> exact le_rfl

/-- Within one term no step replaces the vote of a server. -/
theorem step_keeps_vote (h : step σ action = some σ') {p c : Fin n}
    (hvote : (σ.servers p).votedFor = some c)
    (hsame : (σ'.servers p).currentTerm = (σ.servers p).currentTerm) :
    (σ'.servers p).votedFor = some c := by
  generalize hrf : σ'.servers p = rf at hsame ⊢
  cases hrf ▸ server_step h p with
  | timer _ _ _ _ heq => exact heq.trans hvote
  | emitElection => simp [emitElection] at hsame
  | requestVote k call => exact request_vote_keeps_vote hvote hsame
  | countVote =>
      rcases count_vote_cases (σ.servers p) with h | ⟨_, _, h⟩ <;> simp [h, hvote]
  | getHeartbeat k call =>
      rcases get_heartbeat_cases (σ.servers p) σ.now call.appendentries with ⟨_, h⟩ | ⟨_, h⟩ <;>
        simp [h, hvote]
  | heartbeatReturn =>
      unfold heartbeatReturn
      split <;> exact hvote

/-- A candidate has just started an election of the next term, or it was already a candidate of
its term and its counter has at most moved by one returned and granted vote. -/
theorem step_candidate (h : step σ action = some σ') {p : Fin n}
    (hstate : (σ'.servers p).state = .candidate) :
    action = .emitElection p ∧ σ'.servers p = (emitElection (σ.servers p) p).1 ∨
      (σ.servers p).state = .candidate ∧
        (σ'.servers p).currentTerm = (σ.servers p).currentTerm ∧
        ((σ'.servers p).votednumber = (σ.servers p).votednumber ∨
          ∃ k call reply, action = .voteReturn k true ∧ σ.voteCalls[k]? = some call ∧
            call.returned = false ∧ call.reply = some reply ∧ reply.voteGranted = true ∧
            call.caller = p ∧ (σ'.servers p).votednumber = (σ.servers p).votednumber + 1) := by
  generalize hrf : σ'.servers p = rf at hstate ⊢
  cases hrf ▸ server_step h p with
  | timer _ _ heq hterm _ hcount => exact Or.inr ⟨heq ▸ hstate, hterm, Or.inl hcount⟩
  | emitElection => exact Or.inl ⟨rfl, rfl⟩
  | requestVote k call =>
      rcases request_vote_state (σ.servers p) σ.now call.args with ⟨heq, hterm⟩ | ⟨hfollow, _⟩
      · exact Or.inr ⟨heq ▸ hstate, hterm, Or.inl (by simp)⟩
      · simp [hfollow] at hstate
  | countVote k call reply hcall hreturned hreply hgranted hcaller =>
      rcases count_vote_cases (σ.servers p) with heq | ⟨_, _, heq⟩
      · rw [heq] at hstate ⊢
        exact Or.inr ⟨hstate, rfl, Or.inr ⟨k, call, reply, rfl, hcall, hreturned, hreply,
          hgranted, hcaller, rfl⟩⟩
      · simp [heq] at hstate
  | getHeartbeat k call =>
      rcases get_heartbeat_cases (σ.servers p) σ.now call.appendentries with ⟨_, heq⟩ | ⟨_, heq⟩
      · rw [heq] at hstate ⊢
        exact Or.inr ⟨hstate, rfl, Or.inl rfl⟩
      · simp [heq] at hstate
  | heartbeatReturn k ok call reply =>
      unfold heartbeatReturn at hstate ⊢
      split at hstate
      · simp at hstate
      · rename_i hge
        rw [if_neg hge]
        exact Or.inr ⟨hstate, rfl, Or.inl rfl⟩

/-- A leader was already the leader of the same term, or it has just counted the granted vote
that completes the majority of its candidacy. -/
theorem step_leader (h : step σ action = some σ') {p : Fin n}
    (hstate : (σ'.servers p).state = .leader) :
    (σ.servers p).state = .leader ∧ (σ'.servers p).currentTerm = (σ.servers p).currentTerm ∨
      ∃ k call reply, action = .voteReturn k true ∧ σ.voteCalls[k]? = some call ∧
        call.returned = false ∧ call.reply = some reply ∧ reply.voteGranted = true ∧
        call.caller = p ∧ (σ.servers p).state = .candidate ∧
        n / 2 < (σ.servers p).votednumber + 1 ∧
        (σ'.servers p).currentTerm = (σ.servers p).currentTerm := by
  generalize hrf : σ'.servers p = rf at hstate ⊢
  cases hrf ▸ server_step h p with
  | timer _ _ heq hterm => exact Or.inl ⟨heq ▸ hstate, hterm⟩
  | emitElection => simp [emitElection] at hstate
  | requestVote k call =>
      rcases request_vote_state (σ.servers p) σ.now call.args with ⟨heq, hterm⟩ | ⟨hfollow, _⟩
      · exact Or.inl ⟨heq ▸ hstate, hterm⟩
      · simp [hfollow] at hstate
  | countVote k call reply hcall hreturned hreply hgranted hcaller =>
      rcases count_vote_cases (σ.servers p) with heq | ⟨hcand, hmajority, heq⟩
      · exact Or.inl (by simpa [heq] using hstate)
      · exact Or.inr ⟨k, call, reply, rfl, hcall, hreturned, hreply, hgranted, hcaller, hcand,
          hmajority, by rw [heq]⟩
  | getHeartbeat k call =>
      rcases get_heartbeat_cases (σ.servers p) σ.now call.appendentries with ⟨_, heq⟩ | ⟨_, heq⟩
      · exact Or.inl ⟨heq ▸ hstate, by rw [heq]⟩
      · simp [heq] at hstate
  | heartbeatReturn k ok call reply =>
      unfold heartbeatReturn at hstate ⊢
      split at hstate
      · simp at hstate
      · rename_i hge
        rw [if_neg hge]
        exact Or.inl ⟨hstate, rfl⟩

end DistributedLabs.Raft
