import DistributedLabs.Raft.Deposition
import DistributedLabs.Raft.Killed
import DistributedLabs.Raft.StepDown

/-!
# A leader that is heard in time stays the leader

The ticker of a follower sleeps for at least 300 milliseconds and starts an election when its timer
is older than the sleep. `heard` is the history of the RPCs that reset a timer. A server that has
handled one less than 300 milliseconds before its ticker wakes up has handled it within the sleep
(`TimersHeard`), although the ticker itself sets the timer back each time it wakes up. So when every
server but the leader is heard from in this sense at each of its wake-ups, no election starts at all
and the leader keeps its role and its term (`leadership_stable`).
-/

namespace DistributedLabs.Raft

variable {n : Nat} {σ σ' τ : Cluster n} {action : Action n} {actions rest : List (Action n)}
variable {p l : Fin n}

/-! ## The timers -/

/-- A server has handled an RPC that resets its timer, at this time. -/
structure Heard (n : Nat) where
  server : Fin n
  time : Nat
  deriving DecidableEq

/-- Every vote request resets the timer of its server, and so does a heartbeat that is not from an
older term. -/
def heardNow (σ : Cluster n) : Action n → List (Heard n)
  | .requestVote k =>
      match σ.voteCalls[k]? with
      | none => []
      | some call => [⟨call.server, σ.now⟩]
  | .getHeartbeat k =>
      match σ.heartbeatCalls[k]? with
      | none => []
      | some call =>
          if call.appendentries.term < (σ.servers call.server).currentTerm then []
          else [⟨call.server, σ.now⟩]
  | _ => []

/-- Every reset of a timer along a run, in order. -/
def heard (actions : List (Action n)) : List (Heard n) :=
  (cluster n).observe heardNow actions

/-- What a step adds to the history is the timer of the server. -/
theorem heard_now_resets (h : step σ action = some σ') {event : Heard n}
    (hevent : event ∈ heardNow σ action) :
    event.time = σ.now ∧ (σ'.servers event.server).lastTimeReceiveRPC = σ.now := by
  cases step_inversion h with
  | requestVote k call hcall hreply =>
      simp only [heardNow, hcall] at hevent
      obtain rfl := List.mem_singleton.mp hevent
      refine ⟨rfl, ?_⟩
      rcases request_vote_cases (σ.servers call.server) σ.now call.args with
        ⟨heq, -⟩ | ⟨heq, -⟩ | ⟨heq, -⟩ <;> simp [Cluster.setServer, heq]
  | getHeartbeat k call hcall hreply =>
      simp only [heardNow, hcall] at hevent
      split at hevent
      · cases hevent
      · rename_i hfresh
        obtain rfl := List.mem_singleton.mp hevent
        refine ⟨rfl, ?_⟩
        simp [Cluster.setServer, getHeartbeat, hfresh]
  | _ => simp [heardNow] at hevent

/-- A server that has handled an RPC since it fell asleep has a timer that says so. -/
structure TimersHeard (history : List (Heard n)) (σ : Cluster n) : Prop where
  past : ∀ event ∈ history, event.time ≤ σ.now
  timer : ∀ event ∈ history, ∀ startWaitTime, σ.tickers event.server = .sleeping startWaitTime →
    startWaitTime < event.time → event.time ≤ (σ.servers event.server).lastTimeReceiveRPC

/-- A step keeps the timers of the servers that have been heard from. -/
theorem TimersHeard.of_step {history : List (Heard n)} (hheard : TimersHeard history σ)
    (h : step σ action = some σ') : TimersHeard (history ++ heardNow σ action) σ' := by
  have hnow := now_step h
  constructor
  · intro event hevent
    rcases List.mem_append.mp hevent with hold | hnew
    · exact (hheard.past event hold).trans hnow
    · exact (heard_now_resets h hnew).1.trans_le hnow
  · intro event hevent startWaitTime hsleeping hlater
    rcases List.mem_append.mp hevent with hold | hnew
    · have hpast := hheard.past event hold
      rcases ticker_step h hsleeping with ⟨hbefore, hother⟩ | ⟨rfl, -⟩
      · rcases (timer_step h hother).timer with hkept | hreset
        · rw [hkept]
          exact hheard.timer event hold startWaitTime hbefore hlater
        · rw [hreset]
          exact hpast
      · -- a sleep that begins now is not over yet when anything else has been heard
        omega
    · obtain ⟨htime, htimer⟩ := heard_now_resets h hnew
      rw [htime, htimer]

/-- In every reachable state the timers agree with the history. -/
theorem timers_heard (h : (cluster n).run actions = some σ) : TimersHeard (heard actions) σ := by
  refine Machine.run_induction (motive := fun actions σ => TimersHeard (heard actions) σ) ?_ ?_ h
  · exact ⟨fun event hevent => absurd hevent List.not_mem_nil,
      fun event hevent => absurd hevent List.not_mem_nil⟩
  · intro actions σ action σ' hrun ih hstep
    have hhistory : heard (actions ++ [action]) = heard actions ++ heardNow σ action :=
      Machine.observe_concat hrun hstep
    rw [hhistory]
    exact ih.of_step hstep

/-- Only a ticker that wakes up with an old timer, at a server that is not the leader, spawns an
election. -/
theorem spawned_step (h : step σ action = some σ') (hmore : σ.elections p < σ'.elections p) :
    ∃ startWaitTime, action = .tickerWake p ∧ σ.tickers p = .sleeping startWaitTime ∧
      startWaitTime + 300 ≤ σ.now ∧ (σ.servers p).lastTimeReceiveRPC < startWaitTime ∧
      (σ.servers p).state ≠ .leader := by
  cases step_inversion h with
  | tickerWake s startWaitTime hpc hslept =>
      simp only [Function.update_apply] at hmore
      split at hmore
      · rename_i heq
        subst heq
        split at hmore
        · rename_i hspawns
          obtain ⟨hlate, hrole⟩ := of_decide_eq_true hspawns
          exact ⟨startWaitTime, rfl, hpc, hslept, hlate, hrole⟩
        · omega
      · omega
  | emitElection s hspawned =>
      simp only [Function.update_apply] at hmore
      split at hmore
      · rename_i heq
        subst heq
        omega
      · omega
  | voteReturn =>
      simp at hmore
  | advance | tickerTest | tickerStart | requestVote | voteFail | sendHeartBeat | getHeartbeat
  | heartbeatReturn | kill => exact absurd hmore (lt_irrefl _)

/-! ## The terms -/

/-- The entries that a heartbeat loop carries or has sent are not ahead of the term of its
server. -/
structure EntriesReached (σ : Cluster n) : Prop where
  loops : ∀ loop ∈ σ.loops, ∀ appendentries, loop.pc.entries = some appendentries →
    appendentries.term ≤ (σ.servers loop.server).currentTerm
  calls : ∀ call ∈ σ.heartbeatCalls,
    call.appendentries.term ≤ (σ.servers call.caller).currentTerm

/-- A step keeps the entries behind the terms. -/
theorem EntriesReached.of_step (hentries : EntriesReached σ) (h : step σ action = some σ') :
    EntriesReached σ' := by
  constructor
  · intro loop hloop appendentries hcarries
    rcases mem_loops_step h hloop with hold | hnew | ⟨k, old, calls, rfl, hget, hserver, hnext⟩
    · exact (hentries.loops loop hold appendentries hcarries).trans (step_term_le h _)
    · simp [hnew, LoopPc.entries] at hcarries
    · refine le_trans ?_ (step_term_le h _)
      rw [hserver]
      rcases send_heart_beat_entries hnext hcarries with hcarried | ⟨-, rfl⟩
      · exact hentries.loops old (List.mem_of_getElem? hget) appendentries hcarried
      · exact le_rfl
  · intro call hcall
    refine le_trans ?_ (step_term_le h _)
    rcases mem_heartbeat_calls_step h hcall with
      ⟨old, hold, hcaller, -, hsame⟩ | ⟨k, loop, rfl, hloop, hcarried, hcaller, -⟩
    · rw [← hcaller, ← hsame]
      exact hentries.calls old hold
    · rw [hcaller]
      exact hentries.loops loop (List.mem_of_getElem? hloop) _ hcarried

/-- In every reachable state the entries are behind the terms. -/
theorem entries_reached (h : (cluster n).run actions = some σ) : EntriesReached σ := by
  refine Machine.run_induction (motive := fun _ σ => EntriesReached σ) ?_ ?_ h
  · exact ⟨fun loop hloop => absurd hloop List.not_mem_nil,
      fun call hcall => absurd hcall List.not_mem_nil⟩
  · intro actions σ action σ' _ ih hstep
    exact ih.of_step hstep

/-- Without a new election no term rises above the highest one. -/
theorem terms_le_step (hrun : (cluster n).run actions = some σ) (h : step σ action = some σ')
    (hnone : ∀ s, action ≠ .emitElection s) {term : Nat}
    (hterms : ∀ q, (σ.servers q).currentTerm ≤ term) (p : Fin n) :
    (σ'.servers p).currentTerm ≤ term := by
  generalize hrf : σ'.servers p = rf
  cases hrf ▸ server_step h p with
  | timer _ _ _ hsame => exact hsame.trans_le (hterms p)
  | emitElection => exact absurd rfl (hnone p)
  | requestVote k call hcall =>
      have hreached := ((calls_recorded hrun).wellFormed call (List.mem_of_getElem? hcall)).2.2
      rw [request_vote_term]
      exact max_le (hterms p) (hreached.trans (hterms _))
  | countVote =>
      rcases count_vote_cases (σ.servers p) with heq | ⟨-, -, heq⟩
      · rw [heq]
        exact hterms p
      · rw [heq]
        exact hterms p
  | getHeartbeat k call hcall =>
      have hreached := (entries_reached hrun).calls call (List.mem_of_getElem? hcall)
      rcases get_heartbeat_cases (σ.servers p) σ.now call.appendentries with ⟨-, heq⟩ | ⟨-, heq⟩
      · rw [heq]
        exact hterms p
      · rw [heq]
        exact hreached.trans (hterms _)
  | heartbeatReturn =>
      unfold heartbeatReturn
      split
      · exact hterms p
      · exact hterms p

/-! ## The leader -/

/-- The leader has the highest term, and no election is about to start. -/
structure Undisputed (σ : Cluster n) (l : Fin n) : Prop where
  leader : (σ.servers l).state = .leader
  terms : ∀ q, (σ.servers q).currentTerm ≤ (σ.servers l).currentTerm
  elections : ∀ q, σ.elections q = 0

/-- Without a new election and without a rival nothing ends the leadership. -/
theorem Undisputed.leader_step (hrun : (cluster n).run actions = some σ) (hlead : Undisputed σ l)
    (h : step σ action = some σ') (hnone : ∀ s, action ≠ .emitElection s)
    (hrival : NoRivalHeartbeat σ action) : (σ'.servers l).state = .leader := by
  generalize hrf : σ'.servers l = rf
  cases hrf ▸ server_step h l with
  | timer _ _ hsame => exact hsame.trans hlead.leader
  | emitElection => exact absurd rfl (hnone l)
  | requestVote k call hcall =>
      have hreached := ((calls_recorded hrun).wellFormed call (List.mem_of_getElem? hcall)).2.2
      rcases request_vote_state (σ.servers l) σ.now call.args with ⟨hsame, -⟩ | ⟨-, hnewer⟩
      · exact hsame.trans hlead.leader
      · have hterm := hlead.terms call.caller
        omega
  | countVote =>
      rcases count_vote_cases (σ.servers l) with heq | ⟨-, -, heq⟩
      · rw [heq]
        exact hlead.leader
      · rw [heq]
  | getHeartbeat k call hcall hreply hserver =>
      have hreached := (entries_reached hrun).calls call (List.mem_of_getElem? hcall)
      have hterm := hlead.terms call.caller
      have hother : call.appendentries.term ≠ (σ.servers call.server).currentTerm :=
        hrival call hcall (by rw [hserver]; exact hlead.leader)
      rw [hserver] at hother
      rcases get_heartbeat_cases (σ.servers l) σ.now call.appendentries with ⟨-, heq⟩ | ⟨hle, -⟩
      · rw [heq]
        exact hlead.leader
      · omega
  | heartbeatReturn k ok call reply hcall hreply hcaller =>
      have hsame := congrFun (heartbeat_return_keeps_servers hrun h) l
      rw [hrf] at hsame
      rw [hsame]
      exact hlead.leader

/-- What a step does while the leader is undisputed and every ticker that wakes up elsewhere finds
a fresh timer. -/
theorem Undisputed.of_step (hrun : (cluster n).run actions = some σ) (hlead : Undisputed σ l)
    (h : step σ action = some σ') (hrival : NoRivalHeartbeat σ action)
    (hfresh : ∀ s startWaitTime, action = .tickerWake s → s ≠ l →
      σ.tickers s = .sleeping startWaitTime → startWaitTime + 300 ≤ σ.now →
      startWaitTime ≤ (σ.servers s).lastTimeReceiveRPC) :
    Undisputed σ' l ∧ (σ'.servers l).currentTerm = (σ.servers l).currentTerm ∧
      ∀ s, action ≠ .emitElection s := by
  have hnone : ∀ s, action ≠ .emitElection s := by
    rintro s rfl
    cases step_inversion h with
    | emitElection s hspawned =>
        rw [hlead.elections s] at hspawned
        exact lt_irrefl _ hspawned
  have hterms := terms_le_step hrun h hnone hlead.terms
  have hterm : (σ'.servers l).currentTerm = (σ.servers l).currentTerm :=
    le_antisymm (hterms l) (step_term_le h l)
  refine ⟨⟨hlead.leader_step hrun h hnone hrival, ?_, ?_⟩, hterm, hnone⟩
  · rw [hterm]
    exact hterms
  · intro q
    by_contra hspawned
    obtain ⟨startWaitTime, rfl, hsleeping, hslept, hlate, hrole⟩ :=
      spawned_step h (by rw [hlead.elections q]; exact Nat.pos_of_ne_zero hspawned)
    have hne : q ≠ l := by
      rintro rfl
      exact hrole hlead.leader
    exact absurd (hfresh q startWaitTime rfl hne hsleeping hslept) (by omega)

/-- Whenever the ticker of a server other than `l` wakes up in the second part of the run, the
server has handled an RPC that resets its timer less than 300 milliseconds ago. -/
def HeardInTime (actions rest : List (Action n)) (l : Fin n) : Prop :=
  ∀ before s after τ, rest = before ++ .tickerWake s :: after → s ≠ l →
    (cluster n).run (actions ++ before) = some τ →
    ∃ event ∈ heard (actions ++ before), event.server = s ∧ τ.now < event.time + 300

/-- The condition for an initial part. -/
theorem HeardInTime.of_concat (h : HeardInTime actions (rest ++ [action]) l) :
    HeardInTime actions rest l := by
  rintro before s after τ rfl hne hrun
  exact h before s (after ++ [action]) τ (by simp) hne hrun

/-- A ticker that wakes up in time finds a fresh timer. -/
theorem HeardInTime.fresh (h : HeardInTime actions (rest ++ [action]) l)
    (hrun : (cluster n).run (actions ++ rest) = some σ) (s : Fin n) (startWaitTime : Nat)
    (hwakes : action = .tickerWake s) (hne : s ≠ l)
    (hsleeping : σ.tickers s = .sleeping startWaitTime) (hslept : startWaitTime + 300 ≤ σ.now) :
    startWaitTime ≤ (σ.servers s).lastTimeReceiveRPC := by
  subst hwakes
  obtain ⟨event, hevent, rfl, hrecent⟩ := h rest s [] σ rfl hne hrun
  have htimer := (timers_heard hrun).timer event hevent startWaitTime hsleeping (by omega)
  omega

/-- An undisputed leader keeps its role and its term, and no election starts. -/
theorem undisputed_run (hrun : (cluster n).run actions = some σ) (hlead : Undisputed σ l)
    (hrest : (cluster n).run (actions ++ rest) = some τ)
    (hrival : (cluster n).Meets NoRivalHeartbeat (actions ++ rest))
    (hheard : HeardInTime actions rest l) :
    Undisputed τ l ∧ (τ.servers l).currentTerm = (σ.servers l).currentTerm ∧
      ∀ s, .emitElection s ∉ rest := by
  -- the steps are added at the end, where the history of the timers grows
  induction rest using List.reverseRecOn generalizing τ with
  | nil =>
      rw [List.append_nil, hrun] at hrest
      obtain rfl := Option.some.inj hrest
      exact ⟨hlead, rfl, fun s => List.not_mem_nil⟩
  | append_singleton rest action ih =>
      rw [← List.append_assoc] at hrest hrival
      obtain ⟨middle, hmiddle, hstep⟩ := Machine.run_concat_iff.mp hrest
      obtain ⟨hkept, hterm, hnone⟩ := ih hmiddle (hrival.of_initial (List.prefix_append _ _))
        hheard.of_concat
      obtain ⟨hkept', hterm', hnone'⟩ := hkept.of_step hmiddle hstep (hrival.last hmiddle)
        (hheard.fresh hmiddle)
      refine ⟨hkept', hterm'.trans hterm, fun s hmem => ?_⟩
      rcases List.mem_append.mp hmem with hold | hlast
      · exact hnone s hold
      · exact hnone' s (List.mem_singleton.mp hlast).symm

/-- A leader with the highest term stays the leader of its term, and the only one, as long as every
other server handles a vote request or a heartbeat in the last 300 milliseconds before its ticker
wakes up. No server starts an election in this time. Votes must be counted in their own term and
heartbeat loops must sample their term as leaders. -/
theorem leadership_stable {n : Nat} (actions rest : List (Action n)) (σ τ : Cluster n) (l : Fin n)
    (hrun : (cluster n).run actions = some σ) (hlead : Undisputed σ l)
    (hrest : (cluster n).run (actions ++ rest) = some τ)
    (hvotes : (cluster n).Meets CountsOwnTerm (actions ++ rest))
    (hsamples : (cluster n).Meets SamplesAsLeader (actions ++ rest))
    (hheard : HeardInTime actions rest l) :
    Undisputed τ l ∧ (τ.servers l).currentTerm = (σ.servers l).currentTerm ∧
      (∀ s, .emitElection s ∉ rest) ∧
      ∀ q, q ≠ l → (τ.servers q).state = .leader →
        (τ.servers q).currentTerm < (τ.servers l).currentTerm := by
  obtain ⟨hkept, hterm, hnone⟩ :=
    undisputed_run hrun hlead hrest (no_rival_heartbeat hvotes hsamples) hheard
  refine ⟨hkept, hterm, hnone, fun q hne hleader => ?_⟩
  refine lt_of_le_of_ne (hkept.terms q) fun hsame => hne ?_
  exact leader_unique_of_initial hvotes List.prefix_rfl hrest hrest hleader hkept.leader hsame

/-- After `plainElection` the ticker of server 2 falls asleep, the leader sends its heartbeats, and
the one to server 2 is handled 200 milliseconds before its ticker wakes up. -/
def heardRound : List (Action 3) :=
  [.tickerTest peer2, .tickerStart peer2, .sendHeartBeat 0, .sendHeartBeat 0, .sendHeartBeat 0,
    .sendHeartBeat 0, .sendHeartBeat 0, .advance 100, .getHeartbeat 1, .advance 200,
    .tickerWake peer2]

/-- The one wake-up of `heardRound` is in time. -/
theorem heard_in_time_round : HeardInTime plainElection heardRound peer0 := by
  intro before s after τ heq _ hrun
  have honly : ∀ k < heardRound.length, ∀ s, heardRound[k]? = some (.tickerWake s) →
      k = 10 ∧ s = peer2 := by decide
  have hlength : before.length < heardRound.length := by
    rw [heq]
    simp
  obtain ⟨hlast, rfl⟩ := honly before.length hlength s (by rw [heq]; simp)
  have hbefore : before = heardRound.take 10 := by
    rw [← hlast, heq]
    exact List.take_left.symm
  obtain ⟨τ', hrun', hnow, hevent⟩ := (cluster 3).exists_run_of_check
    (plainElection ++ heardRound.take 10)
    (fun τ => τ.now = 601 ∧ ⟨peer2, 401⟩ ∈ heard (plainElection ++ heardRound.take 10)) (by decide)
  rw [hbefore] at hrun ⊢
  obtain rfl := Option.some.inj (hrun'.symm.trans hrun)
  exact ⟨⟨peer2, 401⟩, hevent, rfl, by rw [hnow]; decide⟩

/-- Server 0 stays the leader along `heardRound`. -/
theorem leadership_stable_round : ∃ τ, (cluster 3).run (plainElection ++ heardRound) = some τ ∧
    Undisputed τ peer0 := by
  obtain ⟨σ, hrun, hleader, hterms, helections⟩ := (cluster 3).exists_run_of_check plainElection
    (fun σ => (σ.servers peer0).state = .leader ∧
      (∀ q, (σ.servers q).currentTerm ≤ (σ.servers peer0).currentTerm) ∧ ∀ q, σ.elections q = 0)
    (by decide)
  obtain ⟨τ, hrest⟩ := Option.isSome_iff_exists.mp
    (show ((cluster 3).run (plainElection ++ heardRound)).isSome = true by decide)
  exact ⟨τ, hrest, (leadership_stable plainElection heardRound σ τ peer0 hrun
    ⟨hleader, hterms, helections⟩ hrest (Machine.meets_of_check (by decide))
    (Machine.meets_of_check (by decide)) heard_in_time_round).1⟩

end DistributedLabs.Raft
