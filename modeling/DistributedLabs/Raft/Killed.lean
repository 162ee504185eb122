import DistributedLabs.Raft.Heartbeat
import DistributedLabs.Raft.OpenVotes

/-!
# What a killed server still does

`Kill` sets a flag that only `ticker` reads. An `emitElection` that was spawned before, a vote that
returns later, and a `sendHeartBeat` loop all go on as if the server were alive: a killed leader
sends heartbeats for ever (`killed_leader_keeps_sending`). `killed_silent_iff` says from which
states a killed server is silent in every continuation: it must have nothing left that could start
an election, win one, or begin a round of heartbeats.
-/

namespace DistributedLabs.Raft

variable {n : Nat} {σ σ' : Cluster n} {action : Action n} {actions : List (Action n)} {p : Fin n}

/-- In this step server `p` starts no pass of its ticker, no election, no leadership and no round of
heartbeats. -/
structure SilentStep (p : Fin n) (σ : Cluster n) (action : Action n) (σ' : Cluster n) : Prop where
  pass : σ'.tickers p = .tested → σ.tickers p = .tested
  election : action ≠ .emitElection p
  leader : (σ'.servers p).state = .leader → (σ.servers p).state = .leader
  round : ∀ k loop, action = .sendHeartBeat k → σ.loops[k]? = some loop → loop.server = p →
    loop.pc ≠ .sample

/-- In every continuation server `p` only completes what it has begun. -/
def SilentAfter (σ : Cluster n) (p : Fin n) : Prop :=
  ∀ rest τ action τ', (cluster n).runFrom σ rest = some τ → step τ action = some τ' →
    SilentStep p τ action τ'

/-- The loop stands between two rounds. -/
def LoopPc.BetweenRounds : LoopPc n → Prop
  | .sample | .sleeping _ => True
  | .send _ _ | .check _ _ | .checkRound | .exited => False

/-- Server `p` has nothing left that could start an election, win one, or begin a round. -/
structure Settled (σ : Cluster n) (p : Fin n) : Prop where
  elections : σ.elections p = 0
  /-- The ticker is not past its test and about to read the clock: it would hear nothing. -/
  test : σ.tickers p ≠ .tested
  /-- A ticker that sleeps will find that an RPC has come in since. -/
  ticker : ∀ startWaitTime, σ.tickers p = .sleeping startWaitTime →
    startWaitTime ≤ (σ.servers p).lastTimeReceiveRPC
  role : (σ.servers p).state ≠ .leader
  /-- Every loop of the server is within a round or has exited. -/
  loops : ∀ loop ∈ σ.loops, loop.server = p → ¬ loop.pc.BetweenRounds
  /-- The votes that a candidate can still count do not complete a majority. -/
  votes : (σ.servers p).state = .candidate →
    σ.openVotes p = 0 ∨ (σ.servers p).votednumber + σ.openVotes p ≤ n / 2

/-! ## Timers and flags along a step -/

/-- A counted vote changes nothing but the servers and the loops. -/
@[simp] theorem receive_vote_tickers (σ : Cluster n) (caller : Fin n) (reply : RequestVoteReply) :
    (σ.receiveVote caller reply).tickers = σ.tickers := by
  unfold Cluster.receiveVote
  split <;> rfl

/-- A counted vote spawns no election. -/
@[simp] theorem receive_vote_elections (σ : Cluster n) (caller : Fin n)
    (reply : RequestVoteReply) : (σ.receiveVote caller reply).elections = σ.elections := by
  unfold Cluster.receiveVote
  split <;> rfl

/-- A counted vote takes no time. -/
@[simp] theorem receive_vote_now (σ : Cluster n) (caller : Fin n) (reply : RequestVoteReply) :
    (σ.receiveVote caller reply).now = σ.now := by
  unfold Cluster.receiveVote
  split <;> rfl

/-- The clock does not go back. -/
theorem now_step (h : step σ action = some σ') : σ.now ≤ σ'.now := by
  cases step_inversion h with
  | advance ms => exact Nat.le_add_right _ _
  | voteReturn => simp
  | tickerTest | tickerStart | tickerWake | emitElection | requestVote | voteFail | sendHeartBeat
  | getHeartbeat | heartbeatReturn | kill => exact le_rfl

/-- A ticker past its test was there before, or its server is not dead. -/
theorem tested_step (h : step σ action = some σ') (htested : σ'.tickers p = .tested) :
    σ.tickers p = .tested ∨ (σ.servers p).dead = false := by
  cases step_inversion h with
  | tickerTest s hpc =>
      simp only [Function.update_apply] at htested
      split at htested
      · rename_i heq
        subst heq
        split at htested
        · cases htested
        · rename_i halive
          exact Or.inr (by simpa using halive)
      · exact Or.inl htested
  | tickerStart s hpc =>
      simp only [Function.update_apply] at htested
      split at htested
      · cases htested
      · exact Or.inl htested
  | tickerWake s startWaitTime hpc hslept =>
      simp only [Function.update_apply] at htested
      split at htested
      · cases htested
      · exact Or.inl htested
  | voteReturn => exact Or.inl (by simpa using htested)
  | advance | emitElection | requestVote | voteFail | sendHeartBeat | getHeartbeat
  | heartbeatReturn | kill => exact Or.inl htested

/-- A sleeping ticker was sleeping before, or has just passed its test and read the clock. -/
theorem ticker_step (h : step σ action = some σ') {startWaitTime : Nat}
    (hsleeping : σ'.tickers p = .sleeping startWaitTime) :
    σ.tickers p = .sleeping startWaitTime ∧ action ≠ .tickerWake p ∨
      startWaitTime = σ.now ∧ σ.tickers p = .tested := by
  cases step_inversion h with
  | tickerTest s hpc =>
      simp only [Function.update_apply] at hsleeping
      split at hsleeping
      · split at hsleeping <;> cases hsleeping
      · exact Or.inl ⟨hsleeping, by simp⟩
  | tickerStart s hpc =>
      simp only [Function.update_apply] at hsleeping
      split at hsleeping
      · rename_i heq
        subst heq
        cases hsleeping
        exact Or.inr ⟨rfl, hpc⟩
      · exact Or.inl ⟨hsleeping, by simp⟩
  | tickerWake s startWaitTime hpc hslept =>
      simp only [Function.update_apply] at hsleeping
      split at hsleeping
      · cases hsleeping
      · rename_i hne
        exact Or.inl ⟨hsleeping, fun heq => hne (by cases heq; rfl)⟩
  | voteReturn => exact Or.inl ⟨by simpa using hsleeping, by simp⟩
  | advance | emitElection | requestVote | voteFail | sendHeartBeat | getHeartbeat
  | heartbeatReturn | kill => exact Or.inl ⟨hsleeping, by simp⟩

/-- Only a ticker that wakes up without having heard an RPC spawns an election. -/
theorem elections_step (h : step σ action = some σ') :
    σ'.elections p ≤ σ.elections p ∨
      ∃ startWaitTime, σ.tickers p = .sleeping startWaitTime ∧
        (σ.servers p).lastTimeReceiveRPC < startWaitTime := by
  cases step_inversion h with
  | tickerWake s startWaitTime hpc hslept =>
      simp only [Function.update_apply]
      split
      · rename_i heq
        subst heq
        by_cases hlate : (σ.servers p).lastTimeReceiveRPC < startWaitTime
        · exact Or.inr ⟨startWaitTime, hpc, hlate⟩
        · left
          simp [tickerCheck, hlate]
      · exact Or.inl le_rfl
  | emitElection s hspawned =>
      left
      simp only [Function.update_apply]
      split
      · rename_i heq
        subst heq
        exact Nat.sub_le _ _
      · exact le_rfl
  | voteReturn => exact Or.inl (by simp)
  | advance | tickerTest | tickerStart | requestVote | voteFail | sendHeartBeat | getHeartbeat
  | heartbeatReturn | kill => exact Or.inl le_rfl

/-- What a step keeps of the flag and of the timer of a server. -/
structure TimerKept (now : Nat) (rf rf' : Server n) : Prop where
  dead : rf.dead = true → rf'.dead = true
  timer : rf'.lastTimeReceiveRPC = rf.lastTimeReceiveRPC ∨ rf'.lastTimeReceiveRPC = now

/-- A step that is not the waking of the ticker leaves the timer, or sets it to the present. -/
theorem timer_step (h : step σ action = some σ') (hother : action ≠ .tickerWake p) :
    TimerKept σ.now (σ.servers p) (σ'.servers p) := by
  have hsame : TimerKept σ.now (σ.servers p) (σ.servers p) := ⟨id, Or.inl rfl⟩
  have hset : ∀ s rf, (s = p → TimerKept σ.now (σ.servers p) rf) →
      TimerKept σ.now (σ.servers p) (Function.update σ.servers s rf p) := by
    intro s rf hnew
    rw [Function.update_apply]
    split
    · rename_i heq
      exact hnew heq.symm
    · exact hsame
  cases step_inversion h with
  | advance | tickerTest | tickerStart | voteFail | sendHeartBeat => exact hsame
  | tickerWake s => exact hset s _ fun heq => absurd (by rw [heq]) hother
  | emitElection s => exact hset s _ fun heq => by subst heq; exact ⟨id, Or.inl rfl⟩
  | requestVote k call =>
      refine hset _ _ fun heq => ?_
      subst heq
      rcases request_vote_cases (σ.servers call.server) σ.now call.args with
        ⟨heq, -⟩ | ⟨heq, -⟩ | ⟨heq, -⟩
      · rw [heq]
        exact ⟨id, Or.inr rfl⟩
      · rw [heq]
        exact ⟨id, Or.inr rfl⟩
      · rw [heq]
        exact ⟨id, Or.inr rfl⟩
  | voteReturn k call reply =>
      unfold Cluster.receiveVote
      split
      · refine hset _ _ fun heq => ?_
        subst heq
        rcases count_vote_cases (σ.servers call.caller) with heq | ⟨-, -, heq⟩
        · simp only [heq]
          exact ⟨id, Or.inl rfl⟩
        · simp only [heq]
          exact ⟨id, Or.inl rfl⟩
      · exact hsame
  | getHeartbeat k call =>
      refine hset _ _ fun heq => ?_
      subst heq
      rcases get_heartbeat_cases (σ.servers call.server) σ.now call.appendentries with
        ⟨-, heq⟩ | ⟨-, heq⟩
      · rw [heq]
        exact hsame
      · rw [heq]
        exact ⟨id, Or.inr rfl⟩
  | heartbeatReturn k ok call reply =>
      refine hset _ _ fun heq => ?_
      subst heq
      unfold heartbeatReturn
      split
      · exact ⟨id, Or.inl rfl⟩
      · exact hsame
  | kill s => exact hset s _ fun heq => by subst heq; exact ⟨fun _ => rfl, Or.inl rfl⟩

/-- In every reachable state a sleeping ticker fell asleep in the past. -/
theorem ticker_started (h : (cluster n).run actions = some σ) :
    ∀ p startWaitTime, σ.tickers p = .sleeping startWaitTime → startWaitTime ≤ σ.now := by
  refine Machine.run_induction (motive := fun _ σ => ∀ p startWaitTime,
    σ.tickers p = .sleeping startWaitTime → startWaitTime ≤ σ.now) ?_ ?_ h
  · intro p startWaitTime hsleeping
    simp [cluster, initial] at hsleeping
  · intro actions σ action σ' _ ih hstep p startWaitTime hsleeping
    have hnow := now_step hstep
    rcases ticker_step hstep hsleeping with ⟨hold, -⟩ | ⟨rfl, -⟩
    · exact (ih p startWaitTime hold).trans hnow
    · exact hnow

/-! ## A settled server that is dead stays silent -/

/-- A dead server that is settled, with the clock past the start of its ticker's pass. -/
structure Quiet (σ : Cluster n) (p : Fin n) : Prop extends Settled σ p where
  dead : (σ.servers p).dead = true
  started : ∀ startWaitTime, σ.tickers p = .sleeping startWaitTime → startWaitTime ≤ σ.now

/-- No vote promotes a settled server. -/
theorem Settled.not_promotes (h : Settled σ p) {k : Nat} {call : VoteCall n}
    (hcaller : call.caller = p) : ¬ Promotes σ k call := by
  intro hpromotes
  have hopen := hpromotes.open_vote
  have hmajority := hpromotes.majority
  rw [hcaller] at hopen hmajority
  rcases h.votes (hcaller ▸ hpromotes.candidate) with hnone | hshort
  · omega
  · omega

/-- A settled server does not become a leader. -/
theorem Settled.not_leader (hsettled : Settled σ p) (h : step σ action = some σ') :
    (σ'.servers p).state ≠ .leader := by
  intro hleader
  obtain ⟨k, call, -, hpromotes, hcaller⟩ := promotes_of_leader h hsettled.role hleader
  exact hsettled.not_promotes hcaller hpromotes

/-- A settled server starts no election. -/
theorem Settled.not_election (hsettled : Settled σ p) (h : step σ action = some σ') :
    action ≠ .emitElection p := by
  intro haction
  subst haction
  cases step_inversion h with
  | emitElection _ hspawned =>
      have hnone := hsettled.elections
      omega

/-- The ticker of a quiet server does not pass its test. -/
theorem Quiet.not_tested (hquiet : Quiet σ p) (h : step σ action = some σ') :
    σ'.tickers p ≠ .tested := by
  intro htested
  rcases tested_step h htested with hold | halive
  · exact hquiet.test hold
  · rw [hquiet.dead] at halive
    cases halive

/-- Every step of a quiet state is silent. -/
theorem Quiet.silent (hquiet : Quiet σ p) (h : step σ action = some σ') :
    SilentStep p σ action σ' where
  pass := fun htested => absurd htested (hquiet.not_tested h)
  election := hquiet.toSettled.not_election h
  leader := fun hleader => absurd hleader (hquiet.toSettled.not_leader h)
  round := by
    intro k loop _ hloop hserver hsample
    refine hquiet.loops loop (List.mem_of_getElem? hloop) hserver ?_
    rw [hsample]
    trivial

/-- A loop within a round whose server is not a leader goes on to the end of the round only. -/
theorem send_heart_beat_winds_down {now : Nat} {rf : Server n} {me : Fin n} {pc next : LoopPc n}
    {calls : List (HeartbeatCall n)} (h : sendHeartBeat now rf me pc = some (next, calls))
    (hrole : rf.state ≠ .leader) (hround : ¬ pc.BetweenRounds) : ¬ next.BetweenRounds := by
  cases pc with
  | sample => exact absurd trivial hround
  | send entries i =>
      simp only [sendHeartBeat] at h
      split at h
      · split at h <;> cases h <;> exact id
      · cases h
        exact id
  | check entries i =>
      cases h
      rw [if_neg hrole]
      exact id
  | checkRound =>
      cases h
      rw [if_neg hrole]
      exact id
  | sleeping since => exact absurd trivial hround
  | exited => cases h

/-- A step keeps the loops of a settled server out of new rounds. -/
theorem Settled.loops_step (hsettled : Settled σ p) (h : step σ action = some σ') :
    ∀ loop ∈ σ'.loops, loop.server = p → ¬ loop.pc.BetweenRounds := by
  intro loop hmem hserver
  have hcases := loop_step h
  generalize σ'.loops = loops at hmem hcases
  cases hcases with
  | same => exact hsettled.loops loop hmem hserver
  | spawn k call hpromotes =>
      rcases List.mem_append.mp hmem with hold | hnew
      · exact hsettled.loops loop hold hserver
      · obtain rfl := List.mem_singleton.mp hnew
        exact absurd hpromotes (hsettled.not_promotes hserver)
  | next k old pc calls hold hnext =>
      rcases List.mem_or_eq_of_mem_set hmem with hmem | rfl
      · exact hsettled.loops loop hmem hserver
      · obtain rfl : old.server = p := hserver
        exact send_heart_beat_winds_down hnext hsettled.role
          (hsettled.loops old (List.mem_of_getElem? hold) rfl)

/-- A quiet state stays quiet. -/
theorem Quiet.of_step (hquiet : Quiet σ p) (h : step σ action = some σ') : Quiet σ' p where
  elections := by
    have hnone := hquiet.elections
    rcases elections_step (p := p) h with hle | ⟨startWaitTime, hsleeping, hlate⟩
    · omega
    · have hheard := hquiet.ticker startWaitTime hsleeping
      omega
  test := hquiet.not_tested h
  ticker := by
    intro startWaitTime hsleeping
    rcases ticker_step h hsleeping with ⟨hold, hother⟩ | ⟨-, htested⟩
    · have hheard := hquiet.ticker startWaitTime hold
      have hstarted := hquiet.started startWaitTime hold
      rcases (timer_step h hother).timer with hsame | hnow
      · omega
      · omega
    · exact absurd htested hquiet.test
  role := hquiet.toSettled.not_leader h
  loops := hquiet.toSettled.loops_step h
  votes := by
    intro hcandidate
    have hother := hquiet.toSettled.not_election h
    have hopen := open_votes_step h hother
    rcases step_candidate h hcandidate with ⟨haction, -⟩ | ⟨hwas, -⟩
    · exact absurd haction hother
    · rcases hquiet.votes hwas with hnone | hshort
      · left
        omega
      · right
        omega
  dead := by
    by_cases hwake : action = .tickerWake p
    · subst hwake
      cases step_inversion h with
      | tickerWake _ startWaitTime =>
          simp only [Cluster.setServer, Function.update_self]
          exact hquiet.dead
    · exact (timer_step h hwake).dead hquiet.dead
  started := by
    intro startWaitTime hsleeping
    have hnow := now_step h
    rcases ticker_step h hsleeping with ⟨hold, -⟩ | ⟨rfl, -⟩
    · exact (hquiet.started startWaitTime hold).trans hnow
    · exact hnow

/-- A quiet server is silent in every continuation. -/
theorem Quiet.silent_after (hquiet : Quiet σ p) : SilentAfter σ p := by
  intro rest τ action τ' hrest hstep
  have hlast : Quiet τ p :=
    Machine.run_from_invariant (motive := fun σ => Quiet σ p)
      (fun _ _ _ hquiet hnext => hquiet.of_step hnext) hquiet hrest
  exact hlast.silent hstep

/-! ## A server that is not settled breaks its silence -/

/-- What a continuation of the next state breaks is broken by a continuation of this one. -/
theorem not_silent_of_step (h : step σ action = some σ') (hbroken : ¬ SilentAfter σ' p) :
    ¬ SilentAfter σ p := by
  intro hsilent
  refine hbroken fun rest τ last τ' hrest hlast => ?_
  have hfirst : (cluster n).step σ action = some σ' := h
  exact hsilent (action :: rest) τ last τ' (by simp [Machine.runFrom, hfirst, hrest]) hlast

/-- An election that has been spawned can start. -/
theorem not_silent_of_election (hspawned : 0 < σ.elections p) : ¬ SilentAfter σ p := by
  intro hsilent
  obtain ⟨σ', hstep⟩ : ∃ σ', step σ (.emitElection p) = some σ' :=
    ⟨_, by rw [step, if_pos hspawned]⟩
  exact (hsilent [] σ _ σ' rfl hstep).election rfl

/-- A ticker that has heard nothing since it fell asleep can start an election. -/
theorem not_silent_of_ticker {startWaitTime : Nat}
    (hsleeping : σ.tickers p = .sleeping startWaitTime)
    (hlate : (σ.servers p).lastTimeReceiveRPC < startWaitTime)
    (hrole : (σ.servers p).state ≠ .leader) : ¬ SilentAfter σ p := by
  have hadvance : step σ (.advance (startWaitTime + 300)) =
      some { σ with now := σ.now + (startWaitTime + 300) } := rfl
  refine not_silent_of_step hadvance ?_
  obtain ⟨τ, hwake, hspawned⟩ : ∃ τ,
      step { σ with now := σ.now + (startWaitTime + 300) } (.tickerWake p) = some τ ∧
        0 < τ.elections p := by
    simp only [step, hsleeping]
    rw [if_pos (by omega)]
    exact ⟨_, rfl, by simp [tickerCheck, hlate, hrole]⟩
  exact not_silent_of_step hwake (not_silent_of_election hspawned)

/-- A ticker past its test can read the clock after the last RPC and start an election. -/
theorem not_silent_of_tested (htested : σ.tickers p = .tested)
    (hrole : (σ.servers p).state ≠ .leader) : ¬ SilentAfter σ p := by
  have hadvance : step σ (.advance ((σ.servers p).lastTimeReceiveRPC + 1)) =
      some { σ with now := σ.now + ((σ.servers p).lastTimeReceiveRPC + 1) } := rfl
  refine not_silent_of_step hadvance ?_
  obtain ⟨τ, hstart, hservers, hsleeping⟩ : ∃ τ,
      step { σ with now := σ.now + ((σ.servers p).lastTimeReceiveRPC + 1) } (.tickerStart p) =
          some τ ∧
        τ.servers = σ.servers ∧
        τ.tickers p = .sleeping (σ.now + ((σ.servers p).lastTimeReceiveRPC + 1)) := by
    simp only [step, htested]
    exact ⟨_, rfl, rfl, Function.update_self _ _ _⟩
  refine not_silent_of_step hstart (not_silent_of_ticker hsleeping ?_ ?_)
  · rw [hservers]
    omega
  · rw [hservers]
    exact hrole

/-- A step of a loop moves its program point and leaves the servers alone. -/
theorem send_heart_beat_step {k : Nat} {loop : HeartbeatLoop n} {next : LoopPc n}
    {calls : List (HeartbeatCall n)} (hloop : σ.loops[k]? = some loop)
    (hnext : sendHeartBeat σ.now (σ.servers loop.server) loop.server loop.pc =
      some (next, calls)) :
    ∃ σ', step σ (.sendHeartBeat k) = some σ' ∧ σ'.servers = σ.servers ∧
      σ'.loops[k]? = some { loop with pc := next } := by
  have hlt : k < σ.loops.length := (List.getElem?_eq_some_iff.mp hloop).1
  refine ⟨{ σ with
      loops := σ.loops.set k { loop with pc := next }
      heartbeatCalls := σ.heartbeatCalls ++ calls }, ?_, rfl, List.getElem?_set_self hlt⟩
  simp [step, hloop, hnext]

/-- A loop that is about to sample the term can begin a round. -/
theorem not_silent_of_sample {k : Nat} {loop : HeartbeatLoop n} (hloop : σ.loops[k]? = some loop)
    (hserver : loop.server = p) (hsample : loop.pc = .sample) : ¬ SilentAfter σ p := by
  intro hsilent
  obtain ⟨σ', hstep, -⟩ : ∃ σ', step σ (.sendHeartBeat k) = some σ' ∧ σ'.servers = σ.servers ∧
      σ'.loops[k]? = some _ :=
    send_heart_beat_step hloop (by rw [hsample, sendHeartBeat])
  exact (hsilent [] σ _ σ' rfl hstep).round k loop rfl hloop hserver hsample

/-- A loop in its pause wakes up and can begin a round. -/
theorem not_silent_of_pause {k since : Nat} {loop : HeartbeatLoop n}
    (hloop : σ.loops[k]? = some loop) (hserver : loop.server = p)
    (hpause : loop.pc = .sleeping since) : ¬ SilentAfter σ p := by
  have hadvance : step σ (.advance (since + 100)) =
      some { σ with now := σ.now + (since + 100) } := rfl
  refine not_silent_of_step hadvance ?_
  have hwakes : sendHeartBeat (σ.now + (since + 100)) (σ.servers loop.server) loop.server loop.pc =
      some (.sample, []) := by
    rw [hpause, sendHeartBeat, if_pos (by omega)]
  obtain ⟨τ, hwake, -, hnext⟩ :=
    send_heart_beat_step (σ := { σ with now := σ.now + (since + 100) }) hloop hwakes
  exact not_silent_of_step hwake (not_silent_of_sample hnext hserver rfl)

/-- The steps that a loop of a leader is away from its next round. -/
def LoopPc.distance : LoopPc n → Nat
  | .sample | .exited => 0
  | .sleeping _ => 1
  | .checkRound => 2
  | .send _ i => 3 + 2 * (n - i)
  | .check _ i => 4 + 2 * (n - (i + 1))

/-- A live loop of a leader can begin another round. -/
theorem not_silent_of_leader {k : Nat} (hleader : (σ.servers p).state = .leader)
    (hlive : σ.LiveLoop p k) : ¬ SilentAfter σ p := by
  obtain ⟨loop, hloop, hserver, hpc⟩ := hlive
  induction hdistance : loop.pc.distance using Nat.strong_induction_on generalizing σ loop with
  | _ distance ih =>
      subst hserver
      -- every step within the round brings the loop nearer to the next one
      have hmove : ∀ next calls,
          sendHeartBeat σ.now (σ.servers loop.server) loop.server loop.pc = some (next, calls) →
          next ≠ .exited → next.distance < distance → ¬ SilentAfter σ loop.server := by
        intro next calls hnext hlive hnearer
        obtain ⟨τ, hstep, hservers, hfound⟩ := send_heart_beat_step hloop hnext
        refine not_silent_of_step hstep (ih next.distance hnearer ?_ _ hfound rfl hlive rfl)
        rw [hservers]
        exact hleader
      rw [← hdistance] at hmove
      cases hat : loop.pc with
      | sample => exact not_silent_of_sample hloop rfl hat
      | sleeping since => exact not_silent_of_pause hloop rfl hat
      | checkRound =>
          refine hmove (.sleeping σ.now) [] ?_ (by simp) (by simp [hat, LoopPc.distance])
          rw [hat, sendHeartBeat, if_pos hleader]
      | check entries i =>
          refine hmove (.send entries (i + 1)) [] ?_ (by simp) (by simp [hat, LoopPc.distance])
          rw [hat, sendHeartBeat, if_pos hleader]
      | send entries i =>
          by_cases hlt : i < n
          · by_cases hme : i = loop.server
            · refine hmove (.send entries (i + 1)) [] ?_ (by simp) ?_
              · rw [hat, sendHeartBeat, dif_pos hlt, if_pos hme]
              · simp only [hat, LoopPc.distance]
                omega
            · refine hmove (.check entries i) [⟨loop.server, ⟨i, hlt⟩, entries, none, false⟩] ?_
                (by simp) ?_
              · rw [hat, sendHeartBeat, dif_pos hlt, if_neg hme]
              · simp only [hat, LoopPc.distance]
                omega
          · refine hmove .checkRound [] ?_ (by simp) ?_
            · rw [hat, sendHeartBeat, dif_neg hlt]
            · simp only [hat, LoopPc.distance]
              omega
      | exited => exact absurd hat hpc

/-- A server that is silent in every continuation of a reachable state is settled. -/
theorem settled_of_silent (hrun : (cluster n).run actions = some σ)
    (hsilent : SilentAfter σ p) : Settled σ p := by
  have hrole : (σ.servers p).state ≠ .leader := by
    intro hleader
    obtain ⟨k, hlive⟩ := leader_has_loop hrun p hleader
    exact not_silent_of_leader hleader hlive hsilent
  constructor
  · exact Nat.eq_zero_of_not_pos fun hspawned => not_silent_of_election hspawned hsilent
  · exact fun htested => not_silent_of_tested htested hrole hsilent
  · intro startWaitTime hsleeping
    exact Nat.le_of_not_lt fun hlate => not_silent_of_ticker hsleeping hlate hrole hsilent
  · exact hrole
  · intro loop hmem hserver hbetween
    obtain ⟨k, hloop⟩ := List.mem_iff_getElem?.mp hmem
    cases hat : loop.pc with
    | sample => exact not_silent_of_sample hloop hserver hat hsilent
    | sleeping since => exact not_silent_of_pause hloop hserver hat hsilent
    | send | check | checkRound | exited =>
        rw [hat] at hbetween
        exact hbetween
  · intro hcandidate
    rcases Nat.eq_zero_or_pos (σ.openVotes p) with hnone | hopen
    · exact Or.inl hnone
    · refine Or.inr (Nat.le_of_not_lt fun hmajority => ?_)
      obtain ⟨rest, τ, action, τ', hrest, hstep, hbefore, hleader⟩ :=
        open_votes_promote hrun hcandidate hopen hmajority
      exact hbefore ((hsilent rest τ action τ' hrest hstep).leader hleader)

/-- `Kill` changes nothing that a server has to have settled. -/
theorem settled_kill (σ : Cluster n) (p : Fin n) :
    Settled (σ.setServer p (kill (σ.servers p))) p ↔ Settled σ p := by
  have hservers : ∀ q, ((σ.setServer p (kill (σ.servers p))).servers q).currentTerm =
      (σ.servers q).currentTerm ∧
      ((σ.setServer p (kill (σ.servers p))).servers q).votedFor = (σ.servers q).votedFor := by
    intro q
    by_cases hq : q = p
    · subst hq
      simp [Cluster.setServer, kill]
    · simp [Cluster.setServer, hq]
  have hopen : (σ.setServer p (kill (σ.servers p))).openVotes p = σ.openVotes p := by
    have hsame : ∀ call, (σ.setServer p (kill (σ.servers p))).OpenVote p call ↔
        σ.OpenVote p call :=
      fun call => open_vote_congr (hservers call.server).1 (hservers call.server).2
    simp only [Cluster.openVotes, hsame]
    rfl
  have hself : (σ.setServer p (kill (σ.servers p))).servers p = kill (σ.servers p) := by
    simp [Cluster.setServer]
  constructor
  · intro h
    have hvotes := h.votes
    have hrole := h.role
    have hticker := h.ticker
    rw [hself] at hrole hvotes hticker
    rw [hopen] at hvotes
    exact ⟨h.elections, h.test, hticker, hrole, h.loops, hvotes⟩
  · intro h
    refine ⟨h.elections, h.test, ?_, ?_, h.loops, ?_⟩
    · rw [hself]
      exact h.ticker
    · rw [hself]
      exact h.role
    · rw [hself, hopen]
      exact h.votes

/-- After every run: a server that is killed now is silent in every continuation exactly when it is
settled. -/
theorem killed_silent_iff {n : Nat} {actions : List (Action n)} {σ σ' : Cluster n} {p : Fin n}
    (h : (cluster n).run actions = some σ) (hkill : step σ (.kill p) = some σ') :
    SilentAfter σ' p ↔ Settled σ p := by
  have hrun := run_step h hkill
  obtain rfl := Option.some.inj hkill
  constructor
  · intro hsilent
    exact (settled_kill σ p).mp (settled_of_silent hrun hsilent)
  · intro hsettled
    refine Quiet.silent_after ⟨(settled_kill σ p).mpr hsettled, ?_, ?_⟩
    · simp [Cluster.setServer, kill]
    · exact ticker_started hrun p

/-- Server 1 has voted for server 0 and handled a heartbeat. Killed then, it is silent. -/
theorem killed_silent_follower : ∃ σ σ',
    (cluster 3).run (leaderRound ++ [.getHeartbeat 0]) = some σ ∧
      step σ (.kill 1) = some σ' ∧ SilentAfter σ' 1 := by
  obtain ⟨σ, hrun, helections, hticker, hstate, hloops⟩ := (cluster 3).exists_run_of_check
    (leaderRound ++ [.getHeartbeat 0])
    (fun σ => σ.elections 1 = 0 ∧ σ.tickers 1 = .test ∧ (σ.servers 1).state = .follower ∧
      ∀ loop ∈ σ.loops, loop.server ≠ 1) (by decide)
  refine ⟨σ, _, hrun, rfl, (killed_silent_iff hrun rfl).mpr ?_⟩
  constructor
  · exact helections
  · simp [hticker]
  · intro startWaitTime hsleeping
    rw [hticker] at hsleeping
    cases hsleeping
  · simp [hstate]
  · intro loop hmem hserver
    exact absurd hserver (hloops loop hmem)
  · intro hcandidate
    rw [hstate] at hcandidate
    cases hcandidate

/-- Server 0 is killed as a leader, while its loop pauses after a round. The loop wakes up and goes
through the next round. -/
theorem killed_leader_keeps_sending :
    ¬ ∀ (n : Nat) (actions : List (Action n)) (σ σ' : Cluster n) (p : Fin n),
      (cluster n).run actions = some σ → step σ (.kill p) = some σ' → SilentAfter σ' p := by
  intro hall
  obtain ⟨σ, hrun, hleader⟩ := (cluster 3).exists_run_of_check leaderRound
    (fun σ => (σ.servers 0).state = .leader) (by decide)
  obtain ⟨τ, τ', hτ, hstep, loop, hloop, hserver, hsample⟩ := (cluster 3).exists_step_of_check
    (leaderRound ++ [.kill 0, .advance 100, .sendHeartBeat 0]) (.sendHeartBeat 0)
    (fun τ _ => ∃ loop ∈ τ.loops[0]?, loop.server = 0 ∧ loop.pc = .sample) (by decide)
  have hrest := Machine.run_from_of_append hτ hrun
  obtain ⟨σ', hkill, hrest⟩ := Option.bind_eq_some_iff.mp hrest
  have hsilent := hall 3 leaderRound σ σ' 0 hrun hkill
  exact (hsilent [.advance 100, .sendHeartBeat 0] τ (.sendHeartBeat 0) τ' hrest hstep).round
    0 loop rfl hloop hserver hsample

end DistributedLabs.Raft
