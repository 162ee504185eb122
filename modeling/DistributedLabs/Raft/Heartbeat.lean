import DistributedLabs.Raft.Transition

/-!
# Heartbeats come from elected leaders

`sendHeartBeat` samples the term under the lock but tests the role only after the first send of
the round. A leader that is deposed while its loop sleeps therefore sends one heartbeat of the
term that deposed it, in which it was never elected (`deposed_leader_sends_heartbeat`). Along runs
whose loops sample only while their server is a leader, every heartbeat carries a term in which
its sender had entered the leader role (`heartbeats_from_leaders`).
-/

namespace DistributedLabs.Raft

variable {n : Nat} {σ σ' : Cluster n} {action : Action n} {actions : List (Action n)}

/-- A step of the run has made `l` a leader, in the given term. -/
def EnteredLeader (actions : List (Action n)) (l : Fin n) (term : Nat) : Prop :=
  ∃ before action after σ σ', actions = before ++ action :: after ∧
    (cluster n).run before = some σ ∧ step σ action = some σ' ∧
    (σ.servers l).state ≠ .leader ∧ (σ'.servers l).state = .leader ∧
    (σ'.servers l).currentTerm = term

/-- Every heartbeat sent up to any point of the run names its sender as the leader, and the sender
had entered the leader role in the term of the heartbeat. -/
def HeartbeatsFromLeaders (actions : List (Action n)) : Prop :=
  ∀ first σ, first <+: actions → (cluster n).run first = some σ →
    ∀ call ∈ σ.heartbeatCalls, call.appendentries.leaderID = call.caller ∧
      EnteredLeader first call.caller call.appendentries.term

/-- A heartbeat loop that samples the term does so while its server is a leader. -/
def SamplesAsLeader (σ : Cluster n) : Action n → Prop
  | .sendHeartBeat k => ∀ loop ∈ σ.loops[k]?, loop.pc = .sample →
      (σ.servers loop.server).state = .leader
  | _ => True

instance (σ : Cluster n) : (action : Action n) → Decidable (SamplesAsLeader σ action)
  | .sendHeartBeat k => inferInstanceAs (Decidable (∀ loop ∈ σ.loops[k]?, _ → _))
  | .advance _ | .tickerTest _ | .tickerStart _ | .tickerWake _ | .emitElection _ | .requestVote _
  | .voteReturn _ _ | .getHeartbeat _ | .heartbeatReturn _ _ | .kill _ =>
      inferInstanceAs (Decidable True)

/-- What happened in a run has happened in every continuation. -/
theorem EnteredLeader.of_initial {first : List (Action n)} {l : Fin n} {term : Nat}
    (h : EnteredLeader first l term) (hfirst : first <+: actions) :
    EnteredLeader actions l term := by
  obtain ⟨second, rfl⟩ := hfirst
  obtain ⟨before, action, after, σ, σ', rfl, hrun⟩ := h
  exact ⟨before, action, after ++ second, σ, σ', by simp, hrun⟩

/-- A server that has entered the leader role was a leader of that term in a state of the run. -/
theorem EnteredLeader.was_leader {l : Fin n} {term : Nat} (h : EnteredLeader actions l term) :
    ∃ first σ, first <+: actions ∧ (cluster n).run first = some σ ∧
      (σ.servers l).state = .leader ∧ (σ.servers l).currentTerm = term := by
  obtain ⟨before, action, after, σ, σ', rfl, hrun, hstep, _, hleader, hterm⟩ := h
  exact ⟨before ++ [action], σ', ⟨after, by simp⟩,
    Machine.run_concat_iff.mpr ⟨σ, hrun, hstep⟩, hleader, hterm⟩

/-- Every leader has entered the leader role in its current term. -/
theorem leader_entered (h : (cluster n).run actions = some σ) :
    ∀ p, (σ.servers p).state = .leader → EnteredLeader actions p (σ.servers p).currentTerm := by
  refine Machine.run_induction (motive := fun actions σ => ∀ p,
    (σ.servers p).state = .leader → EnteredLeader actions p (σ.servers p).currentTerm) ?_ ?_ h
  · intro p hstate
    simp [cluster, initial, make] at hstate
  · intro actions σ action σ' hrun ih hstep p hstate
    by_cases hbefore : (σ.servers p).state = .leader
    · rcases step_leader hstep hstate with ⟨_, hterm⟩ | ⟨_, _, _, _, _, _, _, _, _, hcand, _⟩
      · rw [hterm]
        exact (ih p hbefore).of_initial (List.prefix_append _ _)
      · simp [hbefore] at hcand
    · exact ⟨actions, action, [], σ, σ', rfl, hrun, hstep, hbefore, hstate, rfl⟩

/-- The entries of a heartbeat name the server that sends them, which has been elected in their
term. -/
def Authentic (actions : List (Action n)) (sender : Fin n) (appendentries : AppendEntries n) :
    Prop :=
  appendentries.leaderID = sender ∧ EnteredLeader actions sender appendentries.term

/-- The entries carried by the loops and by the calls are authentic, and no server sends to
itself. -/
structure HeartbeatsAuthentic (actions : List (Action n)) (σ : Cluster n) : Prop where
  loops : ∀ loop ∈ σ.loops, ∀ appendentries, loop.pc.entries = some appendentries →
    Authentic actions loop.server appendentries
  calls : ∀ call ∈ σ.heartbeatCalls, Authentic actions call.caller call.appendentries ∧
    call.server ≠ call.caller

/-- A step whose samples are taken by a leader keeps the heartbeats authentic. -/
theorem HeartbeatsAuthentic.of_step (hrun : (cluster n).run actions = some σ)
    (hauth : HeartbeatsAuthentic actions σ) (hguard : SamplesAsLeader σ action)
    (h : step σ action = some σ') : HeartbeatsAuthentic (actions ++ [action]) σ' := by
  have hgrow : ∀ sender appendentries, Authentic actions sender appendentries →
      Authentic (actions ++ [action]) sender appendentries :=
    fun _ _ hold => ⟨hold.1, hold.2.of_initial (List.prefix_append _ _)⟩
  constructor
  · intro loop hloop appendentries hentries
    rcases mem_loops_step h hloop with hold | hnew | ⟨k, old, calls, rfl, hget, hserver, hnext⟩
    · exact hgrow _ _ (hauth.loops loop hold appendentries hentries)
    · simp [hnew, LoopPc.entries] at hentries
    · rw [hserver]
      rcases send_heart_beat_entries hnext hentries with hcarried | ⟨hsample, rfl⟩
      · exact hgrow _ _ (hauth.loops old (List.mem_of_getElem? hget) appendentries hcarried)
      · -- the guard: the term is sampled while the server is a leader
        exact hgrow _ _ ⟨rfl, leader_entered hrun _ (hguard old hget hsample)⟩
  · intro call hcall
    rcases mem_heartbeat_calls_step h hcall with
      ⟨old, hold, hcaller, hserver, hentries⟩ | ⟨k, loop, rfl, hloop, hentries, hcaller, hserver⟩
    · obtain ⟨hold, hne⟩ := hauth.calls old hold
      rw [← hcaller, ← hserver, ← hentries]
      exact ⟨hgrow _ _ hold, hne⟩
    · rw [hcaller]
      exact ⟨hgrow _ _ (hauth.loops loop (List.mem_of_getElem? hloop) _ hentries), hserver⟩

/-- Along a run whose loops sample as leaders, the heartbeats are authentic. -/
theorem heartbeats_authentic (hmeets : (cluster n).Meets SamplesAsLeader actions)
    (h : (cluster n).run actions = some σ) : HeartbeatsAuthentic actions σ := by
  refine Machine.run_induction_of_meets (motive := HeartbeatsAuthentic) ?_ ?_ hmeets h
  · exact ⟨fun _ hloop => by simp [cluster, initial] at hloop,
      fun _ hcall => by simp [cluster, initial] at hcall⟩
  · intro actions σ action σ' hrun hauth hguard hstep
    exact hauth.of_step hrun hguard hstep

/-- In a run whose heartbeat loops sample the term only while their server is a leader, every
heartbeat is sent by a server that had entered the leader role in the term it carries. -/
theorem heartbeats_from_leaders {n : Nat} {actions : List (Action n)}
    (hmeets : (cluster n).Meets SamplesAsLeader actions) : HeartbeatsFromLeaders actions := by
  intro first σ hfirst h call hcall
  exact ((heartbeats_authentic (hmeets.of_initial hfirst) h).calls call hcall).1

/-- Server 0 of three is elected in term 1 while server 2 stands as well, and completes one round
of heartbeats. -/
def leaderRound : List (Action 3) :=
  [.tickerTest peer0, .tickerStart peer0, .tickerTest peer2, .tickerStart peer2, .advance 300,
    .tickerWake peer0, .tickerWake peer2, .emitElection peer0, .emitElection peer2, .requestVote 0,
    .voteReturn 0 true, .sendHeartBeat 0, .sendHeartBeat 0, .sendHeartBeat 0, .sendHeartBeat 0,
    .sendHeartBeat 0, .sendHeartBeat 0, .sendHeartBeat 0, .sendHeartBeat 0]

/-- The condition holds along `leaderRound`, in which two heartbeats are sent. -/
theorem heartbeats_from_leaders_round : HeartbeatsFromLeaders leaderRound ∧
    ((cluster 3).run leaderRound).any (fun σ => σ.heartbeatCalls.length = 2) = true :=
  ⟨heartbeats_from_leaders (Machine.meets_of_check (by decide)), by decide⟩

/-- After its round of heartbeats server 0 votes for server 2 in term 2. Its loop wakes up, samples
term 2, and sends a heartbeat of that term to server 1. -/
def deposedRound : List (Action 3) :=
  leaderRound ++ [.tickerTest peer2, .tickerStart peer2, .advance 300, .tickerWake peer2,
    .emitElection peer2, .requestVote 4, .sendHeartBeat 0, .sendHeartBeat 0, .sendHeartBeat 0,
    .sendHeartBeat 0]

/-- The last heartbeat of `deposedRound` carries term 2 and names server 0, which is not a leader
of term 2 at any point of the run. -/
theorem deposed_leader_sends_heartbeat :
    ¬ ∀ (n : Nat) (actions : List (Action n)), HeartbeatsFromLeaders actions := by
  intro hfrom
  obtain ⟨σ, h, call, hcall, hcaller, hterm⟩ := (cluster 3).exists_run_of_check deposedRound
    (fun σ => ∃ call ∈ σ.heartbeatCalls, call.caller = 0 ∧ call.appendentries.term = 2) (by decide)
  have hnever : ∀ first ∈ deposedRound.inits, ((cluster 3).run first).all (fun σ =>
      ¬ ((σ.servers 0).state = .leader ∧ (σ.servers 0).currentTerm = 2)) = true := by decide
  obtain ⟨_, hentered⟩ := hfrom 3 deposedRound deposedRound σ List.prefix_rfl h call hcall
  rw [hcaller, hterm] at hentered
  obtain ⟨first, σ₁, hfirst, h₁, hleader⟩ := hentered.was_leader
  have hnot := hnever first (List.mem_inits first deposedRound |>.mpr hfirst)
  simp only [h₁, Option.all_some, decide_eq_true_eq] at hnot
  exact hnot hleader

end DistributedLabs.Raft
