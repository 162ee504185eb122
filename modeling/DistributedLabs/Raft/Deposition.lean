import DistributedLabs.Raft.ElectionSafety
import DistributedLabs.Raft.Heartbeat

/-!
# What ends a leadership

A leadership should end only by an RPC of a newer term. Two steps end it otherwise. The ticker
decides under the lock to start an election, but `emitElection` takes the lock later and does not
look at the role again, so it also runs at a server that has won in the meantime. And
`GetHeartbeat` makes a follower of a server of the same term. `deposed_by_newer_term_iff` says
that a run is free of other depositions exactly when it is free of these two steps, and that the
second one does not occur when votes are counted in their own term and loops sample as leaders:
it needs a second server with a heartbeat of the leader's term.
-/

namespace DistributedLabs.Raft

variable {n : Nat} {σ σ' : Cluster n} {action : Action n} {actions : List (Action n)}

/-- The term of the RPC request or reply that a step makes server `p` process. -/
def carried (σ : Cluster n) (p : Fin n) : Action n → Option Nat
  | .requestVote k => do
      let call ← σ.voteCalls[k]?
      if call.server = p then some call.args.term else none
  | .voteReturn k true => do
      let call ← σ.voteCalls[k]?
      if call.caller = p then call.reply.map (·.term) else none
  | .getHeartbeat k => do
      let call ← σ.heartbeatCalls[k]?
      if call.server = p then some call.appendentries.term else none
  | .heartbeatReturn k true => do
      let call ← σ.heartbeatCalls[k]?
      if call.caller = p then call.reply.map (·.term) else none
  | _ => none

/-- A step that takes a leader out of its role processes an RPC of a strictly newer term. -/
def DeposesByNewerTerm (σ : Cluster n) (action : Action n) : Prop :=
  ∀ σ' p, step σ action = some σ' → (σ.servers p).state = .leader →
    (σ'.servers p).state ≠ .leader →
    ∃ term, carried σ p action = some term ∧ (σ.servers p).currentTerm < term

/-- `emitElection` does not take the lock at a leader. -/
def ElectsOnlyOthers (σ : Cluster n) : Action n → Prop
  | .emitElection s => (σ.servers s).state ≠ .leader
  | _ => True

/-- No heartbeat of its own term reaches a leader. -/
def NoRivalHeartbeat (σ : Cluster n) : Action n → Prop
  | .getHeartbeat k => ∀ call ∈ σ.heartbeatCalls[k]?,
      (σ.servers call.server).state = .leader →
      call.appendentries.term ≠ (σ.servers call.server).currentTerm
  | _ => True

instance (σ : Cluster n) : (action : Action n) → Decidable (ElectsOnlyOthers σ action)
  | .emitElection s => inferInstanceAs (Decidable ((σ.servers s).state ≠ .leader))
  | .advance _ | .tickerTest _ | .tickerStart _ | .tickerWake _ | .requestVote _ | .voteReturn _ _
  | .sendHeartBeat _ | .getHeartbeat _ | .heartbeatReturn _ _ | .kill _ =>
      inferInstanceAs (Decidable True)

instance (σ : Cluster n) : (action : Action n) → Decidable (NoRivalHeartbeat σ action)
  | .getHeartbeat k => inferInstanceAs (Decidable (∀ call ∈ σ.heartbeatCalls[k]?, _ → _))
  | .advance _ | .tickerTest _ | .tickerStart _ | .tickerWake _ | .emitElection _ | .requestVote _
  | .voteReturn _ _ | .sendHeartBeat _ | .heartbeatReturn _ _ | .kill _ =>
      inferInstanceAs (Decidable True)

/-- The steps that end a leadership, and the term that they carry. -/
theorem deposition_cases (h : step σ action = some σ') {p : Fin n}
    (hbefore : (σ.servers p).state = .leader) (hafter : (σ'.servers p).state ≠ .leader) :
    action = .emitElection p ∨
    (∃ k call, action = .getHeartbeat k ∧ σ.heartbeatCalls[k]? = some call ∧ call.server = p ∧
      (σ.servers p).currentTerm ≤ call.appendentries.term) ∨
    ∃ term, carried σ p action = some term ∧ (σ.servers p).currentTerm < term := by
  generalize hrf : σ'.servers p = rf at hafter
  cases hrf ▸ server_step h p with
  | timer _ _ heq => exact absurd (heq.trans hbefore) hafter
  | emitElection => exact Or.inl rfl
  | requestVote k call hcall hreply hserver =>
      rcases request_vote_state (σ.servers p) σ.now call.args with ⟨heq, _⟩ | ⟨_, hlt⟩
      · exact absurd (heq.trans hbefore) hafter
      · exact Or.inr (Or.inr ⟨call.args.term, by simp [carried, hcall, hserver], hlt⟩)
  | countVote k call reply hcall hreturned hreply hgranted hcaller =>
      rcases count_vote_cases (σ.servers p) with heq | ⟨hcand, _⟩
      · simp [heq, hbefore] at hafter
      · simp [hbefore] at hcand
  | getHeartbeat k call hcall hreply hserver =>
      rcases get_heartbeat_cases (σ.servers p) σ.now call.appendentries with ⟨_, heq⟩ | ⟨hle, _⟩
      · simp [heq, hbefore] at hafter
      · exact Or.inr (Or.inl ⟨k, call, rfl, hcall, hserver, hle⟩)
  | heartbeatReturn k ok call reply hcall hreply hcaller =>
      unfold heartbeatReturn at hafter
      split at hafter
      · rename_i hlt
        rcases hreply with ⟨rfl, hreply⟩ | ⟨rfl, rfl⟩
        · exact Or.inr (Or.inr ⟨reply.term, by simp [carried, hcall, hcaller, hreply], hlt⟩)
        · simp at hlt
      · simp [hbefore] at hafter

/-- One step deposes only by a newer term exactly when it is neither of the two bad steps. -/
theorem deposes_by_newer_term_iff (h : step σ action = some σ') :
    DeposesByNewerTerm σ action ↔ ElectsOnlyOthers σ action ∧ NoRivalHeartbeat σ action := by
  constructor
  · intro hdeposes
    cases step_inversion h with
    | emitElection s hspawned =>
        refine ⟨fun hleader => ?_, trivial⟩
        obtain ⟨term, hcarried, _⟩ := hdeposes _ s h hleader
          (by simp [Cluster.setServer, emitElection])
        simp [carried] at hcarried
    | getHeartbeat k call hcall hreply =>
        refine ⟨trivial, fun other hother hleader hterm => ?_⟩
        obtain rfl := Option.some.inj (hcall.symm.trans hother)
        have hfollow : (getHeartbeat (σ.servers call.server) σ.now call.appendentries).1.state =
            .follower := by
          rcases get_heartbeat_cases (σ.servers call.server) σ.now call.appendentries with
            ⟨hlt, _⟩ | ⟨_, heq⟩
          · omega
          · rw [heq]
        obtain ⟨term, hcarried, hlt⟩ := hdeposes _ call.server h hleader
          (by simp [Cluster.setServer, hfollow])
        simp only [carried, hcall, bind, Option.bind_some, if_true, Option.some.injEq] at hcarried
        omega
    | _ => exact ⟨trivial, trivial⟩
  · rintro ⟨helects, hrival⟩ next p hstep hbefore hafter
    rcases deposition_cases hstep hbefore hafter with
      rfl | ⟨k, call, rfl, hcall, rfl, hle⟩ | hnewer
    · exact absurd hbefore helects
    · have hne := hrival call hcall hbefore
      exact ⟨call.appendentries.term, by simp [carried, hcall], by omega⟩
    · exact hnewer

/-- When votes are counted in their own term and loops sample as leaders, no heartbeat of its own
term reaches a leader: its sender would be a second leader of that term. -/
theorem no_rival_heartbeat (hvotes : (cluster n).Meets CountsOwnTerm actions)
    (hsamples : (cluster n).Meets SamplesAsLeader actions) :
    (cluster n).Meets NoRivalHeartbeat actions := by
  intro before action after σ heq hrun
  have hbefore : before <+: actions := ⟨action :: after, heq.symm⟩
  cases action with
  | getHeartbeat k =>
      intro call hcall hleader hterm
      obtain ⟨⟨_, hentered⟩, hne⟩ :=
        (heartbeats_authentic (hsamples.of_initial hbefore) hrun).calls call
          (List.mem_of_getElem? hcall)
      obtain ⟨first, σ₁, hfirst, h₁, hwas, hsame⟩ := hentered.was_leader
      have hsender := leader_unique_of_initial (hvotes.of_initial hbefore) hfirst h₁ hrun hwas
        hleader (hsame.trans hterm)
      exact hne hsender.symm
  | _ => trivial

/-- A run deposes leaders only by newer terms exactly when no `emitElection` takes the lock at a
leader and no heartbeat of its own term reaches a leader; the latter cannot happen when votes are
counted in their own term and heartbeat loops sample the term as leaders. -/
theorem deposed_by_newer_term_iff {n : Nat} {actions : List (Action n)} {σ : Cluster n}
    (h : (cluster n).run actions = some σ) :
    ((cluster n).Meets DeposesByNewerTerm actions ↔
      (cluster n).Meets ElectsOnlyOthers actions ∧ (cluster n).Meets NoRivalHeartbeat actions) ∧
    ((cluster n).Meets CountsOwnTerm actions → (cluster n).Meets SamplesAsLeader actions →
      (cluster n).Meets NoRivalHeartbeat actions) := by
  refine ⟨?_, no_rival_heartbeat⟩
  have hiff : ∀ before action after τ, actions = before ++ action :: after →
      (cluster n).run before = some τ →
      (DeposesByNewerTerm τ action ↔ ElectsOnlyOthers τ action ∧ NoRivalHeartbeat τ action) := by
    intro before action after τ heq hrun
    subst heq
    obtain ⟨next, hstep, _⟩ := Machine.step_of_run h hrun
    exact deposes_by_newer_term_iff hstep
  constructor
  · intro hdeposes
    exact ⟨fun before action after τ heq hrun =>
        ((hiff before action after τ heq hrun).mp (hdeposes before action after τ heq hrun)).1,
      fun before action after τ heq hrun =>
        ((hiff before action after τ heq hrun).mp (hdeposes before action after τ heq hrun)).2⟩
  · rintro ⟨helects, hrival⟩ before action after τ heq hrun
    exact (hiff before action after τ heq hrun).mpr
      ⟨helects before action after τ heq hrun, hrival before action after τ heq hrun⟩

/-- In `deposedRound` server 0 loses its leadership of term 1 to a vote request of term 2. -/
theorem deposed_by_newer_term_round : (cluster 3).Meets DeposesByNewerTerm deposedRound := by
  obtain ⟨σ, h⟩ := Option.isSome_iff_exists.mp
    (show ((cluster 3).run deposedRound).isSome = true by decide)
  exact (deposed_by_newer_term_iff h).1.mpr
    ⟨Machine.meets_of_check (by decide), Machine.meets_of_check (by decide)⟩

/-- The ticker of server 0 spawns a second `emitElection` while the server is a candidate of
term 1. Before that goroutine takes the lock, the vote of server 1 arrives. -/
def lateElection : List (Action 3) :=
  [.tickerTest peer0, .tickerStart peer0, .advance 300, .tickerWake peer0, .emitElection peer0,
    .requestVote 0, .tickerTest peer0, .tickerStart peer0, .advance 300, .tickerWake peer0,
    .voteReturn 0 true]

/-- After `lateElection` server 0 is the leader of term 1, and the second `emitElection` ends its
leadership without any RPC. -/
theorem late_election_deposes :
    ¬ ∀ (n : Nat) (actions : List (Action n)), (cluster n).Meets DeposesByNewerTerm actions := by
  intro hall
  obtain ⟨σ, σ', h, hstep, hbefore, hafter⟩ := (cluster 3).exists_step_of_check lateElection
    (.emitElection 0)
    (fun σ σ' => (σ.servers 0).state = .leader ∧ (σ'.servers 0).state ≠ .leader) (by decide)
  obtain ⟨term, hcarried, _⟩ :=
    hall 3 _ lateElection (.emitElection 0) [] σ rfl h σ' 0 hstep hbefore hafter
  cases hcarried

end DistributedLabs.Raft
