import DistributedLabs.Raft.Heartbeat

/-!
# What the role of a server says about its other fields

A server that is not a follower has voted for itself in a term it has started, and a leader has
counted a majority (`RoleKept`, `role_invariant`). The converse for majorities needs a peer:
`votednumber` is compared with `n / 2` only in the goroutines that wait for the replies of other
servers. With two or more servers no candidate holds a counted majority. A server that is alone
has its majority from the start of its election, and no reply will ever promote it
(`majority_promoted_iff`).
-/

namespace DistributedLabs.Raft

variable {n : Nat} {σ σ' : Cluster n} {action : Action n} {actions : List (Action n)}

/-- What holds of the struct of server `p` in each role. -/
structure RoleKept (p : Fin n) (rf : Server n) : Prop where
  standing : rf.state ≠ .follower → rf.votedFor = some p ∧ 1 ≤ rf.currentTerm
  elected : rf.state = .leader → n / 2 < rf.votednumber

/-- A follower satisfies the role invariant whatever its other fields are. -/
theorem RoleKept.of_follower {p : Fin n} {rf : Server n} (h : rf.state = .follower) :
    RoleKept p rf :=
  ⟨fun hne => absurd h hne, fun hleader => by simp [h] at hleader⟩

/-- The role invariant looks at four fields only. -/
theorem RoleKept.congr {p : Fin n} {rf rf' : Server n} (hkept : RoleKept p rf)
    (hstate : rf'.state = rf.state) (hterm : rf'.currentTerm = rf.currentTerm)
    (hvote : rf'.votedFor = rf.votedFor) (hcount : rf'.votednumber = rf.votednumber) :
    RoleKept p rf' := by
  constructor
  · rw [hstate, hterm, hvote]
    exact hkept.standing
  · rw [hstate, hcount]
    exact hkept.elected

/-- `RequestVote` keeps the role invariant: a server that is standing has its own vote, so within
its term it can grant no other, and in a newer term it becomes a follower. -/
theorem RoleKept.request_vote {p : Fin n} {rf : Server n} (hkept : RoleKept p rf) (now : Nat)
    (args : RequestVoteArgs n) : RoleKept p (requestVote rf now args).1 := by
  rcases request_vote_state rf now args with ⟨hstate, hterm⟩ | ⟨hfollow, _⟩
  · constructor
    · intro hne
      rw [hstate] at hne
      obtain ⟨hvote, hpos⟩ := hkept.standing hne
      exact ⟨request_vote_keeps_vote hvote hterm, hterm ▸ hpos⟩
    · intro hleader
      rw [hstate] at hleader
      rw [request_vote_votednumber]
      exact hkept.elected hleader
  · exact .of_follower hfollow

/-- Counting a vote keeps the role invariant: a new leader was a candidate. -/
theorem RoleKept.count_vote {p : Fin n} {rf : Server n} (hkept : RoleKept p rf) :
    RoleKept p (countVote rf).1 := by
  rcases count_vote_cases rf with heq | ⟨hcand, hmajority, heq⟩
  · rw [heq]
    exact ⟨hkept.standing, fun hleader => Nat.lt_succ_of_lt (hkept.elected hleader)⟩
  · rw [heq]
    exact ⟨fun _ => hkept.standing (by simp [hcand]), fun _ => hmajority⟩

/-- A step keeps the role invariant of every server. -/
theorem RoleKept.of_step {p : Fin n} (hkept : RoleKept p (σ.servers p))
    (h : step σ action = some σ') : RoleKept p (σ'.servers p) := by
  generalize hrf : σ'.servers p = rf
  cases hrf ▸ server_step h p with
  | timer _ _ hstate hterm hvote hcount => exact hkept.congr hstate hterm hvote hcount
  | emitElection => exact ⟨fun _ => ⟨rfl, Nat.le_add_left 1 _⟩, fun hleader => by cases hleader⟩
  | requestVote k call => exact hkept.request_vote σ.now call.args
  | countVote => exact hkept.count_vote
  | getHeartbeat k call =>
      rcases get_heartbeat_cases (σ.servers p) σ.now call.appendentries with ⟨_, heq⟩ | ⟨_, heq⟩
      · rw [heq]
        exact hkept
      · exact .of_follower (by rw [heq])
  | heartbeatReturn =>
      unfold heartbeatReturn
      split
      · exact .of_follower rfl
      · exact hkept

/-- Every server of every reachable state satisfies the role invariant. -/
theorem role_kept (h : (cluster n).run actions = some σ) (p : Fin n) :
    RoleKept p (σ.servers p) := by
  refine Machine.run_induction (motive := fun _ σ => RoleKept p (σ.servers p))
    (.of_follower rfl) ?_ h
  intro actions σ action σ' _ hkept hstep
  exact hkept.of_step hstep

/-- In every reachable state a candidate or a leader has voted for itself and has a positive term,
a leader has counted more than half of the servers, and no step that leaves a server in the leader
role changes its term. -/
theorem role_invariant {n : Nat} {actions : List (Action n)} {σ : Cluster n}
    (h : (cluster n).run actions = some σ) (p : Fin n) :
    ((σ.servers p).state = .candidate ∨ (σ.servers p).state = .leader →
      (σ.servers p).votedFor = some p ∧ 1 ≤ (σ.servers p).currentTerm) ∧
    ((σ.servers p).state = .leader → n / 2 < (σ.servers p).votednumber) ∧
    ∀ action σ', step σ action = some σ' → (σ'.servers p).state = .leader →
      (σ'.servers p).currentTerm = (σ.servers p).currentTerm := by
  have hkept := role_kept h p
  refine ⟨fun hrole => hkept.standing ?_, hkept.elected, ?_⟩
  · intro hfollow
    rw [hfollow] at hrole
    rcases hrole with hrole | hrole <;> cases hrole
  · intro action σ' hstep hleader
    rcases step_leader hstep hleader with ⟨_, hterm⟩ | ⟨_, _, _, _, _, _, _, _, _, _, _, hterm⟩
    · exact hterm
    · exact hterm

/-- After `leaderRound` server 0 is a leader, with its own vote and two votes of three. -/
theorem role_invariant_round : ((cluster 3).run leaderRound).any (fun σ =>
    (σ.servers 0).state = .leader ∧ (σ.servers 0).votedFor = some 0 ∧
      1 ≤ (σ.servers 0).currentTerm ∧ 3 / 2 < (σ.servers 0).votednumber) = true := by
  obtain ⟨σ, h, hleader⟩ := (cluster 3).exists_run_of_check leaderRound
    (fun σ => (σ.servers 0).state = .leader) (by decide)
  obtain ⟨hstanding, helected, _⟩ := role_invariant h 0
  obtain ⟨hvote, hterm⟩ := hstanding (Or.inr hleader)
  simpa only [h, Option.any_some, decide_eq_true_eq] using
    ⟨hleader, hvote, hterm, helected hleader⟩

/-! ## Candidates that hold a majority -/

/-- No candidate has counted a majority. -/
def NoMajorityWaits (σ : Cluster n) : Prop :=
  ∀ p, (σ.servers p).state = .candidate → (σ.servers p).votednumber ≤ n / 2

instance (σ : Cluster n) : Decidable (NoMajorityWaits σ) :=
  inferInstanceAs (Decidable (∀ _, _ → _))

/-- The steps that count votes: the start of an election and the return of a vote call. -/
def CountsVotes : Action n → Prop
  | .emitElection _ | .voteReturn _ _ => True
  | _ => False

/-- After each step of the run that counts votes, a candidate with a majority has been promoted. -/
def MajorityPromoted (actions : List (Action n)) : Prop :=
  (cluster n).Meets
    (fun σ action => ∀ σ', step σ action = some σ' → CountsVotes action → NoMajorityWaits σ')
    actions

/-- A candidate that has just counted a vote has no majority. -/
theorem count_vote_waits {rf : Server n} (h : (countVote rf).1.state = .candidate) :
    (countVote rf).1.votednumber ≤ n / 2 := by
  unfold countVote at h ⊢
  split at h
  · cases h
  · rename_i hshort
    rw [if_neg hshort]
    exact Nat.le_of_not_lt fun hlt => hshort ⟨h, hlt⟩

/-- Among two or more servers, a step leaves no candidate with a majority. -/
theorem NoMajorityWaits.of_step (hpeers : n ≠ 1) (hwaits : NoMajorityWaits σ)
    (h : step σ action = some σ') : NoMajorityWaits σ' := by
  intro p hcand
  have hold := hwaits p
  rcases step_candidate h hcand with ⟨_, heq⟩ | ⟨hwas, _, hsame | ⟨k, call, _, rfl, _⟩⟩
  · -- a new election counts its own vote, which is no majority of two or more
    have hsize := p.isLt
    rw [heq]
    show 1 ≤ n / 2
    omega
  · exact hsame.trans_le (hold hwas)
  · generalize hrf : σ'.servers p = rf at hcand ⊢
    cases hrf ▸ server_step h p with
    | timer _ _ _ _ _ hcount => exact hcount.trans_le (hold hwas)
    | countVote => exact count_vote_waits hcand

/-- Among two or more servers, no reachable state has a candidate with a majority. -/
theorem no_majority_waits (hpeers : n ≠ 1) (h : (cluster n).run actions = some σ) :
    NoMajorityWaits σ := by
  refine Machine.run_induction (motive := fun _ σ => NoMajorityWaits σ) ?_ ?_ h
  · intro p hcand
    simp [cluster, initial, make] at hcand
  · intro actions σ action σ' _ hwaits hstep
    exact hwaits.of_step hpeers hstep

/-- The only server of a cluster starts an election. -/
def loneElection : List (Action 1) :=
  [.tickerTest 0, .tickerStart 0, .advance 300, .tickerWake 0, .emitElection 0]

/-- After `loneElection` the server is a candidate that holds one vote of one. -/
theorem lone_election_not_promoted : ¬ MajorityPromoted loneElection := by
  intro hpromoted
  obtain ⟨σ, σ', h, hstep, hwaits⟩ := (cluster 1).exists_step_of_check loneElection.dropLast
    (.emitElection 0) (fun _ σ' => ¬ NoMajorityWaits σ') (by decide)
  exact hwaits (hpromoted _ (.emitElection 0) [] σ rfl h σ' hstep trivial)

/-- Every run of an `n`-server cluster promotes its candidates as soon as they hold a majority,
exactly when the cluster does not consist of one server. -/
theorem majority_promoted_iff (n : Nat) :
    (∀ actions : List (Action n), MajorityPromoted actions) ↔ n ≠ 1 := by
  constructor
  · rintro hall rfl
    exact lone_election_not_promoted (hall loneElection)
  · intro hpeers actions before action after σ _ hrun σ' hstep _
    exact (no_majority_waits hpeers hrun).of_step hpeers hstep

/-- The only server of a cluster wins its election and never learns of it. -/
theorem lone_candidate_not_promoted :
    ¬ ∀ (n : Nat) (actions : List (Action n)), 1 ≤ n → MajorityPromoted actions := by
  intro hall
  exact lone_election_not_promoted (hall 1 loneElection le_rfl)

end DistributedLabs.Raft
