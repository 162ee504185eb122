import DistributedLabs.Raft.Election

/-!
# At most one leader per term, and no leader without a quorum

The two properties of elections over whole runs. `ElectionSafety` compares any two states of one
run, and `QuorumBacked` looks at every step that makes a server a leader. Both hold along runs that
count only own votes, and `splitVotes` continued by the two replies breaks both.
-/

namespace DistributedLabs.Raft

variable {n : Nat} {σ : Cluster n} {actions : List (Action n)}

/-! ## Election safety -/

/-- No two states of the run, in either order, have different leaders of the same term. -/
def ElectionSafety (actions : List (Action n)) : Prop :=
  ∀ first second σ₁ σ₂ p q, first <+: actions → second <+: actions →
    (cluster n).run first = some σ₁ → (cluster n).run second = some σ₂ →
    (σ₁.servers p).state = .leader → (σ₂.servers q).state = .leader →
    (σ₁.servers p).currentTerm = (σ₂.servers q).currentTerm → p = q

/-- Two majorities of votes of one term share a voter, so they are for the same candidate. -/
theorem candidate_unique {history : List (Vote n)} (huniq : VotesUnique history) {p q : Fin n}
    {term : Nat} (hp : n / 2 < (voters history p term).card)
    (hq : n / 2 < (voters history q term).card) : p = q := by
  have hcard : (Finset.univ : Finset (Fin n)).card <
      (voters history p term).card + (voters history q term).card := by
    rw [Finset.card_univ, Fintype.card_fin]
    omega
  obtain ⟨voter, hvoter⟩ := Finset.inter_nonempty_of_card_lt_card_add_card
    (Finset.subset_univ _) (Finset.subset_univ _) hcard
  obtain ⟨hvp, hvq⟩ := Finset.mem_inter.mp hvoter
  exact huniq _ (mem_voters.mp hvp) _ (mem_voters.mp hvq) rfl rfl

/-- A leader of an earlier state and a leader of a later state of the same term are the same
server. -/
theorem leader_unique_of_initial {first second : List (Action n)} {σ₁ σ₂ : Cluster n} {p q : Fin n}
    (hmeets : (cluster n).Meets CountsOwnTerm second) (hfirst : first <+: second)
    (h₁ : (cluster n).run first = some σ₁) (h₂ : (cluster n).run second = some σ₂)
    (hp : (σ₁.servers p).state = .leader) (hq : (σ₂.servers q).state = .leader)
    (hterm : (σ₁.servers p).currentTerm = (σ₂.servers q).currentTerm) : p = q := by
  have hearly := (backed_of_meets (hmeets.of_initial hfirst) h₁).leader p hp
  have hlate := (backed_of_meets hmeets h₂).leader q hq
  have hgrow := voters_subset (votes_of_initial hfirst h₁).subset p
    (σ₁.servers p).currentTerm
  rw [hterm] at hearly hgrow
  exact candidate_unique (votes_invariant h₂).2
    (hearly.trans_le (Finset.card_le_card hgrow)) hlate

/-- A run in which every granted reply that reaches a candidate belongs to the candidate's own
term has at most one leader per term. -/
theorem leader_unique {n : Nat} {actions : List (Action n)}
    (hmeets : (cluster n).Meets CountsOwnTerm actions) : ElectionSafety actions := by
  intro first second σ₁ σ₂ p q hfirst hsecond h₁ h₂ hp hq hterm
  rcases List.prefix_or_prefix_of_prefix hfirst hsecond with hle | hle
  · exact leader_unique_of_initial (hmeets.of_initial hsecond) hle h₁ h₂ hp hq hterm
  · exact (leader_unique_of_initial (hmeets.of_initial hfirst) hle h₂ h₁ hq hp hterm.symm).symm

/-- Server 0 of three is elected in term 1 with the vote of server 1. -/
def plainElection : List (Action 3) :=
  [.tickerTest peer0, .tickerStart peer0, .advance 300, .tickerWake peer0, .emitElection peer0,
    .requestVote 0, .voteReturn 0 true]

/-- The condition of `leader_unique` holds along `plainElection`, which does elect a leader. -/
theorem leader_unique_plain : ElectionSafety plainElection ∧
    ((cluster 3).run plainElection).any (fun σ => (σ.servers 0).state = .leader) = true :=
  ⟨leader_unique (Machine.meets_of_check (by decide)), by decide⟩

/-- In the run `splitVotes` the vote that server 1 gave to server 0 in term 1 arrives only after
server 0 has started term 2, and there makes it a leader; server 1 has voted for server 2 in
term 2, which becomes the second leader of that term. -/
theorem stale_votes_elect_two_leaders :
    ¬ ∀ (n : Nat) (actions : List (Action n)), ElectionSafety actions := by
  intro hsafe
  obtain ⟨σ, h, hleaders⟩ := (cluster 3).exists_run_of_check
    (splitVotes ++ [.voteReturn 0 true, .voteReturn 7 true])
    (fun σ => (σ.servers 0).state = .leader ∧ (σ.servers 2).state = .leader ∧
      (σ.servers 0).currentTerm = (σ.servers 2).currentTerm) (by decide)
  have heq := hsafe 3 _ _ _ σ σ 0 2 (List.prefix_rfl) (List.prefix_rfl) h h hleaders.1
    hleaders.2.1 hleaders.2.2
  exact absurd heq (by decide)

/-! ## Quorums -/

/-- Whenever a step makes `p` a leader, more than half of the servers have voted for it in the
term that it then leads. -/
def QuorumBacked (actions : List (Action n)) : Prop :=
  ∀ before action after σ σ' p, actions = before ++ action :: after →
    (cluster n).run before = some σ → step σ action = some σ' →
    (σ.servers p).state ≠ .leader → (σ'.servers p).state = .leader →
    n / 2 < (voters (votes (before ++ [action])) p (σ'.servers p).currentTerm).card

/-- The sender and the receiver of the message that a step delivers. -/
def delivered (σ : Cluster n) : Action n → Option (Fin n × Fin n)
  | .requestVote k => σ.voteCalls[k]?.map fun call => (call.caller, call.server)
  | .voteReturn k true => σ.voteCalls[k]?.map fun call => (call.server, call.caller)
  | .getHeartbeat k => σ.heartbeatCalls[k]?.map fun call => (call.caller, call.server)
  | .heartbeatReturn k true => σ.heartbeatCalls[k]?.map fun call => (call.server, call.caller)
  | _ => none

/-- From `start` on no message passes between `p` and the servers of `others`. -/
def CutOff (start : Cluster n) (actions : List (Action n)) (p : Fin n) (others : Finset (Fin n)) :
    Prop :=
  ∀ before action after σ, actions = before ++ action :: after →
    (cluster n).runFrom start before = some σ →
    ∀ q ∈ others, delivered σ action ≠ some (p, q) ∧ delivered σ action ≠ some (q, p)

/-- A server that has been cut off from a majority since before it entered a term is not a leader
of that term while it stays cut off. -/
def CutOffNotElected (actions : List (Action n)) : Prop :=
  ∀ first second start p others term, first ++ second <+: actions →
    (cluster n).run first = some start → (start.servers p).currentTerm < term →
    p ∉ others → n < 2 * others.card → CutOff start second p others →
    ∀ σ, (cluster n).runFrom start second = some σ →
      ¬ ((σ.servers p).state = .leader ∧ (σ.servers p).currentTerm = term)

/-- While `p` is cut off from a server, it gets no vote from it in a term that it enters later. -/
theorem no_vote_when_cut_off {first second : List (Action n)} {start : Cluster n} {p q : Fin n}
    {others : Finset (Fin n)} {term : Nat} (hfirst : (cluster n).run first = some start)
    (hterm : (start.servers p).currentTerm < term) (hp : p ∉ others) (hq : q ∈ others)
    (hcut : CutOff start second p others) (h : (cluster n).runFrom start second = some σ) :
    ⟨q, term, p⟩ ∉ votes (first ++ second) := by
  induction second using List.reverseRecOn generalizing σ with
  | nil =>
      intro hvote
      rw [List.append_nil] at hvote
      have hle := votes_term_le hfirst _ hvote
      exact absurd hterm (Nat.not_lt.mpr hle)
  | append_singleton second action ih =>
      have hrun := Machine.run_append_iff.mpr ⟨start, hfirst, h⟩
      rw [← List.append_assoc] at hrun ⊢
      obtain ⟨middle, hmiddle, hstep⟩ := Machine.run_concat_iff.mp hrun
      have hsecond := Machine.run_from_of_append hmiddle hfirst
      have hnew := hcut second action [] middle rfl hsecond q hq
      rw [votes, Machine.observe_concat hmiddle hstep, List.mem_append, not_or]
      refine ⟨ih ?_ hsecond, ?_⟩
      · intro before other after σ heq
        exact hcut before other (after ++ [action]) σ (by simp [heq])
      · intro hvote
        cases step_inversion hstep with
        | emitElection s hspawned =>
            obtain heq := List.mem_singleton.mp hvote
            simp only [Vote.mk.injEq] at heq
            obtain ⟨rfl, -, rfl⟩ := heq
            exact hp hq
        | requestVote k call hcall hreply =>
            simp only [votesCast, hcall] at hvote
            split at hvote
            · obtain heq := List.mem_singleton.mp hvote
              simp only [Vote.mk.injEq] at heq
              obtain ⟨rfl, -, rfl⟩ := heq
              have hcand := (calls_recorded hmiddle).wellFormed call (List.mem_of_getElem? hcall)
              exact hnew.1 (by simp [delivered, hcall, hcand.1])
            · simp at hvote
        | _ => simp [votesCast] at hvote

/-- A run in which every granted reply that reaches a candidate belongs to the candidate's own
term has no leader without a quorum of votes of its own term, and none that is cut off from a
majority. -/
theorem quorum_of_own_term_votes {n : Nat} {actions : List (Action n)}
    (hmeets : (cluster n).Meets CountsOwnTerm actions) :
    QuorumBacked actions ∧ CutOffNotElected actions := by
  constructor
  · intro before action after σ σ' p heq hrun hstep _ hleader
    have hnext := Machine.run_concat_iff.mpr ⟨σ, hrun, hstep⟩
    have hinitial : before ++ [action] <+: actions := ⟨after, by simp [heq]⟩
    exact (backed_of_meets (hmeets.of_initial hinitial) hnext).leader p hleader
  · rintro first second start p others term hinitial hfirst hterm hp hmajority hcut σ h
      ⟨hleader, rfl⟩
    have hrun := Machine.run_append_iff.mpr ⟨start, hfirst, h⟩
    have hquorum := (backed_of_meets (hmeets.of_initial hinitial) hrun).leader p hleader
    have hdisjoint : voters (votes (first ++ second)) p (σ.servers p).currentTerm ⊆ othersᶜ := by
      intro q hvote
      rw [Finset.mem_compl]
      intro hq
      exact no_vote_when_cut_off hfirst hterm hp hq hcut h (mem_voters.mp hvote)
    have hcard := Finset.card_le_card hdisjoint
    rw [Finset.card_compl, Fintype.card_fin] at hcard
    omega

/-- `plainElection` meets the condition of `quorum_of_own_term_votes`. -/
theorem quorum_of_own_term_votes_plain :
    QuorumBacked plainElection ∧ CutOffNotElected plainElection :=
  quorum_of_own_term_votes (Machine.meets_of_check (by decide))

/-- The stale vote makes server 0 a leader of term 2, in which it has only its own vote. -/
theorem stale_vote_elects_without_quorum :
    ¬ ∀ (n : Nat) (actions : List (Action n)),
      QuorumBacked actions ∧ CutOffNotElected actions := by
  intro hbacked
  obtain ⟨σ, σ', h, hstep, hbefore, hafter⟩ := (cluster 3).exists_step_of_check splitVotes
    (.voteReturn 0 true) (fun σ σ' => (σ.servers 0).state ≠ .leader ∧
      (σ'.servers 0).state = .leader ∧ (σ'.servers 0).currentTerm = 2) (by decide)
  have hquorum := (hbacked 3 _).1 splitVotes (.voteReturn 0 true) [] σ σ' 0 rfl h hstep hbefore
    hafter.1
  rw [hafter.2] at hquorum
  exact absurd hquorum (by decide)

end DistributedLabs.Raft
