import DistributedLabs.Raft.Transition

/-!
# One vote per server and term

`votes` is the history of every vote given along a run: the self-votes of `emitElection` and the
granted replies of `RequestVote`. The history is tied to the servers by `VotesRecorded`: a vote
given in the current term of its voter is still the one in `votedFor`. `GetHeartbeat` raises the
term without clearing `votedFor`, which is harmless here because a vote in the history never has
a term above the one of its voter. `one_vote_per_term` is the result.
-/

namespace DistributedLabs.Raft

variable {n : Nat}

/-- A vote given by `voter` to `candidate` while the voter was in `term`. -/
structure Vote (n : Nat) where
  voter : Fin n
  term : Nat
  candidate : Fin n
  deriving DecidableEq

/-- The votes given by one step. -/
def votesCast (σ : Cluster n) : Action n → List (Vote n)
  | .emitElection s => [⟨s, (emitElection (σ.servers s) s).1.currentTerm, s⟩]
  | .requestVote k =>
      match σ.voteCalls[k]? with
      | none => []
      | some call =>
          if (requestVote (σ.servers call.server) σ.now call.args).2.voteGranted then
            [⟨call.server, (requestVote (σ.servers call.server) σ.now call.args).1.currentTerm,
              call.args.candidateId⟩]
          else []
  | _ => []

/-- Every vote given along a run, in order. -/
def votes (actions : List (Action n)) : List (Vote n) :=
  (cluster n).observe votesCast actions

variable {σ σ' : Cluster n} {action : Action n} {actions : List (Action n)}

/-- The votes of an initial part of a run are never taken back. -/
theorem votes_of_initial {first : List (Action n)} (hfirst : first <+: actions)
    (h : (cluster n).run first = some σ) : votes first <+: votes actions :=
  Machine.observe_of_initial hfirst h

/-- A vote that a step gives is recorded at its voter, in the term that the voter is in. -/
theorem cast_recorded (h : step σ action = some σ') {vote : Vote n}
    (hvote : vote ∈ votesCast σ action) :
    (σ'.servers vote.voter).currentTerm = vote.term ∧
      (σ'.servers vote.voter).votedFor = some vote.candidate := by
  cases step_inversion h with
  | emitElection s hspawned =>
      obtain rfl := List.mem_singleton.mp hvote
      simp [Cluster.setServer, emitElection]
  | requestVote k call hcall hreply =>
      simp only [votesCast, hcall] at hvote
      split at hvote
      · rename_i hgranted
        obtain rfl := List.mem_singleton.mp hvote
        simpa [Cluster.setServer] using (request_vote_granted hgranted).1
      · simp at hvote
  | _ => simp [votesCast] at hvote

/-- No vote of the history is from a later term than the voter's, and a vote of the voter's
current term is the one in `votedFor`. -/
def VotesRecorded (history : List (Vote n)) (σ : Cluster n) : Prop :=
  ∀ vote ∈ history, vote.term ≤ (σ.servers vote.voter).currentTerm ∧
    ((σ.servers vote.voter).currentTerm = vote.term →
      (σ.servers vote.voter).votedFor = some vote.candidate)

/-- All votes of one server in one term name the same candidate. -/
def VotesUnique (history : List (Vote n)) : Prop :=
  ∀ first ∈ history, ∀ second ∈ history, first.voter = second.voter →
    first.term = second.term → first.candidate = second.candidate

/-- A step keeps the old votes recorded. -/
theorem VotesRecorded.of_step {history : List (Vote n)} (hrec : VotesRecorded history σ)
    (h : step σ action = some σ') : VotesRecorded history σ' := by
  intro vote hvote
  obtain ⟨hle, hcurrent⟩ := hrec vote hvote
  have hmono := step_term_le h vote.voter
  refine ⟨hle.trans hmono, fun hterm => ?_⟩
  have hold : (σ.servers vote.voter).currentTerm = vote.term := by omega
  exact step_keeps_vote h (hcurrent hold) (hterm.trans hold.symm)

/-- A new vote agrees with every recorded vote of its voter and term. -/
theorem VotesRecorded.cast_agrees {history : List (Vote n)} (hrec : VotesRecorded history σ)
    (h : step σ action = some σ') {old new : Vote n} (hold : old ∈ history)
    (hnew : new ∈ votesCast σ action) (hvoter : old.voter = new.voter)
    (hterm : old.term = new.term) : old.candidate = new.candidate := by
  obtain ⟨hnewTerm, hnewVote⟩ := cast_recorded h hnew
  have holdVote := (hrec.of_step h old hold).2 (by rw [hvoter, hterm, hnewTerm])
  rw [hvoter, hnewVote] at holdVote
  exact (Option.some.inj holdVote).symm

/-- One step gives at most one vote. -/
theorem votes_cast_unique (σ : Cluster n) (action : Action n) :
    VotesUnique (votesCast σ action) := by
  have hsingle : ∀ vote : Vote n, VotesUnique [vote] := by
    intro vote first hfirst second hsecond _ _
    rw [List.mem_singleton.mp hfirst, List.mem_singleton.mp hsecond]
  have hnone : VotesUnique ([] : List (Vote n)) := fun _ hfirst => by simp at hfirst
  cases action with
  | emitElection s => exact hsingle _
  | requestVote k =>
      simp only [votesCast]
      split
      · exact hnone
      · split
        · exact hsingle _
        · exact hnone
  | _ => exact hnone

/-- A step keeps the history consistent. -/
theorem VotesUnique.of_step {history : List (Vote n)} (huniq : VotesUnique history)
    (hrec : VotesRecorded history σ) (h : step σ action = some σ') :
    VotesUnique (history ++ votesCast σ action) := by
  intro first hfirst second hsecond hvoter hterm
  rcases List.mem_append.mp hfirst with hfirst | hfirst <;>
    rcases List.mem_append.mp hsecond with hsecond | hsecond
  · exact huniq first hfirst second hsecond hvoter hterm
  · exact hrec.cast_agrees h hfirst hsecond hvoter hterm
  · exact (hrec.cast_agrees h hsecond hfirst hvoter.symm hterm.symm).symm
  · exact votes_cast_unique σ action first hfirst second hsecond hvoter hterm

/-- Along every run the votes are recorded and unique. -/
theorem votes_invariant (h : (cluster n).run actions = some σ) :
    VotesRecorded (votes actions) σ ∧ VotesUnique (votes actions) := by
  refine Machine.run_induction
    (motive := fun actions σ => VotesRecorded (votes actions) σ ∧ VotesUnique (votes actions))
    ⟨fun _ hvote => by simp [votes] at hvote, fun _ hvote => by simp [votes] at hvote⟩ ?_ h
  intro actions σ action σ' hrun ⟨hrec, huniq⟩ hstep
  rw [votes, Machine.observe_concat hrun hstep, ← votes]
  refine ⟨?_, huniq.of_step hrec hstep⟩
  intro vote hvote
  rcases List.mem_append.mp hvote with hvote | hvote
  · exact hrec.of_step hstep vote hvote
  · obtain ⟨hterm, hfor⟩ := cast_recorded hstep hvote
    exact ⟨hterm.ge, fun _ => hfor⟩

/-- Terms never decrease along a run. -/
theorem run_term_le {first : List (Action n)} {σ₁ : Cluster n} (hfirst : first <+: actions)
    (h₁ : (cluster n).run first = some σ₁) (h : (cluster n).run actions = some σ) (s : Fin n) :
    (σ₁.servers s).currentTerm ≤ (σ.servers s).currentTerm := by
  obtain ⟨second, rfl⟩ := hfirst
  have hsecond := Machine.run_from_of_append h h₁
  refine Machine.run_from_invariant
    (motive := fun σ => (σ₁.servers s).currentTerm ≤ (σ.servers s).currentTerm)
    ?_ le_rfl hsecond
  intro σ action σ' hle hstep
  exact hle.trans (step_term_le hstep s)

/-- In every run the term of a server never decreases, and all votes that a server ever gives in
one term, to itself in `emitElection` or by a granted `RequestVote`, go to the same candidate. -/
theorem one_vote_per_term {n : Nat} {actions : List (Action n)} {σ : Cluster n}
    (h : (cluster n).run actions = some σ) :
    (∀ first σ₁, first <+: actions → (cluster n).run first = some σ₁ →
      ∀ s, (σ₁.servers s).currentTerm ≤ (σ.servers s).currentTerm) ∧
    ∀ v ∈ votes actions, ∀ w ∈ votes actions,
      v.voter = w.voter → v.term = w.term → v.candidate = w.candidate :=
  ⟨fun _ _ hfirst h₁ s => run_term_le hfirst h₁ h s, (votes_invariant h).2⟩

/-- Two servers of three stand in the same two terms, and the third votes for a different one of
them in each. -/
def splitVotes : List (Action 3) :=
  [.tickerTest peer0, .tickerStart peer0, .tickerTest peer2, .tickerStart peer2, .advance 300,
    .tickerWake peer0, .tickerWake peer2, .emitElection peer0, .emitElection peer2, .requestVote 0,
    .tickerTest peer0, .tickerStart peer0, .tickerTest peer2, .tickerStart peer2, .advance 300,
    .tickerWake peer0, .tickerWake peer2, .emitElection peer0, .emitElection peer2, .requestVote 7]

/-- The run `splitVotes` exists, so the statement about its six votes is not empty. -/
theorem one_vote_per_term_split : (votes splitVotes).length = 6 ∧
    ∀ v ∈ votes splitVotes, ∀ w ∈ votes splitVotes,
      v.voter = w.voter → v.term = w.term → v.candidate = w.candidate := by
  obtain ⟨σ, h⟩ := Option.isSome_iff_exists.mp
    (show ((cluster 3).run splitVotes).isSome = true by decide)
  exact ⟨by decide, (one_vote_per_term h).2⟩

end DistributedLabs.Raft
