import DistributedLabs.Library.Lists
import DistributedLabs.Raft.Votes

/-!
# The vote calls of a run

Along every run the vote calls are well formed, no candidate asks a server twice in one term, and
a granted call stands for a vote of the history (`calls_recorded`). This is what turns replies
into distinct voters.
-/

namespace DistributedLabs.Raft

variable {n : Nat} {σ σ' : Cluster n} {action : Action n} {actions : List (Action n)}

/-- The handler of this call has granted the vote. -/
def VoteCall.granted (call : VoteCall n) : Bool :=
  call.reply.any (·.voteGranted)

/-- What identifies a vote call: who asks whom, and in which term. -/
def VoteCall.key (call : VoteCall n) : Fin n × Nat × Fin n :=
  (call.caller, call.args.term, call.server)

/-- Every vote call is from its candidate to another server in a term that the candidate has
reached, no two calls ask the same server in the same term, and a granted one is in the history. -/
structure CallsRecorded (history : List (Vote n)) (σ : Cluster n) : Prop where
  wellFormed : ∀ call ∈ σ.voteCalls, call.args.candidateId = call.caller ∧
    call.server ≠ call.caller ∧ call.args.term ≤ (σ.servers call.caller).currentTerm
  distinct : (σ.voteCalls.map VoteCall.key).Nodup
  granted : ∀ call ∈ σ.voteCalls, call.granted = true →
    ⟨call.server, call.args.term, call.caller⟩ ∈ history

/-- What the calls of one election look like. -/
theorem mem_vote_requests {me : Fin n} {args : RequestVoteArgs n} {call : VoteCall n} :
    call ∈ voteRequests me args ↔
      ∃ i, i ≠ me ∧ call = { caller := me, server := i, args := args } := by
  simp only [voteRequests, List.mem_map, List.mem_filter, List.mem_finRange, true_and,
    decide_eq_true_eq]
  constructor
  · rintro ⟨i, hne, rfl⟩
    exact ⟨i, hne, rfl⟩
  · rintro ⟨i, hne, rfl⟩
    exact ⟨i, hne, rfl⟩

/-- An election asks every peer once. -/
theorem vote_requests_nodup (me : Fin n) (args : RequestVoteArgs n) :
    ((voteRequests me args).map VoteCall.key).Nodup := by
  have hinj : Function.Injective fun i : Fin n => (me, args.term, i) := by
    intro i j hij
    simpa using hij
  simpa [voteRequests, List.map_map, Function.comp_def, VoteCall.key] using
    ((List.nodup_finRange n).filter _).map hinj

/-- Updating the flags of a call keeps the keys of all calls. -/
theorem map_key_set {calls : List (VoteCall n)} {k : Nat} {call updated : VoteCall n}
    (hcall : calls[k]? = some call) (hkey : updated.key = call.key) :
    (calls.set k updated).map VoteCall.key = calls.map VoteCall.key := by
  have hmap : (calls.map VoteCall.key)[k]? = some updated.key := by simp [hcall, hkey]
  rw [List.map_set]
  obtain ⟨hk, hget⟩ := List.getElem?_eq_some_iff.mp hmap
  rw [← hget, List.set_getElem_self]

/-- Where a vote call of the next state comes from. -/
theorem mem_vote_calls_step (h : step σ action = some σ') {call : VoteCall n}
    (hcall : call ∈ σ'.voteCalls) :
    call ∈ σ.voteCalls ∨
    (∃ s, action = .emitElection s ∧ call ∈ voteRequests s (emitElection (σ.servers s) s).2) ∨
    (∃ k old, action = .requestVote k ∧ σ.voteCalls[k]? = some old ∧
      call = { old with
        reply := some (requestVote (σ.servers old.server) σ.now old.args).2 }) ∨
    ∃ old ∈ σ.voteCalls, call = { old with returned := true } := by
  generalize hnext : σ'.voteCalls = next at hcall
  cases hnext ▸ vote_call_step h with
  | same => exact Or.inl hcall
  | emitElection s =>
      rcases List.mem_append.mp hcall with hold | hnew
      · exact Or.inl hold
      · exact Or.inr (Or.inl ⟨s, rfl, hnew⟩)
  | requestVote k old hold _ =>
      rcases List.mem_or_eq_of_mem_set hcall with hcall | heq
      · exact Or.inl hcall
      · exact Or.inr (Or.inr (Or.inl ⟨k, old, rfl, hold, heq⟩))
  | voteReturn k ok old hold _ _ =>
      rcases List.mem_or_eq_of_mem_set hcall with hcall | heq
      · exact Or.inl hcall
      · exact Or.inr (Or.inr (Or.inr ⟨old, List.mem_of_getElem? hold, heq⟩))

/-- The keys of the vote calls change only when an election adds its own. -/
theorem vote_call_keys_step (h : step σ action = some σ') :
    σ'.voteCalls.map VoteCall.key = σ.voteCalls.map VoteCall.key ∨
    ∃ s, action = .emitElection s ∧ σ'.voteCalls.map VoteCall.key =
      σ.voteCalls.map VoteCall.key ++
        (voteRequests s (emitElection (σ.servers s) s).2).map VoteCall.key := by
  generalize hnext : σ'.voteCalls = next
  cases hnext ▸ vote_call_step h with
  | same => exact Or.inl rfl
  | emitElection s => exact Or.inr ⟨s, rfl, List.map_append⟩
  | requestVote k old hold _ => exact Or.inl (map_key_set hold rfl)
  | voteReturn k ok old hold _ _ => exact Or.inl (map_key_set hold rfl)

/-- A step keeps the vote calls well formed. -/
theorem CallsRecorded.well_formed_step {history : List (Vote n)}
    (hcalls : CallsRecorded history σ) (h : step σ action = some σ') :
    ∀ call ∈ σ'.voteCalls, call.args.candidateId = call.caller ∧ call.server ≠ call.caller ∧
      call.args.term ≤ (σ'.servers call.caller).currentTerm := by
  have hold : ∀ call ∈ σ.voteCalls, call.args.candidateId = call.caller ∧
      call.server ≠ call.caller ∧ call.args.term ≤ (σ'.servers call.caller).currentTerm := by
    intro call hcall
    obtain ⟨hcand, hserver, hterm⟩ := hcalls.wellFormed call hcall
    exact ⟨hcand, hserver, hterm.trans (step_term_le h call.caller)⟩
  intro call hcall
  rcases mem_vote_calls_step h hcall with
    hcall | ⟨s, rfl, hnew⟩ | ⟨k, old, rfl, hget, rfl⟩ | ⟨old, hmem, rfl⟩
  · exact hold call hcall
  · obtain ⟨i, hne, rfl⟩ := mem_vote_requests.mp hnew
    cases step_inversion h with
    | emitElection => exact ⟨rfl, hne, by simp [Cluster.setServer, emitElection]⟩
  · exact hold old (List.mem_of_getElem? hget)
  · exact hold old hmem

/-- A step keeps the vote calls distinct: an election only asks in a term that is new to its
candidate. -/
theorem CallsRecorded.distinct_step {history : List (Vote n)} (hcalls : CallsRecorded history σ)
    (h : step σ action = some σ') : (σ'.voteCalls.map VoteCall.key).Nodup := by
  rcases vote_call_keys_step h with heq | ⟨s, rfl, heq⟩
  · rw [heq]
    exact hcalls.distinct
  · rw [heq]
    refine hcalls.distinct.append (vote_requests_nodup s _) ?_
    intro key hold hnew
    obtain ⟨call, hcall, rfl⟩ := List.mem_map.mp hold
    obtain ⟨request, hrequest, hkey⟩ := List.mem_map.mp hnew
    obtain ⟨i, _, rfl⟩ := mem_vote_requests.mp hrequest
    have hterm := (hcalls.wellFormed call hcall).2.2
    simp only [VoteCall.key, emitElection, Prod.mk.injEq] at hkey
    obtain ⟨rfl, hnext, _⟩ := hkey
    omega

/-- A step keeps the vote calls recorded. -/
theorem CallsRecorded.of_step {history : List (Vote n)} (hcalls : CallsRecorded history σ)
    (h : step σ action = some σ') : CallsRecorded (history ++ votesCast σ action) σ' := by
  refine ⟨hcalls.well_formed_step h, hcalls.distinct_step h, ?_⟩
  intro call hcall hgranted
  rcases mem_vote_calls_step h hcall with
    hcall | ⟨s, rfl, hnew⟩ | ⟨k, old, rfl, hget, rfl⟩ | ⟨old, hmem, rfl⟩
  · exact List.mem_append_left _ (hcalls.granted call hcall hgranted)
  · obtain ⟨i, _, rfl⟩ := mem_vote_requests.mp hnew
    simp [VoteCall.granted] at hgranted
  · -- the handler has just run: its vote is one of this step
    have hvote : (requestVote (σ.servers old.server) σ.now old.args).2.voteGranted = true := by
      simpa [VoteCall.granted] using hgranted
    have hcand := (hcalls.wellFormed old (List.mem_of_getElem? hget)).1
    refine List.mem_append_right _ ?_
    simp [votesCast, hget, hvote, (request_vote_granted hvote).2, hcand]
  · exact List.mem_append_left _ (hcalls.granted old hmem hgranted)

/-- The vote calls are recorded along every run. -/
theorem calls_recorded (h : (cluster n).run actions = some σ) :
    CallsRecorded (votes actions) σ := by
  refine Machine.run_induction (motive := fun actions σ => CallsRecorded (votes actions) σ)
    ⟨fun _ hcall => by simp [cluster, initial] at hcall, by simp [cluster, initial],
      fun _ hcall => by simp [cluster, initial] at hcall⟩ ?_ h
  intro actions σ action σ' hrun hcalls hstep
  rw [votes, Machine.observe_concat hrun hstep]
  exact hcalls.of_step hstep

/-- A vote is only given in a term that its candidate has reached. -/
theorem votes_term_le (h : (cluster n).run actions = some σ) :
    ∀ vote ∈ votes actions, vote.term ≤ (σ.servers vote.candidate).currentTerm := by
  refine Machine.run_induction (motive := fun actions σ =>
    ∀ vote ∈ votes actions, vote.term ≤ (σ.servers vote.candidate).currentTerm)
    (fun _ hvote => by simp [votes] at hvote) ?_ h
  intro actions σ action σ' hrun ih hstep vote hvote
  rw [votes, Machine.observe_concat hrun hstep] at hvote
  rcases List.mem_append.mp hvote with hvote | hvote
  · exact (ih vote hvote).trans (step_term_le hstep vote.candidate)
  · have hrecorded := (cast_recorded hstep hvote).1
    have hmono := step_term_le hstep
    cases step_inversion hstep with
    | emitElection s hspawned =>
        obtain rfl := List.mem_singleton.mp hvote
        exact hrecorded.ge
    | requestVote k call hcall hreply =>
        obtain ⟨hcand, _, hterm⟩ := (calls_recorded hrun).wellFormed call
          (List.mem_of_getElem? hcall)
        simp only [votesCast, hcall] at hvote
        split at hvote
        · rename_i hgranted
          obtain rfl := List.mem_singleton.mp hvote
          rw [(request_vote_granted hgranted).2, hcand]
          exact hterm.trans (hmono call.caller)
        · simp at hvote
    | _ => simp [votesCast] at hvote

end DistributedLabs.Raft
