import DistributedLabs.Raft.Loops
import DistributedLabs.Raft.VoteCalls

/-!
# The votes that a candidate can still count

A vote call is open for its caller while it has not returned and its vote is granted or would be
granted if the request were handled now. `openVotes` counts the open calls of a server. No step
but a new election of the server itself can raise this count, or the sum of it and the votes that
the server has counted already (`open_votes_step`). The bound is sharp: a candidate whose sum
exceeds half of the cluster can be promoted by deliveries alone (`open_votes_promote`).
-/

namespace DistributedLabs.Raft

variable {n : Nat} {σ σ' : Cluster n} {action : Action n} {actions : List (Action n)} {p : Fin n}

/-- The server would grant the request if it handled it now. -/
def CanGrant (rf : Server n) (args : RequestVoteArgs n) : Prop :=
  rf.currentTerm < args.term ∨
    rf.currentTerm = args.term ∧ (rf.votedFor = none ∨ rf.votedFor = some args.candidateId)

instance (rf : Server n) (args : RequestVoteArgs n) : Decidable (CanGrant rf args) :=
  inferInstanceAs (Decidable (_ ∨ _))

/-- The vote of a call is granted, or would be if its request were handled now. -/
def Cluster.winnable (σ : Cluster n) (call : VoteCall n) : Bool :=
  match call.reply with
  | some reply => reply.voteGranted
  | none => CanGrant (σ.servers call.server) call.args

/-- The call was made by `p`, has not returned, and its vote can be won. -/
def Cluster.OpenVote (σ : Cluster n) (p : Fin n) (call : VoteCall n) : Prop :=
  call.caller = p ∧ call.returned = false ∧ σ.winnable call = true

instance (σ : Cluster n) (p : Fin n) (call : VoteCall n) : Decidable (σ.OpenVote p call) :=
  inferInstanceAs (Decidable (_ ∧ _))

/-- The number of votes that `p` can still count. -/
def Cluster.openVotes (σ : Cluster n) (p : Fin n) : Nat :=
  σ.voteCalls.countP fun call => σ.OpenVote p call

/-- `RequestVote` grants exactly the requests that can be granted. -/
theorem request_vote_granted_iff (rf : Server n) (now : Nat) (args : RequestVoteArgs n) :
    (requestVote rf now args).2.voteGranted = true ↔ CanGrant rf args := by
  unfold CanGrant
  rcases lt_trichotomy args.term rf.currentTerm with hlt | heq | hgt
  · rw [requestVote, if_pos hlt]
    simp only [Bool.false_eq_true, false_iff]
    omega
  · rw [requestVote, if_neg (by omega), adopt_term_of_le heq.le]
    split
    · rename_i hfree
      simp [heq, hfree]
    · rename_i hbound
      simp [heq, hbound]
  · rw [requestVote, if_neg (by omega), adopt_term_of_lt hgt, if_pos (Or.inl rfl)]
    simp [hgt]

/-- A server that would refuse a request refuses it ever after. -/
theorem CanGrant.of_step (h : step σ action = some σ') {q : Fin n} {args : RequestVoteArgs n}
    (hgrant : CanGrant (σ'.servers q) args) : CanGrant (σ.servers q) args := by
  have hmono := step_term_le h q
  rcases lt_trichotomy (σ.servers q).currentTerm args.term with hlt | heq | hgt
  · exact Or.inl hlt
  · refine Or.inr ⟨heq, ?_⟩
    rcases hgrant with hraised | ⟨hsame, hfree⟩
    · omega
    · cases hvote : (σ.servers q).votedFor with
      | none => exact Or.inl rfl
      | some c =>
          have hkept := step_keeps_vote h hvote (by omega)
          rw [hkept] at hfree
          exact hfree
  · rcases hgrant with hraised | ⟨hsame, -⟩
    · omega
    · omega

/-- A call that the step leaves alone can be won only if it could be won before. -/
theorem Cluster.OpenVote.of_step (h : step σ action = some σ') {call : VoteCall n}
    (hopen : σ'.OpenVote p call) : σ.OpenVote p call := by
  obtain ⟨hcaller, hreturned, hwin⟩ := hopen
  refine ⟨hcaller, hreturned, ?_⟩
  unfold Cluster.winnable at hwin ⊢
  cases hreply : call.reply with
  | some reply => simpa only [hreply] using hwin
  | none =>
      simp only [hreply, decide_eq_true_eq] at hwin ⊢
      exact hwin.of_step h

/-- Whether a call is open depends on the term and the vote of the server that it asks. -/
theorem open_vote_congr {call : VoteCall n}
    (hterm : (σ'.servers call.server).currentTerm = (σ.servers call.server).currentTerm)
    (hvote : (σ'.servers call.server).votedFor = (σ.servers call.server).votedFor) :
    σ'.OpenVote p call ↔ σ.OpenVote p call := by
  have hgrant : CanGrant (σ'.servers call.server) call.args ↔
      CanGrant (σ.servers call.server) call.args := by
    unfold CanGrant
    rw [hterm, hvote]
  unfold Cluster.OpenVote Cluster.winnable
  simp only [hgrant]

/-- The counter of a server moves when it starts an election and when a granted vote of one of its
calls returns. -/
theorem votednumber_step (h : step σ action = some σ') (hother : action ≠ .emitElection p) :
    (σ'.servers p).votednumber = (σ.servers p).votednumber ∨
      ∃ k call reply, action = .voteReturn k true ∧ σ.voteCalls[k]? = some call ∧
        call.caller = p ∧ call.returned = false ∧ call.reply = some reply ∧
        reply.voteGranted = true ∧
        (σ'.servers p).votednumber = (σ.servers p).votednumber + 1 := by
  generalize hrf : σ'.servers p = rf
  cases hrf ▸ server_step h p with
  | timer _ _ _ _ _ hcount => exact Or.inl hcount
  | emitElection => exact absurd rfl hother
  | requestVote k call => exact Or.inl (request_vote_votednumber _ _ _)
  | countVote k call reply hcall hreturned hreply hgranted hcaller =>
      refine Or.inr ⟨k, call, reply, rfl, hcall, hcaller, hreturned, hreply, hgranted, ?_⟩
      rcases count_vote_cases (σ.servers p) with heq | ⟨-, -, heq⟩
      · rw [heq]
      · rw [heq]
  | getHeartbeat k call =>
      left
      rcases get_heartbeat_cases (σ.servers p) σ.now call.appendentries with ⟨-, heq⟩ | ⟨-, heq⟩
      · rw [heq]
      · rw [heq]
  | heartbeatReturn =>
      left
      unfold heartbeatReturn
      split
      · rfl
      · rfl

/-- A reply that grants the vote answers a request that could be granted. -/
theorem open_vote_of_reply {call : VoteCall n} (hreply : call.reply = none)
    (hopen : σ.OpenVote p { call with
      reply := some (requestVote (σ.servers call.server) σ.now call.args).2 }) :
    σ.OpenVote p call := by
  obtain ⟨hcaller, hreturned, hwin⟩ := hopen
  refine ⟨hcaller, hreturned, ?_⟩
  simpa [Cluster.winnable, hreply] using (request_vote_granted_iff _ _ _).mp hwin

/-- What a step does to the calls that were open before it: it adds none, and a vote that the
server counts is open no more. -/
theorem count_open_step (h : step σ action = some σ') (hother : action ≠ .emitElection p) :
    (σ'.servers p).votednumber + σ'.voteCalls.countP (fun call => σ.OpenVote p call) ≤
        (σ.servers p).votednumber + σ.openVotes p ∧
      σ'.voteCalls.countP (fun call => σ.OpenVote p call) ≤ σ.openVotes p := by
  have hnumber := votednumber_step h hother
  have hcalls := vote_call_step h
  unfold Cluster.openVotes
  generalize σ'.voteCalls = calls at hcalls ⊢
  cases hcalls with
  | same _ _ _ hreturn =>
      rcases hnumber with hsame | ⟨k, _, _, rfl, -⟩
      · omega
      · exact absurd rfl (hreturn k true)
  | emitElection s =>
      have hnone : (voteRequests s (emitElection (σ.servers s) s).2).countP
          (fun call => σ.OpenVote p call) = 0 := by
        refine List.countP_eq_zero.mpr fun call hcall hopen => ?_
        obtain ⟨i, -, rfl⟩ := mem_vote_requests.mp hcall
        obtain ⟨rfl, -⟩ := of_decide_eq_true hopen
        exact hother rfl
      rcases hnumber with hsame | ⟨_, _, _, haction, -⟩
      · rw [List.countP_append, hnone]
        omega
      · cases haction
  | requestVote k call hcall hreply =>
      have hset := count_set_add hcall
        { call with reply := some (requestVote (σ.servers call.server) σ.now call.args).2 }
        (fun call => σ.OpenVote p call)
      have hle : (if σ.OpenVote p { call with
            reply := some (requestVote (σ.servers call.server) σ.now call.args).2 } then 1 else 0) ≤
          if σ.OpenVote p call then 1 else 0 := by
        split
        · rename_i hopen
          rw [if_pos (open_vote_of_reply hreply hopen)]
        · exact Nat.zero_le _
      simp only [decide_eq_true_eq] at hset
      rcases hnumber with hsame | ⟨_, _, _, haction, -⟩
      · omega
      · cases haction
  | voteReturn k ok call hcall hreturned hreply =>
      have hset := count_set_add hcall { call with returned := true }
        (fun call => σ.OpenVote p call)
      have hclosed : ¬ σ.OpenVote p { call with returned := true } := by
        intro hopen
        obtain ⟨-, hreturned, -⟩ := hopen
        cases hreturned
      simp only [decide_eq_true_eq, if_neg hclosed] at hset
      rcases hnumber with hsame | ⟨_, _, reply, haction, hfound, hcaller, hreturned, hreply,
        hgranted, hnumber⟩
      · omega
      · cases haction
        obtain rfl := Option.some.inj (hcall.symm.trans hfound)
        have hopen : σ.OpenVote p call :=
          ⟨hcaller, hreturned, by simpa [Cluster.winnable, hreply] using hgranted⟩
        rw [if_pos hopen] at hset
        omega

/-- A step other than a new election of the server raises neither the number of its open votes nor
the sum of its open and its counted votes. -/
theorem open_votes_step (h : step σ action = some σ') (hother : action ≠ .emitElection p) :
    (σ'.servers p).votednumber + σ'.openVotes p ≤ (σ.servers p).votednumber + σ.openVotes p ∧
      σ'.openVotes p ≤ σ.openVotes p := by
  have hcount := count_open_step h hother
  have hmono : σ'.openVotes p ≤ σ'.voteCalls.countP (fun call => σ.OpenVote p call) := by
    refine List.countP_mono_left fun call _ hopen => ?_
    exact decide_eq_true ((of_decide_eq_true hopen).of_step h)
  omega

/-- The vote that promotes a candidate is one of its open votes. -/
theorem Promotes.open_vote {k : Nat} {call : VoteCall n} (h : Promotes σ k call) :
    0 < σ.openVotes call.caller := by
  obtain ⟨reply, hreply, hgranted⟩ := h.granted
  refine List.countP_pos_iff.mpr ⟨call, List.mem_of_getElem? h.called, decide_eq_true ?_⟩
  exact ⟨rfl, h.waiting, by simpa [Cluster.winnable, hreply] using hgranted⟩

/-! ## Promotion by deliveries -/

/-- In some continuation of the run, the server enters the leader role. -/
def CanBePromoted (σ : Cluster n) (p : Fin n) : Prop :=
  ∃ rest τ action τ', (cluster n).runFrom σ rest = some τ ∧ step τ action = some τ' ∧
    (τ.servers p).state ≠ .leader ∧ (τ'.servers p).state = .leader

/-- What a continuation of the next state does is done by a continuation of this one. -/
theorem CanBePromoted.of_step (h : step σ action = some σ') (hcan : CanBePromoted σ' p) :
    CanBePromoted σ p := by
  obtain ⟨rest, τ, last, τ', hrest, hlast⟩ := hcan
  refine ⟨action :: rest, τ, last, τ', ?_, hlast⟩
  have hfirst : (cluster n).step σ action = some σ' := h
  simp [Machine.runFrom, hfirst, hrest]

/-- A reachable state and a step from it give a longer run. -/
theorem run_step (hrun : (cluster n).run actions = some σ) (h : step σ action = some σ') :
    (cluster n).run (actions ++ [action]) = some σ' :=
  Machine.run_concat_iff.mpr ⟨σ, hrun, h⟩

/-- The deliveries that are left to the calls of a server: the returns and the requests that have
not been handled. -/
def Cluster.deliveries (σ : Cluster n) (p : Fin n) : Nat :=
  σ.voteCalls.countP (fun call => call.caller = p ∧ call.returned = false) +
    σ.voteCalls.countP (fun call => call.caller = p ∧ call.reply = none)

/-- A return leaves one delivery less. -/
theorem deliveries_of_return {k : Nat} {call : VoteCall n} (hcall : σ.voteCalls[k]? = some call)
    (hcaller : call.caller = p) (hreturned : call.returned = false)
    (hcalls : σ'.voteCalls = σ.voteCalls.set k { call with returned := true }) :
    σ'.deliveries p < σ.deliveries p := by
  have hreturns := count_set_add hcall { call with returned := true }
    (fun call => call.caller = p ∧ call.returned = false)
  have hrequests := count_set_add hcall { call with returned := true }
    (fun call => call.caller = p ∧ call.reply = none)
  rw [if_pos (by simp [hcaller, hreturned]), if_neg (by simp)] at hreturns
  simp only [Nat.add_right_cancel_iff] at hrequests
  unfold Cluster.deliveries
  rw [hcalls]
  omega

/-- A handled request leaves one delivery less. -/
theorem deliveries_of_request {k : Nat} {call : VoteCall n} {reply : RequestVoteReply}
    (hcall : σ.voteCalls[k]? = some call) (hcaller : call.caller = p) (hreply : call.reply = none)
    (hcalls : σ'.voteCalls = σ.voteCalls.set k { call with reply := some reply }) :
    σ'.deliveries p < σ.deliveries p := by
  have hreturns := count_set_add hcall { call with reply := some reply }
    (fun call => call.caller = p ∧ call.returned = false)
  have hrequests := count_set_add hcall { call with reply := some reply }
    (fun call => call.caller = p ∧ call.reply = none)
  rw [if_pos (by simp [hcaller, hreply]), if_neg (by simp)] at hrequests
  simp only [Nat.add_right_cancel_iff] at hreturns
  unfold Cluster.deliveries
  rw [hcalls]
  omega

/-- A granted vote that completes no majority is counted. -/
theorem count_granted {k : Nat} {call : VoteCall n} {reply : RequestVoteReply}
    (hcall : σ.voteCalls[k]? = some call) (hcaller : call.caller = p)
    (hreturned : call.returned = false) (hreply : call.reply = some reply)
    (hgranted : reply.voteGranted = true)
    (hshort : ¬ n / 2 < (σ.servers p).votednumber + 1) :
    ∃ σ', step σ (.voteReturn k true) = some σ' ∧
      (σ'.servers p).state = (σ.servers p).state ∧
      (σ'.servers p).votednumber = (σ.servers p).votednumber + 1 ∧
      σ.openVotes p = σ'.openVotes p + 1 ∧ σ'.deliveries p < σ.deliveries p := by
  subst hcaller
  have hcount : countVote (σ.servers call.caller) =
      ({ σ.servers call.caller with
          votednumber := (σ.servers call.caller).votednumber + 1 }, false) :=
    if_neg fun hboth => hshort hboth.2
  refine ⟨{ σ.setServer call.caller (countVote (σ.servers call.caller)).1 with
      voteCalls := σ.voteCalls.set k { call with returned := true } }, ?_, ?_, ?_, ?_,
    deliveries_of_return hcall rfl hreturned rfl⟩
  · simp [step, hcall, hreturned, hreply, Cluster.receiveVote, hgranted, hcount, Cluster.setServer]
  · simp [Cluster.setServer, hcount]
  · simp [Cluster.setServer, hcount]
  · -- counting a vote changes neither the term nor the vote of any server
    have hsame : ∀ other, Cluster.OpenVote
        { σ.setServer call.caller (countVote (σ.servers call.caller)).1 with
          voteCalls := σ.voteCalls.set k { call with returned := true } } call.caller other ↔
        σ.OpenVote call.caller other := by
      intro other
      refine open_vote_congr ?_ ?_
      · by_cases hserver : other.server = call.caller
        · simp [Cluster.setServer, hserver, hcount]
        · simp [Cluster.setServer, hserver]
      · by_cases hserver : other.server = call.caller
        · simp [Cluster.setServer, hserver, hcount]
        · simp [Cluster.setServer, hserver]
    have hset := count_set_add hcall { call with returned := true }
      (fun other => σ.OpenVote call.caller other)
    have hopen : σ.OpenVote call.caller call :=
      ⟨rfl, hreturned, by simpa [Cluster.winnable, hreply] using hgranted⟩
    have hclosed : ¬ σ.OpenVote call.caller { call with returned := true } := by
      intro hopen
      obtain ⟨-, hreturned, -⟩ := hopen
      cases hreturned
    simp only [decide_eq_true_eq, if_pos hopen, if_neg hclosed] at hset
    simp only [Cluster.openVotes, hsame]
    exact hset.symm

/-- Updating one call to an open one, when every open call stays open, loses no open vote. -/
theorem open_votes_of_set {k : Nat} {call updated : VoteCall n}
    (hcall : σ.voteCalls[k]? = some call) (hcalls : σ'.voteCalls = σ.voteCalls.set k updated)
    (hupdated : σ'.OpenVote p updated)
    (hkept : ∀ other ∈ σ.voteCalls, σ.OpenVote p other → σ'.OpenVote p other) :
    σ.openVotes p ≤ σ'.openVotes p := by
  have hset := count_set_add hcall updated (fun other => σ'.OpenVote p other)
  have hmono : σ.openVotes p ≤ σ.voteCalls.countP (fun other => σ'.OpenVote p other) := by
    refine List.countP_mono_left fun other hother hopen => ?_
    exact decide_eq_true (hkept other hother (of_decide_eq_true hopen))
  have hone : (if σ'.OpenVote p call then 1 else 0) ≤ 1 := by split <;> omega
  simp only [decide_eq_true_eq, if_pos hupdated] at hset
  show σ.openVotes p ≤ σ'.voteCalls.countP _
  rw [hcalls]
  omega

/-- Of the requests that can be granted, the one with the least term can be handled without closing
another vote of the same candidate. -/
theorem handle_least {k : Nat} {call : VoteCall n} (hrun : (cluster n).run actions = some σ)
    (hcall : σ.voteCalls[k]? = some call) (hreply : call.reply = none)
    (hopen : σ.OpenVote p call)
    (hleast : ∀ other ∈ σ.voteCalls, σ.OpenVote p other → call.args.term ≤ other.args.term) :
    ∃ σ', step σ (.requestVote k) = some σ' ∧ σ'.servers p = σ.servers p ∧
      σ.openVotes p ≤ σ'.openVotes p ∧ σ'.deliveries p < σ.deliveries p := by
  obtain ⟨hcaller, hreturned, hwin⟩ := hopen
  have hgrant : CanGrant (σ.servers call.server) call.args := by
    simpa [Cluster.winnable, hreply] using hwin
  have hwell := (calls_recorded hrun).wellFormed
  obtain ⟨hcandidate, hserver, -⟩ := hwell call (List.mem_of_getElem? hcall)
  have hgranted := (request_vote_granted_iff (σ.servers call.server) σ.now call.args).mpr hgrant
  obtain ⟨hvoted, hterm⟩ := request_vote_granted hgranted
  refine ⟨{ σ.setServer call.server (requestVote (σ.servers call.server) σ.now call.args).1 with
      voteCalls := σ.voteCalls.set k
        { call with reply := some (requestVote (σ.servers call.server) σ.now call.args).2 } },
    ?_, ?_, ?_, deliveries_of_request hcall hcaller hreply rfl⟩
  · simp [step, hcall, hreply]
  · rw [hcaller] at hserver
    exact Function.update_of_ne hserver.symm _ _
  · refine open_votes_of_set hcall rfl ?_ ?_
    · exact ⟨hcaller, hreturned, hgranted⟩
    · intro other hother hopen
      by_cases hsame : other.server = call.server
      · obtain ⟨hcaller', hreturned', hwin'⟩ := hopen
        refine ⟨hcaller', hreturned', ?_⟩
        unfold Cluster.winnable at hwin' ⊢
        cases hreply' : other.reply with
        | some reply => simpa only [hreply'] using hwin'
        | none =>
            -- the server is now in the term of the handled call, with its vote for `p`
            have hle := hleast other hother ⟨hcaller', hreturned', by
              simpa only [Cluster.winnable] using hwin'⟩
            have hcandidate' := (hwell other hother).1
            simp only [Cluster.setServer, hsame, Function.update_self, decide_eq_true_eq]
            rcases hle.eq_or_lt with heq | hlt
            · refine Or.inr ⟨hterm.trans heq, Or.inr ?_⟩
              rw [hvoted, hcandidate, hcandidate', hcaller, hcaller']
            · exact Or.inl (hterm ▸ hlt)
      · refine (open_vote_congr ?_ ?_).mpr hopen
        · simp [Cluster.setServer, hsame]
        · simp [Cluster.setServer, hsame]

/-- A candidate that has open votes, and with them more than half of the cluster, can be promoted:
the requests are handled in the order of their terms, and every granted vote returns. -/
theorem open_votes_promote (hrun : (cluster n).run actions = some σ)
    (hcandidate : (σ.servers p).state = .candidate) (hopen : 0 < σ.openVotes p)
    (hmajority : n / 2 < (σ.servers p).votednumber + σ.openVotes p) : CanBePromoted σ p := by
  -- every delivery leaves fewer of them
  induction hwork : σ.deliveries p using Nat.strong_induction_on generalizing σ actions with
  | _ work ih =>
      by_cases hanswered : ∃ (k : Nat) (call : VoteCall n) (reply : RequestVoteReply),
          σ.voteCalls[k]? = some call ∧ call.caller = p ∧ call.returned = false ∧
            call.reply = some reply ∧ reply.voteGranted = true
      · obtain ⟨k, call, reply, hcall, hcaller, hreturned, hreply, hgranted⟩ := hanswered
        by_cases hlast : n / 2 < (σ.servers p).votednumber + 1
        · subst hcaller
          have hpromotes : Promotes σ k call :=
            ⟨hcall, hreturned, ⟨reply, hreply, hgranted⟩, hcandidate, hlast⟩
          obtain ⟨σ', hstep, hleader, -⟩ := hpromotes.step
          exact ⟨[], σ, .voteReturn k true, σ', rfl, hstep, by simp [hcandidate], hleader⟩
        · obtain ⟨σ', hstep, hstate, hnumber, hvotes, hless⟩ :=
            count_granted hcall hcaller hreturned hreply hgranted hlast
          refine CanBePromoted.of_step hstep (ih _ (hwork ▸ hless)
            (run_step hrun hstep) (hstate.trans hcandidate) ?_ ?_ rfl)
          · omega
          · omega
      · -- all open votes are requests; the one with the least term is handled first
        have hfirst : ∃ term, ∃ call ∈ σ.voteCalls, σ.OpenVote p call ∧ call.args.term = term := by
          obtain ⟨call, hcall, hopen⟩ := List.countP_pos_iff.mp hopen
          exact ⟨_, call, hcall, of_decide_eq_true hopen, rfl⟩
        obtain ⟨call, hmem, hcallOpen, hterm⟩ := Nat.find_spec hfirst
        have hleast : ∀ other ∈ σ.voteCalls, σ.OpenVote p other →
            call.args.term ≤ other.args.term := by
          intro other hother hotherOpen
          rw [hterm]
          exact Nat.find_min' hfirst ⟨other, hother, hotherOpen, rfl⟩
        obtain ⟨k, hcall⟩ := List.mem_iff_getElem?.mp hmem
        have hreply : call.reply = none := by
          cases hreply : call.reply with
          | none => rfl
          | some reply =>
              obtain ⟨hcaller, hreturned, hwin⟩ := hcallOpen
              refine absurd ⟨k, call, reply, hcall, hcaller, hreturned, hreply, ?_⟩ hanswered
              simpa [Cluster.winnable, hreply] using hwin
        obtain ⟨σ', hstep, hsame, hvotes, hless⟩ := handle_least hrun hcall hreply hcallOpen hleast
        refine CanBePromoted.of_step hstep (ih _ (hwork ▸ hless)
          (run_step hrun hstep) (by rw [hsame]; exact hcandidate) ?_ ?_ rfl)
        · omega
        · rw [hsame]
          omega

end DistributedLabs.Raft
