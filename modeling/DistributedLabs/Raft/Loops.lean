import DistributedLabs.Library.Lists
import DistributedLabs.Raft.Transition

/-!
# The heartbeat loops of a leader

Every promotion spawns a `sendHeartBeat` goroutine, and a goroutine ends only when it finds, at one
of the two role tests of a round, that its server is not a leader. A leader therefore always has a
loop that is alive (`leader_has_loop`). It can have two: when a leader is made a candidate by an
`emitElection` that was spawned earlier and is promoted again before its old loop reaches a test,
the old loop goes on beside the new one (`promoted_twice_two_loops`). A leader has exactly one loop,
and no two loops of a server go on to another round, exactly along the runs in which no server is
promoted while one of its loops is alive (`one_loop_per_leader_iff`).
-/

namespace DistributedLabs.Raft

variable {n : Nat} {σ σ' : Cluster n} {action : Action n} {actions : List (Action n)}

/-- Loop `k` is run by server `p` and has not exited. -/
def Cluster.LiveLoop (σ : Cluster n) (p : Fin n) (k : Nat) : Prop :=
  ∃ loop, σ.loops[k]? = some loop ∧ loop.server = p ∧ loop.pc ≠ .exited

/-- In the given continuation of a run, loop `k` comes back to the head of its outer loop. -/
def StartsRound (σ : Cluster n) (rest : List (Action n)) (k : Nat) : Prop :=
  ∃ before after τ τ' loop, rest = before ++ .sendHeartBeat k :: after ∧
    (cluster n).runFrom σ before = some τ ∧ step τ (.sendHeartBeat k) = some τ' ∧
    τ'.loops[k]? = some loop ∧ loop.pc = .sample

/-- At every point of the run a leader has exactly one live loop, and no two live loops of one
server both start another round. -/
def OneLoopPerLeader (actions : List (Action n)) : Prop :=
  (∀ first σ, first <+: actions → (cluster n).run first = some σ → ∀ p,
    (σ.servers p).state = .leader → ∃! k, σ.LiveLoop p k) ∧
  ∀ first second σ, actions = first ++ second → (cluster n).run first = some σ → ∀ p i j,
    σ.LiveLoop p i → σ.LiveLoop p j → StartsRound σ second i → StartsRound σ second j → i = j

/-- The reply of vote call `k` would complete the majority of the candidate that made the call. -/
structure Promotes (σ : Cluster n) (k : Nat) (call : VoteCall n) : Prop where
  called : σ.voteCalls[k]? = some call
  waiting : call.returned = false
  granted : ∃ reply, call.reply = some reply ∧ reply.voteGranted = true
  candidate : (σ.servers call.caller).state = .candidate
  majority : n / 2 < (σ.servers call.caller).votednumber + 1

/-- A vote that completes the majority of a candidate finds no live loop of that candidate. -/
def PromotesWithoutLoop (σ : Cluster n) : Action n → Prop
  | .voteReturn k true => ∀ call, Promotes σ k call → ∀ j, ¬ σ.LiveLoop call.caller j
  | _ => True

/-- What one step can do to the list of heartbeat loops. -/
inductive LoopStep (σ : Cluster n) : Action n → List (HeartbeatLoop n) → Prop where
  | same (unrelated : Action n) : LoopStep σ unrelated σ.loops
  | spawn (k call) (hpromotes : Promotes σ k call) :
      LoopStep σ (.voteReturn k true) (σ.loops ++ [⟨call.caller, .sample⟩])
  | next (k loop pc calls) (hloop : σ.loops[k]? = some loop)
      (hnext : sendHeartBeat σ.now (σ.servers loop.server) loop.server loop.pc =
        some (pc, calls)) :
      LoopStep σ (.sendHeartBeat k) (σ.loops.set k { loop with pc := pc })

/-- The projection of a step to the heartbeat loops. -/
theorem loop_step (h : step σ action = some σ') : LoopStep σ action σ'.loops := by
  cases step_inversion h with
  | voteReturn k call reply hcall hreturned hreply =>
      unfold Cluster.receiveVote
      split
      · rename_i hgranted
        rcases count_vote_cases (σ.servers call.caller) with heq | ⟨hcandidate, hmajority, heq⟩
        · simp only [heq, Bool.false_eq_true, if_false]
          exact .same _
        · simp only [heq, if_true]
          exact .spawn k call ⟨hcall, hreturned, ⟨reply, hreply, hgranted⟩, hcandidate, hmajority⟩
      · exact .same _
  | sendHeartBeat k loop pc calls hloop hnext => exact .next k loop pc calls hloop hnext
  | advance | tickerTest | tickerStart | tickerWake | emitElection | requestVote | voteFail
  | getHeartbeat | heartbeatReturn | kill => exact .same _

/-- A loop of a leader does not exit. -/
theorem send_heart_beat_of_leader {now : Nat} {rf : Server n} {me : Fin n} {pc next : LoopPc n}
    {calls : List (HeartbeatCall n)} (h : sendHeartBeat now rf me pc = some (next, calls))
    (hleader : rf.state = .leader) : next ≠ .exited := by
  cases pc with
  | sample =>
      cases h
      simp
  | send entries i =>
      simp only [sendHeartBeat] at h
      split at h
      · split at h <;> cases h <;> simp
      · cases h
        simp
  | check entries i =>
      cases h
      simp [hleader]
  | checkRound =>
      cases h
      simp [hleader]
  | sleeping since =>
      simp only [sendHeartBeat] at h
      split at h
      · cases h
        simp
      · cases h
  | exited => cases h

/-- A loop that has exited takes no step. -/
theorem live_of_send_heart_beat {now : Nat} {rf : Server n} {me : Fin n} {pc : LoopPc n}
    {result : LoopPc n × List (HeartbeatCall n)} (h : sendHeartBeat now rf me pc = some result) :
    pc ≠ .exited := by
  intro hexited
  rw [hexited] at h
  cases h

/-- A live loop was live before the step, or the step has spawned it by a promotion. -/
theorem live_loop_step (h : step σ action = some σ') {p : Fin n} {k : Nat}
    (hlive : σ'.LiveLoop p k) :
    σ.LiveLoop p k ∨ k = σ.loops.length ∧
      ∃ i call, action = .voteReturn i true ∧ Promotes σ i call ∧ call.caller = p := by
  obtain ⟨loop, hloop, hserver, hpc⟩ := hlive
  have hcases := loop_step h
  generalize σ'.loops = loops at hloop hcases
  cases hcases with
  | same => exact Or.inl ⟨loop, hloop, hserver, hpc⟩
  | spawn i call hpromotes =>
      rcases lookup_concat hloop with hold | ⟨hlast, rfl⟩
      · exact Or.inl ⟨loop, hold, hserver, hpc⟩
      · exact Or.inr ⟨hlast, i, call, rfl, hpromotes, hserver⟩
  | next i old pc calls hold hnext =>
      left
      rw [List.getElem?_set] at hloop
      split at hloop
      · rename_i heq
        subst heq
        split at hloop
        · obtain rfl := Option.some.inj hloop
          exact ⟨old, hold, hserver, live_of_send_heart_beat hnext⟩
        · cases hloop
      · exact ⟨loop, hloop, hserver, hpc⟩

/-- A live loop of a leader stays live. -/
theorem Cluster.LiveLoop.of_leader (h : step σ action = some σ') {p : Fin n} {k : Nat}
    (hleader : (σ.servers p).state = .leader) (hlive : σ.LiveLoop p k) : σ'.LiveLoop p k := by
  obtain ⟨loop, hloop, rfl, hpc⟩ := hlive
  have hlt : k < σ.loops.length := (List.getElem?_eq_some_iff.mp hloop).1
  have hcases := loop_step h
  show ∃ found, σ'.loops[k]? = some found ∧ found.server = loop.server ∧ found.pc ≠ .exited
  generalize σ'.loops = loops at hcases ⊢
  cases hcases with
  | same => exact ⟨loop, hloop, rfl, hpc⟩
  | spawn => exact ⟨loop, by rw [List.getElem?_append_left hlt]; exact hloop, rfl, hpc⟩
  | next i old pc calls hold hnext =>
      by_cases heq : i = k
      · subst heq
        obtain rfl := Option.some.inj (hold.symm.trans hloop)
        exact ⟨_, List.getElem?_set_self hlt, rfl, send_heart_beat_of_leader hnext hleader⟩
      · exact ⟨loop, by rw [List.getElem?_set_ne heq]; exact hloop, rfl, hpc⟩

/-- A vote that completes the majority of a candidate makes it a leader and spawns a loop. -/
theorem Promotes.step {k : Nat} {call : VoteCall n} (h : Promotes σ k call) :
    ∃ σ', (cluster n).step σ (.voteReturn k true) = some σ' ∧
      (σ'.servers call.caller).state = .leader ∧
      σ'.loops = σ.loops ++ [⟨call.caller, .sample⟩] := by
  obtain ⟨reply, hreply, hgranted⟩ := h.granted
  have hcount : countVote (σ.servers call.caller) =
      ({ σ.servers call.caller with
          votednumber := (σ.servers call.caller).votednumber + 1
          state := .leader }, true) := if_pos ⟨h.candidate, h.majority⟩
  refine ⟨Cluster.receiveVote
      { σ with voteCalls := σ.voteCalls.set k { call with returned := true } } call.caller reply,
    ?_, ?_⟩
  · show Raft.step σ (.voteReturn k true) = _
    simp [Raft.step, h.called, h.waiting, hreply]
  · simp [Cluster.receiveVote, hgranted, Cluster.setServer, hcount]

/-- A server that has just become a leader was promoted by a vote. -/
theorem promotes_of_leader (h : step σ action = some σ') {p : Fin n}
    (hbefore : (σ.servers p).state ≠ .leader) (hleader : (σ'.servers p).state = .leader) :
    ∃ k call, action = .voteReturn k true ∧ Promotes σ k call ∧ call.caller = p := by
  rcases step_leader h hleader with ⟨hwas, _⟩ | ⟨k, call, reply, haction, hcall, hreturned,
    hreply, hgranted, rfl, hcandidate, hmajority, _⟩
  · exact absurd hwas hbefore
  · exact ⟨k, call, haction,
      ⟨hcall, hreturned, ⟨reply, hreply, hgranted⟩, hcandidate, hmajority⟩, rfl⟩

/-- The loop that a promotion spawns is live. -/
theorem live_loop_spawned {loops : List (HeartbeatLoop n)} {p : Fin n}
    (h : σ.loops = loops ++ [⟨p, .sample⟩]) : σ.LiveLoop p loops.length :=
  ⟨⟨p, .sample⟩, by rw [h, List.getElem?_concat_length], rfl, by simp⟩

/-- In every reachable state a leader has a live loop. -/
theorem leader_has_loop (h : (cluster n).run actions = some σ) :
    ∀ p, (σ.servers p).state = .leader → ∃ k, σ.LiveLoop p k := by
  refine Machine.run_induction (motive := fun _ σ => ∀ p,
    (σ.servers p).state = .leader → ∃ k, σ.LiveLoop p k) ?_ ?_ h
  · intro p hstate
    simp [cluster, initial, make] at hstate
  · intro actions σ action σ' _ ih hstep p hstate
    by_cases hbefore : (σ.servers p).state = .leader
    · obtain ⟨k, hlive⟩ := ih p hbefore
      exact ⟨k, hlive.of_leader hstep hbefore⟩
    · obtain ⟨k, call, rfl, hpromotes, rfl⟩ := promotes_of_leader hstep hbefore hstate
      obtain ⟨τ, hτ, -, hloops⟩ := hpromotes.step
      obtain rfl := Option.some.inj (hτ.symm.trans hstep)
      exact ⟨_, live_loop_spawned hloops⟩

/-- Along a run without promotions over a live loop, no server has two live loops. -/
theorem live_loop_unique (hmeets : (cluster n).Meets PromotesWithoutLoop actions)
    (h : (cluster n).run actions = some σ) :
    ∀ p i j, σ.LiveLoop p i → σ.LiveLoop p j → i = j := by
  refine Machine.run_induction_of_meets (motive := fun _ σ => ∀ p i j,
    σ.LiveLoop p i → σ.LiveLoop p j → i = j) ?_ ?_ hmeets h
  · intro p i j hi
    obtain ⟨loop, hloop, -⟩ := hi
    simp [cluster, initial] at hloop
  · intro actions σ action σ' _ ih hguard hstep p i j hi hj
    -- a spawned loop is the only one: the guard says that no other loop was live
    have halone : ∀ k call j, action = .voteReturn k true → Promotes σ k call →
        ¬ σ.LiveLoop call.caller j := by
      intro k call j haction hpromotes
      subst haction
      exact hguard call hpromotes j
    rcases live_loop_step hstep hi with hold | ⟨hlast, k, call, haction, hpromotes, rfl⟩
    · rcases live_loop_step hstep hj with hold' | ⟨-, k, call, haction, hpromotes, rfl⟩
      · exact ih p i j hold hold'
      · exact absurd hold (halone k call i haction hpromotes)
    · rcases live_loop_step hstep hj with hold' | ⟨hlast', -⟩
      · exact absurd hold' (halone k call j haction hpromotes)
      · rw [hlast, hlast']

/-- In every run: at every point a leader has exactly one live loop and no two live loops of a
server both start another round, exactly when no server is promoted while one of its loops is
live. -/
theorem one_loop_per_leader_iff {n : Nat} (actions : List (Action n)) :
    OneLoopPerLeader actions ↔ (cluster n).Meets PromotesWithoutLoop actions := by
  constructor
  · intro hone before action after σ hsplit hrun
    cases action with
    | voteReturn k ok =>
        cases ok with
        | false => trivial
        | true =>
            intro call hpromotes j hlive
            obtain ⟨σ', hstep, hleader, hloops⟩ := hpromotes.step
            have hrun' : (cluster n).run (before ++ [.voteReturn k true]) = some σ' :=
              Machine.run_concat_iff.mpr ⟨σ, hrun, hstep⟩
            obtain ⟨loop, hloop, hserver, hpc⟩ := hlive
            have hlt : j < σ.loops.length := (List.getElem?_eq_some_iff.mp hloop).1
            have hkept : σ'.LiveLoop call.caller j :=
              ⟨loop, by rw [hloops, List.getElem?_append_left hlt]; exact hloop, hserver, hpc⟩
            have hone' := hone.1 _ σ' ⟨after, by simp [hsplit]⟩ hrun' call.caller hleader
            have heq : j = σ.loops.length := hone'.unique hkept (live_loop_spawned hloops)
            omega
    | _ => trivial
  · intro hmeets
    constructor
    · intro first σ hfirst hrun p hleader
      obtain ⟨k, hlive⟩ := leader_has_loop hrun p hleader
      exact ⟨k, hlive, fun j hj =>
        live_loop_unique (hmeets.of_initial hfirst) hrun p j k hj hlive⟩
    · intro first second σ hsplit hrun p i j hi hj _ _
      exact live_loop_unique (hmeets.of_initial ⟨second, hsplit.symm⟩) hrun p i j hi hj

/-- Server 0 of three stands in term 1 and both others vote for it. Its ticker spawns a second
election. The first vote makes it a leader, the second election makes it a candidate of term 2, and
the other vote of term 1 makes it a leader again. -/
def promotedTwice : List (Action 3) :=
  [.tickerTest peer0, .tickerStart peer0, .advance 300, .tickerWake peer0, .emitElection peer0,
    .requestVote 0, .requestVote 1, .tickerTest peer0, .tickerStart peer0, .advance 300,
    .tickerWake peer0, .voteReturn 0 true, .emitElection peer0, .voteReturn 1 true]

/-- Both loops of server 0 go through a whole round and its pause. -/
def bothRounds : List (Action 3) :=
  List.replicate 8 (.sendHeartBeat 0) ++ List.replicate 8 (.sendHeartBeat 1) ++ [.advance 100]

/-- After `promotedTwice` server 0 has two loops, and both start another round. -/
theorem promoted_twice_two_loops :
    ¬ ∀ (n : Nat) (actions : List (Action n)), OneLoopPerLeader actions := by
  intro hall
  obtain ⟨σ, hrun, hfirst, hsecond⟩ := (cluster 3).exists_run_of_check promotedTwice
    (fun σ => σ.loops[0]? = some ⟨0, .sample⟩ ∧ σ.loops[1]? = some ⟨0, .sample⟩) (by decide)
  obtain ⟨τ₀, τ₀', hτ₀, hstep₀, hsample₀⟩ := (cluster 3).exists_step_of_check
    (promotedTwice ++ bothRounds) (.sendHeartBeat 0)
    (fun _ τ => τ.loops[0]? = some ⟨0, .sample⟩) (by decide)
  obtain ⟨τ₁, τ₁', hτ₁, hstep₁, hsample₁⟩ := (cluster 3).exists_step_of_check
    (promotedTwice ++ (bothRounds ++ [.sendHeartBeat 0])) (.sendHeartBeat 1)
    (fun _ τ => τ.loops[1]? = some ⟨0, .sample⟩) (by decide)
  have hround₀ : (cluster 3).runFrom σ bothRounds = some τ₀ :=
    Machine.run_from_of_append hτ₀ hrun
  have hround₁ : (cluster 3).runFrom σ (bothRounds ++ [.sendHeartBeat 0]) = some τ₁ :=
    Machine.run_from_of_append hτ₁ hrun
  have hstarts₀ : StartsRound σ (bothRounds ++ [.sendHeartBeat 0, .sendHeartBeat 1]) 0 :=
    ⟨bothRounds, [.sendHeartBeat 1], τ₀, τ₀', _, rfl, hround₀, hstep₀, hsample₀, rfl⟩
  have hstarts₁ : StartsRound σ (bothRounds ++ [.sendHeartBeat 0, .sendHeartBeat 1]) 1 :=
    ⟨bothRounds ++ [.sendHeartBeat 0], [], τ₁, τ₁', _, List.append_cons _ _ _, hround₁,
      hstep₁, hsample₁, rfl⟩
  have hlive : σ.LiveLoop 0 0 ∧ σ.LiveLoop 0 1 :=
    ⟨⟨_, hfirst, rfl, by simp⟩, ⟨_, hsecond, rfl, by simp⟩⟩
  have heq := (hall 3 (promotedTwice ++ (bothRounds ++ [.sendHeartBeat 0, .sendHeartBeat 1]))).2
    promotedTwice (bothRounds ++ [.sendHeartBeat 0, .sendHeartBeat 1]) σ rfl hrun 0 0 1
    hlive.1 hlive.2 hstarts₀ hstarts₁
  omega

end DistributedLabs.Raft
