import Mathlib.Data.Finset.Lattice.Fold
import Mathlib.Data.Fintype.Basic
import DistributedLabs.Raft.Killed

/-!
# Every live server can still be elected

The election code has no state from which it cannot recover: from every reachable state, whatever
was lost and whoever has voted for whom, a server that is not dead can become the leader
(`always_electable`). Its ticker wakes up twice without hearing an RPC and spawns an election; this
is repeated until the term of the server is above all others, and then every other server grants its
vote. Only the ticker of this one server and deliveries of its own requests are needed. A cluster of
one server is the exception, because a server is promoted only when it counts the vote of another.
-/

namespace DistributedLabs.Raft

variable {n : Nat} {σ σ' τ : Cluster n} {action : Action n} {actions : List (Action n)} {p : Fin n}

/-! ## A live server has a ticker -/

/-- A server that is dead stays dead. -/
theorem dead_step (h : step σ action = some σ') (hdead : (σ.servers p).dead = true) :
    (σ'.servers p).dead = true := by
  by_cases hwake : action = .tickerWake p
  · subst hwake
    cases step_inversion h with
    | tickerWake s startWaitTime hpc hslept =>
        simp [Cluster.setServer, tickerCheck, hdead]
  · exact (timer_step h hwake).dead hdead

/-- Only the ticker of a dead server exits. -/
theorem exited_step (h : step σ action = some σ') (hexited : σ'.tickers p = .exited) :
    σ.tickers p = .exited ∨ (σ.servers p).dead = true := by
  cases step_inversion h with
  | tickerTest s hpc =>
      simp only [Function.update_apply] at hexited
      split at hexited
      · rename_i heq
        subst heq
        split at hexited
        · exact Or.inr ‹_›
        · cases hexited
      · exact Or.inl hexited
  | tickerStart s hpc =>
      simp only [Function.update_apply] at hexited
      split at hexited
      · cases hexited
      · exact Or.inl hexited
  | tickerWake s startWaitTime hpc hslept =>
      simp only [Function.update_apply] at hexited
      split at hexited
      · cases hexited
      · exact Or.inl hexited
  | voteReturn => exact Or.inl (by simpa using hexited)
  | advance | emitElection | requestVote | voteFail | sendHeartBeat | getHeartbeat
  | heartbeatReturn | kill => exact Or.inl hexited

/-- In every reachable state a ticker has exited only if its server is dead. -/
theorem dead_of_exited (h : (cluster n).run actions = some σ) :
    ∀ p, σ.tickers p = .exited → (σ.servers p).dead = true := by
  refine Machine.run_induction
    (motive := fun _ σ => ∀ p, σ.tickers p = .exited → (σ.servers p).dead = true) ?_ ?_ h
  · intro p hexited
    cases hexited
  · intro actions σ action σ' _ ih hstep p hexited
    rcases exited_step hstep hexited with hold | hdead
    · exact dead_step hstep (ih p hold)
    · exact dead_step hstep hdead

/-! ## The ticker spawns an election -/

/-- Nothing has changed at the servers but the timer of one of them. -/
structure SameButTimer (p : Fin n) (σ σ' : Cluster n) : Prop where
  others : ∀ q, q ≠ p → σ'.servers q = σ.servers q
  own : σ'.servers p =
    { σ.servers p with lastTimeReceiveRPC := (σ'.servers p).lastTimeReceiveRPC }

/-- One step after another. -/
theorem SameButTimer.trans (h : SameButTimer p σ σ') (h' : SameButTimer p σ' τ) :
    SameButTimer p σ τ where
  others := fun q hne => (h'.others q hne).trans (h.others q hne)
  own := by
    rw [h'.own, h.own]

/-- Steps that leave the servers alone. -/
theorem SameButTimer.of_eq (h : σ'.servers = σ.servers) : SameButTimer p σ σ' where
  others := fun q _ => congrFun h q
  own := by rw [h]

/-- The rest of a run, of which only the timer of one server is seen. -/
structure Waits (p : Fin n) (σ τ : Cluster n) : Prop extends SameButTimer p σ τ where
  run : ∃ rest, (cluster n).runFrom σ rest = some τ

/-- One more step at the front. -/
theorem Waits.of_step (hstep : step σ action = some σ') (hsame : SameButTimer p σ σ')
    (h : Waits p σ' τ) : Waits p σ τ where
  toSameButTimer := hsame.trans h.toSameButTimer
  run := by
    obtain ⟨rest, hrest⟩ := h.run
    have hfirst : (cluster n).step σ action = some σ' := hstep
    exact ⟨action :: rest, by simp [Machine.runFrom, hfirst, hrest]⟩

/-- No more steps. -/
theorem Waits.refl (σ : Cluster n) : Waits p σ σ where
  toSameButTimer := SameButTimer.of_eq rfl
  run := ⟨[], rfl⟩

/-- The state after a ticker has woken up. -/
def Cluster.woken (σ : Cluster n) (p : Fin n) (startWaitTime : Nat) : Cluster n :=
  { σ.setServer p (tickerCheck (σ.servers p) startWaitTime).1 with
    tickers := Function.update σ.tickers p .test
    elections := Function.update σ.elections p
      (σ.elections p + if (tickerCheck (σ.servers p) startWaitTime).2 then 1 else 0) }

/-- A ticker that has slept for 300 milliseconds can wake up. -/
theorem step_wake {startWaitTime : Nat} (hsleeping : σ.tickers p = .sleeping startWaitTime)
    (hslept : startWaitTime + 300 ≤ σ.now) :
    step σ (.tickerWake p) = some (σ.woken p startWaitTime) ∧
      SameButTimer p σ (σ.woken p startWaitTime) := by
  refine ⟨?_, ?_, ?_⟩
  · simp only [step, hsleeping]
    exact if_pos hslept
  · intro q hne
    exact Function.update_of_ne hne _ _
  · simp [Cluster.woken, Cluster.setServer, tickerCheck]

/-- The clock can pass the sleep of a ticker. -/
theorem step_sleep (σ : Cluster n) (p : Fin n) :
    step σ (.advance 300) = some { σ with now := σ.now + 300 } ∧
      SameButTimer p σ { σ with now := σ.now + 300 } :=
  ⟨rfl, SameButTimer.of_eq rfl⟩

/-- A live server passes the test of its ticker. -/
theorem step_test (htest : σ.tickers p = .test) (hlive : (σ.servers p).dead = false) :
    step σ (.tickerTest p) =
        some { σ with tickers := Function.update σ.tickers p .tested } ∧
      SameButTimer p σ { σ with tickers := Function.update σ.tickers p .tested } := by
  refine ⟨?_, SameButTimer.of_eq rfl⟩
  simp [step, htest, hlive]

/-- A ticker past its test reads the clock and goes to sleep. -/
theorem step_start (htested : σ.tickers p = .tested) :
    step σ (.tickerStart p) =
        some { σ with tickers := Function.update σ.tickers p (.sleeping σ.now) } ∧
      SameButTimer p σ { σ with tickers := Function.update σ.tickers p (.sleeping σ.now) } := by
  refine ⟨?_, SameButTimer.of_eq rfl⟩
  simp [step, htested]

/-- A ticker that has heard no RPC since it fell asleep spawns an election. -/
theorem spawned_of_late {startWaitTime : Nat} (hsleeping : σ.tickers p = .sleeping startWaitTime)
    (hle : startWaitTime ≤ σ.now) (hlate : (σ.servers p).lastTimeReceiveRPC < startWaitTime)
    (hrole : (σ.servers p).state ≠ .leader) : ∃ τ, Waits p σ τ ∧ 0 < τ.elections p := by
  obtain ⟨hsleep, hsame⟩ := step_sleep σ p
  obtain ⟨hwake, hsame'⟩ := step_wake (σ := { σ with now := σ.now + 300 }) hsleeping
    (Nat.add_le_add_right hle 300)
  refine ⟨_, Waits.of_step hsleep hsame (Waits.of_step hwake hsame' (Waits.refl _)), ?_⟩
  simp [Cluster.woken, tickerCheck, hlate, hrole]

/-- A ticker that reads the clock after the last RPC spawns an election when it wakes up. -/
theorem spawned_of_start (htested : σ.tickers p = .tested)
    (hlate : (σ.servers p).lastTimeReceiveRPC < σ.now) (hrole : (σ.servers p).state ≠ .leader) :
    ∃ τ, Waits p σ τ ∧ 0 < τ.elections p := by
  obtain ⟨hstart, hsame⟩ := step_start htested
  obtain ⟨τ, hwaits, hspawned⟩ := spawned_of_late
    (σ := { σ with tickers := Function.update σ.tickers p (.sleeping σ.now) })
    (Function.update_self _ _ _) (le_refl _) hlate hrole
  exact ⟨τ, Waits.of_step hstart hsame hwaits, hspawned⟩

/-- A ticker that was kept from spawning an election spawns one after its next sleep. -/
theorem spawned_of_sleeping {startWaitTime : Nat}
    (hsleeping : σ.tickers p = .sleeping startWaitTime) (hle : startWaitTime ≤ σ.now)
    (hlive : (σ.servers p).dead = false) (hrole : (σ.servers p).state ≠ .leader) :
    ∃ τ, Waits p σ τ ∧ 0 < τ.elections p := by
  obtain ⟨hsleep, hsame⟩ := step_sleep σ p
  obtain ⟨hwake, hsame'⟩ := step_wake (σ := { σ with now := σ.now + 300 }) hsleeping
    (Nat.add_le_add_right hle 300)
  have hown := hsame'.own
  have htest : (Cluster.woken { σ with now := σ.now + 300 } p startWaitTime).tickers p = .test :=
    Function.update_self _ _ _
  obtain ⟨hagain, hsame''⟩ := step_test htest (by rw [hown]; exact hlive)
  -- the timer now has the start of the sleep that is over, which is before the start of the next
  obtain ⟨τ, hwaits, hspawned⟩ := spawned_of_start (σ := { Cluster.woken
      { σ with now := σ.now + 300 } p startWaitTime with
        tickers := Function.update
          (Cluster.woken { σ with now := σ.now + 300 } p startWaitTime).tickers p .tested })
    (Function.update_self _ _ _)
    (by simp [Cluster.woken, Cluster.setServer, tickerCheck]; omega)
    (by
      show ((Cluster.woken { σ with now := σ.now + 300 } p startWaitTime).servers p).state ≠ _
      rw [hown]
      exact hrole)
  exact ⟨τ, Waits.of_step hsleep hsame (Waits.of_step hwake hsame'
    (Waits.of_step hagain hsame'' hwaits)), hspawned⟩

/-- A live server past the test of its ticker can spawn an election, if not in this pass then in
the next one. -/
theorem spawned_of_tested (htested : σ.tickers p = .tested)
    (hlive : (σ.servers p).dead = false) (hrole : (σ.servers p).state ≠ .leader) :
    ∃ τ, Waits p σ τ ∧ 0 < τ.elections p := by
  obtain ⟨hstart, hsame⟩ := step_start htested
  obtain ⟨τ, hwaits, hspawned⟩ := spawned_of_sleeping
    (σ := { σ with tickers := Function.update σ.tickers p (.sleeping σ.now) })
    (Function.update_self _ _ _) (le_refl _) hlive hrole
  exact ⟨τ, Waits.of_step hstart hsame hwaits, hspawned⟩

/-- A live server that is not the leader can spawn an election. -/
theorem exists_spawned (hrun : (cluster n).run actions = some σ)
    (hlive : (σ.servers p).dead = false) (hrole : (σ.servers p).state ≠ .leader) :
    ∃ τ, Waits p σ τ ∧ 0 < τ.elections p := by
  cases hticker : σ.tickers p with
  | exited =>
      rw [dead_of_exited hrun p hticker] at hlive
      cases hlive
  | sleeping startWaitTime =>
      exact spawned_of_sleeping hticker (ticker_started hrun p startWaitTime hticker) hlive hrole
  | tested => exact spawned_of_tested hticker hlive hrole
  | test =>
      obtain ⟨htest, hsame⟩ := step_test hticker hlive
      obtain ⟨τ, hwaits, hspawned⟩ := spawned_of_tested
        (σ := { σ with tickers := Function.update σ.tickers p .tested })
        (Function.update_self _ _ _) hlive hrole
      exact ⟨τ, Waits.of_step htest hsame hwaits, hspawned⟩

/-! ## The term rises above all others -/

/-- An election of the server, and what has happened until then at the servers. -/
structure Elects (p : Fin n) (σ τ : Cluster n) (term : Nat) : Prop where
  run : ∃ rest, (cluster n).runFrom σ rest = some τ
  others : ∀ q, q ≠ p → τ.servers q = σ.servers q
  live : (τ.servers p).dead = (σ.servers p).dead
  candidate : (τ.servers p).state = .candidate
  term_eq : (τ.servers p).currentTerm = term
  votednumber : (τ.servers p).votednumber = 1
  requested : voteRequests p ⟨term, p⟩ <:+ τ.voteCalls

/-- The state after a server has started an election. -/
def Cluster.electing (σ : Cluster n) (p : Fin n) : Cluster n :=
  { σ.setServer p (emitElection (σ.servers p) p).1 with
    elections := Function.update σ.elections p (σ.elections p - 1)
    voteCalls := σ.voteCalls ++ voteRequests p (emitElection (σ.servers p) p).2 }

/-- The elections that were spawned can be started. -/
theorem step_elect (hspawned : 0 < σ.elections p) :
    step σ (.emitElection p) = some (σ.electing p) :=
  if_pos hspawned

/-- A live server that is not the leader can start an election in the next term. -/
theorem exists_election (hrun : (cluster n).run actions = some σ)
    (hlive : (σ.servers p).dead = false) (hrole : (σ.servers p).state ≠ .leader) :
    ∃ τ, Elects p σ τ ((σ.servers p).currentTerm + 1) := by
  obtain ⟨τ, hwaits, hspawned⟩ := exists_spawned hrun hlive hrole
  obtain ⟨rest, hrest⟩ := hwaits.run
  have hterm : (τ.servers p).currentTerm = (σ.servers p).currentTerm := by rw [hwaits.own]
  have hserver : (τ.electing p).servers p = (emitElection (τ.servers p) p).1 :=
    Function.update_self _ _ _
  refine ⟨τ.electing p, ?_, ?_, ?_, ?_, ?_, ?_, ?_⟩
  · refine ⟨rest ++ [.emitElection p], ?_⟩
    have hlast : (cluster n).step τ (.emitElection p) = some (τ.electing p) := step_elect hspawned
    rw [Machine.run_from_append, hrest]
    simp [Machine.runFrom, hlast]
  · intro q hne
    exact (Function.update_of_ne hne _ _).trans (hwaits.others q hne)
  · rw [hserver]
    show (τ.servers p).dead = _
    rw [hwaits.own]
  · rw [hserver]
    rfl
  · rw [hserver, ← hterm]
    rfl
  · rw [hserver]
    rfl
  · rw [← hterm]
    exact List.suffix_append _ _

/-- The rest of a run leads to reachable states. -/
theorem run_of_run_from (hrun : (cluster n).run actions = some σ) {rest : List (Action n)}
    (hrest : (cluster n).runFrom σ rest = some τ) : (cluster n).run (actions ++ rest) = some τ :=
  Machine.run_append_iff.mpr ⟨σ, hrun, hrest⟩

/-- A live server that is not the leader can start an election in a term above any bound. -/
theorem exists_high_election (hrun : (cluster n).run actions = some σ)
    (hlive : (σ.servers p).dead = false) (hrole : (σ.servers p).state ≠ .leader) (bound : Nat) :
    ∃ τ term, Elects p σ τ term ∧ bound < term := by
  -- every election raises the term by one
  induction hgap : bound - (σ.servers p).currentTerm generalizing σ actions with
  | zero =>
      obtain ⟨τ, helects⟩ := exists_election hrun hlive hrole
      exact ⟨τ, _, helects, by omega⟩
  | succ gap ih =>
      obtain ⟨τ, helects⟩ := exists_election hrun hlive hrole
      obtain ⟨rest, hrest⟩ := helects.run
      have hrole' : (τ.servers p).state ≠ .leader := by
        rw [helects.candidate]
        simp
      obtain ⟨τ', term, helects', hbound⟩ := ih (run_of_run_from hrun hrest)
        (helects.live.trans hlive) hrole' (by rw [helects.term_eq]; omega)
      refine ⟨τ', term, { helects' with run := ?_, others := ?_, live := ?_ }, hbound⟩
      · obtain ⟨rest', hrest'⟩ := helects'.run
        exact ⟨rest ++ rest', by rw [Machine.run_from_append, hrest, Option.bind_some, hrest']⟩
      · exact fun q hne => (helects'.others q hne).trans (helects.others q hne)
      · exact helects'.live.trans helects.live

/-- Every other server is asked for its vote. -/
theorem length_vote_requests (p : Fin n) (args : RequestVoteArgs n) :
    (voteRequests p args).length + 1 = n := by
  have hsplit := List.length_eq_countP_add_countP (fun q => decide (q ≠ p)) (l := List.finRange n)
  have hown : (List.finRange n).countP (fun q => decide ¬decide (q ≠ p) = true) = 1 := by
    have hcount := List.Nodup.count (a := p) (List.nodup_finRange n)
    rw [if_pos (List.mem_finRange p)] at hcount
    rw [← hcount]
    refine List.countP_congr fun q _ => ?_
    simp
  rw [hown, List.length_finRange] at hsplit
  rw [voteRequests, List.length_map, ← List.countP_eq_length_filter]
  exact hsplit.symm

/-- In an election in a term above all others, every other server can grant its vote. -/
theorem Elects.open_votes {term : Nat} (h : Elects p σ τ term)
    (habove : ∀ q, (σ.servers q).currentTerm < term) : n ≤ τ.openVotes p + 1 := by
  obtain ⟨before, hcalls⟩ := h.requested
  have hall : (voteRequests p ⟨term, p⟩).countP (fun call => τ.OpenVote p call) =
      (voteRequests p ⟨term, p⟩).length := by
    refine List.countP_eq_length.mpr fun call hcall => decide_eq_true ?_
    obtain ⟨q, hq, rfl⟩ := List.mem_map.mp hcall
    have hne : q ≠ p := by simpa using (List.mem_filter.mp hq).2
    refine ⟨rfl, rfl, decide_eq_true (Or.inl ?_)⟩
    show (τ.servers q).currentTerm < term
    rw [h.others q hne]
    exact habove q
  have hlength := length_vote_requests p ⟨term, p⟩
  rw [Cluster.openVotes, ← hcalls, List.countP_append, hall]
  omega

/-- What a continuation of a later state does is done by a continuation of this one. -/
theorem CanBePromoted.of_run {rest : List (Action n)}
    (hrest : (cluster n).runFrom σ rest = some τ) (h : CanBePromoted τ p) : CanBePromoted σ p := by
  obtain ⟨more, τ', last, τ'', hmore, hlast⟩ := h
  refine ⟨rest ++ more, τ', last, τ'', ?_, hlast⟩
  rw [Machine.run_from_append, hrest, Option.bind_some, hmore]

/-- In a cluster of one server nobody is promoted: no vote of another server can return. -/
theorem not_can_be_promoted_alone {actions : List (Action 1)} {σ : Cluster 1} {p : Fin 1}
    (hrun : (cluster 1).run actions = some σ) : ¬ CanBePromoted σ p := by
  rintro ⟨rest, τ, last, τ', hrest, hlast, hbefore, hafter⟩
  obtain ⟨k, call, -, hpromotes, -⟩ := promotes_of_leader hlast hbefore hafter
  have hcalls := calls_recorded (run_of_run_from hrun hrest)
  have hother := (hcalls.wellFormed call (List.mem_of_getElem? hpromotes.called)).2.1
  exact hother (Subsingleton.elim _ _)

/-- From every reachable state, whatever was lost and whoever has voted for whom, a server that is
not dead and not the leader can still become the leader, unless it is the only server. -/
theorem always_electable {n : Nat} (actions : List (Action n)) (σ : Cluster n)
    (hrun : (cluster n).run actions = some σ) (p : Fin n) (hlive : (σ.servers p).dead = false)
    (hrole : (σ.servers p).state ≠ .leader) : CanBePromoted σ p ↔ n ≠ 1 := by
  constructor
  · rintro hcan rfl
    exact not_can_be_promoted_alone hrun hcan
  · intro hpeers
    obtain ⟨τ, term, helects, hterm⟩ := exists_high_election hrun hlive hrole
      (Finset.univ.sup fun q => (σ.servers q).currentTerm)
    have habove : ∀ q, (σ.servers q).currentTerm < term := fun q =>
      (Finset.le_sup (f := fun q => (σ.servers q).currentTerm) (Finset.mem_univ q)).trans_lt hterm
    obtain ⟨rest, hrest⟩ := helects.run
    have hopen := helects.open_votes habove
    have hpos := p.pos
    refine CanBePromoted.of_run hrest (open_votes_promote (run_of_run_from hrun hrest)
      helects.candidate (by omega) ?_)
    rw [helects.votednumber]
    omega

/-- Server 0 has lost the vote of server 1 to server 2, in the term that both stand in. It can be
elected nevertheless. -/
theorem always_electable_split : ∃ σ, (cluster 3).run splitVotes = some σ ∧
    (σ.servers 1).votedFor = some 2 ∧ CanBePromoted σ 0 := by
  obtain ⟨σ, hrun, hvote, hlive, hrole⟩ := (cluster 3).exists_run_of_check splitVotes
    (fun σ => (σ.servers 1).votedFor = some 2 ∧ (σ.servers 0).dead = false ∧
      (σ.servers 0).state ≠ .leader) (by decide)
  exact ⟨σ, hrun, hvote, (always_electable splitVotes σ hrun 0 hlive hrole).mpr (by decide)⟩

end DistributedLabs.Raft
