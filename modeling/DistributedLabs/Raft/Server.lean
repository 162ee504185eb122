import Mathlib.Data.Fintype.Basic

/-!
# One Raft server

The `Raft` struct of `raft/raft.go` and the sections of code that run under its lock: the two RPC
handlers, the first half of `emitElection`, the tail of the vote goroutine, the tail of the
heartbeat goroutine, and the check of the ticker. Each section is a function from the struct
before to the struct after, together with what it hands to the rest of the program.

`peers` has length `n` and a server is an index into it. Terms and vote counts are `Nat`: they
start at zero and only grow. `votedFor` is `none` where the source has `-1`. Clock readings are in
milliseconds, with `0` for the zero value of `time.Time`, which precedes every reading. The log
fields of the RPC arguments are never set or read by the source and are left out.
-/

namespace DistributedLabs.Raft

/-- The role of a server. -/
inductive ServerState where
  | follower
  | candidate
  | leader
  deriving DecidableEq, Repr

/-- The `Raft` struct: the fields protected by its lock, and the `dead` flag. -/
structure Server (n : Nat) where
  state : ServerState
  currentTerm : Nat
  votedFor : Option (Fin n)
  votednumber : Nat
  lastTimeReceiveRPC : Nat
  dead : Bool
  deriving DecidableEq

/-- The arguments of `RequestVote`. -/
structure RequestVoteArgs (n : Nat) where
  term : Nat
  candidateId : Fin n
  deriving DecidableEq

/-- The reply of `RequestVote`. -/
structure RequestVoteReply where
  term : Nat
  voteGranted : Bool
  deriving DecidableEq

/-- The arguments of `GetHeartbeat`. -/
structure AppendEntries (n : Nat) where
  term : Nat
  leaderID : Fin n
  deriving DecidableEq

/-- The reply of `GetHeartbeat`; the defaults are the zero values of a fresh Go struct. -/
structure HeartbeatReply where
  term : Nat := 0
  success : Bool := false
  deriving DecidableEq

variable {n : Nat}

/-- The struct that `Make` builds, before `readPersist`, which restores nothing. -/
def make : Server n where
  state := .follower
  currentTerm := 0
  votedFor := none
  votednumber := 0
  lastTimeReceiveRPC := 0
  dead := false

/-- The `else` branch of `RequestVote` up to the vote: a newer term is adopted, and with it the
old vote and the old role are dropped. -/
def adoptTerm (rf : Server n) (term : Nat) : Server n :=
  if rf.currentTerm < term then
    { rf with currentTerm := term, votedFor := none, state := .follower }
  else rf

/-- The `RequestVote` handler. The reply carries the term from before the update. -/
def requestVote (rf : Server n) (now : Nat) (args : RequestVoteArgs n) :
    Server n × RequestVoteReply :=
  if args.term < rf.currentTerm then
    ({ rf with lastTimeReceiveRPC := now }, ⟨rf.currentTerm, false⟩)
  else if (adoptTerm rf args.term).votedFor = none ∨
      (adoptTerm rf args.term).votedFor = some args.candidateId then
    ({ adoptTerm rf args.term with
        votedFor := some args.candidateId
        lastTimeReceiveRPC := now }, ⟨rf.currentTerm, true⟩)
  else
    ({ adoptTerm rf args.term with lastTimeReceiveRPC := now }, ⟨rf.currentTerm, false⟩)

/-- The `GetHeartbeat` handler. It never sets the `Term` field of its reply. -/
def getHeartbeat (rf : Server n) (now : Nat) (appendentries : AppendEntries n) :
    Server n × HeartbeatReply :=
  if appendentries.term < rf.currentTerm then
    (rf, { success := false })
  else
    -- a leader of the same term steps down too, and `votedFor` is kept even when the term is newer
    ({ rf with
        state := .follower
        currentTerm := appendentries.term
        lastTimeReceiveRPC := now }, { success := true })

/-- The locked first half of `emitElection`, with the arguments that every vote request of this
election carries. -/
def emitElection (rf : Server n) (me : Fin n) : Server n × RequestVoteArgs n :=
  -- the ticker tested the role before it spawned this goroutine; here it is not tested again
  let term := rf.currentTerm + 1
  ({ rf with
      currentTerm := term
      state := .candidate
      votedFor := some me
      votednumber := 1 }, ⟨term, me⟩)

/-- The locked tail of the vote goroutine of `emitElection`, entered when the call succeeded and
the vote was granted. The flag says that `LeaderOperation` was called. -/
def countVote (rf : Server n) : Server n × Bool :=
  -- the counter goes up in every role, and whatever the term of the request was
  if rf.state = .candidate ∧ n / 2 < rf.votednumber + 1 then
    ({ rf with votednumber := rf.votednumber + 1, state := .leader }, true)
  else ({ rf with votednumber := rf.votednumber + 1 }, false)

/-- The locked tail of the heartbeat goroutine of `sendHeartBeat`. -/
def heartbeatReturn (rf : Server n) (heartbeatreply : HeartbeatReply) : Server n :=
  if rf.currentTerm < heartbeatreply.term then { rf with state := .follower } else rf

/-- The locked section of `ticker`. The flag says that `emitElection` was spawned. -/
def tickerCheck (rf : Server n) (startWaitTime : Nat) : Server n × Bool :=
  ({ rf with lastTimeReceiveRPC := startWaitTime },
    decide (rf.lastTimeReceiveRPC < startWaitTime ∧ rf.state ≠ .leader))

/-- `Kill` sets the `dead` flag. -/
def kill (rf : Server n) : Server n :=
  { rf with dead := true }

/-! ## What each section does to the term, the vote and the role -/

/-- A server that already has the term keeps everything. -/
theorem adopt_term_of_le {rf : Server n} {term : Nat} (h : term ≤ rf.currentTerm) :
    adoptTerm rf term = rf :=
  if_neg (by omega)

/-- A server behind the term becomes a follower of it without a vote. -/
theorem adopt_term_of_lt {rf : Server n} {term : Nat} (h : rf.currentTerm < term) :
    adoptTerm rf term =
      { rf with currentTerm := term, votedFor := none, state := .follower } :=
  if_pos h

/-- The three outcomes of `RequestVote`: the request or the candidate is refused and only the
timer is reset, the vote is granted within the current term, or a newer term is adopted and the
vote granted in it. -/
theorem request_vote_cases (rf : Server n) (now : Nat) (args : RequestVoteArgs n) :
    requestVote rf now args = ({ rf with lastTimeReceiveRPC := now }, ⟨rf.currentTerm, false⟩) ∧
        args.term ≤ rf.currentTerm ∨
    requestVote rf now args =
        ({ rf with votedFor := some args.candidateId, lastTimeReceiveRPC := now },
          ⟨rf.currentTerm, true⟩) ∧ args.term = rf.currentTerm ∧
        (rf.votedFor = none ∨ rf.votedFor = some args.candidateId) ∨
    requestVote rf now args =
        ({ rf with
            currentTerm := args.term
            votedFor := some args.candidateId
            state := .follower
            lastTimeReceiveRPC := now }, ⟨rf.currentTerm, true⟩) ∧ rf.currentTerm < args.term := by
  rcases lt_trichotomy args.term rf.currentTerm with hlt | heq | hgt
  · exact Or.inl ⟨if_pos hlt, by omega⟩
  · have hadopt := adopt_term_of_le (show args.term ≤ rf.currentTerm by omega)
    unfold requestVote
    rw [if_neg (by omega), hadopt]
    by_cases hfree : rf.votedFor = none ∨ rf.votedFor = some args.candidateId
    · exact Or.inr (Or.inl ⟨if_pos hfree, heq, hfree⟩)
    · exact Or.inl ⟨if_neg hfree, by omega⟩
  · refine Or.inr (Or.inr ⟨?_, hgt⟩)
    unfold requestVote
    rw [if_neg (by omega), adopt_term_of_lt hgt, if_pos (Or.inl rfl)]

/-- `RequestVote` raises the term to the requested one and never lowers it. -/
theorem request_vote_term (rf : Server n) (now : Nat) (args : RequestVoteArgs n) :
    (requestVote rf now args).1.currentTerm = max rf.currentTerm args.term := by
  rcases request_vote_cases rf now args with ⟨h, hle⟩ | ⟨h, heq, _⟩ | ⟨h, hlt⟩ <;>
    simp only [h] <;> omega

/-- A granted vote is recorded in `votedFor`, at the term of the request. -/
theorem request_vote_granted {rf : Server n} {now : Nat} {args : RequestVoteArgs n}
    (hgranted : (requestVote rf now args).2.voteGranted = true) :
    (requestVote rf now args).1.votedFor = some args.candidateId ∧
      (requestVote rf now args).1.currentTerm = args.term := by
  rcases request_vote_cases rf now args with ⟨h, _⟩ | ⟨h, heq, _⟩ | ⟨h, _⟩
  · simp [h] at hgranted
  · simp [h, heq]
  · simp [h]

/-- Within one term `RequestVote` never replaces a vote. -/
theorem request_vote_keeps_vote {rf : Server n} {now : Nat} {args : RequestVoteArgs n} {c : Fin n}
    (hvote : rf.votedFor = some c)
    (hterm : (requestVote rf now args).1.currentTerm = rf.currentTerm) :
    (requestVote rf now args).1.votedFor = some c := by
  rcases request_vote_cases rf now args with ⟨h, _⟩ | ⟨h, _, hfree⟩ | ⟨h, hlt⟩
  · simp [h, hvote]
  · simp only [hvote, reduceCtorEq, Option.some.injEq, false_or] at hfree
    simp [h, hfree]
  · simp only [h] at hterm
    omega

/-- `RequestVote` keeps role and term, or makes the server a follower of a strictly newer term. -/
theorem request_vote_state (rf : Server n) (now : Nat) (args : RequestVoteArgs n) :
    ((requestVote rf now args).1.state = rf.state ∧
        (requestVote rf now args).1.currentTerm = rf.currentTerm) ∨
      ((requestVote rf now args).1.state = .follower ∧ rf.currentTerm < args.term) := by
  rcases request_vote_cases rf now args with ⟨h, _⟩ | ⟨h, _, _⟩ | ⟨h, hlt⟩
  · exact Or.inl (by simp [h])
  · exact Or.inl (by simp [h])
  · exact Or.inr ⟨by simp [h], hlt⟩

/-- `RequestVote` does not touch the vote counter. -/
@[simp] theorem request_vote_votednumber (rf : Server n) (now : Nat) (args : RequestVoteArgs n) :
    (requestVote rf now args).1.votednumber = rf.votednumber := by
  rcases request_vote_cases rf now args with ⟨h, _⟩ | ⟨h, _, _⟩ | ⟨h, _⟩ <;> simp [h]

/-- `GetHeartbeat` ignores older terms, and otherwise makes the server a follower of the term of
the heartbeat without touching its vote. -/
theorem get_heartbeat_cases (rf : Server n) (now : Nat) (appendentries : AppendEntries n) :
    (appendentries.term < rf.currentTerm ∧ (getHeartbeat rf now appendentries).1 = rf) ∨
      (rf.currentTerm ≤ appendentries.term ∧
        (getHeartbeat rf now appendentries).1 =
          { rf with
              state := .follower
              currentTerm := appendentries.term
              lastTimeReceiveRPC := now }) := by
  unfold getHeartbeat
  split
  · exact Or.inl ⟨by assumption, rfl⟩
  · exact Or.inr ⟨by omega, rfl⟩

/-- The reply of `GetHeartbeat` always carries term zero. -/
@[simp] theorem get_heartbeat_reply_term (rf : Server n) (now : Nat)
    (appendentries : AppendEntries n) : (getHeartbeat rf now appendentries).2.term = 0 := by
  unfold getHeartbeat
  split <;> rfl

/-- A counted vote makes a leader of a candidate whose majority it completes, and otherwise only
adds to the counter. -/
theorem count_vote_cases (rf : Server n) :
    countVote rf = ({ rf with votednumber := rf.votednumber + 1 }, false) ∨
      rf.state = .candidate ∧ n / 2 < rf.votednumber + 1 ∧
        countVote rf = ({ rf with votednumber := rf.votednumber + 1, state := .leader }, true) := by
  by_cases h : rf.state = .candidate ∧ n / 2 < rf.votednumber + 1
  · exact Or.inr ⟨h.1, h.2, if_pos h⟩
  · exact Or.inl (if_neg h)

end DistributedLabs.Raft
