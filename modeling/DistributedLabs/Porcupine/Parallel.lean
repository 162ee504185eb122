import DistributedLabs.Library.Machine
import DistributedLabs.Porcupine.Verdict

/-!
# Parts of a history in parallel

`checkParallel` starts a goroutine with `checkSingle` for every part of a history. The goroutines
share `kill` and send their results to a channel with room for one result of each, and the function
collects them until one is false, all have come in, or the time is up. Verbose checks then wait for
the goroutines that are left. The machine here has every interleaving of the goroutines with the
function and its timer.

`Collecting` is the invariant. No result is false because of `kill` as long as the results are
looked at, so that the answer does not depend on the interleaving. No send waits, so that also the
goroutines that nobody waits for come to their end.
-/

namespace DistributedLabs.Porcupine

variable {State Input Output : Type}

/-- `CheckResult`. -/
inductive CheckResult where
  | unknown
  | ok
  | illegal
  deriving DecidableEq

/-- Where a goroutine is. It stores what it found before it sends its result. -/
inductive Task (State : Type) where
  | started
  | searching (s : CheckState State)
  | stored (ok : Bool) (longest : List (Option (List Nat)))
  | sent (ok : Bool) (longest : List (Option (List Nat)))
  | panicked

/-- Where `checkParallel` is: in the loop, waiting for the goroutines that are left, or back. -/
inductive Phase where
  | select
  | drain
  | returned (result : CheckResult)
  deriving DecidableEq

/-- The goroutines with the variables that they share with the function, and its own ones. -/
structure Parallel (State : Type) where
  tasks : List (Task State)
  results : List Bool
  kill : Bool
  count : Nat
  ok : Bool
  timedOut : Bool
  phase : Phase

/-- What can happen: a goroutine goes on, the loop receives a result or the timeout, or the function
waits for a goroutine that is left. -/
inductive ParallelAction where
  | task (i : Nat)
  | receive
  | timeout
  | drain
  deriving DecidableEq

/-- A goroutine goes on. -/
def taskStep (model : FilledModel State Input Output) (computeInfo kill : Bool)
    (history : List (Entry Input Output)) : Task State → Option (Task State)
  | .started =>
      match checkStart model history with
      | some s => some (.searching s)
      | none => some .panicked
  | .searching s =>
      match checkRound model history (makeLinkedEntries history).matchOf computeInfo kill s with
      | some (.next s) => some (.searching s)
      | some (.done ok longest) => some (.stored ok longest)
      | none => some .panicked
  | .stored ok longest => some (.sent ok longest)
  | .sent _ _ => none
  | .panicked => none

/-- What a goroutine sends when it goes on. -/
def Task.sends : Task State → List Bool
  | .stored ok _ => [ok]
  | _ => []

/-- The result at the end of the function. -/
def checkResult (ok timedOut : Bool) : CheckResult :=
  if !ok then .illegal else if timedOut then .unknown else .ok

/-- Leave the loop. -/
def Parallel.leave (computeInfo : Bool) (s : Parallel State) : Parallel State :=
  { s with phase := if computeInfo then .drain else .returned (checkResult s.ok s.timedOut) }

/-- One step of `checkParallel` with its goroutines. `timeout` says whether there is one. The
channel has a buffer for one result of each part; a send to a full one waits. -/
def parallelStep (model : FilledModel State Input Output)
    (history : List (List (Entry Input Output))) (computeInfo timeout : Bool)
    (s : Parallel State) : ParallelAction → Option (Parallel State)
  | .task i => do
      let task ← s.tasks[i]?
      let later ← taskStep model computeInfo s.kill (← history[i]?) task
      if task.sends = [] ∨ s.results.length < history.length then
        some { s with tasks := s.tasks.set i later, results := s.results ++ task.sends }
      else none
  | .receive =>
      match s.phase, s.results with
      | .select, result :: results =>
          let s := { s with results := results, count := s.count + 1, ok := s.ok && result }
          if !s.ok && !computeInfo then some (Parallel.leave computeInfo { s with kill := true })
          else if s.count ≥ history.length then some (s.leave computeInfo)
          else some s
      | _, _ => none
  | .timeout =>
      if timeout ∧ s.phase = .select then
        some (Parallel.leave computeInfo { s with timedOut := true, kill := true })
      else none
  | .drain =>
      match s.phase, s.results with
      | .drain, results =>
          if s.count < history.length then
            match results with
            | [] => none
            | _ :: results => some { s with results := results, count := s.count + 1 }
          else some { s with phase := .returned (checkResult s.ok s.timedOut) }
      | _, _ => none

/-- `checkParallel`. -/
def checkParallel (model : FilledModel State Input Output)
    (history : List (List (Entry Input Output))) (computeInfo timeout : Bool) :
    Machine (Parallel State) ParallelAction where
  init :=
    { tasks := List.replicate history.length .started
      results := []
      kill := false
      count := 0
      ok := true
      timedOut := false
      phase := .select }
  step := parallelStep model history computeInfo timeout

/-! ## The goroutines -/

/-- A part of a history, with its operations. -/
structure Part (Input Output : Type) where
  entries : List (Entry Input Output)
  matching : Matching entries

/-- The part has a complete linearization. -/
def Part.Accepted (model : FilledModel State Input Output) (part : Part Input Output) : Prop :=
  ∃ ids, CompleteLinearization model part.matching ids

section Tasks

variable (model : FilledModel State Input Output) (computeInfo : Bool)

/-- What a goroutine has found is right, unless it was killed. -/
structure Found (part : Part Input Output) (kill ok : Bool)
    (longest : List (Option (List Nat))) : Prop where
  accepted : ok = true → ∃ ids, CompleteLinearization model part.matching ids ∧
    longest = List.replicate part.matching.ops.length (some ids)
  refused : ok = false → kill = true ∨ ¬ part.Accepted model ∧
    (computeInfo = true → LongestPartials model part.matching longest)

/-- The number of steps that are enough for the search of a part. -/
def Part.rounds (part : Part Input Output) : Nat :=
  enoughRounds part.entries part.matching.ops.length

variable {model}

/-- A goroutine that has made `steps` steps is in order. -/
def TaskOk (hequal : EqualLawful model) (part : Part Input Output) (kill : Bool) (steps : Nat) :
    Task State → Prop
  | .started => steps = 0
  | .searching s => 1 ≤ steps ∧ steps ≤ part.rounds + 1 ∧
      Checking hequal part.matching computeInfo (part.rounds + 1 - steps) s
  | .stored ok longest => steps ≤ part.rounds + 2 ∧ Found model computeInfo part kill ok longest
  | .sent ok longest => steps ≤ part.rounds + 3 ∧ Found model computeInfo part kill ok longest
  | .panicked => False

variable {computeInfo} {hequal : EqualLawful model} {part : Part Input Output} {kill : Bool}
  {steps : Nat} {task later : Task State}

/-- What was found stays right when `kill` is set. -/
theorem Found.of_kill {ok : Bool} {longest : List (Option (List Nat))}
    (h : Found model computeInfo part kill ok longest) :
    Found model computeInfo part true ok longest :=
  ⟨h.accepted, fun _ => Or.inl rfl⟩

/-- A goroutine stays in order when `kill` is set. -/
theorem TaskOk.of_kill (h : TaskOk computeInfo hequal part kill steps task) :
    TaskOk computeInfo hequal part true steps task := by
  cases task with
  | started => exact h
  | searching s => exact h
  | stored ok longest => exact ⟨h.1, h.2.of_kill⟩
  | sent ok longest => exact ⟨h.1, h.2.of_kill⟩
  | panicked => exact h

/-- A goroutine makes at most so many steps. -/
theorem TaskOk.steps_le (h : TaskOk computeInfo hequal part kill steps task) :
    steps ≤ part.rounds + 3 := by
  cases task with
  | started => exact (Nat.le_of_eq h).trans (Nat.zero_le _)
  | searching s =>
      obtain ⟨-, hle, -⟩ := h
      omega
  | stored ok longest =>
      have hle := h.1
      omega
  | sent ok longest => exact h.1
  | panicked => cases h

/-- A step of a goroutine keeps it in order. -/
theorem TaskOk.step (h : TaskOk computeInfo hequal part kill steps task)
    (hstep : taskStep model computeInfo kill part.entries task = some later) :
    TaskOk computeInfo hequal part kill (steps + 1) later := by
  cases task with
  | started =>
      obtain ⟨s, hstart, hchecking⟩ := checking_start hequal part.matching computeInfo
      simp only [taskStep, hstart, Option.some.injEq] at hstep
      subst hstep
      obtain rfl : steps = 0 := h
      exact ⟨Nat.le_refl _, by omega, hchecking⟩
  | searching s =>
      obtain ⟨hpos, hle, hchecking⟩ := h
      rcases hchecking.round with ⟨ids, hcomplete, hround⟩ | ⟨hkilled, hround⟩
      · simp only [taskStep, hround kill, Option.some.injEq] at hstep
        subst hstep
        exact ⟨by omega, fun _ => ⟨ids, hcomplete, rfl⟩, by simp⟩
      · cases kill with
        | true =>
            simp only [taskStep, hkilled, Option.some.injEq] at hstep
            subst hstep
            exact ⟨by omega, by simp, fun _ => Or.inl rfl⟩
        | false =>
            rcases hround with ⟨hround, hnone, hlongest⟩ | ⟨s', hround, hfuel, hnext⟩
            · simp only [taskStep, hround, Option.some.injEq] at hstep
              subst hstep
              refine ⟨by omega, by simp, fun _ => Or.inr ⟨?_, hlongest⟩⟩
              rintro ⟨ids, hcomplete⟩
              exact hnone ids hcomplete
            · simp only [taskStep, hround, Option.some.injEq] at hstep
              subst hstep
              refine ⟨by omega, by omega, ?_⟩
              rwa [show part.rounds + 1 - (steps + 1) = part.rounds + 1 - steps - 1 by omega]
  | stored ok longest =>
      simp only [taskStep, Option.some.injEq] at hstep
      subst hstep
      exact ⟨by have hle := h.1; omega, h.2⟩
  | sent ok longest => cases hstep
  | panicked => cases h

/-- A goroutine that has not sent its result can go on. -/
theorem TaskOk.enabled (h : TaskOk computeInfo hequal part kill steps task)
    (hsent : ∀ ok longest, task ≠ .sent ok longest) :
    ∃ later, taskStep model computeInfo kill part.entries task = some later := by
  cases task with
  | started =>
      simp only [taskStep]
      split <;> exact ⟨_, rfl⟩
  | searching s =>
      simp only [taskStep]
      split <;> exact ⟨_, rfl⟩
  | stored ok longest => exact ⟨_, rfl⟩
  | sent ok longest => exact absurd rfl (hsent ok longest)
  | panicked => cases h

end Tasks

/-! ## Every interleaving -/

/-- The goroutine has sent its result. -/
def Task.isSent : Task State → Bool
  | .sent _ _ => true
  | _ => false

/-- The goroutine has sent that its part is not linearizable. -/
def Task.isRefused : Task State → Bool
  | .sent ok _ => !ok
  | _ => false

/-- Whether the function is back, as a number. -/
def Phase.left : Phase → Nat
  | .returned _ => 1
  | _ => 0

section Collecting

variable {model : FilledModel State Input Output} (hequal : EqualLawful model)
  (parts : List (Part Input Output)) (computeInfo timeout : Bool)

/-- What every interleaving keeps of the goroutines and of the results. -/
structure Gathered (actions : List ParallelAction) (s : Parallel State) : Prop where
  length : s.tasks.length = parts.length
  tasks : ∀ (i : Nat) part task, parts[i]? = some part → s.tasks[i]? = some task →
    TaskOk computeInfo hequal part s.kill (actions.count (.task i)) task
  known : ∀ i, .task i ∈ actions → i < parts.length
  received : s.count + s.results.length = s.tasks.countP Task.isSent
  illegal : s.ok = false → ∃ part ∈ parts, ¬ part.Accepted model
  timed : s.timedOut = true → timeout = true ∧ .timeout ∈ actions
  killed : computeInfo = true → s.timedOut = false → s.kill = false
  waits : actions.count .receive + actions.count .drain ≤ s.count + s.phase.left

/-- What every interleaving keeps. -/
structure Collecting (actions : List ParallelAction) (s : Parallel State) : Prop extends
    Gathered hequal parts computeInfo timeout actions s where
  refused : s.phase = .select → s.ok = true → s.results.count false = s.tasks.countP Task.isRefused
  selecting : s.phase = .select → s.kill = false ∧ s.timedOut = false ∧
    (parts ≠ [] → s.count < parts.length)
  accepted : s.phase ≠ .select → s.ok = true → s.timedOut = false →
    ∀ part ∈ parts, part.Accepted model
  returned : ∀ result, s.phase = .returned result → result = checkResult s.ok s.timedOut ∧
    (computeInfo = true → parts.length ≤ s.count)
  timeouts : actions.count .timeout ≤ if s.phase = .select then 0 else 1

variable {hequal parts computeInfo timeout} {actions : List ParallelAction} {s s' : Parallel State}

/-- Nothing has happened. -/
theorem collecting_init : Collecting hequal parts computeInfo timeout []
    (checkParallel model (parts.map Part.entries) computeInfo timeout).init where
  length := by simp [checkParallel]
  tasks := by
    intro i part task hpart htask
    obtain rfl : task = .started := List.eq_of_mem_replicate (List.mem_of_getElem? htask)
    rfl
  known := by simp
  received := by simp [checkParallel, List.countP_replicate, Task.isSent]
  refused := by simp [checkParallel, List.countP_replicate, Task.isRefused]
  selecting := fun _ => ⟨rfl, rfl, fun hne => List.length_pos_iff.mpr hne⟩
  illegal := fun hok => by cases hok
  accepted := fun hphase => absurd rfl hphase
  returned := fun _ hphase => by cases hphase
  timed := fun htimed => by cases htimed
  killed := fun _ _ => rfl
  waits := by simp
  timeouts := by simp

/-- One more action does not count for another one. -/
theorem count_concat_of_ne {first second : ParallelAction} (hne : first ≠ second) :
    (actions ++ [first]).count second = actions.count second := by
  rw [List.count_append, List.count_singleton, if_neg (by simpa using hne), Nat.add_zero]

/-- A goroutine sends its result with the step after which it has sent it. -/
theorem task_sends {history : List (Entry Input Output)} {kill : Bool} {task later : Task State}
    (hstep : taskStep model computeInfo kill history task = some later) :
    task.isSent = false ∧ task.isRefused = false ∧
      (task.sends.length = if later.isSent = true then 1 else 0) ∧
      (task.sends.count false = if later.isRefused = true then 1 else 0) := by
  cases task with
  | started =>
      simp only [taskStep] at hstep
      split at hstep <;> cases hstep <;> exact ⟨rfl, rfl, rfl, rfl⟩
  | searching s =>
      simp only [taskStep] at hstep
      split at hstep <;> cases hstep <;> exact ⟨rfl, rfl, rfl, rfl⟩
  | stored ok longest =>
      cases hstep
      cases ok <;> exact ⟨rfl, rfl, rfl, rfl⟩
  | sent ok longest => cases hstep
  | panicked => cases hstep

/-- An action more keeps what is known about the timeout. -/
theorem Gathered.timed_kept (h : Gathered hequal parts computeInfo timeout actions s)
    (action : ParallelAction) (htimed : s.timedOut = true) :
    timeout = true ∧ .timeout ∈ actions ++ [action] :=
  (h.timed htimed).imp id (List.mem_append_left _)

/-- A goroutine has gone on. -/
theorem Collecting.task_next (h : Collecting hequal parts computeInfo timeout actions s) {i : Nat}
    {task later : Task State} {entries : List (Entry Input Output)}
    (htask : s.tasks[i]? = some task) (hentries : (parts.map Part.entries)[i]? = some entries)
    (hlater : taskStep model computeInfo s.kill entries task = some later)
    (heq : some { s with tasks := s.tasks.set i later, results := s.results ++ task.sends } =
      some s') :
    Collecting hequal parts computeInfo timeout (actions ++ [.task i]) s' := by
  cases heq
  rw [List.getElem?_map] at hentries
  obtain ⟨part, hpart, rfl⟩ := Option.map_eq_some_iff.mp hentries
  have hok := h.tasks i part task hpart htask
  obtain ⟨hlt, hget⟩ := List.getElem?_eq_some_iff.mp htask
  obtain ⟨hsent, hrefused, hsends, hsends'⟩ := task_sends hlater
  refine { h with
    length := by rw [List.length_set, h.length]
    tasks := ?_
    known := ?_
    received := ?_
    refused := ?_
    timed := h.timed_kept (.task i)
    waits := by simpa using h.waits
    timeouts := by simpa using h.timeouts }
  · intro j other task' hother htask'
    by_cases hij : i = j
    · subst hij
      rw [List.getElem?_set_self hlt] at htask'
      cases htask'
      obtain rfl := Option.some.inj (hpart.symm.trans hother)
      rw [List.count_append, List.count_singleton_self]
      exact hok.step hlater
    · rw [List.getElem?_set_ne hij] at htask'
      rw [count_concat_of_ne fun heq => hij (ParallelAction.task.inj heq)]
      exact h.tasks j other task' hother htask'
  · intro j hj
    rcases List.mem_append.mp hj with hold | hnew
    · exact h.known j hold
    · cases List.mem_singleton.mp hnew
      exact (List.getElem?_eq_some_iff.mp hpart).1
  · have hreceived := h.received
    rw [List.countP_set hlt, hget, hsent, ← hsends, List.length_append]
    simp only [Bool.false_eq_true, if_false]
    omega
  · intro hphase hok'
    have hcount := h.refused hphase hok'
    rw [List.countP_set hlt, hget, hrefused, ← hsends', List.count_append]
    simp only [Bool.false_eq_true, if_false]
    omega

/-- A goroutine goes on. -/
theorem Collecting.task (h : Collecting hequal parts computeInfo timeout actions s) {i : Nat}
    (hstep : parallelStep model (parts.map Part.entries) computeInfo timeout s (.task i) =
      some s') :
    Collecting hequal parts computeInfo timeout (actions ++ [.task i]) s' := by
  simp only [parallelStep, Option.bind_eq_bind, Option.bind_eq_some_iff] at hstep
  obtain ⟨task, htask, entries, hentries, later, hlater, heq⟩ := hstep
  split at heq
  · exact h.task_next htask hentries hlater heq
  · cases heq

/-- A result that is received as false is right. -/
theorem Collecting.refused_part (h : Collecting hequal parts computeInfo timeout actions s)
    (hphase : s.phase = .select) (hok : s.ok = true) (hresult : false ∈ s.results) :
    ∃ part ∈ parts, ¬ part.Accepted model := by
  have hpos : 0 < s.tasks.countP Task.isRefused := by
    rw [← h.refused hphase hok]
    exact List.count_pos_iff.mpr hresult
  obtain ⟨task, hmem, hrefused⟩ := List.countP_pos_iff.mp hpos
  obtain ⟨i, htask⟩ := List.mem_iff_getElem?.mp hmem
  have hlt : i < parts.length := by
    rw [← h.length]
    exact (List.getElem?_eq_some_iff.mp htask).1
  have htaskOk := h.tasks i _ task (List.getElem?_eq_getElem hlt) htask
  cases task with
  | sent ok longest =>
      have hfalse : ok = false := by simpa [Task.isRefused] using hrefused
      obtain ⟨-, hfound⟩ := htaskOk
      refine ⟨parts[i], List.getElem_mem hlt, ((hfound.refused hfalse).resolve_left ?_).1⟩
      rw [(h.selecting hphase).1]
      exact Bool.false_ne_true
  | started | searching | stored | panicked => cases hrefused

/-- When all results came in and all are true, all parts are linearizable. -/
theorem Collecting.accepted_parts (h : Collecting hequal parts computeInfo timeout actions s)
    (hphase : s.phase = .select) (hok : s.ok = true) (hresults : s.results = [true])
    (hcount : parts.length ≤ s.count + 1) : ∀ part ∈ parts, part.Accepted model := by
  have hreceived := h.received
  have hrefused := h.refused hphase hok
  have hle : s.tasks.countP Task.isSent ≤ s.tasks.length := List.countP_le_length
  rw [h.length] at hle
  rw [hresults, List.length_singleton] at hreceived
  have hsent : s.tasks.countP Task.isSent = s.tasks.length := by
    rw [h.length]
    omega
  have hnone : s.tasks.countP Task.isRefused = 0 := by
    rw [← hrefused, hresults]
    rfl
  intro part hpart
  obtain ⟨i, hget⟩ := List.mem_iff_getElem?.mp hpart
  have hlt : i < s.tasks.length := by
    rw [h.length]
    exact (List.getElem?_eq_some_iff.mp hget).1
  have htaskOk := h.tasks i part _ hget (List.getElem?_eq_getElem hlt)
  have hsent' := List.countP_eq_length.mp hsent _ (List.getElem_mem hlt)
  have hnone' := List.countP_eq_zero.mp hnone _ (List.getElem_mem hlt)
  generalize s.tasks[i] = task at htaskOk hsent' hnone'
  cases task with
  | sent ok longest =>
      have htrue : ok = true := by simpa [Task.isRefused] using hnone'
      obtain ⟨ids, hcomplete, -⟩ := htaskOk.2.accepted htrue
      exact ⟨ids, hcomplete⟩
  | started | searching | stored | panicked => cases hsent'

/-- An action of the function leaves the goroutines as they are; it may set `kill`. -/
theorem Gathered.tasks_kept (h : Gathered hequal parts computeInfo timeout actions s)
    {action : ParallelAction} (haction : ∀ i, action ≠ .task i) {kill : Bool}
    (hkill : kill = s.kill ∨ kill = true) (i : Nat) (part : Part Input Output) (task : Task State)
    (hpart : parts[i]? = some part) (htask : s.tasks[i]? = some task) :
    TaskOk computeInfo hequal part kill ((actions ++ [action]).count (.task i)) task := by
  rw [count_concat_of_ne (haction i)]
  have hok := h.tasks i part task hpart htask
  rcases hkill with rfl | rfl
  · exact hok
  · exact hok.of_kill

/-- An action of the function is not one of a goroutine. -/
theorem Gathered.known_kept (h : Gathered hequal parts computeInfo timeout actions s)
    {action : ParallelAction} (haction : ∀ i, action ≠ .task i) (i : Nat)
    (hi : .task i ∈ actions ++ [action]) : i < parts.length := by
  rcases List.mem_append.mp hi with hold | hnew
  · exact h.known i hold
  · exact absurd (List.mem_singleton.mp hnew).symm (haction i)

/-- Leaving the loop. -/
theorem Gathered.leave (h : Gathered hequal parts computeInfo timeout actions s)
    (hphase : s.phase = .select)
    (haccepted : s.ok = true → s.timedOut = false → ∀ part ∈ parts, part.Accepted model)
    (htimeouts : actions.count .timeout ≤ 1) :
    Collecting hequal parts computeInfo timeout actions (s.leave computeInfo) := by
  have hleft : (s.leave computeInfo).phase ≠ .select := by
    simp only [Parallel.leave]
    split <;> exact fun heq => by cases heq
  refine { h with
    waits := ?_
    refused := fun heq => absurd heq hleft
    selecting := fun heq => absurd heq hleft
    accepted := fun _ => haccepted
    returned := ?_
    timeouts := by rwa [if_neg hleft] }
  · have hwaits := h.waits
    rw [hphase] at hwaits
    exact hwaits.trans (Nat.add_le_add_left (Nat.zero_le _) _)
  · intro result hresult
    simp only [Parallel.leave] at hresult
    split at hresult
    · cases hresult
    · rename_i hinfo
      cases hresult
      exact ⟨rfl, fun heq => absurd heq hinfo⟩

/-- The loop takes a result from the channel. -/
theorem Collecting.take (h : Collecting hequal parts computeInfo timeout actions s)
    (hphase : s.phase = .select) {result : Bool} {results : List Bool}
    (hresults : s.results = result :: results) {kill : Bool}
    (hkill : kill = s.kill ∨ kill = true ∧ computeInfo = false) :
    Gathered hequal parts computeInfo timeout (actions ++ [.receive])
      { s with results := results, count := s.count + 1, ok := s.ok && result, kill := kill } where
  length := h.length
  tasks := h.tasks_kept (by simp) (hkill.imp id And.left)
  known := h.known_kept (by simp)
  received := by
    have hreceived := h.received
    rw [hresults, List.length_cons] at hreceived
    show s.count + 1 + results.length = s.tasks.countP Task.isSent
    omega
  illegal := by
    intro hfalse
    cases hok : s.ok with
    | false => exact h.illegal hok
    | true =>
        refine h.refused_part hphase hok ?_
        have hresult : result = false := by simpa [hok] using hfalse
        rw [hresults, hresult]
        exact List.mem_cons_self
  timed := h.timed_kept .receive
  killed := by
    intro hinfo htimedOut
    rcases hkill with rfl | ⟨-, hno⟩
    · exact h.killed hinfo htimedOut
    · rw [hno] at hinfo
      cases hinfo
  waits := by
    have hwaits := h.waits
    rw [List.count_append, List.count_singleton_self, count_concat_of_ne (by simp)]
    show _ ≤ s.count + 1 + s.phase.left
    omega

/-- The loop receives a result. -/
theorem Collecting.receive (h : Collecting hequal parts computeInfo timeout actions s)
    (hstep : parallelStep model (parts.map Part.entries) computeInfo timeout s .receive = some s') :
    Collecting hequal parts computeInfo timeout (actions ++ [.receive]) s' := by
  simp only [parallelStep] at hstep
  split at hstep
  · rename_i result results hphase hresults
    obtain ⟨hkill, htimedOut, hcount⟩ := h.selecting hphase
    have htimeouts : (actions ++ [ParallelAction.receive]).count .timeout = 0 := by
      have hle := h.timeouts
      rw [if_pos hphase] at hle
      rw [count_concat_of_ne (by simp)]
      omega
    split at hstep
    · rename_i hleave
      obtain ⟨hfalse, hinfo⟩ := Bool.and_eq_true_iff.mp hleave
      cases hstep
      have hinfo : computeInfo = false := by simpa using hinfo
      refine (h.take hphase hresults (Or.inr ⟨rfl, hinfo⟩)).leave hphase ?_ (by omega)
      intro htrue
      rw [show (s.ok && result) = true from htrue] at hfalse
      cases hfalse
    · split at hstep
      · rename_i hall
        cases hstep
        refine (h.take hphase hresults (Or.inl rfl)).leave hphase ?_ (by omega)
        intro htrue _
        obtain ⟨hok, hresult⟩ := Bool.and_eq_true_iff.mp htrue
        have hcount : parts.length ≤ s.count + 1 := by simpa using hall
        have hreceived := h.received
        have hle : s.tasks.countP Task.isSent ≤ s.tasks.length := List.countP_le_length
        rw [h.length] at hle
        rw [hresults, List.length_cons] at hreceived
        obtain rfl : results = [] := List.length_eq_zero_iff.mp (by omega)
        exact h.accepted_parts hphase hok (by rw [hresults, hresult]) hcount
      · rename_i hmore
        cases hstep
        refine { h.take hphase hresults (Or.inl rfl) with
          refused := ?_
          selecting := fun _ => ⟨hkill, htimedOut, fun _ => by simpa using hmore⟩
          accepted := fun hne => absurd hphase hne
          returned := fun _ heq => absurd (hphase.symm.trans heq) (by simp)
          timeouts := by rw [htimeouts]; exact Nat.zero_le _ }
        intro _ htrue
        obtain ⟨hok, hresult⟩ := Bool.and_eq_true_iff.mp htrue
        have hrefused := h.refused hphase hok
        rw [hresults, hresult] at hrefused
        simpa using hrefused
  · cases hstep

/-- The time is up. -/
theorem Collecting.timer (h : Collecting hequal parts computeInfo timeout actions s)
    (hstep : parallelStep model (parts.map Part.entries) computeInfo timeout s .timeout = some s') :
    Collecting hequal parts computeInfo timeout (actions ++ [.timeout]) s' := by
  simp only [parallelStep] at hstep
  split at hstep
  · rename_i hcond
    obtain ⟨htimeout, hphase⟩ := hcond
    cases hstep
    have hgathered : Gathered hequal parts computeInfo timeout (actions ++ [.timeout])
        { s with timedOut := true, kill := true } :=
      { h with
        tasks := h.tasks_kept (by simp) (Or.inr rfl)
        known := h.known_kept (by simp)
        timed := fun _ => ⟨htimeout, List.mem_append_right _ List.mem_cons_self⟩
        killed := fun _ htimedOut => by cases htimedOut
        waits := by
          rw [count_concat_of_ne (by simp), count_concat_of_ne (by simp)]
          exact h.waits }
    refine hgathered.leave hphase (fun _ htimedOut => by cases htimedOut) ?_
    have hle := h.timeouts
    rw [if_pos hphase] at hle
    rw [List.count_append, List.count_singleton_self]
    omega
  · cases hstep

/-- Waiting for the goroutines that are left. -/
theorem Collecting.drain (h : Collecting hequal parts computeInfo timeout actions s)
    (hstep : parallelStep model (parts.map Part.entries) computeInfo timeout s .drain = some s') :
    Collecting hequal parts computeInfo timeout (actions ++ [.drain]) s' := by
  have hwaits := h.waits
  have htimeouts : (actions ++ [ParallelAction.drain]).count .timeout = actions.count .timeout :=
    count_concat_of_ne (by simp)
  have hcount : (actions ++ [ParallelAction.drain]).count .receive +
      (actions ++ [ParallelAction.drain]).count .drain =
        actions.count .receive + actions.count .drain + 1 := by
    rw [count_concat_of_ne (by simp), List.count_append, List.count_singleton_self]
    omega
  simp only [parallelStep] at hstep
  split at hstep
  · rename_i hphase
    have hnot : s.phase ≠ .select := by
      rw [hphase]
      exact fun heq => by cases heq
    rw [hphase] at hwaits
    split at hstep
    · split at hstep
      · cases hstep
      · rename_i result results hresults
        cases hstep
        refine { h with
          tasks := h.tasks_kept (by simp) (Or.inl rfl)
          known := h.known_kept (by simp)
          received := ?_
          timed := h.timed_kept .drain
          waits := ?_
          refused := fun heq => absurd heq hnot
          selecting := fun heq => absurd heq hnot
          returned := fun _ heq => absurd (hphase.symm.trans heq) (by simp)
          timeouts := by rw [htimeouts]; exact h.timeouts }
        · have hreceived := h.received
          rw [hresults, List.length_cons] at hreceived
          show s.count + 1 + results.length = s.tasks.countP Task.isSent
          omega
        · rw [hcount]
          show _ ≤ s.count + 1 + s.phase.left
          simp only [Phase.left] at hwaits
          omega
    · rename_i hall
      cases hstep
      refine { h with
        tasks := h.tasks_kept (by simp) (Or.inl rfl)
        known := h.known_kept (by simp)
        timed := h.timed_kept .drain
        waits := ?_
        refused := fun heq => by cases heq
        selecting := fun heq => by cases heq
        accepted := fun _ => h.accepted hnot
        returned := fun result heq => ?_
        timeouts := ?_ }
      · rw [hcount]
        show _ ≤ s.count + 1
        simp only [Phase.left] at hwaits
        omega
      · cases heq
        exact ⟨rfl, fun _ => by simpa using hall⟩
      · rw [htimeouts]
        have hle := h.timeouts
        rwa [if_neg hnot] at hle
  · cases hstep

/-- The invariant holds after every run. -/
theorem collecting_run (hequal : EqualLawful model) {actions : List ParallelAction}
    {s : Parallel State}
    (hrun : (checkParallel model (parts.map Part.entries) computeInfo timeout).run actions =
      some s) :
    Collecting hequal parts computeInfo timeout actions s := by
  refine Machine.run_induction (motive := Collecting hequal parts computeInfo timeout)
    collecting_init ?_ hrun
  intro actions s action s' _ h hstep
  cases action with
  | task i => exact h.task hstep
  | receive => exact h.receive hstep
  | timeout => exact h.timer hstep
  | drain => exact h.drain hstep

end Collecting

end DistributedLabs.Porcupine
