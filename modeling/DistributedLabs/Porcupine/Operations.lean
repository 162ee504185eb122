import DistributedLabs.Models.Kv
import DistributedLabs.Porcupine.Parallel

/-!
# Checks of whole histories

`CheckOperations` and its variants split a history into the parts of the model, check the parts in
parallel and give one answer. `check_operations_verdict` is about every interleaving: the answer is
right, and it is unknown only after a timeout. `check_operations_terminates` says that the check
comes to its end, whatever the scheduler does, unless there is no part, and that its goroutines
neither panic nor wait at their sends. With `KvModel` the parts are the keys, and the answer is
about the whole store.
-/

namespace DistributedLabs.Porcupine

variable {State Input Output : Type}

/-! ## The end of a check -/

/-- An action of one of the first goroutines. -/
def ParallelAction.isTaskBelow (n : Nat) : ParallelAction → Bool
  | .task i => i < n
  | _ => false

section Ending

variable {model : FilledModel State Input Output} {hequal : EqualLawful model}
  {parts : List (Part Input Output)} {computeInfo timeout : Bool}
  {actions : List ParallelAction} {s : Parallel State}

/-- The actions of one more goroutine. -/
theorem count_tasks_succ (actions : List ParallelAction) (n : Nat) :
    actions.countP (ParallelAction.isTaskBelow (n + 1)) =
      actions.countP (ParallelAction.isTaskBelow n) + actions.count (.task n) := by
  induction actions with
  | nil => rfl
  | cons action rest ih =>
      rw [List.countP_cons, List.countP_cons, List.count_cons, ih]
      cases action with
      | task i =>
          simp only [ParallelAction.isTaskBelow, decide_eq_true_eq, beq_iff_eq,
            ParallelAction.task.injEq]
          split <;> split <;> split <;> omega
      | receive | timeout | drain => rfl

/-- All actions are those of the goroutines and those of the function. -/
theorem length_eq_counts {n : Nat} (hknown : ∀ i, .task i ∈ actions → i < n) :
    actions.length = actions.countP (ParallelAction.isTaskBelow n) +
      (actions.count .receive + actions.count .drain) + actions.count .timeout := by
  induction actions with
  | nil => rfl
  | cons action rest ih =>
      have hrest := ih fun i hi => hknown i (List.mem_cons_of_mem _ hi)
      rw [List.length_cons, hrest, List.countP_cons, List.count_cons, List.count_cons,
        List.count_cons]
      cases action with
      | task i =>
          have hi := hknown i List.mem_cons_self
          simp only [ParallelAction.isTaskBelow, decide_eq_true hi, if_true, beq_iff_eq,
            reduceCtorEq, if_false]
          omega
      | receive | timeout | drain =>
          simp only [ParallelAction.isTaskBelow, Bool.false_eq_true, if_false, beq_iff_eq,
            reduceCtorEq, if_true]
          omega

/-- The goroutines make a bounded number of steps. -/
theorem Collecting.tasks_le (h : Collecting hequal parts computeInfo timeout actions s) {n : Nat}
    (hn : n ≤ parts.length) :
    actions.countP (ParallelAction.isTaskBelow n) ≤
      ((parts.take n).map fun part => part.rounds + 3).sum := by
  induction n with
  | zero =>
      refine Nat.le_of_eq (List.countP_eq_zero.mpr fun action _ => ?_)
      cases action <;> simp [ParallelAction.isTaskBelow]
  | succ n ih =>
      have htask : n < s.tasks.length := by
        rw [h.length]
        exact hn
      have hsteps := (h.tasks n _ _ (List.getElem?_eq_getElem hn)
        (List.getElem?_eq_getElem htask)).steps_le
      have hprev := ih (by omega)
      rw [count_tasks_succ, List.take_succ_eq_append_getElem hn, List.map_append, List.sum_append,
        List.map_singleton, List.sum_singleton]
      omega

/-- No result comes in twice. -/
theorem Collecting.count_le (h : Collecting hequal parts computeInfo timeout actions s) :
    s.count ≤ parts.length := by
  have hreceived := h.received
  have hle : s.tasks.countP Task.isSent ≤ s.tasks.length := List.countP_le_length
  rw [h.length] at hle
  omega

/-- No goroutine panics. -/
theorem Collecting.not_panicked (h : Collecting hequal parts computeInfo timeout actions s) :
    ∀ task ∈ s.tasks, task ≠ .panicked := by
  rintro task hmem rfl
  obtain ⟨i, htask⟩ := List.mem_iff_getElem?.mp hmem
  have hlt : i < parts.length := by
    rw [← h.length]
    exact (List.getElem?_eq_some_iff.mp htask).1
  exact h.tasks i _ _ (List.getElem?_eq_getElem hlt) htask

/-- A goroutine that has not sent its result can go on: there is room for the result. -/
theorem Collecting.task_enabled (h : Collecting hequal parts computeInfo timeout actions s)
    {i : Nat} {task : Task State} (htask : s.tasks[i]? = some task) (hsent : task.isSent = false) :
    ∃ s', parallelStep model (parts.map Part.entries) computeInfo timeout s (.task i) =
      some s' := by
  have hlt : i < parts.length := by
    rw [← h.length]
    exact (List.getElem?_eq_some_iff.mp htask).1
  have hpart := List.getElem?_eq_getElem hlt
  obtain ⟨later, hlater⟩ := (h.tasks i _ task hpart htask).enabled fun ok longest heq => by
    rw [heq] at hsent
    cases hsent
  have hentries : (parts.map Part.entries)[i]? = some parts[i].entries := by
    rw [List.getElem?_map, hpart, Option.map_some]
  have hroom : s.results.length < (parts.map Part.entries).length := by
    have hless := List.countP_lt_length_iff.mpr ⟨task, List.mem_of_getElem? htask, hsent⟩
    have hreceived := h.received
    rw [h.length] at hless
    rw [List.length_map]
    omega
  refine ⟨{ s with tasks := s.tasks.set i later, results := s.results ++ task.sends }, ?_⟩
  simp only [parallelStep, htask, hentries, hlater, Option.bind_eq_bind, Option.bind_some]
  exact if_pos (Or.inr hroom)

/-- Some goroutine has not sent its result, or all results are in the channel or were received. -/
theorem Collecting.pending (h : Collecting hequal parts computeInfo timeout actions s) :
    (∃ i s',
      parallelStep model (parts.map Part.entries) computeInfo timeout s (.task i) = some s') ∨
      s.count + s.results.length = parts.length := by
  by_cases hall : s.tasks.countP Task.isSent = s.tasks.length
  · right
    rw [h.received, hall, h.length]
  · left
    have hle : s.tasks.countP Task.isSent ≤ s.tasks.length := List.countP_le_length
    obtain ⟨task, hmem, hsent⟩ := List.countP_lt_length_iff.mp (lt_of_le_of_ne hle hall)
    obtain ⟨i, htask⟩ := List.mem_iff_getElem?.mp hmem
    exact ⟨i, h.task_enabled htask hsent⟩

/-- As long as the function is not back, something other than the timeout can happen. -/
theorem Collecting.progress (h : Collecting hequal parts computeInfo timeout actions s)
    (hparts : parts ≠ []) (hphase : ∀ result, s.phase ≠ .returned result) :
    ∃ action s', action ≠ .timeout ∧
      parallelStep model (parts.map Part.entries) computeInfo timeout s action = some s' := by
  rcases h.pending with ⟨i, s', hstep⟩ | hall
  · exact ⟨.task i, s', by simp, hstep⟩
  · cases hcases : s.phase with
    | returned result => exact absurd hcases (hphase result)
    | select =>
        have hcount := (h.selecting hcases).2.2 hparts
        cases hresults : s.results with
        | nil =>
            rw [hresults, List.length_nil] at hall
            omega
        | cons result results =>
            refine ⟨.receive, ?_⟩
            simp only [parallelStep, hcases, hresults]
            split
            · exact ⟨_, by simp, rfl⟩
            · split <;> exact ⟨_, by simp, rfl⟩
    | drain =>
        refine ⟨.drain, ?_⟩
        simp only [parallelStep, hcases, List.length_map]
        split
        · rename_i hless
          cases hresults : s.results with
          | nil =>
              rw [hresults, List.length_nil] at hall
              omega
          | cons result results => exact ⟨_, by simp, rfl⟩
        · exact ⟨_, by simp, rfl⟩

/-- The answer is right. -/
theorem Collecting.verdict (h : Collecting hequal parts computeInfo timeout actions s)
    {result : CheckResult} (hreturned : s.phase = .returned result) :
    (result = .ok → ∀ part ∈ parts, part.Accepted model) ∧
      (result = .illegal → ¬ ∀ part ∈ parts, part.Accepted model) ∧
      (result = .unknown → timeout = true ∧ .timeout ∈ actions) := by
  have hresult := (h.returned result hreturned).1
  have hphase : s.phase ≠ .select := by
    rw [hreturned]
    exact fun heq => by cases heq
  cases hok : s.ok with
  | false =>
      have hillegal : result = .illegal := by rw [hresult, checkResult, hok]; rfl
      obtain ⟨part, hpart, hnot⟩ := h.illegal hok
      subst hillegal
      exact ⟨by simp, fun _ hall => hnot (hall part hpart), by simp⟩
  | true =>
      cases htimed : s.timedOut with
      | true =>
          have hunknown : result = .unknown := by rw [hresult, checkResult, hok, htimed]; rfl
          subst hunknown
          exact ⟨by simp, by simp, fun _ => h.timed htimed⟩
      | false =>
          have haccepted : result = .ok := by rw [hresult, checkResult, hok, htimed]; rfl
          subst haccepted
          exact ⟨fun _ => h.accepted hphase hok htimed, by simp, by simp⟩

/-- Every run is bounded. -/
theorem Collecting.length_le (h : Collecting hequal parts computeInfo timeout actions s) :
    actions.length ≤ (parts.map fun part => part.rounds + 3).sum + parts.length + 2 := by
  have hlength := length_eq_counts h.known
  have htasks := h.tasks_le (Nat.le_refl parts.length)
  have hcount := h.count_le
  have hwaits := h.waits
  have htimeouts : actions.count .timeout ≤ 1 := h.timeouts.trans (by split <;> omega)
  have hleft : s.phase.left ≤ 1 := by cases s.phase <;> simp [Phase.left]
  rw [List.take_length] at htasks
  omega

end Ending

/-! ## Operations -/

/-- `checkOperations`. `sort` is the sort of `makeEntries`. -/
def checkOperations [DecidableEq State]
    (sort : List (Entry Input Output) → List (Entry Input Output))
    (model : Model State Input Output) (history : List (Operation Input Output))
    (verbose timeout : Bool) : Machine (Parallel State) ParallelAction :=
  checkParallel (fillDefault model)
    (((fillDefault model).partition history).map (makeEntries sort)) verbose timeout

section Operations

variable {sort : List (Entry Input Output) → List (Entry Input Output)}

/-- The parts of a history with their operations. -/
def partsOf (hsort : SortsByTime sort) (histories : List (List (Operation Input Output)))
    (htimes : ∀ history ∈ histories, ∀ op ∈ history, op.call ≤ op.ret) :
    List (Part Input Output) :=
  histories.attach.map fun history =>
    ⟨makeEntries sort history.1, makeEntriesMatching hsort history.1 (htimes history.1 history.2)⟩

variable {hsort : SortsByTime sort} {histories : List (List (Operation Input Output))}
  {htimes : ∀ history ∈ histories, ∀ op ∈ history, op.call ≤ op.ret}

/-- The entries of the parts. -/
theorem entries_parts_of (hsort : SortsByTime sort)
    (htimes : ∀ history ∈ histories, ∀ op ∈ history, op.call ≤ op.ret) :
    (partsOf hsort histories htimes).map Part.entries = histories.map (makeEntries sort) := by
  rw [partsOf, List.map_map]
  show histories.attach.map (fun history => makeEntries sort history.1) = _
  exact List.attach_map_val

/-- A part is accepted when its history is linearizable. -/
theorem forall_accepted_iff (model : FilledModel State Input Output) :
    (∀ part ∈ partsOf hsort histories htimes, part.Accepted model) ↔
      ∀ history ∈ histories, Linearizable model.object (history.map Completed.record) := by
  simp only [partsOf, List.mem_map, List.mem_attach, true_and, Subtype.exists]
  constructor
  · intro h history hhistory
    rw [linearizable_iff_orderable, orderable_iff_complete hsort (htimes history hhistory)]
    exact h _ ⟨history, hhistory, rfl⟩
  · rintro h part ⟨history, hhistory, rfl⟩
    rw [Part.Accepted, ← orderable_iff_complete hsort (htimes history hhistory),
      ← linearizable_iff_orderable]
    exact h history hhistory

/-- The steps that are enough for the parts. -/
theorem rounds_parts_of :
    ((partsOf hsort histories htimes).map fun part => part.rounds + 3) =
      histories.map fun history => enoughRounds (makeEntries sort history) history.length + 3 := by
  have hrounds : ∀ history : { history // history ∈ histories },
      (⟨makeEntries sort history.1, makeEntriesMatching hsort history.1
        (htimes history.1 history.2)⟩ : Part Input Output).rounds =
        enoughRounds (makeEntries sort history.1) history.1.length := by
    intro history
    show enoughRounds _ (history.1.map _).length = _
    rw [List.length_map]
  rw [partsOf, List.map_map]
  simp only [Function.comp_def, hrounds]
  exact List.attach_map_val (f := fun history =>
    enoughRounds (makeEntries sort history) history.length + 3)

/-- The answer is about the parts of the history. -/
theorem verdict_of_run (hsort : SortsByTime sort) {model : FilledModel State Input Output}
    (hequal : EqualLawful model)
    (htimes : ∀ history ∈ histories, ∀ op ∈ history, op.call ≤ op.ret)
    {verbose timeout : Bool} {actions : List ParallelAction} {s : Parallel State}
    (hrun : (checkParallel model (histories.map (makeEntries sort)) verbose timeout).run actions =
      some s)
    {result : CheckResult} (hreturned : s.phase = .returned result) :
    (result = .ok →
        ∀ history ∈ histories, Linearizable model.object (history.map Completed.record)) ∧
      (result = .illegal →
        ¬ ∀ history ∈ histories, Linearizable model.object (history.map Completed.record)) ∧
      (result = .unknown → timeout = true ∧ .timeout ∈ actions) := by
  rw [← entries_parts_of hsort htimes] at hrun
  have hverdict := (collecting_run hequal hrun).verdict hreturned
  rwa [forall_accepted_iff] at hverdict

/-- The check makes a bounded number of steps, no goroutine panics or waits at its send, and the
check can go on until it returns. -/
theorem terminates_of_run (hsort : SortsByTime sort) {model : FilledModel State Input Output}
    (hequal : EqualLawful model)
    (htimes : ∀ history ∈ histories, ∀ op ∈ history, op.call ≤ op.ret) (hparts : histories ≠ [])
    {verbose timeout : Bool} {actions : List ParallelAction} {s : Parallel State}
    (hrun : (checkParallel model (histories.map (makeEntries sort)) verbose timeout).run actions =
      some s) :
    actions.length ≤ (histories.map fun history =>
        enoughRounds (makeEntries sort history) history.length + 3).sum + histories.length + 2 ∧
      (∀ task ∈ s.tasks, task ≠ .panicked) ∧
      s.results.length ≤ histories.length ∧
      (∀ i task, s.tasks[i]? = some task → task.isSent = false →
        ∃ s', (checkParallel model (histories.map (makeEntries sort)) verbose timeout).step s
          (.task i) = some s') ∧
      ((∀ action, action ≠ .timeout → (checkParallel model (histories.map (makeEntries sort))
          verbose timeout).step s action = none) →
        ∃ result, s.phase = .returned result) := by
  rw [← entries_parts_of hsort htimes] at hrun ⊢
  have hcollecting := collecting_run hequal hrun
  have hlength : (partsOf hsort histories htimes).length = histories.length := by
    rw [partsOf, List.length_map, List.length_attach]
  refine ⟨?_, hcollecting.not_panicked, ?_, fun i task => hcollecting.task_enabled, ?_⟩
  · have hle := hcollecting.length_le
    rw [rounds_parts_of] at hle
    rwa [hlength] at hle
  · have hreceived := hcollecting.received
    have hle : s.tasks.countP Task.isSent ≤ s.tasks.length := List.countP_le_length
    rw [hcollecting.length, hlength] at hle
    omega
  · intro hstuck
    by_contra hnot
    have hne : partsOf hsort histories htimes ≠ [] := by
      simpa [partsOf] using hparts
    obtain ⟨action, s', haction, hstep⟩ := hcollecting.progress hne fun result hresult =>
      hnot ⟨result, hresult⟩
    have hnone := hstuck action haction
    rw [show parallelStep _ _ _ _ s action = none from hnone] at hstep
    cases hstep

variable [DecidableEq State]

/-- Whatever the interleaving, the answer `Ok` means that all parts of the history are linearizable,
`Illegal` that one of them is not, and `Unknown` is given only when the time was up. -/
theorem check_operations_verdict (sort : List (Entry Input Output) → List (Entry Input Output))
    (hsort : SortsByTime sort) (model : Model State Input Output)
    (hequal : EqualLawful (fillDefault model)) (history : List (Operation Input Output))
    (htimes : ∀ part ∈ (fillDefault model).partition history, ∀ op ∈ part, op.call ≤ op.ret)
    (verbose timeout : Bool) (actions : List ParallelAction) (s : Parallel State)
    (hrun : (checkOperations sort model history verbose timeout).run actions = some s)
    (result : CheckResult) (hreturned : s.phase = .returned result) :
    (result = .ok → ∀ part ∈ (fillDefault model).partition history,
        Linearizable (fillDefault model).object (part.map Completed.record)) ∧
      (result = .illegal → ∃ part ∈ (fillDefault model).partition history,
        ¬ Linearizable (fillDefault model).object (part.map Completed.record)) ∧
      (result = .unknown → timeout = true ∧ .timeout ∈ actions) := by
  obtain ⟨hok, hillegal, hunknown⟩ := verdict_of_run hsort hequal htimes hrun hreturned
  refine ⟨hok, fun hresult => ?_, hunknown⟩
  by_contra hnone
  refine hillegal hresult fun part hpart => ?_
  by_contra hnot
  exact hnone ⟨part, hpart, hnot⟩

/-- A check of a put and of a get that returns a value which was never written. -/
def staleCheck (verbose : Bool) : Machine (Parallel GoString) ParallelAction :=
  checkOperations insertByTime (kvPorcupine id) [Models.putA, getStale] verbose false

/-- The goroutine of the only key runs to its end. -/
def staleRun : List ParallelAction := List.replicate 6 (.task 0) ++ [.receive]

/-- The times of these operations. -/
theorem stale_times : ∀ part ∈ (fillDefault (kvPorcupine id)).partition [Models.putA, getStale],
    ∀ op ∈ part, op.call ≤ op.ret := by
  decide

/-- The check finds a part that is not linearizable. -/
theorem check_operations_verdict_stale :
    ∃ s, (staleCheck false).run staleRun = some s ∧ s.phase = .returned .illegal ∧
      ∃ part ∈ (fillDefault (kvPorcupine id)).partition [Models.putA, getStale],
        ¬ Linearizable (fillDefault (kvPorcupine id)).object (part.map Completed.record) := by
  obtain ⟨s, hrun, hphase⟩ := (staleCheck false).exists_run_of_check staleRun
    (fun s => s.phase = .returned .illegal) (by decide +kernel)
  exact ⟨s, hrun, hphase, (check_operations_verdict insertByTime sorts_by_time_insert
    (kvPorcupine id) (equal_lawful_default _ rfl) [Models.putA, getStale] stale_times false false
    staleRun s hrun .illegal hphase).2.1 rfl⟩

/-- Whatever the interleaving, the check makes a bounded number of steps. No goroutine panics, and
none waits at its send, because the results fit the channel. If the history has a part, the check
can always go on without the timeout until it returns. -/
theorem check_operations_terminates (sort : List (Entry Input Output) → List (Entry Input Output))
    (hsort : SortsByTime sort) (model : Model State Input Output)
    (hequal : EqualLawful (fillDefault model)) (history : List (Operation Input Output))
    (htimes : ∀ part ∈ (fillDefault model).partition history, ∀ op ∈ part, op.call ≤ op.ret)
    (hparts : (fillDefault model).partition history ≠ []) (verbose timeout : Bool)
    (actions : List ParallelAction) (s : Parallel State)
    (hrun : (checkOperations sort model history verbose timeout).run actions = some s) :
    actions.length ≤ (((fillDefault model).partition history).map fun part =>
        enoughRounds (makeEntries sort part) part.length + 3).sum +
          ((fillDefault model).partition history).length + 2 ∧
      (∀ task ∈ s.tasks, task ≠ .panicked) ∧
      s.results.length ≤ ((fillDefault model).partition history).length ∧
      (∀ i task, s.tasks[i]? = some task → task.isSent = false →
        ∃ s', (checkOperations sort model history verbose timeout).step s (.task i) = some s') ∧
      ((∀ action, action ≠ .timeout →
          (checkOperations sort model history verbose timeout).step s action = none) →
        ∃ result, s.phase = .returned result) :=
  terminates_of_run hsort hequal htimes hparts hrun

/-- The check of these operations takes at most 870 steps, its channel has at most one result, and
it is not stuck before its end. -/
theorem check_operations_terminates_stale :
    ∃ s, (staleCheck false).run staleRun = some s ∧ staleRun.length ≤ 870 ∧
      s.results.length ≤ 1 ∧
      ((∀ action, action ≠ .timeout → (staleCheck false).step s action = none) →
        ∃ result, s.phase = .returned result) := by
  obtain ⟨s, hrun, -⟩ := (staleCheck false).exists_run_of_check staleRun
    (fun s => s.phase = .returned .illegal) (by decide +kernel)
  obtain ⟨hlength, -, hroom, -, hend⟩ := check_operations_terminates insertByTime
    sorts_by_time_insert (kvPorcupine id) (equal_lawful_default _ rfl) [Models.putA, getStale]
    stale_times (by decide) false false staleRun s hrun
  exact ⟨s, hrun, hlength.trans (by decide), hroom, hend⟩

/-- A verbose check waits for all goroutines. If the time was not up, each of them has found a
complete linearization of its part, or the longest partial ones. -/
theorem verbose_check_exact (sort : List (Entry Input Output) → List (Entry Input Output))
    (hsort : SortsByTime sort) (model : Model State Input Output)
    (hequal : EqualLawful (fillDefault model)) (history : List (Operation Input Output))
    (htimes : ∀ part ∈ (fillDefault model).partition history, ∀ op ∈ part, op.call ≤ op.ret)
    (timeout : Bool) (actions : List ParallelAction) (s : Parallel State)
    (hrun : (checkOperations sort model history true timeout).run actions = some s)
    (result : CheckResult) (hreturned : s.phase = .returned result) (i : Nat)
    (part : List (Operation Input Output))
    (hpart : ((fillDefault model).partition history)[i]? = some part) :
    ∃ ok longest, s.tasks[i]? = some (.sent ok longest) ∧ (s.timedOut = false →
      (ok = true → ∃ ids,
        CompleteLinearization (fillDefault model)
          (makeEntriesMatching hsort part (htimes part (List.mem_of_getElem? hpart))) ids ∧
        longest = List.replicate part.length (some ids)) ∧
      (ok = false →
        LongestPartials (fillDefault model)
          (makeEntriesMatching hsort part (htimes part (List.mem_of_getElem? hpart)))
          longest)) := by
  rw [checkOperations, ← entries_parts_of hsort htimes] at hrun
  have h := collecting_run hequal hrun
  have hcount := (h.returned result hreturned).2 rfl
  have hreceived := h.received
  have hle : s.tasks.countP Task.isSent ≤ s.tasks.length := List.countP_le_length
  rw [h.length] at hle
  -- all results were received, so that all goroutines have sent theirs
  have hall : s.tasks.countP Task.isSent = s.tasks.length := by
    rw [h.length]
    omega
  have hget : (partsOf hsort ((fillDefault model).partition history) htimes)[i]? =
      some ⟨makeEntries sort part,
        makeEntriesMatching hsort part (htimes part (List.mem_of_getElem? hpart))⟩ := by
    obtain ⟨hlt, rfl⟩ := List.getElem?_eq_some_iff.mp hpart
    have hattach : i < ((fillDefault model).partition history).attach.length := by
      rwa [List.length_attach]
    rw [partsOf, List.getElem?_map, List.getElem?_eq_getElem hattach, Option.map_some,
      List.getElem_attach]
  have hlt : i < s.tasks.length := by
    rw [h.length]
    exact (List.getElem?_eq_some_iff.mp hget).1
  have htask := h.tasks i _ _ hget (List.getElem?_eq_getElem hlt)
  have hsent := List.countP_eq_length.mp hall _ (List.getElem_mem hlt)
  rw [List.getElem?_eq_getElem hlt]
  generalize s.tasks[i] = task at htask hsent
  cases task with
  | sent ok longest =>
      refine ⟨ok, longest, rfl, fun htimed => ⟨fun hok => ?_, fun hok => ?_⟩⟩
      · obtain ⟨ids, hcomplete, hlongest⟩ := htask.2.accepted hok
        refine ⟨ids, hcomplete, hlongest.trans ?_⟩
        show List.replicate (part.map _).length _ = _
        rw [List.length_map]
      · refine ((htask.2.refused hok).resolve_left ?_).2 rfl
        rw [h.killed rfl htimed]
        exact Bool.false_ne_true
  | started | searching | stored | panicked => cases hsent

/-- Whether a goroutine has sent this. -/
def Task.hasSent (ok : Bool) (longest : List (Option (List Nat))) : Task State → Bool
  | .sent ok' longest' => ok' = ok && longest' = longest
  | _ => false

/-- In the verbose check of these operations the put alone is the longest partial linearization with
the put, and there is none with the get. -/
theorem verbose_check_exact_stale :
    ∃ s, (staleCheck true).run (staleRun ++ [.drain]) = some s ∧
      s.tasks[0]? = some (.sent false [some [0], none]) ∧
      LongestPartials (fillDefault (kvPorcupine id))
        (makeEntriesMatching sorts_by_time_insert [Models.putA, getStale] (by decide))
        [some [0], none] := by
  obtain ⟨s, hrun, hphase, htimed, hsent⟩ := (staleCheck true).exists_run_of_check
    (staleRun ++ [.drain]) (fun s => s.phase = .returned .illegal ∧ s.timedOut = false ∧
      s.tasks[0]?.any (Task.hasSent false [some [0], none])) (by decide +kernel)
  obtain ⟨ok, longest, htask, hfound⟩ := verbose_check_exact insertByTime sorts_by_time_insert
    (kvPorcupine id) (equal_lawful_default _ rfl) [Models.putA, getStale] stale_times false
    (staleRun ++ [ParallelAction.drain]) s hrun .illegal hphase 0 [Models.putA, getStale] rfl
  obtain ⟨rfl, rfl⟩ : ok = false ∧ longest = [some [0], none] := by
    rw [htask] at hsent
    simpa [Task.hasSent] using hsent
  exact ⟨s, hrun, htask, (hfound htimed).2 rfl⟩

end Operations

/-! ## No parts -/

/-- What a check without parts keeps: it is in the loop until the timeout. -/
structure Partless (timeout : Bool) (actions : List ParallelAction) (s : Parallel State) :
    Prop where
  tasks : s.tasks = []
  results : s.results = []
  ok : s.ok = true
  select : s.phase = .select → actions = []
  left : s.phase ≠ .select → .timeout ∈ actions ∧ s.timedOut = true ∧ timeout = true
  unknown : ∀ result, s.phase = .returned result → result = .unknown

/-- The timeout ends the loop, and with it the check if it is not verbose. -/
theorem Partless.leave {timeout : Bool} {actions : List ParallelAction} {s : Parallel State}
    (h : Partless timeout actions s) (htimeout : timeout = true) (verbose : Bool) :
    Partless timeout (actions ++ [.timeout])
      (Parallel.leave verbose { s with timedOut := true, kill := true }) where
  tasks := h.tasks
  results := h.results
  ok := h.ok
  select := by
    intro heq
    cases verbose <;> cases heq
  left := fun _ => ⟨List.mem_append_right _ List.mem_cons_self, rfl, htimeout⟩
  unknown := by
    intro result heq
    cases verbose with
    | true => cases heq
    | false =>
        have hresult : Phase.returned (checkResult s.ok true) = .returned result := heq
        rw [h.ok] at hresult
        cases hresult
        rfl

/-- A step of a check without parts. -/
theorem Partless.step {model : FilledModel State Input Output} {verbose timeout : Bool}
    {actions : List ParallelAction} {action : ParallelAction} {s s' : Parallel State}
    (h : Partless timeout actions s)
    (hstep : parallelStep model [] verbose timeout s action = some s') :
    Partless timeout (actions ++ [action]) s' := by
  cases action with
  | task i => simp [parallelStep, h.tasks] at hstep
  | receive => simp [parallelStep, h.results] at hstep
  | timeout =>
      simp only [parallelStep] at hstep
      split at hstep
      · rename_i hcond
        cases hstep
        exact h.leave hcond.1 verbose
      · cases hstep
  | drain =>
      simp only [parallelStep] at hstep
      split at hstep
      · rename_i hphase
        obtain ⟨hmem, htimed, htimeout⟩ := h.left (by rw [hphase]; exact fun heq => by cases heq)
        rw [if_neg (by simp)] at hstep
        cases hstep
        refine { h with
          select := fun heq => by cases heq
          left := fun _ => ⟨List.mem_append_left _ hmem, htimed, htimeout⟩
          unknown := fun result heq => ?_ }
        cases heq
        rw [h.ok, htimed]
        rfl
      · cases hstep

/-- Without parts the loop waits for the timeout, and the answer is then unknown: there is no
goroutine that could send a result. Without a timeout the check does not return. -/
theorem check_without_parts [DecidableEq State]
    (sort : List (Entry Input Output) → List (Entry Input Output))
    (model : Model State Input Output) (history : List (Operation Input Output))
    (hparts : (fillDefault model).partition history = []) (verbose timeout : Bool)
    (actions : List ParallelAction) (s : Parallel State)
    (hrun : (checkOperations sort model history verbose timeout).run actions = some s) :
    (.timeout ∉ actions → actions = []) ∧
      (timeout = false → ∀ result, s.phase ≠ .returned result) ∧
      ∀ result, s.phase = .returned result → result = .unknown := by
  rw [checkOperations, hparts, List.map_nil] at hrun
  have h : Partless timeout actions s := by
    refine Machine.run_induction (motive := Partless timeout) ?_ ?_ hrun
    · exact ⟨rfl, rfl, rfl, fun _ => rfl, fun hne => absurd rfl hne, fun _ heq => by cases heq⟩
    · intro actions s action s' _ ih hstep
      exact ih.step hstep
  refine ⟨fun hnot => ?_, fun hnone result hreturned => ?_, h.unknown⟩
  · by_contra hne
    exact hnot (h.left fun heq => hne (h.select heq)).1
  · have htimeout := (h.left (by rw [hreturned]; exact fun heq => by cases heq)).2.2
    rw [hnone] at htimeout
    cases htimeout

/-- An empty history of the store has no parts, so that only the timeout ends its check. -/
theorem check_without_parts_kv :
    ∃ s, (checkOperations insertByTime (kvPorcupine id) [] false true).run [.timeout] = some s ∧
      ∀ result, s.phase = .returned result → result = .unknown := by
  obtain ⟨s, hrun, -⟩ := Machine.exists_run_of_check
    (checkOperations insertByTime (kvPorcupine id) [] false true) [.timeout] (fun _ => True) rfl
  exact ⟨s, hrun, (check_without_parts insertByTime (kvPorcupine id) [] rfl false true [.timeout] s
    hrun).2.2⟩

/-! ## The store -/

section Store

variable {range : List GoString → List GoString} {history : List Models.Operation}

/-- The history of the store is linearizable when all parts are. -/
theorem whole_store_iff (hrange : ∀ keys, (range keys).Perm keys)
    (htimes : ∀ op ∈ history, op.call ≤ op.ret) :
    Linearizable Models.wholeStore (history.map Completed.record) ↔
      ∀ part ∈ Models.partition range history,
        Linearizable Models.kvModel (part.map Completed.record) := by
  obtain ⟨keys, -, hkeys, hparts⟩ := Models.partition_eq hrange history
  rw [linearizable_iff_orderable, Models.wholeStore, orderable_pointwise_iff htimes, hparts,
    List.forall_mem_map]
  simp only [linearizable_iff_orderable]
  constructor
  · exact fun h k _ => h k
  · intro h k
    by_cases hk : k ∈ keys
    · exact h k hk
    · have hnil : onKey Models.KvInput.key k history = [] :=
        List.filter_eq_nil_iff.mpr fun op hop hkey =>
          hk ((hkeys k).mpr ⟨op, hop, of_decide_eq_true hkey⟩)
      rw [hnil]
      exact Models.orderable_nil

/-- The operations of a part are operations of the history. -/
theorem mem_of_mem_partition (hrange : ∀ keys, (range keys).Perm keys)
    {part : List Models.Operation} (hpart : part ∈ Models.partition range history)
    {op : Models.Operation} (hop : op ∈ part) : op ∈ history := by
  obtain ⟨keys, -, -, hparts⟩ := Models.partition_eq hrange history
  rw [hparts] at hpart
  obtain ⟨k, -, rfl⟩ := List.mem_map.mp hpart
  exact (List.mem_filter.mp hop).1

/-- The parts of a history with an operation. -/
theorem partition_ne_nil (hrange : ∀ keys, (range keys).Perm keys) (hhistory : history ≠ []) :
    Models.partition range history ≠ [] := by
  obtain ⟨keys, -, hkeys, hparts⟩ := Models.partition_eq hrange history
  obtain ⟨op, hop⟩ := List.exists_mem_of_ne_nil history hhistory
  rw [hparts, Ne, List.map_eq_nil_iff]
  exact List.ne_nil_of_mem ((hkeys op.input.key).mpr ⟨op, hop, rfl⟩)

/-- Whatever the interleaving, the check of a history with `KvModel` makes a bounded number of
steps, and if the history is not empty it can always go on without the timeout until it returns. The
answer is right about the whole store; without a timeout it is `Ok` exactly when the history is
linearizable. -/
theorem kv_check_exact
    (sort : List (Entry Models.KvInput Models.KvOutput) →
      List (Entry Models.KvInput Models.KvOutput))
    (hsort : SortsByTime sort) (range : List GoString → List GoString)
    (hrange : ∀ keys, (range keys).Perm keys) (history : List Models.Operation)
    (hhistory : history ≠ []) (htimes : ∀ op ∈ history, op.call ≤ op.ret) (verbose timeout : Bool)
    (actions : List ParallelAction) (s : Parallel GoString)
    (hrun : (checkOperations sort (kvPorcupine range) history verbose timeout).run actions =
      some s) :
    actions.length ≤ ((Models.partition range history).map fun part =>
        enoughRounds (makeEntries sort part) part.length + 3).sum +
          (Models.partition range history).length + 2 ∧
      ((∀ action, action ≠ .timeout →
          (checkOperations sort (kvPorcupine range) history verbose timeout).step s action = none) →
        ∃ result, s.phase = .returned result) ∧
      ∀ result, s.phase = .returned result →
        (result = .ok → Linearizable Models.wholeStore (history.map Completed.record)) ∧
        (result = .illegal → ¬ Linearizable Models.wholeStore (history.map Completed.record)) ∧
        (timeout = false →
          (result = .ok ↔ Linearizable Models.wholeStore (history.map Completed.record))) := by
  have hparts : ∀ part ∈ Models.partition range history, ∀ op ∈ part, op.call ≤ op.ret :=
    fun part hpart op hop => htimes op (mem_of_mem_partition hrange hpart hop)
  obtain ⟨hlength, -, -, -, hend⟩ := terminates_of_run hsort (equal_lawful_default _ rfl) hparts
    (partition_ne_nil hrange hhistory) hrun
  refine ⟨hlength, hend, fun result hreturned => ?_⟩
  obtain ⟨hok, hillegal, hunknown⟩ :=
    verdict_of_run hsort (equal_lawful_default _ rfl) hparts hrun hreturned
  rw [whole_store_iff hrange htimes]
  refine ⟨hok, hillegal, fun htimeout => ⟨hok, fun hlin => ?_⟩⟩
  cases result with
  | ok => rfl
  | illegal => exact absurd hlin (hillegal rfl)
  | unknown =>
      rw [(hunknown rfl).1] at htimeout
      cases htimeout

/-- A value that was never written is not read. -/
theorem kv_check_exact_stale :
    ¬ Linearizable Models.wholeStore ([Models.putA, getStale].map Completed.record) := by
  obtain ⟨s, hrun, hphase⟩ := (staleCheck false).exists_run_of_check staleRun
    (fun s => s.phase = .returned .illegal) (by decide +kernel)
  exact ((kv_check_exact insertByTime sorts_by_time_insert id (fun keys => List.Perm.refl keys)
    [Models.putA, getStale] (by simp) (by decide) false false staleRun s hrun).2.2 .illegal
      hphase).2.1 rfl

end Store

end DistributedLabs.Porcupine
