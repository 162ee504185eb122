import DistributedLabs.Mr.Completion
import Mathlib.Data.List.Nodup

/-!
# The assignments of a task

A task that is handed out again gets a later timestamp than before, because a running task is handed
out only after its timeout; this needs of the clock that the two readings of one call are in order,
since the timeout is tested with the first and a reduce task is stamped with the second. So the
assignments of one task have strictly increasing timestamps, only the last one can still be
accepted, and a report for an earlier one changes nothing (`task_lifecycle`).

Without timeouts there is no second assignment (`handed_out_once`).
-/

namespace DistributedLabs.Mr

/-- What one call may do to a task. -/
inductive Moves (task : Task) : Task → Prop where
  | same : Moves task task
  | start (new : Task) (hbefore : task.missionstate = .ready)
      (hafter : new.missionstate = .running) : Moves task new
  | restart (new : Task) (hbefore : task.missionstate = .running)
      (hafter : new.missionstate = .running) (hstamp : task.timestamp < new.timestamp) :
      Moves task new
  | finish (hbefore : task.missionstate = .running) : Moves task task.finish

/-- A task that can be handed out is ready, or it was stamped before the given time. -/
theorem Task.assignable_cases {task : Task} {currenttime : Nat}
    (h : task.assignable currenttime = true) :
    task.missionstate = .ready ∨
      task.missionstate = .running ∧ task.expired currenttime = true ∧
        task.timestamp < currenttime := by
  cases hstate : task.missionstate with
  | ready => exact Or.inl rfl
  | running =>
      have hexpired : task.expired currenttime = true := by
        simpa [Task.assignable, hstate] using h
      refine Or.inr ⟨rfl, hexpired, ?_⟩
      simp only [Task.expired, decide_eq_true_eq] at hexpired
      omega
  | done => exact absurd hstate (task.not_done_of_assignable h)

section Stamps

variable {W : Type} {σ σ' : Service W} {rpc : Rpc W} {rpcs : List (Rpc W)} {c : Coordinator}
  {glob : GoString → Option (List GoString)} {files : List GoString} {nReduce : Nat}

/-- The second reading of the clock in a call is not before the first. -/
def ClockForward : Rpc W → Prop
  | .assign _ currenttime later => currenttime ≤ later
  | .finish _ => True

/-- The report of the assignment would be accepted now. -/
def Service.Accepts (σ : Service W) (assignment : Assignment W) : Prop :=
  ∃ task, σ.coordinator.lookup assignment.task.key = some task ∧
    assignment.task.timestamp = task.timestamp

/-- No assignment is later than the stamp of its task, and the assignments of one task have
increasing stamps. -/
structure Service.StampsKept (σ : Service W) : Prop where
  bounded : ∀ assignment ∈ σ.assignments, ∀ task,
    σ.coordinator.lookup assignment.task.key = some task →
      assignment.task.timestamp ≤ task.timestamp
  increasing : σ.assignments.Pairwise fun first second => first.task.key = second.task.key →
    first.task.timestamp < second.task.timestamp

/-- The stamp of a task that is handed out is not before the time at which its timeout was
tested. -/
theorem Coordinator.le_stamp (c : Coordinator) {currenttime later : Nat}
    (h : currenttime ≤ later) : currenttime ≤ c.stamp currenttime later := by
  unfold Coordinator.stamp
  split
  · exact h
  · exact le_rfl

/-- A call moves each task along its life. -/
theorem Served.moves (h : Served σ rpc σ') (hkept : σ.Kept) (hclock : ClockForward rpc)
    {key : WorkType × Nat} {task : Task} (hlookup : σ.coordinator.lookup key = some task) :
    ∃ new, σ'.coordinator.lookup key = some new ∧ Moves task new := by
  cases h with
  | handOut worker currenttime later i current hcurrent hassignable =>
      rw [Coordinator.lookup_set_task hcurrent]
      by_cases heq : key = (σ.coordinator.phase, i)
      · subst heq
        obtain rfl := Option.some.inj (hcurrent.symm.trans hlookup)
        refine ⟨_, if_pos rfl, ?_⟩
        rcases current.assignable_cases hassignable with hready | ⟨hrunning, -, hlt⟩
        · exact .start _ hready rfl
        · exact .restart _ hrunning rfl (hlt.trans_le (σ.coordinator.le_stamp hclock))
      · exact ⟨task, by rw [if_neg heq, hlookup], .same⟩
  | wait worker currenttime later allFinish hnone hfinish =>
      exact ⟨task, by rw [Coordinator.lookup_set_finished, hlookup], .same⟩
  | accepted k assignment current hassignment hcurrent hstamp =>
      rw [Coordinator.lookup_set_task hcurrent]
      by_cases heq : key = assignment.task.key
      · subst heq
        obtain rfl := Option.some.inj (hcurrent.symm.trans hlookup)
        refine ⟨_, if_pos rfl, ?_⟩
        cases hstate : current.missionstate with
        | ready =>
            -- a task with an assignment is not ready
            obtain ⟨found, hfound, hready⟩ :=
              hkept.known assignment (List.mem_of_getElem? hassignment)
            obtain rfl := Option.some.inj (hcurrent.symm.trans hfound)
            exact absurd hstate hready
        | running => exact .finish hstate
        | done =>
            have hsame : current.finish = current := by rw [Task.finish, ← hstate]
            rw [hsame]
            exact .same
      · exact ⟨task, by rw [if_neg heq, hlookup], .same⟩
  | stale k assignment current hassignment hcurrent hstamp => exact ⟨task, hlookup, .same⟩

/-- A task that is handed out again has timed out, so its new stamp is later than that of every
earlier assignment. -/
theorem Service.StampsKept.lt_stamp (hstamps : σ.StampsKept) (hkept : σ.Kept)
    {currenttime later : Nat} (hclock : currenttime ≤ later) {key : WorkType × Nat} {task : Task}
    (hlookup : σ.coordinator.lookup key = some task)
    (hassignable : task.assignable currenttime = true) {assignment : Assignment W}
    (hmem : assignment ∈ σ.assignments) (hsame : assignment.task.key = key) :
    assignment.task.timestamp < σ.coordinator.stamp currenttime later := by
  obtain ⟨found, hfound, hready⟩ := hkept.known assignment hmem
  have hle := hstamps.bounded assignment hmem found hfound
  rw [hsame] at hfound
  obtain rfl := Option.some.inj (hlookup.symm.trans hfound)
  rcases task.assignable_cases hassignable with hstate | ⟨-, -, hlt⟩
  · exact absurd hstate hready
  · exact hle.trans_lt (hlt.trans_le (σ.coordinator.le_stamp hclock))

/-- A call keeps the stamps in order. -/
theorem Service.StampsKept.of_served (hstamps : σ.StampsKept) (hkept : σ.Kept)
    (hclock : ClockForward rpc) (h : Served σ rpc σ') : σ'.StampsKept := by
  cases h with
  | handOut worker currenttime later i task hlookup hassignable =>
      have hkey := hkept.ordered.key _ task hlookup
      constructor
      · intro assignment hmem found hfound
        rw [Coordinator.lookup_set_task hlookup] at hfound
        rcases List.mem_append.mp hmem with hold | hnew
        · split at hfound
          · rename_i heq
            cases hfound
            exact (hstamps.lt_stamp hkept hclock hlookup hassignable hold heq).le
          · exact hstamps.bounded assignment hold found hfound
        · rw [List.mem_singleton.mp hnew, Task.key_start, hkey, if_pos rfl] at hfound
          cases hfound
          rw [List.mem_singleton.mp hnew]
      · refine List.pairwise_append.mpr ⟨hstamps.increasing, List.pairwise_singleton _ _, ?_⟩
        intro first hfirst second hsecond hsame
        rw [List.mem_singleton.mp hsecond, Task.key_start, hkey] at hsame
        rw [List.mem_singleton.mp hsecond]
        exact hstamps.lt_stamp hkept hclock hlookup hassignable hfirst hsame
  | wait worker currenttime later allFinish hnone hfinish =>
      refine ⟨?_, hstamps.increasing⟩
      simpa only [Coordinator.lookup_set_finished] using hstamps.bounded
  | accepted k assignment task hassignment hlookup hstamp =>
      refine ⟨?_, hstamps.increasing⟩
      intro other hmem found hfound
      rw [Coordinator.lookup_set_task hlookup] at hfound
      split at hfound
      · rename_i heq
        cases hfound
        exact hstamps.bounded other hmem task (heq ▸ hlookup)
      · exact hstamps.bounded other hmem found hfound
  | stale k assignment task hassignment hlookup hstamp => exact hstamps

/-- Along a run whose clock readings are in order, the stamps are in order. -/
theorem stamps_kept (hmake : makeCoordinator glob files nReduce = some c)
    (hclock : ∀ rpc ∈ rpcs, ClockForward rpc) (h : (service W c).run rpcs = some σ) :
    σ.StampsKept := by
  refine Machine.run_induction
    (motive := fun rpcs σ => (∀ rpc ∈ rpcs, ClockForward rpc) → σ.StampsKept) ?_ ?_ h hclock
  · intro _
    exact ⟨fun _ hmem => (List.not_mem_nil hmem).elim, List.Pairwise.nil⟩
  · intro rpcs σ rpc σ' hrun ih hstep hall
    have hkept := service_kept hmake hrun
    exact (ih fun other hmem => hall other (List.mem_append_left _ hmem)).of_served hkept
      (hall rpc (by simp)) (served hkept hstep)

/-- An assignment with a later one of the same task is not accepted any more. -/
theorem Service.StampsKept.not_accepts (hstamps : σ.StampsKept) {earlier latest : Nat}
    {first second : Assignment W} (hlt : earlier < latest)
    (hfirst : σ.assignments[earlier]? = some first)
    (hsecond : σ.assignments[latest]? = some second) (hsame : first.task.key = second.task.key) :
    ¬ σ.Accepts first := by
  rintro ⟨task, hlookup, hstamp⟩
  obtain ⟨hearlier, rfl⟩ := List.getElem?_eq_some_iff.mp hfirst
  obtain ⟨hlatest, rfl⟩ := List.getElem?_eq_some_iff.mp hsecond
  have hincrease :=
    List.pairwise_iff_getElem.mp hstamps.increasing earlier latest hearlier hlatest hlt hsame
  have hbound := hstamps.bounded _ (List.getElem_mem hlatest) task (hsame ▸ hlookup)
  omega

end Stamps

/-- Along every run whose clock readings are in order: a call moves a task from ready to running,
from running to running with a later stamp, or from running to done; the assignments of one task
have strictly increasing stamps; at most one of them can be accepted; and a report for one that has
been superseded leaves the coordinator as it is. -/
theorem task_lifecycle {W : Type} (glob : GoString → Option (List GoString))
    (files : List GoString) (nReduce : Nat) (c : Coordinator) (rpcs : List (Rpc W)) (σ : Service W)
    (hmake : makeCoordinator glob files nReduce = some c)
    (hclock : ∀ rpc ∈ rpcs, ClockForward rpc) (hrun : (service W c).run rpcs = some σ) :
    (∀ rpc σ' key task, ClockForward rpc → σ.serve rpc = some σ' →
      σ.coordinator.lookup key = some task →
        ∃ new, σ'.coordinator.lookup key = some new ∧ Moves task new) ∧
    (σ.assignments.Pairwise fun first second => first.task.key = second.task.key →
      first.task.timestamp < second.task.timestamp) ∧
    (∀ (i j : Nat) (first second : Assignment W), σ.assignments[i]? = some first →
      σ.assignments[j]? = some second →
      first.task.key = second.task.key → σ.Accepts first → σ.Accepts second → i = j) ∧
    ∀ (i j : Nat) (first second : Assignment W), i < j → σ.assignments[i]? = some first →
      σ.assignments[j]? = some second → first.task.key = second.task.key →
        σ.serve (.finish i) = some σ := by
  have hkept := service_kept hmake hrun
  have hstamps := stamps_kept hmake hclock hrun
  refine ⟨?_, hstamps.increasing, ?_, ?_⟩
  · intro rpc σ' key task hforward hserve hlookup
    exact (served hkept hserve).moves hkept hforward hlookup
  · intro i j first second hfirst hsecond hsame hacceptFirst hacceptSecond
    rcases Nat.lt_trichotomy i j with hlt | heq | hlt
    · exact absurd hacceptFirst (hstamps.not_accepts hlt hfirst hsecond hsame)
    · exact heq
    · exact absurd hacceptSecond (hstamps.not_accepts hlt hsecond hfirst hsame.symm)
  · intro i j first second hlt hfirst hsecond hsame
    obtain ⟨task, hlookup, -⟩ := hkept.known first (List.mem_of_getElem? hfirst)
    have hstale := hstamps.not_accepts hlt hfirst hsecond hsame
    rw [serve_finish hfirst hlookup, if_neg fun hstamp => hstale ⟨task, hlookup, hstamp⟩]

/-- The only map task is handed out a second time after fifty seconds; the report of the first
worker then changes nothing. -/
theorem task_lifecycle_reassigned :
    ∃ σ, (service Nat (initTasks [ascii ['a']] 1)).run
        [.assign 0 1 1, .assign 1 50000000000 50000000000] = some σ ∧
      σ.assignments.length = 2 ∧ σ.serve (.finish 0) = some σ := by
  obtain ⟨σ, hrun, hstate⟩ := (service Nat (initTasks [ascii ['a']] 1)).exists_run_of_check
    [.assign 0 1 1, .assign 1 50000000000 50000000000]
    (fun σ => σ.assignments.map (·.task.key) = [(.map, 0), (.map, 0)]) (by decide)
  have hlength : σ.assignments.length = 2 := by simpa using congrArg List.length hstate
  obtain ⟨first, second, hassignments⟩ := List.length_eq_two.mp hlength
  simp only [hassignments, List.map_cons, List.map_nil, List.cons.injEq, and_true] at hstate
  have hlifecycle := task_lifecycle (fun pattern => some [pattern]) [ascii ['a']] 1 _ _ σ rfl
    (by simp [ClockForward]) hrun
  refine ⟨σ, hrun, hlength, hlifecycle.2.2.2 0 1 first second (by decide) ?_ ?_ ?_⟩
  · rw [hassignments]
    rfl
  · rw [hassignments]
    rfl
  · rw [hstate.1, hstate.2]

/-! ## Runs without timeouts -/

section NoTimeout

variable {W : Type} {σ σ' : Service W} {rpc : Rpc W} {rpcs : List (Rpc W)} {c : Coordinator}
  {glob : GoString → Option (List GoString)} {files : List GoString} {nReduce : Nat}

/-- `AssignMission` is not called more than 40 seconds after the stamp of a running task. -/
def NoTimeout (σ : Service W) : Rpc W → Prop
  | .assign _ currenttime _ => ∀ kind, ∀ task ∈ σ.coordinator.tasks kind,
      task.missionstate = .running → task.expired currenttime = false
  | .finish _ => True

instance (σ : Service W) : (rpc : Rpc W) → Decidable (NoTimeout σ rpc)
  | .assign _ _ _ => decidable_of_iff' _ Coordinator.forall_tasks_iff
  | .finish _ => inferInstanceAs (Decidable True)

/-- Without a timeout, a call hands out no task that was handed out before. -/
theorem Served.keys_nodup (h : Served σ rpc σ') (hkept : σ.Kept) (hnone : NoTimeout σ rpc)
    (hnodup : (σ.assignments.map (·.task.key)).Nodup) :
    (σ'.assignments.map (·.task.key)).Nodup := by
  cases h with
  | handOut worker currenttime later i task hlookup hassignable =>
      have hready : task.missionstate = .ready := by
        rcases task.assignable_cases hassignable with hready | ⟨hrunning, hexpired, -⟩
        · exact hready
        · have hmem := Coordinator.mem_tasks_iff.mpr ⟨i, hlookup⟩
          rw [hnone _ task hmem hrunning] at hexpired
          cases hexpired
      have hfresh : (σ.coordinator.phase, i) ∉ σ.assignments.map (·.task.key) := by
        intro hold
        obtain ⟨assignment, hmem, hkey⟩ := List.mem_map.mp hold
        obtain ⟨found, hfound, hnot⟩ := hkept.known assignment hmem
        rw [hkey, hlookup] at hfound
        cases hfound
        exact hnot hready
      have hkey := hkept.ordered.key _ task hlookup
      rw [List.map_append, List.map_singleton, Task.key_start, hkey]
      exact List.concat_eq_append ▸ hnodup.concat hfresh
  | wait | accepted | stale => exact hnodup

/-- Without timeouts, no task is handed out twice. -/
theorem keys_nodup (hmake : makeCoordinator glob files nReduce = some c)
    (hmeets : (service W c).Meets NoTimeout rpcs) (h : (service W c).run rpcs = some σ) :
    (σ.assignments.map (·.task.key)).Nodup := by
  refine Machine.run_induction_of_meets
    (motive := fun _ σ => (σ.assignments.map (·.task.key)).Nodup) List.nodup_nil ?_ hmeets h
  intro rpcs σ rpc σ' hrun hnodup hnone hstep
  have hkept := service_kept hmake hrun
  exact (served hkept hstep).keys_nodup hkept hnone hnodup

end NoTimeout

/-- In every run in which `AssignMission` is never called more than 40 seconds after the stamp of a
running task, every task is handed out at most once, no two workers get the same task, and when
`Done` returns true every map and every reduce task has been handed out exactly once. -/
theorem handed_out_once {W : Type} (glob : GoString → Option (List GoString))
    (files : List GoString) (nReduce : Nat) (c : Coordinator) (rpcs : List (Rpc W)) (σ : Service W)
    (hmake : makeCoordinator glob files nReduce = some c)
    (hmeets : (service W c).Meets NoTimeout rpcs) (hrun : (service W c).run rpcs = some σ) :
    (σ.assignments.map (·.task.key)).Nodup ∧
    (∀ first ∈ σ.assignments, ∀ second ∈ σ.assignments,
      first.task.key = second.task.key → first.worker = second.worker) ∧
    (σ.coordinator.done = true → ∀ kind i, i < (c.tasks kind).length →
      (σ.assignments.map (·.task.key)).count (kind, i) = 1) := by
  have hkept := service_kept hmake hrun
  have hnodup := keys_nodup hmake hmeets hrun
  refine ⟨hnodup, ?_, ?_⟩
  · intro first hfirst second hsecond hsame
    rw [List.inj_on_of_nodup_map hnodup hfirst hsecond hsame]
  · intro hdone kind i hlt
    rw [← length_tasks hmake hrun] at hlt
    have hlookup : σ.coordinator.lookup (kind, i) = some _ := List.getElem?_eq_getElem hlt
    have hstate := hkept.ordered.finished kind (Coordinator.done_iff.mp hdone kind) _
      (List.getElem_mem hlt)
    obtain ⟨assignment, hmem, hkey, -⟩ :=
      hkept.assigned (kind, i) _ hlookup (by simp [hstate])
    exact List.count_eq_one_of_mem hnodup (List.mem_map.mpr ⟨assignment, hmem, hkey⟩)

/-- `polledJob` has no timeout, and hands out its map task and its reduce task once. -/
theorem handed_out_once_polled :
    ∃ σ, (service Nat (initTasks [ascii ['a']] 1)).run polledJob = some σ ∧
      (σ.assignments.map (·.task.key)).count (.map, 0) = 1 ∧
      (σ.assignments.map (·.task.key)).count (.reduce, 0) = 1 := by
  obtain ⟨σ, hrun, hdone⟩ := (service Nat (initTasks [ascii ['a']] 1)).exists_run_of_check
    polledJob (fun σ => σ.coordinator.done = true) (by decide)
  have honce := (handed_out_once (fun pattern => some [pattern]) [ascii ['a']] 1 _ polledJob σ rfl
    (Machine.meets_of_check (by decide)) hrun).2.2 hdone
  exact ⟨σ, hrun, honce .map 0 (by decide), honce .reduce 0 (by decide)⟩

end DistributedLabs.Mr
