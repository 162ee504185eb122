import DistributedLabs.Mr.Completion
import Mathlib.Data.List.Count

/-!
# Progress after crashes

Workers may crash with their tasks assigned. A round is a call of `AssignMission` at a time at which
every running task has timed out, followed by the finish report of the task that it returned, if
any. Each round makes one more task done or sets one of the two flags (`round_progress`), so the
work that `remaining` counts is used up after as many rounds as there are tasks and flags
(`recovery_progress`).
-/

namespace DistributedLabs.Mr

/-- Every running task was assigned more than 40 seconds before the given time. -/
def Coordinator.Overdue (c : Coordinator) (currenttime : Nat) : Prop :=
  ∀ kind, ∀ task ∈ c.tasks kind, task.missionstate = .running → task.expired currenttime = true

instance (c : Coordinator) (currenttime : Nat) : Decidable (c.Overdue currenttime) :=
  decidable_of_iff' _ Coordinator.forall_tasks_iff

/-- A call of `AssignMission`, and the finish report for the task that it returns. -/
def round (c : Coordinator) (currenttime later : Nat) : Option Coordinator :=
  match (assignMission c currenttime later).2.task.report with
  | some report => deliver (assignMission c currenttime later).1 report
  | none => some (assignMission c currenttime later).1

/-- One round after the other, each with its two readings of the clock. -/
def recovery (c : Coordinator) : Machine Coordinator (Nat × Nat) where
  init := c
  step := fun c times => round c times.1 times.2

/-- One task that was not done becomes done, or one flag that was not set is set. -/
inductive Progress (c : Coordinator) : Coordinator → Prop where
  | task (key : WorkType × Nat) (task new : Task) (hlookup : c.lookup key = some task)
      (hkey : new.key = task.key) (hbefore : task.missionstate ≠ .done)
      (hafter : new.missionstate = .done) :
      Progress c (c.setTask key new)
  | flag (kind : WorkType) (hunset : c.finished kind = false) :
      Progress c (c.setFinished kind true)

/-- The task is not done. -/
def Task.unfinished (task : Task) : Bool :=
  task.missionstate ≠ .done

/-- What is left to do for one kind: its tasks that are not done, and its flag. -/
def Coordinator.pending (c : Coordinator) (kind : WorkType) : Nat :=
  (c.tasks kind).countP Task.unfinished + if c.finished kind then 0 else 1

/-- What is left to do. -/
def Coordinator.remaining (c : Coordinator) : Nat :=
  c.pending .map + c.pending .reduce

section Round

variable {c c' : Coordinator} {currenttime : Nat}

/-- Every task that is not done can be handed out when all running tasks have timed out. -/
theorem Coordinator.Overdue.assignable (h : c.Overdue currenttime) {kind : WorkType} {task : Task}
    (hmem : task ∈ c.tasks kind) (hnot : task.missionstate ≠ .done) :
    task.assignable currenttime = true := by
  cases hstate : task.missionstate with
  | ready => simp [Task.assignable, hstate]
  | running => simp [Task.assignable, hstate, h kind task hmem hstate]
  | done => exact absurd hstate hnot

/-- Making a task done leaves one task less to do. -/
theorem count_unfinished_set {tasks : List Task} {i : Nat} {task new : Task}
    (hlookup : tasks[i]? = some task) (hbefore : task.missionstate ≠ .done)
    (hafter : new.missionstate = .done) :
    (tasks.set i new).countP Task.unfinished + 1 = tasks.countP Task.unfinished := by
  obtain ⟨hlt, heq⟩ := List.getElem?_eq_some_iff.mp hlookup
  have hold : task.unfinished = true := by simpa [Task.unfinished] using hbefore
  have hnew : ¬ new.unfinished = true := by simp [Task.unfinished, hafter]
  have hpos : 0 < tasks.countP Task.unfinished :=
    List.countP_pos_iff.mpr ⟨task, List.mem_of_getElem? hlookup, hold⟩
  rw [List.countP_set hlt, heq, if_pos hold, if_neg hnew]
  omega

/-- Making a task done leaves one thing less to do for its kind. -/
theorem pending_set_task {key : WorkType × Nat} {task new : Task}
    (hlookup : c.lookup key = some task) (hbefore : task.missionstate ≠ .done)
    (hafter : new.missionstate = .done) (kind : WorkType) :
    (c.setTask key new).pending kind + (if kind = key.1 then 1 else 0) = c.pending kind := by
  have hcount := count_unfinished_set hlookup hbefore hafter
  rw [Coordinator.pending, Coordinator.pending, Coordinator.tasks_set_task,
    Coordinator.finished_set_task]
  by_cases hkind : kind = key.1
  · rw [if_pos hkind, if_pos hkind, hkind]
    omega
  · rw [if_neg hkind, if_neg hkind]
    omega

/-- Setting a flag leaves one thing less to do for its kind. -/
theorem pending_set_finished {kind : WorkType} (hunset : c.finished kind = false)
    (other : WorkType) :
    (c.setFinished kind true).pending other + (if other = kind then 1 else 0) =
      c.pending other := by
  rw [Coordinator.pending, Coordinator.pending, Coordinator.tasks_set_finished]
  simp only [Coordinator.finished_set_finished]
  by_cases hkind : other = kind
  · simp [hkind, hunset]
  · simp [hkind]

/-- Progress uses up some of what is left to do. -/
theorem Progress.remaining (h : Progress c c') : c'.remaining + 1 = c.remaining := by
  have hsum : ∀ kind, kind ≠ .waiting →
      (∀ other, c'.pending other + (if other = kind then 1 else 0) = c.pending other) →
      c'.remaining + 1 = c.remaining := by
    intro kind hkind hpending
    have hmap := hpending .map
    have hreduce := hpending .reduce
    unfold Coordinator.remaining
    cases kind with
    | map =>
        simp only [if_true, reduceCtorEq, if_false] at hmap hreduce
        omega
    | reduce =>
        simp only [if_true, reduceCtorEq, if_false] at hmap hreduce
        omega
    | waiting => exact absurd rfl hkind
  cases h with
  | task key task new hlookup hkey hbefore hafter =>
      exact hsum key.1 (Coordinator.lookup_ne_waiting hlookup)
        (pending_set_task hlookup hbefore hafter)
  | flag kind hunset =>
      refine hsum kind ?_ (pending_set_finished hunset)
      rintro rfl
      cases hunset

/-- There is no more left to do than there are tasks and flags. -/
theorem remaining_le (c : Coordinator) :
    c.remaining ≤ c.maptask.length + c.reducetask.length + 2 := by
  have hpending : ∀ kind, c.pending kind ≤ (c.tasks kind).length + 1 := by
    intro kind
    have hcount := List.countP_le_length (p := Task.unfinished) (l := c.tasks kind)
    unfold Coordinator.pending
    split <;> omega
  have hmap : c.pending .map ≤ c.maptask.length + 1 := hpending .map
  have hreduce : c.pending .reduce ≤ c.reducetask.length + 1 := hpending .reduce
  unfold Coordinator.remaining
  omega

/-- A job that is not done has something left to do. -/
theorem done_of_remaining_eq_zero (h : c.remaining = 0) : c.done = true := by
  have hflag : ∀ kind, c.pending kind = 0 → c.finished kind = true := by
    intro kind hpending
    by_contra hunset
    rw [Coordinator.pending, if_neg hunset] at hpending
    omega
  unfold Coordinator.remaining at h
  rw [Coordinator.done_iff]
  intro kind
  cases kind with
  | map => exact hflag .map (by omega)
  | reduce => exact hflag .reduce (by omega)
  | waiting => rfl

/-- The report for a task that has just been handed out is accepted: it carries the stamp that
`AssignMission` has written. -/
theorem deliver_started (hordered : c.Ordered) {key : WorkType × Nat} {task : Task}
    (hlookup : c.lookup key = some task) (stamp : Nat) :
    ∃ report, (task.start stamp).report = some report ∧
      deliver (c.setTask key (task.start stamp)) report =
        some (c.setTask key (task.start stamp).finish) := by
  have hkey : (task.start stamp).key = key := hordered.key key task hlookup
  have hfound : (c.setTask key (task.start stamp)).lookup (task.start stamp).key =
      some (task.start stamp) := by
    rw [hkey, Coordinator.lookup_set_task hlookup, if_pos rfl]
  obtain ⟨report, hreport, hdeliver⟩ := deliver_report hfound
  rw [if_pos rfl, hkey, Coordinator.set_task_set_task] at hdeliver
  exact ⟨report, hreport, hdeliver⟩

/-- When all running tasks have timed out, tasks that cannot be handed out are done. -/
theorem Coordinator.Overdue.done (h : c.Overdue currenttime) {kind : WorkType}
    (hnone : ∀ task ∈ c.tasks kind, task.assignable currenttime = false) :
    ∀ task ∈ c.tasks kind, task.missionstate = .done := by
  intro task hmem
  by_contra hnot
  have hassignable := h.assignable hmem hnot
  rw [hnone task hmem] at hassignable
  cases hassignable

/-- The flag of the current phase is not set before the job is done. -/
theorem Coordinator.Ordered.phase_unset (h : c.Ordered) (hnot : c.done = false) :
    c.finished c.phase = false := by
  rcases c.phase_cases with ⟨hphase, hmap⟩ | ⟨hphase, -⟩
  · rw [hphase, hmap]
  · rw [hphase]
    by_contra hset
    rw [Bool.not_eq_false, ← h.done_iff, hnot] at hset
    cases hset

/-- When all running tasks have timed out, a round succeeds. It makes progress, unless the job is
already done and stays so. -/
theorem round_progress (hordered : c.Ordered) (hoverdue : c.Overdue currenttime) (later : Nat) :
    ∃ c', round c currenttime later = some c' ∧ c'.Ordered ∧
      (c.done = false → Progress c c') ∧ (c.done = true → c'.done = true) := by
  unfold round
  generalize hc' : (assignMission c currenttime later).1 = c'
  generalize hreply : (assignMission c currenttime later).2 = reply
  cases hc' ▸ hreply ▸ assign_answered hordered currenttime later with
  | task i task hlookup hassignable =>
      obtain ⟨report, hreport, hdeliver⟩ :=
        deliver_started hordered hlookup (c.stamp currenttime later)
      refine ⟨_, by simp only [hreport]; exact hdeliver, ?_, ?_, ?_⟩
      · exact hordered.set_task hlookup rfl (fun _ => rfl)
      · exact fun _ => .task _ task _ hlookup rfl (task.not_done_of_assignable hassignable) rfl
      · intro hdone
        have hunset := hordered.not_finished hlookup hassignable
        rw [Coordinator.done_iff.mp hdone] at hunset
        cases hunset
  | wait allFinish hnone hfinish =>
      have hall := hoverdue.done hnone
      rw [hfinish.mpr hall]
      refine ⟨_, rfl, hordered.set_finished fun _ => hall, ?_, ?_⟩
      · exact fun hnot => .flag c.phase (hordered.phase_unset hnot)
      · intro hdone
        rw [Coordinator.done_iff] at hdone ⊢
        intro kind
        exact (Coordinator.finished_set_finished c c.phase kind).mpr (Or.inr (hdone kind))

/-- A sequence of rounds, each after the timeout, succeeds, and uses up one thing to do in each
round until the job is done. -/
theorem recovery_run (hordered : c.Ordered) {rounds : List (Nat × Nat)}
    (hoverdue : (recovery c).Meets (fun c times => c.Overdue times.1) rounds) :
    ∃ c', (recovery c).run rounds = some c' ∧ c'.Ordered ∧
      (c'.done = true ∨ c'.remaining + rounds.length ≤ c.remaining) := by
  induction rounds using List.reverseRecOn with
  | nil => exact ⟨c, rfl, hordered, Or.inr le_rfl⟩
  | append_singleton rounds times ih =>
      obtain ⟨middle, hrun, hmiddle, hprogress⟩ :=
        ih (hoverdue.of_initial (List.prefix_append _ _))
      obtain ⟨c', hround, hc', hnot, hdone⟩ :=
        round_progress hmiddle (hoverdue.last hrun) times.2
      refine ⟨c', Machine.run_concat_iff.mpr ⟨middle, hrun, hround⟩, hc', ?_⟩
      rcases hprogress with hstill | hleft
      · exact Or.inl (hdone hstill)
      · cases hbefore : middle.done with
        | true => exact Or.inl (hdone hbefore)
        | false =>
            have hless := (hnot hbefore).remaining
            rw [List.length_append, List.length_singleton]
            omega

end Round

/-- From every reachable state, whatever its workers do, rounds that are each made when all running
tasks have timed out succeed, and as many of them as there are tasks and flags finish the job. In
between, every task that is not done can be handed out, and each round makes one more task done or
sets one more flag. -/
theorem recovery_progress {W : Type} (glob : GoString → Option (List GoString))
    (files : List GoString) (nReduce : Nat) (c : Coordinator) (rpcs : List (Rpc W)) (σ : Service W)
    (rounds : List (Nat × Nat)) (hmake : makeCoordinator glob files nReduce = some c)
    (hrun : (service W c).run rpcs = some σ)
    (hoverdue : (recovery σ.coordinator).Meets (fun c times => c.Overdue times.1) rounds) :
    ∃ c', (recovery σ.coordinator).run rounds = some c' ∧
      (σ.coordinator.maptask.length + σ.coordinator.reducetask.length + 2 ≤ rounds.length →
        c'.done = true) ∧
      ∀ currenttime later, c'.Overdue currenttime →
        (∀ kind, ∀ task ∈ c'.tasks kind, task.missionstate ≠ .done →
          task.assignable currenttime = true) ∧
        (c'.done = false → ∃ next, round c' currenttime later = some next ∧ Progress c' next) := by
  obtain ⟨c', hrounds, hordered, hprogress⟩ :=
    recovery_run (service_kept hmake hrun).ordered hoverdue
  refine ⟨c', hrounds, ?_, ?_⟩
  · intro henough
    have hle := remaining_le σ.coordinator
    rcases hprogress with hdone | hleft
    · exact hdone
    · exact done_of_remaining_eq_zero (by omega)
  · intro currenttime later hlate
    refine ⟨fun kind task hmem hnot => hlate.assignable hmem hnot, fun hnot => ?_⟩
    obtain ⟨next, hround, -, hnext, -⟩ := round_progress hordered hlate later
    exact ⟨next, hround, hnext hnot⟩

/-- A worker takes the only map task and crashes. Four rounds, from fifty seconds later on, finish
the job of one map and one reduce task. -/
theorem recovery_progress_crash :
    ∃ σ c', (service Nat (initTasks [ascii ['a']] 1)).run [.assign 0 1 1] = some σ ∧
      (recovery σ.coordinator).run
        [(50000000000, 50000000000), (50000000001, 50000000001), (50000000002, 50000000002),
          (50000000003, 50000000003)] = some c' ∧ c'.done = true := by
  have hrounds : (recovery (assignMission (initTasks [ascii ['a']] 1) 1 1).1).Meets
      (fun c times => c.Overdue times.1)
      [(50000000000, 50000000000), (50000000001, 50000000001), (50000000002, 50000000002),
        (50000000003, 50000000003)] := Machine.meets_of_check (by decide)
  obtain ⟨c', hrecovered, hdone, -⟩ := recovery_progress (fun pattern => some [pattern])
    [ascii ['a']] 1 _ [.assign 0 1 1] _ _ rfl rfl hrounds
  exact ⟨_, c', rfl, hrecovered, hdone (by decide)⟩

end DistributedLabs.Mr
