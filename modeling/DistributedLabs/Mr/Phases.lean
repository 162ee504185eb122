import DistributedLabs.Mr.System

/-!
# The two phases of the coordinator alike

The map and the reduce branch of `AssignMission` do the same to their own list and flag, and so do
the two finish handlers. `tasks`, `lookup` and `setTask` name a task by its kind and its index, so
that `assign_answered` has two outcomes instead of four and `deliver_report` speaks of both
handlers. The former holds of coordinators whose tasks are numbered in order and whose flags tell
the truth (`Ordered`).
-/

namespace DistributedLabs.Mr

/-- The kind and the index of a task. -/
def Task.key (task : Task) : WorkType × Nat :=
  (task.worktype, task.index)

/-- The tasks of a kind. -/
def Coordinator.tasks (c : Coordinator) : WorkType → List Task
  | .map => c.maptask
  | .reduce => c.reducetask
  | .waiting => []

/-- The flag that says that all tasks of a kind are finished. -/
def Coordinator.finished (c : Coordinator) : WorkType → Bool
  | .map => c.maptaskfinish
  | .reduce => c.reducetaskfinish
  | .waiting => true

/-- The task kept under a kind and an index. -/
def Coordinator.lookup (c : Coordinator) (key : WorkType × Nat) : Option Task :=
  (c.tasks key.1)[key.2]?

/-- Replace the task under a kind and an index. -/
def Coordinator.setTask (c : Coordinator) (key : WorkType × Nat) (task : Task) : Coordinator :=
  match key.1 with
  | .map => { c with maptask := c.maptask.set key.2 task }
  | .reduce => { c with reducetask := c.reducetask.set key.2 task }
  | .waiting => c

/-- Set the flag of a kind. -/
def Coordinator.setFinished (c : Coordinator) (kind : WorkType) (flag : Bool) : Coordinator :=
  match kind with
  | .map => { c with maptaskfinish := flag }
  | .reduce => { c with reducetaskfinish := flag }
  | .waiting => c

/-- The kind of task that `AssignMission` looks for. -/
def Coordinator.phase (c : Coordinator) : WorkType :=
  if c.maptaskfinish then .reduce else .map

/-- The reading of the clock that stamps a task of the current phase. -/
def Coordinator.stamp (c : Coordinator) (currenttime later : Nat) : Nat :=
  if c.maptaskfinish then later else currenttime

/-- A task as it is handed out. -/
def Task.start (task : Task) (stamp : Nat) : Task :=
  { task with timestamp := stamp, missionstate := .running }

/-- A task whose finish report was accepted. -/
def Task.finish (task : Task) : Task :=
  { task with missionstate := .done }

section Phases

variable {c : Coordinator} {key other : WorkType × Nat} {kind : WorkType} {task new : Task}

/-- Handing out a task does not change which task it is. -/
@[simp] theorem Task.key_start (task : Task) (stamp : Nat) : (task.start stamp).key = task.key :=
  rfl

/-- The tasks of each kind after one task was replaced. -/
theorem Coordinator.tasks_set_task (c : Coordinator) (key : WorkType × Nat) (new : Task)
    (kind : WorkType) :
    (c.setTask key new).tasks kind =
      if kind = key.1 then (c.tasks kind).set key.2 new else c.tasks kind := by
  obtain ⟨own, i⟩ := key
  cases own <;> cases kind <;> rfl

/-- The number of tasks of each kind never changes. -/
@[simp] theorem Coordinator.length_set_task (c : Coordinator) (key : WorkType × Nat) (new : Task)
    (kind : WorkType) : ((c.setTask key new).tasks kind).length = (c.tasks kind).length := by
  rw [Coordinator.tasks_set_task]
  split <;> simp

/-- The tasks after one that is kept was replaced. -/
theorem Coordinator.lookup_set_task (h : c.lookup key = some task) (new : Task)
    (other : WorkType × Nat) :
    (c.setTask key new).lookup other = if other = key then some new else c.lookup other := by
  have hlt : key.2 < (c.tasks key.1).length := (List.getElem?_eq_some_iff.mp h).1
  rw [Coordinator.lookup, Coordinator.tasks_set_task]
  split
  · rename_i hkind
    rw [List.getElem?_set]
    by_cases hindex : key.2 = other.2
    · rw [if_pos hindex, if_pos (Prod.ext hkind hindex.symm), hkind, if_pos hlt]
    · rw [if_neg hindex, if_neg fun heq => hindex (by rw [heq])]
      rfl
  · rename_i hkind
    rw [if_neg fun heq => hkind (by rw [heq])]
    rfl

/-- Replacing a task leaves the flags alone. -/
@[simp] theorem Coordinator.finished_set_task (c : Coordinator) (key : WorkType × Nat) (new : Task)
    (kind : WorkType) : (c.setTask key new).finished kind = c.finished kind := by
  obtain ⟨own, i⟩ := key
  cases own <;> cases kind <;> rfl

/-- Setting a flag leaves the tasks alone. -/
@[simp] theorem Coordinator.tasks_set_finished (c : Coordinator) (kind other : WorkType)
    (flag : Bool) : (c.setFinished kind flag).tasks other = c.tasks other := by
  cases kind <;> cases other <;> rfl

/-- Setting a flag leaves each task where it is. -/
@[simp] theorem Coordinator.lookup_set_finished (c : Coordinator) (kind : WorkType) (flag : Bool)
    (key : WorkType × Nat) : (c.setFinished kind flag).lookup key = c.lookup key := by
  rw [Coordinator.lookup, Coordinator.tasks_set_finished]
  rfl

/-- Replacing a task twice is replacing it by the second one. -/
theorem Coordinator.set_task_set_task (c : Coordinator) (key : WorkType × Nat)
    (first second : Task) : (c.setTask key first).setTask key second = c.setTask key second := by
  obtain ⟨own, i⟩ := key
  cases own <;> simp [Coordinator.setTask]

/-- Each task of a kind is kept under some index. -/
theorem Coordinator.mem_tasks_iff :
    task ∈ c.tasks kind ↔ ∃ i, c.lookup (kind, i) = some task :=
  List.mem_iff_getElem?

/-- What holds of all tasks holds of the map tasks and of the reduce tasks. -/
theorem Coordinator.forall_tasks_iff {motive : Task → Prop} :
    (∀ kind, ∀ task ∈ c.tasks kind, motive task) ↔
      (∀ task ∈ c.maptask, motive task) ∧ ∀ task ∈ c.reducetask, motive task := by
  constructor
  · intro h
    exact ⟨h .map, h .reduce⟩
  · rintro ⟨hmap, hreduce⟩ kind
    cases kind with
    | map => exact hmap
    | reduce => exact hreduce
    | waiting => exact fun _ hmem => (List.not_mem_nil hmem).elim

/-- No task is kept under the kind `waiting`. -/
theorem Coordinator.lookup_ne_waiting (h : c.lookup key = some task) : key.1 ≠ .waiting := by
  intro hkind
  rw [Coordinator.lookup, hkind] at h
  cases h

/-- The tasks are numbered in order, a flag that is set tells the truth, and the reduce flag is not
set before the map flag. -/
structure Coordinator.Ordered (c : Coordinator) : Prop where
  key : ∀ (key : WorkType × Nat) (task : Task), c.lookup key = some task → task.key = key
  finished : ∀ kind, c.finished kind = true → ∀ task ∈ c.tasks kind, task.missionstate = .done
  order : c.finished .reduce = true → c.finished .map = true

/-- A coordinator that `MakeCoordinator` returns is ordered, and none of its tasks has been handed
out. -/
theorem ordered_make {glob : GoString → Option (List GoString)} {files : List GoString}
    {nReduce : Nat} (h : makeCoordinator glob files nReduce = some c) :
    c.Ordered ∧ ∀ kind, ∀ task ∈ c.tasks kind, task.missionstate = .ready := by
  rw [make_coordinator_eq h]
  refine ⟨⟨?_, ?_, by simp [initTasks, Coordinator.finished]⟩, ?_⟩
  · rintro ⟨kind, i⟩ task hlookup
    cases kind with
    | map =>
        simp only [Coordinator.lookup, Coordinator.tasks, initTasks, List.getElem?_mapIdx,
          Option.map_eq_some_iff] at hlookup
        obtain ⟨name, -, rfl⟩ := hlookup
        rfl
    | reduce =>
        simp only [Coordinator.lookup, Coordinator.tasks, initTasks, List.getElem?_map,
          Option.map_eq_some_iff] at hlookup
        obtain ⟨index, hindex, rfl⟩ := hlookup
        obtain ⟨_, heq⟩ := List.getElem?_eq_some_iff.mp hindex
        rw [List.getElem_range] at heq
        rw [heq]
        rfl
    | waiting => exact absurd rfl (Coordinator.lookup_ne_waiting hlookup)
  · intro kind hfinished task hmem
    cases kind with
    | map => simp [Coordinator.finished, initTasks] at hfinished
    | reduce => simp [Coordinator.finished, initTasks] at hfinished
    | waiting => simp [Coordinator.tasks] at hmem
  · intro kind task hmem
    cases kind with
    | map =>
        obtain ⟨i, _, rfl⟩ := List.mem_mapIdx.mp hmem
        rfl
    | reduce =>
        obtain ⟨i, _, rfl⟩ := List.mem_map.mp hmem
        rfl
    | waiting => simp [Coordinator.tasks] at hmem

/-- Replacing a task by one with the same key keeps the order, if the new one is done whenever the
flag says so. -/
theorem Coordinator.Ordered.set_task (h : c.Ordered) (hlookup : c.lookup key = some task)
    (hkey : new.key = task.key) (hdone : c.finished key.1 = true → new.missionstate = .done) :
    (c.setTask key new).Ordered where
  key := by
    intro other found hfound
    rw [Coordinator.lookup_set_task hlookup] at hfound
    split at hfound
    · rename_i heq
      cases hfound
      rw [hkey, heq]
      exact h.key key task hlookup
    · exact h.key other found hfound
  finished := by
    intro kind hfinished found hmem
    rw [Coordinator.finished_set_task] at hfinished
    obtain ⟨i, hfound⟩ := Coordinator.mem_tasks_iff.mp hmem
    rw [Coordinator.lookup_set_task hlookup] at hfound
    split at hfound
    · rename_i heq
      subst heq
      cases hfound
      exact hdone hfinished
    · exact h.finished kind hfinished found (Coordinator.mem_tasks_iff.mpr ⟨i, hfound⟩)
  order := by
    simp only [Coordinator.finished_set_task]
    exact h.order

/-- Setting the flag of the current phase keeps the order, if it tells the truth. -/
theorem Coordinator.Ordered.set_finished (h : c.Ordered) {flag : Bool}
    (hflag : flag = true → ∀ task ∈ c.tasks c.phase, task.missionstate = .done) :
    (c.setFinished c.phase flag).Ordered := by
  have hkeys : ∀ kind key task, (c.setFinished kind flag).lookup key = some task →
      task.key = key := by
    intro kind key task hlookup
    rw [Coordinator.lookup_set_finished] at hlookup
    exact h.key key task hlookup
  unfold Coordinator.phase at hflag ⊢
  split
  · rename_i hmap
    rw [if_pos hmap] at hflag
    refine ⟨hkeys .reduce, ?_, fun _ => hmap⟩
    intro kind hfinished
    rw [Coordinator.tasks_set_finished]
    cases kind with
    | reduce => exact hflag hfinished
    | map => exact h.finished .map hmap
    | waiting => exact h.finished .waiting rfl
  · rename_i hmap
    rw [if_neg hmap] at hflag
    have hreduce : c.finished .reduce ≠ true := fun hset => hmap (h.order hset)
    refine ⟨hkeys .map, ?_, fun hset => absurd hset hreduce⟩
    intro kind hfinished
    rw [Coordinator.tasks_set_finished]
    cases kind with
    | map => exact hflag hfinished
    | reduce => exact absurd hfinished hreduce
    | waiting => exact h.finished .waiting rfl

/-- The outcomes of `AssignMission`: the first task of the phase that can be handed out is handed
out, or none can be and the flag says whether all are done. -/
inductive Answered (c : Coordinator) (currenttime later : Nat) :
    Coordinator → TaskReply → Prop where
  | task (i : Nat) (task : Task) (hlookup : c.lookup (c.phase, i) = some task)
      (hassignable : task.assignable currenttime = true) :
      Answered c currenttime later
        (c.setTask (c.phase, i) (task.start (c.stamp currenttime later)))
        ⟨task.start (c.stamp currenttime later), c.nreduce⟩
  | wait (allFinish : Bool)
      (hnone : ∀ task ∈ c.tasks c.phase, task.assignable currenttime = false)
      (hfinish : allFinish = true ↔ ∀ task ∈ c.tasks c.phase, task.missionstate = .done) :
      Answered c currenttime later (c.setFinished c.phase allFinish)
        ⟨{ worktype := .waiting }, c.nreduce⟩

/-- A flag is not set while one of its tasks can be handed out. -/
theorem Coordinator.Ordered.not_finished (h : c.Ordered) {currenttime : Nat}
    (hlookup : c.lookup key = some task) (hassignable : task.assignable currenttime = true) :
    c.finished key.1 = false := by
  by_contra hfinished
  rw [Bool.not_eq_false] at hfinished
  exact task.not_done_of_assignable hassignable
    (h.finished key.1 hfinished task (Coordinator.mem_tasks_iff.mpr ⟨key.2, hlookup⟩))

/-- Every call of `AssignMission` on an ordered coordinator has one of the two outcomes. -/
theorem assign_answered (h : c.Ordered) (currenttime later : Nat) :
    Answered c currenttime later (assignMission c currenttime later).1
      (assignMission c currenttime later).2 := by
  generalize hc' : (assignMission c currenttime later).1 = c'
  generalize hreply : (assignMission c currenttime later).2 = reply
  have hmap : c.maptaskfinish = false →
      c.phase = .map ∧ c.stamp currenttime later = currenttime := by
    intro hphase
    simp [Coordinator.phase, Coordinator.stamp, hphase]
  have hreduce : c.maptaskfinish = true →
      c.phase = .reduce ∧ c.stamp currenttime later = later := by
    intro hphase
    simp [Coordinator.phase, Coordinator.stamp, hphase]
  cases hc' ▸ hreply ▸ assign_mission_cases c currenttime later with
  | map i task hphase hlookup hassignable =>
      obtain ⟨hkind, hstamp⟩ := hmap hphase
      have hanswered : Answered c currenttime later _ _ := .task i task (by rwa [hkind]) hassignable
      rw [hkind, hstamp] at hanswered
      exact hanswered
  | mapWait allFinish hphase hnone hfinish =>
      obtain ⟨hkind, -⟩ := hmap hphase
      have hanswered : Answered c currenttime later _ _ :=
        .wait allFinish (by rwa [hkind]) (by rwa [hkind])
      rw [hkind] at hanswered
      exact hanswered
  | reduce i task hphase hlookup hassignable =>
      obtain ⟨hkind, hstamp⟩ := hreduce hphase
      have hfound : c.lookup (.reduce, i) = some task := hlookup
      -- the flag that this branch clears was not set, and the kind that it writes was there
      have hflag : c.reducetaskfinish = false := h.not_finished hfound hassignable
      have hworktype : task.worktype = .reduce := congrArg Prod.fst (h.key _ task hfound)
      have hstart : task.startReduce later = task.start later := by
        simp [Task.startReduce, Task.start, hworktype]
      have hanswered : Answered c currenttime later _ _ := .task i task (by rwa [hkind]) hassignable
      rw [hkind, hstamp, ← hstart] at hanswered
      simpa [Coordinator.setTask, hflag] using hanswered
  | reduceWait allFinish hphase hnone hfinish =>
      obtain ⟨hkind, -⟩ := hreduce hphase
      have hanswered : Answered c currenttime later _ _ :=
        .wait allFinish (by rwa [hkind]) (by rwa [hkind])
      rw [hkind] at hanswered
      exact hanswered

end Phases

/-! ## Finish reports -/

/-- The finish report of a task. -/
def Task.report (task : Task) : Option Report :=
  match task.worktype with
  | .map => some (.map (finishArgs task))
  | .reduce => some (.reduce (finishArgs task))
  | .waiting => none

/-- What a report of a task does to the list of its kind. -/
theorem finish_task_eq {tasks : List Task} {task current : Task}
    (hlookup : tasks[task.index]? = some current) :
    finishTask tasks (finishArgs task) = if task.timestamp = current.timestamp then
      some (tasks.set task.index current.finish) else some tasks := by
  rw [finishTask, show (finishArgs task).task.index = task.index from rfl, hlookup]
  exact apply_ite some _ _ _

/-- A task that the coordinator keeps can be reported. The report makes it done if its timestamp is
still the one of the report, and otherwise changes nothing. -/
theorem deliver_report {c : Coordinator} {task current : Task}
    (hlookup : c.lookup task.key = some current) :
    ∃ report, task.report = some report ∧
      deliver c report = if task.timestamp = current.timestamp then
        some (c.setTask task.key current.finish) else some c := by
  unfold Task.report
  unfold Task.key at hlookup ⊢
  cases hkind : task.worktype with
  | map =>
      rw [hkind] at hlookup
      have hfound : c.maptask[task.index]? = some current := hlookup
      refine ⟨_, rfl, ?_⟩
      rw [deliver, handleMapFinish, finish_task_eq hfound]
      split <;> rfl
  | reduce =>
      rw [hkind] at hlookup
      have hfound : c.reducetask[task.index]? = some current := hlookup
      refine ⟨_, rfl, ?_⟩
      rw [deliver, handleReduceFinish, finish_task_eq hfound]
      split <;> rfl
  | waiting => exact absurd hkind (Coordinator.lookup_ne_waiting hlookup)

end DistributedLabs.Mr
