import DistributedLabs.Library.Lists
import DistributedLabs.Mr.Files

/-!
# The MapReduce coordinator

The types of `mr/rpc.go` and the handlers of `mr/coordinator.go`. Each handler runs under the
coordinator's lock, so it is a function from the coordinator before to the coordinator after and
the reply. Instants are nanoseconds; the zero time of a task that was never assigned is `0`.

The two branches of `AssignMission` are one loop over the tasks of the phase. `assign_mission_cases`
lists its four outcomes, and `finish_cases` those of a finish report.
-/

namespace DistributedLabs.Mr

/-- The state of a task. -/
inductive MissionState where
  | ready
  | running
  | done
  deriving DecidableEq

/-- What a worker is told to do. -/
inductive WorkType where
  | map
  | reduce
  | waiting
  deriving DecidableEq

/-- A task. The defaults are the zero values of Go. -/
structure Task where
  worktype : WorkType := .map
  missionstate : MissionState := .ready
  index : Nat := 0
  timestamp : Nat := 0
  mapfile : GoString := []
  reducefiles : List GoString := []
  deriving DecidableEq

/-- The arguments of a finish report. -/
structure CallArgs where
  task : Task

/-- The reply of `AssignMission`. -/
structure TaskReply where
  task : Task
  nReduce : Nat

/-- The state of the coordinator. -/
structure Coordinator where
  filename : List GoString
  nreduce : Nat
  maptask : List Task
  reducetask : List Task
  maptaskfinish : Bool := false
  reducetaskfinish : Bool := false

/-- The tasks for a list of input files: one map task for each file, and `nReduce` reduce tasks that
each read one intermediate file of every map task. -/
def initTasks (filename : List GoString) (nReduce : Nat) : Coordinator where
  filename := filename
  nreduce := nReduce
  maptask := filename.mapIdx fun i name =>
    { missionstate := .ready, index := i, mapfile := name }
  reducetask := (List.range nReduce).map fun i =>
    { worktype := .reduce, index := i, missionstate := .ready
      reducefiles := (List.range filename.length).map fun index => intermediateName index i }

/-- The coordinator of a job. `glob` is `filepath.Glob`; when it reports an error there is no
coordinator. -/
def makeCoordinator (glob : GoString → Option (List GoString)) (files : List GoString)
    (nReduce : Nat) : Option Coordinator :=
  (files.mapM glob).map fun matched => initTasks matched.flatten nReduce

/-- A coordinator starts with the tasks for its input files. -/
theorem make_coordinator_eq {glob : GoString → Option (List GoString)} {files : List GoString}
    {nReduce : Nat} {c : Coordinator} (h : makeCoordinator glob files nReduce = some c) :
    c = initTasks c.filename nReduce := by
  obtain ⟨matched, -, rfl⟩ := Option.map_eq_some_iff.mp h
  rfl

/-- The map tasks are numbered in order. -/
theorem init_maptask_index (filename : List GoString) (nReduce : Nat) :
    (initTasks filename nReduce).maptask.map Task.index = List.range filename.length := by
  refine List.ext_getElem (by simp [initTasks]) fun index _ _ => ?_
  simp [initTasks]

/-- The reduce tasks are numbered in order. -/
theorem init_reducetask_index (filename : List GoString) (nReduce : Nat) :
    (initTasks filename nReduce).reducetask.map Task.index = List.range nReduce := by
  simp [initTasks, Function.comp_def]

/-- A map task reads the input file of its number. -/
theorem mem_init_maptask {filename : List GoString} {nReduce : Nat} {task : Task}
    (h : task ∈ (initTasks filename nReduce).maptask) :
    filename[task.index]? = some task.mapfile := by
  obtain ⟨index, hlt, rfl⟩ := List.mem_mapIdx.mp h
  exact List.getElem?_eq_getElem hlt

/-- A reduce task reads one intermediate file of every map task. -/
theorem mem_init_reducetask {filename : List GoString} {nReduce : Nat} {task : Task}
    (h : task ∈ (initTasks filename nReduce).reducetask) :
    task.index < nReduce ∧ task.reducefiles =
      (List.range filename.length).map fun index => intermediateName index task.index := by
  obtain ⟨index, hindex, rfl⟩ := List.mem_map.mp h
  exact ⟨List.mem_range.mp hindex, rfl⟩

/-! ## Assigning tasks -/

/-- Whether a running task was assigned more than 40 seconds ago. -/
def Task.expired (currenttime : Nat) (task : Task) : Bool :=
  40 * 1000000000 < currenttime - task.timestamp

/-- Whether `AssignMission` hands out this task. -/
def Task.assignable (currenttime : Nat) (task : Task) : Bool :=
  task.missionstate = .ready || (task.missionstate = .running && task.expired currenttime)

/-- The loop over the tasks: the first task to hand out with its position, or else whether all tasks
are finished. -/
def scan (currenttime : Nat) : List Task → Nat → Bool → (Nat × Task) ⊕ Bool
  | [], _, allFinish => .inr allFinish
  | task :: rest, i, allFinish =>
      if task.assignable currenttime then .inl (i, task)
      else scan currenttime rest (i + 1)
        (if task.missionstate = .running then false else allFinish)

/-- A map task as it is handed out. -/
def Task.startMap (task : Task) (stamp : Nat) : Task :=
  { task with timestamp := stamp, missionstate := .running }

/-- A reduce task as it is handed out. -/
def Task.startReduce (task : Task) (stamp : Nat) : Task :=
  { task with timestamp := stamp, missionstate := .running, worktype := .reduce }

/-- The `AssignMission` handler. `currenttime` is read when it starts, and `later` is the second
reading of the clock that stamps a reduce task. -/
def assignMission (c : Coordinator) (currenttime later : Nat) : Coordinator × TaskReply :=
  if !c.maptaskfinish then
    match scan currenttime c.maptask 0 true with
    | .inl (i, task) =>
        ({ c with maptask := c.maptask.set i (task.startMap currenttime), maptaskfinish := false },
          ⟨task.startMap currenttime, c.nreduce⟩)
    | .inr allFinish =>
        ({ c with maptaskfinish := allFinish }, ⟨{ worktype := .waiting }, c.nreduce⟩)
  else
    match scan currenttime c.reducetask 0 true with
    | .inl (i, task) =>
        -- unlike a map task, a reduce task is stamped with a second reading of the clock
        ({ c with
            reducetask := c.reducetask.set i (task.startReduce later), reducetaskfinish := false },
          ⟨task.startReduce later, c.nreduce⟩)
    | .inr allFinish =>
        ({ c with reducetaskfinish := allFinish }, ⟨{ worktype := .waiting }, c.nreduce⟩)

/-- A task that is found is a task of the list that can be handed out. -/
theorem scan_found {currenttime i position : Nat} {tasks : List Task} {task : Task}
    {allFinish : Bool} (h : scan currenttime tasks i allFinish = .inl (position, task)) :
    ∃ offset, position = i + offset ∧ tasks[offset]? = some task ∧
      task.assignable currenttime = true := by
  induction tasks generalizing i allFinish with
  | nil => cases h
  | cons head rest ih =>
      rw [scan] at h
      split at h
      · rename_i hassignable
        cases h
        exact ⟨0, rfl, rfl, hassignable⟩
      · obtain ⟨offset, hposition, hlookup, hassignable⟩ := ih h
        exact ⟨offset + 1, by omega, hlookup, hassignable⟩

/-- When no task is found, none can be handed out, and the loop says whether all of them are
done. -/
theorem scan_none {currenttime i : Nat} {tasks : List Task} {allFinish result : Bool}
    (h : scan currenttime tasks i allFinish = .inr result) :
    (∀ task ∈ tasks, task.assignable currenttime = false) ∧
      (result = true ↔ allFinish = true ∧ ∀ task ∈ tasks, task.missionstate = .done) := by
  induction tasks generalizing i allFinish with
  | nil =>
      cases h
      simp
  | cons head rest ih =>
      rw [scan] at h
      split at h
      · cases h
      · rename_i hnot
        obtain ⟨hnone, hresult⟩ := ih h
        have hhead : head.assignable currenttime = false := by simpa using hnot
        refine ⟨by simpa [hhead] using hnone, ?_⟩
        rw [hresult]
        cases hstate : head.missionstate with
        | ready => simp [Task.assignable, hstate] at hhead
        | running => simp [hstate]
        | done => simp [hstate]

/-- The outcomes of `AssignMission`. -/
inductive Assigned (c : Coordinator) (currenttime later : Nat) :
    Coordinator → TaskReply → Prop where
  | map (i : Nat) (task : Task) (hphase : c.maptaskfinish = false)
      (hlookup : c.maptask[i]? = some task) (hassignable : task.assignable currenttime = true) :
      Assigned c currenttime later { c with maptask := c.maptask.set i (task.startMap currenttime) }
        ⟨task.startMap currenttime, c.nreduce⟩
  | mapWait (allFinish : Bool) (hphase : c.maptaskfinish = false)
      (hnone : ∀ task ∈ c.maptask, task.assignable currenttime = false)
      (hfinish : allFinish = true ↔ ∀ task ∈ c.maptask, task.missionstate = .done) :
      Assigned c currenttime later { c with maptaskfinish := allFinish }
        ⟨{ worktype := .waiting }, c.nreduce⟩
  | reduce (i : Nat) (task : Task) (hphase : c.maptaskfinish = true)
      (hlookup : c.reducetask[i]? = some task) (hassignable : task.assignable currenttime = true) :
      Assigned c currenttime later
        { c with
          reducetask := c.reducetask.set i (task.startReduce later)
          reducetaskfinish := false }
        ⟨task.startReduce later, c.nreduce⟩
  | reduceWait (allFinish : Bool) (hphase : c.maptaskfinish = true)
      (hnone : ∀ task ∈ c.reducetask, task.assignable currenttime = false)
      (hfinish : allFinish = true ↔ ∀ task ∈ c.reducetask, task.missionstate = .done) :
      Assigned c currenttime later { c with reducetaskfinish := allFinish }
        ⟨{ worktype := .waiting }, c.nreduce⟩

/-- Every call of `AssignMission` has one of the four outcomes. -/
theorem assign_mission_cases (c : Coordinator) (currenttime later : Nat) :
    Assigned c currenttime later (assignMission c currenttime later).1
      (assignMission c currenttime later).2 := by
  cases hphase : c.maptaskfinish with
  | false =>
      cases hscan : scan currenttime c.maptask 0 true with
      | inl found =>
          obtain ⟨i, task⟩ := found
          obtain ⟨offset, rfl, hlookup, hassignable⟩ := scan_found hscan
          have hassigned : Assigned c currenttime later _ _ :=
            .map (0 + offset) task hphase (by simpa using hlookup) hassignable
          simpa [assignMission, hphase, hscan] using hassigned
      | inr allFinish =>
          obtain ⟨hnone, hfinish⟩ := scan_none hscan
          have hassigned : Assigned c currenttime later _ _ :=
            .mapWait allFinish hphase hnone (by simpa using hfinish)
          simpa [assignMission, hphase, hscan] using hassigned
  | true =>
      cases hscan : scan currenttime c.reducetask 0 true with
      | inl found =>
          obtain ⟨i, task⟩ := found
          obtain ⟨offset, rfl, hlookup, hassignable⟩ := scan_found hscan
          have hassigned : Assigned c currenttime later _ _ :=
            .reduce (0 + offset) task hphase (by simpa using hlookup) hassignable
          simpa [assignMission, hphase, hscan] using hassigned
      | inr allFinish =>
          obtain ⟨hnone, hfinish⟩ := scan_none hscan
          have hassigned : Assigned c currenttime later _ _ :=
            .reduceWait allFinish hphase hnone (by simpa using hfinish)
          simpa [assignMission, hphase, hscan] using hassigned

/-- A task that is done is not handed out. -/
theorem Task.not_done_of_assignable {task : Task} {currenttime : Nat}
    (h : task.assignable currenttime = true) : task.missionstate ≠ .done := by
  intro hdone
  simp [Task.assignable, hdone] at h

/-- The map phase is never reopened by an assignment. -/
theorem Assigned.maptaskfinish {c c' : Coordinator} {currenttime later : Nat} {reply : TaskReply}
    (h : Assigned c currenttime later c' reply) (hfinish : c.maptaskfinish = true) :
    c'.maptaskfinish = true := by
  cases h with
  | map i task hphase =>
      rw [hphase] at hfinish
      cases hfinish
  | mapWait allFinish hphase =>
      rw [hphase] at hfinish
      cases hfinish
  | reduce i task hphase => exact hfinish
  | reduceWait allFinish hphase => exact hfinish

/-! ## Finish reports -/

/-- Mark the task of a finish report as done if its timestamp is the one of the report. `none` is an
index out of range, which stops the coordinator. -/
def finishTask (tasks : List Task) (args : CallArgs) : Option (List Task) :=
  match tasks[args.task.index]? with
  | some task =>
      some (if args.task.timestamp = task.timestamp then
        tasks.set args.task.index { task with missionstate := .done } else tasks)
  | none => none

/-- The `HandleMapFinish` handler. -/
def handleMapFinish (c : Coordinator) (args : CallArgs) : Option Coordinator :=
  (finishTask c.maptask args).map fun tasks => { c with maptask := tasks }

/-- The `HandleReduceFinish` handler. -/
def handleReduceFinish (c : Coordinator) (args : CallArgs) : Option Coordinator :=
  (finishTask c.reducetask args).map fun tasks => { c with reducetask := tasks }

/-- The reduce task was reported and the report was accepted. -/
def Coordinator.ReduceDone (c : Coordinator) (index : Nat) : Prop :=
  ∃ task, c.reducetask[index]? = some task ∧ task.missionstate = .done

/-- The `Done` method. -/
def Coordinator.done (c : Coordinator) : Bool :=
  c.maptaskfinish && c.reducetaskfinish

/-- A finish report changes nothing, or the state of its task to done. -/
theorem finish_cases {tasks next : List Task} {args : CallArgs}
    (h : finishTask tasks args = some next) :
    next = tasks ∨ ∃ task, tasks[args.task.index]? = some task ∧
      args.task.timestamp = task.timestamp ∧
      next = tasks.set args.task.index { task with missionstate := .done } := by
  unfold finishTask at h
  split at h
  · rename_i task hlookup
    split at h
    · rename_i hstamp
      exact Or.inr ⟨task, hlookup, hstamp, (Option.some.inj h).symm⟩
    · exact Or.inl (Option.some.inj h).symm
  · cases h

/-- Handing out a task does not change which reduce tasks are done. -/
theorem Assigned.reduce_done_iff {c c' : Coordinator} {currenttime later index : Nat}
    {reply : TaskReply} (h : Assigned c currenttime later c' reply) :
    c'.ReduceDone index ↔ c.ReduceDone index := by
  cases h with
  | reduce i task hphase hlookup hassignable =>
      constructor
      · rintro ⟨new, hnew, hstate⟩
        rcases lookup_set hnew with ⟨-, rfl⟩ | ⟨-, hold⟩
        · cases hstate
        · exact ⟨new, hold, hstate⟩
      · rintro ⟨old, hold, hstate⟩
        have hne : i ≠ index := by
          rintro rfl
          obtain rfl := Option.some.inj (hlookup.symm.trans hold)
          exact task.not_done_of_assignable hassignable hstate
        exact ⟨old, by rw [List.getElem?_set_ne hne]; exact hold, hstate⟩
  | map i task hphase hlookup hassignable => exact Iff.rfl
  | mapWait allFinish hphase hnone hfinish => exact Iff.rfl
  | reduceWait allFinish hphase hnone hfinish => exact Iff.rfl

/-- A report of a reduce task can only make that task done. -/
theorem reduce_done_finish {c c' : Coordinator} {args : CallArgs} {index : Nat}
    (h : handleReduceFinish c args = some c') :
    (c.ReduceDone index → c'.ReduceDone index) ∧
      (c'.ReduceDone index → c.ReduceDone index ∨ index = args.task.index) := by
  obtain ⟨tasks, hfinish, rfl⟩ := Option.map_eq_some_iff.mp h
  rcases finish_cases hfinish with rfl | ⟨task, hlookup, -, rfl⟩
  · exact ⟨id, Or.inl⟩
  · constructor
    · rintro ⟨old, hold, hstate⟩
      by_cases heq : args.task.index = index
      · subst heq
        have hlt := (List.getElem?_eq_some_iff.mp hlookup).1
        exact ⟨_, List.getElem?_set_self hlt, rfl⟩
      · exact ⟨old, by rw [List.getElem?_set_ne heq]; exact hold, hstate⟩
    · rintro ⟨new, hnew, hstate⟩
      rcases lookup_set hnew with ⟨heq, -⟩ | ⟨-, hold⟩
      · exact Or.inr heq
      · exact Or.inl ⟨new, hold, hstate⟩

end DistributedLabs.Mr
