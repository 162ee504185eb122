import DistributedLabs.Mr.Json
import DistributedLabs.Mr.System

/-!
# The barrier between map and reduce

A reduce task is handed out only after every map task was reported done, and a map task is reported
only after all its intermediate files were renamed into place. A worker that is still running an
expired map task renames files with the same contents, because the map function and the input file
are the same; so an intermediate file that is in place stays as it is (`work_keeps`).

`reduce_barrier` says that from the moment a reduce task is handed out, the intermediate files it
names hold exactly the encoded pairs of their buckets.
-/

namespace DistributedLabs.Mr

/-- A job with its input files. -/
structure Workload where
  job : Job
  filename : List GoString
  nReduce : Nat
  input : Files

namespace Workload

variable (load : Workload)

/-- What a map task writes for a bucket, if its input file can be read. -/
def mapOutput (index bucket : Nat) : Option GoString :=
  load.filename[index]?.bind fun name =>
    (load.input name).map fun content =>
      encodedBucket load.job.toCodec load.nReduce (load.job.mapf name content) bucket

/-- The intermediate file is in place, with the output of its map task. -/
def InPlace (files : Files) (index bucket : Nat) : Prop :=
  (load.mapOutput index bucket).isSome ∧
    files (intermediateName index bucket) = load.mapOutput index bucket

/-- All intermediate files of a map task are in place. -/
def MapComplete (files : Files) (index : Nat) : Prop :=
  ∀ bucket < load.nReduce, load.InPlace files index bucket

/-- What the position of a worker says about the intermediate files. -/
def MapWorker (files : Files) : WorkerPc → Prop
  | .mapRead reply =>
      reply.nReduce = load.nReduce ∧ load.filename[reply.task.index]? = some reply.task.mapfile
  | .mapRename task tempfiles i =>
      tempfiles.length = load.nReduce ∧
        (∀ bucket tempfile, tempfiles[bucket]? = some tempfile →
          load.mapOutput task.index bucket = some tempfile) ∧
        ∀ bucket < load.nReduce, bucket < i → load.InPlace files task.index bucket
  | .reporting (.map args) => load.MapComplete files args.task.index
  | .crashed (some (.map args)) => load.MapComplete files args.task.index
  | _ => True

/-- The tasks are those of the job, a map task that is done has its files in place, and the map
phase is over only when all map tasks are done. -/
structure CoordinatorKept (files : Files) (c : Coordinator) : Prop where
  nreduce : c.nreduce = load.nReduce
  maptask : ∀ (index : Nat) (task : Task), c.maptask[index]? = some task →
    task.worktype = .map ∧ task.index = index ∧ load.filename[index]? = some task.mapfile
  maptask_length : c.maptask.length = load.filename.length
  reducetask : ∀ (index : Nat) (task : Task), c.reducetask[index]? = some task →
    task.index = index ∧ index < load.nReduce ∧ task.reducefiles =
      (List.range load.filename.length).map fun position => intermediateName position index
  complete : ∀ (index : Nat) (task : Task), c.maptask[index]? = some task →
    task.missionstate = .done → load.MapComplete files index
  finished : c.maptaskfinish = true → ∀ task ∈ c.maptask, task.missionstate = .done

variable {load} {files files' : Files} {c c' : Coordinator}

/-! ## Files in place stay in place -/

/-- What a worker's position says is kept when files in place stay in place. -/
theorem MapWorker.mono {pc : WorkerPc} (h : load.MapWorker files pc)
    (hkept : ∀ index bucket, load.InPlace files index bucket →
      load.InPlace files' index bucket) :
    load.MapWorker files' pc := by
  cases pc with
  | mapRename task tempfiles i =>
      exact ⟨h.1, h.2.1, fun bucket hlt hbefore => hkept _ _ (h.2.2 bucket hlt hbefore)⟩
  | reporting report =>
      cases report with
      | map args => exact fun bucket hlt => hkept _ _ (h bucket hlt)
      | reduce args => trivial
  | crashed report =>
      cases report with
      | none => trivial
      | some report =>
          cases report with
          | map args => exact fun bucket hlt => hkept _ _ (h bucket hlt)
          | reduce args => trivial
  | mapRead reply => exact h
  | idle => trivial
  | reduceRead task kva i => trivial
  | reduceCreate task kva => trivial
  | reduceRename task tempfile => trivial

/-- A report says the same whether or not its worker has stopped. -/
theorem map_worker_crashed {report : Report} :
    load.MapWorker files (.crashed (some report)) ↔ load.MapWorker files (.reporting report) := by
  cases report with
  | map args => exact Iff.rfl
  | reduce args => exact Iff.rfl

/-- A worker that stops leaves nothing behind but its report. -/
theorem MapWorker.crash {pc : WorkerPc} (h : load.MapWorker files pc) :
    load.MapWorker files pc.crash := by
  cases pc with
  | reporting report => exact map_worker_crashed.mpr h
  | crashed report => exact h
  | _ => trivial

/-- What is known of the coordinator is kept when files in place stay in place. -/
theorem CoordinatorKept.mono (h : load.CoordinatorKept files c)
    (hkept : ∀ index bucket, load.InPlace files index bucket →
      load.InPlace files' index bucket) :
    load.CoordinatorKept files' c :=
  { h with
    complete := fun index task hlookup hdone bucket hlt =>
      hkept index bucket (h.complete index task hlookup hdone bucket hlt) }

/-- Writing an output file leaves the intermediate files alone. -/
theorem InPlace.update_output {index bucket output : Nat} {text : Option GoString}
    (h : load.InPlace files index bucket) :
    load.InPlace (Function.update files (outputName output) text) index
      bucket := by
  refine ⟨h.1, ?_⟩
  rw [Function.update_of_ne (intermediate_ne_output index bucket output)]
  exact h.2

/-- Renaming a file with the right contents puts it in place. -/
theorem in_place_update {index bucket : Nat} {text : GoString}
    (htext : load.mapOutput index bucket = some text) :
    load.InPlace
      (Function.update files (intermediateName index bucket) (some text)) index bucket := by
  rw [InPlace, htext, Function.update_self]
  exact ⟨rfl, rfl⟩

/-- Renaming a file with the right contents keeps the other files in place. -/
theorem InPlace.update_intermediate {index bucket index' bucket' : Nat} {text : GoString}
    (h : load.InPlace files index bucket)
    (htext : load.mapOutput index' bucket' = some text) :
    load.InPlace
      (Function.update files (intermediateName index' bucket') (some text)) index bucket := by
  by_cases heq : intermediateName index bucket = intermediateName index' bucket'
  · obtain ⟨rfl, rfl⟩ := intermediate_name_inj heq
    exact in_place_update htext
  · refine ⟨h.1, ?_⟩
    rw [Function.update_of_ne heq]
    exact h.2

/-- A step of a worker keeps the files in place and what its position says about them. -/
theorem work_keeps {pc pc' : WorkerPc} (hwork : Worked load.job files pc files' pc')
    (hinput : ∀ name ∈ load.filename, files name = load.input name)
    (hpc : load.MapWorker files pc) :
    (∀ index bucket, load.InPlace files index bucket →
      load.InPlace files' index bucket) ∧
    load.MapWorker files' pc' := by
  cases hwork with
  | mapRead reply content tempfiles hread hwrite =>
      obtain ⟨hcount, hmapfile⟩ := hpc
      rw [hcount] at hwrite
      rw [hinput _ (List.mem_of_getElem? hmapfile)] at hread
      have htempfiles := write_buckets_replicate hwrite
      subst htempfiles
      refine ⟨fun _ _ => id, by simp, ?_, fun _ _ hlt => absurd hlt (Nat.not_lt_zero _)⟩
      intro bucket tempfile hlookup
      obtain ⟨hlt, rfl⟩ := List.getElem?_eq_some_iff.mp hlookup
      simp [mapOutput, hmapfile, hread]
  | mapFail reply => exact ⟨fun _ _ => id, trivial⟩
  | mapRename task tempfiles i tempfile hlookup =>
      obtain ⟨hlength, houtput, hplaced⟩ := hpc
      have htext := houtput i tempfile hlookup
      refine ⟨fun _ _ hplace => hplace.update_intermediate htext, hlength, houtput, ?_⟩
      intro bucket hlt hbefore
      rcases Nat.lt_succ_iff_lt_or_eq.mp hbefore with hold | rfl
      · exact (hplaced bucket hlt hold).update_intermediate htext
      · exact in_place_update htext
  | mapEnd task tempfiles i hend =>
      obtain ⟨hlength, -, hplaced⟩ := hpc
      have hall : tempfiles.length ≤ i := List.getElem?_eq_none_iff.mp hend
      exact ⟨fun _ _ => id, fun bucket hlt => hplaced bucket hlt (by omega)⟩
  | reduceRead task kva i filename stream hlookup hread => exact ⟨fun _ _ => id, trivial⟩
  | reduceFail task kva i => exact ⟨fun _ _ => id, trivial⟩
  | reduceEnd task kva i hend => exact ⟨fun _ _ => id, trivial⟩
  | reduceCreate task kva => exact ⟨fun _ _ hplace => hplace.update_output, trivial⟩
  | reduceRename task tempfile => exact ⟨fun _ _ hplace => hplace.update_output, trivial⟩

/-! ## The coordinator -/

/-- Handing out a task keeps what is known of the coordinator, and starts a worker on it. -/
theorem CoordinatorKept.assign {currenttime later : Nat} {reply : TaskReply}
    (h : load.CoordinatorKept files c) (hassign : Assigned c currenttime later c' reply) :
    load.CoordinatorKept files c' ∧ load.MapWorker files (startWork reply) := by
  cases hassign with
  | map i task hphase hlookup hassignable =>
      obtain ⟨hworktype, hindex, hmapfile⟩ := h.maptask i task hlookup
      refine ⟨{ h with maptask := ?_, maptask_length := ?_, complete := ?_, finished := ?_ }, ?_⟩
      · intro index other hother
        rcases lookup_set hother with ⟨rfl, rfl⟩ | ⟨-, hold⟩
        · exact ⟨hworktype, hindex, hmapfile⟩
        · exact h.maptask index other hold
      · rw [List.length_set]
        exact h.maptask_length
      · intro index other hother hdone
        rcases lookup_set hother with ⟨rfl, rfl⟩ | ⟨-, hold⟩
        · cases hdone
        · exact h.complete index other hold hdone
      · intro hfinish
        rw [hphase] at hfinish
        cases hfinish
      · have hstart : startWork ⟨task.startMap currenttime, c.nreduce⟩ =
            .mapRead ⟨task.startMap currenttime, c.nreduce⟩ := by
          simp [startWork, Task.startMap, hworktype]
        rw [hstart]
        exact ⟨h.nreduce, hindex ▸ hmapfile⟩
  | mapWait allFinish hphase hnone hfinish => exact ⟨{ h with finished := hfinish.mp }, trivial⟩
  | reduce i task hphase hlookup hassignable =>
      refine ⟨{ h with reducetask := ?_ }, trivial⟩
      intro index other hother
      rcases lookup_set hother with ⟨rfl, rfl⟩ | ⟨-, hold⟩
      · exact h.reducetask index task hlookup
      · exact h.reducetask index other hold
  | reduceWait allFinish hphase hnone hfinish => exact ⟨{ h with }, trivial⟩

/-- A report of a map task whose files are in place keeps what is known of the coordinator. -/
theorem CoordinatorKept.deliver {report : Report} (h : load.CoordinatorKept files c)
    (hreport : load.MapWorker files (.reporting report)) (hdeliver : deliver c report = some c') :
    load.CoordinatorKept files c' := by
  cases report with
  | map args =>
      obtain ⟨tasks, hfinish, rfl⟩ := Option.map_eq_some_iff.mp hdeliver
      rcases finish_cases hfinish with rfl | ⟨task, hlookup, -, rfl⟩
      · exact h
      · refine { h with maptask := ?_, maptask_length := ?_, complete := ?_, finished := ?_ }
        · intro index other hother
          rcases lookup_set hother with ⟨rfl, rfl⟩ | ⟨-, hold⟩
          · exact h.maptask _ task hlookup
          · exact h.maptask index other hold
        · rw [List.length_set]
          exact h.maptask_length
        · intro index other hother hdone
          rcases lookup_set hother with ⟨rfl, rfl⟩ | ⟨-, hold⟩
          · exact hreport
          · exact h.complete index other hold hdone
        · intro hphase other hother
          rcases List.mem_or_eq_of_mem_set hother with hold | rfl
          · exact h.finished hphase other hold
          · rfl
  | reduce args =>
      obtain ⟨tasks, hfinish, rfl⟩ := Option.map_eq_some_iff.mp hdeliver
      rcases finish_cases hfinish with rfl | ⟨task, hlookup, -, rfl⟩
      · exact h
      · refine { h with reducetask := ?_ }
        intro index other hother
        rcases lookup_set hother with ⟨rfl, rfl⟩ | ⟨-, hold⟩
        · exact h.reducetask _ task hlookup
        · exact h.reducetask index other hold

/-- The tasks at the start. -/
theorem coordinator_kept_init :
    load.CoordinatorKept load.input (initTasks load.filename load.nReduce) where
  nreduce := rfl
  maptask := by
    intro index task hlookup
    simp only [initTasks, List.getElem?_mapIdx, Option.map_eq_some_iff] at hlookup
    obtain ⟨name, hname, rfl⟩ := hlookup
    exact ⟨rfl, rfl, hname⟩
  maptask_length := by simp [initTasks]
  reducetask := by
    intro index task hlookup
    simp only [initTasks, List.getElem?_map, Option.map_eq_some_iff] at hlookup
    obtain ⟨position, hposition, rfl⟩ := hlookup
    obtain ⟨hlt, rfl⟩ := List.getElem?_eq_some_iff.mp hposition
    simpa using hlt
  complete := by
    intro index task hlookup hdone
    simp only [initTasks, List.getElem?_mapIdx, Option.map_eq_some_iff] at hlookup
    obtain ⟨name, hname, rfl⟩ := hlookup
    cases hdone
  finished := by
    intro hfinish
    cases hfinish

/-! ## Runs -/

section Runs

variable {W : Type} [DecidableEq W] {σ τ : System W} {action : Action W}

/-- The invariant of the map phase. -/
structure MapKept (load : Workload) (σ : System W) : Prop where
  coordinator : load.CoordinatorKept σ.files σ.coordinator
  workers : ∀ worker, load.MapWorker σ.files (σ.workers worker)

/-- The input files are as they were at the start. -/
def InputsUnchanged (load : Workload) (σ : System W) (_ : Action W) : Prop :=
  ∀ name ∈ load.filename, σ.files name = load.input name

instance (σ : System W) (action : Action W) : Decidable (load.InputsUnchanged σ action) :=
  inferInstanceAs (Decidable (∀ name ∈ load.filename, _ = _))

/-- A step keeps the invariant of the map phase. -/
theorem MapKept.step (h : load.MapKept σ) (hinput : load.InputsUnchanged σ action)
    (hstep : step load.job σ action = some τ) : load.MapKept τ := by
  cases step_inversion hstep with
  | assign worker currenttime later hidle =>
      obtain ⟨hcoordinator, hstart⟩ := h.coordinator.assign
        (assign_mission_cases σ.coordinator currenttime later)
      exact ⟨hcoordinator, System.forall_set_worker hstart h.workers⟩
  | work worker files pc hwork =>
      obtain ⟨hkept, hpc⟩ := work_keeps (work_cases hwork) hinput (h.workers worker)
      exact ⟨h.coordinator.mono hkept,
        System.forall_set_worker hpc fun other => (h.workers other).mono hkept⟩
  | report worker report c pc hreport hdeliver =>
      have hworker := h.workers worker
      rcases hreport with ⟨hreport, rfl⟩ | ⟨hreport, rfl⟩
      · rw [hreport] at hworker
        exact ⟨h.coordinator.deliver hworker hdeliver, System.forall_set_worker trivial h.workers⟩
      · rw [hreport, map_worker_crashed] at hworker
        exact ⟨h.coordinator.deliver hworker hdeliver, System.forall_set_worker trivial h.workers⟩
  | crash worker =>
      exact ⟨h.coordinator, System.forall_set_worker (h.workers worker).crash h.workers⟩

/-- The invariant of the map phase holds along every run that leaves the input files alone. -/
theorem map_kept {actions : List (Action W)}
    (hinputs : (system W load.job (initTasks load.filename load.nReduce) load.input).Meets
      load.InputsUnchanged actions)
    (hrun : (system W load.job (initTasks load.filename load.nReduce) load.input).run actions =
      some σ) : load.MapKept σ := by
  have hinit : load.MapKept
      (system W load.job (initTasks load.filename load.nReduce) load.input).init :=
    ⟨coordinator_kept_init, fun _ => trivial⟩
  refine Machine.run_induction_of_meets (motive := fun _ σ => load.MapKept σ) hinit ?_ hinputs hrun
  intro actions σ action τ _ hkept hinput hstep
  exact hkept.step hinput hstep

omit [DecidableEq W] in
/-- When the map phase is over, every intermediate file is in place. -/
theorem MapKept.in_place (h : load.MapKept σ) (hfinish : σ.coordinator.maptaskfinish = true)
    {index bucket : Nat} (hindex : index < load.filename.length) (hbucket : bucket < load.nReduce) :
    load.InPlace σ.files index bucket := by
  rw [← h.coordinator.maptask_length] at hindex
  have hlookup := List.getElem?_eq_getElem hindex
  exact h.coordinator.complete index _ hlookup
    (h.coordinator.finished hfinish _ (List.mem_of_getElem? hlookup)) bucket hbucket

/-- A reduce task is handed out only when the map phase is over, and it is a task of the job. -/
theorem CoordinatorKept.reduce_assigned {currenttime later : Nat} {reply : TaskReply}
    (h : load.CoordinatorKept files c) (hassign : Assigned c currenttime later c' reply)
    (hreduce : reply.task.worktype = .reduce) :
    c.maptaskfinish = true ∧ reply.task.index < load.nReduce ∧ reply.task.reducefiles =
      (List.range load.filename.length).map fun position =>
        intermediateName position reply.task.index := by
  cases hassign with
  | map i task hphase hlookup hassignable =>
      have hworktype : (task.startMap currenttime).worktype = .map := (h.maptask i task hlookup).1
      rw [hworktype] at hreduce
      cases hreduce
  | mapWait allFinish hphase hnone hfinish => cases hreduce
  | reduce i task hphase hlookup hassignable =>
      obtain ⟨rfl, hlt, hnames⟩ := h.reducetask i task hlookup
      exact ⟨hphase, hlt, hnames⟩
  | reduceWait allFinish hphase hnone hfinish => cases hreduce

/-- A file in place holds the encoded pairs of the input file. -/
theorem InPlace.encoded {index bucket : Nat} {name : GoString}
    (h : load.InPlace files index bucket) (hname : load.filename[index]? = some name) :
    ∃ content, load.input name = some content ∧ files (intermediateName index bucket) =
      some (encodedBucket load.job.toCodec load.nReduce (load.job.mapf name content) bucket) := by
  obtain ⟨hsome, hfile⟩ := h
  simp only [mapOutput, hname, Option.bind_some, Option.isSome_map] at hsome hfile
  obtain ⟨content, hcontent⟩ := Option.isSome_iff_exists.mp hsome
  rw [hcontent] at hfile
  exact ⟨content, hcontent, hfile⟩

end Runs

end Workload

/-- The map phase is never reopened. -/
theorem maptaskfinish_step {W : Type} [DecidableEq W] {job : Job} {σ τ : System W}
    {action : Action W} (h : σ.coordinator.maptaskfinish = true)
    (hstep : step job σ action = some τ) : τ.coordinator.maptaskfinish = true := by
  cases step_inversion hstep with
  | assign worker currenttime later hidle =>
      exact (assign_mission_cases σ.coordinator currenttime later).maptaskfinish h
  | work worker files pc hwork => exact h
  | report worker report c pc hreport hdeliver =>
      cases report with
      | map args =>
          obtain ⟨tasks, -, rfl⟩ := Option.map_eq_some_iff.mp hdeliver
          exact h
      | reduce args =>
          obtain ⟨tasks, -, rfl⟩ := Option.map_eq_some_iff.mp hdeliver
          exact h
  | crash worker => exact h

/-- The job of a coordinator with its input files. -/
def Coordinator.workload (c : Coordinator) (job : Job) (input : Files) : Workload where
  job := job
  filename := c.filename
  nReduce := c.nreduce
  input := input

/-- The reduce task names one intermediate file for each input file, and that file holds the encoded
pairs of the task's bucket, in the order in which the map function emitted them. -/
def IntermediateComplete (job : Job) (c : Coordinator) (input : Files) (task : Task)
    (files : Files) : Prop :=
  task.index < c.nreduce ∧ task.reducefiles.length = c.filename.length ∧
    ∀ (index : Nat) (name : GoString), c.filename[index]? = some name → ∃ content intermediate,
      input name = some content ∧ task.reducefiles[index]? = some intermediate ∧
      files intermediate =
        some (((job.mapf name content).filter fun kv =>
          ihash kv.key % c.nreduce = task.index).flatMap job.encode)

/-- When a reduce task is handed out, every map task is done, and from then on the intermediate
files of the reduce task are complete. -/
theorem reduce_barrier {W : Type} [DecidableEq W] (job : Job)
    (glob : GoString → Option (List GoString)) (patterns : List GoString) (nReduce : Nat)
    (c : Coordinator) (input : Files) (before after : List (Action W)) (worker : W)
    (currenttime later : Nat) (σ τ : System W)
    (hmake : makeCoordinator glob patterns nReduce = some c)
    (hinputs : (system W job c input).Meets (c.workload job input).InputsUnchanged
      (before ++ .assign worker currenttime later :: after))
    (hbefore : (system W job c input).run before = some σ)
    (hreduce : (assignMission σ.coordinator currenttime later).2.task.worktype = .reduce)
    (hafter : (system W job c input).run (before ++ .assign worker currenttime later :: after) =
      some τ) :
    (∀ task ∈ σ.coordinator.maptask, task.missionstate = .done) ∧
      IntermediateComplete job c input (assignMission σ.coordinator currenttime later).2.task
        τ.files := by
  have hinit := make_coordinator_eq hmake
  generalize c.filename = filename at hinit
  subst hinit
  have hσ : Workload.MapKept ⟨job, filename, nReduce, input⟩ σ :=
    Workload.map_kept (hinputs.of_initial ⟨_, rfl⟩) hbefore
  have hτ : Workload.MapKept ⟨job, filename, nReduce, input⟩ τ := Workload.map_kept hinputs hafter
  obtain ⟨hphase, hindex, hnames⟩ := hσ.coordinator.reduce_assigned
    (assign_mission_cases σ.coordinator currenttime later) hreduce
  -- the map phase is still over in the later state, so the files are still in place there
  have hrest := Machine.run_from_of_append hafter hbefore
  have hfinish : τ.coordinator.maptaskfinish = true :=
    Machine.run_from_invariant (motive := fun σ : System W => σ.coordinator.maptaskfinish = true)
      (fun _ _ _ h hstep => maptaskfinish_step h hstep) hphase hrest
  refine ⟨hσ.coordinator.finished hphase, hindex, by rw [hnames]; simp [initTasks], ?_⟩
  intro index name hname
  have hlt : index < filename.length := (List.getElem?_eq_some_iff.mp hname).1
  obtain ⟨content, hcontent, hfile⟩ := (hτ.in_place hfinish hlt hindex).encoded hname
  refine ⟨content, _, hcontent, ?_, hfile⟩
  rw [hnames]
  simp [hlt]

/-- Two workers. -/
inductive TwoWorkers where
  | first
  | second
  deriving DecidableEq

/-- One worker maps the only input file, and the next call of `AssignMission` ends the map phase. -/
def oneFile : List (Action TwoWorkers) :=
  [.assign .first 1 1, .work .first, .work .first, .work .first, .report .first,
    .assign .second 2 2]

/-- The directory with the input file of `oneFile`. -/
def oneInput : Files :=
  Function.update (fun _ => none) (ascii ['a']) (some (ascii ['x']))

/-- After `oneFile` a worker is handed the reduce task, and reads its file. -/
theorem reduce_barrier_one_file :
    ∃ σ τ, (system TwoWorkers lengthCount (initTasks [ascii ['a']] 1) oneInput).run oneFile =
        some σ ∧
      (system TwoWorkers lengthCount (initTasks [ascii ['a']] 1) oneInput).run
        (oneFile ++ [.assign .second 3 3, .work .second]) = some τ ∧
      IntermediateComplete lengthCount (initTasks [ascii ['a']] 1) oneInput
        (assignMission σ.coordinator 3 3).2.task τ.files := by
  obtain ⟨σ, hσ, hreduce⟩ :=
    (system TwoWorkers lengthCount (initTasks [ascii ['a']] 1) oneInput).exists_run_of_check oneFile
      (fun σ => (assignMission σ.coordinator 3 3).2.task.worktype = .reduce) (by decide)
  obtain ⟨τ, hτ⟩ := Option.isSome_iff_exists.mp
    (show ((system TwoWorkers lengthCount (initTasks [ascii ['a']] 1) oneInput).run
      (oneFile ++ [.assign .second 3 3, .work .second])).isSome = true by decide)
  exact ⟨σ, τ, hσ, hτ, (reduce_barrier lengthCount (fun pattern => some [pattern]) [ascii ['a']] 1
    (initTasks [ascii ['a']] 1) oneInput oneFile [.work .second] .second 3 3 σ τ rfl
    (Machine.meets_of_check (by decide)) hσ hreduce hτ).2⟩

end DistributedLabs.Mr
