import DistributedLabs.Mr.Barrier
import DistributedLabs.Mr.Completion
import Mathlib.Data.Fintype.Basic

/-!
# Published output

`HandleReduce` creates the output file before it renames its temporary file to it. A worker whose
assignment has expired may therefore empty the output file after another worker has finished the
task: `expired_worker_truncates` is such a run. `published_output_final` says that this is the only
way in which a published output is lost: in a run in which a worker creates an output file only
while the task is not done and no report for it is pending, the output file of a task that is done
holds its complete output from then on. In such a run, when `Done` returns true, all output files
are complete (`done_outputs_published`).
-/

namespace DistributedLabs.Mr

/-- The reduce task whose report the worker has sent, if it was not handled yet. -/
def WorkerPc.reportsReduce : WorkerPc → Option Nat
  | .reporting (.reduce args) => some args.task.index
  | .crashed (some (.reduce args)) => some args.task.index
  | _ => none

/-- The output file that the next operation of a worker creates. -/
def WorkerPc.creates : WorkerPc → Option Nat
  | .reduceCreate task _ => some task.index
  | _ => none

/-- A worker creates an output file only while its task is not done and no report of the task is
waiting to be handled. -/
def CreatesUnpublished {W : Type} (σ : System W) : Action W → Prop
  | .work worker => ∀ index ∈ (σ.workers worker).creates,
      ¬ σ.coordinator.ReduceDone index ∧ ∀ other, (σ.workers other).reportsReduce ≠ some index
  | _ => True

namespace Workload

variable {load : Workload}

/-- The pairs that a reduce task reads from the first `count` intermediate files. -/
def reducePairs (load : Workload) (index count : Nat) : List KeyValue :=
  (List.range count).flatMap fun position =>
    decodeAll load.job.toCodec ((load.mapOutput position index).getD [])

/-- The complete output of a reduce task. -/
def reduceOutput (load : Workload) (index : Nat) : GoString :=
  render (reduceRecords load.job (load.reducePairs index load.filename.length))

/-- The output file holds the complete output of its task. -/
def Published (load : Workload) (files : Files) (index : Nat) : Prop :=
  files (outputName index) = some (load.reduceOutput index)

/-- What the position of a worker says about the reduce task that it performs. -/
def ReduceWorker (load : Workload) (c : Coordinator) : WorkerPc → Prop
  | .reduceRead task kva i =>
      c.maptaskfinish = true ∧ task.index < load.nReduce ∧
        task.reducefiles = ((List.range load.filename.length).map fun position =>
          intermediateName position task.index) ∧
        i ≤ load.filename.length ∧ kva = load.reducePairs task.index i
  | .reduceCreate task kva => kva = load.reducePairs task.index load.filename.length
  | .reduceRename task tempfile => tempfile = load.reduceOutput task.index
  | _ => True

/-- One more intermediate file. -/
theorem reduce_pairs_succ (index count : Nat) :
    load.reducePairs index (count + 1) = load.reducePairs index count ++
      decodeAll load.job.toCodec ((load.mapOutput count index).getD []) := by
  simp [reducePairs, List.range_succ]

/-- What a position says about a reduce task needs only that the map phase is over. -/
theorem ReduceWorker.mono {c c' : Coordinator} {pc : WorkerPc} (h : load.ReduceWorker c pc)
    (hfinish : c.maptaskfinish = true → c'.maptaskfinish = true) : load.ReduceWorker c' pc := by
  cases pc with
  | reduceRead task kva i => exact ⟨hfinish h.1, h.2⟩
  | reduceCreate task kva => exact h
  | reduceRename task tempfile => exact h
  | _ => trivial

/-- A step of a worker towards the output of its reduce task. -/
theorem reduce_work {files files' : Files} {c : Coordinator} {pc pc' : WorkerPc}
    (hwork : Worked load.job files pc files' pc') (hpc : load.ReduceWorker c pc)
    (hplace : c.maptaskfinish = true → ∀ index < load.filename.length, ∀ bucket < load.nReduce,
      load.InPlace files index bucket) : load.ReduceWorker c pc' := by
  cases hwork with
  | reduceRead task kva i filename stream hlookup hread =>
      obtain ⟨hfinish, hindex, hnames, -, rfl⟩ := hpc
      rw [hnames] at hlookup
      obtain ⟨hlt, rfl⟩ := List.getElem?_eq_some_iff.mp hlookup
      rw [List.length_map, List.length_range] at hlt
      -- the file is in place, so it holds the whole output of its map task
      obtain ⟨-, hfile⟩ := hplace hfinish i hlt task.index hindex
      rw [List.getElem_map, List.getElem_range, hfile] at hread
      refine ⟨hfinish, hindex, hnames, hlt, ?_⟩
      rw [reduce_pairs_succ, hread, Option.getD_some]
  | reduceEnd task kva i hend =>
      obtain ⟨-, -, hnames, hle, rfl⟩ := hpc
      rw [hnames, List.getElem?_eq_none_iff, List.length_map, List.length_range] at hend
      exact congrArg (load.reducePairs task.index) (Nat.le_antisymm hle hend)
  | reduceCreate task kva => exact congrArg (fun pairs => render (reduceRecords load.job pairs)) hpc
  | mapRead reply content tempfiles hread hwrite => trivial
  | mapFail reply => trivial
  | mapRename task tempfiles i tempfile hlookup => trivial
  | mapEnd task tempfiles i hend => trivial
  | reduceFail task kva i => trivial
  | reduceRename task tempfile => trivial

/-- A step of a worker loses a published output only by creating the output file again. -/
theorem published_work {files files' : Files} {c : Coordinator} {pc pc' : WorkerPc} {index : Nat}
    (hwork : Worked load.job files pc files' pc') (hpc : load.ReduceWorker c pc)
    (hcreates : pc.creates ≠ some index) (h : load.Published files index) :
    load.Published files' index := by
  cases hwork with
  | mapRename task tempfiles i tempfile hlookup =>
      rw [Published, Function.update_of_ne (intermediate_ne_output _ _ _).symm]
      exact h
  | reduceCreate task kva =>
      have hne : outputName index ≠ outputName task.index :=
        fun heq => hcreates (congrArg some (output_name_injective heq).symm)
      rw [Published, Function.update_of_ne hne]
      exact h
  | reduceRename task tempfile =>
      by_cases heq : index = task.index
      · subst heq
        rw [Published, Function.update_self, hpc]
      · rw [Published, Function.update_of_ne fun hname => heq (output_name_injective hname)]
        exact h
  | mapRead reply content tempfiles hread hwrite => exact h
  | mapFail reply => exact h
  | mapEnd task tempfiles i hend => exact h
  | reduceRead task kva i filename stream hlookup hread => exact h
  | reduceFail task kva i => exact h
  | reduceEnd task kva i hend => exact h

/-- A worker that comes to report a reduce task has just published its output. -/
theorem published_report {files files' : Files} {c : Coordinator} {pc pc' : WorkerPc} {index : Nat}
    (hwork : Worked load.job files pc files' pc') (hpc : load.ReduceWorker c pc)
    (hreports : pc'.reportsReduce = some index) : load.Published files' index := by
  cases hwork with
  | reduceRename task tempfile =>
      obtain rfl := Option.some.inj hreports
      rw [Published, finishArgs, Function.update_self, hpc]
  | _ => cases hreports

/-- A worker that was handed a reduce task has read nothing yet. -/
theorem reduce_start {files : Files} {c c' : Coordinator} {currenttime later : Nat}
    {reply : TaskReply} (hkept : load.CoordinatorKept files c)
    (hassign : Assigned c currenttime later c' reply) : load.ReduceWorker c' (startWork reply) := by
  cases hworktype : reply.task.worktype with
  | reduce =>
      obtain ⟨hfinish, hindex, hnames⟩ := hkept.reduce_assigned hassign hworktype
      rw [startWork, hworktype]
      exact ⟨hassign.maptaskfinish hfinish, hindex, hnames, Nat.zero_le _, rfl⟩
  | map =>
      rw [startWork, hworktype]
      trivial
  | waiting =>
      rw [startWork, hworktype]
      trivial

/-- A worker that was handed a task has nothing to report. -/
theorem start_reports_none (reply : TaskReply) : (startWork reply).reportsReduce = none := by
  cases hworktype : reply.task.worktype <;> simp [startWork, hworktype, WorkerPc.reportsReduce]

/-- The report of a worker that stops is still on its way. -/
theorem crash_reports_reduce (pc : WorkerPc) : pc.crash.reportsReduce = pc.reportsReduce := by
  cases pc with
  | reporting report => cases report <;> rfl
  | _ => rfl

section Runs

variable {W : Type} [DecidableEq W] {σ τ : System W} {action : Action W}

/-- The invariant of the reduce phase: the tasks that are done or reported are published. -/
structure ReduceKept (load : Workload) (σ : System W) : Prop where
  workers : ∀ worker, load.ReduceWorker σ.coordinator (σ.workers worker)
  reported : ∀ worker index, (σ.workers worker).reportsReduce = some index →
    load.Published σ.files index
  done : ∀ index, σ.coordinator.ReduceDone index → load.Published σ.files index

/-- A worker moves to a position that reports nothing new, and no task becomes done. -/
theorem ReduceKept.move (h : load.ReduceKept σ) {worker : W} {c : Coordinator} {pc : WorkerPc}
    (hfinish : σ.coordinator.maptaskfinish = true → c.maptaskfinish = true)
    (hpc : load.ReduceWorker c pc)
    (hreports : ∀ index, pc.reportsReduce = some index → load.Published σ.files index)
    (hdone : ∀ index, c.ReduceDone index → load.Published σ.files index) :
    load.ReduceKept ({ σ with coordinator := c }.setWorker worker pc) where
  workers := System.forall_set_worker hpc fun other => (h.workers other).mono hfinish
  reported := System.forall_set_worker
    (motive := fun pc => ∀ index, pc.reportsReduce = some index → load.Published σ.files index)
    hreports h.reported
  done := hdone

/-- A file operation keeps the invariant of the reduce phase, if it creates no published output
file. -/
theorem ReduceKept.work (h : load.ReduceKept σ) (hmap : load.MapKept σ) {worker : W}
    {files : Files} {pc : WorkerPc} (hguard : CreatesUnpublished σ (.work worker))
    (hworked : Worked load.job σ.files (σ.workers worker) files pc) :
    load.ReduceKept ({ σ with files := files }.setWorker worker pc) := by
  have hpc := h.workers worker
  have hplace : σ.coordinator.maptaskfinish = true → ∀ index < load.filename.length,
      ∀ bucket < load.nReduce, load.InPlace σ.files index bucket :=
    fun hfinish index hindex bucket hbucket => hmap.in_place hfinish hindex hbucket
  refine ⟨System.forall_set_worker (reduce_work hworked hpc hplace) h.workers, ?_, ?_⟩
  · refine System.forall_set_worker
      (motive := fun pc => ∀ index, pc.reportsReduce = some index → load.Published files index)
      (fun index => published_report hworked hpc) fun other index hreports => ?_
    refine published_work hworked hpc (fun hcreates => ?_) (h.reported other index hreports)
    exact (hguard index hcreates).2 other hreports
  · intro index hdone
    refine published_work hworked hpc (fun hcreates => ?_) (h.done index hdone)
    exact (hguard index hcreates).1 hdone

/-- Handling a report keeps the invariant of the reduce phase: the task that it makes done is
published already. -/
theorem ReduceKept.report (h : load.ReduceKept σ) {worker : W} {report : Report} {c : Coordinator}
    {pc : WorkerPc}
    (hreport : (σ.workers worker = .reporting report ∧ pc = .idle) ∨
      (σ.workers worker = .crashed (some report) ∧ pc = .crashed none))
    (hdeliver : deliver σ.coordinator report = some c)
    (hfinish : σ.coordinator.maptaskfinish = true → c.maptaskfinish = true) :
    load.ReduceKept ({ σ with coordinator := c }.setWorker worker pc) := by
  have hpc : load.ReduceWorker c pc ∧ pc.reportsReduce = none := by
    rcases hreport with ⟨-, rfl⟩ | ⟨-, rfl⟩
    · exact ⟨trivial, rfl⟩
    · exact ⟨trivial, rfl⟩
  refine h.move hfinish hpc.1 (fun index hsome => by rw [hpc.2] at hsome; cases hsome) ?_
  intro index hdone
  cases report with
  | map args =>
      obtain ⟨tasks, -, rfl⟩ := Option.map_eq_some_iff.mp hdeliver
      exact h.done index hdone
  | reduce args =>
      rcases (reduce_done_finish hdeliver).2 hdone with hold | rfl
      · exact h.done index hold
      · refine h.reported worker args.task.index ?_
        rcases hreport with ⟨hworker, -⟩ | ⟨hworker, -⟩
        · rw [hworker]
          rfl
        · rw [hworker]
          rfl

/-- A step keeps the invariant of the reduce phase, if it creates no published output file. -/
theorem ReduceKept.step (h : load.ReduceKept σ) (hmap : load.MapKept σ)
    (hguard : CreatesUnpublished σ action) (hstep : step load.job σ action = some τ) :
    load.ReduceKept τ := by
  cases step_inversion hstep with
  | assign worker currenttime later hidle =>
      have hassign := assign_mission_cases σ.coordinator currenttime later
      refine h.move hassign.maptaskfinish (reduce_start hmap.coordinator hassign) ?_ ?_
      · intro index hreports
        rw [start_reports_none] at hreports
        cases hreports
      · exact fun index hdone => h.done index (hassign.reduce_done_iff.mp hdone)
  | work worker files pc hwork => exact h.work hmap hguard (work_cases hwork)
  | report worker report c pc hreport hdeliver =>
      exact h.report hreport hdeliver fun hfinish => maptaskfinish_step hfinish hstep
  | crash worker =>
      refine h.move id ?_ ?_ h.done
      · cases σ.workers worker <;> trivial
      · intro index hreports
        rw [crash_reports_reduce] at hreports
        exact h.reported worker index hreports

/-- The invariants of both phases hold along every run that leaves the input files alone and creates
no published output file. -/
theorem phases_kept {actions : List (Action W)}
    (hmeets : (system W load.job (initTasks load.filename load.nReduce) load.input).Meets
      (fun σ action => load.InputsUnchanged σ action ∧ CreatesUnpublished σ action) actions)
    (hrun : (system W load.job (initTasks load.filename load.nReduce) load.input).run actions =
      some σ) : load.MapKept σ ∧ load.ReduceKept σ := by
  have hmap : load.MapKept
      (system W load.job (initTasks load.filename load.nReduce) load.input).init :=
    ⟨coordinator_kept_init, fun _ => trivial⟩
  have hreduce : load.ReduceKept
      (system W load.job (initTasks load.filename load.nReduce) load.input).init := by
    refine ⟨fun _ => trivial, ?_, ?_⟩
    · intro worker index hreports
      cases hreports
    · rintro index ⟨task, hlookup, hdone⟩
      obtain ⟨position, -, rfl⟩ := List.mem_map.mp (List.mem_of_getElem? hlookup)
      cases hdone
  refine Machine.run_induction_of_meets (motive := fun _ σ => load.MapKept σ ∧ load.ReduceKept σ)
    ⟨hmap, hreduce⟩ ?_ hmeets hrun
  intro actions σ action τ _ hkept hguard hstep
  exact ⟨hkept.1.step hguard.1 hstep, hkept.2.step hkept.1 hguard.2 hstep⟩

end Runs

end Workload

/-- A reduce task that is done stays done. -/
theorem reduce_done_step {W : Type} [DecidableEq W] {job : Job} {σ τ : System W}
    {action : Action W} {index : Nat} (h : σ.coordinator.ReduceDone index)
    (hstep : step job σ action = some τ) : τ.coordinator.ReduceDone index := by
  cases step_inversion hstep with
  | assign worker currenttime later hidle =>
      exact (assign_mission_cases σ.coordinator currenttime later).reduce_done_iff.mpr h
  | work worker files pc hwork => exact h
  | report worker report c pc hreport hdeliver =>
      cases report with
      | map args =>
          obtain ⟨tasks, -, rfl⟩ := Option.map_eq_some_iff.mp hdeliver
          exact h
      | reduce args => exact (reduce_done_finish hdeliver).1 h
  | crash worker => exact h

/-- From the moment a reduce task is done, at every later point of the run, the output file holds
the complete output of the task. -/
def PublishedFinal {W : Type} [DecidableEq W] (job : Job) (c : Coordinator) (input : Files)
    (actions : List (Action W)) : Prop :=
  ∀ first second σ τ index, first <+: second → second <+: actions →
    (system W job c input).run first = some σ → (system W job c input).run second = some τ →
    σ.coordinator.ReduceDone index → (c.workload job input).Published τ.files index

/-- In a run in which workers create output files only of tasks that are neither done nor reported,
published output is final. -/
theorem published_output_final {W : Type} [DecidableEq W] (job : Job)
    (glob : GoString → Option (List GoString)) (patterns : List GoString) (nReduce : Nat)
    (c : Coordinator) (input : Files) (actions : List (Action W))
    (hmake : makeCoordinator glob patterns nReduce = some c)
    (hmeets : (system W job c input).Meets (fun σ action =>
      (c.workload job input).InputsUnchanged σ action ∧ CreatesUnpublished σ action) actions) :
    PublishedFinal job c input actions := by
  have hinit := make_coordinator_eq hmake
  generalize c.filename = filename at hinit
  subst hinit
  intro first second σ τ index hfirst hsecond hσ hτ hdone
  have hkept : Workload.ReduceKept ⟨job, filename, nReduce, input⟩ τ :=
    (Workload.phases_kept (hmeets.of_initial hsecond) hτ).2
  obtain ⟨rest, rfl⟩ := hfirst
  have hrest := Machine.run_from_of_append hτ hσ
  exact hkept.done index (Machine.run_from_invariant
    (motive := fun σ : System W => σ.coordinator.ReduceDone index)
    (fun _ _ _ h hstep => reduce_done_step h hstep) hdone hrest)

/-- When `Done` returns true in such a run, every output file holds the complete output of its
task. -/
theorem done_outputs_published {W : Type} [DecidableEq W] {job : Job}
    {glob : GoString → Option (List GoString)} {patterns : List GoString} {nReduce : Nat}
    {c : Coordinator} {input : Files} {actions : List (Action W)} {σ : System W}
    (hmake : makeCoordinator glob patterns nReduce = some c)
    (hmeets : (system W job c input).Meets (fun σ action =>
      (c.workload job input).InputsUnchanged σ action ∧ CreatesUnpublished σ action) actions)
    (hrun : (system W job c input).run actions = some σ) (hdone : σ.coordinator.done = true)
    {index : Nat} (hindex : index < nReduce) : (c.workload job input).Published σ.files index := by
  -- the flags tell the truth, because the calls of the system are calls of the service
  obtain ⟨rpcs, τ, hτ, hsim⟩ := service_simulates hrun
  have hordered := (service_kept hmake hτ).ordered
  have hlength := length_tasks hmake hτ .reduce
  rw [hsim.coordinator] at hordered hlength
  have hreduce : σ.coordinator.ReduceDone index := by
    have hcount : c.reducetask.length = nReduce := by
      rw [make_coordinator_eq hmake]
      simp [initTasks]
    have hlt : index < (σ.coordinator.tasks .reduce).length := by
      rw [hlength]
      exact hcount.symm ▸ hindex
    exact ⟨_, List.getElem?_eq_getElem hlt, hordered.finished .reduce
      (Coordinator.done_iff.mp hdone .reduce) _ (List.getElem_mem hlt)⟩
  have hinit := make_coordinator_eq hmake
  generalize c.filename = filename at hinit
  subst hinit
  have hkept : Workload.ReduceKept ⟨job, filename, nReduce, input⟩ σ :=
    (Workload.phases_kept hmeets hrun).2
  exact hkept.done index hreduce

instance (c : Coordinator) (index : Nat) : Decidable (c.ReduceDone index) :=
  decidable_of_iff ((c.reducetask[index]?).any fun task => task.missionstate = .done) (by
    simp [Coordinator.ReduceDone, Option.any_eq_true])

instance {W : Type} [Fintype W] (σ : System W) : (action : Action W) →
    Decidable (CreatesUnpublished σ action)
  | .work worker => inferInstanceAs (Decidable (∀ index ∈ (σ.workers worker).creates,
      ¬ σ.coordinator.ReduceDone index ∧ ∀ other, (σ.workers other).reportsReduce ≠ some index))
  | .assign _ _ _ => isTrue trivial
  | .report _ => isTrue trivial
  | .crash _ => isTrue trivial

instance : Fintype TwoWorkers where
  elems := {.first, .second}
  complete := by
    intro worker
    cases worker <;> decide

/-- After `oneFile` one worker performs the reduce task. -/
def oneReducer : List (Action TwoWorkers) :=
  oneFile ++ [.assign .second 3 3, .work .second, .work .second, .work .second, .work .second,
    .report .second]

/-- The condition holds along `oneReducer`, at the end of which the reduce task is done. -/
theorem published_output_final_one_reducer :
    PublishedFinal lengthCount (initTasks [ascii ['a']] 1) oneInput oneReducer ∧
      ((system TwoWorkers lengthCount (initTasks [ascii ['a']] 1) oneInput).run oneReducer).any
        (fun σ => σ.coordinator.ReduceDone 0) = true :=
  ⟨published_output_final lengthCount (fun pattern => some [pattern]) [ascii ['a']] 1
    (initTasks [ascii ['a']] 1) oneInput oneReducer rfl (Machine.meets_of_check (by decide)),
    by decide⟩

/-- The first worker reads the input of the reduce task and stalls. More than 40 seconds later the
second is handed the task, performs it and reports it. Then the first goes on and creates the
output file. -/
def expiredReducer : List (Action TwoWorkers) :=
  oneFile ++ [.assign .first 3 3, .work .first, .work .first,
    .assign .second 40000000004 40000000004, .work .second, .work .second, .work .second,
    .work .second, .report .second, .work .first]

/-- After `expiredReducer` the reduce task is done and its output file is empty. -/
theorem expired_worker_truncates :
    ¬ ∀ (W : Type) [DecidableEq W] (job : Job) (glob : GoString → Option (List GoString))
      (patterns : List GoString) (nReduce : Nat) (c : Coordinator) (input : Files)
      (actions : List (Action W)), makeCoordinator glob patterns nReduce = some c →
      (system W job c input).Meets (c.workload job input).InputsUnchanged actions →
      PublishedFinal job c input actions := by
  intro hall
  have hfinal := hall TwoWorkers lengthCount (fun pattern => some [pattern]) [ascii ['a']] 1
    (initTasks [ascii ['a']] 1) oneInput expiredReducer rfl (Machine.meets_of_check (by decide))
  obtain ⟨σ, hσ, hlost⟩ :=
    (system TwoWorkers lengthCount (initTasks [ascii ['a']] 1) oneInput).exists_run_of_check
      expiredReducer (fun σ => σ.coordinator.ReduceDone 0 ∧
        σ.files (outputName 0) ≠ some (((initTasks [ascii ['a']] 1).workload lengthCount
          oneInput).reduceOutput 0)) (by decide)
  exact hlost.2 (hfinal expiredReducer expiredReducer σ σ 0 List.prefix_rfl List.prefix_rfl hσ hσ
    hlost.1)

end DistributedLabs.Mr
