import DistributedLabs.Library.Machine
import DistributedLabs.Mr.Reduce

/-!
# A coordinator and its workers

The coordinator with any number of workers that share the working directory, in small steps. A
worker asks for a task, performs it one file operation at a time, and reports; between any two
operations other workers may run, and a worker may stop for good. An expired worker is not told
that its task was handed out again, so it goes on.

Renaming replaces a file at once, and an open file is not affected by it; so opening and reading a
file is one step, and so is writing a temporary file, which nobody else sees. A report that was
sent is handled at most once, possibly after its worker has stopped.

`step_inversion` lists the steps of the system and `work_cases` those of a worker. The small steps
of a worker that is not interrupted add up to `handleMap` and `handleReduce` (`run_handle_map`,
`run_handle_reduce`).
-/

namespace DistributedLabs.Mr

/-- A call of `HandleMapFinish` or `HandleReduceFinish`. -/
inductive Report where
  | map (args : CallArgs)
  | reduce (args : CallArgs)

/-- Where a worker stands. -/
inductive WorkerPc where
  | idle
  /-- About to read the input file of a map task. -/
  | mapRead (reply : TaskReply)
  /-- About to rename temporary file `i` of a map task. -/
  | mapRename (task : Task) (tempfiles : List GoString) (i : Nat)
  /-- About to read intermediate file `i` of a reduce task, with the pairs read so far. -/
  | reduceRead (task : Task) (kva : List KeyValue) (i : Nat)
  /-- About to create the output file of a reduce task. -/
  | reduceCreate (task : Task) (kva : List KeyValue)
  /-- About to rename the temporary file of a reduce task to the output file. -/
  | reduceRename (task : Task) (tempfile : GoString)
  /-- Waiting for the coordinator to handle the report. -/
  | reporting (report : Report)
  /-- Stopped, perhaps after it sent a report. -/
  | crashed (report : Option Report)

/-- The arguments of the report for a task. -/
def finishArgs (task : Task) : CallArgs where
  task := { index := task.index, timestamp := task.timestamp }

/-- What a worker does with the reply of `AssignMission`. -/
def startWork (reply : TaskReply) : WorkerPc :=
  match reply.task.worktype with
  | .waiting => .idle
  | .map => .mapRead reply
  | .reduce => .reduceRead reply.task [] 0

/-- The next file operation of `HandleMap` or `HandleReduce`. -/
def work (job : Job) (files : Files) : WorkerPc → Option (Files × WorkerPc)
  | .mapRead reply =>
      match files reply.task.mapfile with
      | some content =>
          match writeBuckets job.toCodec reply.nReduce (List.replicate reply.nReduce [])
            (job.mapf reply.task.mapfile content) with
          | some tempfiles => some (files, .mapRename reply.task tempfiles 0)
          | none => some (files, .crashed none)
      | none => some (files, .crashed none)
  | .mapRename task tempfiles i =>
      match tempfiles[i]? with
      | some tempfile =>
          some (Function.update files (intermediateName task.index i) (some tempfile),
            .mapRename task tempfiles (i + 1))
      | none => some (files, .reporting (.map (finishArgs task)))
  | .reduceRead task kva i =>
      match task.reducefiles[i]? with
      | some filename =>
          match files filename with
          | some stream =>
              some (files, .reduceRead task (kva ++ decodeAll job.toCodec stream) (i + 1))
          | none => some (files, .crashed none)
      | none => some (files, .reduceCreate task kva)
  | .reduceCreate task kva =>
      -- `os.Create` truncates a file that exists; the records go to a temporary file
      some (Function.update files (outputName task.index) (some []),
        .reduceRename task (render (reduceRecords job kva)))
  | .reduceRename task tempfile =>
      some (Function.update files (outputName task.index) (some tempfile),
        .reporting (.reduce (finishArgs task)))
  | _ => none

/-- The file operations of a worker with their conditions. -/
inductive Worked (job : Job) (files : Files) : WorkerPc → Files → WorkerPc → Prop where
  | mapRead (reply : TaskReply) (content : GoString) (tempfiles : List GoString)
      (hread : files reply.task.mapfile = some content)
      (hwrite : writeBuckets job.toCodec reply.nReduce (List.replicate reply.nReduce [])
        (job.mapf reply.task.mapfile content) = some tempfiles) :
      Worked job files (.mapRead reply) files (.mapRename reply.task tempfiles 0)
  | mapFail (reply : TaskReply) : Worked job files (.mapRead reply) files (.crashed none)
  | mapRename (task : Task) (tempfiles : List GoString) (i : Nat) (tempfile : GoString)
      (hlookup : tempfiles[i]? = some tempfile) :
      Worked job files (.mapRename task tempfiles i)
        (Function.update files (intermediateName task.index i) (some tempfile))
        (.mapRename task tempfiles (i + 1))
  | mapEnd (task : Task) (tempfiles : List GoString) (i : Nat) (hend : tempfiles[i]? = none) :
      Worked job files (.mapRename task tempfiles i) files (.reporting (.map (finishArgs task)))
  | reduceRead (task : Task) (kva : List KeyValue) (i : Nat) (filename stream : GoString)
      (hlookup : task.reducefiles[i]? = some filename) (hread : files filename = some stream) :
      Worked job files (.reduceRead task kva i) files
        (.reduceRead task (kva ++ decodeAll job.toCodec stream) (i + 1))
  | reduceFail (task : Task) (kva : List KeyValue) (i : Nat) :
      Worked job files (.reduceRead task kva i) files (.crashed none)
  | reduceEnd (task : Task) (kva : List KeyValue) (i : Nat)
      (hend : task.reducefiles[i]? = none) :
      Worked job files (.reduceRead task kva i) files (.reduceCreate task kva)
  | reduceCreate (task : Task) (kva : List KeyValue) :
      Worked job files (.reduceCreate task kva)
        (Function.update files (outputName task.index) (some []))
        (.reduceRename task (render (reduceRecords job kva)))
  | reduceRename (task : Task) (tempfile : GoString) :
      Worked job files (.reduceRename task tempfile)
        (Function.update files (outputName task.index) (some tempfile))
        (.reporting (.reduce (finishArgs task)))

/-- Every step of a worker is one of these operations. -/
theorem work_cases {job : Job} {files files' : Files} {pc pc' : WorkerPc}
    (h : work job files pc = some (files', pc')) : Worked job files pc files' pc' := by
  cases pc with
  | mapRead reply =>
      simp only [work] at h
      split at h
      · rename_i content hread
        split at h
        · rename_i tempfiles hwrite
          cases h
          exact .mapRead reply content tempfiles hread hwrite
        · cases h
          exact .mapFail reply
      · cases h
        exact .mapFail reply
  | mapRename task tempfiles i =>
      simp only [work] at h
      split at h
      · rename_i tempfile hlookup
        cases h
        exact .mapRename task tempfiles i tempfile hlookup
      · cases h
        exact .mapEnd task tempfiles i ‹_›
  | reduceRead task kva i =>
      simp only [work] at h
      split at h
      · rename_i filename hlookup
        split at h
        · rename_i stream hread
          cases h
          exact .reduceRead task kva i filename stream hlookup hread
        · cases h
          exact .reduceFail task kva i
      · cases h
        exact .reduceEnd task kva i ‹_›
  | reduceCreate task kva =>
      cases h
      exact .reduceCreate task kva
  | reduceRename task tempfile =>
      cases h
      exact .reduceRename task tempfile
  | idle => cases h
  | reporting report => cases h
  | crashed report => cases h

/-- The coordinator after a report; `none` if the report stops it. -/
def deliver (c : Coordinator) : Report → Option Coordinator
  | .map args => handleMapFinish c args
  | .reduce args => handleReduceFinish c args

/-- What is left of a worker that stops. -/
def WorkerPc.crash : WorkerPc → WorkerPc
  | .reporting report => .crashed (some report)
  | .crashed report => .crashed report
  | _ => .crashed none

/-- The coordinator, the shared files and the workers. -/
structure System (W : Type) where
  coordinator : Coordinator
  files : Files
  workers : W → WorkerPc

/-- The steps of the system. `currenttime` and `later` are the clock readings of `AssignMission`. -/
inductive Action (W : Type) where
  | assign (worker : W) (currenttime later : Nat)
  | work (worker : W)
  | report (worker : W)
  | crash (worker : W)

section Steps

variable {W : Type} [DecidableEq W]

/-- Move one worker. -/
def System.setWorker (σ : System W) (worker : W) (pc : WorkerPc) : System W :=
  { σ with workers := Function.update σ.workers worker pc }

/-- The moved worker is where it was moved to. -/
@[simp] theorem System.set_worker_self (σ : System W) (worker : W) (pc : WorkerPc) :
    (σ.setWorker worker pc).workers worker = pc :=
  Function.update_self _ _ _

/-- The other workers do not move. -/
theorem System.set_worker_of_ne (σ : System W) {worker other : W} (pc : WorkerPc)
    (hne : other ≠ worker) : (σ.setWorker worker pc).workers other = σ.workers other :=
  Function.update_of_ne hne _ _

/-- A property of all workers, after one of them moved. -/
theorem System.forall_set_worker {σ : System W} {worker : W} {pc : WorkerPc}
    {motive : WorkerPc → Prop} (hworker : motive pc) (hothers : ∀ other, motive (σ.workers other)) :
    ∀ other, motive ((σ.setWorker worker pc).workers other) := by
  intro other
  by_cases heq : other = worker
  · subst heq
    rw [System.set_worker_self]
    exact hworker
  · rw [System.set_worker_of_ne _ _ heq]
    exact hothers other

/-- One step of the system. -/
def step (job : Job) (σ : System W) : Action W → Option (System W)
  | .assign worker currenttime later =>
      match σ.workers worker with
      | .idle =>
          some ({ σ with
              coordinator := (assignMission σ.coordinator currenttime later).1 }.setWorker
            worker (startWork (assignMission σ.coordinator currenttime later).2))
      | _ => none
  | .work worker =>
      (work job σ.files (σ.workers worker)).map fun next =>
        { σ with files := next.1 }.setWorker worker next.2
  | .report worker =>
      match σ.workers worker with
      | .reporting report =>
          (deliver σ.coordinator report).map fun c =>
            { σ with coordinator := c }.setWorker worker .idle
      -- the report was sent before the worker stopped
      | .crashed (some report) =>
          (deliver σ.coordinator report).map fun c =>
            { σ with coordinator := c }.setWorker worker (.crashed none)
      | _ => none
  | .crash worker => some (σ.setWorker worker (σ.workers worker).crash)

variable (W) in
/-- The coordinator `c` with idle workers and the files of `input`. -/
def system (job : Job) (c : Coordinator) (input : Files) : Machine (System W) (Action W) where
  init := { coordinator := c, files := input, workers := fun _ => .idle }
  step := step job

/-- The steps of the system with their conditions. -/
inductive Transition (job : Job) (σ : System W) : Action W → System W → Prop where
  | assign (worker : W) (currenttime later : Nat) (hidle : σ.workers worker = .idle) :
      Transition job σ (.assign worker currenttime later)
        ({ σ with coordinator := (assignMission σ.coordinator currenttime later).1 }.setWorker
          worker (startWork (assignMission σ.coordinator currenttime later).2))
  | work (worker : W) (files : Files) (pc : WorkerPc)
      (hwork : work job σ.files (σ.workers worker) = some (files, pc)) :
      Transition job σ (.work worker) ({ σ with files := files }.setWorker worker pc)
  | report (worker : W) (report : Report) (c : Coordinator) (pc : WorkerPc)
      (hreport : (σ.workers worker = .reporting report ∧ pc = .idle) ∨
        (σ.workers worker = .crashed (some report) ∧ pc = .crashed none))
      (hdeliver : deliver σ.coordinator report = some c) :
      Transition job σ (.report worker) ({ σ with coordinator := c }.setWorker worker pc)
  | crash (worker : W) :
      Transition job σ (.crash worker) (σ.setWorker worker (σ.workers worker).crash)

/-- Every step of the system is a transition. -/
theorem step_inversion {job : Job} {σ τ : System W} {action : Action W}
    (h : step job σ action = some τ) : Transition job σ action τ := by
  cases action with
  | assign worker currenttime later =>
      simp only [step] at h
      split at h
      · cases h
        exact .assign worker currenttime later ‹_›
      · cases h
  | work worker =>
      obtain ⟨⟨files, pc⟩, hwork, rfl⟩ := Option.map_eq_some_iff.mp h
      exact .work worker files pc hwork
  | report worker =>
      simp only [step] at h
      split at h
      · rename_i report hreport
        obtain ⟨c, hdeliver, rfl⟩ := Option.map_eq_some_iff.mp h
        exact .report worker report c _ (Or.inl ⟨hreport, rfl⟩) hdeliver
      · rename_i report hreport
        obtain ⟨c, hdeliver, rfl⟩ := Option.map_eq_some_iff.mp h
        exact .report worker report c _ (Or.inr ⟨hreport, rfl⟩) hdeliver
      · cases h
  | crash worker =>
      cases h
      exact .crash worker

end Steps

/-! ## A worker that runs alone -/

section Alone

variable {W : Type} [DecidableEq W] {job : Job} {c : Coordinator} {input : Files} {σ : System W}
  {worker : W}

/-- A file operation replaces the files and moves the worker. -/
theorem step_work_of_eq {files files' : Files} {pc pc' : WorkerPc}
    (h : work job files pc = some (files', pc')) :
    step job ({ σ with files := files }.setWorker worker pc) (.work worker) =
      some ({ σ with files := files' }.setWorker worker pc') := by
  have hself : ({ σ with files := files }.setWorker worker pc).workers worker = pc :=
    System.set_worker_self _ _ _
  rw [step, hself]
  simp only [System.setWorker, h, Option.map_some, Function.update_idem]

/-- The first of several file operations. -/
theorem run_work_succ {files files' : Files} {pc pc' : WorkerPc} (count : Nat)
    (h : work job files pc = some (files', pc')) :
    (system W job c input).runFrom ({ σ with files := files }.setWorker worker pc)
        (List.replicate (count + 1) (.work worker)) =
      (system W job c input).runFrom ({ σ with files := files' }.setWorker worker pc')
        (List.replicate count (.work worker)) := by
  rw [List.replicate_succ, Machine.runFrom]
  exact congrArg (fun next => Option.bind next _) (step_work_of_eq h)

/-- A worker is where it is. -/
theorem System.set_worker_eq_self {pc : WorkerPc} (h : σ.workers worker = pc) :
    σ.setWorker worker pc = σ := by
  rw [System.setWorker, ← h, Function.update_eq_self]

/-- The loop that renames the buckets, from bucket `i` on, and the report after it. -/
theorem run_rename_buckets {task : Task} {tempfiles rest : List GoString} {files : Files} {i : Nat}
    (hrest : tempfiles.drop i = rest) :
    (system W job c input).runFrom
        ({ σ with files := files }.setWorker worker (.mapRename task tempfiles i))
        (List.replicate (rest.length + 1) (.work worker)) =
      some ({ σ with files := renameBuckets task.index files i rest }.setWorker worker
        (.reporting (.map (finishArgs task)))) := by
  induction rest generalizing files i with
  | nil =>
      have hend : tempfiles[i]? = none :=
        List.getElem?_eq_none_iff.mpr (List.drop_eq_nil_iff.mp hrest)
      have hwork : work job files (.mapRename task tempfiles i) =
          some (files, .reporting (.map (finishArgs task))) := by
        rw [work, hend]
      exact run_work_succ 0 hwork
  | cons tempfile rest ih =>
      have hlookup : tempfiles[i]? = some tempfile := by
        rw [← List.head?_drop, hrest]
        rfl
      have hnext : tempfiles.drop (i + 1) = rest := by
        rw [← List.tail_drop, hrest]
        rfl
      have hwork : work job files (.mapRename task tempfiles i) =
          some (Function.update files (intermediateName task.index i) (some tempfile),
            .mapRename task tempfiles (i + 1)) := by
        rw [work, hlookup]
      rw [List.length_cons, run_work_succ _ hwork]
      exact ih hnext

/-- A worker that performs a map task alone does what `handleMap` does, and then reports. -/
theorem run_handle_map {reply : TaskReply} {files : Files} (hpc : σ.workers worker = .mapRead reply)
    (h : handleMap job reply σ.files = some files) :
    (system W job c input).runFrom σ (List.replicate (reply.nReduce + 2) (.work worker)) =
      some ({ σ with files := files }.setWorker worker
        (.reporting (.map (finishArgs reply.task)))) := by
  unfold handleMap at h
  split at h
  · cases h
  · rename_i content hread
    obtain ⟨tempfiles, hwrite, rfl⟩ := Option.map_eq_some_iff.mp h
    have hlength : tempfiles.length = reply.nReduce := by
      rw [(write_buckets_spec hwrite).1, List.length_replicate]
    have hwork : work job σ.files (.mapRead reply) =
        some (σ.files, .mapRename reply.task tempfiles 0) := by
      simp only [work, hread, hwrite]
    calc (system W job c input).runFrom σ (List.replicate (reply.nReduce + 2) (.work worker))
      _ = (system W job c input).runFrom (σ.setWorker worker (.mapRead reply))
          (List.replicate (tempfiles.length + 2) (.work worker)) := by
        rw [System.set_worker_eq_self hpc, hlength]
      _ = (system W job c input).runFrom (σ.setWorker worker (.mapRename reply.task tempfiles 0))
          (List.replicate (tempfiles.length + 1) (.work worker)) := run_work_succ _ hwork
      _ = _ := run_rename_buckets List.drop_zero

/-- The loop that reads the intermediate files, from file `i` on. -/
theorem run_read_intermediate {task : Task} {names : List GoString} {kva result : List KeyValue}
    {i : Nat} (count : Nat) (hnames : task.reducefiles.drop i = names)
    (h : readIntermediate job.toCodec σ.files names kva = some result) :
    (system W job c input).runFrom (σ.setWorker worker (.reduceRead task kva i))
        (List.replicate (names.length + 1 + count) (.work worker)) =
      (system W job c input).runFrom (σ.setWorker worker (.reduceCreate task result))
        (List.replicate count (.work worker)) := by
  induction names generalizing kva i with
  | nil =>
      obtain rfl := Option.some.inj h
      have hend : task.reducefiles[i]? = none :=
        List.getElem?_eq_none_iff.mpr (List.drop_eq_nil_iff.mp hnames)
      have hwork : work job σ.files (.reduceRead task kva i) =
          some (σ.files, .reduceCreate task kva) := by
        rw [work, hend]
      rw [List.length_nil, Nat.zero_add, Nat.add_comm]
      exact run_work_succ count hwork
  | cons name names ih =>
      have hlookup : task.reducefiles[i]? = some name := by
        rw [← List.head?_drop, hnames]
        rfl
      have hnext : task.reducefiles.drop (i + 1) = names := by
        rw [← List.tail_drop, hnames]
        rfl
      rw [readIntermediate] at h
      split at h
      · rename_i stream hread
        have hwork : work job σ.files (.reduceRead task kva i) =
            some (σ.files, .reduceRead task (kva ++ decodeAll job.toCodec stream) (i + 1)) := by
          simp only [work, hlookup, hread]
        rw [List.length_cons, Nat.add_right_comm]
        exact (run_work_succ _ hwork).trans (ih hnext h)
      · cases h

/-- A worker that performs a reduce task alone does what `handleReduce` does, and then reports. -/
theorem run_handle_reduce {reply : TaskReply} {files : Files}
    (hpc : σ.workers worker = .reduceRead reply.task [] 0)
    (h : handleReduce job reply σ.files = some files) :
    (system W job c input).runFrom σ
        (List.replicate (reply.task.reducefiles.length + 3) (.work worker)) =
      some ({ σ with files := files }.setWorker worker
        (.reporting (.reduce (finishArgs reply.task)))) := by
  obtain ⟨records, hrecords, rfl⟩ := Option.map_eq_some_iff.mp h
  obtain ⟨kva, hread, rfl⟩ := Option.map_eq_some_iff.mp hrecords
  calc (system W job c input).runFrom σ
        (List.replicate (reply.task.reducefiles.length + 3) (.work worker))
    _ = (system W job c input).runFrom (σ.setWorker worker (.reduceRead reply.task [] 0))
        (List.replicate (reply.task.reducefiles.length + 1 + 2) (.work worker)) := by
      rw [System.set_worker_eq_self hpc]
    _ = (system W job c input).runFrom (σ.setWorker worker (.reduceCreate reply.task kva))
        (List.replicate 2 (.work worker)) := run_read_intermediate 2 List.drop_zero hread
    _ = _ := (run_work_succ 1 rfl).trans (run_work_succ 0 rfl)

end Alone

end DistributedLabs.Mr
