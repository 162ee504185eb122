import DistributedLabs.Mr.Dataflow
import DistributedLabs.Mr.Published

/-!
# The output of a finished job

The workers run concurrently, stop at any point, and tasks are handed out again after a timeout.
`finished_eq_sequential` says what is in the output files when `Done` returns true: the records that
`main/mrsequential.go` writes for the same input, each in the file of its key's hash. The condition
is that timeouts are accurate for reduce tasks, `AccurateTimeout`: a reduce task is handed out only
when no worker is still performing it or has a report of it on its way. Map tasks may be handed out
again while they are still performed.

Under this condition at most one worker has a reduce task, `OneReducer`, so that no worker creates
an output file that is already published.
-/

namespace DistributedLabs.Mr

/-- The reduce task that a worker is performing or has reported. -/
def WorkerPc.reduces : WorkerPc → Option Nat
  | .reduceRead task _ _ => some task.index
  | .reduceCreate task _ => some task.index
  | .reduceRename task _ => some task.index
  | .reporting (.reduce args) => some args.task.index
  | .crashed (some (.reduce args)) => some args.task.index
  | _ => none

/-- A reduce task is handed out only when no worker has it. -/
def AccurateTimeout {W : Type} (σ : System W) : Action W → Prop
  | .assign _ currenttime later =>
      ∀ index ∈ (startWork (assignMission σ.coordinator currenttime later).2).reduces,
        ∀ other, (σ.workers other).reduces ≠ some index
  | _ => True

instance {W : Type} [Fintype W] (σ : System W) : (action : Action W) →
    Decidable (AccurateTimeout σ action)
  | .assign _ currenttime later => inferInstanceAs (Decidable
      (∀ index ∈ (startWork (assignMission σ.coordinator currenttime later).2).reduces,
        ∀ other, (σ.workers other).reduces ≠ some index))
  | .work _ => isTrue trivial
  | .report _ => isTrue trivial
  | .crash _ => isTrue trivial

/-- No input file has the name of a file that the job writes. -/
def InputsSeparate (c : Coordinator) : Prop :=
  (∀ name ∈ c.filename, ∀ index < c.filename.length, ∀ bucket < c.nreduce,
      name ≠ intermediateName index bucket) ∧
    ∀ name ∈ c.filename, ∀ index, name ≠ outputName index

/-! ## One worker for each reduce task -/

section Reducers

variable {job : Job} {files files' : Files} {pc pc' : WorkerPc} {index : Nat}

/-- A file operation does not change the reduce task of a worker. -/
theorem Worked.reduces (h : Worked job files pc files' pc') (hpc : pc'.reduces = some index) :
    pc.reduces = some index := by
  cases h with
  | reduceRead | reduceEnd | reduceCreate | reduceRename => exact hpc
  | mapRead | mapFail | mapRename | mapEnd | reduceFail => cases hpc

/-- A worker that stops has at most a report. -/
theorem WorkerPc.reduces_of_crash (h : pc.crash.reduces = some index) :
    pc.reduces = some index := by
  cases pc with
  | reporting report => cases report <;> exact h
  | crashed report => exact h
  | _ => cases h

/-- A worker that is about to create an output file performs its reduce task. -/
theorem WorkerPc.reduces_of_creates (h : pc.creates = some index) : pc.reduces = some index := by
  cases pc with
  | reduceCreate task kva => exact h
  | _ => cases h

/-- A worker that has reported a reduce task has it. -/
theorem WorkerPc.reduces_of_reports (h : pc.reportsReduce = some index) :
    pc.reduces = some index ∧ pc.creates = none := by
  cases pc with
  | reporting report =>
      cases report with
      | map args => cases h
      | reduce args => exact ⟨h, rfl⟩
  | crashed report =>
      cases report with
      | none => cases h
      | some report =>
          cases report with
          | map args => cases h
          | reduce args => exact ⟨h, rfl⟩
  | _ => cases h

variable {W : Type} {σ τ : System W} {action : Action W}

/-- At most one worker has a reduce task, and none has a task that is done. -/
structure OneReducer (σ : System W) : Prop where
  unique : ∀ first second index, (σ.workers first).reduces = some index →
    (σ.workers second).reduces = some index → first = second
  undone : ∀ worker index, (σ.workers worker).reduces = some index →
    ¬ σ.coordinator.ReduceDone index

/-- Then no worker creates an output file that is published. -/
theorem OneReducer.creates_unpublished (h : OneReducer σ) : CreatesUnpublished σ action := by
  cases action with
  | work worker =>
      intro index hcreates
      have hreduces := WorkerPc.reduces_of_creates hcreates
      refine ⟨h.undone worker index hreduces, fun other hreports => ?_⟩
      obtain ⟨hother, hnone⟩ := WorkerPc.reduces_of_reports hreports
      obtain rfl := h.unique other worker index hother hreduces
      rw [show (σ.workers other).creates = some index from hcreates] at hnone
      cases hnone
  | assign | report | crash => trivial

variable [DecidableEq W]

/-- A worker moves to a position in which it has a reduce task only if it had it before. -/
theorem OneReducer.move (h : OneReducer σ) {worker : W} {c : Coordinator}
    (hpc : ∀ index, pc.reduces = some index → (σ.workers worker).reduces = some index)
    (hdone : ∀ other index, ((σ.setWorker worker pc).workers other).reduces = some index →
      c.ReduceDone index → σ.coordinator.ReduceDone index) :
    OneReducer ({ σ with coordinator := c, files := files }.setWorker worker pc) := by
  have hbefore : ∀ other index, ((σ.setWorker worker pc).workers other).reduces = some index →
      (σ.workers other).reduces = some index := by
    intro other index hother
    by_cases heq : other = worker
    · subst heq
      rw [System.set_worker_self] at hother
      exact hpc index hother
    · rwa [System.set_worker_of_ne _ _ heq] at hother
  refine ⟨fun first second index hfirst hsecond => ?_, fun other index hother hafter => ?_⟩
  · exact h.unique first second index (hbefore first index hfirst) (hbefore second index hsecond)
  · exact h.undone other index (hbefore other index hother) (hdone other index hother hafter)

/-- An accurate timeout gives a reduce task to one worker. -/
theorem OneReducer.assign {load : Workload} (h : OneReducer σ)
    (hkept : load.CoordinatorKept σ.files σ.coordinator) {worker : W} {currenttime later : Nat}
    (hguard : AccurateTimeout σ (.assign worker currenttime later)) :
    OneReducer ({ σ with
      coordinator := (assignMission σ.coordinator currenttime later).1 }.setWorker worker
        (startWork (assignMission σ.coordinator currenttime later).2)) := by
  have hassign := assign_mission_cases σ.coordinator currenttime later
  have hnew : ∀ index,
      (startWork (assignMission σ.coordinator currenttime later).2).reduces = some index →
        ¬ (assignMission σ.coordinator currenttime later).1.ReduceDone index := by
    intro index hindex hdone
    generalize assignMission σ.coordinator currenttime later = result at hassign hindex hdone
    obtain ⟨c', reply⟩ := result
    have hold := hassign.reduce_done_iff.mp hdone
    cases hassign with
    | map i task hphase hlookup hassignable =>
        have hworktype : (task.startMap currenttime).worktype = .map :=
          (hkept.maptask i task hlookup).1
        simp [startWork, hworktype, WorkerPc.reduces] at hindex
    | mapWait | reduceWait => cases hindex
    | reduce i task hphase hlookup hassignable =>
        obtain ⟨hi, -, -⟩ := hkept.reducetask i task hlookup
        have hindex : task.index = index := Option.some.inj hindex
        obtain ⟨other, hother, hstate⟩ := hold
        rw [← hindex, hi, hlookup] at hother
        cases hother
        exact task.not_done_of_assignable hassignable hstate
  refine ⟨?_, ?_⟩
  · intro first second index hfirst hsecond
    by_cases heq : first = worker
    · subst heq
      rw [System.set_worker_self] at hfirst
      by_cases heq' : second = first
      · exact heq'.symm
      · rw [System.set_worker_of_ne _ _ heq'] at hsecond
        exact absurd hsecond (hguard index hfirst second)
    · rw [System.set_worker_of_ne _ _ heq] at hfirst
      by_cases heq' : second = worker
      · subst heq'
        rw [System.set_worker_self] at hsecond
        exact absurd hfirst (hguard index hsecond first)
      · rw [System.set_worker_of_ne _ _ heq'] at hsecond
        exact h.unique first second index hfirst hsecond
  · refine System.forall_set_worker (motive := fun pc => ∀ index, pc.reduces = some index →
      ¬ (assignMission σ.coordinator currenttime later).1.ReduceDone index) hnew ?_
    intro other index hother hdone
    exact h.undone other index hother (hassign.reduce_done_iff.mp hdone)

/-- When a report is handled, its worker no longer has the task, and no other worker has it. -/
theorem OneReducer.report (h : OneReducer σ) {worker : W} {report : Report} {c : Coordinator}
    (hreport : (σ.workers worker = .reporting report ∧ pc = .idle) ∨
      (σ.workers worker = .crashed (some report) ∧ pc = .crashed none))
    (hdeliver : deliver σ.coordinator report = some c) :
    OneReducer ({ σ with coordinator := c }.setWorker worker pc) := by
  have hnone : pc.reduces = none := by
    rcases hreport with ⟨-, rfl⟩ | ⟨-, rfl⟩
    · rfl
    · rfl
  refine h.move (fun index hindex => by rw [hnone] at hindex; cases hindex) ?_
  intro other index hother hdone
  cases report with
  | map args =>
      obtain ⟨tasks, -, rfl⟩ := Option.map_eq_some_iff.mp hdeliver
      exact hdone
  | reduce args =>
      rcases (reduce_done_finish hdeliver).2 hdone with hold | rfl
      · exact hold
      · have hworker : (σ.workers worker).reduces = some args.task.index := by
          rcases hreport with ⟨hpc, -⟩ | ⟨hpc, -⟩
          · rw [hpc]
            rfl
          · rw [hpc]
            rfl
        -- the only worker with this task is the one that has just given it up
        by_cases heq : other = worker
        · subst heq
          rw [System.set_worker_self, hnone] at hother
          cases hother
        · rw [System.set_worker_of_ne _ _ heq] at hother
          exact absurd (h.unique other worker _ hother hworker) heq

/-- A step with an accurate timeout keeps one worker for each reduce task. -/
theorem OneReducer.step {load : Workload} (h : OneReducer σ)
    (hkept : load.CoordinatorKept σ.files σ.coordinator) (hguard : AccurateTimeout σ action)
    (hstep : Mr.step load.job σ action = some τ) : OneReducer τ := by
  cases step_inversion hstep with
  | assign worker currenttime later hidle => exact h.assign hkept hguard
  | work worker files pc hwork =>
      exact h.move (fun index hindex => (work_cases hwork).reduces hindex)
        fun other index _ hdone => hdone
  | report worker report c pc hreport hdeliver => exact h.report hreport hdeliver
  | crash worker =>
      exact h.move (fun index hindex => WorkerPc.reduces_of_crash hindex)
        fun other index _ hdone => hdone

end Reducers

/-! ## Runs with accurate timeouts -/

section Runs

variable {W : Type} {load : Workload} {σ τ : System W} {action : Action W}

/-- A file operation of a job leaves its input files alone. -/
theorem input_of_work {files files' : Files} {pc pc' : WorkerPc} {name : GoString}
    (hwork : Worked load.job files pc files' pc') (hpc : load.MapWorker files pc)
    (hintermediate : ∀ index < load.filename.length, ∀ bucket < load.nReduce,
      name ≠ intermediateName index bucket)
    (houtput : ∀ index, name ≠ outputName index) : files' name = files name := by
  cases hwork with
  | mapRename task tempfiles i tempfile hlookup =>
      obtain ⟨hlength, hwritten, -⟩ := hpc
      have hi : i < load.nReduce := hlength ▸ (List.getElem?_eq_some_iff.mp hlookup).1
      obtain ⟨position, hposition, -⟩ := Option.bind_eq_some_iff.mp (hwritten i tempfile hlookup)
      have hindex := (List.getElem?_eq_some_iff.mp hposition).1
      exact Function.update_of_ne (hintermediate task.index hindex i hi) _ _
  | reduceCreate task kva => exact Function.update_of_ne (houtput task.index) _ _
  | reduceRename task tempfile => exact Function.update_of_ne (houtput task.index) _ _
  | mapRead | mapFail | mapEnd | reduceRead | reduceFail | reduceEnd => rfl

variable [DecidableEq W]

/-- A step of a job leaves its input files alone. -/
theorem inputs_unchanged_step (hmap : load.MapKept σ)
    (hseparate : InputsSeparate (initTasks load.filename load.nReduce))
    (hinputs : ∀ name ∈ load.filename, σ.files name = load.input name)
    (hstep : step load.job σ action = some τ) :
    ∀ name ∈ load.filename, τ.files name = load.input name := by
  intro name hname
  rw [← hinputs name hname]
  cases step_inversion hstep with
  | assign worker currenttime later hidle => rfl
  | work worker files pc hwork =>
      exact input_of_work (work_cases hwork) (hmap.workers worker) (hseparate.1 name hname)
        (hseparate.2 name hname)
  | report worker report c pc hreport hdeliver => rfl
  | crash worker => rfl

/-- What a run with accurate timeouts keeps. -/
theorem kept_of_accurate {actions : List (Action W)}
    (hseparate : InputsSeparate (initTasks load.filename load.nReduce))
    (hmeets : (system W load.job (initTasks load.filename load.nReduce) load.input).Meets
      AccurateTimeout actions)
    (hrun : (system W load.job (initTasks load.filename load.nReduce) load.input).run actions =
      some σ) :
    load.MapKept σ ∧ (∀ name ∈ load.filename, σ.files name = load.input name) ∧ OneReducer σ := by
  have hinit : load.MapKept
      (system W load.job (initTasks load.filename load.nReduce) load.input).init :=
    ⟨Workload.coordinator_kept_init, fun _ => trivial⟩
  refine Machine.run_induction_of_meets (motive := fun _ (σ : System W) => load.MapKept σ ∧
    (∀ name ∈ load.filename, σ.files name = load.input name) ∧ OneReducer σ)
    ⟨hinit, fun _ _ => rfl, ⟨?_, ?_⟩⟩ ?_ hmeets hrun
  · intro first second index hfirst
    cases hfirst
  · intro worker index hworker
    cases hworker
  · intro actions σ action τ _ ih hguard hstep
    obtain ⟨hmap, hinputs, hone⟩ := ih
    exact ⟨hmap.step hinputs hstep, inputs_unchanged_step hmap hseparate hinputs hstep,
      hone.step hmap.coordinator hguard hstep⟩

variable (load) in
/-- A run with accurate timeouts leaves the input files alone and creates no published output
file. -/
theorem meets_of_accurate {actions : List (Action W)}
    (hseparate : InputsSeparate (initTasks load.filename load.nReduce))
    (hmeets : (system W load.job (initTasks load.filename load.nReduce) load.input).Meets
      AccurateTimeout actions) :
    (system W load.job (initTasks load.filename load.nReduce) load.input).Meets
      (fun σ action => load.InputsUnchanged σ action ∧ CreatesUnpublished σ action) actions := by
  intro before action after σ heq hrun
  obtain ⟨-, hinputs, hone⟩ := kept_of_accurate hseparate (hmeets.of_initial ⟨_, heq.symm⟩) hrun
  exact ⟨hinputs, hone.creates_unpublished⟩

end Runs

/-! ## The records in the output files -/

/-- A reduce task reads the pairs of its bucket from all input files. -/
theorem Workload.reduce_pairs_eq (load : Workload) {content : GoString → GoString} (index : Nat)
    (hread : ∀ name ∈ load.filename, load.input name = some (content name))
    (hjson : ∀ name ∈ load.filename, ∀ kv ∈ load.job.mapf name (content name),
      load.job.RoundTrips kv) :
    load.reducePairs index load.filename.length = bucketOf load.nReduce
      (load.filename.flatMap fun name => load.job.mapf name (content name)) index := by
  have hfiles : ((List.range load.filename.length).map fun position =>
      decodeAll load.job.toCodec ((load.mapOutput position index).getD [])) =
        load.filename.map fun name =>
          bucketOf load.nReduce (load.job.mapf name (content name)) index := by
    refine List.ext_getElem (by simp) fun position hposition _ => ?_
    have hlt : position < load.filename.length := by simpa using hposition
    have hmem : load.filename[position] ∈ load.filename := List.getElem_mem hlt
    have houtput : load.mapOutput position index = some (encodedBucket load.job.toCodec load.nReduce
        (load.job.mapf load.filename[position] (content load.filename[position])) index) := by
      rw [mapOutput, List.getElem?_eq_getElem hlt, Option.bind_some, hread _ hmem]
      rfl
    rw [List.getElem_map, List.getElem_map, List.getElem_range, houtput, Option.getD_some]
    exact decode_all_encoded fun kv hkv => hjson _ hmem kv (List.mem_filter.mp hkv).1
  calc load.reducePairs index load.filename.length
      = (load.filename.map fun name =>
          bucketOf load.nReduce (load.job.mapf name (content name)) index).flatten := by
        rw [← hfiles, reducePairs, List.flatMap_def]
    _ = _ := by rw [bucketOf, List.filter_flatMap, List.flatMap_def]; rfl

/-- When the map phase is over, every input file could be read. -/
theorem Workload.MapKept.input_read {W : Type} {load : Workload} {σ : System W}
    (h : load.MapKept σ) (hpos : 0 < load.nReduce) (hfinish : σ.coordinator.maptaskfinish = true)
    {name : GoString} (hname : name ∈ load.filename) :
    load.input name = some ((load.input name).getD []) := by
  obtain ⟨index, hindex⟩ := List.getElem?_of_mem hname
  have hlt := (List.getElem?_eq_some_iff.mp hindex).1
  obtain ⟨content, hcontent, -⟩ := (h.in_place hfinish hlt hpos).encoded hindex
  rw [hcontent]
  rfl

/-- The output file of every reduce task holds the records of its bucket, which are those of the
sequential program for the keys with this hash. -/
def OutputsSequential (job : Job) (c : Coordinator) (input files : Files) : Prop :=
  ∃ (outputs : Nat → List Record) (sequential : List Record),
    sequentialRecords job c.filename input = some sequential ∧
    (∀ index < c.nreduce, files (outputName index) = some (render (outputs index))) ∧
    ((List.range c.nreduce).flatMap outputs).Perm sequential ∧
    ∀ index, ∀ record ∈ outputs index, ihash record.key % c.nreduce = index

/-- When `Done` returns true, the input files were read and every output file has the records of its
bucket of all pairs. -/
theorem finished_files {W : Type} [DecidableEq W] {job : Job}
    {glob : GoString → Option (List GoString)} {patterns : List GoString} {nReduce : Nat}
    {c : Coordinator} {input : Files} {actions : List (Action W)} {σ : System W}
    (hmake : makeCoordinator glob patterns nReduce = some c) (hpos : 1 ≤ nReduce)
    (hseparate : InputsSeparate c)
    (hjson : ∀ name ∈ c.filename, ∀ content, input name = some content →
      ∀ kv ∈ job.mapf name content, job.RoundTrips kv)
    (htimeouts : (system W job c input).Meets AccurateTimeout actions)
    (hrun : (system W job c input).run actions = some σ) (hdone : σ.coordinator.done = true) :
    (∀ name ∈ c.filename, input name = some ((input name).getD [])) ∧
      ∀ index < nReduce, σ.files (outputName index) = some (render (reduceRecords job
        (bucketOf nReduce
          (c.filename.flatMap fun name => job.mapf name ((input name).getD [])) index))) := by
  have hinit := make_coordinator_eq hmake
  have hpublished : ∀ index < nReduce, (c.workload job input).Published σ.files index := by
    intro index hindex
    refine done_outputs_published hmake ?_ hrun hdone hindex
    rw [hinit] at hseparate htimeouts ⊢
    exact meets_of_accurate ⟨job, c.filename, nReduce, input⟩ hseparate htimeouts
  have hnreduce : c.nreduce = nReduce := by rw [hinit]; rfl
  have hfinish : σ.coordinator.maptaskfinish = true := (Bool.and_eq_true_iff.mp hdone).1
  have hread : ∀ name ∈ c.filename, input name = some ((input name).getD []) := by
    intro name hname
    have hmap : Workload.MapKept ⟨job, c.filename, nReduce, input⟩ σ := by
      rw [hinit] at hseparate htimeouts hrun
      have hmeets := meets_of_accurate ⟨job, c.filename, nReduce, input⟩ hseparate
        htimeouts
      exact (Workload.phases_kept hmeets hrun).1
    exact hmap.input_read hpos hfinish hname
  refine ⟨hread, fun index hindex => ?_⟩
  have hpairs := Workload.reduce_pairs_eq (c.workload job input) index hread
    fun name hname => hjson name hname _ (hread name hname)
  have hfile := hpublished index hindex
  rw [Workload.Published, Workload.reduceOutput, hpairs] at hfile
  rw [hfile, ← hnreduce]
  rfl

/-- The output files have, in the file of its hash, one record for each key of the pairs, with the
result for all its values; the keys of a file increase. -/
def OutputsExact (reducef : GoString → List GoString → GoString) (pairs : List KeyValue)
    (nReduce : Nat) (files : Files) : Prop :=
  ∀ index < nReduce, ∃ records : List Record, files (outputName index) = some (render records) ∧
    records.Pairwise (fun first second => first.key < second.key) ∧
    ∀ record, record ∈ records ↔ ihash record.key % nReduce = index ∧
      (∃ kv ∈ pairs, kv.key = record.key) ∧ record.output = reducef record.key
        ((pairs.filter fun kv => kv.key = record.key).map KeyValue.value)

/-- Output files that have the records of the buckets are exact. -/
theorem outputs_exact {job : Job} (hreducef : OrderIndependent job.reducef) {nReduce : Nat}
    {pairs : List KeyValue} {files : Files}
    (hfiles : ∀ index < nReduce, files (outputName index) =
      some (render (reduceRecords job (bucketOf nReduce pairs index)))) :
    OutputsExact job.reducef pairs nReduce files := by
  intro index hindex
  refine ⟨_, hfiles index hindex, reduce_records_increasing _, fun record => ?_⟩
  rw [← mem_reduce_records_iff hreducef]
  constructor
  · intro hrecord
    have hbucket := record_bucket hreducef hrecord
    subst hbucket
    exact ⟨rfl, (mem_bucket_records_iff hreducef).mp hrecord⟩
  · rintro ⟨rfl, hrecord⟩
    exact (mem_bucket_records_iff hreducef).mpr hrecord

/-- When `Done` returns true in a run with accurate timeouts, whatever the interleaving and however
many workers have stopped, the output files hold the records of the sequential program. -/
theorem finished_eq_sequential {W : Type} [DecidableEq W] (job : Job)
    (glob : GoString → Option (List GoString)) (patterns : List GoString) (nReduce : Nat)
    (c : Coordinator) (input : Files) (actions : List (Action W)) (σ : System W)
    (hmake : makeCoordinator glob patterns nReduce = some c) (hpos : 1 ≤ nReduce)
    (hseparate : InputsSeparate c)
    (hjson : ∀ name ∈ c.filename, ∀ content, input name = some content →
      ∀ kv ∈ job.mapf name content, job.RoundTrips kv)
    (hreducef : OrderIndependent job.reducef)
    (htimeouts : (system W job c input).Meets AccurateTimeout actions)
    (hrun : (system W job c input).run actions = some σ) (hdone : σ.coordinator.done = true) :
    OutputsSequential job c input σ.files := by
  obtain ⟨hread, hfiles⟩ := finished_files hmake hpos hseparate hjson htimeouts hrun hdone
  have hnreduce : c.nreduce = nReduce := by rw [make_coordinator_eq hmake]; rfl
  subst hnreduce
  refine ⟨_, _, ?_, hfiles, bucket_records_perm hreducef hpos _,
    fun index record => record_bucket hreducef⟩
  rw [sequentialRecords, map_files_eq hread, List.nil_append, Option.map_some]

/-- The first worker stops in the middle of the reduce task. More than 40 seconds later the second
is handed the task, performs it and reports it, and then asks for more. -/
def crashedReducer : List (Action TwoWorkers) :=
  oneFile ++ [.assign .first 3 3, .work .first, .work .first, .work .first, .crash .first,
    .assign .second 40000000004 40000000004, .work .second, .work .second, .work .second,
    .work .second, .report .second, .assign .second 40000000005 40000000005]

/-- The file `a` is not one that a job writes. -/
theorem inputs_separate_one : InputsSeparate (initTasks [ascii ['a']] 1) := by
  refine ⟨by decide, ?_⟩
  intro name hname index heq
  obtain rfl := List.mem_singleton.mp hname
  cases heq

/-- The job is done at the end of `crashedReducer`, and its output is that of the sequential
program. -/
theorem finished_eq_sequential_crashed :
    ∃ σ, (system TwoWorkers lengthCount (initTasks [ascii ['a']] 1) oneInput).run crashedReducer =
        some σ ∧ σ.coordinator.done = true ∧
      OutputsSequential lengthCount (initTasks [ascii ['a']] 1) oneInput σ.files := by
  obtain ⟨σ, hrun, hdone⟩ :=
    (system TwoWorkers lengthCount (initTasks [ascii ['a']] 1) oneInput).exists_run_of_check
      crashedReducer (fun σ => σ.coordinator.done = true) (by decide)
  exact ⟨σ, hrun, hdone, finished_eq_sequential lengthCount (fun pattern => some [pattern])
    [ascii ['a']] 1 (initTasks [ascii ['a']] 1) oneInput crashedReducer σ rfl (by decide)
    inputs_separate_one
    (fun name _ content _ => length_count_round_trips name content) length_count_order_independent
    (Machine.meets_of_check (by decide)) hrun hdone⟩

end DistributedLabs.Mr
