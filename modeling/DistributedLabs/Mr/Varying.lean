import DistributedLabs.Library.Refinement
import DistributedLabs.Mr.Finished

/-!
# Map functions that vary from one execution to the next

The map function of an application need not be a function: one that goes over a Go map emits its
pairs in another order each time it is executed, also when one task is executed twice. In
`varyingSystem` every step of a worker chooses the job that it performs, from a family of jobs.

The jobs of the family are `Similar` to one job, their reference: they emit the same pairs in
another order. A run of the varying system is then a run of the reference job up to the order of
pairs, `simulated_by_reference`. The same actions are taken, an intermediate file has the same pairs
in some order (`SamePairs`), and all other files are equal; so the output files are those of the
reference job, `varying_finished_files`.
-/

namespace DistributedLabs.Mr

/-- The jobs differ in the order of the emitted pairs and in how they sort. -/
structure Job.Similar (job reference : Job) : Prop where
  codec : job.toCodec = reference.toCodec
  reducef : job.reducef = reference.reducef
  mapf : ∀ filename contents,
    (job.mapf filename contents).Perm (reference.mapf filename contents)

/-- The output of the job is determined by the pairs that it emits, in whatever order: they come
back from the intermediate files, which are not the input files, and the order of the values does
not matter. -/
structure Workload.Determined (load : Workload) : Prop where
  positive : 0 < load.nReduce
  order : OrderIndependent load.job.reducef
  separate : InputsSeparate (initTasks load.filename load.nReduce)
  json : ∀ name ∈ load.filename, ∀ content, load.input name = some content →
    ∀ kv ∈ load.job.mapf name content, load.job.RoundTrips kv

/-- The texts decode to the same pairs, up to their order. -/
def SamePairs (codec : Codec) (text text' : GoString) : Prop :=
  (decodeAll codec text).Perm (decodeAll codec text')

/-- The name is that of an intermediate file of the job. -/
def Workload.Intermediate (load : Workload) (name : GoString) : Prop :=
  ∃ index < load.filename.length, ∃ bucket < load.nReduce, name = intermediateName index bucket

/-- The files are equal, but for the order of the pairs in the intermediate files. -/
structure Workload.FilesAlike (load : Workload) (files files' : Files) : Prop where
  pairs : ∀ name, Option.Rel (SamePairs load.job.toCodec) (files name) (files' name)
  others : ∀ name, ¬ load.Intermediate name → files name = files' name

/-- The workers stand at the same place, with the same pairs. -/
inductive WorkerPc.Alike (codec : Codec) : WorkerPc → WorkerPc → Prop where
  | idle : Alike codec .idle .idle
  | mapRead (reply : TaskReply) : Alike codec (.mapRead reply) (.mapRead reply)
  | mapRename (task : Task) (tempfiles tempfiles' : List GoString) (i : Nat)
      (htempfiles : List.Forall₂ (SamePairs codec) tempfiles tempfiles') :
      Alike codec (.mapRename task tempfiles i) (.mapRename task tempfiles' i)
  | reduceRead (task : Task) (kva kva' : List KeyValue) (i : Nat) (hkva : kva.Perm kva') :
      Alike codec (.reduceRead task kva i) (.reduceRead task kva' i)
  | reduceCreate (task : Task) (kva kva' : List KeyValue) (hkva : kva.Perm kva') :
      Alike codec (.reduceCreate task kva) (.reduceCreate task kva')
  | reduceRename (task : Task) (tempfile : GoString) :
      Alike codec (.reduceRename task tempfile) (.reduceRename task tempfile)
  | reporting (report : Report) : Alike codec (.reporting report) (.reporting report)
  | crashed (report : Option Report) : Alike codec (.crashed report) (.crashed report)

/-- The systems are equal, but for the order of pairs. -/
structure Workload.SystemsAlike {W : Type} (load : Workload) (σ τ : System W) : Prop where
  coordinator : σ.coordinator = τ.coordinator
  files : load.FilesAlike σ.files τ.files
  workers : ∀ worker, (σ.workers worker).Alike load.job.toCodec (τ.workers worker)

/-- The system in which every step chooses the job that it performs. -/
def varyingSystem (W : Type) [DecidableEq W] {C : Type} (jobs : C → Job) (c : Coordinator)
    (input : Files) : Machine (System W) (Action W × C) where
  init := { coordinator := c, files := input, workers := fun _ => .idle }
  step σ action := step (jobs action.2) σ action.1

/-! ## The pairs of a file -/

section Pairs

variable {codec : Codec} {kva kva' : List KeyValue}

/-- A bucket has the same pairs for any order in which they were emitted. -/
theorem same_pairs_of_perm (nReduce bucket : Nat) (hperm : kva.Perm kva')
    (hround : ∀ kv ∈ kva', codec.RoundTrips kv) :
    SamePairs codec (encodedBucket codec nReduce kva bucket)
      (encodedBucket codec nReduce kva' bucket) := by
  have hdecode : ∀ {pairs : List KeyValue}, (∀ kv ∈ pairs, codec.RoundTrips kv) →
      decodeAll codec (encodedBucket codec nReduce pairs bucket) = bucketOf nReduce pairs bucket :=
    fun hpairs => decode_all_encoded fun kv hkv => hpairs kv (List.mem_filter.mp hkv).1
  rw [SamePairs, hdecode hround, hdecode fun kv hkv => hround kv (hperm.mem_iff.mp hkv)]
  exact hperm.filter _

/-- The temporary files of a map task have the same pairs for any order. -/
theorem write_buckets_alike {nReduce : Nat} (hpos : 0 < nReduce) (hperm : kva.Perm kva')
    (hround : ∀ kv ∈ kva', codec.RoundTrips kv) :
    ∃ tempfiles tempfiles',
      writeBuckets codec nReduce (List.replicate nReduce []) kva = some tempfiles ∧
      writeBuckets codec nReduce (List.replicate nReduce []) kva' = some tempfiles' ∧
      List.Forall₂ (SamePairs codec) tempfiles tempfiles' := by
  have hsucceeds : ∀ pairs, ∃ tempfiles,
      writeBuckets codec nReduce (List.replicate nReduce []) pairs = some tempfiles :=
    write_buckets_succeeds hpos List.length_replicate
  obtain ⟨tempfiles, hwrite⟩ := hsucceeds kva
  obtain ⟨tempfiles', hwrite'⟩ := hsucceeds kva'
  refine ⟨tempfiles, tempfiles', hwrite, hwrite', ?_⟩
  rw [write_buckets_replicate hwrite, write_buckets_replicate hwrite',
    List.forall₂_map_left_iff, List.forall₂_map_right_iff, List.forall₂_same]
  exact fun bucket _ => same_pairs_of_perm nReduce bucket hperm hround

/-- The records depend neither on the order of the pairs nor on how they are sorted. -/
theorem Job.Similar.records_eq {job reference : Job} (h : job.Similar reference)
    (hreducef : OrderIndependent reference.reducef) (hperm : kva.Perm kva') :
    reduceRecords job kva = reduceRecords reference kva' := by
  have hjob : OrderIndependent job.reducef := h.reducef ▸ hreducef
  have hmem : ∀ record, record ∈ reduceRecords job kva ↔ record ∈ reduceRecords reference kva' := by
    intro record
    have hvalues : ((kva.filter fun kv => kv.key = record.key).map KeyValue.value).Perm
        ((kva'.filter fun kv => kv.key = record.key).map KeyValue.value) :=
      (hperm.filter _).map _
    rw [mem_reduce_records_iff hjob, mem_reduce_records_iff hreducef, h.reducef,
      hreducef _ _ _ hvalues]
    simp only [hperm.mem_iff]
  have hsame := (List.perm_ext_iff_of_nodup (reduce_records_nodup kva)
    (reduce_records_nodup kva')).mpr hmem
  refine hsame.eq_of_pairwise ?_ (reduce_records_increasing kva) (reduce_records_increasing kva')
  exact fun first second _ _ hlt hgt => absurd hlt hgt.not_gt

end Pairs

/-! ## One step -/

section Steps

variable {load : Workload} {job : Job} {files files' : Files} {pc pc' : WorkerPc}

/-- Writing texts with the same pairs keeps the files alike, if the texts are equal or the file is
an intermediate one. -/
theorem Workload.FilesAlike.update (h : load.FilesAlike files files') {name text text' : GoString}
    (hpairs : SamePairs load.job.toCodec text text')
    (hothers : ¬ load.Intermediate name → text = text') :
    load.FilesAlike (Function.update files name (some text))
      (Function.update files' name (some text')) := by
  refine ⟨fun other => ?_, fun other hother => ?_⟩
  · by_cases heq : other = name
    · subst heq
      rw [Function.update_self, Function.update_self]
      exact .some hpairs
    · rw [Function.update_of_ne heq, Function.update_of_ne heq]
      exact h.pairs other
  · by_cases heq : other = name
    · subst heq
      rw [Function.update_self, Function.update_self, hothers hother]
    · rw [Function.update_of_ne heq, Function.update_of_ne heq]
      exact h.others other hother

/-- An input file is not an intermediate file. -/
theorem Workload.Determined.not_intermediate (hload : load.Determined) {name : GoString}
    (hname : name ∈ load.filename) : ¬ load.Intermediate name := by
  rintro ⟨index, hindex, bucket, hbucket, heq⟩
  exact hload.separate.1 name hname index hindex bucket hbucket heq

/-- A temporary file of a map task is renamed to an intermediate file. -/
theorem Workload.MapWorker.intermediate {task : Task} {tempfiles : List GoString} {i : Nat}
    {tempfile : GoString} (h : load.MapWorker files (.mapRename task tempfiles i))
    (hlookup : tempfiles[i]? = some tempfile) :
    load.Intermediate (intermediateName task.index i) := by
  obtain ⟨hlength, hwritten, -⟩ := h
  obtain ⟨position, hposition, -⟩ := Option.bind_eq_some_iff.mp (hwritten i tempfile hlookup)
  exact ⟨task.index, (List.getElem?_eq_some_iff.mp hposition).1, i,
    hlength ▸ (List.getElem?_eq_some_iff.mp hlookup).1, rfl⟩

/-- What the two sides of a file operation have in common. -/
structure Workload.NextAlike (load : Workload) (next next' : Files × WorkerPc) : Prop where
  files : load.FilesAlike next.1 next'.1
  pc : next.2.Alike load.job.toCodec next'.2

/-- Reading the input file and writing the buckets. The reference says which file is read, and the
file is not one of the intermediate files. -/
theorem map_read_alike (hload : load.Determined) (hsimilar : job.Similar load.job)
    (hfiles : load.FilesAlike files files')
    (hinputs : ∀ name ∈ load.filename, files' name = load.input name) {reply : TaskReply}
    (hpc : load.MapWorker files' (.mapRead reply)) :
    Option.Rel load.NextAlike (work job files (.mapRead reply))
      (work load.job files' (.mapRead reply)) := by
  obtain ⟨hcount, hmapfile⟩ := hpc
  have hmem := List.mem_of_getElem? hmapfile
  have hequal := hfiles.others _ (hload.not_intermediate hmem)
  simp only [work]
  rw [hequal]
  cases hread : files' reply.task.mapfile with
  | none => exact .some ⟨hfiles, .crashed none⟩
  | some content =>
      have hinput : load.input reply.task.mapfile = some content :=
        (hinputs _ hmem).symm.trans hread
      obtain ⟨tempfiles, tempfiles', hwrite, hwrite', halike⟩ := write_buckets_alike hload.positive
        (hsimilar.mapf reply.task.mapfile content) (hload.json _ hmem content hinput)
      rw [hsimilar.codec, hcount]
      simp only [hwrite, hwrite']
      exact .some ⟨hfiles, .mapRename reply.task tempfiles tempfiles' 0 halike⟩

/-- Renaming a temporary file. -/
theorem map_rename_alike (hfiles : load.FilesAlike files files') {task : Task}
    {tempfiles tempfiles' : List GoString} {i : Nat}
    (htempfiles : List.Forall₂ (SamePairs load.job.toCodec) tempfiles tempfiles')
    (hpc : load.MapWorker files' (.mapRename task tempfiles' i)) :
    Option.Rel load.NextAlike (work job files (.mapRename task tempfiles i))
      (work load.job files' (.mapRename task tempfiles' i)) := by
  have hlength := htempfiles.length_eq
  by_cases hi : i < tempfiles.length
  · have hlookup : tempfiles[i]? = some tempfiles[i] := List.getElem?_eq_getElem hi
    have hi' : i < tempfiles'.length := hlength ▸ hi
    have hlookup' : tempfiles'[i]? = some tempfiles'[i] := List.getElem?_eq_getElem hi'
    have hpairs : SamePairs load.job.toCodec tempfiles[i] tempfiles'[i] :=
      (List.forall₂_iff_get.mp htempfiles).2 i hi hi'
    simp only [work, hlookup, hlookup']
    exact .some ⟨hfiles.update hpairs fun hname => absurd (hpc.intermediate hlookup') hname,
      .mapRename task tempfiles tempfiles' (i + 1) htempfiles⟩
  · have hend : tempfiles[i]? = none := List.getElem?_eq_none (by omega)
    have hend' : tempfiles'[i]? = none := List.getElem?_eq_none (by omega)
    simp only [work, hend, hend']
    exact .some ⟨hfiles, .reporting _⟩

/-- Reading an intermediate file. -/
theorem reduce_read_alike (hcodec : job.toCodec = load.job.toCodec)
    (hfiles : load.FilesAlike files files') {task : Task} {kva kva' : List KeyValue} {i : Nat}
    (hkva : kva.Perm kva') :
    Option.Rel load.NextAlike (work job files (.reduceRead task kva i))
      (work load.job files' (.reduceRead task kva' i)) := by
  cases hlookup : task.reducefiles[i]? with
  | none =>
      simp only [work, hlookup]
      exact .some ⟨hfiles, .reduceCreate task kva kva' hkva⟩
  | some name =>
      simp only [work, hlookup]
      have hpairs := hfiles.pairs name
      generalize files name = text at hpairs
      generalize files' name = text' at hpairs
      cases hpairs with
      | none => exact .some ⟨hfiles, .crashed none⟩
      | some hsame =>
          refine .some ⟨hfiles, .reduceRead task _ _ (i + 1) (hkva.append ?_)⟩
          rw [hcodec]
          exact hsame

/-- A file operation of a worker is matched by the same operation for the reference job. -/
theorem work_alike (hload : load.Determined) (hsimilar : job.Similar load.job)
    (hfiles : load.FilesAlike files files')
    (hinputs : ∀ name ∈ load.filename, files' name = load.input name)
    (hworker : load.MapWorker files' pc') (hpc : pc.Alike load.job.toCodec pc') :
    Option.Rel load.NextAlike (work job files pc) (work load.job files' pc') := by
  cases hpc with
  | mapRead reply => exact map_read_alike hload hsimilar hfiles hinputs hworker
  | mapRename task tempfiles tempfiles' i htempfiles =>
      exact map_rename_alike hfiles htempfiles hworker
  | reduceRead task kva kva' i hkva => exact reduce_read_alike hsimilar.codec hfiles hkva
  | reduceCreate task kva kva' hkva =>
      simp only [work]
      rw [hsimilar.records_eq hload.order hkva]
      exact .some ⟨hfiles.update (List.Perm.refl _) fun _ => rfl, .reduceRename task _⟩
  | reduceRename task tempfile =>
      exact .some ⟨hfiles.update (List.Perm.refl _) fun _ => rfl, .reporting _⟩
  | idle | reporting | crashed => exact .none

/-- Workers that are alike have the same reduce task. -/
theorem WorkerPc.Alike.reduces_eq {codec : Codec} (h : pc.Alike codec pc') :
    pc.reduces = pc'.reduces := by
  cases h <;> rfl

/-- Workers that are alike leave the same behind when they stop. -/
theorem WorkerPc.Alike.crash {codec : Codec} (h : pc.Alike codec pc') :
    pc.crash.Alike codec pc'.crash := by
  cases h <;> exact .crashed _

/-- A worker that has just been given a task is like itself. -/
theorem start_work_alike (codec : Codec) (reply : TaskReply) :
    (startWork reply).Alike codec (startWork reply) := by
  unfold startWork
  split
  · exact .idle
  · exact .mapRead reply
  · exact .reduceRead reply.task [] [] 0 (List.Perm.refl _)

variable {W : Type} {σ τ shadow : System W} {action : Action W}

/-- The timeouts of systems that are alike are accurate together. -/
theorem Workload.SystemsAlike.accurate (h : load.SystemsAlike σ shadow)
    (hguard : AccurateTimeout σ action) : AccurateTimeout shadow action := by
  cases action with
  | assign worker currenttime later =>
      intro index hindex other
      rw [← h.coordinator] at hindex
      rw [← (h.workers other).reduces_eq]
      exact hguard index hindex other
  | work | report | crash => trivial

variable [DecidableEq W]

/-- Workers that are alike stay alike when the same worker moves in both systems. -/
theorem Workload.SystemsAlike.move (h : load.SystemsAlike σ shadow) (worker : W)
    {c c' : Coordinator} (hcoordinator : c = c') (hfiles : load.FilesAlike files files')
    (hpc : pc.Alike load.job.toCodec pc') :
    load.SystemsAlike ({ σ with coordinator := c, files := files }.setWorker worker pc)
      ({ shadow with coordinator := c', files := files' }.setWorker worker pc') := by
  refine ⟨hcoordinator, hfiles, fun other => ?_⟩
  by_cases heq : other = worker
  · subst heq
    rw [System.set_worker_self, System.set_worker_self]
    exact hpc
  · rw [System.set_worker_of_ne _ _ heq, System.set_worker_of_ne _ _ heq]
    exact h.workers other

/-- A report is handled alike. -/
theorem Workload.SystemsAlike.report (h : load.SystemsAlike σ shadow) {worker : W} {report : Report}
    {c : Coordinator} (hreport : (σ.workers worker = .reporting report ∧ pc = .idle) ∨
      (σ.workers worker = .crashed (some report) ∧ pc = .crashed none))
    (hdeliver : deliver σ.coordinator report = some c) :
    ∃ later, step load.job shadow (.report worker) = some later ∧
      load.SystemsAlike ({ σ with coordinator := c }.setWorker worker pc) later := by
  have hworker := h.workers worker
  rw [h.coordinator] at hdeliver
  rcases hreport with ⟨hpc, rfl⟩ | ⟨hpc, rfl⟩
  · rw [hpc] at hworker
    generalize hshadow : shadow.workers worker = pc' at hworker
    cases hworker
    refine ⟨_, ?_, h.move worker rfl h.files .idle⟩
    simp only [step, hshadow, hdeliver, Option.map_some]
  · rw [hpc] at hworker
    generalize hshadow : shadow.workers worker = pc' at hworker
    cases hworker
    refine ⟨_, ?_, h.move worker rfl h.files (.crashed none)⟩
    simp only [step, hshadow, hdeliver, Option.map_some]

/-- A step is matched by the same step of the reference job. -/
theorem Workload.SystemsAlike.step (h : load.SystemsAlike σ shadow) (hload : load.Determined)
    (hsimilar : job.Similar load.job) (hkept : load.MapKept shadow)
    (hinputs : ∀ name ∈ load.filename, shadow.files name = load.input name)
    (hstep : Mr.step job σ action = some τ) :
    ∃ later, Mr.step load.job shadow action = some later ∧ load.SystemsAlike τ later := by
  cases step_inversion hstep with
  | assign worker currenttime later hidle =>
      have hworker := h.workers worker
      rw [hidle] at hworker
      generalize hshadow : shadow.workers worker = pc' at hworker
      cases hworker
      rw [h.coordinator]
      refine ⟨_, ?_, h.move worker rfl h.files (start_work_alike _ _)⟩
      simp only [Mr.step, hshadow]
  | work worker files pc hwork =>
      have hnext := work_alike hload hsimilar h.files hinputs (hkept.workers worker)
        (h.workers worker)
      rw [hwork] at hnext
      generalize hshadow : work load.job shadow.files (shadow.workers worker) = next at hnext
      cases hnext with
      | some hsome =>
          refine ⟨_, ?_, h.move worker h.coordinator hsome.files hsome.pc⟩
          simp only [Mr.step, hshadow, Option.map_some]
  | report worker report c pc hreport hdeliver => exact h.report hreport hdeliver
  | crash worker =>
      exact ⟨_, rfl, h.move worker h.coordinator h.files (h.workers worker).crash⟩

end Steps

/-! ## Whole runs -/

section Runs

variable {W C : Type} [DecidableEq W] {load : Workload} {jobs : C → Job}

/-- With accurate timeouts the reference job takes the same actions as the varying one. -/
theorem simulated_by_reference (hload : load.Determined)
    (hsimilar : ∀ choice, (jobs choice).Similar load.job) :
    (varyingSystem W jobs (initTasks load.filename load.nReduce) load.input).SimulatedBy
      (system W load.job (initTasks load.filename load.nReduce) load.input)
      (fun σ action => AccurateTimeout σ action.1) AccurateTimeout load.SystemsAlike Prod.fst where
  init := by
    refine ⟨rfl, ⟨fun name => ?_, fun _ _ => rfl⟩, fun _ => .idle⟩
    show Option.Rel _ (load.input name) (load.input name)
    cases load.input name with
    | none => exact .none
    | some text => exact .some (List.Perm.refl _)
  step := by
    intro actions shadow σ action τ hmeets hrun halike hguard hstep
    obtain ⟨hkept, hinputs, -⟩ := kept_of_accurate hload.separate hmeets hrun
    exact ⟨halike.accurate hguard, halike.step hload (hsimilar action.2) hkept hinputs hstep⟩

/-- When `Done` returns true, every output file has the records of its bucket of the pairs of the
reference job, whatever was chosen in the steps. -/
theorem varying_finished_files {reference : Job}
    {glob : GoString → Option (List GoString)} {patterns : List GoString} {nReduce : Nat}
    {c : Coordinator} {input : Files} {actions : List (Action W × C)} {σ : System W}
    (hsimilar : ∀ choice, (jobs choice).Similar reference)
    (hreducef : OrderIndependent reference.reducef)
    (hmake : makeCoordinator glob patterns nReduce = some c) (hpos : 1 ≤ nReduce)
    (hseparate : InputsSeparate c)
    (hjson : ∀ name ∈ c.filename, ∀ content, input name = some content →
      ∀ kv ∈ reference.mapf name content, reference.RoundTrips kv)
    (htimeouts : (varyingSystem W jobs c input).Meets
      (fun σ action => AccurateTimeout σ action.1) actions)
    (hrun : (varyingSystem W jobs c input).run actions = some σ)
    (hdone : σ.coordinator.done = true) :
    ∀ index < nReduce, σ.files (outputName index) = some (render (reduceRecords reference
      (bucketOf nReduce
        (c.filename.flatMap fun name => reference.mapf name ((input name).getD [])) index))) := by
  have hinit := make_coordinator_eq hmake
  obtain ⟨shadow, hshadow, hmeets, halike⟩ : ∃ shadow,
      (system W reference c input).run (actions.map Prod.fst) = some shadow ∧
      (system W reference c input).Meets AccurateTimeout (actions.map Prod.fst) ∧
      Workload.SystemsAlike ⟨reference, c.filename, nReduce, input⟩ σ shadow := by
    generalize c.filename = filename at *
    subst hinit
    have hload : Workload.Determined ⟨reference, filename, nReduce, input⟩ :=
      ⟨hpos, hreducef, hseparate, hjson⟩
    exact (simulated_by_reference hload hsimilar).run htimeouts hrun
  intro index hindex
  have hfiles := (finished_files hmake hpos hseparate hjson hmeets hshadow
    (halike.coordinator ▸ hdone)).2 index hindex
  rw [← hfiles]
  refine halike.files.others _ ?_
  rintro ⟨position, -, bucket, -, heq⟩
  exact intermediate_ne_output position bucket index heq.symm

end Runs

end DistributedLabs.Mr
