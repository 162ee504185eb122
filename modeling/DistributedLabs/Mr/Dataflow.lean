import DistributedLabs.Mr.Json
import DistributedLabs.Mr.Reduce
import Mathlib.Data.List.Nodup

/-!
# The distributed dataflow and the sequential one

`main/mrsequential.go` maps every file, sorts all pairs at once and writes one record for each key.
The distributed job hashes the pairs into one file for each map and reduce task, gathers the files
of a reduce task by name, and sorts and groups each part. `distributed_eq_sequential` says that both
write the same records, for a `reducef` that does not look at the order of the values.

The records of a list of pairs do not depend on how the list is sorted (`mem_reduce_records_iff`),
and a key has its record in the part of its hash alone; so the parts together are a permutation of
the whole.
-/

namespace DistributedLabs.Mr

/-- Map every input file and collect the pairs. -/
def mapFiles (job : Job) (files : Files) : List GoString → List KeyValue → Option (List KeyValue)
  | [], intermediate => some intermediate
  | filename :: rest, intermediate =>
      match files filename with
      | some content => mapFiles job files rest (intermediate ++ job.mapf filename content)
      | none => none

/-- The records that the sequential program writes. -/
def sequentialRecords (job : Job) (filenames : List GoString) (files : Files) :
    Option (List Record) :=
  (mapFiles job files filenames []).map (reduceRecords job)

/-- `mrsequential`. -/
def mrsequential (job : Job) (filenames : List GoString) (files : Files) : Option Files :=
  (sequentialRecords job filenames files).map fun records =>
    Function.update files (outputName 0) (some (render records))

/-- Handle tasks one after the other. -/
def runTasks (handle : TaskReply → Files → Option Files) (nReduce : Nat) :
    List Task → Files → Option Files
  | [], files => some files
  | task :: rest, files => (handle ⟨task, nReduce⟩ files).bind (runTasks handle nReduce rest)

/-- The result of a reduce function does not depend on the order of the values. -/
def OrderIndependent (reducef : GoString → List GoString → GoString) : Prop :=
  ∀ key values values', values.Perm values' → reducef key values = reducef key values'

/-! ## The records of a list of pairs -/

section Records

variable {job : Job}

/-- There is one record for each key that occurs, with the result for all its values. -/
theorem mem_reduce_records_iff (hreducef : OrderIndependent job.reducef) {kva : List KeyValue}
    {record : Record} :
    record ∈ reduceRecords job kva ↔
      (∃ kv ∈ kva, kv.key = record.key) ∧
        record.output = job.reducef record.key
          ((kva.filter fun kv => kv.key = record.key).map KeyValue.value) := by
  rw [reduce_records_eq, List.mem_map]
  constructor
  · intro h
    obtain ⟨call, hcall, rfl⟩ := h
    have hkey := ((mem_reduce_calls_iff job kva).mp hcall).1
    exact ⟨List.mem_map.mp hkey, hreducef _ _ _ (perm_of_mem_reduce_calls job kva hcall)⟩
  · intro h
    obtain ⟨hkey, houtput⟩ := h
    have hcall : (record.key, ((job.sort kva).filter fun kv => kv.key = record.key).map
        KeyValue.value) ∈ reduceCalls job kva :=
      (mem_reduce_calls_iff job kva).mpr ⟨List.mem_map.mpr hkey, rfl⟩
    refine ⟨_, hcall, ?_⟩
    rw [recordOf, hreducef _ _ _ (perm_of_mem_reduce_calls job kva hcall), ← houtput]

/-- The keys of the records increase strictly. -/
theorem reduce_records_increasing (kva : List KeyValue) :
    (reduceRecords job kva).Pairwise fun first second => first.key < second.key := by
  rw [reduce_records_eq, List.pairwise_map]
  exact List.pairwise_map.mp (reduce_calls_increasing job kva)

/-- No record is written twice. -/
theorem reduce_records_nodup (kva : List KeyValue) : (reduceRecords job kva).Nodup :=
  (reduce_records_increasing kva).imp fun hlt heq => hlt.ne (congrArg Record.key heq)

/-- A record of a bucket has a key that is hashed to the bucket. -/
theorem record_bucket (hreducef : OrderIndependent job.reducef) {nReduce bucket : Nat}
    {kva : List KeyValue} {record : Record}
    (h : record ∈ reduceRecords job (bucketOf nReduce kva bucket)) :
    ihash record.key % nReduce = bucket := by
  obtain ⟨⟨kv, hkv, hkey⟩, -⟩ := (mem_reduce_records_iff hreducef).mp h
  rw [← hkey]
  simpa using (List.mem_filter.mp hkv).2

/-- The record of a key is the same in its bucket and in the whole list. -/
theorem mem_bucket_records_iff (hreducef : OrderIndependent job.reducef) {nReduce : Nat}
    {kva : List KeyValue} {record : Record} :
    record ∈ reduceRecords job (bucketOf nReduce kva (ihash record.key % nReduce)) ↔
      record ∈ reduceRecords job kva := by
  have hvalues : ((bucketOf nReduce kva (ihash record.key % nReduce)).filter
      fun kv => kv.key = record.key) = kva.filter fun kv => kv.key = record.key := by
    rw [bucketOf, List.filter_filter]
    refine List.filter_congr fun kv _ => ?_
    by_cases hkey : kv.key = record.key
    · simp [hkey]
    · simp [hkey]
  have hkeys : (∃ kv ∈ bucketOf nReduce kva (ihash record.key % nReduce), kv.key = record.key) ↔
      ∃ kv ∈ kva, kv.key = record.key := by
    constructor
    · rintro ⟨kv, hkv, hkey⟩
      exact ⟨kv, (List.mem_filter.mp hkv).1, hkey⟩
    · rintro ⟨kv, hkv, hkey⟩
      exact ⟨kv, List.mem_filter.mpr ⟨hkv, by simp [hkey]⟩, hkey⟩
  rw [mem_reduce_records_iff hreducef, mem_reduce_records_iff hreducef, hvalues, hkeys]

/-- The records of the buckets are together the records of the whole list. -/
theorem bucket_records_perm (hreducef : OrderIndependent job.reducef) {nReduce : Nat}
    (hpos : 0 < nReduce) (kva : List KeyValue) :
    ((List.range nReduce).flatMap fun bucket =>
      reduceRecords job (bucketOf nReduce kva bucket)).Perm (reduceRecords job kva) := by
  refine (List.perm_ext_iff_of_nodup ?_ (reduce_records_nodup kva)).mpr fun record => ?_
  · refine List.nodup_flatMap.mpr ⟨fun bucket _ => reduce_records_nodup _, ?_⟩
    refine List.nodup_range.imp fun hne record hfirst hsecond => hne ?_
    rw [← record_bucket hreducef hfirst, ← record_bucket hreducef hsecond]
  · rw [List.mem_flatMap, ← mem_bucket_records_iff hreducef]
    constructor
    · rintro ⟨bucket, -, hrecord⟩
      have hbucket := record_bucket hreducef hrecord
      subst hbucket
      exact hrecord
    · intro hrecord
      exact ⟨_, List.mem_range.mpr (Nat.mod_lt _ hpos), hrecord⟩

end Records

/-! ## The map tasks and the reduce tasks -/

section Tasks

variable {job : Job} {nReduce : Nat}

/-- The map tasks leave all their buckets, whatever their order, if they do not overwrite each
other's input. -/
theorem run_maps {tasks : List Task} {files : Files} (content : GoString → GoString)
    (hpos : 0 < nReduce) (hindex : (tasks.map Task.index).Nodup)
    (hread : ∀ task ∈ tasks, files task.mapfile = some (content task.mapfile))
    (hapart : ∀ task ∈ tasks, ∀ other ∈ tasks, other.index ≠ task.index → ∀ bucket < nReduce,
      task.mapfile ≠ intermediateName other.index bucket) :
    ∃ middle, runTasks (handleMap job) nReduce tasks files = some middle ∧
      (∀ task ∈ tasks, ∀ bucket < nReduce, middle (intermediateName task.index bucket) =
        some (encodedBucket job.toCodec nReduce
          (job.mapf task.mapfile (content task.mapfile)) bucket)) ∧
      ∀ name, (∀ task ∈ tasks, ∀ bucket < nReduce, name ≠ intermediateName task.index bucket) →
        middle name = files name := by
  induction tasks generalizing files with
  | nil => exact ⟨files, rfl, by simp, fun name _ => rfl⟩
  | cons task rest ih =>
      rw [List.map_cons, List.nodup_cons] at hindex
      set next := renameBuckets task.index files 0 ((List.range nReduce).map
        (encodedBucket job.toCodec nReduce
          (job.mapf task.mapfile (content task.mapfile)))) with hnext
      have hkept : ∀ name, (∀ bucket < nReduce, name ≠ intermediateName task.index bucket) →
          next name = files name := by
        intro name hname
        refine rename_buckets_of_ne fun bucket hlt => ?_
        rw [Nat.zero_add]
        exact hname bucket (by simpa using hlt)
      have hreadNext : ∀ other ∈ rest, next other.mapfile = some (content other.mapfile) := by
        intro other hother
        have hne : task.index ≠ other.index :=
          fun heq => hindex.1 (heq ▸ List.mem_map_of_mem hother)
        rw [hkept _ (hapart other (List.mem_cons_of_mem _ hother) task List.mem_cons_self hne)]
        exact hread other (List.mem_cons_of_mem _ hother)
      obtain ⟨middle, hrun, hbuckets, hothers⟩ := ih hindex.2 hreadNext
        fun other hother another hanother =>
          hapart other (List.mem_cons_of_mem _ hother) another (List.mem_cons_of_mem _ hanother)
      refine ⟨middle, ?_, ?_, ?_⟩
      · rw [runTasks, handle_map_eq hpos (hread task List.mem_cons_self)]
        exact hrun
      · intro other hother bucket hlt
        rcases List.mem_cons.mp hother with rfl | hrest
        · -- the later map tasks have other indices, so they leave the buckets of this one alone
          have hname : ∀ later ∈ rest, ∀ position < nReduce,
              intermediateName other.index bucket ≠ intermediateName later.index position := by
            intro later hlater position _ heq
            exact hindex.1 ((intermediate_name_inj heq).1 ▸ List.mem_map_of_mem hlater)
          rw [hothers _ hname, hnext]
          exact rename_buckets_range _ hlt
        · exact hbuckets other hrest bucket hlt
      · intro name hname
        rw [hothers name fun other hother => hname other (List.mem_cons_of_mem _ hother)]
        exact hkept name (hname task List.mem_cons_self)

/-- The reduce tasks write all their records, whatever their order. -/
theorem run_reduces {tasks : List Task} {files : Files} (records : Nat → List Record)
    (hindex : (tasks.map Task.index).Nodup)
    (hrecords : ∀ task ∈ tasks, taskRecords job task files = some (records task.index))
    (hapart : ∀ task ∈ tasks, ∀ name ∈ task.reducefiles, ∀ index, name ≠ outputName index) :
    ∃ final, runTasks (handleReduce job) nReduce tasks files = some final ∧
      (∀ task ∈ tasks, final (outputName task.index) = some (render (records task.index))) ∧
      ∀ name, (∀ task ∈ tasks, name ≠ outputName task.index) → final name = files name := by
  induction tasks generalizing files with
  | nil => exact ⟨files, rfl, by simp, fun name _ => rfl⟩
  | cons task rest ih =>
      rw [List.map_cons, List.nodup_cons] at hindex
      set next := Function.update (Function.update files (outputName task.index) (some []))
        (outputName task.index) (some (render (records task.index))) with hnext
      have hkept : ∀ name, name ≠ outputName task.index → next name = files name := by
        intro name hname
        rw [hnext, Function.update_of_ne hname, Function.update_of_ne hname]
      have hrecordsNext : ∀ other ∈ rest,
          taskRecords job other next = some (records other.index) := by
        intro other hother
        rw [← hrecords other (List.mem_cons_of_mem _ hother), taskRecords, taskRecords,
          read_intermediate_congr fun name hname =>
            hkept name (hapart other (List.mem_cons_of_mem _ hother) name hname task.index)]
      obtain ⟨final, hrun, houtputs, hothers⟩ := ih hindex.2 hrecordsNext
        fun other hother => hapart other (List.mem_cons_of_mem _ hother)
      refine ⟨final, ?_, ?_, ?_⟩
      · rw [runTasks, handleReduce, hrecords task List.mem_cons_self]
        exact hrun
      · intro other hother
        rcases List.mem_cons.mp hother with rfl | hrest
        · have hname : ∀ later ∈ rest, outputName other.index ≠ outputName later.index := by
            intro later hlater heq
            exact hindex.1 (output_name_injective heq ▸ List.mem_map_of_mem hlater)
          rw [hothers _ hname, hnext, Function.update_self]
        · exact houtputs other hrest
      · intro name hname
        rw [hothers name fun other hother => hname other (List.mem_cons_of_mem _ hother)]
        exact hkept name (hname task List.mem_cons_self)

/-- The sequential program collects the pairs of all files. -/
theorem map_files_eq {files : Files} {filenames : List GoString} {content : GoString → GoString}
    (hread : ∀ name ∈ filenames, files name = some (content name)) (intermediate : List KeyValue) :
    mapFiles job files filenames intermediate =
      some (intermediate ++ filenames.flatMap fun name => job.mapf name (content name)) := by
  induction filenames generalizing intermediate with
  | nil => simp [mapFiles]
  | cons name rest ih =>
      rw [mapFiles, hread name List.mem_cons_self]
      dsimp only
      rw [ih (fun other hother => hread other (List.mem_cons_of_mem _ hother)), List.flatMap_cons,
        List.append_assoc]

/-- A reduce task that finds the buckets of all map tasks writes the records of its bucket. -/
theorem task_records_eq {files : Files} {filenames : List GoString}
    {content : GoString → GoString} {bucket : Nat} {task : Task}
    (hnames : task.reducefiles =
      (List.range filenames.length).map fun index => intermediateName index bucket)
    (hfiles : ∀ index name, filenames[index]? = some name →
      files (intermediateName index bucket) =
        some (encodedBucket job.toCodec nReduce (job.mapf name (content name)) bucket))
    (hjson : ∀ name ∈ filenames, ∀ kv ∈ job.mapf name (content name), job.RoundTrips kv) :
    taskRecords job task files = some (reduceRecords job (bucketOf nReduce
      (filenames.flatMap fun name => job.mapf name (content name)) bucket)) := by
  have hstreams : task.reducefiles.map files = (filenames.map fun name =>
      encodedBucket job.toCodec nReduce (job.mapf name (content name)) bucket).map some := by
    rw [hnames, List.map_map, List.map_map]
    refine List.ext_getElem (by simp) fun index hindex hindex' => ?_
    have hlt : index < filenames.length := by simpa using hindex
    simpa using hfiles index _ (List.getElem?_eq_getElem hlt)
  have hdecoded : (filenames.map fun name =>
      encodedBucket job.toCodec nReduce (job.mapf name (content name)) bucket).flatMap
        (decodeAll job.toCodec) =
      bucketOf nReduce (filenames.flatMap fun name => job.mapf name (content name)) bucket := by
    rw [List.flatMap_map, bucketOf, List.filter_flatMap]
    refine List.flatMap_congr fun name hname => ?_
    exact decode_all_encoded fun kv hkv => hjson name hname kv (List.mem_filter.mp hkv).1
  rw [taskRecords, read_intermediate_eq hstreams, List.nil_append, hdecoded, Option.map_some]

end Tasks

/-! ## The whole job -/

/-- No input file has the name of an intermediate file of another map task. A file that is named
like an output of its own task does no harm: `HandleMap` has read it before it renames. -/
def InputsApart (c : Coordinator) : Prop :=
  ∀ position < c.filename.length, ∀ name ∈ c.filename[position]?,
    ∀ index < c.filename.length, index ≠ position → ∀ bucket < c.nreduce,
      name ≠ intermediateName index bucket

/-- The map tasks and then the reduce tasks, in the given orders, run to their end, and the records
in their output files are those of the sequential program, each in the file of its key's hash. -/
def EqualsSequential (job : Job) (c : Coordinator) (files : Files) (maps reduces : List Task) :
    Prop :=
  ∃ (middle final : Files) (outputs : Nat → List Record) (sequential : List Record),
    runTasks (handleMap job) c.nreduce maps files = some middle ∧
    runTasks (handleReduce job) c.nreduce reduces middle = some final ∧
    (∀ task ∈ reduces, taskRecords job task middle = some (outputs task.index)) ∧
    (∀ index < c.nreduce, final (outputName index) = some (render (outputs index))) ∧
    sequentialRecords job c.filename files = some sequential ∧
    mrsequential job c.filename files =
      some (Function.update files (outputName 0) (some (render sequential))) ∧
    ((List.range c.nreduce).flatMap outputs).Perm sequential ∧
    ∀ index, ∀ record ∈ outputs index, ihash record.key % c.nreduce = index

section Phases

variable {job : Job} {filename : List GoString} {nReduce : Nat} {content : GoString → GoString}

/-- After the map tasks, in whatever order, every intermediate file holds its bucket. -/
theorem map_phase {maps : List Task} {files : Files} (hpos : 0 < nReduce)
    (hmaps : maps.Perm (initTasks filename nReduce).maptask)
    (hread : ∀ name ∈ filename, files name = some (content name))
    (hapart : InputsApart (initTasks filename nReduce)) :
    ∃ middle, runTasks (handleMap job) nReduce maps files = some middle ∧
      ∀ bucket < nReduce, ∀ index name, filename[index]? = some name →
        middle (intermediateName index bucket) =
          some (encodedBucket job.toCodec nReduce (job.mapf name (content name)) bucket) := by
  have hindex : (maps.map Task.index).Perm (List.range filename.length) := by
    rw [← init_maptask_index filename nReduce]
    exact hmaps.map _
  have hmapfile : ∀ task ∈ maps, filename[task.index]? = some task.mapfile :=
    fun task htask => mem_init_maptask (hmaps.mem_iff.mp htask)
  have hmem : ∀ task ∈ maps, task.mapfile ∈ filename :=
    fun task htask => List.mem_of_getElem? (hmapfile task htask)
  have hlt : ∀ task ∈ maps, task.index < filename.length :=
    fun task htask => (List.getElem?_eq_some_iff.mp (hmapfile task htask)).1
  obtain ⟨middle, hmiddle, hbuckets, -⟩ := run_maps content hpos
    (hindex.nodup_iff.mpr List.nodup_range) (fun task htask => hread _ (hmem task htask))
    (fun task htask other hother => hapart _ (hlt task htask) _ (hmapfile task htask) _
      (hlt other hother))
  refine ⟨middle, hmiddle, ?_⟩
  intro bucket hbucket index name hname
  have hlt : index < filename.length := (List.getElem?_eq_some_iff.mp hname).1
  obtain ⟨task, htask, rfl⟩ :=
    List.mem_map.mp (hindex.mem_iff.mpr (List.mem_range.mpr hlt))
  obtain rfl := Option.some.inj ((hmapfile task htask).symm.trans hname)
  exact hbuckets task htask bucket hbucket

/-- The reduce tasks, in whatever order, write the records of all buckets. -/
theorem reduce_phase {reduces : List Task} {middle : Files}
    (hreduces : reduces.Perm (initTasks filename nReduce).reducetask) (records : Nat → List Record)
    (hrecords : ∀ task ∈ reduces, taskRecords job task middle = some (records task.index)) :
    ∃ final, runTasks (handleReduce job) nReduce reduces middle = some final ∧
      ∀ index < nReduce, final (outputName index) = some (render (records index)) := by
  have hindex : (reduces.map Task.index).Perm (List.range nReduce) := by
    rw [← init_reducetask_index filename nReduce]
    exact hreduces.map _
  obtain ⟨final, hfinal, houtputs, -⟩ := run_reduces records
    (hindex.nodup_iff.mpr List.nodup_range) hrecords (by
      intro task htask name hname index
      rw [(mem_init_reducetask (hreduces.mem_iff.mp htask)).2] at hname
      obtain ⟨position, -, rfl⟩ := List.mem_map.mp hname
      exact intermediate_ne_output position task.index index)
  refine ⟨final, hfinal, ?_⟩
  intro index hlt
  obtain ⟨task, htask, rfl⟩ := List.mem_map.mp (hindex.mem_iff.mpr (List.mem_range.mpr hlt))
  exact houtputs task htask

end Phases

/-- The distributed job writes the records of the sequential program, provided that its input files
are not overwritten by the intermediate files of other tasks. -/
theorem distributed_eq_sequential (job : Job) (glob : GoString → Option (List GoString))
    (patterns : List GoString) (nReduce : Nat) (c : Coordinator) (files : Files)
    (maps reduces : List Task) (hmake : makeCoordinator glob patterns nReduce = some c)
    (hpos : 1 ≤ nReduce) (hread : ∀ name ∈ c.filename, (files name).isSome)
    (hjson : ∀ name ∈ c.filename, ∀ content, files name = some content →
      ∀ kv ∈ job.mapf name content, job.RoundTrips kv)
    (hreducef : OrderIndependent job.reducef) (hmaps : maps.Perm c.maptask)
    (hreduces : reduces.Perm c.reducetask) (hapart : InputsApart c) :
    EqualsSequential job c files maps reduces := by
  rw [make_coordinator_eq hmake] at hmaps hreduces hapart ⊢
  generalize c.filename = filename at *
  have hcontent : ∀ name ∈ filename, files name = some ((files name).getD []) := by
    intro name hname
    obtain ⟨content, hcontent⟩ := Option.isSome_iff_exists.mp (hread name hname)
    simp [hcontent]
  obtain ⟨middle, hmiddle, hfiles⟩ := map_phase hpos hmaps hcontent hapart
  have hrecords : ∀ task ∈ reduces, taskRecords job task middle =
      some (reduceRecords job (bucketOf nReduce
        (filename.flatMap fun name => job.mapf name ((files name).getD [])) task.index)) := by
    intro task htask
    obtain ⟨hindex, hnames⟩ := mem_init_reducetask (hreduces.mem_iff.mp htask)
    exact task_records_eq hnames (hfiles task.index hindex)
      fun name hname => hjson name hname _ (hcontent name hname)
  obtain ⟨final, hfinal, houtputs⟩ := reduce_phase hreduces
    (fun bucket => reduceRecords job (bucketOf nReduce
      (filename.flatMap fun name => job.mapf name ((files name).getD [])) bucket)) hrecords
  have hsequential : sequentialRecords job filename files = some (reduceRecords job
      (filename.flatMap fun name => job.mapf name ((files name).getD []))) := by
    rw [sequentialRecords, map_files_eq hcontent, List.nil_append, Option.map_some]
  refine ⟨middle, final, _, _, hmiddle, hfinal, hrecords, houtputs, hsequential, ?_,
    bucket_records_perm hreducef hpos _, fun index record => record_bucket hreducef⟩
  rw [mrsequential, show (initTasks filename nReduce).filename = filename from rfl, hsequential,
    Option.map_some]

/-- The number of values does not depend on their order. -/
theorem length_count_order_independent : OrderIndependent lengthCount.reducef := by
  intro key values values' hperm
  exact congrArg decimal hperm.length_eq

/-- A directory with two input files. -/
def twoInputs (first second : GoString) : Files :=
  Function.update (Function.update (fun _ => none) first (some (ascii ['x'])))
    second (some (ascii ['y']))

/-- Two files of one length, mapped in the reverse order into two buckets. -/
theorem distributed_eq_sequential_two_files :
    EqualsSequential lengthCount (initTasks [ascii ['a'], ascii ['b']] 2)
      (twoInputs (ascii ['a']) (ascii ['b']))
      (initTasks [ascii ['a'], ascii ['b']] 2).maptask.reverse
      (initTasks [ascii ['a'], ascii ['b']] 2).reducetask :=
  distributed_eq_sequential lengthCount (fun pattern => some [pattern]) [ascii ['a'], ascii ['b']] 2
    _ _ _ _ rfl (by decide) (by decide)
    (fun name _ content _ => length_count_round_trips name content) length_count_order_independent
    (List.reverse_perm _) (List.Perm.refl _) (by unfold InputsApart; decide)

/-- A job whose second input file is called `mr-0-0`. -/
def overwrittenInput : Coordinator :=
  initTasks [ascii ['a'], intermediateName 0 0] 1

/-- The first map task of `overwrittenInput` overwrites the second input file, so the second one
counts the length of the JSON text and not of the input. -/
theorem overwritten_input_differs :
    ¬ ∀ (job : Job) (glob : GoString → Option (List GoString)) (patterns : List GoString)
      (nReduce : Nat) (c : Coordinator) (files : Files) (maps reduces : List Task),
      makeCoordinator glob patterns nReduce = some c → 1 ≤ nReduce →
      (∀ name ∈ c.filename, (files name).isSome) →
      (∀ name ∈ c.filename, ∀ content, files name = some content →
        ∀ kv ∈ job.mapf name content, job.RoundTrips kv) →
      OrderIndependent job.reducef → maps.Perm c.maptask → reduces.Perm c.reducetask →
      EqualsSequential job c files maps reduces := by
  intro hall
  obtain ⟨middle, final, outputs, sequential, hmiddle, -, houtputs, -, hsequential, -, hperm, -⟩ :=
    hall lengthCount (fun pattern => some [pattern]) [ascii ['a'], intermediateName 0 0] 1
      overwrittenInput (twoInputs (ascii ['a']) (intermediateName 0 0)) overwrittenInput.maptask
      overwrittenInput.reducetask rfl (by decide) (by decide)
      (fun name _ content _ => length_count_round_trips name content)
      length_count_order_independent (List.Perm.refl _) (List.Perm.refl _)
  -- the sequential program finds one length, the distributed job two
  have hone : (sequentialRecords lengthCount overwrittenInput.filename
      (twoInputs (ascii ['a']) (intermediateName 0 0))).map List.length = some 1 := by decide
  have htwo : ((runTasks (handleMap lengthCount) overwrittenInput.nreduce overwrittenInput.maptask
      (twoInputs (ascii ['a']) (intermediateName 0 0))).bind fun middle =>
        overwrittenInput.reducetask.head?.bind fun task =>
          (taskRecords lengthCount task middle).map List.length) = some 2 := by decide
  have hrecords : overwrittenInput.reducetask.head?.bind (fun task =>
      (taskRecords lengthCount task middle).map List.length) = some (outputs 0).length :=
    congrArg (Option.map List.length) (houtputs _ List.mem_cons_self)
  rw [hsequential, Option.map_some, Option.some.injEq] at hone
  rw [hmiddle, Option.bind_some, hrecords, Option.some.injEq] at htwo
  have hparts : ((List.range overwrittenInput.nreduce).flatMap outputs).length =
      (outputs 0).length := by
    simp [overwrittenInput, initTasks]
  have htotal := hperm.length_eq
  omega

end DistributedLabs.Mr
