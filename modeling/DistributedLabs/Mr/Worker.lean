import DistributedLabs.Library.Grouping
import DistributedLabs.Mr.Coordinator

/-!
# The MapReduce worker

`HandleMap` of `mr/worker.go`, as a function from the files before to the files after, and how
`HandleReduce` reads what the map tasks have left; `none` means that the worker stops (`log.Fatal`
or a panic). A `Job` carries what the worker takes from outside: the application's `mapf` and
`reducef`, the encoding of `encoding/json`, and `sort.Sort(ByKey(kva))`, of which only a sorted
permutation is known.

The map side writes each key/value pair to the bucket of its key, `write_buckets_spec`; the reduce
side decodes the buckets of one task from every map task, `decode_all_encoded`.
-/

namespace DistributedLabs.Mr

/-- A key/value pair. -/
structure KeyValue where
  key : GoString
  value : GoString
  deriving DecidableEq

/-- FNV-1a of a key, without the sign bit. -/
def ihash (key : GoString) : Nat :=
  (key.foldl (fun hash byte => (hash ^^^ UInt32.ofNat byte.val) * 16777619) 2166136261 &&&
    0x7fffffff).toNat

/-- `encoding/json` on streams of key/value pairs. `decode` gives the next pair of a stream and what
follows the line that it ends, and `none` at the end of the stream or on an error. -/
structure Codec where
  encode : KeyValue → GoString
  decode : GoString → Option (KeyValue × GoString)
  decode_shorter : ∀ stream kv rest, decode stream = some (kv, rest) → rest.length < stream.length

/-- What a worker takes from the application and from the library. -/
structure Job extends Codec where
  mapf : GoString → GoString → List KeyValue
  reducef : GoString → List GoString → GoString
  sort : List KeyValue → List KeyValue
  sort_perm : ∀ kva, (sort kva).Perm kva
  sort_sorted : ∀ kva, SortedBy KeyValue.key (sort kva)

/-- The encoding of a pair, followed by anything, decodes to the pair. -/
def Codec.RoundTrips (codec : Codec) (kv : KeyValue) : Prop :=
  ∀ rest, codec.decode (codec.encode kv ++ rest) = some (kv, rest)

/-! ## Map tasks -/

/-- Append each pair to the temporary file of its bucket. `none` is an index outside the list of
files. -/
def writeBuckets (codec : Codec) (nReduce : Nat) :
    List GoString → List KeyValue → Option (List GoString)
  | tempfiles, [] => some tempfiles
  | tempfiles, kv :: rest =>
      match tempfiles[ihash kv.key % nReduce]? with
      | some tempfile =>
          writeBuckets codec nReduce
            (tempfiles.set (ihash kv.key % nReduce) (tempfile ++ codec.encode kv)) rest
      | none => none

/-- Rename the temporary files of a map task, from bucket `i` on. -/
def renameBuckets (index : Nat) : Files → Nat → List GoString → Files
  | files, _, [] => files
  | files, i, tempfile :: rest =>
      renameBuckets index (Function.update files (intermediateName index i) (some tempfile)) (i + 1)
        rest

/-- `HandleMap`, up to its report. -/
def handleMap (job : Job) (reply : TaskReply) (files : Files) : Option Files :=
  match files reply.task.mapfile with
  | none => none
  | some content =>
      (writeBuckets job.toCodec reply.nReduce (List.replicate reply.nReduce [])
        (job.mapf reply.task.mapfile content)).map (renameBuckets reply.task.index files 0)

/-- The pairs of one bucket, in the order in which they were emitted. -/
def bucketOf (nReduce : Nat) (kva : List KeyValue) (bucket : Nat) : List KeyValue :=
  kva.filter fun kv => ihash kv.key % nReduce = bucket

/-- The encoded pairs of one bucket. -/
def encodedBucket (codec : Codec) (nReduce : Nat) (kva : List KeyValue) (bucket : Nat) : GoString :=
  (bucketOf nReduce kva bucket).flatMap codec.encode

section MapTasks

variable {codec : Codec} {nReduce : Nat}

/-- When the loop succeeds, every temporary file has got the pairs of its bucket. -/
theorem write_buckets_spec {tempfiles result : List GoString} {kva : List KeyValue}
    (h : writeBuckets codec nReduce tempfiles kva = some result) :
    result.length = tempfiles.length ∧
      ∀ bucket tempfile, tempfiles[bucket]? = some tempfile →
        result[bucket]? = some (tempfile ++ encodedBucket codec nReduce kva bucket) := by
  induction kva generalizing tempfiles with
  | nil =>
      cases h
      exact ⟨rfl, fun bucket tempfile hlookup => by simpa [encodedBucket, bucketOf] using hlookup⟩
  | cons kv rest ih =>
      rw [writeBuckets] at h
      split at h
      · rename_i written hwritten
        obtain ⟨hlength, hbuckets⟩ := ih h
        refine ⟨by simpa using hlength, ?_⟩
        intro bucket tempfile hlookup
        by_cases heq : ihash kv.key % nReduce = bucket
        · subst heq
          obtain rfl := Option.some.inj (hwritten.symm.trans hlookup)
          have hlt := (List.getElem?_eq_some_iff.mp hlookup).1
          rw [hbuckets _ _ (List.getElem?_set_self hlt)]
          simp [encodedBucket, bucketOf]
        · have hkept : (tempfiles.set (ihash kv.key % nReduce)
              (written ++ codec.encode kv))[bucket]? = some tempfile := by
            rw [List.getElem?_set_ne heq]
            exact hlookup
          rw [hbuckets _ _ hkept]
          simp [encodedBucket, bucketOf, heq]
      · cases h

/-- With at least one bucket the loop never indexes outside the list of files. -/
theorem write_buckets_succeeds (hpos : 0 < nReduce) {tempfiles : List GoString}
    (hlength : tempfiles.length = nReduce) (kva : List KeyValue) :
    ∃ result, writeBuckets codec nReduce tempfiles kva = some result := by
  induction kva generalizing tempfiles with
  | nil => exact ⟨tempfiles, rfl⟩
  | cons kv rest ih =>
      have hlt : ihash kv.key % nReduce < tempfiles.length := by
        rw [hlength]
        exact Nat.mod_lt _ hpos
      rw [writeBuckets, List.getElem?_eq_getElem hlt]
      exact ih (by simpa using hlength)

/-- The buckets of a map task. -/
theorem write_buckets_replicate {result : List GoString} {kva : List KeyValue}
    (h : writeBuckets codec nReduce (List.replicate nReduce []) kva = some result) :
    result = (List.range nReduce).map (encodedBucket codec nReduce kva) := by
  obtain ⟨hlength, hbuckets⟩ := write_buckets_spec h
  rw [List.length_replicate] at hlength
  refine List.ext_getElem? fun bucket => ?_
  by_cases hlt : bucket < nReduce
  · rw [hbuckets bucket [] (by simp [hlt])]
    simp [hlt]
  · rw [List.getElem?_eq_none (by omega), List.getElem?_eq_none (by simpa using hlt)]

/-- The buckets before the first renamed one are left alone. -/
theorem rename_buckets_of_lt {index i bucket : Nat} {files : Files} {tempfiles : List GoString}
    (h : bucket < i) :
    renameBuckets index files i tempfiles (intermediateName index bucket) =
      files (intermediateName index bucket) := by
  induction tempfiles generalizing files i with
  | nil => rfl
  | cons tempfile rest ih =>
      have hne : intermediateName index bucket ≠ intermediateName index i :=
        fun heq => h.ne (intermediate_name_inj heq).2
      rw [renameBuckets, ih (Nat.lt_succ_of_lt h), Function.update_of_ne hne]

/-- A renamed bucket is found under its name. -/
theorem rename_buckets_mem {index i bucket : Nat} {files : Files} {tempfiles : List GoString}
    {tempfile : GoString} (h : tempfiles[bucket]? = some tempfile) :
    renameBuckets index files i tempfiles (intermediateName index (i + bucket)) =
      some tempfile := by
  induction tempfiles generalizing files i bucket with
  | nil => cases h
  | cons head rest ih =>
      rw [renameBuckets]
      cases bucket with
      | zero =>
          obtain rfl := Option.some.inj h
          exact (rename_buckets_of_lt (Nat.lt_succ_self i)).trans (Function.update_self _ _ _)
      | succ bucket =>
          rw [show i + (bucket + 1) = i + 1 + bucket by omega]
          exact ih h

/-- Every bucket of a map task is found under its name. -/
theorem rename_buckets_range {index bucket : Nat} {files : Files} (content : Nat → GoString)
    (h : bucket < nReduce) :
    renameBuckets index files 0 ((List.range nReduce).map content)
      (intermediateName index bucket) = some (content bucket) := by
  rw [← Nat.zero_add bucket]
  exact rename_buckets_mem (by simp [h])

/-- Other files are left alone. -/
theorem rename_buckets_of_ne {index i : Nat} {files : Files} {tempfiles : List GoString}
    {name : GoString}
    (h : ∀ bucket, bucket < tempfiles.length → name ≠ intermediateName index (i + bucket)) :
    renameBuckets index files i tempfiles name = files name := by
  induction tempfiles generalizing files i with
  | nil => rfl
  | cons tempfile rest ih =>
      have hrest : ∀ bucket, bucket < rest.length →
          name ≠ intermediateName index (i + 1 + bucket) := by
        intro bucket hlt
        rw [Nat.add_assoc, Nat.add_comm 1]
        exact h (bucket + 1) (Nat.succ_lt_succ hlt)
      have hfirst : name ≠ intermediateName index i := h 0 (Nat.zero_lt_succ _)
      rw [renameBuckets, ih hrest, Function.update_of_ne hfirst]

/-- A map task that can read its file leaves one encoded bucket for each reduce task. -/
theorem handle_map_eq {job : Job} (hpos : 0 < nReduce) {task : Task} {files : Files}
    {content : GoString} (hread : files task.mapfile = some content) :
    handleMap job ⟨task, nReduce⟩ files = some (renameBuckets task.index files 0
      ((List.range nReduce).map
        (encodedBucket job.toCodec nReduce (job.mapf task.mapfile content)))) := by
  obtain ⟨buckets, hbuckets⟩ := write_buckets_succeeds hpos (List.length_replicate (a := []))
    (job.mapf task.mapfile content)
  simp only [handleMap, hread]
  rw [hbuckets, Option.map_some, write_buckets_replicate hbuckets]

end MapTasks

/-! ## Reading the intermediate files -/

/-- The loop that decodes a file until an error. -/
def decodeLoop (codec : Codec) : Nat → GoString → List KeyValue
  | 0, _ => []
  | fuel + 1, stream =>
      match codec.decode stream with
      | some (kv, rest) => kv :: decodeLoop codec fuel rest
      | none => []

/-- The pairs of a file. Every round makes the stream shorter, so its length is enough fuel. -/
def decodeAll (codec : Codec) (stream : GoString) : List KeyValue :=
  decodeLoop codec stream.length stream

/-- Read the intermediate files of a reduce task. -/
def readIntermediate (codec : Codec) (files : Files) :
    List GoString → List KeyValue → Option (List KeyValue)
  | [], kva => some kva
  | filename :: rest, kva =>
      match files filename with
      | some stream => readIntermediate codec files rest (kva ++ decodeAll codec stream)
      | none => none

section Reading

variable {codec : Codec}

/-- More fuel than the length of the stream changes nothing. -/
theorem decode_loop_fuel {fuel : Nat} {stream : GoString} (h : stream.length ≤ fuel) :
    decodeLoop codec fuel stream = decodeAll codec stream := by
  induction fuel using Nat.strong_induction_on generalizing stream with
  | _ fuel ih =>
      cases hdecode : codec.decode stream with
      | none =>
          have hnone : ∀ fuel, decodeLoop codec fuel stream = [] := by
            intro fuel
            cases fuel with
            | zero => rfl
            | succ fuel => rw [decodeLoop, hdecode]
          rw [hnone, decodeAll, hnone]
      | some result =>
          obtain ⟨kv, rest⟩ := result
          have hshorter := codec.decode_shorter stream kv rest hdecode
          obtain ⟨length, hlength⟩ := Nat.exists_eq_succ_of_ne_zero
            (Nat.ne_of_gt (Nat.zero_lt_of_lt hshorter))
          obtain ⟨more, rfl⟩ := Nat.exists_eq_succ_of_ne_zero (Nat.ne_of_gt
            (Nat.lt_of_lt_of_le (Nat.zero_lt_of_lt hshorter) h))
          rw [decodeAll, hlength, decodeLoop, decodeLoop, hdecode]
          dsimp only
          rw [ih more (Nat.lt_succ_self more) (by omega), ih length (by omega) (by omega)]

/-- The loop on a stream, without fuel. -/
theorem decode_all_eq (stream : GoString) :
    decodeAll codec stream =
      match codec.decode stream with
      | some (kv, rest) => kv :: decodeAll codec rest
      | none => [] := by
  rw [← decode_loop_fuel (Nat.le_succ stream.length), decodeLoop]
  cases hdecode : codec.decode stream with
  | none => rfl
  | some result =>
      obtain ⟨kv, rest⟩ := result
      have hshorter := codec.decode_shorter stream kv rest hdecode
      dsimp only
      rw [decode_loop_fuel hshorter.le]

/-- Decoding gives back what each encoded pair decodes to, in their order. -/
theorem decode_all_map {kva : List KeyValue} {decoded : KeyValue → KeyValue}
    (h : ∀ kv ∈ kva, ∀ rest, codec.decode (codec.encode kv ++ rest) = some (decoded kv, rest)) :
    decodeAll codec (kva.flatMap codec.encode) = kva.map decoded := by
  induction kva with
  | nil => rfl
  | cons kv rest ih =>
      rw [List.flatMap_cons, decode_all_eq, h kv List.mem_cons_self]
      dsimp only
      rw [ih fun other hother => h other (List.mem_cons_of_mem _ hother), List.map_cons]

/-- Decoding gives back the pairs that were encoded, in their order. -/
theorem decode_all_encoded {kva : List KeyValue} (h : ∀ kv ∈ kva, codec.RoundTrips kv) :
    decodeAll codec (kva.flatMap codec.encode) = kva := by
  have hdecoded : decodeAll codec (kva.flatMap codec.encode) = kva.map id := decode_all_map h
  rw [hdecoded, List.map_id]

/-- Reading the intermediate files gives their pairs one after the other. -/
theorem read_intermediate_eq {files : Files} {names : List GoString} {streams : List GoString}
    (h : names.map files = streams.map some) (kva : List KeyValue) :
    readIntermediate codec files names kva = some (kva ++ streams.flatMap (decodeAll codec)) := by
  induction names generalizing streams kva with
  | nil =>
      obtain rfl := List.map_eq_nil_iff.mp h.symm
      simp [readIntermediate]
  | cons name rest ih =>
      cases streams with
      | nil => cases h
      | cons stream streams =>
          obtain ⟨hfile, hrest⟩ := List.cons.inj h
          rw [readIntermediate, hfile]
          dsimp only
          rw [ih hrest, List.flatMap_cons, List.append_assoc]

/-- Reading depends only on the files that are read. -/
theorem read_intermediate_congr {files files' : Files} {names : List GoString}
    (h : ∀ name ∈ names, files' name = files name) (kva : List KeyValue) :
    readIntermediate codec files' names kva = readIntermediate codec files names kva := by
  induction names generalizing kva with
  | nil => rfl
  | cons name rest ih =>
      rw [readIntermediate, readIntermediate, h name List.mem_cons_self]
      cases files name with
      | none => rfl
      | some stream => exact ih (fun other hother => h other (List.mem_cons_of_mem _ hother)) _

end Reading

end DistributedLabs.Mr
