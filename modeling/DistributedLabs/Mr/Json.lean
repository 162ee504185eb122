import DistributedLabs.Library.JsonString
import DistributedLabs.Mr.Worker
import Mathlib.Data.List.Sort

/-!
# What the intermediate files keep

A map task chooses the bucket of a pair by the bytes of its key, and writes the pair as JSON, which
is text: `Encode` replaces what is not UTF-8 by `U+FFFD`. A reduce task therefore reads, in the
order in which they were emitted, the pairs of its bucket with their invalid bytes replaced,
`read_bucket_eq`. These are the emitted pairs exactly when all of them are valid UTF-8. Keys that
differ only in invalid bytes are one key after decoding, and may have gone to different buckets.

`goJson` is the encoding itself, for what `Encode` writes, and `lengthCount` is a job over it that
counts the input files by their length.
-/

namespace DistributedLabs.Mr

/-- The key and the value are valid UTF-8. -/
def KeyValue.Valid (kv : KeyValue) : Prop := Utf8.Valid kv.key ∧ Utf8.Valid kv.value

instance (kv : KeyValue) : Decidable kv.Valid := inferInstanceAs (Decidable (_ ∧ _))

/-- Replace the invalid bytes of the key and of the value. -/
def KeyValue.toValid (kv : KeyValue) : KeyValue := ⟨Utf8.toValid kv.key, Utf8.toValid kv.value⟩

/-- What is known of `encoding/json`: `Encode` replaces invalid bytes, and `Decode` inverts `Encode`
on valid UTF-8. -/
structure Codec.Json (codec : Codec) : Prop where
  replaces : ∀ kv rest,
    codec.decode (codec.encode kv ++ rest) = codec.decode (codec.encode kv.toValid ++ rest)
  inverts : ∀ kv, kv.Valid → codec.RoundTrips kv

section Files

variable {kv : KeyValue}

/-- After the replacement a pair is valid. -/
theorem KeyValue.valid_to_valid (kv : KeyValue) : kv.toValid.Valid :=
  ⟨Utf8.valid_to_valid kv.key, Utf8.valid_to_valid kv.value⟩

/-- The replacement changes nothing exactly when the pair is valid. -/
theorem KeyValue.to_valid_eq_iff : kv.toValid = kv ↔ kv.Valid := by
  obtain ⟨key, value⟩ := kv
  rw [KeyValue.toValid, KeyValue.mk.injEq, Utf8.to_valid_eq_iff, Utf8.to_valid_eq_iff,
    KeyValue.Valid]

/-- An encoded pair decodes to the pair with its invalid bytes replaced. -/
theorem Codec.Json.decode_encode {codec : Codec} (hjson : codec.Json) (kv : KeyValue)
    (rest : GoString) : codec.decode (codec.encode kv ++ rest) = some (kv.toValid, rest) := by
  rw [hjson.replaces, hjson.inverts kv.toValid kv.valid_to_valid rest]

variable {job : Job} {nReduce : Nat} {task : Task} {files : Files} {content : GoString}

/-- The pairs that a reduce task reads from one map task. -/
def readBucket (job : Job) (task : Task) (files : Files) (bucket : Nat) :
    Option (List KeyValue) :=
  readIntermediate job.toCodec files [intermediateName task.index bucket] []

/-- A reduce task reads the pairs of its bucket with their invalid bytes replaced. -/
theorem read_bucket_eq (hjson : job.toCodec.Json) (hpos : 0 < nReduce)
    (hread : files task.mapfile = some content) :
    ∃ files', handleMap job ⟨task, nReduce⟩ files = some files' ∧
      ∀ bucket < nReduce, readBucket job task files' bucket =
        some ((bucketOf nReduce (job.mapf task.mapfile content) bucket).map KeyValue.toValid) := by
  refine ⟨_, handle_map_eq hpos hread, ?_⟩
  intro bucket hlt
  have hfile : [intermediateName task.index bucket].map (renameBuckets task.index files 0
      ((List.range nReduce).map
        (encodedBucket job.toCodec nReduce (job.mapf task.mapfile content)))) =
      [encodedBucket job.toCodec nReduce (job.mapf task.mapfile content) bucket].map some := by
    rw [List.map_singleton, rename_buckets_range _ hlt, List.map_singleton]
  rw [readBucket, read_intermediate_eq hfile, List.nil_append, List.flatMap_singleton,
    encodedBucket, decode_all_map fun kv _ => hjson.decode_encode kv]

/-- Every pair is in the bucket of its key. -/
theorem mem_bucket_of {kva : List KeyValue} (hkv : kv ∈ kva) :
    kv ∈ bucketOf nReduce kva (ihash kv.key % nReduce) :=
  List.mem_filter.mpr ⟨hkv, decide_eq_true rfl⟩

/-- The replacement changes nothing in a list exactly when all its pairs are valid. -/
theorem map_to_valid_eq_iff {kva : List KeyValue} :
    kva.map KeyValue.toValid = kva ↔ ∀ kv ∈ kva, kv.Valid := by
  have hmap := List.map_inj_left (f := KeyValue.toValid) (g := id) (l := kva)
  rw [List.map_id] at hmap
  rw [hmap]
  exact forall₂_congr fun kv _ => KeyValue.to_valid_eq_iff

/-- The buckets are kept as they are exactly when all pairs are valid. -/
theorem buckets_kept_iff (hpos : 0 < nReduce) {kva : List KeyValue} :
    (∀ bucket < nReduce,
      (bucketOf nReduce kva bucket).map KeyValue.toValid = bucketOf nReduce kva bucket) ↔
      ∀ kv ∈ kva, kv.Valid := by
  constructor
  · intro h kv hkv
    have hbucket := h (ihash kv.key % nReduce) (Nat.mod_lt _ hpos)
    exact map_to_valid_eq_iff.mp hbucket kv (mem_bucket_of hkv)
  · intro h bucket _
    exact map_to_valid_eq_iff.mpr fun kv hkv => h kv (List.mem_filter.mp hkv).1

end Files

/-- The files of a map task give back the pairs of each bucket in order, with their invalid bytes
replaced. This is exactly what was emitted if and only if all pairs are valid UTF-8, and pairs with
valid keys that are equal after decoding went to the same bucket. -/
theorem intermediate_files_keep_valid (job : Job) (hjson : job.toCodec.Json) (nReduce : Nat)
    (hpos : 1 ≤ nReduce) (task : Task) (files : Files) (content : GoString)
    (hread : files task.mapfile = some content) :
    ∃ files', handleMap job ⟨task, nReduce⟩ files = some files' ∧
      (∀ bucket < nReduce, readBucket job task files' bucket =
        some ((bucketOf nReduce (job.mapf task.mapfile content) bucket).map KeyValue.toValid)) ∧
      ((∀ bucket < nReduce, readBucket job task files' bucket =
          some (bucketOf nReduce (job.mapf task.mapfile content) bucket)) ↔
        ∀ kv ∈ job.mapf task.mapfile content, kv.Valid) ∧
      ((∀ kv ∈ job.mapf task.mapfile content, Utf8.Valid kv.key) →
        ∀ bucket < nReduce, ∀ bucket' < nReduce, ∀ kva kva',
          readBucket job task files' bucket = some kva →
          readBucket job task files' bucket' = some kva' →
          ∀ kv ∈ kva, ∀ kv' ∈ kva', kv.key = kv'.key → bucket = bucket') := by
  obtain ⟨files', hmap, hbuckets⟩ := read_bucket_eq hjson hpos hread
  refine ⟨files', hmap, hbuckets, ?_, ?_⟩
  · rw [← buckets_kept_iff hpos]
    refine forall₂_congr fun bucket hlt => ?_
    rw [hbuckets bucket hlt, Option.some_inj]
  · intro hvalid bucket hlt bucket' hlt' kva kva' hkva hkva' kv hkv kv' hkv' hkey
    -- with a valid key a pair that is read has the key with which it was hashed
    have hhash : ∀ {bucket kva kv}, bucket < nReduce →
        readBucket job task files' bucket = some kva → kv ∈ kva →
        ihash kv.key % nReduce = bucket := by
      intro bucket kva kv hlt hkva hkv
      rw [hbuckets bucket hlt] at hkva
      obtain rfl := Option.some.inj hkva
      obtain ⟨emitted, hemitted, rfl⟩ := List.mem_map.mp hkv
      obtain ⟨hmem, hbucket⟩ := List.mem_filter.mp hemitted
      have hkept : emitted.toValid.key = emitted.key := (hvalid emitted hmem).to_valid_eq
      rw [hkept]
      exact of_decide_eq_true hbucket
    rw [← hhash hlt hkva hkv, ← hhash hlt' hkva' hkv', hkey]

/-! ## The encoding -/

/-- Match a text at the start of a stream. -/
def expect (text stream : GoString) : Option GoString :=
  if stream.take text.length = text then some (stream.drop text.length) else none

/-- The line that `Encode` writes. -/
def jsonEncode (kv : KeyValue) : GoString :=
  ascii ['{', '"', 'K', 'e', 'y', '"', ':', '"'] ++ (JsonString.quote kv.key ++
    (ascii ['"', ',', '"', 'V', 'a', 'l', 'u', 'e', '"', ':', '"'] ++
      (JsonString.quote kv.value ++ ascii ['"', '}', '\n'])))

/-- Read such a line. -/
def jsonDecode (stream : GoString) : Option (KeyValue × GoString) := do
  let afterOpen ← expect (ascii ['{', '"', 'K', 'e', 'y', '"', ':', '"']) stream
  let (key, afterKey) ← JsonString.unquote afterOpen
  let beforeValue ← expect (ascii [',', '"', 'V', 'a', 'l', 'u', 'e', '"', ':', '"']) afterKey
  let (value, afterValue) ← JsonString.unquote beforeValue
  let rest ← expect (ascii ['}', '\n']) afterValue
  some (⟨key, value⟩, rest)

/-- A text that stands at the start is matched. -/
theorem expect_append (text rest : GoString) : expect text (text ++ rest) = some rest := by
  simp [expect]

/-- A match leaves a shorter stream. -/
theorem expect_length {text stream rest : GoString} (h : expect text stream = some rest) :
    text.length + rest.length = stream.length := by
  unfold expect at h
  split at h
  · rename_i htake
    obtain rfl := Option.some.inj h
    have hlength := congrArg List.length htake
    rw [List.length_take] at hlength
    rw [List.length_drop]
    omega
  · cases h

/-- Reading a line makes the stream shorter. -/
theorem json_decode_shorter (stream : GoString) (kv : KeyValue) (rest : GoString)
    (h : jsonDecode stream = some (kv, rest)) : rest.length < stream.length := by
  simp only [jsonDecode, Option.bind_eq_bind, Option.bind_eq_some_iff] at h
  obtain ⟨afterOpen, hopen, ⟨key, afterKey⟩, hkey, beforeValue, hcomma, ⟨value, afterValue⟩,
    hvalue, last, hlast, heq⟩ := h
  obtain ⟨-, rfl⟩ := Prod.mk.inj (Option.some.inj heq)
  have hopen := expect_length hopen
  have hkey := JsonString.unquote_shorter hkey
  have hcomma : _ + beforeValue.length = afterKey.length := expect_length hcomma
  have hvalue := JsonString.unquote_shorter hvalue
  have hlast : _ + last.length = afterValue.length := expect_length hlast
  omega

/-- `encoding/json` on the streams that `Encode` writes. -/
def goJson : Codec where
  encode := jsonEncode
  decode := jsonDecode
  decode_shorter := json_decode_shorter

/-- A line that was written is read with the invalid bytes replaced. -/
theorem json_decode_encode (kv : KeyValue) (rest : GoString) :
    jsonDecode (jsonEncode kv ++ rest) = some (kv.toValid, rest) := by
  have hkey := JsonString.unquote_quote kv.key
    (ascii [',', '"', 'V', 'a', 'l', 'u', 'e', '"', ':', '"'] ++ (JsonString.quote kv.value ++
      (ascii ['"', '}', '\n'] ++ rest)))
  have hvalue := JsonString.unquote_quote kv.value (ascii ['}', '\n'] ++ rest)
  have hcomma : ascii ['"', ',', '"', 'V', 'a', 'l', 'u', 'e', '"', ':', '"'] =
      byteOf 34 :: ascii [',', '"', 'V', 'a', 'l', 'u', 'e', '"', ':', '"'] := rfl
  have hclose : ascii ['"', '}', '\n'] = byteOf 34 :: ascii ['}', '\n'] := rfl
  rw [hclose] at hkey
  simp only [jsonDecode, jsonEncode, List.append_assoc, expect_append, hcomma, hclose,
    List.cons_append, Option.bind_eq_bind, Option.bind_some] at hkey hvalue ⊢
  rw [hkey]
  simp only [Option.bind_some, expect_append]
  rw [hvalue]
  simp only [Option.bind_some, expect_append]
  rfl

/-- The encoding behaves as assumed. -/
theorem go_json : goJson.Json where
  replaces := by
    intro kv rest
    show jsonDecode (jsonEncode kv ++ rest) = jsonDecode (jsonEncode kv.toValid ++ rest)
    rw [json_decode_encode, json_decode_encode,
      KeyValue.to_valid_eq_iff.mpr kv.valid_to_valid]
  inverts := by
    intro kv hvalid rest
    show jsonDecode (jsonEncode kv ++ rest) = some (kv, rest)
    rw [json_decode_encode, KeyValue.to_valid_eq_iff.mpr hvalid]

/-- Count the input files by their length. -/
def lengthCount : Job where
  toCodec := goJson
  mapf := fun _ content => [⟨decimal content.length, []⟩]
  reducef := fun _ values => decimal values.length
  sort := List.insertionSort fun first second => first.key ≤ second.key
  sort_perm := List.perm_insertionSort _
  sort_sorted := List.pairwise_insertionSort _

/-- The pairs that the job emits round-trip. -/
theorem length_count_round_trips (name content : GoString) :
    ∀ kv ∈ lengthCount.mapf name content, lengthCount.RoundTrips kv := by
  intro kv hkv
  obtain rfl := List.mem_singleton.mp hkv
  have hdigits : ∀ byte ∈ decimal content.length, byte.val < 0x80 := by
    intro byte hbyte
    have hbounds := mem_decimal hbyte
    omega
  exact go_json.inverts _ ⟨Utf8.valid_of_ascii hdigits, .nil⟩

/-- A job that emits the same pairs for every file. -/
def emitting (kva : List KeyValue) : Job :=
  { lengthCount with mapf := fun _ _ => kva }

/-- A map task. -/
def someTask : Task := { mapfile := ascii ['a'] }

/-- A directory with the input file of the task. -/
def someInput : Files := fun name => if name = ascii ['a'] then some [] else none

/-- A key outside ASCII, a line separator, and characters that JSON escapes. -/
def accents : List KeyValue :=
  [⟨[0xC3, 0xA9].map byteOf, ascii ['"', '<', '\\']⟩,
    ⟨JsonString.lineSeparator 0xA8, ascii ['\t']⟩]

/-- Valid pairs come back as they were emitted. -/
theorem intermediate_files_keep_accents :
    ∃ files', handleMap (emitting accents) ⟨someTask, 2⟩ someInput = some files' ∧
      ∀ bucket < 2, readBucket (emitting accents) someTask files' bucket =
        some (bucketOf 2 accents bucket) := by
  obtain ⟨files', hmap, -, hkept, -⟩ := intermediate_files_keep_valid (emitting accents) go_json 2
    (by decide) someTask someInput [] rfl
  exact ⟨files', hmap, hkept.mpr (by decide)⟩

/-- Two keys of one byte that is not UTF-8. -/
def invalidKeys : List KeyValue :=
  [⟨[byteOf 0xFF], []⟩, ⟨[byteOf 0xFE], []⟩]

/-- Two different keys go to different buckets, and both are read as `U+FFFD`. -/
theorem invalid_keys_collide :
    bucketOf 2 invalidKeys 0 = [⟨[byteOf 0xFF], []⟩] ∧
      bucketOf 2 invalidKeys 1 = [⟨[byteOf 0xFE], []⟩] ∧
      ∃ files', handleMap (emitting invalidKeys) ⟨someTask, 2⟩ someInput = some files' ∧
        readBucket (emitting invalidKeys) someTask files' 0 = some [⟨Utf8.replacement, []⟩] ∧
        readBucket (emitting invalidKeys) someTask files' 1 = some [⟨Utf8.replacement, []⟩] := by
  have hread : someInput someTask.mapfile = some [] := rfl
  have hfiles : ∃ files', handleMap (emitting invalidKeys) ⟨someTask, 2⟩ someInput = some files' ∧
      ∀ bucket < 2, readBucket (emitting invalidKeys) someTask files' bucket =
        some ((bucketOf 2 invalidKeys bucket).map KeyValue.toValid) :=
    read_bucket_eq go_json (by decide) hread
  obtain ⟨files', hmap, hbuckets⟩ := hfiles
  exact ⟨by decide, by decide, files', hmap, hbuckets 0 (by decide), hbuckets 1 (by decide)⟩

end DistributedLabs.Mr
