import DistributedLabs.Library.Fields
import DistributedLabs.Mr.Varying

/-!
# The applications

The word count of `mrapps/wc.go` and the index of `mrapps/indexer.go`, run as jobs of the concurrent
system. The words of a file are its maximal runs of letters. The replacement character is not a
letter, so that a word is valid UTF-8 also in a file that is not, and comes back from the
intermediate files as it was. `word_count_exact` and `index_exact` say, for any bytes in the input
files, what is in the output files of a finished job. The index goes over the words of a file with
`range` over a Go map, which takes them in another order each time; so a `RangeOrder` is chosen for
every execution of a map task.

`isLetter` is `unicode.IsLetter`; the results need of its tables only that `U+FFFD` is not a letter.
-/

namespace DistributedLabs.Mr

/-- `sort.Strings`. -/
def sortStrings (values : List GoString) : List GoString :=
  values.insertionSort (· ≤ ·)

/-- The order of the strings does not matter for the sorted list. -/
theorem sort_strings_eq {values values' : List GoString} (h : values.Perm values') :
    sortStrings values = sortStrings values' := by
  refine List.Perm.eq_of_pairwise ?_ (List.pairwise_insertionSort _ _)
    (List.pairwise_insertionSort _ _)
    ((List.perm_insertionSort _ _).trans (h.trans (List.perm_insertionSort _ _).symm))
  exact fun first second _ _ hle hge => le_antisymm hle hge

/-! ## Word count -/

/-- `Map` of `wc.go`. -/
def wcMap (isLetter : Nat → Bool) (_filename contents : GoString) : List KeyValue :=
  (Utf8.fields isLetter contents).map fun w => ⟨w, ascii ['1']⟩

/-- `Reduce` of `wc.go`. -/
def wcReduce (_key : GoString) (values : List GoString) : GoString :=
  decimal values.length

/-- The word count, with the encoding and the sort of `base`. -/
def wc (base : Job) (isLetter : Nat → Bool) : Job :=
  { base with mapf := wcMap isLetter, reducef := wcReduce }

/-- The words of the input files, one file after the other. -/
def inputWords (isLetter : Nat → Bool) (filenames : List GoString) (input : Files) :
    List GoString :=
  filenames.flatMap fun name => Utf8.fields isLetter ((input name).getD [])

section WordCount

variable {isLetter : Nat → Bool}

/-- The count does not depend on the order of the values. -/
theorem wc_reduce_order_independent : OrderIndependent wcReduce := by
  intro key values values' hperm
  exact congrArg decimal hperm.length_eq

/-- The pairs of the word count are valid. -/
theorem wc_map_valid (hletter : isLetter 0xFFFD = false) (filename : GoString)
    {contents : GoString} {kv : KeyValue}
    (h : kv ∈ wcMap isLetter filename contents) : kv.Valid := by
  obtain ⟨w, hw, rfl⟩ := List.mem_map.mp h
  exact ⟨Utf8.valid_of_mem_fields hletter hw, show Utf8.Valid (ascii ['1']) by decide⟩

/-- The pairs of the word count are the words. -/
theorem wc_pairs_eq (filenames : List GoString) (input : Files) :
    (filenames.flatMap fun name => wcMap isLetter name ((input name).getD [])) =
      (inputWords isLetter filenames input).map fun w => ⟨w, ascii ['1']⟩ := by
  rw [inputWords, List.map_flatMap]
  rfl

/-- A word has as many values as it has occurrences. -/
theorem wc_values_length (words : List GoString) (key : GoString) :
    (((words.map fun w => (⟨w, ascii ['1']⟩ : KeyValue)).filter fun kv => kv.key = key).map
      KeyValue.value).length = words.count key := by
  rw [List.length_map, List.filter_map, List.length_map, List.count_eq_length_filter]
  refine congrArg (fun list : List GoString => list.length) (List.filter_congr fun w _ => ?_)
  simp [beq_eq_decide]

end WordCount

/-- When the word count is done in a run with accurate timeouts, every output file has the words of
its hash in increasing order, each with the number of its occurrences in all input files. -/
theorem word_count_exact {W : Type} [DecidableEq W] (base : Job) (hjson : base.toCodec.Json)
    (isLetter : Nat → Bool) (hletter : isLetter 0xFFFD = false)
    (glob : GoString → Option (List GoString)) (patterns : List GoString) (nReduce : Nat)
    (c : Coordinator) (input : Files) (actions : List (Action W)) (σ : System W)
    (hmake : makeCoordinator glob patterns nReduce = some c) (hpos : 1 ≤ nReduce)
    (hseparate : InputsSeparate c)
    (htimeouts : (system W (wc base isLetter) c input).Meets AccurateTimeout actions)
    (hrun : (system W (wc base isLetter) c input).run actions = some σ)
    (hdone : σ.coordinator.done = true) :
    ∀ index < nReduce, ∃ records : List Record,
      σ.files (outputName index) = some (render records) ∧
      records.Pairwise (fun first second => first.key < second.key) ∧
      ∀ record, record ∈ records ↔ ihash record.key % nReduce = index ∧
        record.key ∈ inputWords isLetter c.filename input ∧
        record.output = decimal ((inputWords isLetter c.filename input).count record.key) := by
  have hvalid : ∀ name ∈ c.filename, ∀ content, input name = some content →
      ∀ kv ∈ (wc base isLetter).mapf name content, (wc base isLetter).RoundTrips kv := by
    intro name _ content _ kv hkv
    exact hjson.inverts kv (wc_map_valid hletter name hkv)
  have hfiles := (finished_files hmake hpos hseparate hvalid htimeouts hrun hdone).2
  have hexact := outputs_exact wc_reduce_order_independent hfiles
  intro index hindex
  obtain ⟨records, hfile, hincreasing, hrecords⟩ := hexact index hindex
  refine ⟨records, hfile, hincreasing, fun record => ?_⟩
  have hpairs : (c.filename.flatMap fun name =>
      (wc base isLetter).mapf name ((input name).getD [])) = _ := wc_pairs_eq c.filename input
  rw [hrecords, hpairs]
  have houtput : (wc base isLetter).reducef record.key
      ((((inputWords isLetter c.filename input).map fun w => (⟨w, ascii ['1']⟩ : KeyValue)).filter
        fun kv => kv.key = record.key).map KeyValue.value) =
      decimal ((inputWords isLetter c.filename input).count record.key) :=
    congrArg decimal (wc_values_length _ _)
  rw [houtput]
  simp only [List.mem_map, exists_exists_and_eq_and, exists_eq_right]

/-- The letters of ASCII. -/
def asciiLetter (code : Nat) : Bool :=
  decide (65 ≤ code ∧ code ≤ 90) || decide (97 ≤ code ∧ code ≤ 122)

/-- A directory with one file, which has an invalid byte between two words. -/
def invalidInput : Files :=
  Function.update (fun _ => none) (ascii ['a']) (some ([98, 255, 98].map byteOf))

/-- The words of `invalidInput` are counted although its file is not valid UTF-8. -/
theorem word_count_exact_invalid :
    ∃ σ, (system TwoWorkers (wc lengthCount asciiLetter) (initTasks [ascii ['a']] 1)
        invalidInput).run crashedReducer = some σ ∧ σ.coordinator.done = true ∧
      ∃ records : List Record, σ.files (outputName 0) = some (render records) ∧
        (⟨ascii ['b'], ascii ['2']⟩ : Record) ∈ records := by
  obtain ⟨σ, hrun, hdone⟩ := (system TwoWorkers (wc lengthCount asciiLetter)
    (initTasks [ascii ['a']] 1) invalidInput).exists_run_of_check crashedReducer
      (fun σ => σ.coordinator.done = true) (by decide +kernel)
  obtain ⟨records, hfile, -, hrecords⟩ := word_count_exact lengthCount go_json asciiLetter rfl
    (fun pattern => some [pattern]) [ascii ['a']] 1 (initTasks [ascii ['a']] 1) invalidInput
    crashedReducer σ rfl (by decide) inputs_separate_one
    (Machine.meets_of_check (by decide +kernel)) hrun hdone 0 (by decide)
  exact ⟨σ, hrun, hdone, records, hfile, (hrecords _).mpr (by decide)⟩

/-! ## Index -/

/-- An order in which `range` visits the words of a map. -/
structure RangeOrder where
  visit : List GoString → List GoString
  perm : ∀ words, (visit words).Perm words

/-- `Map` of `indexer.go`, in an execution in which `range` takes the words in the given order. -/
def indexerMap (isLetter : Nat → Bool) (order : RangeOrder) (document value : GoString) :
    List KeyValue :=
  (order.visit (Utf8.fields isLetter value).dedup).map fun w => ⟨w, document⟩

/-- `Reduce` of `indexer.go`. -/
def indexerReduce (_key : GoString) (values : List GoString) : GoString :=
  decimal values.length ++ ascii [' '] ++ List.intercalate (ascii [',']) (sortStrings values)

/-- The index, with the encoding and the sort of `base`. -/
def indexer (base : Job) (isLetter : Nat → Bool) (order : RangeOrder) : Job :=
  { base with mapf := indexerMap isLetter order, reducef := indexerReduce }

/-- The input files that have a word. -/
def filesWith (isLetter : Nat → Bool) (filenames : List GoString) (input : Files)
    (w : GoString) : List GoString :=
  filenames.filter fun name => w ∈ Utf8.fields isLetter ((input name).getD [])

section Index

variable {isLetter : Nat → Bool} {order : RangeOrder}

/-- The list of files does not depend on the order of the values. -/
theorem indexer_reduce_order_independent : OrderIndependent indexerReduce := by
  intro key values values' hperm
  rw [indexerReduce, indexerReduce, hperm.length_eq, sort_strings_eq hperm]

/-- The pairs of the index are valid, if the name of the file is. -/
theorem indexer_map_valid (hletter : isLetter 0xFFFD = false) {document value : GoString}
    (hdocument : Utf8.Valid document) {kv : KeyValue}
    (h : kv ∈ indexerMap isLetter order document value) : kv.Valid := by
  obtain ⟨w, hw, rfl⟩ := List.mem_map.mp h
  have hword := List.mem_dedup.mp ((order.perm _).mem_iff.mp hw)
  exact ⟨Utf8.valid_of_mem_fields hletter hword, hdocument⟩

/-- The executions of `Map` emit the same pairs, in the orders of their `range`. -/
theorem indexer_similar (base : Job) (order reference : RangeOrder) :
    (indexer base isLetter order).Similar (indexer base isLetter reference) where
  codec := rfl
  reducef := rfl
  mapf := fun _ _ => ((order.perm _).trans (reference.perm _).symm).map _

/-- A file gives its name once for each of its words. -/
theorem indexer_map_values (document value key : GoString) :
    ((indexerMap isLetter order document value).filter fun kv => kv.key = key).map KeyValue.value =
      if key ∈ Utf8.fields isLetter value then [document] else [] := by
  have hnodup : (order.visit (Utf8.fields isLetter value).dedup).Nodup :=
    (order.perm _).nodup_iff.mpr (List.nodup_dedup _)
  have hmem : key ∈ order.visit (Utf8.fields isLetter value).dedup ↔
      key ∈ Utf8.fields isLetter value :=
    (order.perm _).mem_iff.trans List.mem_dedup
  rw [indexerMap, List.filter_map, List.map_map]
  have hwords : (order.visit (Utf8.fields isLetter value).dedup).filter
      ((fun kv : KeyValue => decide (kv.key = key)) ∘ fun w => ⟨w, document⟩) =
        if key ∈ Utf8.fields isLetter value then [key] else [] := by
    show (order.visit (Utf8.fields isLetter value).dedup).filter (fun w => decide (w = key)) = _
    rw [List.filter_eq, hnodup.count]
    simp only [hmem]
    split <;> rfl
  rw [hwords]
  split <;> rfl

variable (order) in
/-- The values of a word are the files that have it. -/
theorem index_values_eq (filenames : List GoString) (input : Files) (key : GoString) :
    ((filenames.flatMap fun name =>
      indexerMap isLetter order name ((input name).getD [])).filter fun kv => kv.key = key).map
        KeyValue.value = filesWith isLetter filenames input key := by
  induction filenames with
  | nil => rfl
  | cons name rest ih =>
      rw [List.flatMap_cons, List.filter_append, List.map_append, ih, indexer_map_values,
        filesWith, filesWith, List.filter_cons]
      by_cases hword : key ∈ Utf8.fields isLetter ((input name).getD [])
      · simp [hword]
      · simp [hword]

/-- A word has a pair exactly when a file has it. -/
theorem index_mem_iff (filenames : List GoString) (input : Files) (key : GoString) :
    (∃ kv ∈ filenames.flatMap fun name => indexerMap isLetter order name ((input name).getD []),
      kv.key = key) ↔ filesWith isLetter filenames input key ≠ [] := by
  rw [← index_values_eq order filenames input key, Ne, List.map_eq_nil_iff,
    List.filter_eq_nil_iff]
  simp only [decide_eq_true_eq, not_forall, not_not, exists_prop]

end Index

/-- The words in the order of their first occurrence. -/
def RangeOrder.forward : RangeOrder where
  visit := id
  perm := List.Perm.refl

/-- When the index is done in a run with accurate timeouts, whatever the order in which each
execution of a map task goes over its words, every output file has the words of its hash in
increasing order, each with the number and the sorted names of the input files that have it. -/
theorem index_exact {W : Type} [DecidableEq W] (base : Job) (hjson : base.toCodec.Json)
    (isLetter : Nat → Bool) (hletter : isLetter 0xFFFD = false)
    (glob : GoString → Option (List GoString)) (patterns : List GoString) (nReduce : Nat)
    (c : Coordinator) (input : Files) (actions : List (Action W × RangeOrder)) (σ : System W)
    (hmake : makeCoordinator glob patterns nReduce = some c) (hpos : 1 ≤ nReduce)
    (hseparate : InputsSeparate c) (hnames : ∀ name ∈ c.filename, Utf8.Valid name)
    (htimeouts : (varyingSystem W (indexer base isLetter) c input).Meets
      (fun σ action => AccurateTimeout σ action.1) actions)
    (hrun : (varyingSystem W (indexer base isLetter) c input).run actions = some σ)
    (hdone : σ.coordinator.done = true) :
    ∀ index < nReduce, ∃ records : List Record,
      σ.files (outputName index) = some (render records) ∧
      records.Pairwise (fun first second => first.key < second.key) ∧
      ∀ record, record ∈ records ↔ ihash record.key % nReduce = index ∧
        filesWith isLetter c.filename input record.key ≠ [] ∧
        record.output = decimal (filesWith isLetter c.filename input record.key).length ++
          ascii [' '] ++ List.intercalate (ascii [','])
            (sortStrings (filesWith isLetter c.filename input record.key)) := by
  have hvalid : ∀ name ∈ c.filename, ∀ content, input name = some content →
      ∀ kv ∈ (indexer base isLetter .forward).mapf name content,
        (indexer base isLetter .forward).RoundTrips kv := by
    intro name hname content _ kv hkv
    exact hjson.inverts kv (indexer_map_valid hletter (hnames name hname) hkv)
  have hfiles := varying_finished_files (fun order => indexer_similar base order .forward)
    indexer_reduce_order_independent hmake hpos hseparate hvalid htimeouts hrun hdone
  have hexact := outputs_exact indexer_reduce_order_independent hfiles
  intro index hindex
  obtain ⟨records, hfile, hincreasing, hrecords⟩ := hexact index hindex
  refine ⟨records, hfile, hincreasing, fun record => ?_⟩
  rw [hrecords]
  show _ ∧ (∃ kv ∈ c.filename.flatMap fun name =>
    indexerMap isLetter .forward name ((input name).getD []), kv.key = record.key) ∧
      record.output = indexerReduce record.key (((c.filename.flatMap fun name =>
        indexerMap isLetter .forward name ((input name).getD [])).filter
          fun kv => kv.key = record.key).map KeyValue.value) ↔ _
  rw [index_mem_iff, index_values_eq]
  rfl

/-- The words in the reverse order. -/
def RangeOrder.backward : RangeOrder where
  visit := List.reverse
  perm := List.reverse_perm

/-- A directory with one file that has two words, with an invalid byte between them. -/
def twoWords : Files :=
  Function.update (fun _ => none) (ascii ['a']) (some ([98, 255, 99].map byteOf))

/-- Both workers execute the map task, the second one more than 40 seconds after the first and in
the other order, and its intermediate file replaces that of the first. Then the second performs the
reduce task. -/
def mappedTwice : List (Action TwoWorkers × RangeOrder) :=
  [.assign .first 1 1, .work .first].map (·, .forward) ++
    [.assign .second 40000000002 40000000002, .work .second].map (·, .backward) ++
    [.work .first, .work .first, .work .second, .work .second, .report .second, .report .first,
      .assign .second 40000000003 40000000003, .assign .second 40000000004 40000000004,
      .work .second, .work .second, .work .second, .work .second, .report .second,
      .assign .second 40000000005 40000000005].map (·, .forward)

/-- The keys of an intermediate file, in their order. -/
def keysIn (text : GoString) : List GoString :=
  (decodeAll lengthCount.toCodec text).map KeyValue.key

/-- In the fifth step of `mappedTwice` the first worker renames its intermediate file, which
is later replaced by one in the other order; the index has both words. -/
theorem index_exact_mapped_twice :
    ∃ ρ σ, (varyingSystem TwoWorkers (indexer lengthCount asciiLetter) (initTasks [ascii ['a']] 1)
        twoWords).run (mappedTwice.take 5) = some ρ ∧
      (ρ.files (intermediateName 0 0)).map keysIn = some [ascii ['b'], ascii ['c']] ∧
      (varyingSystem TwoWorkers (indexer lengthCount asciiLetter) (initTasks [ascii ['a']] 1)
        twoWords).run mappedTwice = some σ ∧ σ.coordinator.done = true ∧
      (σ.files (intermediateName 0 0)).map keysIn = some [ascii ['c'], ascii ['b']] ∧
      ∃ records : List Record, σ.files (outputName 0) = some (render records) ∧
        (⟨ascii ['b'], ascii ['1', ' ', 'a']⟩ : Record) ∈ records ∧
        (⟨ascii ['c'], ascii ['1', ' ', 'a']⟩ : Record) ∈ records := by
  obtain ⟨ρ, hbefore, hfirst⟩ := (varyingSystem TwoWorkers (indexer lengthCount asciiLetter)
    (initTasks [ascii ['a']] 1) twoWords).exists_run_of_check (mappedTwice.take 5)
      (fun σ => (σ.files (intermediateName 0 0)).map keysIn = some [ascii ['b'], ascii ['c']])
      (by decide +kernel)
  obtain ⟨σ, hrun, hdone, hsecond⟩ := (varyingSystem TwoWorkers (indexer lengthCount asciiLetter)
    (initTasks [ascii ['a']] 1) twoWords).exists_run_of_check mappedTwice
      (fun σ => σ.coordinator.done = true ∧
        (σ.files (intermediateName 0 0)).map keysIn = some [ascii ['c'], ascii ['b']])
      (by decide +kernel)
  obtain ⟨records, hfile, -, hrecords⟩ := index_exact lengthCount go_json asciiLetter rfl
    (fun pattern => some [pattern]) [ascii ['a']] 1 (initTasks [ascii ['a']] 1) twoWords
    mappedTwice σ rfl (by decide) inputs_separate_one (by decide)
    (Machine.meets_of_check (by decide +kernel)) hrun hdone 0 (by decide)
  exact ⟨ρ, σ, hbefore, hfirst, hrun, hdone, hsecond, records, hfile, (hrecords _).mpr (by decide),
    (hrecords _).mpr (by decide)⟩

end DistributedLabs.Mr
