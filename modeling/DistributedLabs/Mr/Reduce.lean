import DistributedLabs.Library.Loop
import DistributedLabs.Mr.Worker

/-!
# The reduce task

`HandleReduce` goes through the sorted pairs with three loops over indices: the outer loop takes the
runs of equal keys one after the other, the second one looks for the end of a run, and the third one
collects its values. Here they are loops over a state, with every index checked, and the calls of
`reducef` are recorded with their arguments.

The loops come to their end without an index out of range, and their calls and lines are those of
the groups of the pairs, `reduce_loop_eq`; so the task has a list of records (`reduceRecords`), and
`reducef` is called exactly once for every key. `HandleReduce` as a whole is `handleReduce`.
-/

namespace DistributedLabs.Mr

/-- A line of output. -/
structure Record where
  key : GoString
  output : GoString
  deriving DecidableEq

/-- `j < len(kva) && kva[j].Key == kva[i].Key`. -/
def inRun (kva : List KeyValue) (i j : Nat) : Option Bool :=
  if j < kva.length then do
    let kvj ← kva[j]?
    let kvi ← kva[i]?
    some (kvj.key = kvi.key)
  else some false

/-- `j := i + 1; for j < len(kva) && kva[j].Key == kva[i].Key { j++ }`. -/
def findRunEnd (kva : List KeyValue) (i fuel : Nat) : Option Nat :=
  forLoop (inRun kva i) (fun j => some (j + 1)) fuel (i + 1)

/-- The state of the loop that collects the values of a run. -/
structure Collected where
  k : Nat
  values : List GoString

/-- `for k := i; k < j; k++ { values = append(values, kva[k].Value) }`. -/
def collectValues (kva : List KeyValue) (i j fuel : Nat) : Option Collected :=
  forLoop (fun s => some (s.k < j))
    (fun s => do
      let kv ← kva[s.k]?
      some ⟨s.k + 1, s.values ++ [kv.value]⟩)
    fuel ⟨i, []⟩

/-- The state of the outer loop: the index, the calls of `reducef` and the lines so far. -/
structure ReduceState where
  i : Nat
  calls : List (GoString × List GoString)
  records : List Record

/-- The body of the outer loop. -/
def reduceRound (reducef : GoString → List GoString → GoString) (kva : List KeyValue) (fuel : Nat)
    (s : ReduceState) : Option ReduceState := do
  let j ← findRunEnd kva s.i fuel
  let collected ← collectValues kva s.i j fuel
  let kv ← kva[s.i]?
  some ⟨j, s.calls ++ [(kv.key, collected.values)],
    s.records ++ [⟨kv.key, reducef kv.key collected.values⟩]⟩

/-- The outer loop. Each of the loops may test its condition `fuel` times. -/
def reduceLoop (reducef : GoString → List GoString → GoString) (kva : List KeyValue) (fuel : Nat) :
    Option ReduceState :=
  forLoop (fun s => some (s.i < kva.length)) (reduceRound reducef kva fuel) fuel ⟨0, [], []⟩

/-! ## The loops come to their end -/

/-- The arguments of the call of `reducef` for a run. -/
def callOf (run : GoString × List KeyValue) : GoString × List GoString :=
  (run.1, run.2.map KeyValue.value)

/-- The line for a call of `reducef`. -/
def recordOf (reducef : GoString → List GoString → GoString) (call : GoString × List GoString) :
    Record :=
  ⟨call.1, reducef call.1 call.2⟩

section Loops

variable {kva : List KeyValue} {i j fuel : Nat} {first : KeyValue}

/-- The condition of the loop over a run, at an index in range. -/
theorem in_run_eq (hfirst : kva[i]? = some first) (hj : j < kva.length) :
    inRun kva i j = some (decide (kva[j].key = first.key)) := by
  rw [inRun, if_pos hj, List.getElem?_eq_getElem hj, hfirst]
  rfl

/-- The length of the run of `first` from `j` on. -/
def runLength (kva : List KeyValue) (first : KeyValue) (j : Nat) : Nat :=
  ((kva.drop j).takeWhile fun kv => kv.key = first.key).length

/-- An element of the run is followed by the rest of the run. -/
theorem run_length_succ (hj : j < kva.length) (hkey : kva[j].key = first.key) :
    runLength kva first j = runLength kva first (j + 1) + 1 := by
  rw [runLength, List.drop_eq_getElem_cons hj, List.takeWhile_cons_of_pos (by simpa using hkey)]
  rfl

/-- The run has ended where the condition of the loop does not hold. -/
theorem run_length_zero (hfirst : kva[i]? = some first) (h : inRun kva i j = some false) :
    runLength kva first j = 0 := by
  by_cases hj : j < kva.length
  · rw [in_run_eq hfirst hj] at h
    have hkey : ¬ kva[j].key = first.key := of_decide_eq_false (Option.some.inj h)
    rw [runLength, List.drop_eq_getElem_cons hj, List.takeWhile_cons_of_neg (by simpa using hkey)]
    rfl
  · rw [runLength, List.drop_eq_nil_of_le (by omega)]
    rfl

/-- The second loop stops after the run of `kva[i]`. -/
theorem find_run_end_eq (hfirst : kva[i]? = some first) (hfuel : kva.length < fuel) :
    findRunEnd kva i fuel = some (i + 1 + runLength kva first (i + 1)) := by
  have hlt : i < kva.length := (List.getElem?_eq_some_iff.mp hfirst).1
  -- what is passed and what is still ahead make up the run
  have htotal : ∃ j, findRunEnd kva i fuel = some j ∧
      j + runLength kva first j = i + 1 + runLength kva first (i + 1) ∧
      inRun kva i j = some false := by
    refine for_loop_total
      (fun j => j + runLength kva first j = i + 1 + runLength kva first (i + 1))
      (fun j => kva.length - j) ?_ ?_ rfl (show kva.length - (i + 1) < fuel by omega)
    · intro j hinv
      by_cases hj : j < kva.length
      · exact ⟨_, in_run_eq hfirst hj⟩
      · exact ⟨false, if_neg hj⟩
    · intro j hinv hcond
      have hj : j < kva.length := by
        by_contra hge
        rw [inRun, if_neg hge] at hcond
        cases hcond
      rw [in_run_eq hfirst hj] at hcond
      have hsucc := run_length_succ hj (of_decide_eq_true (Option.some.inj hcond))
      exact ⟨j + 1, rfl, by omega, by omega⟩
  obtain ⟨j, hloop, hahead, hend⟩ := htotal
  have hzero := run_length_zero hfirst hend
  rw [hloop, ← hahead, hzero]
  rfl

/-- The collected values and those still ahead are the values of `kva[i:j]`. -/
structure Collecting (kva : List KeyValue) (i j : Nat) (s : Collected) : Prop where
  le : s.k ≤ j
  values : s.values ++ (kva.extract s.k j).map KeyValue.value =
    (kva.extract i j).map KeyValue.value

/-- The third loop collects the values of `kva[i:j]`. -/
theorem collect_values_eq (hij : i ≤ j) (hj : j ≤ kva.length) (hfuel : kva.length < fuel) :
    collectValues kva i j fuel = some ⟨j, (kva.extract i j).map KeyValue.value⟩ := by
  have htotal : ∃ s, collectValues kva i j fuel = some s ∧ Collecting kva i j s ∧
      some (decide (s.k < j)) = some false := by
    refine for_loop_total (Collecting kva i j) (fun s => j - s.k) (fun s _ => ⟨_, rfl⟩) ?_
      ⟨hij, rfl⟩ (show j - i < fuel by omega)
    intro s hinv hcond
    have hk : s.k < j := of_decide_eq_true (Option.some.inj hcond)
    have hlt : s.k < kva.length := by omega
    refine ⟨⟨s.k + 1, s.values ++ [kva[s.k].value]⟩, ?_, ⟨hk, ?_⟩, ?_⟩
    · rw [List.getElem?_eq_getElem hlt]
      rfl
    · rw [← hinv.values, List.extract_eq_take_drop, List.extract_eq_take_drop,
        List.drop_eq_getElem_cons hlt, show j - s.k = (j - (s.k + 1)) + 1 by omega,
        List.take_succ_cons, List.map_cons, List.append_assoc]
      rfl
    · show j - (s.k + 1) < j - s.k
      omega
  obtain ⟨⟨k, values⟩, hloop, hinv, hend⟩ := htotal
  have hge : ¬ k < j := of_decide_eq_false (Option.some.inj hend)
  have hle : k ≤ j := hinv.le
  obtain rfl : k = j := by omega
  have hvalues := hinv.values
  rw [List.extract_eq_take_drop, Nat.sub_self, List.take_zero, List.map_nil,
    List.append_nil] at hvalues
  rw [hloop, ← hvalues]

/-- One round of the outer loop takes the first run of what is left. -/
theorem reduce_round_eq (reducef : GoString → List GoString → GoString) {s : ReduceState}
    (hi : s.i < kva.length) (hfuel : kva.length < fuel) :
    ∃ j run, reduceRound reducef kva fuel s =
        some ⟨j, s.calls ++ [callOf run], s.records ++ [recordOf reducef (callOf run)]⟩ ∧
      s.i < j ∧
      groupRuns KeyValue.key (kva.drop s.i) = run :: groupRuns KeyValue.key (kva.drop j) := by
  have hfirst := List.getElem?_eq_getElem hi
  have hend := find_run_end_eq hfirst hfuel
  have hle : runLength kva kva[s.i] (s.i + 1) ≤ kva.length - (s.i + 1) := by
    rw [← List.length_drop]
    exact (List.takeWhile_sublist _).length_le
  have hvalues := collect_values_eq
    (show s.i ≤ s.i + 1 + runLength kva kva[s.i] (s.i + 1) by omega) (by omega) hfuel
  refine ⟨_, _, ?_, ?_, group_runs_drop hfirst rfl⟩
  · rw [reduceRound, hend, Option.bind_eq_bind, Option.bind_some, ← runLength, hvalues, hfirst]
    rfl
  · omega

/-- The calls so far and those for the runs ahead are the calls for all the runs. -/
structure Grouped (reducef : GoString → List GoString → GoString) (kva : List KeyValue)
    (s : ReduceState) : Prop where
  calls : s.calls ++ (groupRuns KeyValue.key (kva.drop s.i)).map callOf =
    (groupRuns KeyValue.key kva).map callOf
  records : s.records = s.calls.map (recordOf reducef)

/-- The outer loop calls `reducef` and writes a line once for each run. -/
theorem reduce_loop_eq (reducef : GoString → List GoString → GoString)
    (hfuel : kva.length < fuel) :
    ∃ s, reduceLoop reducef kva fuel = some s ∧
      s.calls = (groupRuns KeyValue.key kva).map callOf ∧
      s.records = s.calls.map (recordOf reducef) := by
  have htotal : ∃ s, reduceLoop reducef kva fuel = some s ∧ Grouped reducef kva s ∧
      some (decide (s.i < kva.length)) = some false := by
    refine for_loop_total (Grouped reducef kva) (fun s => kva.length - s.i)
      (fun s _ => ⟨_, rfl⟩) ?_ ⟨rfl, rfl⟩ (show kva.length - 0 < fuel by omega)
    intro s hinv hcond
    have hi : s.i < kva.length := of_decide_eq_true (Option.some.inj hcond)
    obtain ⟨j, run, hround, hlt, hruns⟩ := reduce_round_eq reducef hi hfuel
    refine ⟨_, hround, ⟨?_, ?_⟩, ?_⟩
    · rw [← hinv.calls, hruns, List.map_cons, List.append_assoc]
      rfl
    · rw [hinv.records, List.map_append]
      rfl
    · show kva.length - j < kva.length - s.i
      omega
  obtain ⟨s, hloop, hinv, hend⟩ := htotal
  have hge : ¬ s.i < kva.length := of_decide_eq_false (Option.some.inj hend)
  have hcalls := hinv.calls
  rw [List.drop_eq_nil_of_le (by omega), group_runs_nil, List.map_nil, List.append_nil] at hcalls
  exact ⟨s, hloop, hcalls, hinv.records⟩

/-- The outer loop comes to its end. -/
theorem reduce_loop_some (reducef : GoString → List GoString → GoString)
    (hfuel : kva.length < fuel) : (reduceLoop reducef kva fuel).isSome = true := by
  obtain ⟨s, hloop, -⟩ := reduce_loop_eq reducef hfuel
  rw [hloop]
  rfl

end Loops

/-! ## One call for each key -/

section Calls

variable (job : Job) (kva : List KeyValue)

/-- The calls of `reducef` for the pairs of a task. -/
def reduceCalls : List (GoString × List GoString) :=
  (groupRuns KeyValue.key (job.sort kva)).map callOf

/-- The records of the pairs: sort them and write one record for each run. The loops come to their
end, so there is no other case. -/
def reduceRecords : List Record :=
  ((reduceLoop job.reducef (job.sort kva) ((job.sort kva).length + 1)).get
    (reduce_loop_some job.reducef (Nat.lt_succ_self _))).records

/-- The records of the task are those of its calls. -/
theorem reduce_records_eq :
    reduceRecords job kva = (reduceCalls job kva).map (recordOf job.reducef) := by
  obtain ⟨s, hloop, hcalls, hrecords⟩ :=
    reduce_loop_eq job.reducef (Nat.lt_succ_self (job.sort kva).length)
  simp only [reduceRecords, hloop, Option.get_some]
  rw [hrecords, hcalls, reduceCalls]

/-- The keys of the calls increase strictly. -/
theorem reduce_calls_increasing :
    ((reduceCalls job kva).map Prod.fst).Pairwise fun first second => first < second := by
  rw [reduceCalls, List.map_map, List.pairwise_map]
  exact group_runs_increasing (job.sort_sorted kva)

/-- A call has all the values of its key, and its key occurs. -/
theorem mem_reduce_calls_iff {call : GoString × List GoString} :
    call ∈ reduceCalls job kva ↔
      call.1 ∈ kva.map KeyValue.key ∧
        call.2 = ((job.sort kva).filter fun kv => kv.key = call.1).map KeyValue.value := by
  obtain ⟨key, values⟩ := call
  have hkeys : key ∈ kva.map KeyValue.key ↔ ∃ kv ∈ job.sort kva, kv.key = key := by
    simp only [List.mem_map, (job.sort_perm kva).mem_iff]
  rw [reduceCalls, List.mem_map, hkeys]
  constructor
  · intro h
    obtain ⟨run, hrun, heq⟩ := h
    obtain ⟨hkey, hvalues⟩ := (mem_group_runs_iff (job.sort_sorted kva)).mp hrun
    obtain ⟨rfl, rfl⟩ := Prod.mk.inj heq
    exact ⟨hkey, congrArg (List.map KeyValue.value) hvalues⟩
  · intro h
    obtain ⟨hkey, hvalues⟩ := h
    refine ⟨(key, (job.sort kva).filter fun kv => kv.key = key), ?_, ?_⟩
    · exact (mem_group_runs_iff (job.sort_sorted kva)).mpr ⟨hkey, rfl⟩
    · exact Prod.ext rfl hvalues.symm

/-- The number of calls for a key. -/
theorem count_reduce_calls (key : GoString) :
    ((reduceCalls job kva).map Prod.fst).count key =
      if key ∈ kva.map KeyValue.key then 1 else 0 := by
  have hnodup : ((reduceCalls job kva).map Prod.fst).Nodup :=
    (reduce_calls_increasing job kva).imp fun hlt => hlt.ne
  have hmem : key ∈ (reduceCalls job kva).map Prod.fst ↔ key ∈ kva.map KeyValue.key := by
    rw [List.mem_map]
    constructor
    · intro h
      obtain ⟨call, hcall, heq⟩ := h
      rw [← heq]
      exact ((mem_reduce_calls_iff job kva).mp hcall).1
    · intro h
      exact ⟨(key, ((job.sort kva).filter fun kv => kv.key = key).map KeyValue.value),
        (mem_reduce_calls_iff job kva).mpr ⟨h, rfl⟩, rfl⟩
  rw [hnodup.count]
  simp only [hmem]

/-- The values of a call are those of its key, in some order. -/
theorem perm_of_mem_reduce_calls {call : GoString × List GoString}
    (h : call ∈ reduceCalls job kva) :
    call.2.Perm ((kva.filter fun kv => kv.key = call.1).map KeyValue.value) := by
  rw [((mem_reduce_calls_iff job kva).mp h).2]
  exact ((job.sort_perm kva).filter _).map _

/-- The loops of a reduce task come to their end. They call `reducef` exactly once for every key
that occurs, in strictly increasing order of the keys and with all the values of the key, and write
one record for each call. -/
theorem reduce_groups_exactly :
    ∃ calls : List (GoString × List GoString),
      (∀ fuel, kva.length < fuel →
        ∃ s, reduceLoop job.reducef (job.sort kva) fuel = some s ∧
          s.calls = calls ∧ s.records = calls.map (recordOf job.reducef)) ∧
      reduceRecords job kva = calls.map (recordOf job.reducef) ∧
      ((calls.map Prod.fst).Pairwise fun first second => first < second) ∧
      (∀ key, (calls.map Prod.fst).count key = if key ∈ kva.map KeyValue.key then 1 else 0) ∧
      ∀ call ∈ calls,
        call.2.Perm ((kva.filter fun kv => kv.key = call.1).map KeyValue.value) := by
  refine ⟨reduceCalls job kva, ?_, reduce_records_eq job kva, reduce_calls_increasing job kva,
    count_reduce_calls job kva, fun call hcall => perm_of_mem_reduce_calls job kva hcall⟩
  intro fuel hfuel
  have hlength : (job.sort kva).length < fuel := by
    rw [(job.sort_perm kva).length_eq]
    exact hfuel
  obtain ⟨s, hloop, hcalls, hrecords⟩ := reduce_loop_eq job.reducef hlength
  refine ⟨s, hloop, hcalls, ?_⟩
  rw [hrecords, hcalls]
  rfl

end Calls

/-! ## The files of a reduce task -/

/-- `fmt.Fprintf(tmpfile, "%v %v\n", key, output)`. -/
def Record.line (record : Record) : GoString :=
  record.key ++ ascii [' '] ++ record.output ++ ascii ['\n']

/-- The bytes of an output file. -/
def render (records : List Record) : GoString :=
  records.flatMap Record.line

/-- The records that a reduce task writes. -/
def taskRecords (job : Job) (task : Task) (files : Files) : Option (List Record) :=
  (readIntermediate job.toCodec files task.reducefiles []).map (reduceRecords job)

/-- `HandleReduce`, up to its report. The output file is created before the temporary file is
renamed to it. -/
def handleReduce (job : Job) (reply : TaskReply) (files : Files) : Option Files :=
  (taskRecords job reply.task files).map fun records =>
    Function.update (Function.update files (outputName reply.task.index) (some []))
      (outputName reply.task.index) (some (render records))

end DistributedLabs.Mr
