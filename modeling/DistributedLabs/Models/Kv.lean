import DistributedLabs.Library.GoString
import DistributedLabs.Library.Locality
import Mathlib.Data.List.Sort

/-!
# The model of the linearizability tests

The tests check a history of Get, Put and Append calls with `KvModel` of `models/kv.go`, which
describes the value of a single key: the checker splits the history by key with `Partition` and
checks each part by itself. `per_key_check_exact` says that this gives the answer for the whole
store, and that the parts have every operation of the history exactly once and in order.
-/

namespace DistributedLabs.Models

/-- The input of an operation. The operation is `0` for get, `1` for put, `2` for append, and
anything else for append with a return value. -/
structure KvInput where
  op : UInt8
  key : GoString
  value : GoString
  deriving DecidableEq

/-- The output of an operation. -/
structure KvOutput where
  value : GoString
  deriving DecidableEq

/-- An operation of a history: `porcupine.Operation` with its client, input, call time, output and
return time. -/
abbrev Operation := Completed Int Int KvInput KvOutput

/-- `KvModel.Step`: whether the step is possible, and the next value. -/
def kvStep (state : GoString) (input : KvInput) (output : KvOutput) : Bool × GoString :=
  if input.op = 0 then (output.value = state, state)
  else if input.op = 1 then (true, input.value)
  else if input.op = 2 then (true, state ++ input.value)
  else (output.value = state, state ++ input.value)

/-- `KvModel`: the value of one key, which starts as the empty string. -/
def kvModel : SequentialObject GoString KvInput KvOutput where
  init := []
  step := fun state input output =>
    if (kvStep state input output).1 then some (kvStep state input output).2 else none

/-- The whole store: every key starts as the empty string, and an operation acts on its key. -/
def wholeStore : SequentialObject (GoString → GoString) KvInput KvOutput :=
  kvModel.pointwise KvInput.key

/-! ## Partition -/

/-- `m[key] = append(m[key], v)`. -/
def appendAt (key : GoString) (v : Operation) :
    List (GoString × List Operation) → List (GoString × List Operation)
  | [] => [(key, [v])]
  | (other, operations) :: rest =>
      if other = key then (other, operations ++ [v]) :: rest
      else (other, operations) :: appendAt key v rest

/-- The operations of the history by key. -/
def groupByKey (history : List Operation) : List (GoString × List Operation) :=
  history.foldl (fun m v => appendAt v.input.key v m) []

/-- `KvModel.Partition`. `range` is the order in which the keys of the map are visited. -/
def partition (range : List GoString → List GoString) (history : List Operation) :
    List (List Operation) :=
  let m := groupByKey history
  ((range (m.map Prod.fst)).insertionSort (· ≤ ·)).map fun k => (m.lookup k).getD []

section Grouping

variable {key k : GoString} {v : Operation} {m : List (GoString × List Operation)}

/-- Appending at a key adds the key if it is new. -/
theorem mem_keys_append_at :
    k ∈ (appendAt key v m).map Prod.fst ↔ k = key ∨ k ∈ m.map Prod.fst := by
  induction m with
  | nil => simp [appendAt]
  | cons entry rest ih =>
      obtain ⟨other, operations⟩ := entry
      rw [appendAt]
      split
      · rename_i heq
        subst heq
        simp
      · simp only [List.map_cons, List.mem_cons, ih]
        tauto

/-- Appending at a key keeps the keys distinct. -/
theorem nodup_keys_append_at (h : (m.map Prod.fst).Nodup) :
    ((appendAt key v m).map Prod.fst).Nodup := by
  induction m with
  | nil => simp [appendAt]
  | cons entry rest ih =>
      obtain ⟨other, operations⟩ := entry
      obtain ⟨hother, hrest⟩ := List.nodup_cons.mp h
      rw [appendAt]
      split
      · exact h
      · rename_i hne
        refine List.nodup_cons.mpr ⟨?_, ih hrest⟩
        intro hmem
        exact (mem_keys_append_at.mp hmem).elim hne hother

/-- Appending at a key changes the operations of this key alone. -/
theorem lookup_append_at :
    ((appendAt key v m).lookup k).getD [] =
      (m.lookup k).getD [] ++ if k = key then [v] else [] := by
  have hskip : ∀ {other : GoString}, k ≠ other → (k == other) = false :=
    fun hne => by simpa using hne
  induction m with
  | nil =>
      by_cases heq : k = key
      · simp [appendAt, heq]
      · simp [appendAt, List.lookup_cons, heq, hskip heq]
  | cons entry rest ih =>
      obtain ⟨other, operations⟩ := entry
      rw [appendAt]
      by_cases hother : other = key
      · subst hother
        by_cases heq : k = other
        · simp [heq]
        · simp [List.lookup_cons, heq, hskip heq]
      · rw [if_neg hother]
        by_cases heq : k = other
        · subst heq
          simp [hother]
        · simp only [List.lookup_cons, hskip heq]
          exact ih

end Grouping

/-- The map has the keys that occur, each once, with the operations of the key in order. -/
structure Groups (history : List Operation) (m : List (GoString × List Operation)) : Prop where
  nodup : (m.map Prod.fst).Nodup
  keys : ∀ k, k ∈ m.map Prod.fst ↔ ∃ op ∈ history, op.input.key = k
  operations : ∀ k, (m.lookup k).getD [] = onKey KvInput.key k history

/-- The loop of `Partition` groups the history by key. -/
theorem groups_group_by_key (history : List Operation) : Groups history (groupByKey history) := by
  induction history using List.reverseRecOn with
  | nil => exact ⟨List.nodup_nil, by simp [groupByKey], fun k => rfl⟩
  | append_singleton history v ih =>
      rw [groupByKey, List.foldl_append, ← groupByKey]
      constructor
      · exact nodup_keys_append_at ih.nodup
      · intro k
        show k ∈ (appendAt v.input.key v (groupByKey history)).map Prod.fst ↔ _
        rw [mem_keys_append_at, ih.keys]
        constructor
        · intro h
          rcases h with rfl | ⟨op, hop, hkey⟩
          · exact ⟨v, by simp, rfl⟩
          · exact ⟨op, List.mem_append_left _ hop, hkey⟩
        · intro h
          obtain ⟨op, hop, hkey⟩ := h
          rcases List.mem_append.mp hop with hold | hnew
          · exact Or.inr ⟨op, hold, hkey⟩
          · obtain rfl := List.mem_singleton.mp hnew
            exact Or.inl hkey.symm
      · intro k
        show ((appendAt v.input.key v (groupByKey history)).lookup k).getD [] = _
        rw [lookup_append_at, ih.operations, onKey, onKey, List.filter_append]
        by_cases heq : v.input.key = k
        · simp [heq]
        · simp [heq, Ne.symm heq]

/-- The parts are the operations of the keys that occur, in the order of the keys. -/
theorem partition_eq {range : List GoString → List GoString}
    (hrange : ∀ keys, (range keys).Perm keys) (history : List Operation) :
    ∃ keys : List GoString, keys.Pairwise (· < ·) ∧
      (∀ k, k ∈ keys ↔ ∃ op ∈ history, op.input.key = k) ∧
      partition range history = keys.map fun k => onKey KvInput.key k history := by
  have hgroups := groups_group_by_key history
  have hperm : ((range ((groupByKey history).map Prod.fst)).insertionSort (· ≤ ·)).Perm
      ((groupByKey history).map Prod.fst) :=
    (List.perm_insertionSort _ _).trans (hrange _)
  refine ⟨_, ?_, fun k => hperm.mem_iff.trans (hgroups.keys k), ?_⟩
  · have hsorted := List.pairwise_insertionSort (· ≤ ·) (range ((groupByKey history).map Prod.fst))
    exact (hsorted.and (hperm.nodup_iff.mpr hgroups.nodup)).imp fun h => lt_of_le_of_ne h.1 h.2
  · exact List.map_congr_left fun k _ => hgroups.operations k

/-- A key without operations can always be put in order. -/
theorem orderable_nil : Orderable kvModel ([] : List Operation) :=
  ⟨[], List.Perm.refl _, List.Pairwise.nil, rfl⟩

/-- A history is linearizable for the whole store exactly when each part is linearizable for one
key. The parts have every operation of the history once, and are the operations of the keys that
occur, in their order. -/
theorem per_key_check_exact (range : List GoString → List GoString)
    (hrange : ∀ keys, (range keys).Perm keys) (history : List Operation)
    (htimes : ∀ op ∈ history, op.call ≤ op.ret) :
    (Linearizable wholeStore (history.map Completed.record) ↔
        ∀ part ∈ partition range history, Linearizable kvModel (part.map Completed.record)) ∧
      (partition range history).flatten.Perm history ∧
      ∃ keys : List GoString, keys.Pairwise (· < ·) ∧
        (∀ k, k ∈ keys ↔ ∃ op ∈ history, op.input.key = k) ∧
        partition range history = keys.map fun k => history.filter fun op => op.input.key = k := by
  obtain ⟨keys, hsorted, hkeys, hparts⟩ := partition_eq hrange history
  have hnodup : keys.Nodup := hsorted.imp fun hlt => hlt.ne
  refine ⟨?_, ?_, keys, hsorted, hkeys, hparts⟩
  · rw [linearizable_iff_orderable, wholeStore, orderable_pointwise_iff htimes, hparts]
    simp only [linearizable_iff_orderable]
    constructor
    · intro h part hpart
      obtain ⟨k, -, rfl⟩ := List.mem_map.mp hpart
      exact h k
    · intro h k
      by_cases hk : k ∈ keys
      · exact h _ (List.mem_map_of_mem hk)
      · -- a key that does not occur has no part
        have hnil : onKey KvInput.key k history = [] := by
          refine List.filter_eq_nil_iff.mpr fun op hop hkey => ?_
          exact hk ((hkeys k).mpr ⟨op, hop, of_decide_eq_true hkey⟩)
        rw [hnil]
        exact orderable_nil
  · rw [hparts, ← List.flatMap_def]
    exact flat_map_on_key_perm KvInput.key hnodup fun op hop => (hkeys _).mpr ⟨op, hop, rfl⟩

/-- A put. -/
def putA : Operation := ⟨0, ⟨1, ascii ['a'], ascii ['x']⟩, 0, ⟨[]⟩, 3⟩

/-- A get that overlaps the put and returns the value before it. -/
def getA : Operation := ⟨1, ⟨0, ascii ['a'], []⟩, 1, ⟨[]⟩, 2⟩

/-- An append with return value, on another key. -/
def appendB : Operation := ⟨2, ⟨3, ascii ['b'], ascii ['y']⟩, 2, ⟨[]⟩, 2⟩

/-- The history of the three operations is linearizable because its two parts are. -/
theorem per_key_check_overlapping :
    Linearizable wholeStore ([putA, appendB, getA].map Completed.record) := by
  have hparts : partition List.reverse [putA, appendB, getA] = [[putA, getA], [appendB]] := rfl
  refine (per_key_check_exact List.reverse List.reverse_perm [putA, appendB, getA] ?_).1.mpr ?_
  · decide
  · intro part hpart
    rw [hparts] at hpart
    rw [linearizable_iff_orderable]
    rcases List.mem_pair.mp hpart with rfl | rfl
    · exact ⟨[getA, putA], List.Perm.swap _ _ _, by unfold RealTime; decide, rfl⟩
    · exact ⟨[appendB], List.Perm.refl _, by unfold RealTime; decide, rfl⟩

end DistributedLabs.Models
