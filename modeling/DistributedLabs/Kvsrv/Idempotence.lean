import DistributedLabs.Kvsrv.Server
import Mathlib.Data.List.Dedup
import Mathlib.Data.List.Sublists

/-!
# Each operation is applied at most once

Requests of Put and Append operations reach the server in any order and any number of times. The
record in `IDMap` keeps a copy of a modify request from being executed again, until an ack clears
it. A copy that arrives after the ack is executed a second time, and
`late_copy_applied_twice` is the scenario of the lab notes in which it overwrites the value of
another client. `applied_at_most_once_iff` says that this is the only way: every operation is
applied at most once exactly when no modify request is delivered after an ack that itself
followed a modify request of the same operation.
-/

namespace DistributedLabs.Kvsrv

/-- The server after a list of requests. -/
def deliver (requests : List Request) : KVServer :=
  requests.foldl serve startKVServer

/-- The operations that the handlers execute, in order, each as often as it is executed. -/
def executionsFrom : KVServer → List Request → List Operation
  | _, [] => []
  | kv, request :: rest =>
      if (checkIfNeedChange kv request.args).2 then
        request.operation :: executionsFrom (serve kv request) rest
      else executionsFrom (serve kv request) rest

/-- The executions of a request and of the rest. -/
theorem executions_from_cons (kv : KVServer) (request : Request) (rest : List Request) :
    executionsFrom kv (request :: rest) =
      if (checkIfNeedChange kv request.args).2 then
        request.operation :: executionsFrom (serve kv request) rest
      else executionsFrom (serve kv request) rest :=
  rfl

/-- The executions of a list of requests from the empty server. -/
def executions (requests : List Request) : List Operation :=
  executionsFrom startKVServer requests

/-- The executed operations, once each, in the order of their first execution. -/
def firstExecutions (requests : List Request) : List Operation :=
  (executions requests).reverse.dedup.reverse

/-- What an operation does to the store. -/
def Operation.apply (store : GoString → Option GoString) (operation : Operation) :
    GoString → Option GoString :=
  Function.update store operation.key
    (some (operation.op.stored ((store operation.key).getD []) operation.value))

/-- No operation is executed twice, and the store is what the executed operations give when each
is applied once in the order of the first executions. -/
def AppliedAtMostOnce (requests : List Request) : Prop :=
  (executions requests).Nodup ∧
    (deliver requests).storeMap = (firstExecutions requests).foldl Operation.apply fun _ => none

/-- Different operations have different identifiers. -/
def IdsDistinct (requests : List Request) : Prop :=
  ∀ first ∈ requests, ∀ second ∈ requests, first.operation.id = second.operation.id →
    first.operation = second.operation

instance (requests : List Request) : Decidable (IdsDistinct requests) :=
  inferInstanceAs (Decidable (∀ first ∈ requests, ∀ second ∈ requests, _ → _))

/-- No modify request of an operation is delivered after an ack that followed another one. -/
def NoLateModify (requests : List Request) : Prop :=
  ∀ operation : Operation,
    ¬ [operation.modify, operation.ack, operation.modify].Sublist requests

/-! ## One request -/

/-- A request is executed exactly when it is a modify request without a record. -/
theorem needs_change_iff {kv : KVServer} {request : Request} :
    (checkIfNeedChange kv request.args).2 = true ↔
      request.state = .modify ∧ kv.idMap request.operation.id = none := by
  cases hstate : request.state <;> simp [checkIfNeedChange, Request.args, hstate]

/-- A request changes the store exactly when it is executed, by applying its operation. -/
theorem serve_store (kv : KVServer) (request : Request) :
    (serve kv request).storeMap =
      if (checkIfNeedChange kv request.args).2 then request.operation.apply kv.storeMap
      else kv.storeMap := by
  split
  · rename_i hneeds
    obtain ⟨hstate, hid⟩ := needs_change_iff.mp hneeds
    rw [serve, handle_fresh _ hstate hid, get_eq]
    rfl
  · rename_i hneeds
    rw [needs_change_iff, not_and] at hneeds
    cases hstate : request.state with
    | ack => rw [serve, handle_ack _ _ hstate]
    | modify =>
        obtain ⟨record, hid⟩ := Option.ne_none_iff_exists'.mp (hneeds hstate)
        rw [serve, handle_retry _ hstate hid]

/-- The store is what the executions give, each applied as often as it is executed. -/
theorem store_eq_foldl_executions (kv : KVServer) (requests : List Request) :
    (requests.foldl serve kv).storeMap =
      (executionsFrom kv requests).foldl Operation.apply kv.storeMap := by
  induction requests generalizing kv with
  | nil => rfl
  | cons request rest ih =>
      rw [List.foldl_cons, ih, serve_store, executions_from_cons]
      split <;> rfl

/-! ## Executions of one operation -/

section OneOperation

variable {operation : Operation} {requests : List Request} {kv : KVServer}

/-- A request with the identifier of the operation is one of its two requests. -/
theorem request_cases {request : Request} (h : request.operation = operation) :
    request = operation.modify ∨ request = operation.ack := by
  obtain ⟨requested, state⟩ := request
  subst h
  cases state
  · exact Or.inl rfl
  · exact Or.inr rfl

/-- An operation that is executed has a modify request. -/
theorem modify_mem_of_executed (h : operation ∈ executionsFrom kv requests) :
    operation.modify ∈ requests := by
  induction requests generalizing kv with
  | nil => cases h
  | cons request rest ih =>
      rw [executions_from_cons] at h
      split at h
      · rename_i hneeds
        rcases List.mem_cons.mp h with rfl | htail
        · obtain ⟨hstate, _⟩ := needs_change_iff.mp hneeds
          have heq : request.operation.modify = request := by
            cases request
            simp only at hstate
            subst hstate
            rfl
          rw [heq]
          exact List.mem_cons_self
        · exact List.mem_cons_of_mem _ (ih htail)
      · exact List.mem_cons_of_mem _ (ih h)

/-- An operation that is already recorded is executed only after an ack. -/
theorem ack_modify_of_executed (hids : ∀ request ∈ requests,
      request.operation.id = operation.id → request.operation = operation)
    (hrecorded : kv.idMap operation.id ≠ none) (h : operation ∈ executionsFrom kv requests) :
    [operation.ack, operation.modify].Sublist requests := by
  induction requests generalizing kv with
  | nil => cases h
  | cons request rest ih =>
      have hrest : ∀ other ∈ rest, other.operation.id = operation.id →
          other.operation = operation := fun other hmem => hids other (List.mem_cons_of_mem _ hmem)
      have htail : operation ∈ executionsFrom (serve kv request) rest := by
        rw [executions_from_cons] at h
        split at h
        · rename_i hneeds
          rcases List.mem_cons.mp h with rfl | htail
          · exact absurd (needs_change_iff.mp hneeds).2 hrecorded
          · exact htail
        · exact h
      by_cases hid : request.operation.id = operation.id
      · rcases request_cases (hids request List.mem_cons_self hid) with rfl | rfl
        · exact (ih hrest (serve_modify_recorded kv rfl) htail).cons _
        · exact (List.singleton_sublist.mpr (modify_mem_of_executed htail)).cons_cons _
      · refine (ih hrest ?_ htail).cons _
        rw [serve_id_map_of_ne hid]
        exact hrecorded

/-- An operation without a record is executed by its first modify request. -/
theorem executed_of_modify_mem (hids : ∀ request ∈ requests,
      request.operation.id = operation.id → request.operation = operation)
    (hnone : kv.idMap operation.id = none) (h : operation.modify ∈ requests) :
    operation ∈ executionsFrom kv requests := by
  induction requests generalizing kv with
  | nil => cases h
  | cons request rest ih =>
      have hrest : ∀ other ∈ rest, other.operation.id = operation.id →
          other.operation = operation := fun other hmem => hids other (List.mem_cons_of_mem _ hmem)
      rw [executions_from_cons]
      by_cases hid : request.operation.id = operation.id
      · rcases request_cases (hids request List.mem_cons_self hid) with rfl | rfl
        · rw [if_pos (needs_change_iff.mpr ⟨rfl, hnone⟩)]
          exact List.mem_cons_self
        · have hmem : operation.modify ∈ rest := by
            rcases List.mem_cons.mp h with heq | hmem
            · cases heq
            · exact hmem
          rw [if_neg (by simp [needs_change_iff, Operation.ack])]
          exact ih hrest (serve_ack_cleared kv operation) hmem
      · have hmem : operation.modify ∈ rest := by
          rcases List.mem_cons.mp h with rfl | hmem
          · exact absurd rfl hid
          · exact hmem
        have htail := ih hrest ((serve_id_map_of_ne hid).trans hnone) hmem
        split
        · exact List.mem_cons_of_mem _ htail
        · exact htail

/-- A modify request that follows an ack is executed, or an earlier one after the ack is. -/
theorem executed_of_ack_modify (hids : ∀ request ∈ requests,
      request.operation.id = operation.id → request.operation = operation)
    (h : [operation.ack, operation.modify].Sublist requests) :
    operation ∈ executionsFrom kv requests := by
  induction requests generalizing kv with
  | nil => cases h
  | cons request rest ih =>
      have hrest : ∀ other ∈ rest, other.operation.id = operation.id →
          other.operation = operation := fun other hmem => hids other (List.mem_cons_of_mem _ hmem)
      have htail : operation ∈ executionsFrom (serve kv request) rest := by
        rcases List.sublist_cons_iff.mp h with hsub | ⟨tail, heq, hsub⟩
        · exact ih hrest hsub
        · obtain ⟨rfl, rfl⟩ := List.cons.inj heq
          exact executed_of_modify_mem hrest (serve_ack_cleared kv operation)
            (List.singleton_sublist.mp hsub)
      rw [executions_from_cons]
      split
      · exact List.mem_cons_of_mem _ htail
      · exact htail

/-- A late copy of an operation is executed a second time. -/
theorem not_nodup_of_late_modify (hids : ∀ request ∈ requests,
      request.operation.id = operation.id → request.operation = operation)
    (hnone : kv.idMap operation.id = none)
    (h : [operation.modify, operation.ack, operation.modify].Sublist requests) :
    ¬ (executionsFrom kv requests).Nodup := by
  induction requests generalizing kv with
  | nil => cases h
  | cons request rest ih =>
      have hrest : ∀ other ∈ rest, other.operation.id = operation.id →
          other.operation = operation := fun other hmem => hids other (List.mem_cons_of_mem _ hmem)
      rw [executions_from_cons]
      by_cases hmodify : request = operation.modify
      · -- the first copy is executed, and the two later requests lead to another execution
        subst hmodify
        have hlate : [operation.ack, operation.modify].Sublist rest := by
          rcases List.sublist_cons_iff.mp h with hsub | ⟨tail, heq, hsub⟩
          · exact (List.sublist_cons_self _ _).trans hsub
          · obtain ⟨-, rfl⟩ := List.cons.inj heq
            exact hsub
        rw [if_pos (needs_change_iff.mpr ⟨rfl, hnone⟩), List.nodup_cons]
        exact fun hnodup => hnodup.1 (executed_of_ack_modify hrest hlate)
      · have hsub : [operation.modify, operation.ack, operation.modify].Sublist rest := by
          rcases List.sublist_cons_iff.mp h with hsub | ⟨tail, heq, _⟩
          · exact hsub
          · exact absurd (List.cons.inj heq).1.symm hmodify
        have hstill : (serve kv request).idMap operation.id = none := by
          by_cases hid : request.operation.id = operation.id
          · rcases request_cases (hids request List.mem_cons_self hid) with rfl | rfl
            · exact absurd rfl hmodify
            · exact serve_ack_cleared kv operation
          · rw [serve_id_map_of_ne hid, hnone]
        have htail := ih hrest hstill hsub
        split
        · exact fun hnodup => htail (List.nodup_cons.mp hnodup).2
        · exact htail

end OneOperation

/-- An operation that is executed twice has a modify request after an ack after another one. -/
theorem nodup_of_no_late_modify {requests : List Request} {kv : KVServer}
    (hids : IdsDistinct requests) (hlate : NoLateModify requests) :
    (executionsFrom kv requests).Nodup := by
  induction requests generalizing kv with
  | nil => exact List.nodup_nil
  | cons request rest ih =>
      have hrestIds : IdsDistinct rest := fun first hfirst second hsecond =>
        hids first (List.mem_cons_of_mem _ hfirst) second (List.mem_cons_of_mem _ hsecond)
      have hrest : (executionsFrom (serve kv request) rest).Nodup :=
        ih hrestIds (fun operation hsub => hlate operation (hsub.cons _))
      rw [executions_from_cons]
      split
      · rename_i hneeds
        refine List.nodup_cons.mpr ⟨fun hagain => ?_, hrest⟩
        have hstate := (needs_change_iff.mp hneeds).1
        have hsub := ack_modify_of_executed
          (fun other hmem hid => hids other (List.mem_cons_of_mem _ hmem) request
            List.mem_cons_self hid) (serve_modify_recorded kv hstate) hagain
        obtain ⟨operation, state⟩ := request
        simp only at hstate
        subst hstate
        exact hlate operation (hsub.cons_cons _)
      · exact hrest

/-- Every operation is applied at most once, in the order of the first executions, exactly when no
modify request is delivered after an ack that followed another one of the same operation. -/
theorem applied_at_most_once_iff (requests : List Request) (hids : IdsDistinct requests) :
    AppliedAtMostOnce requests ↔ NoLateModify requests := by
  constructor
  · rintro ⟨hnodup, _⟩ operation hsub
    refine not_nodup_of_late_modify ?_ rfl hsub hnodup
    intro request hrequest hid
    exact hids request hrequest operation.modify (hsub.subset (by simp)) hid
  · intro hlate
    have hnodup : (executions requests).Nodup := nodup_of_no_late_modify hids hlate
    refine ⟨hnodup, ?_⟩
    have hfirst : firstExecutions requests = executions requests := by
      rw [firstExecutions, List.dedup_eq_self.mpr (List.nodup_reverse.mpr hnodup),
        List.reverse_reverse]
    rw [hfirst]
    exact store_eq_foldl_executions startKVServer requests

/-- A client puts `1` under a key. -/
def firstPut : Operation := ⟨.put, ascii ['k'], ascii ['1'], 1⟩

/-- Another client puts `2` under the same key. -/
def secondPut : Operation := ⟨.put, ascii ['k'], ascii ['2'], 2⟩

/-- Retries and the ack in order: the condition holds and each put is applied once. -/
theorem applied_at_most_once_retries :
    AppliedAtMostOnce [firstPut.modify, firstPut.modify, firstPut.ack, secondPut.modify] := by
  refine (applied_at_most_once_iff _ (by decide)).mpr ?_
  intro operation hsub
  have hack : operation.ack ∈ [firstPut.modify, firstPut.modify, firstPut.ack, secondPut.modify] :=
    hsub.subset (by simp)
  have hop : operation = firstPut := by
    simpa [Operation.modify, Operation.ack] using hack
  subst hop
  exact absurd hsub (by decide)

/-- A copy of the first put, sent before its ack and handled after it, overwrites the second
put. -/
theorem late_copy_applied_twice :
    ¬ ∀ requests, IdsDistinct requests → AppliedAtMostOnce requests := by
  intro honce
  have hstore := (honce [firstPut.modify, firstPut.ack, secondPut.modify, secondPut.ack,
    firstPut.modify] (by decide)).2
  have hvalue := congrFun hstore (ascii ['k'])
  exact absurd hvalue (by decide)

end DistributedLabs.Kvsrv
