import DistributedLabs.Kvsrv.Idempotence
import DistributedLabs.Kvsrv.Linearizable
import Mathlib.Data.List.TakeWhile

/-!
# The records kept for retries

`IDMap` holds one record for each operation that a clerk has in progress and nothing else, so its
size is bounded by the number of clerks (`records_in_progress`).

A retry is answered from the record. `Append` records the value that it replied, and its retries
reply the same. `Put` replies the old value of the key but records the new one, so a retry is
answered differently from the first execution (`retried_put_replies_new_value`).
`retries_agree_iff` says exactly when the answers agree.
-/

namespace DistributedLabs.Kvsrv

/-! ## How many records there are -/

/-- In every run that draws no identifier twice, each record belongs to a `PutAppend` call that is
in progress, no clerk has two of them, and there is none when no such call is in progress. -/
theorem records_in_progress {C : Type} [DecidableEq C] {actions : List (Action C)}
    {system : System C} (hrun : (clerks C).run actions = some system)
    (hids : (drawnIds actions).Nodup) :
    (∃ owner : {id // system.kv.idMap id ≠ none} → C, Function.Injective owner ∧
      ∀ record, (system.clerks (owner record)).id = some record.1) ∧
    ((∀ clerk, (system.clerks clerk).id = none) → ∀ id, system.kv.idMap id = none) := by
  have hkept := ids_kept hrun hids
  constructor
  · choose owner howner using
      fun record : {id // system.kv.idMap id ≠ none} => hkept.recorded record.1 record.2
    refine ⟨owner, fun first second heq => ?_, howner⟩
    -- a clerk uses one identifier at a time
    have hid : some first.1 = some second.1 := by rw [← howner first, heq, howner second]
    exact Subtype.ext (Option.some.inj hid)
  · intro hidle id
    by_contra hrecorded
    obtain ⟨clerk, hclerk⟩ := hkept.recorded id hrecorded
    rw [hidle clerk] at hclerk
    cases hclerk

/-- After `lostReply` the first clerk has returned and the second has an append to acknowledge:
there is one record, the second clerk's. -/
theorem records_in_progress_lost_reply :
    ∃ system, (clerks TwoClerks).run lostReply = some system ∧ system.kv.idMap 2 ≠ none ∧
      ∃ owner : {id // system.kv.idMap id ≠ none} → TwoClerks, Function.Injective owner ∧
        ∀ record, (system.clerks (owner record)).id = some record.1 := by
  obtain ⟨system, hrun, hrecord⟩ := (clerks TwoClerks).exists_run_of_check lostReply
    (fun system => system.kv.idMap 2 ≠ none) (by decide)
  exact ⟨system, hrun, hrecord, (records_in_progress hrun (by decide)).1⟩

/-! ## What a retry replies -/

section Retries

variable {calls before : List Call} {operation : Operation}

/-- The calls before the first execution of an operation. -/
def beforeFirst (calls : List Call) (operation : Operation) : List Call :=
  calls.takeWhile (· ≠ .putAppend operation.modify)

/-- The value of the operation's key immediately before its first execution. -/
def originalValue (calls : List Call) (operation : Operation) : GoString :=
  get (afterCalls (beforeFirst calls operation)) operation.key

/-- Every execution of the modify request of an operation before its ack replies the value that
the key had immediately before the first one. -/
def RetriesAgree (calls : List Call) (operation : Operation) : Prop :=
  ∀ before after, calls = before ++ .putAppend operation.modify :: after →
    .putAppend operation.ack ∉ before →
    ((Call.putAppend operation.modify).execute (afterCalls before)).2 =
      originalValue calls operation

/-- A modify request of the operation is executed again before its ack. -/
def Retried (calls : List Call) (operation : Operation) : Prop :=
  ∃ before after, calls = before ++ .putAppend operation.modify :: after ∧
    .putAppend operation.ack ∉ before ∧ .putAppend operation.modify ∈ before

/-- No other operation uses the identifier of this one. -/
def OwnsId (calls : List Call) (operation : Operation) : Prop :=
  ∀ request, .putAppend request ∈ calls → request.operation.id = operation.id →
    request.operation = operation

/-- Calls without an execution all come before the first one. -/
theorem before_first_of_not_mem (hmem : .putAppend operation.modify ∉ before) (after : List Call) :
    beforeFirst (before ++ .putAppend operation.modify :: after) operation = before := by
  have hall : ∀ call ∈ before, decide (call ≠ .putAppend operation.modify) = true := by
    intro call hcall
    have hne : call ≠ .putAppend operation.modify := fun heq => hmem (heq ▸ hcall)
    exact decide_eq_true hne
  rw [beforeFirst, List.takeWhile_append_of_pos hall]
  simp

/-- The first execution is found in every part of the calls that contains one. -/
theorem original_value_append (hmem : .putAppend operation.modify ∈ before) (after : List Call) :
    originalValue (before ++ after) operation = originalValue before operation := by
  obtain ⟨first, rest, rfl, hfirst⟩ := List.eq_append_cons_of_mem hmem
  rw [originalValue, originalValue, List.append_assoc, List.cons_append,
    before_first_of_not_mem hfirst, before_first_of_not_mem hfirst]

/-- At the first execution the original value is the one that the key has. -/
theorem original_value_of_not_mem (hmem : .putAppend operation.modify ∉ before)
    (after : List Call) :
    originalValue (before ++ .putAppend operation.modify :: after) operation =
      get (afterCalls before) operation.key := by
  rw [originalValue, before_first_of_not_mem hmem]

/-- A call that is none of the two requests of an operation leaves its record alone. -/
theorem execute_id_map_of_ne (kv : KVServer) {call : Call} (howns : OwnsId [call] operation)
    (hmodify : call ≠ .putAppend operation.modify) (hack : call ≠ .putAppend operation.ack) :
    (call.execute kv).1.idMap operation.id = kv.idMap operation.id := by
  cases call with
  | get key => rfl
  | putAppend request =>
      refine serve_id_map_of_ne fun hid => ?_
      rcases request_cases (howns request List.mem_cons_self hid) with rfl | rfl
      · exact hmodify rfl
      · exact hack rfl

/-- Until its ack an operation has a record exactly if it has been executed, and the record is the
one that the first execution made. -/
theorem record_before_ack (howns : OwnsId before operation)
    (hack : .putAppend operation.ack ∉ before) :
    (afterCalls before).idMap operation.id =
      if .putAppend operation.modify ∈ before then
        some (operation.op.recorded (originalValue before operation) operation.value)
      else none := by
  induction before using List.reverseRecOn with
  | nil => rfl
  | append_singleton before call ih =>
      simp only [List.mem_append, List.mem_singleton, not_or] at hack
      have hrecord := ih (fun request hmem => howns request (List.mem_append_left _ hmem)) hack.1
      rw [after_calls_concat]
      by_cases hcall : call = .putAppend operation.modify
      · subst hcall
        rw [if_pos (by simp)]
        by_cases hmem : .putAppend operation.modify ∈ before
        · -- a retry
          rw [if_pos hmem] at hrecord
          rw [Call.execute, handle_retry _ rfl hrecord, hrecord, original_value_append hmem]
        · -- the first execution
          rw [if_neg hmem] at hrecord
          rw [Call.execute, handle_fresh _ rfl hrecord, original_value_of_not_mem hmem]
          exact Function.update_self _ _ _
      · have hone : OwnsId [call] operation :=
          fun request hmem => howns request (List.mem_append_right _ hmem)
        rw [execute_id_map_of_ne _ hone hcall (Ne.symm hack.2), hrecord]
        by_cases hmem : .putAppend operation.modify ∈ before
        · rw [if_pos hmem, if_pos (List.mem_append_left _ hmem), original_value_append hmem]
        · rw [if_neg hmem, if_neg (by simp [hmem, Ne.symm hcall])]

/-- The reply to a modify request before the ack: the old value at the first execution, and the
record of the first execution at every retry. -/
theorem modify_reply (howns : OwnsId before operation) (hack : .putAppend operation.ack ∉ before)
    (after : List Call) :
    ((Call.putAppend operation.modify).execute (afterCalls before)).2 =
      if .putAppend operation.modify ∈ before then
        operation.op.recorded
          (originalValue (before ++ .putAppend operation.modify :: after) operation) operation.value
      else originalValue (before ++ .putAppend operation.modify :: after) operation := by
  have hrecord := record_before_ack howns hack
  by_cases hmem : .putAppend operation.modify ∈ before
  · rw [if_pos hmem] at hrecord
    rw [if_pos hmem, Call.execute, handle_retry _ rfl hrecord, original_value_append hmem]
  · rw [if_neg hmem] at hrecord
    rw [if_neg hmem, Call.execute, handle_fresh _ rfl hrecord, original_value_of_not_mem hmem]
    rfl

end Retries

/-- The executions of an operation before its ack all reply the value from before the first one,
exactly when the operation is an append, or puts the value that is already there, or is not
retried before its ack. -/
theorem retries_agree_iff (calls : List Call) (operation : Operation)
    (howns : OwnsId calls operation) :
    RetriesAgree calls operation ↔
      operation.op = .append ∨ originalValue calls operation = operation.value ∨
        ¬ Retried calls operation := by
  have howns' : ∀ before after, calls = before ++ after → OwnsId before operation := by
    intro before after heq request hmem
    exact howns request (heq ▸ List.mem_append_left after hmem)
  constructor
  · intro hagree
    by_contra hnot
    simp only [not_or, not_not] at hnot
    obtain ⟨hop, hvalue, before, after, rfl, hack, hmem⟩ := hnot
    have hreply := modify_reply (howns' before _ rfl) hack after
    rw [hagree before after rfl hack, if_pos hmem] at hreply
    cases hput : operation.op with
    | put =>
        rw [hput] at hreply
        exact hvalue hreply
    | append => exact hop hput
  · rintro hcases before after rfl hack
    rw [modify_reply (howns' before _ rfl) hack after]
    split
    · rename_i hmem
      rcases hcases with happend | hvalue | hretried
      · rw [happend]
        rfl
      · rw [hvalue]
        cases operation.op <;> rfl
      · exact absurd ⟨before, after, rfl, hack, hmem⟩ hretried
    · rfl

/-- A client appends `3` to the key of the two puts. -/
def retriedAppend : Operation := ⟨.append, ascii ['k'], ascii ['3'], 3⟩

/-- An append that is retried after a put by another client still replies the value from before its
first execution. -/
theorem retries_agree_append :
    RetriesAgree [.putAppend firstPut.modify, .putAppend retriedAppend.modify,
      .putAppend secondPut.modify, .get (ascii ['k']), .putAppend retriedAppend.modify]
      retriedAppend := by
  refine (retries_agree_iff _ _ ?_).mpr (Or.inl rfl)
  intro request hmem hid
  simp only [List.mem_cons, Call.putAppend.injEq, reduceCtorEq, List.not_mem_nil, or_false,
    false_or] at hmem
  rcases hmem with rfl | rfl | rfl | rfl
  · exact absurd hid (by decide)
  · rfl
  · exact absurd hid (by decide)
  · rfl

/-- The first execution of a put replies the empty string, and its retry replies the new value. -/
theorem retried_put_replies_new_value :
    ¬ ∀ calls operation, OwnsId calls operation → RetriesAgree calls operation := by
  intro hall
  have howns : OwnsId [.putAppend firstPut.modify, .putAppend firstPut.modify] firstPut := by
    intro request hmem _
    simp only [List.mem_cons, Call.putAppend.injEq, List.not_mem_nil, or_false, or_self] at hmem
    rw [hmem]
    rfl
  have hreply := hall _ _ howns [.putAppend firstPut.modify] [] rfl (by decide)
  exact absurd hreply (by decide)

end DistributedLabs.Kvsrv
