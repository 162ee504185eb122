import DistributedLabs.Kvsrv.Clerk
import DistributedLabs.Library.Linearization

/-!
# The key/value server is linearizable

The specification is `storeObject`, a map in which every key starts as the empty string. The
linearization point of Put and Append is the first handler run of their modify request; the record
in `IDMap` is what keeps later runs from being a second one, and what carries the old value to a
retry. The point of Get is its last handler run: when the call of an earlier run returns false,
the entry of that run is taken back, which is sound because a read changes nothing.

`Tracked` ties the position of a clerk to the record of its operation and to the entry of its
pending operation in the linearization; `linearizable_of_distinct_ids` is the result for every run.
-/

namespace DistributedLabs.Kvsrv

/-- The operations that a client calls. -/
inductive Command where
  | get (key : GoString)
  | put (key value : GoString)
  | append (key value : GoString)
  deriving DecidableEq

/-- The sequential map: a missing key reads as the empty string, Put overwrites and returns nothing,
and Append concatenates and returns the old value. -/
def storeObject : SequentialObject (GoString → GoString) Command (Option GoString) where
  init := fun _ => []
  step := fun store command output =>
    match command with
    | .get key => if output = some (store key) then some store else none
    | .put key value => if output = none then some (Function.update store key value) else none
    | .append key value =>
        if output = some (store key) then some (Function.update store key (store key ++ value))
        else none

/-- The command that a Put or Append operation was called with. -/
def Operation.command (operation : Operation) : Command :=
  match operation.op with
  | .put => .put operation.key operation.value
  | .append => .append operation.key operation.value

/-- The command that the clerk is performing. -/
def Phase.command : Phase → Command
  | .get key => .get key
  | .modify operation => operation.command
  | .ack operation _ => operation.command

/-- The calls and returns of operations that a step shows. -/
def clientEvents {C : Type} (system : System C) :
    Action C → List (Event C Command (Option GoString))
  | .get clerk key => [.invoke clerk (.get key)]
  | .putAppend clerk operation => [.invoke clerk operation.command]
  | .finish clerk =>
      match system.clerks clerk with
      | .done output => [.respond clerk output]
      | _ => []
  | .call _ => []
  | .handle _ => []
  | .callFalse _ => []
  | .callTrue _ => []

/-- The history of client operations of a run. -/
def clientHistory {C : Type} [DecidableEq C] (actions : List (Action C)) :
    List (OpRecord C Nat Command (Option GoString)) :=
  record ((clerks C).observe clientEvents actions)

/-! ## The specification and the server -/

/-- The result recorded for retries gives the output of the first execution. -/
@[simp] theorem Op.output_recorded (op : Op) (old value : GoString) :
    op.output (op.recorded old value) = op.output old := by
  cases op <;> rfl

/-- The first execution of an operation is a step of the specification. -/
theorem store_object_modify (store : GoString → GoString) (operation : Operation) :
    storeObject.step store operation.command (operation.op.output (store operation.key)) =
      some (Function.update store operation.key
        (operation.op.stored (store operation.key) operation.value)) := by
  obtain ⟨op, key, value, id⟩ := operation
  cases op <;> simp [storeObject, Operation.command, Op.output, Op.stored]

/-- Reading a key is a step of the specification that changes nothing. -/
theorem store_object_get {store next : GoString → GoString} {key : GoString}
    {output : Option GoString} (h : storeObject.step store (.get key) output = some next) :
    next = store := by
  simp only [storeObject] at h
  split at h
  · exact (Option.some.inj h).symm
  · cases h

/-- Storing a value is an update of what can be read. -/
theorem get_update (kv : KVServer) (key value : GoString) (records : Int64 → Option GoString) :
    get { storeMap := Function.update kv.storeMap key (some value), idMap := records } =
      Function.update (get kv) key value := by
  funext other
  by_cases heq : other = key
  · subst heq
    simp [get_eq]
  · simp [get_eq, heq]

/-! ## What a position of a clerk says about its pending operation -/

section Tracking

variable {C : Type} {kv kv' : KVServer}
  {history history' : List (OpRecord C Nat Command (Option GoString))}
  {order order' : List (Entry Command (Option GoString))}

/-- The pending operation of a clerk. -/
structure Pending (history : List (OpRecord C Nat Command (Option GoString))) (clerk : C)
    (index : Nat) (op : OpRecord C Nat Command (Option GoString)) : Prop where
  lookup : history[index]? = some op
  process : op.process = clerk
  pending : op.ret = none
  only : ∀ other pending, history[other]? = some pending → pending.process = clerk →
    pending.ret = none → other = index

/-- No operation of the clerk is pending. -/
def Quiet (history : List (OpRecord C Nat Command (Option GoString))) (clerk : C) : Prop :=
  ∀ op ∈ history, op.process = clerk → op.ret ≠ none

/-- What a request says about the entry of its operation. An entry exists once a modify request
was executed, and as long as there is no record it was not. -/
def Phase.Tracked (kv : KVServer) (order : List (Entry Command (Option GoString))) (index : Nat) :
    Phase → CallPc → Prop
  | .get key, .handled value => ⟨index, .get key, some value⟩ ∈ order
  | .get _, _ => ∀ entry ∈ order, entry.index ≠ index
  | .modify operation, call =>
      (kv.idMap operation.id = none → ∀ entry ∈ order, entry.index ≠ index) ∧
      (∀ value, kv.idMap operation.id = some value ∨ call = .handled value →
        ⟨index, operation.command, operation.op.output value⟩ ∈ order)
  | .ack operation result, _ => ⟨index, operation.command, operation.op.output result⟩ ∈ order

/-- What the position of a clerk says about its pending operation. -/
def Tracked (kv : KVServer) (history : List (OpRecord C Nat Command (Option GoString)))
    (order : List (Entry Command (Option GoString))) (clerk : C) : ClerkPc → Prop
  | .idle => Quiet history clerk
  | .calling phase call => ∃ index op, Pending history clerk index op ∧
      op.input = phase.command ∧ phase.Tracked kv order index call
  | .done output => ∃ index op, Pending history clerk index op ∧
      ⟨index, op.input, output⟩ ∈ order

/-- Pending operations of different clerks are different operations. -/
theorem Pending.index_ne {first second : C} {index other : Nat}
    {op op' : OpRecord C Nat Command (Option GoString)} (h : Pending history first index op)
    (h' : Pending history second other op') (hne : first ≠ second) : other ≠ index := by
  rintro rfl
  have heq : op = op' := Option.some.inj (h.lookup.symm.trans h'.lookup)
  exact hne (h.process.symm.trans ((congrArg OpRecord.process heq).trans h'.process))

/-- What a request says depends only on the entries of its operation and on its record. -/
theorem Phase.Tracked.congr {phase : Phase} {call : CallPc} {index : Nat}
    (h : phase.Tracked kv order index call)
    (horder : ∀ entry : Entry Command (Option GoString), entry.index = index →
      (entry ∈ order' ↔ entry ∈ order))
    (hids : ∀ id, phase.id = some id → kv'.idMap id = kv.idMap id) :
    phase.Tracked kv' order' index call := by
  have habsent : (∀ entry ∈ order, entry.index ≠ index) → ∀ entry ∈ order', entry.index ≠ index :=
    fun hnone entry hmem hindex => hnone entry ((horder entry hindex).mp hmem) hindex
  cases phase with
  | get key =>
      cases call with
      | handled value => exact (horder _ rfl).mpr h
      | ready => exact habsent h
      | waiting => exact habsent h
  | modify operation =>
      obtain ⟨hnone, hplaced⟩ := h
      rw [← hids operation.id rfl] at hnone hplaced
      exact ⟨fun hid => habsent (hnone hid),
        fun value hvalue => (horder _ rfl).mpr (hplaced value hvalue)⟩
  | ack operation result => exact (horder _ rfl).mpr h

/-- What the position of a clerk says is kept by everything that leaves its operation, the entries
of its operation and its record alone. -/
theorem Tracked.congr {clerk : C} {pc : ClerkPc} (h : Tracked kv history order clerk pc)
    (hquiet : Quiet history clerk → Quiet history' clerk)
    (hpending : ∀ index op, Pending history clerk index op → Pending history' clerk index op)
    (horder : ∀ index op, Pending history clerk index op →
      ∀ entry : Entry Command (Option GoString), entry.index = index →
        (entry ∈ order' ↔ entry ∈ order))
    (hids : ∀ id, pc.id = some id → kv'.idMap id = kv.idMap id) :
    Tracked kv' history' order' clerk pc := by
  cases pc with
  | idle => exact hquiet h
  | calling phase call =>
      obtain ⟨index, op, hop, hinput, hphase⟩ := h
      refine ⟨index, op, hpending index op hop, hinput, ?_⟩
      refine hphase.congr (horder index op hop) fun id hid => hids id ?_
      rw [ClerkPc.id_calling, hid]
  | done output =>
      obtain ⟨index, op, hop, hmem⟩ := h
      exact ⟨index, op, hpending index op hop, (horder index op hop _ rfl).mpr hmem⟩

/-- A call that has no reply says nothing more when it moves. -/
theorem Phase.Tracked.no_reply {phase : Phase} {call call' : CallPc} {index : Nat}
    (h : phase.Tracked kv order index call) (hcall : ∀ value, call ≠ .handled value)
    (hcall' : ∀ value, call' ≠ .handled value) : phase.Tracked kv order index call' := by
  cases phase with
  | get key =>
      cases call with
      | handled value => exact absurd rfl (hcall value)
      | ready =>
          cases call' with
          | handled value => exact absurd rfl (hcall' value)
          | ready => exact h
          | waiting => exact h
      | waiting =>
          cases call' with
          | handled value => exact absurd rfl (hcall' value)
          | ready => exact h
          | waiting => exact h
  | modify operation =>
      refine ⟨h.1, ?_⟩
      rintro value (hid | hhandled)
      · exact h.2 value (Or.inl hid)
      · exact absurd hhandled (hcall' value)
  | ack operation result => exact h

/-! ### The history grows -/

/-- A call of another clerk leaves a pending operation pending. -/
theorem Pending.invoke {clerk : C} {index : Nat} {op new : OpRecord C Nat Command (Option GoString)}
    (h : Pending history clerk index op) (hne : new.process ≠ clerk) :
    Pending (history ++ [new]) clerk index op where
  lookup := by
    rw [List.getElem?_append_left (List.getElem?_eq_some_iff.mp h.lookup).1]
    exact h.lookup
  process := h.process
  pending := h.pending
  only := by
    intro other pending hlookup hprocess hpending
    rcases Nat.lt_or_ge other history.length with hlt | hge
    · rw [List.getElem?_append_left hlt] at hlookup
      exact h.only other pending hlookup hprocess hpending
    · rw [List.getElem?_append_right hge] at hlookup
      obtain rfl := List.mem_singleton.mp (List.mem_of_getElem? hlookup)
      exact absurd hprocess hne

/-- The call of a quiet clerk becomes its pending operation. -/
theorem Quiet.invoke {clerk : C} {input : Command} {time : Nat} (h : Quiet history clerk) :
    Pending (history ++ [⟨clerk, input, time, none⟩]) clerk history.length
      ⟨clerk, input, time, none⟩ where
  lookup := List.getElem?_concat_length
  process := rfl
  pending := rfl
  only := by
    intro other pending hlookup hprocess hpending
    rcases Nat.lt_or_ge other history.length with hlt | hge
    · rw [List.getElem?_append_left hlt] at hlookup
      exact absurd hpending (h pending (List.mem_of_getElem? hlookup) hprocess)
    · have hlt := (List.getElem?_eq_some_iff.mp hlookup).1
      rw [List.length_append, List.length_singleton] at hlt
      omega

/-- After the return of its pending operation a clerk is quiet. -/
theorem Pending.respond_self {clerk : C} {index : Nat}
    {op : OpRecord C Nat Command (Option GoString)} {result : Nat × Option GoString}
    (h : Pending history clerk index op) :
    Quiet (history.set index { op with ret := some result }) clerk := by
  intro other hmem hprocess hpending
  obtain ⟨position, hlookup⟩ := List.getElem?_of_mem hmem
  rw [List.getElem?_set] at hlookup
  split at hlookup
  · split at hlookup
    · cases hlookup
      cases hpending
    · cases hlookup
  · rename_i hne
    exact hne (h.only position other hlookup hprocess hpending).symm

/-- The return of another clerk's operation leaves a pending operation pending. -/
theorem Pending.respond {clerk : C} {index other : Nat}
    {op returned : OpRecord C Nat Command (Option GoString)} {result : Nat × Option GoString}
    (h : Pending history clerk index op) (hne : index ≠ other) :
    Pending (history.set other { returned with ret := some result }) clerk index op where
  lookup := by
    rw [List.getElem?_set_ne hne.symm]
    exact h.lookup
  process := h.process
  pending := h.pending
  only := by
    intro position pending hlookup hprocess hpending
    rw [List.getElem?_set] at hlookup
    split at hlookup
    · split at hlookup
      · cases hlookup
        cases hpending
      · cases hlookup
    · exact h.only position pending hlookup hprocess hpending

/-- The return of another clerk's operation leaves a quiet clerk quiet. -/
theorem Quiet.respond {clerk : C} {other : Nat}
    {returned : OpRecord C Nat Command (Option GoString)} {result : Nat × Option GoString}
    (h : Quiet history clerk) :
    Quiet (history.set other { returned with ret := some result }) clerk := by
  intro op hmem hprocess
  rcases List.mem_or_eq_of_mem_set hmem with hold | rfl
  · exact h op hold hprocess
  · simp

end Tracking

/-! ## Every run is linearizable -/

section Runs

variable {C : Type} [DecidableEq C] {system : System C}
  {history : List (OpRecord C Nat Command (Option GoString))}
  {order : List (Entry Command (Option GoString))}

/-- The entries linearize the history to what the server's store reads as, and every clerk is
tracked. -/
structure Linearized (system : System C)
    (history : List (OpRecord C Nat Command (Option GoString)))
    (order : List (Entry Command (Option GoString))) : Prop where
  linear : IsLinearization storeObject history order (get system.kv)
  tracked : ∀ clerk, Tracked system.kv history order clerk (system.clerks clerk)

/-- A step that leaves the history alone keeps the linearization, when the new entries linearize the
history to what the new store reads as, and the entries and records of the other clerks stay. -/
theorem Linearized.advance (h : Linearized system history order) {clerk : C} {kv : KVServer}
    {pc : ClerkPc} {order' : List (Entry Command (Option GoString))}
    (hlinear : IsLinearization storeObject history order' (get kv))
    (horder : ∀ other index op, other ≠ clerk → Pending history other index op →
      ∀ entry : Entry Command (Option GoString), entry.index = index →
        (entry ∈ order' ↔ entry ∈ order))
    (hids : ∀ other id, other ≠ clerk → (system.clerks other).id = some id →
      kv.idMap id = system.kv.idMap id)
    (hpc : Tracked kv history order' clerk pc) :
    Linearized ({ system with kv := kv }.setClerk clerk pc) history order' where
  linear := hlinear
  tracked := by
    intro other
    by_cases heq : other = clerk
    · subst heq
      rw [System.set_clerk_self]
      exact hpc
    · rw [System.set_clerk_of_ne _ _ heq]
      exact (h.tracked other).congr id (fun _ _ => id)
        (fun index op => horder other index op heq) (fun id => hids other id heq)

/-- A clerk may move to a position that says no more than the history and the entries hold. -/
theorem Linearized.move (h : Linearized system history order) {clerk : C} {pc : ClerkPc}
    (hpc : Tracked system.kv history order clerk pc) :
    Linearized (system.setClerk clerk pc) history order :=
  h.advance h.linear (fun _ _ _ _ _ _ _ => Iff.rfl) (fun _ _ _ _ => rfl) hpc

/-- An idle clerk starts an operation. -/
theorem Linearized.invoke (h : Linearized system history order) {clerk : C} (phase : Phase)
    (time : Nat) (hidle : system.clerks clerk = .idle)
    (hphase : phase.Tracked system.kv order history.length .ready) :
    Linearized (system.setClerk clerk (.calling phase .ready))
      (history ++ [⟨clerk, phase.command, time, none⟩]) order where
  linear := h.linear.invoke rfl
  tracked := by
    intro other
    by_cases heq : other = clerk
    · subst heq
      have hquiet := h.tracked other
      rw [hidle] at hquiet
      rw [System.set_clerk_self]
      exact ⟨_, _, Quiet.invoke hquiet, rfl, hphase⟩
    · rw [System.set_clerk_of_ne _ _ heq]
      refine (h.tracked other).congr ?_ ?_ (fun _ _ _ _ _ => Iff.rfl) (fun _ _ => rfl)
      · intro hquiet op hmem hprocess
        rcases List.mem_append.mp hmem with hold | hnew
        · exact hquiet op hold hprocess
        · obtain rfl := List.mem_singleton.mp hnew
          exact absurd hprocess.symm heq
      · exact fun index op hop => hop.invoke (Ne.symm heq)

/-- The pending operation of a clerk returns. -/
theorem Linearized.respond (h : Linearized system history order) {clerk : C}
    {output : Option GoString} {index : Nat} {op : OpRecord C Nat Command (Option GoString)}
    (time : Nat) (hop : Pending history clerk index op) (hmem : ⟨index, op.input, output⟩ ∈ order)
    (hlatest : ∀ other ∈ history, ¬ time < other.call) :
    Linearized (system.setClerk clerk .idle)
      (history.set index { op with ret := some (time, output) }) order where
  linear := h.linear.respond hop.lookup hmem hlatest
  tracked := by
    intro other
    by_cases heq : other = clerk
    · subst heq
      rw [System.set_clerk_self]
      exact hop.respond_self
    · rw [System.set_clerk_of_ne _ _ heq]
      refine (h.tracked other).congr Quiet.respond ?_ (fun _ _ _ _ _ => Iff.rfl) (fun _ _ => rfl)
      exact fun position pending hpending =>
        hpending.respond (hop.index_ne hpending (Ne.symm heq))

/-- A handler run that is a step of the specification places its operation at the end. -/
theorem Linearized.commit (h : Linearized system history order) {clerk : C} {kv : KVServer}
    {pc : ClerkPc} {index : Nat} {op : OpRecord C Nat Command (Option GoString)}
    (output : Option GoString) (hop : Pending history clerk index op)
    (hnew : ∀ entry ∈ order, entry.index ≠ index)
    (hstep : storeObject.step (get system.kv) op.input output = some (get kv))
    (hids : ∀ other id, other ≠ clerk → (system.clerks other).id = some id →
      kv.idMap id = system.kv.idMap id)
    (hpc : Tracked kv history (order ++ [⟨index, op.input, output⟩]) clerk pc) :
    Linearized ({ system with kv := kv }.setClerk clerk pc) history
      (order ++ [⟨index, op.input, output⟩]) := by
  refine h.advance (h.linear.commit hop.lookup hop.pending hnew hstep) ?_ hids hpc
  intro other position pending hother hpending entry hentry
  have hne : position ≠ index := hop.index_ne hpending (Ne.symm hother)
  rw [List.mem_append, List.mem_singleton]
  refine ⟨fun hmem => hmem.resolve_right ?_, Or.inl⟩
  rintro rfl
  exact hne hentry.symm

/-- The entry of a read is taken back when its call returns false. -/
theorem Linearized.retract (h : Linearized system history order) {clerk : C} {key : GoString}
    {index : Nat} {op : OpRecord C Nat Command (Option GoString)} {output : Option GoString}
    (hop : Pending history clerk index op) (hinput : op.input = .get key)
    (hmem : ⟨index, op.input, output⟩ ∈ order) :
    Linearized (system.setClerk clerk (.calling (.get key) .ready)) history
      (order.filter fun entry => entry.index ≠ index) := by
  have hlinear := h.linear.retract hop.lookup hop.pending hmem (by
    intro before after hstep
    rw [hinput] at hstep
    exact store_object_get hstep)
  refine h.advance hlinear ?_ (fun _ _ _ _ => rfl) ⟨index, op, hop, hinput, ?_⟩
  · intro other position pending hother hpending entry hentry
    have hne : position ≠ index := hop.index_ne hpending (Ne.symm hother)
    rw [← hentry] at hne
    simp [List.mem_filter, hne]
  · intro entry hentry
    simpa using (List.mem_filter.mp hentry).2

/-- The first execution of an operation places it. -/
theorem Linearized.execute_fresh (h : Linearized system history order) {clerk : C}
    {operation : Operation} {index : Nat} {op : OpRecord C Nat Command (Option GoString)}
    (hop : Pending history clerk index op) (hinput : op.input = operation.command)
    (hid : system.kv.idMap operation.id = none) (hnew : ∀ entry ∈ order, entry.index ≠ index)
    (hids : ∀ other id, other ≠ clerk → (system.clerks other).id = some id →
      ((Phase.modify operation).execute system.kv).1.idMap id = system.kv.idMap id) :
    ∃ order', Linearized ({ system with kv :=
      ((Phase.modify operation).execute system.kv).1 }.setClerk clerk
        (.calling (.modify operation)
          (.handled ((Phase.modify operation).execute system.kv).2))) history order' := by
  have hfresh : (Phase.modify operation).execute system.kv = _ :=
    handle_fresh operation.op rfl hid
  rw [hfresh] at hids ⊢
  refine ⟨_, h.commit (operation.op.output (get system.kv operation.key)) hop hnew ?_ hids
    ⟨index, op, hop, hinput, ?_, ?_⟩⟩
  · rw [hinput, get_update]
    exact store_object_modify _ _
  · intro hnone
    simp [Operation.modify, Request.args] at hnone
  · -- both the record and the reply stand for the value before the first execution
    rintro value (hrecord | hreply)
    · rw [hinput]
      simp only [Operation.modify, Request.args, Function.update_self,
        Option.some.injEq] at hrecord
      rw [← hrecord, Op.output_recorded]
      exact List.mem_append_right _ (List.mem_singleton.mpr rfl)
    · cases hreply
      rw [hinput]
      exact List.mem_append_right _ (List.mem_singleton.mpr rfl)

/-- A handler run keeps the linearization, placing the operation when it takes effect. -/
theorem Linearized.execute {drawn : List Int64} (h : Linearized system history order)
    (hkept : IdsKept drawn system) {clerk : C} {phase : Phase}
    (hwaiting : system.clerks clerk = .calling phase .waiting) :
    ∃ order', Linearized ({ system with kv := (phase.execute system.kv).1 }.setClerk clerk
      (.calling phase (.handled (phase.execute system.kv).2))) history order' := by
  have hclerk : (system.clerks clerk).id = phase.id := by rw [hwaiting, ClerkPc.id_calling]
  -- the records of the other clerks are not touched
  have hids : ∀ other id, other ≠ clerk → (system.clerks other).id = some id →
      (phase.execute system.kv).1.idMap id = system.kv.idMap id := by
    intro other id hne hid
    refine Phase.execute_id_map_of_ne _ fun hphase => ?_
    exact hne (hkept.distinct other clerk id hid (hclerk.trans hphase))
  have htracked := h.tracked clerk
  rw [hwaiting] at htracked
  obtain ⟨index, op, hop, hinput, hphase⟩ := htracked
  cases phase with
  | get key =>
      refine ⟨_, h.commit (some (get system.kv key)) hop hphase ?_ hids ?_⟩
      · rw [hinput]
        exact if_pos rfl
      · refine ⟨index, op, hop, hinput, ?_⟩
        rw [hinput]
        exact List.mem_append_right _ (List.mem_singleton.mpr rfl)
  | modify operation =>
      cases hid : system.kv.idMap operation.id with
      | none => exact h.execute_fresh hop hinput hid (hphase.1 hid) hids
      | some value =>
          have hretry : (Phase.modify operation).execute system.kv = (system.kv, value) :=
            handle_retry operation.op rfl hid
          rw [hretry]
          refine ⟨order, h.move ⟨index, op, hop, hinput, hphase.1, ?_⟩⟩
          rintro reply (hrecord | hreply)
          · exact hphase.2 reply (Or.inl hrecord)
          · cases hreply
            exact hphase.2 value (Or.inl hid)
  | ack operation result =>
      have hack : (Phase.ack operation result).execute system.kv = _ :=
        handle_ack operation.op system.kv rfl
      rw [hack] at hids ⊢
      refine ⟨order, h.advance ?_ (fun _ _ _ _ _ _ _ => Iff.rfl) hids
        ⟨index, op, hop, hinput, hphase⟩⟩
      exact h.linear

/-- The return of a call with true moves the clerk on, with its entry. -/
theorem Linearized.proceed (h : Linearized system history order) {clerk : C} {phase : Phase}
    {value : GoString} (hhandled : system.clerks clerk = .calling phase (.handled value)) :
    Linearized (system.setClerk clerk (phase.next value)) history order := by
  have htracked := h.tracked clerk
  rw [hhandled] at htracked
  obtain ⟨index, op, hop, hinput, hphase⟩ := htracked
  refine h.move ?_
  cases phase with
  | get key =>
      refine ⟨index, op, hop, ?_⟩
      rw [hinput]
      exact hphase
  | modify operation => exact ⟨index, op, hop, hinput, hphase.2 value (Or.inr rfl)⟩
  | ack operation result =>
      refine ⟨index, op, hop, ?_⟩
      rw [hinput]
      exact hphase

/-- A call that returns false leaves the clerk ready to call again. -/
theorem Linearized.retry (h : Linearized system history order) {clerk : C} {phase : Phase}
    {call : CallPc} (hcalling : system.clerks clerk = .calling phase call) :
    ∃ order', Linearized (system.setClerk clerk (.calling phase .ready)) history order' := by
  have htracked := h.tracked clerk
  rw [hcalling] at htracked
  obtain ⟨index, op, hop, hinput, hphase⟩ := htracked
  cases call with
  | ready => exact ⟨order, h.move ⟨index, op, hop, hinput, hphase⟩⟩
  | waiting =>
      exact ⟨order, h.move ⟨index, op, hop, hinput, hphase.no_reply (by simp) (by simp)⟩⟩
  | handled value =>
      cases phase with
      | get key =>
          have hmem : ⟨index, op.input, some value⟩ ∈ order := by
            rw [hinput]
            exact hphase
          exact ⟨_, h.retract hop hinput hmem⟩
      | modify operation =>
          refine ⟨order, h.move ⟨index, op, hop, hinput, hphase.1, ?_⟩⟩
          rintro record (hrecord | hreply)
          · exact hphase.2 record (Or.inl hrecord)
          · cases hreply
      | ack operation result => exact ⟨order, h.move ⟨index, op, hop, hinput, hphase⟩⟩

/-- Every step keeps a linearization of the history so far. -/
theorem linearized_step {drawn : List Int64} {events : List (Event C Command (Option GoString))}
    {next : System C} {action : Action C} (h : Linearized system (record events) order)
    (hkept : IdsKept drawn system) (hfresh : (drawn ++ drawnIds [action]).Nodup)
    (hstep : step system action = some next) :
    ∃ order', Linearized next (record (events ++ clientEvents system action)) order' := by
  have hlength : ∀ entry ∈ order, entry.index ≠ (record events).length :=
    fun entry hmem => (h.linear.index_lt hmem).ne
  cases step_inversion hstep with
  | get clerk key hidle =>
      rw [clientEvents, record_concat]
      exact ⟨order, h.invoke (.get key) _ hidle hlength⟩
  | putAppend clerk operation hidle =>
      have hnew : operation.id ∉ drawn := fun hold =>
        (List.nodup_append.mp hfresh).2.2 _ hold _ List.mem_cons_self rfl
      rw [clientEvents, record_concat]
      refine ⟨order, h.invoke (.modify operation) _ hidle ⟨fun _ => hlength, ?_⟩⟩
      rintro value (hrecord | hreply)
      · rw [hkept.not_recorded hnew] at hrecord
        cases hrecord
      · cases hreply
  | call clerk phase hready =>
      have htracked := h.tracked clerk
      rw [hready] at htracked
      obtain ⟨index, op, hop, hinput, hphase⟩ := htracked
      rw [clientEvents, List.append_nil]
      exact ⟨order, h.move ⟨index, op, hop, hinput, hphase.no_reply (by simp) (by simp)⟩⟩
  | handle clerk phase hwaiting =>
      rw [clientEvents, List.append_nil]
      exact h.execute hkept hwaiting
  | callFalse clerk phase call hcalling =>
      rw [clientEvents, List.append_nil]
      exact h.retry hcalling
  | callTrue clerk phase value hhandled =>
      rw [clientEvents, List.append_nil]
      exact ⟨order, h.proceed hhandled⟩
  | finish clerk output hdone =>
      have htracked := h.tracked clerk
      rw [hdone] at htracked
      obtain ⟨index, op, hop, hmem⟩ := htracked
      have hrecord := record_step_respond events.length output hop.lookup hop.process hop.pending
        hop.only
      simp only [clientEvents, hdone]
      rw [record_concat, hrecord]
      exact ⟨order, h.respond events.length hop hmem
        fun other hother => (call_lt_length hother).le.not_gt⟩

/-- The empty run is linearized by no entries. -/
theorem linearized_init :
    Linearized (clerks C).init (record []) ([] : List (Entry Command (Option GoString))) where
  linear := IsLinearization.empty
  tracked := fun clerk op hmem => by cases hmem

end Runs

/-- The history of every run is linearizable, provided that no request identifier is drawn twice. -/
theorem linearizable_of_distinct_ids {C : Type} [DecidableEq C] (actions : List (Action C))
    (system : System C) (hrun : (clerks C).run actions = some system)
    (hids : (drawnIds actions).Nodup) :
    Linearizable storeObject (clientHistory actions) := by
  have hlinearized := Machine.run_induction
    (motive := fun actions system => (drawnIds actions).Nodup →
      ∃ order, Linearized system (clientHistory actions) order)
    (fun _ => ⟨[], linearized_init⟩) (by
      intro actions system action next hrun ih hstep hnodup
      rw [drawnIds, List.filterMap_append] at hnodup
      have hbefore : (drawnIds actions).Nodup := (List.nodup_append.mp hnodup).1
      obtain ⟨order, hlinearized⟩ := ih hbefore
      rw [clientHistory, Machine.observe_concat hrun hstep]
      exact linearized_step hlinearized (ids_kept hrun hbefore) hnodup hstep) hrun hids
  obtain ⟨order, hlinearized⟩ := hlinearized
  exact ⟨order, get system.kv, hlinearized.linear⟩

/-- Two clerks. -/
inductive TwoClerks where
  | first
  | second
  deriving DecidableEq

/-- Two clerks append to one key; the reply of the first append is lost, the second append is
executed, and the retry of the first returns after it. -/
def lostReply : List (Action TwoClerks) :=
  [.putAppend .first ⟨.append, ascii ['k'], ascii ['1'], 1⟩, .call .first, .handle .first,
    .callFalse .first,
    .putAppend .second ⟨.append, ascii ['k'], ascii ['2'], 2⟩, .call .second, .handle .second,
    .callTrue .second,
    .call .first, .handle .first, .callTrue .first, .call .first, .handle .first,
    .callTrue .first, .finish .first,
    .get .first (ascii ['k']), .call .first, .handle .first, .callFalse .first, .call .first,
    .handle .first, .callTrue .first, .finish .first]

/-- The run with a lost reply satisfies the conditions, and its history is linearizable. -/
theorem linearizable_lost_reply :
    ((clerks TwoClerks).run lostReply).isSome ∧ (drawnIds lostReply).Nodup ∧
      Linearizable storeObject (clientHistory lostReply) := by
  obtain ⟨system, hrun⟩ := Option.isSome_iff_exists.mp
    (show ((clerks TwoClerks).run lostReply).isSome = true by decide)
  have hids : (drawnIds lostReply).Nodup := by decide
  exact ⟨by rw [hrun]; rfl, hids, linearizable_of_distinct_ids lostReply system hrun hids⟩

end DistributedLabs.Kvsrv
