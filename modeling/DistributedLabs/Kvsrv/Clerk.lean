import DistributedLabs.Kvsrv.Server
import DistributedLabs.Library.Machine

/-!
# Clerks and their calls

The clerks of `kvsrv/client.go` with one server. A clerk performs one operation at a time; each
operation is a loop of calls that ends when a call returns true, and `PutAppend` is two such loops,
the second of which acks the reply of the first. A call runs the handler at most once, between its
start and its return, and may return false before or after the run; only a call that returns true
gives the clerk the reply.

`step_inversion` lists what a step can do. `IdsKept` is the invariant on request identifiers: a
record in `IDMap` belongs to the clerk whose operation is in progress.
-/

namespace DistributedLabs.Kvsrv

/-- The requests between which the loops of a clerk move: `modify` and `ack` are the two loops of
`PutAppend`, and `result` is the reply kept from the first. -/
inductive Phase where
  | get (key : GoString)
  | modify (operation : Operation)
  | ack (operation : Operation) (result : GoString)

/-- Where the current call of a loop stands. -/
inductive CallPc where
  | ready
  | waiting
  | handled (value : GoString)

/-- What a clerk is doing. `Get` and `Append` return a value and `Put` does not. -/
inductive ClerkPc where
  | idle
  | calling (phase : Phase) (call : CallPc)
  | done (output : Option GoString)

/-- What `Put` and `Append` return to their caller, from the result of `PutAppend`. -/
def Op.output : Op → GoString → Option GoString
  | .put, _ => none
  | .append, result => some result

/-- The handler run of a request, and its reply. -/
def Phase.execute (kv : KVServer) : Phase → KVServer × GoString
  | .get key => (kv, Kvsrv.get kv key)
  | .modify operation => handle operation.op kv operation.modify.args
  | .ack operation _ => handle operation.op kv operation.ack.args

/-- What the clerk does once a call has returned true. -/
def Phase.next : Phase → GoString → ClerkPc
  | .get _, value => .done (some value)
  | .modify operation, value => .calling (.ack operation value) .ready
  | .ack operation result, _ => .done (operation.op.output result)

/-- One server and its clerks. -/
structure System (C : Type) where
  kv : KVServer
  clerks : C → ClerkPc

/-- The steps of a clerk: start an operation, start a call, have the handler run, have the call
return false or true, and return from the operation. The identifier of `putAppend` is the one that
`nrand` draws. -/
inductive Action (C : Type) where
  | get (clerk : C) (key : GoString)
  | putAppend (clerk : C) (operation : Operation)
  | call (clerk : C)
  | handle (clerk : C)
  | callFalse (clerk : C)
  | callTrue (clerk : C)
  | finish (clerk : C)

section Steps

variable {C : Type} [DecidableEq C]

/-- Move one clerk. -/
def System.setClerk (system : System C) (clerk : C) (pc : ClerkPc) : System C :=
  { system with clerks := Function.update system.clerks clerk pc }

/-- Moving a clerk leaves the server alone. -/
@[simp] theorem System.set_clerk_kv (system : System C) (clerk : C) (pc : ClerkPc) :
    (system.setClerk clerk pc).kv = system.kv := rfl

/-- The moved clerk is where it was moved to. -/
@[simp] theorem System.set_clerk_self (system : System C) (clerk : C) (pc : ClerkPc) :
    (system.setClerk clerk pc).clerks clerk = pc :=
  Function.update_self _ _ _

/-- The other clerks do not move. -/
theorem System.set_clerk_of_ne (system : System C) {clerk other : C} (pc : ClerkPc)
    (hne : other ≠ clerk) : (system.setClerk clerk pc).clerks other = system.clerks other :=
  Function.update_of_ne hne _ _

/-- One step of the system. -/
def step (system : System C) : Action C → Option (System C)
  | .get clerk key =>
      match system.clerks clerk with
      | .idle => some (system.setClerk clerk (.calling (.get key) .ready))
      | _ => none
  | .putAppend clerk operation =>
      match system.clerks clerk with
      | .idle => some (system.setClerk clerk (.calling (.modify operation) .ready))
      | _ => none
  | .call clerk =>
      match system.clerks clerk with
      | .calling phase .ready => some (system.setClerk clerk (.calling phase .waiting))
      | _ => none
  | .handle clerk =>
      match system.clerks clerk with
      | .calling phase .waiting =>
          some ({ system with kv := (phase.execute system.kv).1 }.setClerk clerk
            (.calling phase (.handled (phase.execute system.kv).2)))
      | _ => none
  | .callFalse clerk =>
      match system.clerks clerk with
      -- the request was lost, or else its reply was
      | .calling phase .waiting => some (system.setClerk clerk (.calling phase .ready))
      | .calling phase (.handled _) => some (system.setClerk clerk (.calling phase .ready))
      | _ => none
  | .callTrue clerk =>
      match system.clerks clerk with
      | .calling phase (.handled value) => some (system.setClerk clerk (phase.next value))
      | _ => none
  | .finish clerk =>
      match system.clerks clerk with
      | .done _ => some (system.setClerk clerk .idle)
      | _ => none

variable (C) in
/-- The clerks and an empty server. -/
def clerks : Machine (System C) (Action C) where
  init := { kv := startKVServer, clerks := fun _ => .idle }
  step := step

/-- The steps of the system with their conditions. -/
inductive Transition (system : System C) : Action C → System C → Prop where
  | get (clerk : C) (key : GoString) (hidle : system.clerks clerk = .idle) :
      Transition system (.get clerk key) (system.setClerk clerk (.calling (.get key) .ready))
  | putAppend (clerk : C) (operation : Operation) (hidle : system.clerks clerk = .idle) :
      Transition system (.putAppend clerk operation)
        (system.setClerk clerk (.calling (.modify operation) .ready))
  | call (clerk : C) (phase : Phase) (hready : system.clerks clerk = .calling phase .ready) :
      Transition system (.call clerk) (system.setClerk clerk (.calling phase .waiting))
  | handle (clerk : C) (phase : Phase) (hwaiting : system.clerks clerk = .calling phase .waiting) :
      Transition system (.handle clerk)
        ({ system with kv := (phase.execute system.kv).1 }.setClerk clerk
          (.calling phase (.handled (phase.execute system.kv).2)))
  | callFalse (clerk : C) (phase : Phase) (call : CallPc)
      (hcalling : system.clerks clerk = .calling phase call) :
      Transition system (.callFalse clerk) (system.setClerk clerk (.calling phase .ready))
  | callTrue (clerk : C) (phase : Phase) (value : GoString)
      (hhandled : system.clerks clerk = .calling phase (.handled value)) :
      Transition system (.callTrue clerk) (system.setClerk clerk (phase.next value))
  | finish (clerk : C) (output : Option GoString) (hdone : system.clerks clerk = .done output) :
      Transition system (.finish clerk) (system.setClerk clerk .idle)

/-- Every step of the system is a transition. -/
theorem step_inversion {system next : System C} {action : Action C}
    (h : step system action = some next) : Transition system action next := by
  cases action with
  | get clerk key =>
      simp only [step] at h
      split at h
      · cases h
        exact .get clerk key ‹_›
      · cases h
  | putAppend clerk operation =>
      simp only [step] at h
      split at h
      · cases h
        exact .putAppend clerk operation ‹_›
      · cases h
  | call clerk =>
      simp only [step] at h
      split at h
      · cases h
        exact .call clerk _ ‹_›
      · cases h
  | handle clerk =>
      simp only [step] at h
      split at h
      · cases h
        exact .handle clerk _ ‹_›
      · cases h
  | callFalse clerk =>
      simp only [step] at h
      split at h
      · cases h
        exact .callFalse clerk _ _ ‹_›
      · cases h
        exact .callFalse clerk _ _ ‹_›
      · cases h
  | callTrue clerk =>
      simp only [step] at h
      split at h
      · cases h
        exact .callTrue clerk _ _ ‹_›
      · cases h
  | finish clerk =>
      simp only [step] at h
      split at h
      · cases h
        exact .finish clerk _ ‹_›
      · cases h

end Steps

/-! ## Request identifiers -/

/-- The identifiers drawn by `nrand` in a run. -/
def drawnIds {C : Type} (actions : List (Action C)) : List Int64 :=
  actions.filterMap fun action =>
    match action with
    | .putAppend _ operation => some operation.id
    | _ => none

/-- The identifier that a clerk is using. -/
def ClerkPc.id : ClerkPc → Option Int64
  | .calling (.modify operation) _ => some operation.id
  | .calling (.ack operation _) _ => some operation.id
  | _ => none

/-- The identifier that a handler run may write. -/
def Phase.id : Phase → Option Int64
  | .get _ => none
  | .modify operation => some operation.id
  | .ack operation _ => some operation.id

/-- A calling clerk uses the identifier of its request. -/
@[simp] theorem ClerkPc.id_calling (phase : Phase) (call : CallPc) :
    (ClerkPc.calling phase call).id = phase.id := by
  cases phase <;> rfl

/-- A handler run leaves the records of other identifiers alone. -/
theorem Phase.execute_id_map_of_ne {phase : Phase} (kv : KVServer) {id : Int64}
    (hne : phase.id ≠ some id) : (phase.execute kv).1.idMap id = kv.idMap id := by
  cases phase with
  | get key => rfl
  | modify operation =>
      have hop : operation.modify.operation.id ≠ id := fun heq => hne (congrArg some heq)
      exact serve_id_map_of_ne hop
  | ack operation result =>
      have hop : operation.ack.operation.id ≠ id := fun heq => hne (congrArg some heq)
      exact serve_id_map_of_ne hop

section Identifiers

variable {C : Type} {drawn : List Int64} {system : System C}

/-- Every record belongs to an operation in progress, no two clerks use one identifier, and the
record of an operation is gone once its ack has been handled. -/
structure IdsKept (drawn : List Int64) (system : System C) : Prop where
  recorded : ∀ id, system.kv.idMap id ≠ none → ∃ clerk, (system.clerks clerk).id = some id
  drawn : ∀ clerk id, (system.clerks clerk).id = some id → id ∈ drawn
  distinct : ∀ first second id, (system.clerks first).id = some id →
    (system.clerks second).id = some id → first = second
  acked : ∀ clerk operation result value,
    system.clerks clerk = .calling (.ack operation result) (.handled value) →
      system.kv.idMap operation.id = none

/-- An identifier that was not drawn before has no record. -/
theorem IdsKept.not_recorded (h : IdsKept drawn system) {id : Int64} (hfresh : id ∉ drawn) :
    system.kv.idMap id = none := by
  by_contra hrecorded
  obtain ⟨clerk, hclerk⟩ := h.recorded id hrecorded
  exact hfresh (h.drawn clerk id hclerk)

variable [DecidableEq C]

/-- A move of a clerk that keeps its identifier, and is not the handling of an ack, keeps the
invariant. -/
theorem IdsKept.set_clerk (h : IdsKept drawn system) {clerk : C} {pc : ClerkPc}
    (hid : pc.id = (system.clerks clerk).id)
    (hack : ∀ operation result value, pc ≠ .calling (.ack operation result) (.handled value)) :
    IdsKept drawn (system.setClerk clerk pc) := by
  have hids : ∀ other, ((system.setClerk clerk pc).clerks other).id = (system.clerks other).id := by
    intro other
    by_cases heq : other = clerk
    · subst heq
      rw [System.set_clerk_self, hid]
    · rw [System.set_clerk_of_ne _ _ heq]
  exact {
    recorded := by simpa only [hids, System.set_clerk_kv] using h.recorded
    drawn := by simpa only [hids] using h.drawn
    distinct := by simpa only [hids] using h.distinct
    acked := by
      intro other operation result value hother
      by_cases heq : other = clerk
      · subst heq
        rw [System.set_clerk_self] at hother
        exact absurd hother (hack operation result value)
      · rw [System.set_clerk_of_ne _ _ heq] at hother
        exact h.acked other operation result value hother }

/-- A clerk may start to use an identifier that was not drawn before. -/
theorem IdsKept.draw (h : IdsKept drawn system) {clerk : C} {operation : Operation}
    (hidle : system.clerks clerk = .idle) (hfresh : operation.id ∉ drawn) :
    IdsKept (drawn ++ [operation.id])
      (system.setClerk clerk (.calling (.modify operation) .ready)) := by
  have hself : ((system.setClerk clerk (.calling (.modify operation) .ready)).clerks clerk).id =
      some operation.id := by
    rw [System.set_clerk_self]
    rfl
  have hother : ∀ other, other ≠ clerk →
      (system.setClerk clerk (.calling (.modify operation) .ready)).clerks other =
        system.clerks other :=
    fun other hne => system.set_clerk_of_ne _ hne
  have hused : ∀ other id,
      ((system.setClerk clerk (.calling (.modify operation) .ready)).clerks other).id = some id →
        (other = clerk ∧ id = operation.id) ∨
          (other ≠ clerk ∧ (system.clerks other).id = some id) := by
    intro other id hid
    by_cases heq : other = clerk
    · subst heq
      rw [hself] at hid
      exact Or.inl ⟨rfl, (Option.some.inj hid).symm⟩
    · rw [hother other heq] at hid
      exact Or.inr ⟨heq, hid⟩
  exact {
    recorded := by
      intro id hrecorded
      obtain ⟨other, hid⟩ := h.recorded id hrecorded
      refine ⟨other, ?_⟩
      rw [hother other]
      · exact hid
      · rintro rfl
        rw [hidle] at hid
        cases hid
    drawn := by
      intro other id hid
      rcases hused other id hid with ⟨-, rfl⟩ | ⟨-, hold⟩
      · simp
      · exact List.mem_append_left _ (h.drawn other id hold)
    distinct := by
      intro first second id hfirst hsecond
      rcases hused first id hfirst with ⟨rfl, rfl⟩ | ⟨-, hold⟩
      · rcases hused second _ hsecond with ⟨rfl, -⟩ | ⟨-, hold⟩
        · rfl
        · exact absurd (h.drawn second _ hold) hfresh
      · rcases hused second id hsecond with ⟨-, rfl⟩ | ⟨-, hold'⟩
        · exact absurd (h.drawn first _ hold) hfresh
        · exact h.distinct first second id hold hold'
    acked := by
      intro other acked result value hacked
      by_cases heq : other = clerk
      · subst heq
        rw [System.set_clerk_self] at hacked
        cases hacked
      · rw [hother other heq] at hacked
        exact h.acked other acked result value hacked }

/-- A handler run keeps the invariant. -/
theorem IdsKept.execute (h : IdsKept drawn system) {clerk : C} {phase : Phase}
    (hwaiting : system.clerks clerk = .calling phase .waiting) :
    IdsKept drawn ({ system with kv := (phase.execute system.kv).1 }.setClerk clerk
      (.calling phase (.handled (phase.execute system.kv).2))) := by
  have hclerk : (system.clerks clerk).id = phase.id := by rw [hwaiting, ClerkPc.id_calling]
  have hids : ∀ other, (({ system with kv := (phase.execute system.kv).1 }.setClerk clerk
      (.calling phase (.handled (phase.execute system.kv).2))).clerks other).id =
        (system.clerks other).id := by
    intro other
    by_cases heq : other = clerk
    · subst heq
      rw [System.set_clerk_self, ClerkPc.id_calling, hclerk]
    · rw [System.set_clerk_of_ne _ _ heq]
  exact {
    recorded := by
      intro id hrecorded
      simp only [hids]
      by_cases hphase : phase.id = some id
      · exact ⟨clerk, hclerk.trans hphase⟩
      · rw [System.set_clerk_kv, Phase.execute_id_map_of_ne _ hphase] at hrecorded
        exact h.recorded id hrecorded
    drawn := by simpa only [hids] using h.drawn
    distinct := by simpa only [hids] using h.distinct
    acked := by
      intro other operation result value hacked
      by_cases heq : other = clerk
      · subst heq
        rw [System.set_clerk_self] at hacked
        obtain ⟨rfl, -⟩ := ClerkPc.calling.inj hacked
        exact serve_ack_cleared system.kv operation
      · rw [System.set_clerk_of_ne _ _ heq] at hacked
        -- another clerk's identifier is not touched by this handler run
        have hne : phase.id ≠ some operation.id := by
          intro hphase
          refine heq (h.distinct other clerk operation.id ?_ (hclerk.trans hphase))
          rw [hacked]
          rfl
        rw [System.set_clerk_kv, Phase.execute_id_map_of_ne _ hne]
        exact h.acked other operation result value hacked }

/-- When the call that acks an operation returns, its identifier is no longer used. -/
theorem IdsKept.release (h : IdsKept drawn system) {clerk : C} {operation : Operation}
    {result value : GoString} {output : Option GoString}
    (hhandled : system.clerks clerk = .calling (.ack operation result) (.handled value)) :
    IdsKept drawn (system.setClerk clerk (.done output)) := by
  have hused : ∀ other id, ((system.setClerk clerk (.done output)).clerks other).id = some id →
      (system.clerks other).id = some id := by
    intro other id hid
    by_cases heq : other = clerk
    · subst heq
      rw [System.set_clerk_self] at hid
      cases hid
    · rw [System.set_clerk_of_ne _ _ heq] at hid
      exact hid
  exact {
    recorded := by
      intro id hrecorded
      obtain ⟨other, hid⟩ := h.recorded id hrecorded
      refine ⟨other, ?_⟩
      have hne : other ≠ clerk := by
        rintro rfl
        rw [hhandled] at hid
        obtain rfl := Option.some.inj hid
        exact hrecorded (h.acked other operation result value hhandled)
      rw [System.set_clerk_of_ne _ _ hne]
      exact hid
    drawn := fun other id hid => h.drawn other id (hused other id hid)
    distinct := fun first second id hfirst hsecond =>
      h.distinct first second id (hused first id hfirst) (hused second id hsecond)
    acked := by
      intro other acked result value hacked
      by_cases heq : other = clerk
      · subst heq
        rw [System.set_clerk_self] at hacked
        cases hacked
      · rw [System.set_clerk_of_ne _ _ heq] at hacked
        exact h.acked other acked result value hacked }

/-- The initial system keeps its identifiers. -/
theorem ids_kept_init : IdsKept [] (clerks C).init where
  recorded := fun id hrecorded => absurd rfl hrecorded
  drawn := fun clerk id hid => by cases hid
  distinct := fun first second id hid => by cases hid
  acked := fun clerk operation result value hacked => by cases hacked

/-- A step keeps the invariant when the identifier that it draws is new. -/
theorem ids_kept_step {next : System C} {action : Action C} (h : IdsKept drawn system)
    (hstep : step system action = some next) (hfresh : (drawn ++ drawnIds [action]).Nodup) :
    IdsKept (drawn ++ drawnIds [action]) next := by
  cases step_inversion hstep with
  | putAppend clerk operation hidle =>
      have hnew : operation.id ∉ drawn := by
        intro hold
        exact List.nodup_append.mp hfresh |>.2.2 _ hold _ List.mem_cons_self rfl
      exact h.draw hidle hnew
  | get clerk key hidle =>
      rw [show drawnIds [Action.get clerk key] = [] from rfl, List.append_nil]
      refine h.set_clerk ?_ (by simp)
      rw [hidle]
      rfl
  | call clerk phase hready =>
      rw [show drawnIds [Action.call clerk] = [] from rfl, List.append_nil]
      exact h.set_clerk (by simp [hready]) (by simp)
  | handle clerk phase hwaiting =>
      rw [show drawnIds [Action.handle clerk] = [] from rfl, List.append_nil]
      exact h.execute hwaiting
  | callFalse clerk phase call hcalling =>
      rw [show drawnIds [Action.callFalse clerk] = [] from rfl, List.append_nil]
      exact h.set_clerk (by simp [hcalling]) (by simp)
  | callTrue clerk phase value hhandled =>
      rw [show drawnIds [Action.callTrue clerk] = [] from rfl, List.append_nil]
      cases phase with
      | get key =>
          refine h.set_clerk ?_ (by simp [Phase.next])
          rw [hhandled]
          rfl
      | modify operation =>
          refine h.set_clerk ?_ (by simp [Phase.next])
          rw [hhandled]
          rfl
      | ack operation result => exact h.release hhandled
  | finish clerk output hdone =>
      rw [show drawnIds [Action.finish clerk] = [] from rfl, List.append_nil]
      refine h.set_clerk ?_ (by simp)
      rw [hdone]
      rfl

/-- In every run that draws no identifier twice, the records belong to operations in progress. -/
theorem ids_kept {actions : List (Action C)} (hrun : (clerks C).run actions = some system)
    (hids : (drawnIds actions).Nodup) : IdsKept (drawnIds actions) system := by
  refine Machine.run_induction
    (motive := fun actions system => (drawnIds actions).Nodup → IdsKept (drawnIds actions) system)
    (fun _ => ids_kept_init) ?_ hrun hids
  intro actions system action next _ ih hstep hnodup
  have hsplit : drawnIds (actions ++ [action]) = drawnIds actions ++ drawnIds [action] :=
    List.filterMap_append
  rw [hsplit] at hnodup ⊢
  exact ids_kept_step (ih (List.nodup_append.mp hnodup).1) hstep hnodup

end Identifiers

end DistributedLabs.Kvsrv
