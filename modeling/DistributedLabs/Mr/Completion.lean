import DistributedLabs.Mr.Service

/-!
# When the job is done

`Done` returns true only after every task has had a finish report accepted, and from then on it
stays true and no task is handed out (`done_sound_and_stable`).

It does not return true as soon as every task is done. The finish handlers do not touch the flags;
only a later `AssignMission` that finds nothing left to do sets them, so that a coordinator whose
last worker has reported and left waits for ever (`done_misses_last_report`). `done_iff_polled`
says which call it waits for.
-/

namespace DistributedLabs.Mr

/-! ## The flags -/

section Flags

variable {c : Coordinator}

/-- `Done` returns true when all flags are set. -/
theorem Coordinator.done_iff : c.done = true ↔ ∀ kind, c.finished kind = true := by
  rw [Coordinator.done, Bool.and_eq_true]
  constructor
  · rintro ⟨hmap, hreduce⟩ kind
    cases kind with
    | map => exact hmap
    | reduce => exact hreduce
    | waiting => rfl
  · intro h
    exact ⟨h .map, h .reduce⟩

/-- In an ordered coordinator the reduce flag is the last one to be set. -/
theorem Coordinator.Ordered.done_iff (h : c.Ordered) :
    c.done = true ↔ c.finished .reduce = true := by
  rw [Coordinator.done_iff]
  refine ⟨fun hall => hall .reduce, fun hreduce kind => ?_⟩
  cases kind with
  | map => exact h.order hreduce
  | reduce => exact hreduce
  | waiting => rfl

/-- Setting one flag to true sets no other. -/
theorem Coordinator.finished_set_finished (c : Coordinator) (kind other : WorkType) :
    (c.setFinished kind true).finished other = true ↔
      other = kind ∨ c.finished other = true := by
  cases kind <;> cases other <;> simp [Coordinator.setFinished, Coordinator.finished]

/-- In the reduce phase the map flag is set. -/
theorem Coordinator.phase_cases (c : Coordinator) :
    (c.phase = .map ∧ c.finished .map = false) ∨ (c.phase = .reduce ∧ c.finished .map = true) := by
  unfold Coordinator.phase Coordinator.finished
  cases c.maptaskfinish <;> simp

end Flags

/-! ## Done is sound and stable -/

section Done

variable {W : Type} {σ σ' : Service W} {rpc : Rpc W} {rpcs : List (Rpc W)} {c : Coordinator}
  {glob : GoString → Option (List GoString)} {files : List GoString} {nReduce : Nat}

/-- The task whose finish report a call makes the coordinator accept. -/
def accepts (σ : Service W) : Rpc W → List (WorkType × Nat)
  | .assign _ _ _ => []
  | .finish k =>
      match σ.assignments[k]? with
      | none => []
      | some assignment =>
          match σ.coordinator.lookup assignment.task.key with
          | none => []
          | some task =>
              if assignment.task.timestamp = task.timestamp then [assignment.task.key] else []

/-- The tasks whose finish reports are accepted along a run. -/
def acceptedReports (c : Coordinator) (rpcs : List (Rpc W)) : List (WorkType × Nat) :=
  (service W c).observe accepts rpcs

/-- A task that a call finds done was done before, or the call has reported it. -/
theorem Served.done (h : Served σ rpc σ') {key : WorkType × Nat} {task : Task}
    (hlookup : σ'.coordinator.lookup key = some task) (hdone : task.missionstate = .done) :
    (∃ old, σ.coordinator.lookup key = some old ∧ old.missionstate = .done) ∨
      key ∈ accepts σ rpc := by
  cases h with
  | handOut worker currenttime later i current hcurrent hassignable =>
      rw [Coordinator.lookup_set_task hcurrent] at hlookup
      split at hlookup
      · cases hlookup
        cases hdone
      · exact Or.inl ⟨task, hlookup, hdone⟩
  | wait worker currenttime later allFinish hnone hfinish =>
      rw [Coordinator.lookup_set_finished] at hlookup
      exact Or.inl ⟨task, hlookup, hdone⟩
  | accepted k assignment current hassignment hcurrent hstamp =>
      rw [Coordinator.lookup_set_task hcurrent] at hlookup
      split at hlookup
      · rename_i heq
        exact Or.inr (by simp [accepts, hassignment, hcurrent, hstamp, heq])
      · exact Or.inl ⟨task, hlookup, hdone⟩
  | stale k assignment current hassignment hcurrent hstamp => exact Or.inl ⟨task, hlookup, hdone⟩

/-- Every task that is done has had a finish report accepted. -/
theorem done_accepted (hmake : makeCoordinator glob files nReduce = some c)
    (h : (service W c).run rpcs = some σ) :
    ∀ key task, σ.coordinator.lookup key = some task → task.missionstate = .done →
      key ∈ acceptedReports c rpcs := by
  refine Machine.run_induction (motive := fun rpcs σ => ∀ key task,
    σ.coordinator.lookup key = some task → task.missionstate = .done →
      key ∈ acceptedReports c rpcs) ?_ ?_ h
  · intro key task hlookup hdone
    have hready := (ordered_make hmake).2 key.1 task (Coordinator.mem_tasks_iff.mpr ⟨_, hlookup⟩)
    rw [hready] at hdone
    cases hdone
  · intro rpcs σ rpc σ' hrun ih hstep key task hlookup hdone
    rw [acceptedReports, Machine.observe_concat hrun hstep, ← acceptedReports]
    rcases (served (service_kept hmake hrun) hstep).done hlookup hdone with ⟨old, hold⟩ | hnew
    · exact List.mem_append_left _ (ih key old hold.1 hold.2)
    · exact List.mem_append_right _ hnew

/-- No call adds or removes a task. -/
theorem Served.length_tasks (h : Served σ rpc σ') (kind : WorkType) :
    (σ'.coordinator.tasks kind).length = (σ.coordinator.tasks kind).length := by
  cases h <;> simp

/-- Along a run no task is added or removed. -/
theorem length_tasks (hmake : makeCoordinator glob files nReduce = some c)
    (h : (service W c).run rpcs = some σ) (kind : WorkType) :
    (σ.coordinator.tasks kind).length = (c.tasks kind).length := by
  refine Machine.run_induction (motive := fun _ σ =>
    (σ.coordinator.tasks kind).length = (c.tasks kind).length) rfl ?_ h
  intro rpcs σ rpc σ' hrun ih hstep
  exact ((served (service_kept hmake hrun) hstep).length_tasks kind).trans ih

/-- When the job is done, `AssignMission` finds nothing to hand out. -/
theorem assign_waits_of_done (hordered : c.Ordered) (hdone : c.done = true)
    (currenttime later : Nat) :
    (assignMission c currenttime later).2.task.worktype = .waiting := by
  generalize hc' : (assignMission c currenttime later).1 = c'
  generalize hreply : (assignMission c currenttime later).2 = reply
  cases hc' ▸ hreply ▸ assign_answered hordered currenttime later with
  | task i task hlookup hassignable =>
      have hunset := hordered.not_finished hlookup hassignable
      rw [Coordinator.done_iff.mp hdone] at hunset
      cases hunset
  | wait allFinish hnone hfinish => rfl

/-- A call does not take back that the job is done. -/
theorem Served.keeps_done (h : Served σ rpc σ') (hkept : σ.Kept)
    (hdone : σ.coordinator.done = true) : σ'.coordinator.done = true := by
  rw [Coordinator.done_iff] at hdone ⊢
  intro kind
  cases h with
  | handOut worker currenttime later i task hlookup hassignable =>
      rw [Coordinator.finished_set_task]
      exact hdone kind
  | wait worker currenttime later allFinish hnone hfinish =>
      rw [hfinish.mpr (hkept.ordered.finished _ (hdone _)), Coordinator.finished_set_finished]
      exact Or.inr (hdone kind)
  | accepted k assignment task hassignment hlookup hstamp =>
      rw [Coordinator.finished_set_task]
      exact hdone kind
  | stale k assignment task hassignment hlookup hstamp => exact hdone kind

/-- From a state in which the job is done, it is done in every later one. -/
theorem done_of_run_from {τ : Service W} (hkept : σ.Kept) (hdone : σ.coordinator.done = true)
    (h : (service W c).runFrom σ rpcs = some τ) : τ.Kept ∧ τ.coordinator.done = true := by
  refine Machine.run_from_invariant
    (motive := fun σ : Service W => σ.Kept ∧ σ.coordinator.done = true) ?_ ⟨hkept, hdone⟩ h
  rintro σ rpc σ' ⟨hkept, hdone⟩ hstep
  have hserved := served hkept hstep
  exact ⟨hkept.of_served hserved, hserved.keeps_done hkept hdone⟩

end Done

/-- Along every sequence of calls, when `Done` returns true every map and every reduce task has had
a finish report accepted, `AssignMission` returns nothing but waiting from then on, and `Done`
stays true. -/
theorem done_sound_and_stable {W : Type} (glob : GoString → Option (List GoString))
    (files : List GoString) (nReduce : Nat) (c : Coordinator) (rpcs : List (Rpc W)) (σ : Service W)
    (hmake : makeCoordinator glob files nReduce = some c)
    (hrun : (service W c).run rpcs = some σ) (hdone : σ.coordinator.done = true) :
    (∀ kind i, i < (c.tasks kind).length → (kind, i) ∈ acceptedReports c rpcs) ∧
    ∀ rest τ, (service W c).runFrom σ rest = some τ → τ.coordinator.done = true ∧
      ∀ currenttime later,
        (assignMission τ.coordinator currenttime later).2.task.worktype = .waiting := by
  have hkept := service_kept hmake hrun
  constructor
  · intro kind i hlt
    rw [← length_tasks hmake hrun] at hlt
    have hlookup : σ.coordinator.lookup (kind, i) = some _ := List.getElem?_eq_getElem hlt
    refine done_accepted hmake hrun (kind, i) _ hlookup ?_
    exact hkept.ordered.finished kind (Coordinator.done_iff.mp hdone kind) _
      (List.getElem_mem hlt)
  · intro rest τ hrest
    obtain ⟨hlater, hstill⟩ := done_of_run_from hkept hdone hrest
    exact ⟨hstill, assign_waits_of_done hlater.ordered hstill⟩

/-- A job with one input file and one reduce task: both tasks are performed and reported, and then
a worker asks once more. -/
def polledJob : List (Rpc Nat) :=
  [.assign 0 1 1, .finish 0, .assign 0 2 2, .assign 0 3 3, .finish 1, .assign 0 4 4]

/-- After `polledJob` the job is done, with two accepted reports. -/
theorem done_sound_and_stable_polled :
    acceptedReports (initTasks [ascii ['a']] 1) polledJob = [(.map, 0), (.reduce, 0)] ∧
      ∀ kind i, i < ((initTasks [ascii ['a']] 1).tasks kind).length →
        (kind, i) ∈ acceptedReports (initTasks [ascii ['a']] 1) polledJob := by
  obtain ⟨σ, hrun, hdone⟩ := (service Nat (initTasks [ascii ['a']] 1)).exists_run_of_check
    polledJob (fun σ => σ.coordinator.done = true) (by decide)
  exact ⟨by decide, (done_sound_and_stable (fun pattern => some [pattern]) [ascii ['a']] 1 _
    polledJob σ rfl hrun hdone).1⟩

/-! ## Done waits for a last call -/

section Polled

variable {W : Type} {σ σ' : Service W} {rpcs : List (Rpc W)} {c : Coordinator}
  {glob : GoString → Option (List GoString)} {files : List GoString} {nReduce : Nat}

/-- Every task is done. -/
def Coordinator.AllDone (c : Coordinator) : Prop :=
  ∀ kind, ∀ task ∈ c.tasks kind, task.missionstate = .done

instance (c : Coordinator) : Decidable c.AllDone :=
  decidable_of_iff' _ Coordinator.forall_tasks_iff

/-- Some call of `AssignMission` was served in the reduce phase when every reduce task was done. -/
def Polled (c : Coordinator) (rpcs : List (Rpc W)) : Prop :=
  ∃ before worker currenttime later after σ,
    rpcs = before ++ .assign worker currenttime later :: after ∧
    (service W c).run before = some σ ∧ σ.coordinator.maptaskfinish = true ∧
    ∀ task ∈ σ.coordinator.reducetask, task.missionstate = .done

/-- What was polled stays polled. -/
theorem Polled.concat (h : Polled c rpcs) (rpc : Rpc W) : Polled c (rpcs ++ [rpc]) := by
  obtain ⟨before, worker, currenttime, later, after, σ, rfl, hpolled⟩ := h
  exact ⟨before, worker, currenttime, later, after ++ [rpc], σ, by simp, hpolled⟩

/-- A call that sets the last flag is a call of `AssignMission` in the reduce phase, with every
reduce task done. -/
theorem Served.sets_done {rpc : Rpc W} (h : Served σ rpc σ') (hkept : σ.Kept)
    (hbefore : σ.coordinator.done = false) (hafter : σ'.coordinator.done = true) :
    (∃ worker currenttime later, rpc = .assign worker currenttime later) ∧
      σ.coordinator.maptaskfinish = true ∧
      ∀ task ∈ σ.coordinator.reducetask, task.missionstate = .done := by
  have hkept' := hkept.of_served h
  rw [hkept'.ordered.done_iff] at hafter
  have hunset : σ.coordinator.finished .reduce ≠ true := by
    intro hset
    rw [← hkept.ordered.done_iff, hbefore] at hset
    cases hset
  cases h with
  | handOut worker currenttime later i task hlookup hassignable =>
      rw [Coordinator.finished_set_task] at hafter
      exact absurd hafter hunset
  | wait worker currenttime later allFinish hnone hfinish =>
      rcases σ.coordinator.phase_cases with ⟨hphase, hmap⟩ | ⟨hphase, hmap⟩
      · rw [hphase] at hafter
        exact absurd hafter hunset
      · rw [hphase] at hafter hfinish
        exact ⟨⟨worker, currenttime, later, rfl⟩, hmap, hfinish.mp hafter⟩
  | accepted k assignment task hassignment hlookup hstamp =>
      rw [Coordinator.finished_set_task] at hafter
      exact absurd hafter hunset
  | stale k assignment task hassignment hlookup hstamp => exact absurd hafter hunset

/-- A call of `AssignMission` in the reduce phase, with every reduce task done, sets the last
flag. -/
theorem Served.done_of_poll {worker : W} {currenttime later : Nat}
    (h : Served σ (.assign worker currenttime later) σ') (hkept : σ.Kept)
    (hmap : σ.coordinator.maptaskfinish = true)
    (hreduce : ∀ task ∈ σ.coordinator.reducetask, task.missionstate = .done) :
    σ'.coordinator.done = true := by
  have hphase : σ.coordinator.phase = .reduce := if_pos hmap
  rw [(hkept.of_served h).ordered.done_iff]
  cases h with
  | handOut worker currenttime later i task hlookup hassignable =>
      rw [hphase] at hlookup
      exact absurd (hreduce task (List.mem_of_getElem? hlookup))
        (task.not_done_of_assignable hassignable)
  | wait worker currenttime later allFinish hnone hfinish =>
      rw [hphase] at hfinish ⊢
      exact hfinish.mpr hreduce

end Polled

/-- In every reachable state `Done` returns true exactly if some call of `AssignMission` was served
after the map flag was set and every reduce task was done. -/
theorem done_iff_polled {W : Type} (glob : GoString → Option (List GoString))
    (files : List GoString) (nReduce : Nat) (c : Coordinator) (rpcs : List (Rpc W)) (σ : Service W)
    (hmake : makeCoordinator glob files nReduce = some c)
    (hrun : (service W c).run rpcs = some σ) :
    σ.coordinator.done = true ↔ Polled c rpcs := by
  constructor
  · refine Machine.run_induction
      (motive := fun rpcs σ => σ.coordinator.done = true → Polled c rpcs) ?_ ?_ hrun
    · intro hdone
      rw [make_coordinator_eq hmake] at hdone
      cases hdone
    · intro rpcs σ rpc σ' hrun ih hstep hdone
      have hkept := service_kept hmake hrun
      cases hbefore : σ.coordinator.done with
      | true => exact (ih hbefore).concat rpc
      | false =>
          obtain ⟨⟨worker, currenttime, later, rfl⟩, hpolled⟩ :=
            (served hkept hstep).sets_done hkept hbefore hdone
          exact ⟨rpcs, worker, currenttime, later, [], σ, rfl, hrun, hpolled⟩
  · rintro ⟨before, worker, currenttime, later, after, polled, rfl, hbefore, hmap, hreduce⟩
    obtain ⟨next, hstep, hafter⟩ := Machine.step_of_run hrun hbefore
    have hkept := service_kept hmake hbefore
    have hserved : Served polled (.assign worker currenttime later) next := served hkept hstep
    exact (done_of_run_from (hkept.of_served hserved) (hserved.done_of_poll hkept hmap hreduce)
      hafter).2

/-- The last call of `polledJob` makes `Done` return true. -/
theorem done_iff_polled_job : Polled (initTasks [ascii ['a']] 1) polledJob := by
  obtain ⟨σ, hrun, hdone⟩ := (service Nat (initTasks [ascii ['a']] 1)).exists_run_of_check
    polledJob (fun σ => σ.coordinator.done = true) (by decide)
  exact (done_iff_polled (fun pattern => some [pattern]) [ascii ['a']] 1 _ polledJob σ rfl
    hrun).mp hdone

/-- Before the last call of `polledJob` every task is done and `Done` returns false. -/
theorem done_misses_last_report :
    ¬ ∀ (glob : GoString → Option (List GoString)) (files : List GoString) (nReduce : Nat)
        (c : Coordinator) (rpcs : List (Rpc Nat)) (σ : Service Nat),
        makeCoordinator glob files nReduce = some c → (service Nat c).run rpcs = some σ →
        σ.coordinator.AllDone → σ.coordinator.done = true := by
  intro hall
  obtain ⟨σ, hrun, halldone, hnot⟩ :=
    (service Nat (initTasks [ascii ['a']] 1)).exists_run_of_check polledJob.dropLast
      (fun σ => σ.coordinator.AllDone ∧ σ.coordinator.done = false) (by decide)
  have hdone := hall (fun pattern => some [pattern]) [ascii ['a']] 1 _ polledJob.dropLast σ rfl
    hrun halldone
  rw [hnot] at hdone
  cases hdone

end DistributedLabs.Mr
