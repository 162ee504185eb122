import DistributedLabs.Mr.Phases

/-!
# The coordinator as its workers see it

What the coordinator does depends on the calls it serves and not on the files. `service` is the
coordinator with the list of all tasks it has handed out; a finish report repeats the index and the
timestamp of one of them, at any time and any number of times. `served` lists what a call can do,
and `Kept` is what every reachable state satisfies (`service_kept`). `service_simulates` says that
the service covers the system of coordinator, files and workers.
-/

namespace DistributedLabs.Mr

/-- A task that was handed out, and the worker that got it. -/
structure Assignment (W : Type) where
  worker : W
  task : Task

/-- The coordinator, and everything it has handed out so far. -/
structure Service (W : Type) where
  coordinator : Coordinator
  assignments : List (Assignment W)

/-- The calls of the workers: a worker asks for a task, or the report for assignment `k` arrives. -/
inductive Rpc (W : Type) where
  | assign (worker : W) (currenttime later : Nat)
  | finish (k : Nat)

section Service

variable {W : Type}

/-- The assignment that a reply of `AssignMission` makes. -/
def handedOut (worker : W) (task : Task) : List (Assignment W) :=
  if task.worktype = .waiting then [] else [⟨worker, task⟩]

/-- One call. -/
def Service.serve (σ : Service W) : Rpc W → Option (Service W)
  | .assign worker currenttime later =>
      some
        { coordinator := (assignMission σ.coordinator currenttime later).1
          assignments := σ.assignments ++
            handedOut worker (assignMission σ.coordinator currenttime later).2.task }
  | .finish k => do
      let assignment ← σ.assignments[k]?
      let report ← assignment.task.report
      let c ← deliver σ.coordinator report
      some { σ with coordinator := c }

variable (W) in
/-- The coordinator `c` before the first call. -/
def service (c : Coordinator) : Machine (Service W) (Rpc W) where
  init := { coordinator := c, assignments := [] }
  step := Service.serve

/-- The coordinator is ordered, every assignment is for one of its tasks, and the tasks that are not
ready are those that were handed out, once with the timestamp that they have now. -/
structure Service.Kept (σ : Service W) : Prop where
  ordered : σ.coordinator.Ordered
  known : ∀ assignment ∈ σ.assignments, ∃ task,
    σ.coordinator.lookup assignment.task.key = some task ∧ task.missionstate ≠ .ready
  assigned : ∀ key task, σ.coordinator.lookup key = some task → task.missionstate ≠ .ready →
    ∃ assignment ∈ σ.assignments, assignment.task.key = key ∧
      assignment.task.timestamp = task.timestamp

/-- The calls with their outcomes. -/
inductive Served (σ : Service W) : Rpc W → Service W → Prop where
  | handOut (worker : W) (currenttime later i : Nat) (task : Task)
      (hlookup : σ.coordinator.lookup (σ.coordinator.phase, i) = some task)
      (hassignable : task.assignable currenttime = true) :
      Served σ (.assign worker currenttime later)
        { coordinator := σ.coordinator.setTask (σ.coordinator.phase, i)
            (task.start (σ.coordinator.stamp currenttime later))
          assignments := σ.assignments ++
            [⟨worker, task.start (σ.coordinator.stamp currenttime later)⟩] }
  | wait (worker : W) (currenttime later : Nat) (allFinish : Bool)
      (hnone : ∀ task ∈ σ.coordinator.tasks σ.coordinator.phase,
        task.assignable currenttime = false)
      (hfinish : allFinish = true ↔
        ∀ task ∈ σ.coordinator.tasks σ.coordinator.phase, task.missionstate = .done) :
      Served σ (.assign worker currenttime later)
        { σ with coordinator := σ.coordinator.setFinished σ.coordinator.phase allFinish }
  | accepted (k : Nat) (assignment : Assignment W) (task : Task)
      (hassignment : σ.assignments[k]? = some assignment)
      (hlookup : σ.coordinator.lookup assignment.task.key = some task)
      (hstamp : assignment.task.timestamp = task.timestamp) :
      Served σ (.finish k)
        { σ with coordinator := σ.coordinator.setTask assignment.task.key task.finish }
  | stale (k : Nat) (assignment : Assignment W) (task : Task)
      (hassignment : σ.assignments[k]? = some assignment)
      (hlookup : σ.coordinator.lookup assignment.task.key = some task)
      (hstamp : assignment.task.timestamp ≠ task.timestamp) : Served σ (.finish k) σ

variable {σ σ' : Service W} {rpc : Rpc W}

/-- The report of an assignment is handled, with one of two outcomes. -/
theorem serve_finish {k : Nat} {assignment : Assignment W} {task : Task}
    (hassignment : σ.assignments[k]? = some assignment)
    (hlookup : σ.coordinator.lookup assignment.task.key = some task) :
    σ.serve (.finish k) = if assignment.task.timestamp = task.timestamp then
      some { σ with coordinator := σ.coordinator.setTask assignment.task.key task.finish }
      else some σ := by
  obtain ⟨report, hreport, hdeliver⟩ := deliver_report hlookup
  simp only [Service.serve, hassignment, hreport, hdeliver, bind, Option.bind_some]
  split <;> rfl

/-- Every call in a reachable state has one of the four outcomes. -/
theorem served (hkept : σ.Kept) (h : σ.serve rpc = some σ') : Served σ rpc σ' := by
  cases rpc with
  | assign worker currenttime later =>
      cases h
      generalize hc' : (assignMission σ.coordinator currenttime later).1 = c'
      generalize hreply : (assignMission σ.coordinator currenttime later).2 = reply
      cases hc' ▸ hreply ▸ assign_answered hkept.ordered currenttime later with
      | task i task hlookup hassignable =>
          have hkind : task.worktype ≠ .waiting := by
            have hkey := hkept.ordered.key _ task hlookup
            rw [show task.worktype = task.key.1 from rfl, hkey]
            exact Coordinator.lookup_ne_waiting hlookup
          have hout : handedOut worker (task.start (σ.coordinator.stamp currenttime later)) =
              [⟨worker, task.start (σ.coordinator.stamp currenttime later)⟩] := if_neg hkind
          rw [hout]
          exact .handOut worker currenttime later i task hlookup hassignable
      | wait allFinish hnone hfinish =>
          have hout : handedOut worker ({ worktype := .waiting } : Task) = [] := if_pos rfl
          rw [hout, List.append_nil]
          exact .wait worker currenttime later allFinish hnone hfinish
  | finish k =>
      cases hassignment : σ.assignments[k]? with
      | none => simp [Service.serve, hassignment] at h
      | some assignment =>
          obtain ⟨task, hlookup, -⟩ := hkept.known assignment (List.mem_of_getElem? hassignment)
          rw [serve_finish hassignment hlookup] at h
          split at h
          · cases h
            exact .accepted k assignment task hassignment hlookup ‹_›
          · cases h
            exact .stale k assignment task hassignment hlookup ‹_›

/-- Replacing a task by one that is not ready keeps the invariant, if one of the assignments is for
the task as it is now. -/
theorem Service.Kept.set_task (hkept : σ.Kept) {key : WorkType × Nat} {task new : Task}
    {assignments : List (Assignment W)} (hlookup : σ.coordinator.lookup key = some task)
    (hkey : new.key = key) (hready : new.missionstate ≠ .ready)
    (hdone : σ.coordinator.finished key.1 = true → new.missionstate = .done)
    (hkeep : ∀ assignment ∈ σ.assignments, assignment ∈ assignments)
    (hnew : ∀ assignment ∈ assignments, assignment ∈ σ.assignments ∨ assignment.task.key = key)
    (hassigned : ∃ assignment ∈ assignments, assignment.task.key = key ∧
      assignment.task.timestamp = new.timestamp) :
    Service.Kept { coordinator := σ.coordinator.setTask key new, assignments := assignments } where
  ordered := hkept.ordered.set_task hlookup (hkey.trans (hkept.ordered.key key task hlookup).symm)
    hdone
  known := by
    intro assignment hmem
    rw [Coordinator.lookup_set_task hlookup]
    by_cases heq : assignment.task.key = key
    · exact ⟨new, if_pos heq, hready⟩
    · rw [if_neg heq]
      rcases hnew assignment hmem with hold | hown
      · exact hkept.known assignment hold
      · exact absurd hown heq
  assigned := by
    intro other found hfound hnot
    rw [Coordinator.lookup_set_task hlookup] at hfound
    split at hfound
    · rename_i heq
      cases hfound
      rw [heq]
      exact hassigned
    · obtain ⟨assignment, hmem, hold⟩ := hkept.assigned other found hfound hnot
      exact ⟨assignment, hkeep assignment hmem, hold⟩

/-- A call keeps the invariant. -/
theorem Service.Kept.of_served (hkept : σ.Kept) (h : Served σ rpc σ') : σ'.Kept := by
  cases h with
  | handOut worker currenttime later i task hlookup hassignable =>
      have hkey := hkept.ordered.key _ task hlookup
      refine hkept.set_task hlookup hkey (by simp [Task.start]) ?_
        (fun _ => List.mem_append_left _) ?_ ?_
      · intro hfinished
        rw [hkept.ordered.not_finished hlookup hassignable] at hfinished
        cases hfinished
      · intro assignment hmem
        rcases List.mem_append.mp hmem with hold | hnew
        · exact Or.inl hold
        · rw [List.mem_singleton.mp hnew]
          exact Or.inr hkey
      · exact ⟨_, List.mem_append_right _ List.mem_cons_self, hkey, rfl⟩
  | wait worker currenttime later allFinish hnone hfinish =>
      refine ⟨hkept.ordered.set_finished hfinish.mp, ?_, ?_⟩
      · simpa only [Coordinator.lookup_set_finished] using hkept.known
      · simpa only [Coordinator.lookup_set_finished] using hkept.assigned
  | accepted k assignment task hassignment hlookup hstamp =>
      have hmem := List.mem_of_getElem? hassignment
      exact hkept.set_task hlookup (hkept.ordered.key _ task hlookup) (by simp [Task.finish])
        (fun _ => rfl) (fun _ => id) (fun _ => Or.inl) ⟨assignment, hmem, rfl, hstamp⟩
  | stale k assignment task hassignment hlookup hstamp => exact hkept

section Runs

variable {glob : GoString → Option (List GoString)} {files : List GoString} {nReduce : Nat}
  {c : Coordinator}

/-- The service of a new coordinator keeps the invariant. -/
theorem service_kept_init (hmake : makeCoordinator glob files nReduce = some c) :
    (service W c).init.Kept := by
  obtain ⟨hordered, hready⟩ := ordered_make hmake
  refine ⟨hordered, fun _ hmem => (List.not_mem_nil hmem).elim, ?_⟩
  intro key task hlookup hnot
  exact absurd (hready key.1 task (Coordinator.mem_tasks_iff.mpr ⟨key.2, hlookup⟩)) hnot

/-- The service of a new coordinator keeps the invariant along every run. -/
theorem service_kept (hmake : makeCoordinator glob files nReduce = some c) {rpcs : List (Rpc W)}
    (h : (service W c).run rpcs = some σ) : σ.Kept := by
  refine Machine.run_induction (motive := fun _ σ => σ.Kept) (service_kept_init hmake) ?_ h
  intro rpcs σ rpc σ' _ hkept hstep
  exact hkept.of_served (served hkept hstep)

end Runs

/-! ## The system of coordinator, files and workers -/

/-- The report that a worker sends if it goes on to the end of its task. -/
def WorkerPc.report : WorkerPc → Option Report
  | .idle => none
  | .mapRead reply => some (.map (finishArgs reply.task))
  | .mapRename task _ _ => some (.map (finishArgs task))
  | .reduceRead task _ _ | .reduceCreate task _ | .reduceRename task _ =>
      some (.reduce (finishArgs task))
  | .reporting report => some report
  | .crashed report => report

/-- A worker starts on its way to the report of the task it was given. -/
theorem start_work_report (reply : TaskReply) : (startWork reply).report = reply.task.report := by
  unfold startWork Task.report
  cases reply.task.worktype <;> rfl

/-- A file operation does not change which report a worker will send, if it sends one. -/
theorem Worked.report {job : Job} {files files' : Files} {pc pc' : WorkerPc}
    (h : Worked job files pc files' pc') : pc'.report = pc.report ∨ pc'.report = none := by
  cases h with
  | mapFail | reduceFail => exact Or.inr rfl
  | mapRead | mapRename | mapEnd | reduceRead | reduceEnd | reduceCreate | reduceRename =>
      exact Or.inl rfl

/-- A worker that stops sends no other report. -/
theorem WorkerPc.report_crash (pc : WorkerPc) :
    pc.crash.report = pc.report ∨ pc.crash.report = none := by
  cases pc with
  | reporting | crashed => exact Or.inl rfl
  | idle | mapRead | mapRename | reduceRead | reduceCreate | reduceRename => exact Or.inr rfl

/-- The service has the coordinator of the system, and each worker will report what it was
assigned. -/
structure Simulates (τ : Service W) (σ : System W) : Prop where
  coordinator : τ.coordinator = σ.coordinator
  reports : ∀ worker report, (σ.workers worker).report = some report →
    ∃ assignment ∈ τ.assignments, assignment.worker = worker ∧
      assignment.task.report = some report

variable [DecidableEq W]

/-- A move of a worker that does not change its report, or drops it, is not seen by the service. -/
theorem Simulates.set_worker {τ : Service W} {σ : System W} (h : Simulates τ σ) {files : Files}
    {worker : W} {pc : WorkerPc}
    (hpc : pc.report = (σ.workers worker).report ∨ pc.report = none) :
    Simulates τ ({ σ with files := files }.setWorker worker pc) := by
  refine ⟨h.coordinator, fun other report hreport => ?_⟩
  by_cases heq : other = worker
  · subst heq
    rw [System.set_worker_self] at hreport
    rcases hpc with hsame | hnone
    · exact h.reports other report (hsame.symm.trans hreport)
    · rw [hnone] at hreport
      cases hreport
  · rw [System.set_worker_of_ne _ _ heq] at hreport
    exact h.reports other report hreport

/-- A worker of the system that asks for a task makes the same call to the service. -/
theorem Simulates.assign {τ : Service W} {σ : System W} (h : Simulates τ σ) (worker : W)
    (currenttime later : Nat) :
    ∃ τ', τ.serve (.assign worker currenttime later) = some τ' ∧
      Simulates τ' ({ σ with
          coordinator := (assignMission σ.coordinator currenttime later).1 }.setWorker
        worker (startWork (assignMission σ.coordinator currenttime later).2)) := by
  refine ⟨_, rfl, ?_, ?_⟩
  · simp only [h.coordinator]
    rfl
  · intro other report hreport
    by_cases heq : other = worker
    · subst heq
      rw [System.set_worker_self, start_work_report] at hreport
      have hkind : (assignMission σ.coordinator currenttime later).2.task.worktype ≠ .waiting := by
        intro hwaiting
        simp [Task.report, hwaiting] at hreport
      refine ⟨⟨other, _⟩, List.mem_append_right _ ?_, rfl, hreport⟩
      rw [h.coordinator, handedOut, if_neg hkind]
      exact List.mem_cons_self
    · rw [System.set_worker_of_ne _ _ heq] at hreport
      obtain ⟨assignment, hmem, hold⟩ := h.reports other report hreport
      exact ⟨assignment, List.mem_append_left _ hmem, hold⟩

/-- A report that the coordinator of the system handles is the report of an assignment. -/
theorem Simulates.finish {τ : Service W} {σ : System W} (h : Simulates τ σ) {worker : W}
    {report : Report} {c' : Coordinator} {pc : WorkerPc}
    (hsent : (σ.workers worker).report = some report)
    (hdeliver : deliver σ.coordinator report = some c') (hpc : pc.report = none) :
    ∃ k, τ.serve (.finish k) = some { τ with coordinator := c' } ∧
      Simulates { τ with coordinator := c' }
        ({ σ with coordinator := c' }.setWorker worker pc) := by
  obtain ⟨assignment, hmem, -, hassignment⟩ := h.reports worker report hsent
  obtain ⟨k, hk⟩ := List.getElem?_of_mem hmem
  have hmoved : Simulates { τ with coordinator := c' } { σ with coordinator := c' } :=
    ⟨rfl, h.reports⟩
  refine ⟨k, ?_, hmoved.set_worker (Or.inr hpc)⟩
  simp [Service.serve, hk, hassignment, h.coordinator, hdeliver]

/-- Each step of the system is at most one call of the service. -/
theorem Simulates.of_step {job : Job} {c : Coordinator} {τ : Service W} {σ σ' : System W}
    {action : Action W} (h : Simulates τ σ) (hstep : step job σ action = some σ') :
    ∃ rpcs τ', (service W c).runFrom τ rpcs = some τ' ∧ Simulates τ' σ' := by
  cases step_inversion hstep with
  | assign worker currenttime later hidle =>
      obtain ⟨τ', hserve, hsim⟩ := h.assign worker currenttime later
      exact ⟨[.assign worker currenttime later], τ',
        Option.bind_eq_some_iff.mpr ⟨τ', hserve, rfl⟩, hsim⟩
  | work worker files pc hwork => exact ⟨[], τ, rfl, h.set_worker (work_cases hwork).report⟩
  | report worker report c' pc hreport hdeliver =>
      have hpc : pc.report = none := by
        rcases hreport with ⟨-, rfl⟩ | ⟨-, rfl⟩ <;> rfl
      have hsent : (σ.workers worker).report = some report := by
        rcases hreport with ⟨hwas, -⟩ | ⟨hwas, -⟩ <;> rw [hwas] <;> rfl
      obtain ⟨k, hserve, hsim⟩ := h.finish hsent hdeliver hpc
      exact ⟨[.finish k], _, Option.bind_eq_some_iff.mpr ⟨_, hserve, rfl⟩, hsim⟩
  | crash worker => exact ⟨[], τ, rfl, h.set_worker (WorkerPc.report_crash _)⟩

/-- Every run of the system is a run of the service: the coordinator and the reports that are still
to come are the same. -/
theorem service_simulates {job : Job} {c : Coordinator} {input : Files}
    {actions : List (Action W)} {σ : System W}
    (h : (system W job c input).run actions = some σ) :
    ∃ rpcs τ, (service W c).run rpcs = some τ ∧ Simulates τ σ := by
  refine Machine.run_induction
    (motive := fun _ σ => ∃ rpcs τ, (service W c).run rpcs = some τ ∧ Simulates τ σ) ?_ ?_ h
  · exact ⟨[], _, rfl, rfl, fun _ _ hreport => by cases hreport⟩
  · rintro actions σ action σ' - ⟨rpcs, τ, hrun, hsim⟩ hstep
    obtain ⟨more, τ', hmore, hsim'⟩ := hsim.of_step hstep
    exact ⟨rpcs ++ more, τ', Machine.run_append_iff.mpr ⟨τ, hrun, hmore⟩, hsim'⟩

end Service

end DistributedLabs.Mr
