import Mathlib.Data.List.Induction

/-!
# Machines driven by a list of actions

A `Machine` is an initial state with a partial step function. A run is the list of actions that
were taken, so a statement about every interleaving is a statement about every list. Read
`run_induction` first: it is the one induction on runs, and `run_induction_of_meets` is the same
rule for runs whose steps all satisfy a guard. `exists_run_of_check` and `meets_of_check` turn the
evaluation of a fixed run into facts about it. `observe` collects what each step shows to the
outside, in order.
-/

namespace DistributedLabs

/-- An initial state and a step function; `none` means that the action is not enabled. -/
structure Machine (State Action : Type) where
  init : State
  step : State → Action → Option State

namespace Machine

variable {State Action Event : Type} (machine : Machine State Action)

/-- Perform the actions in order from a given state. -/
def runFrom : State → List Action → Option State
  | state, [] => some state
  | state, action :: rest => (machine.step state action).bind fun next => runFrom next rest

/-- Perform the actions in order from the initial state. -/
def run (actions : List Action) : Option State :=
  machine.runFrom machine.init actions

/-- Running a concatenation is running the first part and then the second. -/
theorem run_from_append (state : State) (first second : List Action) :
    machine.runFrom state (first ++ second) =
      (machine.runFrom state first).bind fun middle => machine.runFrom middle second := by
  induction first generalizing state with
  | nil => rfl
  | cons action rest ih =>
      simp only [List.cons_append, runFrom, Option.bind_assoc]
      congr 1
      funext next
      exact ih next

variable {machine}

/-- A run of a concatenation passes through the state reached by the first part. -/
theorem run_append_iff {first second : List Action} {state : State} :
    machine.run (first ++ second) = some state ↔
      ∃ middle, machine.run first = some middle ∧ machine.runFrom middle second = some state := by
  simp only [run, run_from_append, Option.bind_eq_some_iff]

/-- The rest of a run starts in the state that its first part reaches. -/
theorem run_from_of_append {first second : List Action} {middle state : State}
    (h : machine.run (first ++ second) = some state) (hfirst : machine.run first = some middle) :
    machine.runFrom middle second = some state := by
  obtain ⟨reached, hreached, hsecond⟩ := run_append_iff.mp h
  obtain rfl := Option.some.inj (hfirst.symm.trans hreached)
  exact hsecond

/-- Every action of a run is a step from the state reached before it. -/
theorem step_of_run {before after : List Action} {action : Action} {middle state : State}
    (h : machine.run (before ++ action :: after) = some state)
    (hbefore : machine.run before = some middle) :
    ∃ next, machine.step middle action = some next ∧ machine.runFrom next after = some state :=
  Option.bind_eq_some_iff.mp (run_from_of_append h hbefore)

/-- A run of one more action is a run followed by a step. -/
theorem run_concat_iff {actions : List Action} {action : Action} {next : State} :
    machine.run (actions ++ [action]) = some next ↔
      ∃ state, machine.run actions = some state ∧ machine.step state action = some next := by
  simp only [run_append_iff, runFrom, Option.bind_eq_some_iff, Option.some.injEq, exists_eq_right]

/-- Induction on runs: the property holds at the start and every step taken at the end of a run
preserves it. The property may look at the actions taken so far. -/
theorem run_induction {motive : List Action → State → Prop}
    (hinit : motive [] machine.init)
    (hstep : ∀ actions state action next, machine.run actions = some state →
      motive actions state → machine.step state action = some next →
      motive (actions ++ [action]) next)
    {actions : List Action} {state : State} (h : machine.run actions = some state) :
    motive actions state := by
  induction actions using List.reverseRecOn generalizing state with
  | nil =>
      cases h
      exact hinit
  | append_singleton actions action ih =>
      obtain ⟨middle, hrun, hlast⟩ := run_concat_iff.mp h
      exact hstep actions middle action state hrun (ih hrun) hlast

/-- An invariant of the states alone that holds from `start` on is kept by every later run. -/
theorem run_from_invariant {motive : State → Prop}
    (hstep : ∀ state action next, motive state → machine.step state action = some next →
      motive next)
    {actions : List Action} {start state : State} (hstart : motive start)
    (h : machine.runFrom start actions = some state) : motive state := by
  induction actions generalizing start with
  | nil =>
      cases h
      exact hstart
  | cons action rest ih =>
      obtain ⟨next, hnext, hrest⟩ := Option.bind_eq_some_iff.mp h
      exact ih (hstep start action next hstart hnext) hrest

/-! ## Runs whose steps all satisfy a guard -/

variable (machine) in
/-- Every action of the list satisfies the guard in the state in which it is taken. -/
def Meets (guard : State → Action → Prop) (actions : List Action) : Prop :=
  ∀ before action after state, actions = before ++ action :: after →
    machine.run before = some state → guard state action

variable {guard : State → Action → Prop}

/-- A guard met by a list of actions is met by each of its prefixes. -/
theorem Meets.of_initial {first actions : List Action} (h : machine.Meets guard actions)
    (hfirst : first <+: actions) : machine.Meets guard first := by
  obtain ⟨second, rfl⟩ := hfirst
  intro before action after state heq hrun
  exact h before action (after ++ second) state (by simp [heq]) hrun

/-- The last action satisfies the guard in the state before it. -/
theorem Meets.last {actions : List Action} {action : Action} {state : State}
    (h : machine.Meets guard (actions ++ [action])) (hrun : machine.run actions = some state) :
    guard state action :=
  h actions action [] state rfl hrun

/-- Induction on runs whose steps all satisfy the guard. -/
theorem run_induction_of_meets {motive : List Action → State → Prop}
    (hinit : motive [] machine.init)
    (hstep : ∀ actions state action next, machine.run actions = some state →
      motive actions state → guard state action → machine.step state action = some next →
      motive (actions ++ [action]) next)
    {actions : List Action} {state : State} (hmeets : machine.Meets guard actions)
    (h : machine.run actions = some state) : motive actions state := by
  refine run_induction
    (motive := fun actions state => machine.Meets guard actions → motive actions state)
    (fun _ => hinit) ?_ h hmeets
  intro actions state action next hrun ih hnext hall
  exact hstep actions state action next hrun (ih (hall.of_initial (List.prefix_append _ _)))
    (hall.last hrun) hnext

variable (machine) in
/-- Evaluate a guard at every step from `state` until an action is not enabled. -/
def checkFrom (guard : State → Action → Bool) : State → List Action → Bool
  | _, [] => true
  | state, action :: rest =>
      guard state action &&
        match machine.step state action with
        | none => true
        | some next => checkFrom guard next rest

/-- A successful check from `start` covers every step of the run. -/
theorem guard_of_check {guard : State → Action → Bool} {start state : State} {action : Action}
    {before after : List Action} (h : machine.checkFrom guard start (before ++ action :: after))
    (hrun : machine.runFrom start before = some state) : guard state action = true := by
  induction before generalizing start with
  | nil =>
      cases hrun
      exact (Bool.and_eq_true_iff.mp h).1
  | cons first rest ih =>
      obtain ⟨next, hnext, hrest⟩ := Option.bind_eq_some_iff.mp hrun
      have hcheck := (Bool.and_eq_true_iff.mp h).2
      rw [hnext] at hcheck
      exact ih hcheck hrest

/-- A guard that can be decided is met when the check succeeds. -/
theorem meets_of_check [∀ state action, Decidable (guard state action)] {actions : List Action}
    (h : machine.checkFrom (fun state action => guard state action) machine.init actions = true) :
    machine.Meets guard actions := by
  intro before action after state heq hrun
  subst heq
  have hguard := guard_of_check h hrun
  exact of_decide_eq_true hguard

/-! ## Runs that are evaluated -/

variable (machine) in
/-- A run that can be evaluated, with what is checked of its last state. -/
theorem exists_run_of_check (actions : List Action) (check : State → Prop) [DecidablePred check]
    (h : (machine.run actions).any (fun state => check state) = true) :
    ∃ state, machine.run actions = some state ∧ check state := by
  obtain ⟨state, hrun, hcheck⟩ := (Option.any_eq_true _ _).mp h
  exact ⟨state, hrun, of_decide_eq_true hcheck⟩

variable (machine) in
/-- A run and one more step that can be evaluated, with what is checked of the states before and
after the step. -/
theorem exists_step_of_check (actions : List Action) (action : Action)
    (check : State → State → Prop) [∀ state, DecidablePred (check state)]
    (h : (machine.run actions).any (fun state =>
      (machine.step state action).any fun next => check state next) = true) :
    ∃ state next, machine.run actions = some state ∧ machine.step state action = some next ∧
      check state next := by
  obtain ⟨state, hrun, hnext⟩ := (Option.any_eq_true _ _).mp h
  obtain ⟨next, hstep, hcheck⟩ := (Option.any_eq_true _ _).mp hnext
  exact ⟨state, next, hrun, hstep, of_decide_eq_true hcheck⟩

/-! ## Observations -/

variable (machine) in
/-- What the steps from `state` show, in order, until an action is not enabled. -/
def observeFrom (see : State → Action → List Event) : State → List Action → List Event
  | _, [] => []
  | state, action :: rest =>
      match machine.step state action with
      | none => []
      | some next => see state action ++ observeFrom see next rest

variable (machine) in
/-- What the steps of a run show, in order. -/
def observe (see : State → Action → List Event) (actions : List Action) : List Event :=
  machine.observeFrom see machine.init actions

variable {see : State → Action → List Event}

/-- Nothing is seen before the first step. -/
@[simp] theorem observe_nil : machine.observe see [] = [] := rfl

/-- Observations from a state, split at a state that the run passes through. -/
theorem observe_from_append {start middle : State} {first second : List Action}
    (h : machine.runFrom start first = some middle) :
    machine.observeFrom see start (first ++ second) =
      machine.observeFrom see start first ++ machine.observeFrom see middle second := by
  induction first generalizing start with
  | nil =>
      cases h
      rfl
  | cons action rest ih =>
      obtain ⟨next, hnext, hrest⟩ := Option.bind_eq_some_iff.mp h
      simp only [List.cons_append, observeFrom, hnext, List.append_assoc, ih hrest]

/-- The last step of a run adds its own observations. -/
theorem observe_concat {actions : List Action} {action : Action} {state next : State}
    (hrun : machine.run actions = some state) (hstep : machine.step state action = some next) :
    machine.observe see (actions ++ [action]) =
      machine.observe see actions ++ see state action := by
  rw [observe, observe_from_append hrun]
  simp [observe, observeFrom, hstep]

/-- Observations of a prefix are never taken back. -/
theorem observe_of_initial {first actions : List Action} {state : State}
    (hfirst : first <+: actions) (h : machine.run first = some state) :
    machine.observe see first <+: machine.observe see actions := by
  obtain ⟨second, rfl⟩ := hfirst
  rw [observe, observe, observe_from_append h]
  exact List.prefix_append _ _

end Machine

end DistributedLabs
