import DistributedLabs.Library.Machine

/-!
# Refinement mappings and simulations

A machine refines another one when its states are seen as states of the other and each of its steps
as some steps of the other, possibly none. `Refines.run` carries every run over, `Refines.observe`
what the run shows, and `Refines.meets` the guards of the other machine. A machine is simulated by
another one when its states are related to states of the other and each of its steps is matched by
one step; `SimulatedBy.run` carries every run over with its guards.
-/

namespace DistributedLabs.Machine

variable {State Action Shadow Image Event : Type}

/-- The states of `lower` are seen through `view` as states of `upper`, and a step of a guarded run
as the actions in `matched`. -/
structure Refines (lower : Machine State Action) (upper : Machine Shadow Image)
    (guard : State → Action → Prop) (view : State → Shadow)
    (matched : State → Action → List Image) : Prop where
  init : view lower.init = upper.init
  step : ∀ actions state action next, lower.Meets guard actions → lower.run actions = some state →
    guard state action → lower.step state action = some next →
      upper.runFrom (view state) (matched state action) = some (view next)

variable {lower : Machine State Action} {upper : Machine Shadow Image}
  {guard : State → Action → Prop} {view : State → Shadow}
  {matched : State → Action → List Image} {actions : List Action} {state : State}

/-- Every guarded run is seen as a run. -/
theorem Refines.run (h : lower.Refines upper guard view matched)
    (hmeets : lower.Meets guard actions) (hrun : lower.run actions = some state) :
    upper.run (lower.observe matched actions) = some (view state) := by
  refine run_induction_of_meets (motive := fun actions state => lower.Meets guard actions →
    upper.run (lower.observe matched actions) = some (view state)) ?_ ?_ hmeets hrun hmeets
  · intro _
    rw [h.init]
    rfl
  · intro actions state action next hrun ih hguard hstep hmeets
    have hbefore := hmeets.of_initial (List.prefix_append _ _)
    rw [observe_concat hrun hstep]
    exact run_append_iff.mpr ⟨view state, ih hbefore,
      h.step actions state action next hbefore hrun hguard hstep⟩

/-- A run shows the same through the view, if each step does. -/
theorem Refines.observe {see : State → Action → List Event} {seeUpper : Shadow → Image → List Event}
    (h : lower.Refines upper guard view matched)
    (hsee : ∀ state action next, lower.step state action = some next →
      upper.runFrom (view state) (matched state action) = some (view next) →
        upper.observeFrom seeUpper (view state) (matched state action) = see state action)
    (hmeets : lower.Meets guard actions) (hrun : lower.run actions = some state) :
    upper.observe seeUpper (lower.observe matched actions) = lower.observe see actions := by
  refine run_induction_of_meets (motive := fun actions _ => lower.Meets guard actions →
    upper.observe seeUpper (lower.observe matched actions) = lower.observe see actions)
    (fun _ => rfl) ?_ hmeets hrun hmeets
  intro actions state action next hrun ih hguard hstep hmeets
  have hbefore := hmeets.of_initial (List.prefix_append _ _)
  rw [observe_concat hrun hstep, observe_concat hrun hstep, ← ih hbefore,
    ← hsee state action next hstep (h.step actions state action next hbefore hrun hguard hstep)]
  exact observe_from_append (h.run hbefore hrun)

/-- What a single step shows. -/
theorem observe_from_singleton {see : State → Action → List Event} {action : Action} {next : State}
    (h : lower.runFrom state [action] = some next) :
    lower.observeFrom see state [action] = see state action := by
  obtain ⟨middle, hstep, -⟩ := Option.bind_eq_some_iff.mp h
  simp [observeFrom, hstep]

/-- A guard is met by a list of actions and by more actions from the state that they reach. -/
theorem Meets.append {guard : State → Action → Prop} {first second : List Action}
    (hrun : lower.run first = some state) (hfirst : lower.Meets guard first)
    (hsecond : ∀ before action after middle, second = before ++ action :: after →
      lower.runFrom state before = some middle → guard middle action) :
    lower.Meets guard (first ++ second) := by
  intro before action after middle heq hbefore
  rcases List.append_eq_append_iff.mp heq with ⟨more, rfl, hmore⟩ | ⟨more, hmore, hafter⟩
  · exact hsecond more action after middle hmore (run_from_of_append hbefore hrun)
  · rcases more with _ | ⟨head, rest⟩
    · -- the action is the first one of the second list
      rw [List.append_nil] at hmore
      subst hmore
      obtain rfl := Option.some.inj (hrun.symm.trans hbefore)
      exact hsecond [] action after state hafter.symm rfl
    · obtain ⟨rfl, -⟩ := List.cons.inj hafter
      exact hfirst before action rest middle hmore hbefore

/-- A guard of the upper machine is met, if each step meets it. -/
theorem Refines.meets {guardUpper : Shadow → Image → Prop}
    (h : lower.Refines upper guard view matched)
    (hguard : ∀ state action, guard state action → ∀ before image after shadow,
      matched state action = before ++ image :: after →
        upper.runFrom (view state) before = some shadow → guardUpper shadow image)
    (hmeets : lower.Meets guard actions) (hrun : lower.run actions = some state) :
    upper.Meets guardUpper (lower.observe matched actions) := by
  refine run_induction_of_meets (motive := fun actions _ => lower.Meets guard actions →
    upper.Meets guardUpper (lower.observe matched actions)) ?_ ?_ hmeets hrun hmeets
  · intro _ before image after shadow heq
    simp at heq
  · intro actions state action next hrun ih hlast hstep hmeets
    have hbefore := hmeets.of_initial (List.prefix_append _ _)
    rw [observe_concat hrun hstep]
    exact (ih hbefore).append (h.run hbefore hrun) (hguard state action hlast)

/-! ## Simulations -/

/-- The steps of guarded runs of `lower` are matched, through `image`, by guarded steps of `upper`
that keep the states related. The step may use what is known of the run of `upper` so far. -/
structure SimulatedBy (lower : Machine State Action) (upper : Machine Shadow Image)
    (guard : State → Action → Prop) (guardUpper : Shadow → Image → Prop)
    (related : State → Shadow → Prop) (image : Action → Image) : Prop where
  init : related lower.init upper.init
  step : ∀ images shadow state action next, upper.Meets guardUpper images →
    upper.run images = some shadow → related state shadow → guard state action →
      lower.step state action = some next → guardUpper shadow (image action) ∧
        ∃ later, upper.step shadow (image action) = some later ∧ related next later

/-- Every guarded run is matched by a guarded run that reaches a related state. -/
theorem SimulatedBy.run {guardUpper : Shadow → Image → Prop} {related : State → Shadow → Prop}
    {image : Action → Image} (h : lower.SimulatedBy upper guard guardUpper related image)
    (hmeets : lower.Meets guard actions) (hrun : lower.run actions = some state) :
    ∃ shadow, upper.run (actions.map image) = some shadow ∧
      upper.Meets guardUpper (actions.map image) ∧ related state shadow := by
  refine run_induction_of_meets (motive := fun actions state => ∃ shadow,
    upper.run (actions.map image) = some shadow ∧ upper.Meets guardUpper (actions.map image) ∧
      related state shadow) ?_ ?_ hmeets hrun
  · refine ⟨upper.init, rfl, ?_, h.init⟩
    intro before action after shadow heq
    simp at heq
  · intro actions state action next _ ih hguard hstep
    obtain ⟨shadow, hshadow, hupper, hrelated⟩ := ih
    obtain ⟨hguardUpper, later, hlater, hnext⟩ :=
      h.step _ shadow state action next hupper hshadow hrelated hguard hstep
    rw [List.map_append, List.map_singleton]
    refine ⟨later, run_concat_iff.mpr ⟨shadow, hshadow, hlater⟩, ?_, hnext⟩
    refine hupper.append hshadow fun before other after middle heq hmiddle => ?_
    rcases before with _ | ⟨head, rest⟩
    · obtain ⟨rfl, -⟩ := List.cons.inj heq
      obtain rfl := Option.some.inj hmiddle
      exact hguardUpper
    · simp at heq

end DistributedLabs.Machine
