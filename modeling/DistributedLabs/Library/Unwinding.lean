import Mathlib.Tactic.Common

/-!
# Non-interference by unwinding

A component takes inputs one after the other and answers each of them. Some of its inputs are
visible. The visible part of its behaviour does not depend on the other inputs if a relation between
states, the view, is kept by a visible input on both sides, with the same answer, and by a hidden
input on one side (`Unwinding`): then a run with all inputs and one with the visible inputs alone
answer these in the same way and end in states with the same view (`Unwinding.run`).
-/

namespace DistributedLabs

variable {σ ι ο : Type}

/-- The inputs with their answers. -/
def answers (execute : σ → ι → σ × ο) : σ → List ι → List (ι × ο)
  | _, [] => []
  | s, input :: rest => (input, (execute s input).2) :: answers execute (execute s input).1 rest

/-- The state after some inputs. -/
def afterInputs (execute : σ → ι → σ × ο) (s : σ) (inputs : List ι) : σ :=
  inputs.foldl (fun s input => (execute s input).1) s

/-- The view is kept by the inputs of a class, and visible inputs are answered by the view alone. -/
structure Unwinding (execute : σ → ι → σ × ο) (allowed visible : ι → Prop)
    (view : σ → σ → Prop) : Prop where
  answer : ∀ {s t input}, view s t → allowed input → visible input →
    (execute s input).2 = (execute t input).2
  visible_step : ∀ {s t input}, view s t → allowed input → visible input →
    view (execute s input).1 (execute t input).1
  hidden_step : ∀ {s t input}, view s t → allowed input → ¬ visible input →
    view (execute s input).1 t

/-- Without the hidden inputs the visible ones are answered in the same way, and the view at the end
is the same. -/
theorem Unwinding.run {execute : σ → ι → σ × ο} {allowed visible : ι → Prop}
    [DecidablePred visible] {view : σ → σ → Prop} (h : Unwinding execute allowed visible view)
    {inputs : List ι} (hallowed : ∀ input ∈ inputs, allowed input) {s t : σ} (hview : view s t) :
    ((answers execute s inputs).filter fun answer => visible answer.1) =
        answers execute t (inputs.filter fun input => visible input) ∧
      view (afterInputs execute s inputs)
        (afterInputs execute t (inputs.filter fun input => visible input)) := by
  induction inputs generalizing s t with
  | nil => exact ⟨rfl, hview⟩
  | cons input rest ih =>
      have hinput := hallowed input List.mem_cons_self
      have hrest : ∀ later ∈ rest, allowed later :=
        fun later hlater => hallowed later (List.mem_cons_of_mem _ hlater)
      by_cases hvisible : visible input
      · obtain ⟨hanswers, hfinal⟩ := ih hrest (h.visible_step hview hinput hvisible)
        rw [answers, List.filter_cons_of_pos (by simpa using hvisible),
          List.filter_cons_of_pos (by simpa using hvisible), answers, hanswers,
          h.answer hview hinput hvisible]
        exact ⟨rfl, hfinal⟩
      · obtain ⟨hanswers, hfinal⟩ := ih hrest (h.hidden_step hview hinput hvisible)
        rw [answers, List.filter_cons_of_neg (by simpa using hvisible),
          List.filter_cons_of_neg (by simpa using hvisible)]
        exact ⟨hanswers, hfinal⟩

end DistributedLabs
