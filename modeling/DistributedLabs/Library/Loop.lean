import Mathlib.Tactic.Common

/-!
# Loops with a condition and a body

`forLoop` runs a body as long as a condition holds. The condition and the body may fail, which
stands for a run-time error, and the number of rounds is bounded by a fuel, so that a result means
that the loop has come to its end. `for_loop_total` is the rule of total correctness: an invariant
that every round keeps, and a variant that every round makes smaller.
-/

namespace DistributedLabs

variable {σ : Type} {cond : σ → Option Bool} {body : σ → Option σ}

/-- `for cond { body }` in at most `fuel` tests of the condition. -/
def forLoop (cond : σ → Option Bool) (body : σ → Option σ) : Nat → σ → Option σ
  | 0, _ => none
  | fuel + 1, s =>
      match cond s with
      | none => none
      | some false => some s
      | some true =>
          match body s with
          | none => none
          | some s' => forLoop cond body fuel s'

/-- A loop whose condition does not hold does nothing. -/
theorem for_loop_done {s : σ} (h : cond s = some false) (fuel : Nat) :
    forLoop cond body (fuel + 1) s = some s := by
  rw [forLoop, h]

/-- A loop whose condition holds goes through its body once and goes on. -/
theorem for_loop_round {s s' : σ} (h : cond s = some true) (hbody : body s = some s')
    (fuel : Nat) : forLoop cond body (fuel + 1) s = forLoop cond body fuel s' := by
  rw [forLoop, h]
  dsimp only
  rw [hbody]

/-- A loop comes to its end, without an error, in a state with the invariant. -/
theorem for_loop_total (inv : σ → Prop) (variant : σ → Nat)
    (hcond : ∀ s, inv s → ∃ b, cond s = some b)
    (hround : ∀ s, inv s → cond s = some true →
      ∃ s', body s = some s' ∧ inv s' ∧ variant s' < variant s)
    {s : σ} (hinv : inv s) {fuel : Nat} (hfuel : variant s < fuel) :
    ∃ s', forLoop cond body fuel s = some s' ∧ inv s' ∧ cond s' = some false := by
  induction fuel generalizing s with
  | zero => omega
  | succ fuel ih =>
      obtain ⟨b, hb⟩ := hcond s hinv
      cases b with
      | false => exact ⟨s, for_loop_done hb fuel, hinv, hb⟩
      | true =>
          obtain ⟨s', hbody, hinv', hlt⟩ := hround s hinv hb
          obtain ⟨final, hloop, hfinal⟩ := ih hinv' (by omega)
          exact ⟨final, (for_loop_round hb hbody fuel).trans hloop, hfinal⟩

end DistributedLabs
