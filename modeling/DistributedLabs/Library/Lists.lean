import Mathlib.Data.List.Basic
import Mathlib.Order.Lattice
import Mathlib.Tactic.Common

/-!
# Lists that are indexed, updated and sorted

The lookups and counts of a list that has got one more element or has had one replaced, and the
initial and final parts of a strictly increasing list.
-/

namespace DistributedLabs

section Updates

variable {α : Type} {list : List α} {j k : Nat} {old new last element : α}

/-- The lookup in a list that has got one more element. -/
theorem lookup_concat (h : (list ++ [last])[k]? = some element) :
    list[k]? = some element ∨ k = list.length ∧ element = last := by
  rcases Nat.lt_trichotomy k list.length with hlt | heq | hgt
  · rw [List.getElem?_append_left hlt] at h
    exact Or.inl h
  · subst heq
    rw [List.getElem?_concat_length] at h
    exact Or.inr ⟨rfl, (Option.some.inj h).symm⟩
  · rw [List.getElem?_eq_none (by simp; omega)] at h
    cases h

/-- The lookup in a list in which one element was replaced. -/
theorem lookup_set (h : (list.set k new)[j]? = some element) :
    (j = k ∧ element = new) ∨ (j ≠ k ∧ list[j]? = some element) := by
  rw [List.getElem?_set] at h
  split at h
  · rename_i heq
    split at h
    · exact Or.inl ⟨heq.symm, (Option.some.inj h).symm⟩
    · cases h
  · rename_i hne
    exact Or.inr ⟨Ne.symm hne, h⟩

/-- Elements other than the replaced one stay in the list. -/
theorem mem_set_of_ne (hold : list[k]? = some old) (hother : element ∈ list) (hne : element ≠ old) :
    element ∈ list.set k new := by
  obtain ⟨j, hj⟩ := List.mem_iff_getElem?.mp hother
  have hjk : k ≠ j := by
    intro heq
    subst heq
    exact hne (Option.some.inj (hj.symm.trans hold))
  exact List.mem_iff_getElem?.mpr ⟨j, by rw [List.getElem?_set_ne hjk, hj]⟩

/-- Replacing an element moves a count by what the two elements count. -/
theorem count_set_add (hold : list[k]? = some old) (new : α) (test : α → Bool) :
    (list.set k new).countP test + (if test old then 1 else 0) =
      list.countP test + (if test new then 1 else 0) := by
  induction list generalizing k with
  | nil => cases hold
  | cons head rest ih =>
      cases k with
      | zero =>
          obtain rfl := Option.some.inj hold
          simp only [List.set_cons_zero, List.countP_cons]
          omega
      | succ k =>
          have hrest := ih (k := k) hold
          simp only [List.set_cons_succ, List.countP_cons]
          omega

end Updates

section Increasing

variable {α : Type} [LinearOrder α] {list front back : List α} {element : α}

/-- What stands before the first failure of a test, in an increasing list. -/
theorem mem_take_while_iff {test : α → Bool} (hsorted : list.Pairwise (· < ·)) :
    element ∈ list.takeWhile test ↔
      element ∈ list ∧ ∀ other ∈ list, other ≤ element → test other = true := by
  induction list with
  | nil => simp
  | cons first rest ih =>
      obtain ⟨hfirst, hrest⟩ := List.pairwise_cons.mp hsorted
      rw [List.takeWhile_cons]
      split
      · rename_i htest
        rw [List.mem_cons, ih hrest]
        constructor
        · rintro (rfl | ⟨hmem, hall⟩)
          · refine ⟨List.mem_cons_self, fun other hother hle => ?_⟩
            rcases List.mem_cons.mp hother with rfl | hother
            · exact htest
            · exact absurd (hfirst other hother) hle.not_gt
          · refine ⟨List.mem_cons_of_mem _ hmem, fun other hother hle => ?_⟩
            rcases List.mem_cons.mp hother with rfl | hother
            · exact htest
            · exact hall other hother hle
        · rintro ⟨hmem, hall⟩
          rcases List.mem_cons.mp hmem with rfl | hmem
          · exact Or.inl rfl
          · exact Or.inr ⟨hmem, fun other hother => hall other (List.mem_cons_of_mem _ hother)⟩
      · rename_i htest
        simp only [List.not_mem_nil, false_iff, not_and]
        intro hmem hall
        refine htest (hall first List.mem_cons_self ?_)
        rcases List.mem_cons.mp hmem with rfl | hmem
        · exact le_rfl
        · exact le_of_lt (hfirst element hmem)

/-- In an increasing list the larger elements are those behind. -/
theorem filter_lt_of_sorted (hsorted : (front ++ element :: back).Pairwise (· < ·)) :
    (front ++ element :: back).filter (element < ·) = back := by
  obtain ⟨-, hback, hfront⟩ := List.pairwise_append.mp hsorted
  have hbefore : front.filter (element < ·) = [] := by
    refine List.filter_eq_nil_iff.mpr fun other hother => ?_
    have hlt := hfront other hother element List.mem_cons_self
    simpa using le_of_lt hlt
  have hafter : back.filter (element < ·) = back :=
    List.filter_eq_self.mpr fun other hother =>
      decide_eq_true ((List.pairwise_cons.mp hback).1 other hother)
  rw [List.filter_append, hbefore, List.filter_cons_of_neg (by simp), hafter, List.nil_append]

end Increasing

end DistributedLabs
