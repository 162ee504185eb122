import DistributedLabs.Porcupine.Checker

/-!
# The longest sequences

The checker can keep, for every operation, the longest sequence with it that the search met.
`LongestOf` says what the list then has; `longest_recorded` that recording one more sequence keeps
this.
-/

namespace DistributedLabs.Porcupine

/-- For every operation the list has one of the longest sequences with it, if there is one. -/
structure LongestOf (seqs : List (List Nat)) (n : Nat) (longest : List (Option (List Nat))) :
    Prop where
  length : longest.length = n
  absent : ∀ id, longest[id]? = some none → ∀ seq ∈ seqs, id ∉ seq
  best : ∀ id best, longest[id]? = some (some best) → best ∈ seqs ∧ id ∈ best ∧
    ∀ seq ∈ seqs, id ∈ seq → seq.length ≤ best.length

/-- The better one of a sequence and what was kept. -/
def better (seq : List Nat) : Option (List Nat) → Option (List Nat)
  | none => some seq
  | some old => if seq.length > old.length then some seq else some old

variable {seq ids : List Nat} {seqs : List (List Nat)} {longest : List (Option (List Nat))}
  {id n : Nat}

/-- Nothing was met. -/
theorem longest_of_nil (n : Nat) : LongestOf [] n (List.replicate n none) where
  length := List.length_replicate
  absent := by simp
  best := by
    intro id best hbest
    have hnone := List.eq_of_mem_replicate (List.mem_of_getElem? hbest)
    cases hnone

/-- Recording changes the place of the operation. -/
theorem record_longest_eq (hid : id < longest.length) :
    recordLongest seq longest id = some (longest.set id (better seq longest[id])) := by
  rw [recordLongest, List.getElem?_eq_getElem hid, Option.map_some]
  cases hold : longest[id] with
  | none => rfl
  | some old =>
      simp only [better]
      split
      · rfl
      · rw [← hold, List.set_getElem_self]

/-- Recording for several operations. -/
theorem record_longest_all (seq : List Nat) (hnodup : ids.Nodup)
    (hids : ∀ id ∈ ids, id < longest.length) :
    ∃ later, ids.foldlM (recordLongest seq) longest = some later ∧
      later.length = longest.length ∧
      ∀ id, later[id]? = if id ∈ ids then longest[id]?.map (better seq) else longest[id]? := by
  induction ids generalizing longest with
  | nil => exact ⟨longest, rfl, rfl, by simp⟩
  | cons first rest ih =>
      obtain ⟨hfirst, hrest⟩ := List.nodup_cons.mp hnodup
      have hlt := hids first List.mem_cons_self
      have hids' : ∀ id ∈ rest, id < (longest.set first (better seq longest[first])).length := by
        intro id hid
        rw [List.length_set]
        exact hids id (List.mem_cons_of_mem _ hid)
      obtain ⟨later, hlater, hlength, hget⟩ := ih hrest hids'
      refine ⟨later, ?_, hlength.trans List.length_set, fun id => ?_⟩
      · rw [List.foldlM_cons, record_longest_eq hlt]
        exact hlater
      · rw [hget]
        by_cases heq : id = first
        · subst heq
          rw [if_neg hfirst, if_pos List.mem_cons_self, List.getElem?_set_self hlt,
            List.getElem?_eq_getElem hlt, Option.map_some]
        · simp only [List.mem_cons, heq, false_or, List.getElem?_set_ne (Ne.symm heq)]

/-- Recording a sequence for the operations in it. -/
theorem longest_recorded (h : LongestOf seqs n longest) (hnodup : seq.Nodup)
    (hids : ∀ id ∈ seq, id < n) :
    ∃ later, seq.foldlM (recordLongest seq) longest = some later ∧
      LongestOf (seqs ++ [seq]) n later := by
  obtain ⟨later, hlater, hlength, hget⟩ := record_longest_all seq hnodup (by rwa [h.length])
  refine ⟨later, hlater, hlength.trans h.length, fun id hid => ?_, fun id best hbest => ?_⟩
  · rw [hget] at hid
    split at hid
    · obtain ⟨old, -, hold⟩ := Option.map_eq_some_iff.mp hid
      cases old with
      | none => cases hold
      | some old =>
          simp only [better] at hold
          split at hold <;> cases hold
    · rename_i hnot
      intro other hother
      rcases List.mem_append.mp hother with hold | hnew
      · exact h.absent id hid other hold
      · rwa [List.mem_singleton.mp hnew]
  · rw [hget] at hbest
    have hlast : seq ∈ seqs ++ [seq] := List.mem_append_right _ List.mem_cons_self
    split at hbest
    · rename_i hmem
      obtain ⟨old, hold, hbetter⟩ := Option.map_eq_some_iff.mp hbest
      -- either the new sequence is kept, and then it is longer, or the old one
      have hcases : best = seq ∧ (∀ other ∈ seqs, id ∈ other → other.length ≤ seq.length) ∨
          old = some best ∧ seq.length ≤ best.length := by
        cases old with
        | none =>
            refine Or.inl ⟨(Option.some.inj hbetter).symm, fun other hother hin => ?_⟩
            exact absurd hin (h.absent id hold other hother)
        | some old =>
            simp only [better] at hbetter
            split at hbetter
            · rename_i hlonger
              refine Or.inl ⟨(Option.some.inj hbetter).symm, fun other hother hin => ?_⟩
              have hle := (h.best id old hold).2.2 other hother hin
              omega
            · rename_i hshorter
              refine Or.inr ⟨hbetter, ?_⟩
              rw [← Option.some.inj hbetter]
              omega
      rcases hcases with ⟨rfl, hmax⟩ | ⟨rfl, hle⟩
      · refine ⟨hlast, hmem, fun other hother hin => ?_⟩
        rcases List.mem_append.mp hother with hold | hnew
        · exact hmax other hold hin
        · rw [List.mem_singleton.mp hnew]
      · obtain ⟨hin, hid, hmax⟩ := h.best id best hold
        refine ⟨List.mem_append_left _ hin, hid, fun other hother hin => ?_⟩
        rcases List.mem_append.mp hother with hold | hnew
        · exact hmax other hold hin
        · rwa [List.mem_singleton.mp hnew]
    · rename_i hnot
      obtain ⟨hin, hid, hmax⟩ := h.best id best hbest
      refine ⟨List.mem_append_left _ hin, hid, fun other hother hin => ?_⟩
      rcases List.mem_append.mp hother with hold | hnew
      · exact hmax other hold hin
      · rw [List.mem_singleton.mp hnew] at hin
        exact absurd hin hnot

end DistributedLabs.Porcupine
