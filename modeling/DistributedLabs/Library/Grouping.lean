import Mathlib.Data.List.TakeWhile
import Mathlib.Order.Defs.PartialOrder
import Mathlib.Tactic.Common

/-!
# Grouping a sorted list by key

`groupRuns` splits a list into its maximal runs of equal keys. On a list that is sorted by key the
runs are the groups: each key that occurs has exactly one run, which has all the elements with that
key in their order (`mem_group_runs_iff`), and the keys of the runs increase strictly
(`group_runs_increasing`).
-/

namespace DistributedLabs

variable {α K : Type} [DecidableEq K] (key : α → K)

/-- The maximal runs of elements with one key, with their keys. -/
def groupRuns : List α → List (K × List α)
  | [] => []
  | head :: rest =>
      (key head, head :: rest.takeWhile fun other => key other = key head) ::
        groupRuns (rest.dropWhile fun other => key other = key head)
  termination_by list => list.length
  decreasing_by
    have hle := (List.dropWhile_sublist (l := rest) fun other => key other = key head).length_le
    simp only [List.length_cons]
    omega

/-- The runs of the empty list. -/
@[simp] theorem group_runs_nil : groupRuns key [] = [] := by
  rw [groupRuns]

/-- The first run, and the runs of what follows it. -/
theorem group_runs_cons (head : α) (rest : List α) :
    groupRuns key (head :: rest) =
      (key head, head :: rest.takeWhile fun other => key other = key head) ::
        groupRuns key (rest.dropWhile fun other => key other = key head) := by
  rw [groupRuns]

variable {key} {head : α} {rest list : List α}

/-- The first run from `i` on is `list[i:j]`, and the others start at `j`. -/
theorem group_runs_drop {i j : Nat} (hlookup : list[i]? = some head)
    (hj : j = i + 1 + ((list.drop (i + 1)).takeWhile fun other => key other = key head).length) :
    groupRuns key (list.drop i) =
      (key head, list.extract i j) :: groupRuns key (list.drop j) := by
  have hdrop : list.drop i = head :: list.drop (i + 1) := by
    rw [List.drop_eq_getElem?_toList_append, hlookup]
    rfl
  have hsplit := List.takeWhile_append_dropWhile (p := fun other => key other = key head)
    (l := list.drop (i + 1))
  have hrun : list.extract i j =
      head :: (list.drop (i + 1)).takeWhile fun other => key other = key head := by
    rw [List.extract_eq_take_drop, hdrop, hj, Nat.add_assoc, Nat.add_sub_cancel_left,
      Nat.add_comm 1, List.take_succ_cons]
    conv_lhs => rw [← hsplit]
    rw [List.take_left' (by rw [hsplit])]
  have hrest : list.drop j = (list.drop (i + 1)).dropWhile fun other => key other = key head := by
    rw [hj, ← List.drop_drop]
    conv_lhs => rw [← hsplit]
    rw [List.drop_left' (by rw [hsplit])]
  rw [hrun, hrest, hdrop, group_runs_cons]

/-- A key other than the first one is looked for after the first run. -/
theorem filter_drop_while {value : K} (hne : value ≠ key head) :
    ((rest.dropWhile fun other => key other = key head).filter fun other => key other = value) =
      (head :: rest).filter fun other => key other = value := by
  have hhead : ((rest.takeWhile fun other => key other = key head).filter
      fun other => key other = value) = [] := by
    refine List.filter_eq_nil_iff.mpr fun other hother => ?_
    have hkey : key other = key head := by simpa using List.mem_takeWhile_imp hother
    simpa [hkey] using hne.symm
  have hsplit := congrArg (List.filter fun other => key other = value)
    (List.takeWhile_append_dropWhile (p := fun other => key other = key head) (l := rest))
  rw [List.filter_append, hhead, List.nil_append] at hsplit
  rw [List.filter_cons_of_neg (by simpa using hne.symm), hsplit]

variable [PartialOrder K]

/-- The list is sorted by key. -/
def SortedBy (key : α → K) (list : List α) : Prop :=
  list.Pairwise fun first second => key first ≤ key second

/-- In a sorted list the elements with the least key come first. -/
theorem take_while_eq_filter (h : SortedBy key (head :: rest)) :
    (rest.takeWhile fun other => key other = key head) =
      rest.filter fun other => key other = key head := by
  induction rest with
  | nil => rfl
  | cons next rest ih =>
      obtain ⟨hleast, hsorted⟩ := List.pairwise_cons.mp h
      obtain ⟨hnext, hrest⟩ := List.pairwise_cons.mp hsorted
      by_cases heq : key next = key head
      · have hskip : SortedBy key (head :: rest) := List.pairwise_cons.mpr
          ⟨fun other hother => hleast other (List.mem_cons_of_mem _ hother), hrest⟩
        rw [List.takeWhile_cons_of_pos (by simpa using heq),
          List.filter_cons_of_pos (by simpa using heq), ih hskip]
      · rw [List.takeWhile_cons_of_neg (by simpa using heq),
          List.filter_cons_of_neg (by simpa using heq)]
        -- from the first greater key on, no key is the least one again
        refine (List.filter_eq_nil_iff.mpr fun other hother => ?_).symm
        have hlt : key head < key next :=
          lt_of_le_of_ne (hleast next List.mem_cons_self) (Ne.symm heq)
        have hgt : key head < key other := lt_of_lt_of_le hlt (hnext other hother)
        simpa using hgt.ne'

/-- In a sorted list the elements after the first run have a greater key. -/
theorem lt_of_mem_drop_while (h : SortedBy key (head :: rest)) {other : α}
    (hother : other ∈ rest.dropWhile fun other => key other = key head) :
    key head < key other := by
  have hle : key head ≤ key other :=
    (List.pairwise_cons.mp h).1 other ((List.dropWhile_sublist _).subset hother)
  refine lt_of_le_of_ne hle fun heq => ?_
  have hcount := congrArg (List.filter fun other => key other = key head)
    (List.takeWhile_append_dropWhile (p := fun other => key other = key head) (l := rest))
  rw [List.filter_append, take_while_eq_filter h, List.filter_filter] at hcount
  simp only [Bool.and_self] at hcount
  have hnil := List.append_right_eq_self.mp hcount
  exact absurd heq.symm (by simpa using List.filter_eq_nil_iff.mp hnil other hother)

/-- What follows the first run of a sorted list is sorted. -/
theorem SortedBy.drop_while (h : SortedBy key (head :: rest)) :
    SortedBy key (rest.dropWhile fun other => key other = key head) :=
  (List.pairwise_cons.mp h).2.sublist (List.dropWhile_sublist _)

/-- The runs of a sorted list are its groups. -/
theorem mem_group_runs_iff (h : SortedBy key list) {group : K × List α} :
    group ∈ groupRuns key list ↔
      (∃ element ∈ list, key element = group.1) ∧
        group.2 = list.filter fun element => key element = group.1 := by
  induction list using groupRuns.induct key with
  | case1 => simp
  | case2 head rest ih =>
      obtain ⟨value, run⟩ := group
      rw [group_runs_cons, List.mem_cons, ih h.drop_while]
      by_cases heq : value = key head
      · -- the first run: it has every element with the least key, and no later run has this key
        subst heq
        have hnone : ¬ ∃ element ∈ rest.dropWhile (fun other => key other = key head),
            key element = key head :=
          fun ⟨element, hmem, hkey⟩ => (lt_of_mem_drop_while h hmem).ne' hkey
        rw [List.filter_cons_of_pos (by simp), ← take_while_eq_filter h]
        simp [hnone]
      · have hmem : (∃ element ∈ rest.dropWhile (fun other => key other = key head),
            key element = value) ↔ ∃ element ∈ head :: rest, key element = value := by
          have hiff : ∀ list : List α, (∃ element ∈ list, key element = value) ↔
              (list.filter fun element => key element = value) ≠ [] := by
            intro list
            simp [List.filter_eq_nil_iff]
          rw [hiff, hiff, filter_drop_while heq]
        rw [hmem, filter_drop_while heq]
        simp [heq]

/-- The keys of the runs of a sorted list increase strictly. -/
theorem group_runs_increasing (h : SortedBy key list) :
    (groupRuns key list).Pairwise fun first second => first.1 < second.1 := by
  induction list using groupRuns.induct key with
  | case1 => simp
  | case2 head rest ih =>
      rw [group_runs_cons]
      refine List.pairwise_cons.mpr ⟨fun group hgroup => ?_, ih h.drop_while⟩
      obtain ⟨⟨element, hmem, hkey⟩, -⟩ := (mem_group_runs_iff h.drop_while).mp hgroup
      rw [← hkey]
      exact lt_of_mem_drop_while h hmem

end DistributedLabs
