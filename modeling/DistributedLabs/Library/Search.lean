import Mathlib.Data.Fintype.Card
import Mathlib.Logic.Relation

/-!
# Depth-first search

`visit` searches a graph from a node, given the nodes that were visited before. A node is marked
before its children are searched, so a search on a graph with cycles comes to its end: the number of
unvisited nodes is enough fuel, `visit_total`.

`Explored` says what a search has done: the nodes that it has added are reachable from where it
started, and their children are all visited. It composes along a list of searches, so that searches
from several roots, starting with nothing visited, visit exactly the nodes that are reachable from
the roots, `Explored.mem_iff`.
-/

namespace DistributedLabs

variable {α : Type} [DecidableEq α] (next : α → List α)

/-- Search from a node. -/
def visit : Nat → α → Finset α → Option (Finset α)
  | 0, _, _ => none
  | fuel + 1, node, visited =>
      if node ∈ visited then some visited
      else (next node).foldlM (fun visited child => visit fuel child visited) (insert node visited)

/-- Search from one node after the other. -/
def visitAll (fuel : Nat) (nodes : List α) (visited : Finset α) : Option (Finset α) :=
  nodes.foldlM (fun visited node => visit next fuel node visited) visited

/-- There is a path from one node to the other. -/
def Reaches (first second : α) : Prop :=
  Relation.ReflTransGen (fun node child => child ∈ next node) first second

/-- What a search from the roots has done. -/
structure Explored (roots : List α) (before after : Finset α) : Prop where
  subset : before ⊆ after
  roots_mem : ∀ root ∈ roots, root ∈ after
  closed : ∀ node ∈ after, node ∉ before → ∀ child ∈ next node, child ∈ after
  reached : ∀ node ∈ after, node ∉ before → ∃ root ∈ roots, Reaches next root node

section Explored

variable {next} {node root : α} {roots : List α} {before middle after : Finset α}

omit [DecidableEq α] in
/-- A search from nowhere does nothing. -/
theorem Explored.nil : Explored next [] before before :=
  ⟨Finset.Subset.refl _, by simp, fun _ hmem hnot => absurd hmem hnot,
    fun _ hmem hnot => absurd hmem hnot⟩

omit [DecidableEq α] in
/-- A node that is already visited adds nothing. -/
theorem Explored.visited (h : node ∈ before) : Explored next [node] before before :=
  ⟨Finset.Subset.refl _, by simpa using h, fun _ hmem hnot => absurd hmem hnot,
    fun _ hmem hnot => absurd hmem hnot⟩

omit [DecidableEq α] in
/-- A search from one root and then from the others. -/
theorem Explored.cons (hfirst : Explored next [root] before middle)
    (hrest : Explored next roots middle after) : Explored next (root :: roots) before after where
  subset := hfirst.subset.trans hrest.subset
  roots_mem := by
    intro other hother
    rcases List.mem_cons.mp hother with rfl | hmem
    · exact hrest.subset (hfirst.roots_mem other List.mem_cons_self)
    · exact hrest.roots_mem other hmem
  closed := by
    intro node hnode hnot child hchild
    by_cases hmiddle : node ∈ middle
    · exact hrest.subset (hfirst.closed node hmiddle hnot child hchild)
    · exact hrest.closed node hnode hmiddle child hchild
  reached := by
    intro node hnode hnot
    by_cases hmiddle : node ∈ middle
    · obtain ⟨other, hother, hpath⟩ := hfirst.reached node hmiddle hnot
      obtain rfl := List.mem_singleton.mp hother
      exact ⟨other, List.mem_cons_self, hpath⟩
    · obtain ⟨other, hother, hpath⟩ := hrest.reached node hnode hmiddle
      exact ⟨other, List.mem_cons_of_mem _ hother, hpath⟩

/-- A new node is marked, and its children are searched. -/
theorem Explored.of_children (hchildren : Explored next (next node) (insert node before) after) :
    Explored next [node] before after where
  subset := (Finset.subset_insert node before).trans hchildren.subset
  roots_mem := by
    intro root hroot
    obtain rfl := List.mem_singleton.mp hroot
    exact hchildren.subset (Finset.mem_insert_self root before)
  closed := by
    intro other hother hnot child hchild
    by_cases heq : other = node
    · subst heq
      exact hchildren.roots_mem child hchild
    · exact hchildren.closed other hother (by simp [heq, hnot]) child hchild
  reached := by
    intro other hother hnot
    refine ⟨node, List.mem_cons_self, ?_⟩
    by_cases heq : other = node
    · subst heq
      exact Relation.ReflTransGen.refl
    · obtain ⟨child, hchild, hpath⟩ := hchildren.reached other hother (by simp [heq, hnot])
      exact Relation.ReflTransGen.head hchild hpath

omit [DecidableEq α] in
/-- From nothing visited, the visited nodes are those that are reachable from the roots. -/
theorem Explored.mem_iff (h : Explored next roots ∅ after) :
    node ∈ after ↔ ∃ root ∈ roots, Reaches next root node := by
  constructor
  · intro hnode
    exact h.reached node hnode (Finset.notMem_empty node)
  · intro hreached
    obtain ⟨root, hroot, hpath⟩ := hreached
    induction hpath with
    | refl => exact h.roots_mem root hroot
    | tail _ hchild ih => exact h.closed _ ih (Finset.notMem_empty _) _ hchild

end Explored

section Termination

variable {next} [Fintype α]

/-- Searching a list of nodes comes to its end if the search from each node does. -/
theorem visit_all_total_of_visit {fuel : Nat}
    (hvisit : ∀ node (visited : Finset α), visitedᶜ.card < fuel →
      ∃ after, visit next fuel node visited = some after ∧ Explored next [node] visited after)
    (nodes : List α) {visited : Finset α} (hfuel : visitedᶜ.card < fuel) :
    ∃ after, visitAll next fuel nodes visited = some after ∧
      Explored next nodes visited after := by
  induction nodes generalizing visited with
  | nil => exact ⟨visited, rfl, Explored.nil⟩
  | cons node rest ih =>
      obtain ⟨middle, hmiddle, hfirst⟩ := hvisit node visited hfuel
      have hless : middleᶜ.card ≤ visitedᶜ.card :=
        Finset.card_le_card (Finset.compl_subset_compl.mpr hfirst.subset)
      obtain ⟨after, hafter, hrest⟩ := ih (show middleᶜ.card < fuel by omega)
      refine ⟨after, ?_, hfirst.cons hrest⟩
      rw [visitAll, List.foldlM_cons, hmiddle]
      exact hafter

/-- The search from a node comes to its end with more fuel than there are unvisited nodes. -/
theorem visit_total {fuel : Nat} (node : α) {visited : Finset α} (hfuel : visitedᶜ.card < fuel) :
    ∃ after, visit next fuel node visited = some after ∧
      Explored next [node] visited after := by
  induction fuel generalizing node visited with
  | zero => omega
  | succ fuel ih =>
      by_cases hmem : node ∈ visited
      · exact ⟨visited, if_pos hmem, Explored.visited hmem⟩
      · -- marking the node leaves fewer unvisited ones for the children
        have hmark : (insert node visited)ᶜ.card < visitedᶜ.card := by
          refine Finset.card_lt_card (Finset.compl_ssubset_compl.mpr ?_)
          exact Finset.ssubset_insert hmem
        obtain ⟨after, hafter, hchildren⟩ := visit_all_total_of_visit
          (fun child visited => ih child) (next node)
          (show (insert node visited)ᶜ.card < fuel by omega)
        exact ⟨after, (if_neg hmem).trans hafter, hchildren.of_children⟩

/-- The searches from a list of nodes come to their end. -/
theorem visit_all_total {fuel : Nat} (nodes : List α) {visited : Finset α}
    (hfuel : visitedᶜ.card < fuel) :
    ∃ after, visitAll next fuel nodes visited = some after ∧ Explored next nodes visited after :=
  visit_all_total_of_visit (fun node _ => visit_total node) nodes hfuel

end Termination

end DistributedLabs
