import Mathlib.Data.List.Nodup
import Mathlib.Logic.Function.Basic
import Mathlib.Tactic.Common

/-!
# Doubly linked lists

`Links` has the pointer fields of nodes, and `Linked` says that they link the nodes of a list. A
node that is taken out with `unlink` keeps its own fields, so that `relink` finds its place again:
`Linked.unlink` says that the list has lost the node, and that relinking the node gives back the
links as they were. Nodes that are relinked in the reverse order are therefore all back in place.
-/

namespace DistributedLabs

variable {Node : Type}

/-- The pointers of nodes; `none` is nil. -/
structure Links (Node : Type) where
  next : Node → Option Node
  prev : Node → Option Node

namespace Links

/-- The nodes of the list are linked in their order behind `start`, and the last one is the end. -/
def Linked (links : Links Node) : Option Node → List Node → Prop
  | _, [] => True
  | start, node :: rest =>
      links.prev node = start ∧ links.next node = rest.head? ∧ Linked links (some node) rest

variable {links other : Links Node} {start : Option Node} {node before : Node}
  {list front back : List Node}

/-- Only the pointers of the nodes themselves matter. -/
theorem Linked.congr (h : links.Linked start list)
    (hnext : ∀ node ∈ list, other.next node = links.next node)
    (hprev : ∀ node ∈ list, other.prev node = links.prev node) : other.Linked start list := by
  induction list generalizing start with
  | nil => trivial
  | cons node rest ih =>
      obtain ⟨hbefore, hafter, hrest⟩ := h
      refine ⟨(hprev node List.mem_cons_self).trans hbefore,
        (hnext node List.mem_cons_self).trans hafter, ?_⟩
      exact ih hrest (fun other hother => hnext other (List.mem_cons_of_mem _ hother))
        fun other hother => hprev other (List.mem_cons_of_mem _ hother)

/-- The pointers of a node go to its neighbours. -/
theorem Linked.neighbours (h : links.Linked start (front ++ before :: node :: back)) :
    links.next before = some node ∧ links.prev node = some before ∧
      links.next node = back.head? := by
  induction front generalizing start with
  | nil => exact ⟨h.2.1, h.2.2.1, h.2.2.2.1⟩
  | cons first rest ih => exact ih h.2.2

/-- The pointer of a node goes to the one behind it. -/
theorem Linked.next_eq (h : links.Linked start (front ++ node :: back)) :
    links.next node = back.head? := by
  induction front generalizing start with
  | nil => exact h.2.1
  | cons first rest ih => exact ih h.2.2

variable [DecidableEq Node]

/-- `node.next = after`. -/
def setNext (links : Links Node) (node : Node) (after : Option Node) : Links Node :=
  { links with next := Function.update links.next node after }

/-- `node.prev = before`. -/
def setPrev (links : Links Node) (node : Node) (before : Option Node) : Links Node :=
  { links with prev := Function.update links.prev node before }

/-- Take a node out between its neighbours. -/
def unlink (links : Links Node) (node : Node) : Option (Links Node) :=
  (links.prev node).map fun before =>
    match links.next node with
    | some after => (links.setNext before (some after)).setPrev after (some before)
    | none => links.setNext before none

/-- Put a node back between its neighbours. -/
def relink (links : Links Node) (node : Node) : Option (Links Node) :=
  (links.prev node).map fun before =>
    match links.next node with
    | some after => (links.setNext before (some node)).setPrev after (some node)
    | none => links.setNext before (some node)

/-- Link a node with what is to be behind it. -/
def join (links : Links Node) (before : Node) : List Node → Links Node
  | [] => links.setNext before none
  | after :: _ => (links.setNext before (some after)).setPrev after (some before)

/-- Joining sets one pointer forward. -/
theorem next_join (links : Links Node) (before : Node) (back : List Node) :
    (links.join before back).next = Function.update links.next before back.head? := by
  cases back <;> rfl

/-- Joining sets no pointer back but that of the first node behind. -/
theorem prev_join_of_ne (hnode : node ∉ back.head?) :
    (links.join before back).prev node = links.prev node := by
  cases back with
  | nil => rfl
  | cons after rest => exact Function.update_of_ne (fun heq => hnode (by simp [heq])) _ _

/-- A node between two parts of a list can be left out. -/
theorem Linked.join (h : links.Linked start (front ++ before :: node :: back))
    (hnodup : (front ++ before :: node :: back).Nodup) :
    (links.join before back).Linked start (front ++ before :: back) := by
  induction front generalizing start with
  | nil =>
      obtain ⟨hprev, -, -, -, hback⟩ := h
      obtain ⟨hbefore, hnodup⟩ := List.nodup_cons.mp hnodup
      have hbefore : before ∉ back := fun hmem => hbefore (List.mem_cons_of_mem _ hmem)
      refine ⟨?_, ?_, ?_⟩
      · rw [prev_join_of_ne fun hmem => hbefore (List.mem_of_mem_head? hmem)]
        exact hprev
      · rw [next_join, Function.update_self]
      · cases back with
        | nil => trivial
        | cons after rest =>
            obtain ⟨-, hafter, hrest⟩ := hback
            obtain ⟨hafter', -⟩ := List.nodup_cons.mp (List.nodup_cons.mp hnodup).2
            refine ⟨Function.update_self _ _ _, ?_, hrest.congr ?_ ?_⟩
            · rw [next_join, Function.update_of_ne fun heq => hbefore (by simp [heq])]
              exact hafter
            · intro other hother
              rw [next_join, Function.update_of_ne]
              exact fun heq => hbefore (heq ▸ List.mem_cons_of_mem _ hother)
            · intro other hother
              exact prev_join_of_ne fun heq => hafter' (Option.some.inj heq ▸ hother)
  | cons first rest ih =>
      obtain ⟨hprev, hnext, hrest⟩ := h
      obtain ⟨hfirst, hnodup⟩ := List.nodup_cons.mp hnodup
      refine ⟨?_, ?_, ih hrest hnodup⟩
      · rw [prev_join_of_ne fun hmem => hfirst ?_]
        · exact hprev
        · exact List.mem_append_right _ (List.mem_cons_of_mem _
            (List.mem_cons_of_mem _ (List.mem_of_mem_head? hmem)))
      · rw [next_join, Function.update_of_ne]
        · rw [hnext]
          cases rest <;> rfl
        · exact fun heq => hfirst (by simp [heq])

omit [DecidableEq Node] in
/-- A node of a list that has something before it. -/
theorem exists_before (first : Node) (h : node ∈ list) :
    ∃ front before back, first :: list = front ++ before :: node :: back := by
  obtain ⟨ahead, back, rfl⟩ := List.append_of_mem h
  have hahead : first :: ahead ≠ [] := List.cons_ne_nil first ahead
  refine ⟨(first :: ahead).dropLast, (first :: ahead).getLast hahead, back, ?_⟩
  have hsplit := List.dropLast_append_getLast hahead
  calc first :: (ahead ++ node :: back)
      = (first :: ahead) ++ node :: back := rfl
    _ = ((first :: ahead).dropLast ++ [(first :: ahead).getLast hahead]) ++ node :: back := by
        rw [hsplit]
    _ = _ := by rw [List.append_assoc]; rfl

/-- Taking a node out joins its neighbours. -/
theorem Linked.unlink_eq (h : links.Linked start (front ++ before :: node :: back)) :
    links.unlink node = some (links.join before back) := by
  obtain ⟨-, hprev, hnext⟩ := h.neighbours
  rw [Links.unlink, hprev, hnext]
  cases back <;> rfl

/-- Putting a node back undoes the join of its neighbours. -/
theorem Linked.relink_join (h : links.Linked start (front ++ before :: node :: back))
    (hnodup : (front ++ before :: node :: back).Nodup) :
    (links.join before back).relink node = some links ∧
      (links.join before back).next node = links.next node ∧
      (links.join before back).prev node = links.prev node := by
  have hnodup := (List.nodup_append.mp hnodup).2.1
  obtain ⟨hbefore, hnodup⟩ := List.nodup_cons.mp hnodup
  obtain ⟨hnode, -⟩ := List.nodup_cons.mp hnodup
  obtain ⟨hforward, hprev, hnext⟩ := h.neighbours
  have hprev' : (links.join before back).prev node = links.prev node :=
    prev_join_of_ne fun hmem => hnode (List.mem_of_mem_head? hmem)
  have hnext' : (links.join before back).next node = links.next node := by
    rw [next_join, Function.update_of_ne fun heq => hbefore (by simp [heq])]
  refine ⟨?_, hnext', hprev'⟩
  rw [Links.relink, hprev', hnext', hprev, hnext]
  have hrestore : Function.update links.next before (some node) = links.next := by
    rw [← hforward, Function.update_eq_self]
  cases back with
  | nil =>
      simp only [List.head?_nil, Option.map_some, Links.join, Links.setNext, Function.update_idem,
        hrestore]
  | cons after rest =>
      have hback : links.prev after = some node := by
        have hrest : links.Linked start ((front ++ [before]) ++ node :: after :: rest) := by
          simpa using h
        exact hrest.neighbours.2.1
      have hrestore' : Function.update links.prev after (some node) = links.prev := by
        rw [← hback, Function.update_eq_self]
      simp only [List.head?_cons, Option.map_some, Links.join, Links.setNext, Links.setPrev,
        Function.update_idem, hrestore, hrestore']

/-- A node of a list that has something before it can be taken out, and put back. -/
theorem Linked.unlink {first : Node} (h : links.Linked start (first :: list))
    (hnodup : (first :: list).Nodup) (hnode : node ∈ list) :
    ∃ less, links.unlink node = some less ∧ less.Linked start (first :: list.erase node) ∧
      less.relink node = some links ∧ less.next node = links.next node ∧
      less.prev node = links.prev node := by
  have hfirst : first ≠ node := fun heq => (List.nodup_cons.mp hnodup).1 (heq ▸ hnode)
  have herase : first :: list.erase node = (first :: list).erase node := by
    rw [List.erase_cons_tail (by simpa using hfirst)]
  obtain ⟨front, before, back, hsplit⟩ := exists_before first hnode
  rw [herase]
  rw [hsplit] at h hnodup ⊢
  refine ⟨_, h.unlink_eq, ?_, h.relink_join hnodup⟩
  have hplace : (front ++ before :: node :: back).erase node = front ++ before :: back := by
    have hahead : node ∉ front ++ [before] := by
      have hdisjoint := (List.nodup_append.mp
        (show ((front ++ [before]) ++ node :: back).Nodup by simpa using hnodup)).2.2
      exact fun hmem => hdisjoint node hmem node List.mem_cons_self rfl
    calc (front ++ before :: node :: back).erase node
        = ((front ++ [before]) ++ node :: back).erase node := by simp
      _ = (front ++ [before]) ++ back := by
          rw [List.erase_append_right _ hahead, List.erase_cons_head]
      _ = front ++ before :: back := by simp
  rw [hplace]
  exact h.join hnodup

end Links

end DistributedLabs
