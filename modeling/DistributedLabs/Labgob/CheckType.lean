import DistributedLabs.Library.Search
import DistributedLabs.Library.Utf8
import Mathlib.Algebra.BigOperators.Group.Finset.Basic
import Mathlib.Algebra.GroupWithZero.Nat

/-!
# The capitalisation check of labgob

`checkType` of `labgob/labgob.go` warns about every field of a struct whose name does not start with
an upper-case letter, in a type and in the types of which it is made. A type is marked as checked
before the types in it are checked, which is what makes the check come to its end on recursive
types, and what keeps later calls from counting a field again.

The check visits types as a depth-first search does, `check_type_refines`, and counts the fields of
the types that are new; so after any calls it has counted the fields of the types that are reachable
from their arguments, each once, `capital_check_exact`.
-/

namespace DistributedLabs.Labgob

variable {T : Type}

/-- A field of a struct. -/
structure Field (T : Type) where
  name : GoString
  type : T

/-- The kind of a type, with the types of which it is made. -/
inductive Kind (T : Type) where
  | struct (fields : List (Field T))
  | slice (elem : T)
  | array (elem : T)
  | ptr (elem : T)
  | map (key elem : T)
  | other

/-- A type: its name and its kind. -/
structure GoType (T : Type) where
  name : GoString
  kind : Kind T

/-- A graph of types, and `unicode.IsUpper`. -/
structure TypeGraph (T : Type) where
  type : T → GoType T
  isUpper : Nat → Bool

/-- The types that were checked, the number of errors, and the lines that were printed. -/
structure Checker (T : Type) where
  checked : Finset T
  errorCount : Nat
  printed : List GoString

/-- The start of the program. -/
def Checker.empty : Checker T := ⟨∅, 0, []⟩

namespace TypeGraph

variable (graph : TypeGraph T)

/-- The field name starts with an upper-case letter. -/
def capital (field : Field T) : Bool :=
  graph.isUpper (Utf8.firstRune field.name)

/-- The line that is printed for a field. -/
def complaint (t : T) (field : Field T) : GoString :=
  ascii "labgob error: lower-case field ".toList ++ field.name ++ ascii " of ".toList ++
    (graph.type t).name ++ ascii " in RPC or persist/snapshot will break your Raft\n".toList

/-- Complain about a field that does not start with an upper-case letter. -/
def checkField (t : T) (field : Field T) (c : Checker T) : Checker T :=
  if graph.capital field then c
  else
    { c with errorCount := c.errorCount + 1, printed := c.printed ++ [graph.complaint t field] }

variable [DecidableEq T]

/-- `checkType`, with a bound on the depth of its recursion. -/
def checkType : Nat → T → Checker T → Option (Checker T)
  | 0, _, _ => none
  | fuel + 1, t, c =>
      if t ∈ c.checked then some c
      else
        let c := { c with checked := insert t c.checked }
        match (graph.type t).kind with
        | .struct fields =>
            fields.foldlM (fun c field => checkType fuel field.type (graph.checkField t field c)) c
        | .slice elem => checkType fuel elem c
        | .array elem => checkType fuel elem c
        | .ptr elem => checkType fuel elem c
        | .map key elem => (checkType fuel elem c).bind fun c => checkType fuel key c
        | .other => some c

/-- Calls of `checkType`, one after the other. -/
def checkTypes (fuel : Nat) (roots : List T) (c : Checker T) : Option (Checker T) :=
  roots.foldlM (fun c t => graph.checkType fuel t c) c

/-- The types that a check goes on to, in their order. -/
def parts (t : T) : List T :=
  match (graph.type t).kind with
  | .struct fields => fields.map Field.type
  | .slice elem => [elem]
  | .array elem => [elem]
  | .ptr elem => [elem]
  | .map key elem => [elem, key]
  | .other => []

/-- The number of fields of a type whose name does not start with an upper-case letter. -/
def lowerFields (t : T) : Nat :=
  match (graph.type t).kind with
  | .struct fields => fields.countP fun field => !graph.capital field
  | _ => 0

end TypeGraph

/-! ## The check is a search -/

/-- From one state of the checker to another, some errors and those of the newly checked types were
counted, with one line for each. -/
structure Counted (graph : TypeGraph T) (c : Checker T) (extra : Nat) (c' : Checker T) : Prop where
  errors : c'.errorCount + ∑ t ∈ c.checked, graph.lowerFields t =
    c.errorCount + extra + ∑ t ∈ c'.checked, graph.lowerFields t
  lines : c.printed.length + c'.errorCount = c'.printed.length + c.errorCount

section Refinement

variable {graph : TypeGraph T} {c c₁ c₂ : Checker T} {extra₁ extra₂ : Nat} {t : T}

/-- Nothing happens. -/
theorem Counted.refl (c : Checker T) : Counted graph c 0 c := ⟨rfl, rfl⟩

/-- The errors of two parts of a check add up. -/
theorem Counted.trans (hfirst : Counted graph c extra₁ c₁) (hsecond : Counted graph c₁ extra₂ c₂) :
    Counted graph c (extra₁ + extra₂) c₂ := by
  have herrors₁ := hfirst.errors
  have herrors₂ := hsecond.errors
  have hlines₁ := hfirst.lines
  have hlines₂ := hsecond.lines
  exact ⟨by omega, by omega⟩

/-- A field with a lower-case name is one error. -/
theorem counted_check_field (t : T) (field : Field T) (c : Checker T) :
    Counted graph c (if graph.capital field then 0 else 1) (graph.checkField t field c) := by
  unfold TypeGraph.checkField
  split
  · exact Counted.refl c
  · refine ⟨rfl, ?_⟩
    show c.printed.length + (c.errorCount + 1) =
      (c.printed ++ [graph.complaint t field]).length + c.errorCount
    rw [List.length_append, List.length_singleton]
    omega

/-- A field does not change what was checked. -/
theorem checked_check_field (t : T) (field : Field T) (c : Checker T) :
    (graph.checkField t field c).checked = c.checked := by
  unfold TypeGraph.checkField
  split <;> rfl

/-- The errors of the fields of a struct. -/
theorem sum_errors_eq (fields : List (Field T)) :
    (fields.map fun field => if graph.capital field then 0 else 1).sum =
      fields.countP fun field => !graph.capital field := by
  induction fields with
  | nil => rfl
  | cons field rest ih =>
      rw [List.map_cons, List.sum_cons, List.countP_cons, ih]
      cases graph.capital field <;> simp [Nat.add_comm]

variable [DecidableEq T]

/-- Marking a type and counting its fields is counting a newly checked type. -/
theorem Counted.of_marked (hnew : t ∉ c.checked)
    (h : Counted graph { c with checked := insert t c.checked } (graph.lowerFields t) c₁) :
    Counted graph c 0 c₁ := by
  have herrors : c₁.errorCount + ∑ x ∈ insert t c.checked, graph.lowerFields x =
      c.errorCount + graph.lowerFields t + ∑ x ∈ c₁.checked, graph.lowerFields x := h.errors
  rw [Finset.sum_insert hnew] at herrors
  exact ⟨by omega, h.lines⟩

/-- A check from `c` visits the types as the search does and counts the new ones. -/
def Refines (graph : TypeGraph T) (extra : Nat) (c : Checker T) (result : Option (Checker T))
    (after : Finset T) : Prop :=
  ∃ c', result = some c' ∧ c'.checked = after ∧ Counted graph c extra c'

/-- A loop of checks. Before each one some errors may be counted, but nothing is marked. -/
theorem loop_refines {fuel : Nat}
    (hcheck : ∀ t c after, visit graph.parts fuel t c.checked = some after →
      Refines graph 0 c (graph.checkType fuel t c) after)
    {Item : Type} (type : Item → T) (first : Item → Checker T → Checker T) (errors : Item → Nat)
    (hfirst : ∀ item c, (first item c).checked = c.checked ∧
      Counted graph c (errors item) (first item c))
    (items : List Item) {c : Checker T} {after : Finset T}
    (h : visitAll graph.parts fuel (items.map type) c.checked = some after) :
    Refines graph (items.map errors).sum c
      (items.foldlM (fun c item => graph.checkType fuel (type item) (first item c)) c) after := by
  induction items generalizing c with
  | nil =>
      obtain rfl := Option.some.inj h
      exact ⟨c, rfl, rfl, Counted.refl c⟩
  | cons item rest ih =>
      rw [List.map_cons, visitAll, List.foldlM_cons] at h
      obtain ⟨middle, hmiddle, hrest⟩ := Option.bind_eq_some_iff.mp h
      obtain ⟨hchecked, hcounted⟩ := hfirst item c
      rw [← hchecked] at hmiddle
      obtain ⟨c₁, hc₁, rfl, hcounted₁⟩ := hcheck _ _ _ hmiddle
      obtain ⟨c₂, hc₂, hafter, hcounted₂⟩ := ih hrest
      refine ⟨c₂, ?_, hafter, ?_⟩
      · rw [List.foldlM_cons, hc₁]
        exact hc₂
      · rw [List.map_cons, List.sum_cons]
        exact (hcounted.trans hcounted₁).trans hcounted₂

/-- The loop over the fields of a struct. -/
theorem fields_refine {fuel : Nat}
    (hcheck : ∀ t c after, visit graph.parts fuel t c.checked = some after →
      Refines graph 0 c (graph.checkType fuel t c) after)
    (t : T) (fields : List (Field T)) {c : Checker T} {after : Finset T}
    (h : visitAll graph.parts fuel (fields.map Field.type) c.checked = some after) :
    Refines graph (fields.countP fun field => !graph.capital field) c
      (fields.foldlM
        (fun c field => graph.checkType fuel field.type (graph.checkField t field c)) c) after := by
  have hloop := loop_refines hcheck Field.type (graph.checkField t)
    (fun field => if graph.capital field then 0 else 1)
    (fun field c => ⟨checked_check_field t field c, counted_check_field t field c⟩) fields h
  rwa [sum_errors_eq] at hloop

/-- A list of checks. -/
theorem check_types_refine {fuel : Nat}
    (hcheck : ∀ t c after, visit graph.parts fuel t c.checked = some after →
      Refines graph 0 c (graph.checkType fuel t c) after)
    (roots : List T) {c : Checker T} {after : Finset T}
    (h : visitAll graph.parts fuel roots c.checked = some after) :
    Refines graph 0 c (graph.checkTypes fuel roots c) after := by
  rw [← List.map_id roots] at h
  have hloop := loop_refines hcheck id (fun _ c => c) (fun _ => 0)
    (fun _ c => ⟨rfl, Counted.refl c⟩) roots h
  rwa [List.map_const', List.sum_replicate_nat, Nat.mul_zero] at hloop

/-- A new type that is not a struct is marked, and its parts are checked. -/
theorem check_type_of_not_struct (fuel : Nat) (hnew : t ∉ c.checked)
    (hkind : ∀ fields, (graph.type t).kind ≠ .struct fields) :
    graph.checkType (fuel + 1) t c =
        graph.checkTypes fuel (graph.parts t) { c with checked := insert t c.checked } ∧
      graph.lowerFields t = 0 := by
  rw [TypeGraph.checkType, if_neg hnew, TypeGraph.parts, TypeGraph.lowerFields]
  cases h : (graph.type t).kind with
  | struct fields => exact absurd h (hkind fields)
  | slice elem => simp [TypeGraph.checkTypes]
  | array elem => simp [TypeGraph.checkTypes]
  | ptr elem => simp [TypeGraph.checkTypes]
  | map key elem => simp [TypeGraph.checkTypes]
  | other => exact ⟨rfl, rfl⟩

/-- A check visits the types as the search does and counts the new ones. -/
theorem check_type_refines {fuel : Nat} (t : T) (c : Checker T) (after : Finset T)
    (h : visit graph.parts fuel t c.checked = some after) :
    Refines graph 0 c (graph.checkType fuel t c) after := by
  induction fuel generalizing t c after with
  | zero => cases h
  | succ fuel ih =>
      by_cases hmem : t ∈ c.checked
      · rw [visit, if_pos hmem] at h
        obtain rfl := Option.some.inj h
        exact ⟨c, if_pos hmem, rfl, Counted.refl c⟩
      · rw [visit, if_neg hmem] at h
        have hmarked : Refines graph (graph.lowerFields t)
            { c with checked := insert t c.checked } (graph.checkType (fuel + 1) t c) after := by
          by_cases hkind : ∃ fields, (graph.type t).kind = .struct fields
          · obtain ⟨fields, hfields⟩ := hkind
            have hcheck := fields_refine (c := { c with checked := insert t c.checked }) ih t fields
              (by rw [TypeGraph.parts, hfields] at h; exact h)
            rw [TypeGraph.checkType, if_neg hmem, TypeGraph.lowerFields, hfields]
            exact hcheck
          · obtain ⟨hcheck, hlower⟩ := check_type_of_not_struct fuel hmem
              fun fields hfields => hkind ⟨fields, hfields⟩
            rw [hcheck, hlower]
            exact check_types_refine ih (graph.parts t) h
        obtain ⟨c', hresult, hafter, hcounted⟩ := hmarked
        exact ⟨c', hresult, hafter, hcounted.of_marked hmem⟩

end Refinement

/-! ## What is counted -/

open Classical in
/-- The calls come to their end, whatever their order and however the types refer to each other.
Together they have checked the types that are reachable from their arguments, and have counted and
printed each of their fields whose name does not start with an upper-case letter once. -/
theorem capital_check_exact [DecidableEq T] [Fintype T] (graph : TypeGraph T) (roots : List T) :
    ∀ fuel, Fintype.card T < fuel →
      ∃ c, graph.checkTypes fuel roots Checker.empty = some c ∧
        (∀ t, t ∈ c.checked ↔ ∃ root ∈ roots, Reaches graph.parts root t) ∧
        c.errorCount =
          ∑ t ∈ Finset.univ.filter fun t => ∃ root ∈ roots, Reaches graph.parts root t,
            graph.lowerFields t ∧
        c.printed.length = c.errorCount := by
  intro fuel hfuel
  have hcard : (∅ : Finset T)ᶜ.card < fuel := by
    rw [Finset.compl_empty, Finset.card_univ]
    exact hfuel
  have hsearch : ∃ after, visitAll graph.parts fuel roots ∅ = some after ∧
      Explored graph.parts roots ∅ after := visit_all_total roots hcard
  obtain ⟨after, hvisit, hexplored⟩ := hsearch
  obtain ⟨c, hcheck, rfl, hcounted⟩ := check_types_refine check_type_refines roots
    (c := Checker.empty) hvisit
  have hreached : Finset.univ.filter (fun t => ∃ root ∈ roots, Reaches graph.parts root t) =
      c.checked := by
    ext t
    rw [Finset.mem_filter, hexplored.mem_iff]
    simp
  have herrors : c.errorCount + 0 = 0 + 0 + ∑ t ∈ c.checked, graph.lowerFields t :=
    hcounted.errors
  have hlines : 0 + c.errorCount = c.printed.length + 0 := hcounted.lines
  refine ⟨c, hcheck, fun t => hexplored.mem_iff, ?_, ?_⟩
  · rw [hreached]
    omega
  · omega

/-- A struct with a pointer `Next` and a pointer `prev` to itself: `true` is the struct and `false`
the type of the pointers. -/
def linkedNode : TypeGraph Bool where
  type
    | true => ⟨ascii ['N'], .struct [⟨ascii ['N', 'e', 'x', 't'], false⟩,
        ⟨ascii ['p', 'r', 'e', 'v'], false⟩]⟩
    | false => ⟨[], .ptr true⟩
  isUpper code := 65 ≤ code ∧ code ≤ 90

/-- The recursive struct is checked to the end, with one complaint. -/
theorem capital_check_exact_linked_node :
    Fintype.card Bool < 3 ∧
      ∃ c, linkedNode.checkTypes 3 [true] Checker.empty = some c ∧
        (∀ t, t ∈ c.checked ↔ ∃ root ∈ [true], Reaches linkedNode.parts root t) ∧
        c.printed.length = c.errorCount ∧ c.errorCount = 1 := by
  have hcard : Fintype.card Bool < 3 := by decide
  obtain ⟨c, hcheck, hchecked, -, hprinted⟩ := capital_check_exact linkedNode [true] 3 hcard
  have hone : (linkedNode.checkTypes 3 [true] Checker.empty).map Checker.errorCount = some 1 := by
    decide
  rw [hcheck] at hone
  exact ⟨hcard, c, hcheck, hchecked, hprinted, Option.some.inj hone⟩

end DistributedLabs.Labgob
