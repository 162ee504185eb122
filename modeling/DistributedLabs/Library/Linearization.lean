import Mathlib.Data.List.Induction
import Mathlib.Data.List.Nodup
import Mathlib.Tactic.Common

/-!
# Linearizability by linearization points

A concurrent history is the list of the operations that were started, each with its call time and,
once it has returned, its return time and output. `IsLinearization` says that a list of entries
orders the operations as the sequential object could have performed them: it has every operation
that returned, may have operations that are still pending, and never places an operation before
one that returned before it was called.

The four rules `invoke`, `commit`, `retract` and `respond` follow a history as it grows. A proof of
linearizability chooses the step at which each operation is committed; `retract` takes back the
commit of an operation that changed nothing. `record` builds the history of a run from the
sequence of calls and returns that it shows.
-/

namespace DistributedLabs

/-- A sequential object: from a state, an input may give an output and a next state. -/
structure SequentialObject (State Input Output : Type) where
  init : State
  step : State → Input → Output → Option State

/-- An operation of a history. `ret` is the return time with the output, if it has returned. -/
structure OpRecord (Process Time Input Output : Type) where
  process : Process
  input : Input
  call : Time
  ret : Option (Time × Output)

/-- The place of an operation in a linearization: its index in the history, its input, and the
output that the sequential object gives. -/
structure Entry (Input Output : Type) where
  index : Nat
  input : Input
  output : Output

variable {Process Time State Input Output : Type} [LT Time]

/-- Perform the entries in order from a state. -/
def SequentialObject.replay (object : SequentialObject State Input Output) :
    State → List (Entry Input Output) → Option State
  | state, [] => some state
  | state, entry :: rest =>
      (object.step state entry.input entry.output).bind fun next => object.replay next rest

/-- Performing a concatenation is performing the first part and then the second. -/
theorem SequentialObject.replay_append (object : SequentialObject State Input Output)
    (state : State) (first second : List (Entry Input Output)) :
    object.replay state (first ++ second) =
      (object.replay state first).bind fun middle => object.replay middle second := by
  induction first generalizing state with
  | nil => rfl
  | cons entry rest ih =>
      simp only [List.cons_append, replay, Option.bind_assoc, ih]

/-- Operation `first` returned before operation `second` was called. -/
def Precedes (history : List (OpRecord Process Time Input Output)) (first second : Nat) : Prop :=
  ∃ earlier later time output, history[first]? = some earlier ∧ history[second]? = some later ∧
    earlier.ret = some (time, output) ∧ time < later.call

/-- The entries are a linearization of the history that leads the object to `final`. -/
structure IsLinearization (object : SequentialObject State Input Output)
    (history : List (OpRecord Process Time Input Output)) (order : List (Entry Input Output))
    (final : State) : Prop where
  /-- No operation has two places. -/
  distinct : (order.map Entry.index).Nodup
  /-- An entry has the input of its operation, and its output if it has returned. -/
  recorded : ∀ entry ∈ order, ∃ op, history[entry.index]? = some op ∧ op.input = entry.input ∧
    ∀ time output, op.ret = some (time, output) → output = entry.output
  /-- Every operation that returned has a place. -/
  complete : ∀ index op time output, history[index]? = some op → op.ret = some (time, output) →
    ⟨index, op.input, output⟩ ∈ order
  /-- Operations that do not overlap keep their order. -/
  realTime : order.Pairwise fun first second => ¬ Precedes history second.index first.index
  /-- The object allows the entries in this order. -/
  legal : object.replay object.init order = some final

/-- The history has a linearization. -/
def Linearizable (object : SequentialObject State Input Output)
    (history : List (OpRecord Process Time Input Output)) : Prop :=
  ∃ order final, IsLinearization object history order final

namespace IsLinearization

variable {object : SequentialObject State Input Output} {state : State}
  {history : List (OpRecord Process Time Input Output)} {order : List (Entry Input Output)}

/-- The empty history is linearized by the empty list. -/
theorem empty : IsLinearization object ([] : List (OpRecord Process Time Input Output)) []
    object.init where
  distinct := List.nodup_nil
  recorded := by simp
  complete := by simp
  realTime := List.Pairwise.nil
  legal := rfl

/-- The operation of an entry is in the history. -/
theorem index_lt (h : IsLinearization object history order state) {entry : Entry Input Output}
    (hmem : entry ∈ order) : entry.index < history.length := by
  obtain ⟨op, hop, _⟩ := h.recorded entry hmem
  exact (List.getElem?_eq_some_iff.mp hop).1

/-- An operation has at most one entry. -/
theorem entry_unique (h : IsLinearization object history order state)
    {first second : Entry Input Output} (hfirst : first ∈ order) (hsecond : second ∈ order)
    (hindex : first.index = second.index) : first = second :=
  List.inj_on_of_nodup_map h.distinct hfirst hsecond hindex

/-- A new call stays out of the order. -/
theorem invoke (h : IsLinearization object history order state)
    {op : OpRecord Process Time Input Output} (hpending : op.ret = none) :
    IsLinearization object (history ++ [op]) order state where
  distinct := h.distinct
  recorded := by
    intro entry hmem
    rw [List.getElem?_append_left (h.index_lt hmem)]
    exact h.recorded entry hmem
  complete := by
    intro index returned time output hindex hret
    rcases Nat.lt_or_ge index history.length with hlt | hge
    · rw [List.getElem?_append_left hlt] at hindex
      exact h.complete index returned time output hindex hret
    · rw [List.getElem?_append_right hge, List.getElem?_singleton] at hindex
      split at hindex
      · cases hindex
        rw [hpending] at hret
        cases hret
      · cases hindex
  realTime := by
    refine List.Pairwise.imp_of_mem ?_ h.realTime
    rintro first second hfirst hsecond hnot ⟨earlier, later, time, output, hearlier, hlater, hret⟩
    rw [List.getElem?_append_left (h.index_lt hsecond)] at hearlier
    rw [List.getElem?_append_left (h.index_lt hfirst)] at hlater
    exact hnot ⟨earlier, later, time, output, hearlier, hlater, hret⟩
  legal := h.legal

/-- A pending operation that has no place yet takes effect: it is placed at the end. -/
theorem commit (h : IsLinearization object history order state) {index : Nat}
    {op : OpRecord Process Time Input Output} {output : Output} {next : State}
    (hop : history[index]? = some op) (hpending : op.ret = none)
    (hnew : ∀ entry ∈ order, entry.index ≠ index)
    (hstep : object.step state op.input output = some next) :
    IsLinearization object history (order ++ [⟨index, op.input, output⟩]) next where
  distinct := by
    rw [List.map_append, List.map_singleton, ← List.concat_eq_append]
    refine h.distinct.concat fun hmem => ?_
    obtain ⟨entry, hentry, hindex⟩ := List.mem_map.mp hmem
    exact hnew entry hentry hindex
  recorded := by
    intro entry hmem
    rcases List.mem_append.mp hmem with hold | hlast
    · exact h.recorded entry hold
    · obtain rfl := List.mem_singleton.mp hlast
      refine ⟨op, hop, rfl, ?_⟩
      intro time output hret
      rw [hpending] at hret
      cases hret
  complete := fun index op time output hindex hret =>
    List.mem_append_left _ (h.complete index op time output hindex hret)
  realTime := by
    refine List.pairwise_append.mpr ⟨h.realTime, List.pairwise_singleton _ _, ?_⟩
    rintro first _ last hlast ⟨earlier, later, time, output, hearlier, _, hret, _⟩
    -- the operation placed last has not returned, so it precedes nothing
    obtain rfl := List.mem_singleton.mp hlast
    rw [hop] at hearlier
    cases hearlier
    rw [hpending] at hret
    cases hret
  legal := by
    rw [object.replay_append, h.legal]
    simp [SequentialObject.replay, hstep]

omit [LT Time] in
/-- Taking back an entry leaves the other entries of a list of distinct operations. -/
theorem filter_index_ne {first second : List (Entry Input Output)} {entry : Entry Input Output}
    (hdistinct : ((first ++ entry :: second).map Entry.index).Nodup) :
    ((first ++ entry :: second).filter fun other => other.index ≠ entry.index) =
      first ++ second := by
  rw [List.map_append, List.map_cons, List.nodup_append] at hdistinct
  obtain ⟨-, hsecond, hdisjoint⟩ := hdistinct
  rw [List.filter_append, List.filter_cons_of_neg (by simp)]
  congr 1
  · refine List.filter_eq_self.mpr fun other hother => ?_
    simpa using hdisjoint other.index (List.mem_map_of_mem hother) entry.index List.mem_cons_self
  · refine List.filter_eq_self.mpr fun other hother => ?_
    have hne : other.index ≠ entry.index := by
      intro heq
      have hmap := List.mem_map_of_mem (f := Entry.index) hother
      rw [heq] at hmap
      exact (List.nodup_cons.mp hsecond).1 hmap
    simpa using hne

/-- The place of a pending operation that changed nothing can be taken back. -/
theorem retract (h : IsLinearization object history order state) {index : Nat}
    {op : OpRecord Process Time Input Output} {output : Output}
    (hop : history[index]? = some op) (hpending : op.ret = none)
    (hmem : ⟨index, op.input, output⟩ ∈ order)
    (hread : ∀ before after, object.step before op.input output = some after → after = before) :
    IsLinearization object history (order.filter fun entry => entry.index ≠ index) state := by
  obtain ⟨first, second, rfl⟩ := List.append_of_mem hmem
  have hrest : ((first ++ ⟨index, op.input, output⟩ :: second).filter
      fun entry => entry.index ≠ index) = first ++ second :=
    filter_index_ne h.distinct
  have hsub : (first ++ second).Sublist (first ++ ⟨index, op.input, output⟩ :: second) :=
    (List.sublist_cons_self _ _).append_left first
  rw [hrest]
  exact {
    distinct := h.distinct.sublist (hsub.map _)
    recorded := fun entry hentry => h.recorded entry (hsub.subset hentry)
    complete := by
      intro other returned time result hother hret
      rw [← hrest]
      refine List.mem_filter.mpr ⟨h.complete other returned time result hother hret, ?_⟩
      have hne : other ≠ index := by
        rintro rfl
        rw [hop] at hother
        cases hother
        rw [hpending] at hret
        cases hret
      simpa using hne
    realTime := h.realTime.sublist hsub
    legal := by
      have hlegal := h.legal
      rw [object.replay_append] at hlegal ⊢
      obtain ⟨middle, hmiddle, hlast⟩ := Option.bind_eq_some_iff.mp hlegal
      obtain ⟨after, hafter, hfinal⟩ := Option.bind_eq_some_iff.mp hlast
      obtain rfl := hread middle after hafter
      rw [hmiddle]
      exact hfinal }

/-- An operation returns the output of its entry, at a time before which no operation of the
history is still to be called. -/
theorem respond (h : IsLinearization object history order state) {index : Nat}
    {op : OpRecord Process Time Input Output} {output : Output} {time : Time}
    (hop : history[index]? = some op) (hmem : ⟨index, op.input, output⟩ ∈ order)
    (hlatest : ∀ other ∈ history, ¬ time < other.call) :
    IsLinearization object (history.set index { op with ret := some (time, output) }) order
      state := by
  have hlt : index < history.length := (List.getElem?_eq_some_iff.mp hop).1
  have hlookup : ∀ other, (history.set index { op with ret := some (time, output) })[other]? =
      if index = other then some { op with ret := some (time, output) } else history[other]? := by
    intro other
    rw [List.getElem?_set]
    by_cases heq : index = other
    · subst heq
      rw [if_pos rfl, if_pos hlt, if_pos rfl]
    · rw [if_neg heq, if_neg heq]
  exact {
    distinct := h.distinct
    recorded := by
      intro entry hentry
      rw [hlookup]
      split
      · rename_i heq
        obtain rfl := h.entry_unique hmem hentry heq
        refine ⟨_, rfl, rfl, ?_⟩
        intro time' output' hret
        cases hret
        rfl
      · exact h.recorded entry hentry
    complete := by
      intro other returned time' output' hother hret
      rw [hlookup] at hother
      split at hother
      · rename_i heq
        subst heq
        cases hother
        cases hret
        exact hmem
      · exact h.complete other returned time' output' hother hret
    realTime := by
      refine h.realTime.imp ?_
      rintro first second hnot ⟨earlier, later, time', output', hearlier, hlater, hret, hbefore⟩
      -- the call times are those of the old history
      obtain ⟨called, hcalled, hcall⟩ : ∃ called, history[first.index]? = some called ∧
          called.call = later.call := by
        rw [hlookup] at hlater
        split at hlater
        · rename_i heq
          cases hlater
          exact ⟨op, heq ▸ hop, rfl⟩
        · exact ⟨later, hlater, rfl⟩
      rw [hlookup] at hearlier
      split at hearlier
      · cases hearlier
        cases hret
        rw [← hcall] at hbefore
        exact hlatest called (List.mem_of_getElem? hcalled) hbefore
      · rw [← hcall] at hbefore
        exact hnot ⟨earlier, called, time', output', hearlier, hcalled, hret, hbefore⟩
    legal := h.legal }

end IsLinearization

/-! ## The history of a sequence of calls and returns -/

/-- A call or a return, as a process sees it. -/
inductive Event (Process Input Output : Type) where
  | invoke (process : Process) (input : Input)
  | respond (process : Process) (output : Output)
  deriving DecidableEq

section Recording

variable [DecidableEq Process]

/-- Extend a history by an event at a time. A return completes the pending operation of its
process. -/
def recordStep (history : List (OpRecord Process Time Input Output)) (time : Time) :
    Event Process Input Output → List (OpRecord Process Time Input Output)
  | .invoke process input => history ++ [⟨process, input, time, none⟩]
  | .respond process output =>
      history.map fun op =>
        if op.process = process ∧ op.ret.isNone then { op with ret := some (time, output) } else op

/-- The history of a sequence of events; the time of an event is its position. -/
def record (events : List (Event Process Input Output)) :
    List (OpRecord Process Nat Input Output) :=
  events.zipIdx.foldl (fun history event => recordStep history event.2 event.1) []

/-- One more event extends the history, at a time after all earlier events. -/
theorem record_concat (events : List (Event Process Input Output))
    (event : Event Process Input Output) :
    record (events ++ [event]) = recordStep (record events) events.length event := by
  simp [record, List.zipIdx_append]

/-- Every call of a history was made before the next event. -/
theorem call_lt_length {events : List (Event Process Input Output)}
    {op : OpRecord Process Nat Input Output} (h : op ∈ record events) :
    op.call < events.length := by
  induction events using List.reverseRecOn generalizing op with
  | nil => cases h
  | append_singleton events event ih =>
      rw [record_concat] at h
      rw [List.length_append, List.length_singleton]
      cases event with
      | invoke process input =>
          rcases List.mem_append.mp h with hold | hnew
          · have := ih hold
            omega
          · obtain rfl := List.mem_singleton.mp hnew
            exact Nat.lt_succ_self _
      | respond process output =>
          obtain ⟨old, hold, rfl⟩ := List.mem_map.mp h
          have := ih hold
          split
          · exact Nat.lt_succ_of_lt this
          · exact Nat.lt_succ_of_lt this

omit [LT Time] in
/-- When a process has one pending operation, a return completes exactly that operation. -/
theorem record_step_respond {history : List (OpRecord Process Time Input Output)} {index : Nat}
    {op : OpRecord Process Time Input Output} {process : Process} (time : Time) (output : Output)
    (hop : history[index]? = some op) (hprocess : op.process = process) (hpending : op.ret = none)
    (honly : ∀ other pending, history[other]? = some pending → pending.process = process →
      pending.ret = none → other = index) :
    recordStep history time (.respond process output) =
      history.set index { op with ret := some (time, output) } := by
  refine List.ext_getElem? fun other => ?_
  rw [recordStep, List.getElem?_map, List.getElem?_set]
  by_cases heq : index = other
  · subst heq
    have hlt : index < history.length := (List.getElem?_eq_some_iff.mp hop).1
    rw [hop, Option.map_some, if_pos ⟨hprocess, by rw [hpending]; rfl⟩, if_pos rfl, if_pos hlt]
  · rw [if_neg heq]
    cases hother : history[other]? with
    | none => rfl
    | some pending =>
        rw [Option.map_some, if_neg]
        rintro ⟨hsame, hnone⟩
        exact heq (honly other pending hother hsame (Option.isNone_iff_eq_none.mp hnone)).symm

end Recording

end DistributedLabs
