import DistributedLabs.Kvsrv.Linearizable
import DistributedLabs.Porcupine.Operations

/-!
# The histories of the tests

The clients of `kvsrv/test_test.go` call their clerks through `Get`, `Put` and `Append`, which read
the clock before and after the operation and put a `porcupine.Operation` into the shared `OpLog`.
At the end `GenericTest` checks the log with `CheckOperationsVerbose`. The model lets the clients,
the network and the clock interleave in any way: the clock may move between any two steps, and an
operation may be logged long after its end.

`Kept` ties the log to the history of the clerks. Every event of that history is stamped with the
clock, the stamps only grow, and a logged operation covers the call that it stands for. An operation
whose measured end is before the measured start of another has therefore returned before the other
was called, and `IsLinearization.orderable_outside` carries the linearization over to the log.
-/

namespace DistributedLabs.Kvsrv

/-- The input that is logged for an operation. -/
def Command.kvInput : Command → Models.KvInput
  | .get key => { op := 0, key := key, value := [] }
  | .put key value => { op := 1, key := key, value := value }
  | .append key value => { op := 3, key := key, value := value }

/-- The output that is logged for an operation; that of `Put` is empty. -/
def kvOutput (output : Option GoString) : Models.KvOutput :=
  { value := output.getD [] }

/-- Where a client stands: outside of the functions that log, before the call of its clerk, in the
call, behind it, or about to log. -/
inductive ClientPc where
  | outside
  | started (command : Command) (start : Int)
  | inside (command : Command) (start : Int)
  | returned (command : Command) (start : Int) (output : Option GoString)
  | ended (op : Models.Operation)

/-- The clerks with their clients, the clock and the log. -/
structure Test (C : Type) where
  system : System C
  clients : C → ClientPc
  clock : Int
  log : List Models.Operation

/-- The steps of a test: time passes, a client reads the clock before its call, a step of the clerks
and the server, a client reads the clock after its call, and a client appends to the log. -/
inductive TestAction (C : Type) where
  | tick (elapsed : Nat)
  | start (clerk : C) (command : Command)
  | run (action : Action C)
  | stop (clerk : C)
  | append (clerk : C)

section Steps

variable {C : Type} [DecidableEq C]

/-- Move one client. -/
def Test.setClient (test : Test C) (clerk : C) (pc : ClientPc) : Test C :=
  { test with clients := Function.update test.clients clerk pc }

/-- The moved client is where it was moved to. -/
@[simp] theorem Test.set_client_self (test : Test C) (clerk : C) (pc : ClientPc) :
    (test.setClient clerk pc).clients clerk = pc :=
  Function.update_self _ _ _

/-- The other clients do not move. -/
theorem Test.set_client_of_ne (test : Test C) {clerk other : C} (pc : ClientPc)
    (hne : other ≠ clerk) : (test.setClient clerk pc).clients other = test.clients other :=
  Function.update_of_ne hne _ _

/-- A client calls its clerk with the command for which it has read the clock, and gets the output
from its clerk. -/
def follow (test : Test C) : List (Event C Command (Option GoString)) → Option (Test C)
  | [] => some test
  | .invoke clerk command :: rest =>
      match test.clients clerk with
      | .started requested start =>
          if requested = command then follow (test.setClient clerk (.inside command start)) rest
          else none
      | _ => none
  | .respond clerk output :: rest =>
      match test.clients clerk with
      | .inside command start =>
          follow (test.setClient clerk (.returned command start output)) rest
      | _ => none

/-- One step of a test. `cli` is the number under which a client logs. -/
def testStep (cli : C → Int) (test : Test C) : TestAction C → Option (Test C)
  | .tick elapsed => some { test with clock := test.clock + elapsed }
  | .start clerk command =>
      match test.clients clerk with
      | .outside => some (test.setClient clerk (.started command test.clock))
      | _ => none
  | .run action =>
      (step test.system action).bind fun system =>
        follow { test with system := system } (clientEvents test.system action)
  | .stop clerk =>
      match test.clients clerk with
      | .returned command start output =>
          some (test.setClient clerk
            (.ended ⟨cli clerk, command.kvInput, start, kvOutput output, test.clock⟩))
      | _ => none
  | .append clerk =>
      match test.clients clerk with
      | .ended op => some ({ test with log := test.log ++ [op] }.setClient clerk .outside)
      | _ => none

/-- The tests of a server. -/
def tests (cli : C → Int) : Machine (Test C) (TestAction C) where
  init := { system := (clerks C).init, clients := fun _ => .outside, clock := 0, log := [] }
  step := testStep cli

end Steps

/-- The steps of the clerks and the server in a test. -/
def systemActions {C : Type} (actions : List (TestAction C)) : List (Action C) :=
  actions.filterMap fun action =>
    match action with
    | .run action => some action
    | _ => none

/-! ## Logged operations cover calls -/

/-- What the clerks do is what the model of the tests allows. -/
theorem whole_store_step {store next : GoString → GoString} {command : Command}
    {output : Option GoString} (h : storeObject.step store command output = some next) :
    Models.wholeStore.step store command.kvInput (kvOutput output) = some next := by
  cases command with
  | get key =>
      obtain ⟨houtput, hnext⟩ := Option.ite_none_right_eq_some.mp h
      cases hnext
      subst houtput
      simp [Models.wholeStore, SequentialObject.pointwise, Models.kvModel, Models.kvStep,
        Command.kvInput, kvOutput]
  | put key value =>
      obtain ⟨houtput, hnext⟩ := Option.ite_none_right_eq_some.mp h
      cases hnext
      simp [Models.wholeStore, SequentialObject.pointwise, Models.kvModel, Models.kvStep,
        Command.kvInput]
  | append key value =>
      obtain ⟨houtput, hnext⟩ := Option.ite_none_right_eq_some.mp h
      cases hnext
      subst houtput
      simp [Models.wholeStore, SequentialObject.pointwise, Models.kvModel, Models.kvStep,
        Command.kvInput, kvOutput]

section Covering

variable {C : Type} {history history' : List (OpRecord C Nat Command (Option GoString))}
  {stamps : List Int} {index : Nat} {op : Models.Operation}

/-- The operation stands for a call that has returned, and was measured around it. -/
def Covers (history : List (OpRecord C Nat Command (Option GoString))) (stamps : List Int)
    (index : Nat) (op : Models.Operation) : Prop :=
  ∃ call time output, history[index]? = some call ∧ call.ret = some (time, output) ∧
    op.input = call.input.kvInput ∧ op.output = kvOutput output ∧
    (∃ stamp ∈ stamps[call.call]?, op.call ≤ stamp) ∧ (∃ stamp ∈ stamps[time]?, stamp ≤ op.ret) ∧
    call.call ≤ time

/-- Calls that have returned stay as they are. -/
def Extends (history history' : List (OpRecord C Nat Command (Option GoString))) : Prop :=
  ∀ (index : Nat) call, history[index]? = some call → call.ret ≠ none →
    history'[index]? = some call

/-- Stamps are only added. -/
theorem stamp_append {time : Nat} {stamp : Int} (h : stamp ∈ stamps[time]?) (new : List Int) :
    stamp ∈ (stamps ++ new)[time]? := by
  rw [List.getElem?_append_left (List.getElem?_eq_some_iff.mp h).1]
  exact h

/-- Later events change nothing about calls that have returned. -/
theorem Covers.mono (h : Covers history stamps index op) (hhistory : Extends history history')
    (new : List Int) : Covers history' (stamps ++ new) index op := by
  obtain ⟨call, time, output, hcall, hret, hinput, houtput, ⟨start, hstart, hle⟩,
    ⟨stop, hstop, hle'⟩, horder⟩ := h
  exact ⟨call, time, output, hhistory index call hcall (by rw [hret]; simp), hret, hinput, houtput,
    ⟨start, stamp_append hstart new, hle⟩, ⟨stop, stamp_append hstop new, hle'⟩, horder⟩

/-- An operation may be measured later. -/
theorem Covers.later {ret : Int} (h : Covers history stamps index op) (hle : op.ret ≤ ret) :
    Covers history stamps index { op with ret := ret } := by
  obtain ⟨call, time, output, hcall, hret, hinput, houtput, hstart, ⟨stop, hstop, hle'⟩, horder⟩ :=
    h
  exact ⟨call, time, output, hcall, hret, hinput, houtput, hstart, ⟨stop, hstop, hle'.trans hle⟩,
    horder⟩

/-- The call is in the history. -/
theorem Covers.index_lt (h : Covers history stamps index op) : index < history.length := by
  obtain ⟨call, -, -, hcall, -⟩ := h
  exact (List.getElem?_eq_some_iff.mp hcall).1

/-- Stamps of later events are not earlier. -/
theorem stamp_le (hsorted : stamps.Pairwise (· ≤ ·)) {first second : Nat} {stamp stamp' : Int}
    (hfirst : stamps[first]? = some stamp) (hsecond : stamps[second]? = some stamp')
    (hle : first ≤ second) : stamp ≤ stamp' := by
  rcases hle.eq_or_lt with rfl | hlt
  · rw [hfirst] at hsecond
    exact (Option.some.inj hsecond).le
  · obtain ⟨hlength, rfl⟩ := List.getElem?_eq_some_iff.mp hfirst
    obtain ⟨hlength', rfl⟩ := List.getElem?_eq_some_iff.mp hsecond
    exact List.pairwise_iff_getElem.mp hsorted first second hlength hlength' hlt

/-- An operation is measured from its start on. -/
theorem Covers.call_le_ret (h : Covers history stamps index op)
    (hsorted : stamps.Pairwise (· ≤ ·)) : op.call ≤ op.ret := by
  obtain ⟨call, time, output, -, -, -, -, ⟨start, hstart, hle⟩, ⟨stop, hstop, hle'⟩, horder⟩ :=
    h
  exact hle.trans ((stamp_le hsorted hstart hstop horder).trans hle')

/-- When one operation ends before the start of another, its call returned before that of the
other. -/
theorem Covers.precedes {second : Nat} {later : Models.Operation}
    (h : Covers history stamps index op) (hlater : Covers history stamps second later)
    (hsorted : stamps.Pairwise (· ≤ ·)) (hlt : op.ret < later.call) :
    Precedes history index second := by
  obtain ⟨call, time, output, hcall, hret, -, -, -, ⟨stop, hstop, hle⟩, -⟩ := h
  obtain ⟨call', -, -, hcall', -, -, -, ⟨start, hstart, hle'⟩, -, -⟩ := hlater
  refine ⟨call, call', time, output, hcall, hcall', hret, ?_⟩
  by_contra hnot
  have hstamps := stamp_le hsorted hstart hstop (Nat.le_of_not_lt hnot)
  omega

/-- What the place of a client says about the history and the index of its call. -/
inductive ClientKept (history : List (OpRecord C Nat Command (Option GoString)))
    (stamps : List Int) (clock : Int) (clerk : C) : ClientPc → Option Nat → Prop where
  | outside (hquiet : Quiet history clerk) : ClientKept history stamps clock clerk .outside none
  | started {command : Command} {start : Int} (hquiet : Quiet history clerk)
      (hstart : start ≤ clock) :
      ClientKept history stamps clock clerk (.started command start) none
  | inside {command : Command} {start : Int} {index : Nat}
      {call : OpRecord C Nat Command (Option GoString)}
      (hpending : Pending history clerk index call)
      (hcommand : call.input = command) (hstart : ∃ stamp ∈ stamps[call.call]?, start ≤ stamp) :
      ClientKept history stamps clock clerk (.inside command start) (some index)
  | returned {command : Command} {start : Int} {output : Option GoString} {index : Nat}
      (hquiet : Quiet history clerk)
      (hcovers : ∀ cli, Covers history stamps index
        ⟨cli, command.kvInput, start, kvOutput output, clock⟩) :
      ClientKept history stamps clock clerk (.returned command start output) (some index)
  | ended {op : Models.Operation} {index : Nat} (hquiet : Quiet history clerk)
      (hcovers : Covers history stamps index op) :
      ClientKept history stamps clock clerk (.ended op) (some index)

variable {clock : Int} {clerk : C} {pc : ClientPc} {current : Option Nat}

/-- A client keeps its place while time passes. -/
theorem ClientKept.tick (h : ClientKept history stamps clock clerk pc current) {clock' : Int}
    (hle : clock ≤ clock') : ClientKept history stamps clock' clerk pc current := by
  cases h with
  | outside hquiet => exact .outside hquiet
  | started hquiet hstart => exact .started hquiet (hstart.trans hle)
  | inside hpending hcommand hstart => exact .inside hpending hcommand hstart
  | returned hquiet hcovers => exact .returned hquiet fun cli => (hcovers cli).later hle
  | ended hquiet hcovers => exact .ended hquiet hcovers

/-- A client keeps its place in a history that keeps its own calls. -/
theorem ClientKept.mono (h : ClientKept history stamps clock clerk pc current)
    (hhistory : Extends history history') (hquiet' : Quiet history clerk → Quiet history' clerk)
    (hpending' : ∀ index call, Pending history clerk index call →
      Pending history' clerk index call)
    (new : List Int) : ClientKept history' (stamps ++ new) clock clerk pc current := by
  cases h with
  | outside hquiet => exact .outside (hquiet' hquiet)
  | started hquiet hstart => exact .started (hquiet' hquiet) hstart
  | inside hpending hcommand hstart =>
      obtain ⟨stamp, hstamp, hle⟩ := hstart
      exact .inside (hpending' _ _ hpending) hcommand ⟨stamp, stamp_append hstamp new, hle⟩
  | returned hquiet hcovers =>
      exact .returned (hquiet' hquiet) fun cli => (hcovers cli).mono hhistory new
  | ended hquiet hcovers => exact .ended (hquiet' hquiet) (hcovers.mono hhistory new)

/-- The call of a client is in the history. -/
theorem ClientKept.index_lt (h : ClientKept history stamps clock clerk pc (some index)) :
    index < history.length := by
  cases h with
  | inside hpending => exact (List.getElem?_eq_some_iff.mp hpending.lookup).1
  | returned hquiet hcovers => exact (hcovers 0).index_lt
  | ended hquiet hcovers => exact hcovers.index_lt

/-- The call of a client that is about to log has returned. -/
theorem ClientKept.of_ended (h : ClientKept history stamps clock clerk (.ended op) current) :
    ∃ index, current = some index ∧ Quiet history clerk ∧ Covers history stamps index op := by
  cases h with
  | ended hquiet hcovers => exact ⟨_, rfl, hquiet, hcovers⟩

/-- A client that has read the clock has no call. -/
theorem ClientKept.of_started {command : Command} {start : Int}
    (h : ClientKept history stamps clock clerk (.started command start) current) :
    current = none ∧ Quiet history clerk ∧ start ≤ clock := by
  cases h with
  | started hquiet hstart => exact ⟨rfl, hquiet, hstart⟩

/-- A client outside has no call. -/
theorem ClientKept.of_outside (h : ClientKept history stamps clock clerk .outside current) :
    current = none ∧ Quiet history clerk := by
  cases h with
  | outside hquiet => exact ⟨rfl, hquiet⟩

/-- The call of a client that has its output has returned. -/
theorem ClientKept.of_returned {command : Command} {start : Int} {output : Option GoString}
    (h : ClientKept history stamps clock clerk (.returned command start output) current)
    (cli : Int) :
    ∃ index, current = some index ∧ Quiet history clerk ∧
      Covers history stamps index ⟨cli, command.kvInput, start, kvOutput output, clock⟩ := by
  cases h with
  | returned hquiet hcovers => exact ⟨_, rfl, hquiet, hcovers cli⟩

/-- A client in a call has a pending operation. -/
theorem ClientKept.of_inside {command : Command} {start : Int}
    (h : ClientKept history stamps clock clerk (.inside command start) current) :
    ∃ index call, current = some index ∧ Pending history clerk index call ∧
      call.input = command ∧ ∃ stamp ∈ stamps[call.call]?, start ≤ stamp := by
  cases h with
  | inside hpending hcommand hstart => exact ⟨_, _, rfl, hpending, hcommand, hstart⟩

/-- A new call keeps the calls that have returned. -/
theorem extends_invoke (new : OpRecord C Nat Command (Option GoString)) :
    Extends history (history ++ [new]) := by
  intro index call hcall _
  rw [List.getElem?_append_left (List.getElem?_eq_some_iff.mp hcall).1]
  exact hcall

/-- The return of a pending call keeps those that have returned. -/
theorem extends_respond {call new : OpRecord C Nat Command (Option GoString)}
    (hpending : Pending history clerk index call) : Extends history (history.set index new) := by
  intro other returned hreturned hret
  rw [List.getElem?_set_ne]
  · exact hreturned
  · rintro rfl
    obtain rfl := Option.some.inj (hpending.lookup.symm.trans hreturned)
    exact hret hpending.pending

/-- The call of another client leaves a quiet one quiet. -/
theorem Quiet.invoke_other {new : OpRecord C Nat Command (Option GoString)}
    (h : Quiet history clerk) (hne : new.process ≠ clerk) : Quiet (history ++ [new]) clerk := by
  intro op hmem hprocess
  rcases List.mem_append.mp hmem with hold | hnew
  · exact h op hold hprocess
  · obtain rfl := List.mem_singleton.mp hnew
    exact absurd hprocess hne

end Covering

/-! ## The log of a run -/

section Runs

variable {C : Type} {test : Test C}
  {history : List (OpRecord C Nat Command (Option GoString))} {stamps : List Int}
  {tagged : List (Nat × Models.Operation)} {current : C → Option Nat}

/-- The log has operations for the calls of the history, each tagged with the index of its call, and
the calls that are missing are those that the clients are still busy with. -/
structure Kept (history : List (OpRecord C Nat Command (Option GoString))) (stamps : List Int)
    (tagged : List (Nat × Models.Operation)) (current : C → Option Nat) (test : Test C) :
    Prop where
  sorted : stamps.Pairwise (· ≤ ·)
  past : ∀ stamp ∈ stamps, stamp ≤ test.clock
  log : tagged.map Prod.snd = test.log
  nodup : (tagged.map Prod.fst).Nodup
  covered : ∀ entry ∈ tagged, Covers history stamps entry.1 entry.2
  clients : ∀ clerk, ClientKept history stamps test.clock clerk (test.clients clerk) (current clerk)
  fresh : ∀ clerk index, current clerk = some index → index ∉ tagged.map Prod.fst
  distinct : ∀ first second index, current first = some index → current second = some index →
    first = second
  all : ∀ index < history.length, index ∈ tagged.map Prod.fst ∨ ∃ clerk, current clerk = some index

/-- Time passes. -/
theorem Kept.tick (h : Kept history stamps tagged current test) (elapsed : Nat) :
    Kept history stamps tagged current { test with clock := test.clock + elapsed } := by
  have hle : test.clock ≤ test.clock + elapsed := by omega
  exact { h with
    past := fun stamp hstamp => (h.past stamp hstamp).trans hle
    clients := fun clerk => (h.clients clerk).tick hle }

/-- The next event is stamped with the clock. -/
theorem Kept.stamp (h : Kept history stamps tagged current test) :
    (stamps ++ [test.clock]).Pairwise (· ≤ ·) ∧
      ∀ stamp ∈ stamps ++ [test.clock], stamp ≤ test.clock := by
  constructor
  · refine List.pairwise_append.mpr ⟨h.sorted, List.pairwise_singleton _ _, ?_⟩
    intro stamp hstamp new hnew
    obtain rfl := List.mem_singleton.mp hnew
    exact h.past stamp hstamp
  · intro stamp hstamp
    rcases List.mem_append.mp hstamp with hold | hnew
    · exact h.past stamp hold
    · exact (List.mem_singleton.mp hnew).le

variable [DecidableEq C] {clerk : C}

/-- A client may move to a place that says no more than the history holds. -/
theorem Kept.move (h : Kept history stamps tagged current test) {pc : ClientPc}
    (hpc : ClientKept history stamps test.clock clerk pc (current clerk)) :
    Kept history stamps tagged current (test.setClient clerk pc) :=
  { h with
    clients := by
      intro other
      by_cases heq : other = clerk
      · subst heq
        rw [Test.set_client_self]
        exact hpc
      · rw [Test.set_client_of_ne _ _ heq]
        exact h.clients other }

/-- A client logs its operation. -/
theorem Kept.append (h : Kept history stamps tagged current test) {op : Models.Operation}
    (hended : test.clients clerk = .ended op) :
    ∃ tagged' current', Kept history stamps tagged' current'
      ({ test with log := test.log ++ [op] }.setClient clerk .outside) := by
  obtain ⟨index, hindex, hquiet, hcovers⟩ := (hended ▸ h.clients clerk).of_ended
  refine ⟨tagged ++ [(index, op)], Function.update current clerk none, ?_⟩
  have hother : ∀ other position, Function.update current clerk none other = some position →
      other ≠ clerk ∧ current other = some position := by
    intro other position hposition
    by_cases heq : other = clerk
    · subst heq
      rw [Function.update_self] at hposition
      cases hposition
    · rw [Function.update_of_ne heq] at hposition
      exact ⟨heq, hposition⟩
  exact { h with
    log := by rw [List.map_append, h.log]; rfl
    nodup := by
      rw [List.map_append, List.map_singleton]
      refine List.nodup_append.mpr ⟨h.nodup, List.nodup_singleton _, ?_⟩
      rintro position hposition _ hnew rfl
      obtain rfl := List.mem_singleton.mp hnew
      exact h.fresh clerk _ hindex hposition
    covered := by
      intro entry hentry
      rcases List.mem_append.mp hentry with hold | hnew
      · exact h.covered entry hold
      · obtain rfl := List.mem_singleton.mp hnew
        exact hcovers
    clients := by
      intro other
      by_cases heq : other = clerk
      · subst heq
        rw [Test.set_client_self, Function.update_self]
        exact .outside hquiet
      · rw [Test.set_client_of_ne _ _ heq, Function.update_of_ne heq]
        exact h.clients other
    fresh := by
      intro other position hposition hmem
      obtain ⟨hne, hposition⟩ := hother other position hposition
      rw [List.map_append, List.map_singleton] at hmem
      rcases List.mem_append.mp hmem with hold | hnew
      · exact h.fresh other position hposition hold
      · obtain rfl := List.mem_singleton.mp hnew
        exact hne (h.distinct other clerk _ hposition hindex)
    distinct := fun first second position hfirst hsecond =>
      h.distinct first second position (hother _ _ hfirst).2 (hother _ _ hsecond).2
    all := by
      intro position hposition
      rw [List.map_append, List.map_singleton]
      rcases h.all position hposition with hold | ⟨other, hold⟩
      · exact Or.inl (List.mem_append_left _ hold)
      · by_cases heq : other = clerk
        · subst heq
          obtain rfl := Option.some.inj (hindex.symm.trans hold)
          exact Or.inl (List.mem_append_right _ List.mem_cons_self)
        · exact Or.inr ⟨other, by rw [Function.update_of_ne heq]; exact hold⟩ }

/-- A client calls its clerk. -/
theorem Kept.invoke (h : Kept history stamps tagged current test) {command : Command} {start : Int}
    (hstarted : test.clients clerk = .started command start) :
    ∃ current', Kept (history ++ [⟨clerk, command, stamps.length, none⟩]) (stamps ++ [test.clock])
      tagged current' (test.setClient clerk (.inside command start)) := by
  obtain ⟨hcurrent, hquiet, hstart⟩ := (hstarted ▸ h.clients clerk).of_started
  have hlt : ∀ other index, current other = some index → index < history.length := by
    intro other index hindex
    exact (hindex ▸ h.clients other).index_lt
  have hextends : Extends history (history ++ [⟨clerk, command, stamps.length, none⟩]) :=
    extends_invoke _
  have hfree : history.length ∉ tagged.map Prod.fst := by
    intro hmem
    obtain ⟨entry, hentry, hindex⟩ := List.mem_map.mp hmem
    exact (h.covered entry hentry).index_lt.ne hindex
  refine ⟨Function.update current clerk (some history.length), ?_⟩
  have hother : ∀ other position,
      Function.update current clerk (some history.length) other = some position →
        (other = clerk ∧ position = history.length) ∨ current other = some position := by
    intro other position hposition
    by_cases heq : other = clerk
    · subst heq
      rw [Function.update_self] at hposition
      exact Or.inl ⟨rfl, (Option.some.inj hposition).symm⟩
    · rw [Function.update_of_ne heq] at hposition
      exact Or.inr hposition
  exact {
    sorted := h.stamp.1
    past := h.stamp.2
    log := h.log
    nodup := h.nodup
    covered := fun entry hentry => (h.covered entry hentry).mono hextends _
    clients := by
      intro other
      by_cases heq : other = clerk
      · subst heq
        rw [Test.set_client_self, Function.update_self]
        exact .inside hquiet.invoke rfl ⟨_, List.getElem?_concat_length, hstart⟩
      · rw [Test.set_client_of_ne _ _ heq, Function.update_of_ne heq]
        exact (h.clients other).mono hextends (fun hquiet => hquiet.invoke_other (Ne.symm heq))
          (fun _ _ hpending => hpending.invoke (Ne.symm heq)) _
    fresh := by
      intro other position hposition
      rcases hother other position hposition with ⟨-, rfl⟩ | hold
      · exact hfree
      · exact h.fresh other position hold
    distinct := by
      intro first second position hfirst hsecond
      rcases hother first position hfirst with ⟨rfl, rfl⟩ | hold
      · rcases hother second _ hsecond with ⟨rfl, -⟩ | hold
        · rfl
        · exact absurd (hlt second _ hold) (Nat.lt_irrefl _)
      · rcases hother second position hsecond with ⟨-, rfl⟩ | hold'
        · exact absurd (hlt first _ hold) (Nat.lt_irrefl _)
        · exact h.distinct first second position hold hold'
    all := by
      intro position hposition
      rw [List.length_append, List.length_singleton] at hposition
      rcases Nat.lt_succ_iff_lt_or_eq.mp hposition with hlt | rfl
      · rcases h.all position hlt with hold | ⟨other, hold⟩
        · exact Or.inl hold
        · refine Or.inr ⟨other, ?_⟩
          rw [Function.update_of_ne]
          · exact hold
          · rintro rfl
            rw [hcurrent] at hold
            cases hold
      · exact Or.inr ⟨clerk, Function.update_self _ _ _⟩ }

/-- A client gets the output of its call. -/
theorem Kept.respond (h : Kept history stamps tagged current test) {command : Command}
    {start : Int} (output : Option GoString) (hinside : test.clients clerk = .inside command start)
    (hcalls : ∀ call ∈ history, call.call < stamps.length) :
    Kept (recordStep history stamps.length (.respond clerk output)) (stamps ++ [test.clock]) tagged
      current (test.setClient clerk (.returned command start output)) := by
  obtain ⟨index, call, hindex, hpending, hcommand, stamp, hstamp, hstart⟩ :=
    (hinside ▸ h.clients clerk).of_inside
  rw [record_step_respond stamps.length output hpending.lookup hpending.process hpending.pending
    hpending.only]
  have hextends : Extends history
      (history.set index { call with ret := some (stamps.length, output) }) :=
    extends_respond hpending
  have hlt := (List.getElem?_eq_some_iff.mp hpending.lookup).1
  exact {
    sorted := h.stamp.1
    past := h.stamp.2
    log := h.log
    nodup := h.nodup
    covered := fun entry hentry => (h.covered entry hentry).mono hextends _
    clients := by
      intro other
      by_cases heq : other = clerk
      · subst heq
        rw [Test.set_client_self, hindex]
        refine .returned hpending.respond_self fun cli => ⟨_, stamps.length, output,
          List.getElem?_set_self hlt, rfl, congrArg Command.kvInput hcommand.symm, rfl,
          ⟨stamp, stamp_append hstamp _, hstart⟩,
          ⟨test.clock, List.getElem?_concat_length, le_refl _⟩, ?_⟩
        exact (hcalls call (List.mem_of_getElem? hpending.lookup)).le
      · rw [Test.set_client_of_ne _ _ heq]
        refine (h.clients other).mono hextends Quiet.respond ?_ _
        exact fun position pending hother =>
          hother.respond (hpending.index_ne hother (Ne.symm heq))
    fresh := h.fresh
    distinct := h.distinct
    all := by
      rw [List.length_set]
      exact h.all }

/-- The clients follow the events of their clerks. -/
theorem Kept.follow {events new : List (Event C Command (Option GoString))} {next : Test C}
    (h : Kept (record events) stamps tagged current test) (hstamps : stamps.length = events.length)
    (hfollow : Kvsrv.follow test new = some next) :
    next.system = test.system ∧ ∃ stamps' current', stamps'.length = (events ++ new).length ∧
      Kept (record (events ++ new)) stamps' tagged current' next := by
  induction new generalizing events stamps current test with
  | nil =>
      obtain rfl := Option.some.inj hfollow
      rw [List.append_nil]
      exact ⟨rfl, stamps, current, hstamps, h⟩
  | cons event rest ih =>
      have hlength : (stamps ++ [test.clock]).length = (events ++ [event]).length := by
        rw [List.length_append, List.length_append, hstamps]
        rfl
      rw [List.append_cons]
      cases event with
      | invoke clerk command =>
          rw [Kvsrv.follow] at hfollow
          split at hfollow
          · rename_i requested start hstarted
            obtain ⟨rfl, hrest⟩ := Option.ite_none_right_eq_some.mp hfollow
            obtain ⟨current', hkept⟩ := h.invoke hstarted
            have hrecord : record (events ++ [.invoke clerk requested]) =
                record events ++ [⟨clerk, requested, stamps.length, none⟩] := by
              rw [record_concat, hstamps]
              rfl
            rw [← hrecord] at hkept
            have hlater := ih hkept hlength hrest
            exact hlater
          · cases hfollow
      | respond clerk output =>
          rw [Kvsrv.follow] at hfollow
          split at hfollow
          · rename_i command start hinside
            have hcalls : ∀ call ∈ record events, call.call < stamps.length := fun call hcall => by
              rw [hstamps]
              exact call_lt_length hcall
            have hkept := h.respond output hinside hcalls
            rw [hstamps, ← record_concat] at hkept
            have hlater := ih hkept hlength hfollow
            exact hlater
          · cases hfollow

/-- The history of the clerks is linearized as it grows. -/
theorem linearized_run {actions : List (Action C)} {system : System C}
    (hrun : (clerks C).run actions = some system) (hids : (drawnIds actions).Nodup) :
    ∃ order, Linearized system (clientHistory actions) order := by
  refine Machine.run_induction (motive := fun actions system => (drawnIds actions).Nodup →
    ∃ order, Linearized system (clientHistory actions) order) (fun _ => ⟨[], linearized_init⟩) ?_
    hrun hids
  intro actions system action next hrun ih hstep hnodup
  have hsplit : drawnIds (actions ++ [action]) = drawnIds actions ++ drawnIds [action] :=
    List.filterMap_append
  rw [hsplit] at hnodup
  have hbefore := (List.nodup_append.mp hnodup).1
  obtain ⟨order, hlinearized⟩ := ih hbefore
  rw [clientHistory, Machine.observe_concat hrun hstep]
  exact linearized_step hlinearized (ids_kept hrun hbefore) hnodup hstep

/-- The events of the clerks in a test. -/
def clerkEvents (actions : List (TestAction C)) : List (Event C Command (Option GoString)) :=
  (clerks C).observe clientEvents (systemActions actions)

/-- The clerks run as they do without the clients, and the log is kept. -/
def RunKept (actions : List (TestAction C)) (test : Test C) : Prop :=
  (clerks C).run (systemActions actions) = some test.system ∧
    ∃ stamps tagged current, stamps.length = (clerkEvents actions).length ∧
      Kept (record (clerkEvents actions)) stamps tagged current test

/-- Nothing has happened yet. -/
theorem run_kept_init (cli : C → Int) : RunKept [] (tests cli).init := by
  refine ⟨rfl, [], [], fun _ => none, rfl, ?_⟩
  exact {
    sorted := List.Pairwise.nil
    past := by simp
    log := rfl
    nodup := List.nodup_nil
    covered := by simp
    clients := fun clerk => .outside fun op hop => by cases hop
    fresh := fun clerk index hindex => by cases hindex
    distinct := fun first second index hindex => by cases hindex
    all := fun index hindex => by cases hindex }

/-- A step of a client alone keeps the log if it keeps it for the history so far. -/
theorem RunKept.client {actions : List (TestAction C)} {action : TestAction C} {next : Test C}
    (h : RunKept actions test) (hactions : systemActions [action] = [])
    (hsystem : next.system = test.system)
    (hkeeps : ∀ stamps tagged current,
      Kept (record (clerkEvents actions)) stamps tagged current test →
        ∃ tagged' current', Kept (record (clerkEvents actions)) stamps tagged' current' next) :
    RunKept (actions ++ [action]) next := by
  obtain ⟨hrun, stamps, tagged, current, hstamps, hkept⟩ := h
  have hsame : systemActions (actions ++ [action]) = systemActions actions := by
    have hsplit : systemActions (actions ++ [action]) =
        systemActions actions ++ systemActions [action] := List.filterMap_append
    rw [hsplit, hactions, List.append_nil]
  obtain ⟨tagged', current', hkept'⟩ := hkeeps stamps tagged current hkept
  rw [RunKept, clerkEvents, hsame, hsystem]
  exact ⟨hrun, stamps, tagged', current', hstamps, hkept'⟩

/-- A step of the clerks or the server keeps the log. -/
theorem RunKept.system {actions : List (TestAction C)} {action : Action C} {system : System C}
    {next : Test C} (h : RunKept actions test) (hstep : step test.system action = some system)
    (hfollow : Kvsrv.follow { test with system := system } (clientEvents test.system action) =
      some next) : RunKept (actions ++ [.run action]) next := by
  obtain ⟨hrun, stamps, tagged, current, hstamps, hkept⟩ := h
  have hactions : systemActions (actions ++ [.run action]) = systemActions actions ++ [action] :=
    List.filterMap_append
  have hsame : Kept (record (clerkEvents actions)) stamps tagged current
      { test with system := system } := { hkept with }
  obtain ⟨hsystem, stamps', current', hstamps', hkept'⟩ := hsame.follow hstamps hfollow
  rw [RunKept, clerkEvents, hactions, Machine.observe_concat hrun hstep, hsystem]
  exact ⟨Machine.run_concat_iff.mpr ⟨_, hrun, hstep⟩, stamps', tagged, current', hstamps', hkept'⟩

/-- Every step of a test keeps the log. -/
theorem RunKept.step {cli : C → Int} {actions : List (TestAction C)} {action : TestAction C}
    {next : Test C} (h : RunKept actions test) (hstep : testStep cli test action = some next) :
    RunKept (actions ++ [action]) next := by
  cases action with
  | tick elapsed =>
      obtain rfl := Option.some.inj hstep
      exact h.client rfl rfl fun _ tagged current hkept => ⟨tagged, current, hkept.tick elapsed⟩
  | start clerk command =>
      rw [testStep] at hstep
      split at hstep
      · rename_i houtside
        obtain rfl := Option.some.inj hstep
        refine h.client rfl rfl fun _ tagged current hkept => ⟨tagged, current, hkept.move ?_⟩
        obtain ⟨hcurrent, hquiet⟩ := (houtside ▸ hkept.clients clerk).of_outside
        rw [hcurrent]
        exact .started hquiet (le_refl _)
      · cases hstep
  | run action =>
      obtain ⟨system, hnext, hfollow⟩ := Option.bind_eq_some_iff.mp hstep
      exact h.system hnext hfollow
  | stop clerk =>
      rw [testStep] at hstep
      split at hstep
      · rename_i command start output hreturned
        obtain rfl := Option.some.inj hstep
        refine h.client rfl rfl fun _ tagged current hkept => ⟨tagged, current, hkept.move ?_⟩
        obtain ⟨index, hcurrent, hquiet, hcovers⟩ :=
          (hreturned ▸ hkept.clients clerk).of_returned (cli clerk)
        rw [hcurrent]
        exact .ended hquiet hcovers
      · cases hstep
  | append clerk =>
      rw [testStep] at hstep
      split at hstep
      · rename_i op hended
        obtain rfl := Option.some.inj hstep
        exact h.client rfl rfl fun _ _ _ hkept => hkept.append hended
      · cases hstep

/-- The log is kept in every run. -/
theorem run_kept {cli : C → Int} {actions : List (TestAction C)}
    (hrun : (tests cli).run actions = some test) : RunKept actions test :=
  Machine.run_induction (motive := RunKept) (run_kept_init cli)
    (fun _ _ _ _ _ ih hstep => ih.step hstep) hrun

/-- Once all clients are outside, the log is linearizable, and every operation in it was measured
from its start on. -/
theorem log_linearizable {cli : C → Int} {actions : List (TestAction C)}
    (hrun : (tests cli).run actions = some test) (hids : (drawnIds (systemActions actions)).Nodup)
    (houtside : ∀ clerk, test.clients clerk = .outside) :
    Linearizable Models.wholeStore (test.log.map Completed.record) ∧
      ∀ op ∈ test.log, op.call ≤ op.ret := by
  obtain ⟨hsystem, stamps, tagged, current, -, hkept⟩ := run_kept hrun
  obtain ⟨order, hlinearized⟩ := linearized_run hsystem hids
  have hdone : ∀ index < (record (clerkEvents actions)).length, index ∈ tagged.map Prod.fst := by
    intro index hindex
    rcases hkept.all index hindex with hlogged | ⟨clerk, hcurrent⟩
    · exact hlogged
    · have hnone := (houtside clerk ▸ hkept.clients clerk).of_outside.1
      rw [hcurrent] at hnone
      cases hnone
  rw [← hkept.log, linearizable_iff_orderable]
  constructor
  · refine hlinearized.linear.orderable_outside hkept.nodup hdone ?_ ?_ rfl
    · intro op hop
      obtain ⟨call, time, output, hcall, hret, hinput, houtput, -⟩ := hkept.covered op hop
      refine ⟨call, time, output, hcall, hret, fun store next hnext => ?_⟩
      rw [hinput, houtput]
      exact whole_store_step hnext
    · intro first hfirst second hsecond hlt
      exact (hkept.covered first hfirst).precedes (hkept.covered second hsecond) hkept.sorted hlt
  · intro op hop
    obtain ⟨entry, hentry, rfl⟩ := List.mem_map.mp hop
    exact (hkept.covered entry hentry).call_le_ret hkept.sorted

end Runs

section Checks

open Porcupine

variable {C : Type} [DecidableEq C]

/-- Whatever the interleaving of the clients, of the network and of the checker, a test that draws
no request identifier twice never finds its history not linearizable, and its check is undecided
only when the time was up. -/
theorem tests_never_illegal (cli : C → Int) (actions : List (TestAction C)) (test : Test C)
    (hrun : (tests cli).run actions = some test) (hids : (drawnIds (systemActions actions)).Nodup)
    (houtside : ∀ clerk, test.clients clerk = .outside)
    (sort : List (Porcupine.Entry Models.KvInput Models.KvOutput) →
      List (Porcupine.Entry Models.KvInput Models.KvOutput))
    (hsort : SortsByTime sort) (range : List GoString → List GoString)
    (hrange : ∀ keys, (range keys).Perm keys) (verbose timeout : Bool)
    (checks : List ParallelAction) (s : Parallel GoString)
    (hcheck : (checkOperations sort (kvPorcupine range) test.log verbose timeout).run checks =
      some s)
    (result : CheckResult) (hreturned : s.phase = .returned result) :
    result ≠ .illegal ∧ (result = .unknown → timeout = true ∧ .timeout ∈ checks) := by
  obtain ⟨hlog, htimes⟩ := log_linearizable hrun hids houtside
  obtain ⟨-, hillegal, hunknown⟩ := verdict_of_run hsort (equal_lawful_default _ rfl)
    (fun part hpart op hop => htimes op (mem_of_mem_partition hrange hpart hop)) hcheck hreturned
  exact ⟨fun hresult => hillegal hresult ((whole_store_iff hrange htimes).mp hlog), hunknown⟩

/-- A read overlaps an append whose first reply is lost, and is logged before it. -/
def overlappingRead : List (TestAction TwoClerks) :=
  [.start .first (.append (ascii ['k']) (ascii ['1'])),
    .run (.putAppend .first ⟨.append, ascii ['k'], ascii ['1'], 1⟩), .run (.call .first),
    .run (.handle .first), .run (.callFalse .first), .tick 1,
    .start .second (.get (ascii ['k'])), .run (.get .second (ascii ['k'])), .run (.call .second),
    .run (.handle .second), .run (.callTrue .second), .tick 1, .run (.finish .second),
    .stop .second, .append .second,
    .run (.call .first), .run (.handle .first), .run (.callTrue .first), .run (.call .first),
    .run (.handle .first), .run (.callTrue .first), .run (.finish .first), .tick 1, .stop .first,
    .append .first]

/-- Whether a client is outside. -/
def ClientPc.isOutside : ClientPc → Bool
  | .outside => true
  | _ => false

/-- The test of the overlapping read comes to its end with a check that returns. -/
theorem tests_never_illegal_overlapping :
    ∃ test s, (tests fun _ => 0).run overlappingRead = some test ∧
      (checkOperations insertByTime (kvPorcupine id) test.log true true).run
        (List.replicate 5 (.task 0) ++ [.receive, .drain]) = some s ∧
      s.phase ≠ .returned .illegal := by
  obtain ⟨test, hrun, houtside, hcheck⟩ := (tests fun _ => 0).exists_run_of_check overlappingRead
    (fun test => ((test.clients .first).isOutside ∧ (test.clients .second).isOutside) ∧
      ((checkOperations insertByTime (kvPorcupine id) test.log true true).run
        (List.replicate 5 (.task 0) ++ [.receive, .drain])).any
          (fun s => s.phase = .returned .ok)) (by decide +kernel)
  obtain ⟨s, hs, hphase⟩ := (Option.any_eq_true _ _).mp hcheck
  have hphase : s.phase = .returned .ok := of_decide_eq_true hphase
  have houtside : ∀ clerk, test.clients clerk = .outside := by
    have hclerk : ∀ pc : ClientPc, pc.isOutside = true → pc = .outside := by
      intro pc hpc
      cases pc with
      | outside => rfl
      | started | inside | returned | ended => cases hpc
    intro clerk
    cases clerk with
    | first => exact hclerk _ houtside.1
    | second => exact hclerk _ houtside.2
  have hok := (tests_never_illegal (fun _ => 0) overlappingRead test hrun (by decide) houtside
    insertByTime sorts_by_time_insert id (fun keys => List.Perm.refl keys) true true _ s hs .ok
    hphase).1
  refine ⟨test, s, hrun, hs, ?_⟩
  rw [hphase]
  exact fun heq => hok (Phase.returned.inj heq)

end Checks

end DistributedLabs.Kvsrv
