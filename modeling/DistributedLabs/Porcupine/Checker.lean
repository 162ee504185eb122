import DistributedLabs.Porcupine.Bitset
import DistributedLabs.Porcupine.Nodes

/-!
# The search for a linearization

`checkSingle` of `porcupine/checker.go` tries the calls that can come next, in the order of the
list, and keeps on a stack those that the model accepted. A bit set of the operations on the stack
together with the state of the model says where the search is; a pair that was met before is not
tried again.
At a return the search takes the last call from the stack and goes on with the call behind it.

A nil pointer or an index out of range is `none`, here and in what is called. The node before the
first entry has no entry, so that reading its value or id is `none` as well.
-/

namespace DistributedLabs.Porcupine

variable {State Input Output : Type}

/-! ## Models -/

/-- `Model` without the functions for the visualization; a function that is not given is `none`. -/
structure Model (State Input Output : Type) where
  partition : Option (List (Operation Input Output) → List (List (Operation Input Output)))
  partitionEvent : Option (List (Event Int Input Output) → List (List (Event Int Input Output)))
  init : State
  step : State → Input → Output → Bool × State
  equal : Option (State → State → Bool)

/-- A model that has all its functions. -/
structure FilledModel (State Input Output : Type) where
  partition : List (Operation Input Output) → List (List (Operation Input Output))
  partitionEvent : List (Event Int Input Output) → List (List (Event Int Input Output))
  init : State
  step : State → Input → Output → Bool × State
  equal : State → State → Bool

/-- `NoPartition` and `NoPartitionEvent`. -/
def noPartition {α : Type} (history : List α) : List (List α) := [history]

/-- `ShallowEqual`. -/
def shallowEqual [DecidableEq State] (state1 state2 : State) : Bool := state1 = state2

/-- Replace what is not given by the defaults. -/
def fillDefault [DecidableEq State] (model : Model State Input Output) :
    FilledModel State Input Output where
  partition := model.partition.getD noPartition
  partitionEvent := model.partitionEvent.getD noPartition
  init := model.init
  step := model.step
  equal := model.equal.getD shallowEqual

/-- The sequential object of a model. -/
def FilledModel.object (model : FilledModel State Input Output) :
    SequentialObject State Input Output where
  init := model.init
  step := fun state input output =>
    if (model.step state input output).1 then some (model.step state input output).2 else none

/-! ## The cache -/

/-- What the search met: the operations that were linearized, and the state after them. -/
structure CacheEntry (State : Type) where
  linearized : Bitset
  state : State

/-- Whether the pair was met before. The cache is a map from hashes. -/
def cacheContains (model : FilledModel State Input Output)
    (cache : BitVec 64 → List (CacheEntry State)) (entry : CacheEntry State) : Bool :=
  (cache entry.linearized.hash).any fun elem =>
    entry.linearized.equals elem.linearized && model.equal entry.state elem.state

/-! ## The search -/

/-- A call that was accepted, and the state before it. -/
structure CallsEntry (State : Type) where
  entry : Nat
  state : State

/-- The variables of `checkSingle`, with the pointers of the nodes. -/
structure CheckState (State : Type) where
  links : Links Nat
  entry : Option Nat
  state : State
  linearized : Bitset
  cache : BitVec 64 → List (CacheEntry State)
  calls : List (CallsEntry State)
  longest : List (Option (List Nat))

/-- What a round of the loop comes to. -/
inductive Round (State : Type) where
  | next (s : CheckState State)
  | done (ok : Bool) (longest : List (Option (List Nat)))

/-- The ids of the calls on the stack. -/
def callIds (entries : List (Entry Input Output)) (calls : List (CallsEntry State)) :
    Option (List Nat) :=
  calls.mapM fun v => entries[v.entry]?.map Entry.id

/-- Keep the sequence for an operation that has none or a shorter one. -/
def recordLongest (seq : List Nat) (longest : List (Option (List Nat))) (id : Nat) :
    Option (List (Option (List Nat))) :=
  longest[id]?.map fun old =>
    match old with
    | none => longest.set id (some seq)
    | some old => if seq.length > old.length then longest.set id (some seq) else longest

/-- The input of a call. -/
def EntryValue.input? : EntryValue Input Output → Option Input
  | .call input => some input
  | .ret _ => none

/-- The output of a return. -/
def EntryValue.output? : EntryValue Input Output → Option Output
  | .call _ => none
  | .ret output => some output

/-- The branch for a call, which has `matching` as its return. -/
def tryCall (model : FilledModel State Input Output) (entries : List (Entry Input Output))
    (matchOf : Nat → Option Nat) (entry matching : Nat) (s : CheckState State) :
    Option (CheckState State) := do
  let call ← entries[entry]?
  let ret ← entries[matching]?
  let (ok, newState) := model.step s.state (← call.value.input?) (← ret.value.output?)
  if ok then
    let newLinearized ← s.linearized.set call.id
    let newCacheEntry : CacheEntry State := ⟨newLinearized, newState⟩
    if !cacheContains model s.cache newCacheEntry then
      let hash := newLinearized.hash
      let linearized ← s.linearized.set call.id
      let links ← lift s.links matchOf entry
      return { s with
        cache := Function.update s.cache hash (s.cache hash ++ [newCacheEntry])
        calls := s.calls ++ [⟨entry, s.state⟩]
        state := newState
        linearized := linearized
        links := links
        entry := links.next entries.length }
    else
      return { s with entry := s.links.next entry }
  else
    return { s with entry := s.links.next entry }

/-- Keep the calls on the stack as a sequence, for the operations that have no longer one. -/
def updateLongest (entries : List (Entry Input Output)) (computePartial : Bool)
    (s : CheckState State) : Option (List (Option (List Nat))) :=
  if computePartial then
    (callIds entries s.calls).bind fun seq => seq.foldlM (recordLongest seq) s.longest
  else some s.longest

/-- The branch for a return, with `callsTop` on top of the stack. -/
def takeBack (entries : List (Entry Input Output)) (matchOf : Nat → Option Nat)
    (computePartial : Bool) (callsTop : CallsEntry State) (s : CheckState State) :
    Option (CheckState State) := do
  let longest ← updateLongest entries computePartial s
  let call ← entries[callsTop.entry]?
  let linearized ← s.linearized.clear call.id
  let links ← unlift s.links matchOf callsTop.entry
  return { s with
    longest := longest
    state := callsTop.state
    linearized := linearized
    calls := s.calls.dropLast
    links := links
    entry := links.next callsTop.entry }

/-- One round of the loop; `kill` is what it loads. -/
def checkRound (model : FilledModel State Input Output) (entries : List (Entry Input Output))
    (matchOf : Nat → Option Nat) (computePartial kill : Bool) (s : CheckState State) :
    Option (Round State) :=
  match s.links.next entries.length with
  | none =>
      -- the longest linearization is the complete one
      (callIds entries s.calls).map fun seq =>
        .done true (List.replicate s.longest.length (some seq))
  | some _ =>
      if kill then some (.done false s.longest)
      else
        s.entry.bind fun entry =>
          match matchOf entry with
          | some matching => (tryCall model entries matchOf entry matching s).map .next
          | none =>
              match s.calls.getLast? with
              | none => some (.done false s.longest)
              | some callsTop =>
                  (takeBack entries matchOf computePartial callsTop s).map .next

/-- The variables before the loop. -/
def checkStart (model : FilledModel State Input Output) (entries : List (Entry Input Output)) :
    Option (CheckState State) :=
  let nodes := makeLinkedEntries entries
  (length nodes.links entries.length nodes.root).map fun count =>
    let n := count / 2
    { links := insertBefore nodes.links entries.length nodes.root
      entry := nodes.root
      state := model.init
      linearized := newBitset n
      cache := fun _ => []
      calls := []
      longest := List.replicate n none }

/-- The rounds of the loop, one for each load of `kill`. -/
def checkRounds (model : FilledModel State Input Output) (entries : List (Entry Input Output))
    (matchOf : Nat → Option Nat) (computePartial : Bool) :
    List Bool → CheckState State → Option (Round State)
  | [], s => some (.next s)
  | kill :: kills, s =>
      (checkRound model entries matchOf computePartial kill s).bind fun
        | .next s => checkRounds model entries matchOf computePartial kills s
        | .done ok longest => some (.done ok longest)

/-- `checkSingle`, for as many rounds as there are loads of `kill`. -/
def checkSingle (model : FilledModel State Input Output) (entries : List (Entry Input Output))
    (computePartial : Bool) (kills : List Bool) : Option (Round State) :=
  (checkStart model entries).bind
    (checkRounds model entries (makeLinkedEntries entries).matchOf computePartial kills)

end DistributedLabs.Porcupine
