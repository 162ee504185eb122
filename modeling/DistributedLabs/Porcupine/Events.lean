import DistributedLabs.Porcupine.Operations

/-!
# Checks of lists of events

`CheckEvents` and its variants take a history as the list of its calls and returns, which the user
has numbered in any way. `renumber` counts the numbers from zero in the order in which they appear,
and `convertEntries` uses the places of the events as their times. When every event has its
counterpart, the result is what `makeEntries` gives for the operations of the events, with their
calls and returns at these times (`convert_entries_eq`), so the two ways into the checker agree.
-/

namespace DistributedLabs.Porcupine

variable {State Input Output : Type}

/-! ## The conversion -/

/-- The loop of `renumber`, with the numbers that were given so far and the next one. -/
def renumberFrom (m : Int → Option Nat) (id : Nat) :
    List (Event Int Input Output) → List (Event Nat Input Output)
  | [] => []
  | v :: rest =>
      match m v.id with
      | some r => ⟨v.clientId, v.value, r⟩ :: renumberFrom m id rest
      | none => ⟨v.clientId, v.value, id⟩ ::
          renumberFrom (Function.update m v.id (some id)) (id + 1) rest

/-- `renumber`. -/
def renumber (events : List (Event Int Input Output)) : List (Event Nat Input Output) :=
  renumberFrom (fun _ => none) 0 events

/-- `convertEntries`: the place of an event is its time. -/
def convertEntries (events : List (Event Nat Input Output)) : List (Entry Input Output) :=
  events.zipIdx.map fun elem => ⟨elem.1.value, elem.1.id, elem.2, elem.1.clientId⟩

/-- `checkEvents`. -/
def checkEvents [DecidableEq State] (model : Model State Input Output)
    (history : List (Event Int Input Output)) (verbose timeout : Bool) :
    Machine (Parallel State) ParallelAction :=
  checkParallel (fillDefault model)
    (((fillDefault model).partitionEvent history).map fun subhistory =>
      convertEntries (renumber subhistory)) verbose timeout

/-! ## The operations of a list of events -/

/-- What tells the events of a history apart. -/
def Event.key (event : Event Int Input Output) : Bool × Int := (event.value.isCall, event.id)

/-- Every operation has one call and, later, one return of the same client. -/
structure WellFormed (events : List (Event Int Input Output)) : Prop where
  distinct : (events.map Event.key).Nodup
  called : ∀ (place : Nat) (ret : Event Int Input Output), events[place]? = some ret →
    ret.value.isCall = false → ∃ (earlier : Nat) (call : Event Int Input Output),
      events[earlier]? = some call ∧ call.value.isCall = true ∧ call.id = ret.id ∧
        call.clientId = ret.clientId ∧ earlier < place
  returned : ∀ (place : Nat) (call : Event Int Input Output), events[place]? = some call →
    call.value.isCall = true → ∃ (later : Nat) (ret : Event Int Input Output),
      events[later]? = some ret ∧ ret.value.isCall = false ∧ ret.id = call.id

/-- The numbers of the calls, in order. -/
def callIdsOf (events : List (Event Int Input Output)) : List Int :=
  (events.filter fun event => event.value.isCall).map Event.id

/-- The operation with the given number. Its times are the places of its call and its return. -/
def operationOf (events : List (Event Int Input Output)) (id : Int) :
    Option (Operation Input Output) := do
  let call := events.findIdx fun event => event.key = (true, id)
  let ret := events.findIdx fun event => event.key = (false, id)
  let calls ← events[call]?
  let returns ← events[ret]?
  let input ← calls.value.input?
  let output ← returns.value.output?
  some ⟨calls.clientId, input, call, output, ret⟩

/-- The operations of the events, in the order of their calls. -/
def eventOperations (events : List (Event Int Input Output)) : List (Operation Input Output) :=
  (callIdsOf events).filterMap (operationOf events)

section WellFormed

variable {events : List (Event Int Input Output)} {event : Event Int Input Output}
  {place : Nat}

/-- An event is at the first place of its key. -/
theorem find_key (hkeys : (events.map Event.key).Nodup) (hevent : events[place]? = some event)
    {isCall : Bool} (hkind : event.value.isCall = isCall) :
    (events.findIdx fun other => other.key = (isCall, event.id)) = place := by
  obtain ⟨hplace, rfl⟩ := List.getElem?_eq_some_iff.mp hevent
  refine (List.findIdx_eq hplace).mpr ⟨by simp [Event.key, hkind], fun other hother => ?_⟩
  have hne := List.pairwise_iff_getElem.mp hkeys other place (by simp; omega) (by simpa) hother
  rw [List.getElem_map, List.getElem_map] at hne
  refine decide_eq_false fun heq => hne ?_
  rw [heq, ← hkind]
  rfl

/-- The value of a call is an input. -/
theorem input_of_is_call {value : EntryValue Input Output} (h : value.isCall = true) :
    ∃ input, value = .call input := by
  cases value with
  | call input => exact ⟨input, rfl⟩
  | ret output => cases h

/-- The value of a return is an output. -/
theorem output_of_is_call {value : EntryValue Input Output} (h : value.isCall = false) :
    ∃ output, value = .ret output := by
  cases value with
  | call input => cases h
  | ret output => exact ⟨output, rfl⟩

/-- The two events of an operation. -/
structure IsOperation (events : List (Event Int Input Output)) (id : Int)
    (op : Operation Input Output) (call ret : Nat) : Prop where
  calls : events[call]? = some ⟨op.client, .call op.input, id⟩
  returns : events[ret]? = some ⟨op.client, .ret op.output, id⟩
  call_eq : op.call = call
  ret_eq : op.ret = ret
  before : call < ret

/-- The operation of a call. -/
theorem WellFormed.operation_of (h : WellFormed events) (hevent : events[place]? = some event)
    (hcall : event.value.isCall = true) :
    ∃ op ret, operationOf events event.id = some op ∧ IsOperation events event.id op place ret := by
  obtain ⟨later, ret, hret, hkind, hid⟩ := h.returned place event hevent hcall
  obtain ⟨earlier, call, hearlier, hkind', hid', hclient, hlt⟩ := h.called later ret hret hkind
  -- the call of the return is this one
  obtain rfl : earlier = place := by
    rw [← find_key h.distinct hearlier hkind', ← find_key h.distinct hevent hcall, hid', hid]
  obtain rfl : event = call := Option.some.inj (hevent.symm.trans hearlier)
  obtain ⟨input, hinput⟩ := input_of_is_call hcall
  obtain ⟨output, houtput⟩ := output_of_is_call hkind
  have hfirst := find_key h.distinct hevent hcall
  have hsecond := find_key h.distinct hret hkind
  rw [hid] at hsecond
  refine ⟨⟨event.clientId, input, earlier, output, later⟩, later, ?_, ?_, ?_, rfl, rfl, hlt⟩
  · simp only [operationOf, hfirst, hsecond, hevent, hret, Option.bind_eq_bind, Option.bind_some,
      hinput, houtput, EntryValue.input?, EntryValue.output?]
  · rw [hevent, ← hinput]
  · rw [hret, ← houtput, ← hid, hclient]

/-- The calls have different numbers. -/
theorem WellFormed.nodup_call_ids (h : WellFormed events) : (callIdsOf events).Nodup := by
  have hcalls : ((events.filter fun event => event.value.isCall).map Event.key).Nodup :=
    h.distinct.sublist (List.filter_sublist.map Event.key)
  have hkeys : ((events.filter fun event => event.value.isCall).map Event.key) =
      (callIdsOf events).map fun id => (true, id) := by
    rw [callIdsOf, List.map_map]
    refine List.map_congr_left fun event hevent => ?_
    simp [Event.key, (List.mem_filter.mp hevent).2]
  rw [hkeys] at hcalls
  exact hcalls.of_map _

/-- The number of a call is one of a call event. -/
theorem mem_call_ids_iff {id : Int} : id ∈ callIdsOf events ↔
    ∃ (place : Nat) (event : Event Int Input Output), events[place]? = some event ∧
      event.value.isCall = true ∧ event.id = id := by
  rw [callIdsOf, List.mem_map]
  constructor
  · rintro ⟨event, hmem, rfl⟩
    obtain ⟨hevent, hcall⟩ := List.mem_filter.mp hmem
    obtain ⟨place, hplace⟩ := List.mem_iff_getElem?.mp hevent
    exact ⟨place, event, hplace, hcall, rfl⟩
  · rintro ⟨place, event, hevent, hcall, rfl⟩
    exact ⟨event, List.mem_filter.mpr ⟨List.mem_of_getElem? hevent, hcall⟩, rfl⟩

/-- The operations are in the order of the numbers of their calls. -/
theorem WellFormed.get_event_operations (h : WellFormed events) (k : Nat) :
    (eventOperations events)[k]? = (callIdsOf events)[k]?.bind (operationOf events) := by
  have hall : ∀ id ∈ callIdsOf events, (operationOf events id).isSome = true := by
    intro id hid
    obtain ⟨place, event, hevent, hcall, rfl⟩ := mem_call_ids_iff.mp hid
    obtain ⟨op, ret, hop, -⟩ := h.operation_of hevent hcall
    rw [hop]
    rfl
  rw [eventOperations]
  generalize callIdsOf events = ids at hall
  induction ids generalizing k with
  | nil => rfl
  | cons id rest ih =>
      obtain ⟨op, hop⟩ := Option.isSome_iff_exists.mp (hall id List.mem_cons_self)
      rw [List.filterMap_cons_some hop]
      cases k with
      | zero => simp [hop]
      | succ k => simpa using ih k fun id hid => hall id (List.mem_cons_of_mem _ hid)

/-- The numbers of the calls of two parts. -/
theorem call_ids_append (first second : List (Event Int Input Output)) :
    callIdsOf (first ++ second) = callIdsOf first ++ callIdsOf second := by
  rw [callIdsOf, List.filter_append, List.map_append]
  rfl

/-- The number of the call that is added at the end, if it is one. -/
theorem call_ids_singleton (event : Event Int Input Output) :
    callIdsOf [event] = if event.value.isCall then [event.id] else [] := by
  rw [callIdsOf, List.filter_singleton]
  cases event.value.isCall <;> rfl

/-- The event with the number of its call. -/
def numbered (events : List (Event Int Input Output)) (event : Event Int Input Output) :
    Event Nat Input Output :=
  ⟨event.clientId, event.value, (callIdsOf events).idxOf event.id⟩

/-- The loop of `renumber` after the events of `first`: the map has the numbers of their calls. -/
theorem renumber_from_eq {first rest : List (Event Int Input Output)} {m : Int → Option Nat}
    (h : WellFormed (first ++ rest))
    (hm : ∀ id, m id = if id ∈ callIdsOf first then some ((callIdsOf first).idxOf id) else none) :
    renumberFrom m (callIdsOf first).length rest = rest.map (numbered (first ++ rest)) := by
  induction rest generalizing first m with
  | nil => rfl
  | cons event rest ih =>
      have hsplit : first ++ event :: rest = (first ++ [event]) ++ rest := by simp
      have hids : callIdsOf (first ++ [event]) =
          callIdsOf first ++ if event.value.isCall then [event.id] else [] := by
        rw [call_ids_append, call_ids_singleton]
      have hevent : (first ++ event :: rest)[first.length]? = some event := by simp
      rw [renumberFrom, hm, List.map_cons, numbered]
      cases hcall : event.value.isCall with
      | true =>
          -- no earlier event has the number of a call
          rw [hcall, if_pos rfl] at hids
          have hnew : event.id ∉ callIdsOf first := by
            have hnodup := h.nodup_call_ids
            rw [hsplit, call_ids_append, hids] at hnodup
            have hdisjoint := (List.nodup_append.mp (List.nodup_append.mp hnodup).1).2.2
            exact fun hmem => hdisjoint _ hmem _ List.mem_cons_self rfl
          have hnumber : (callIdsOf (first ++ event :: rest)).idxOf event.id =
              (callIdsOf first).length := by
            rw [hsplit, call_ids_append, hids, List.append_assoc, List.idxOf_append_of_notMem hnew,
              List.singleton_append, List.idxOf_cons_self, Nat.add_zero]
          have hrest := @ih (first ++ [event])
            (Function.update m event.id (some (callIdsOf first).length)) (hsplit ▸ h) ?_
          · rw [hids, List.length_append, List.length_singleton] at hrest
            simp only [if_neg hnew]
            rw [hrest, hnumber, hsplit]
          · intro id
            rw [hids, Function.update_apply, hm]
            by_cases heq : id = event.id
            · subst heq
              simp [hnew, List.idxOf_append_of_notMem hnew]
            · by_cases hmem : id ∈ callIdsOf first
              · simp [heq, hmem, List.idxOf_append_of_mem hmem]
              · simp [heq, hmem]
      | false =>
          rw [hcall, if_neg (by simp), List.append_nil] at hids
          have hold : event.id ∈ callIdsOf first := by
            obtain ⟨earlier, call, hearlier, hkind, hid, -, hlt⟩ :=
              h.called first.length event hevent hcall
            rw [List.getElem?_append_left hlt] at hearlier
            exact mem_call_ids_iff.mpr ⟨earlier, call, hearlier, hkind, hid⟩
          have hnumber : (callIdsOf (first ++ event :: rest)).idxOf event.id =
              (callIdsOf first).idxOf event.id := by
            rw [call_ids_append, List.idxOf_append_of_mem hold]
          have hrest := @ih (first ++ [event]) m (hsplit ▸ h) (by rw [hids]; exact hm)
          rw [hids] at hrest
          simp only [if_pos hold]
          rw [hrest, hnumber, hsplit]

/-- `renumber` gives every event the number of its call. -/
theorem WellFormed.renumber_eq (h : WellFormed events) :
    renumber events = events.map (numbered events) :=
  @renumber_from_eq _ _ [] events _ h fun id => by simp [callIdsOf]

/-- The entry at a place. -/
theorem get_convert_entries (place : Nat) :
    (convertEntries (events.map (numbered events)))[place]? = events[place]?.map fun event =>
      ⟨event.value, (callIdsOf events).idxOf event.id, place, event.clientId⟩ := by
  rw [convertEntries, List.getElem?_map, List.getElem?_zipIdx, List.getElem?_map, Option.map_map,
    Option.map_map]
  simp only [Function.comp_def, numbered, Nat.zero_add]

/-- The operation of the call with a number has the two entries of this number. -/
theorem WellFormed.is_operation (h : WellFormed events) {k : Nat} {op : Operation Input Output}
    (hop : (eventOperations events)[k]? = some op) :
    ∃ id call ret, IsOperation events id op call ret ∧ (callIdsOf events).idxOf id = k := by
  rw [h.get_event_operations] at hop
  obtain ⟨id, hid, hop⟩ := Option.bind_eq_some_iff.mp hop
  obtain ⟨place, event, hevent, hcall, rfl⟩ := mem_call_ids_iff.mp (List.mem_of_getElem? hid)
  obtain ⟨op', ret, hop', hspec⟩ := h.operation_of hevent hcall
  obtain rfl : op = op' := Option.some.inj (hop.symm.trans hop')
  refine ⟨event.id, place, ret, hspec, ?_⟩
  obtain ⟨hk, hget⟩ := List.getElem?_eq_some_iff.mp hid
  rw [← hget]
  exact h.nodup_call_ids.idxOf_getElem k hk

/-- Every event belongs to an operation. -/
theorem WellFormed.exists_operation (h : WellFormed events) (hevent : events[place]? = some event) :
    ∃ op call ret, (eventOperations events)[(callIdsOf events).idxOf event.id]? = some op ∧
      IsOperation events event.id op call ret ∧
      (place = call ∧ event.value.isCall = true ∨ place = ret ∧ event.value.isCall = false) := by
  -- the call of the event
  obtain ⟨call, calls, hcalls, hkind, hid⟩ : ∃ (call : Nat) (calls : Event Int Input Output),
      events[call]? = some calls ∧ calls.value.isCall = true ∧ calls.id = event.id := by
    cases hcall : event.value.isCall with
    | true => exact ⟨place, event, hevent, hcall, rfl⟩
    | false =>
        obtain ⟨earlier, calls, hcalls, hkind, hid, -⟩ := h.called place event hevent hcall
        exact ⟨earlier, calls, hcalls, hkind, hid⟩
  obtain ⟨op, ret, hop, hspec⟩ := h.operation_of hcalls hkind
  rw [hid] at hop hspec
  have hmem : event.id ∈ callIdsOf events := mem_call_ids_iff.mpr ⟨call, calls, hcalls, hkind, hid⟩
  refine ⟨op, call, ret, ?_, hspec, ?_⟩
  · rw [h.get_event_operations, List.getElem?_eq_getElem (List.idxOf_lt_length_iff.mpr hmem),
      List.getElem_idxOf, Option.bind_some, hop]
  · cases hcall : event.value.isCall with
    | true =>
        have hfirst := find_key h.distinct hevent hcall
        have hother := find_key h.distinct hspec.calls rfl
        exact Or.inl ⟨hfirst.symm.trans hother, rfl⟩
    | false =>
        have hfirst := find_key h.distinct hevent hcall
        have hother := find_key h.distinct hspec.returns rfl
        exact Or.inr ⟨hfirst.symm.trans hother, rfl⟩

/-- The entries of the events are those of the operations. -/
theorem WellFormed.mem_convert_entries_iff (h : WellFormed events) {entry : Entry Input Output} :
    entry ∈ convertEntries (events.map (numbered events)) ↔
      ∃ op k, (eventOperations events)[k]? = some op ∧ entry ∈ operationEntries op k := by
  constructor
  · intro hmem
    obtain ⟨place, hplace⟩ := List.mem_iff_getElem?.mp hmem
    rw [get_convert_entries] at hplace
    obtain ⟨event, hevent, rfl⟩ := Option.map_eq_some_iff.mp hplace
    obtain ⟨op, call, ret, hop, hspec, ⟨rfl, -⟩ | ⟨rfl, -⟩⟩ := h.exists_operation hevent
    · refine ⟨op, _, hop, ?_⟩
      have heq := Option.some.inj (hevent.symm.trans hspec.calls)
      rw [operationEntries, hspec.call_eq, heq]
      exact List.mem_cons_self
    · refine ⟨op, _, hop, ?_⟩
      have heq := Option.some.inj (hevent.symm.trans hspec.returns)
      rw [operationEntries, hspec.ret_eq, heq]
      exact List.mem_cons_of_mem _ List.mem_cons_self
  · rintro ⟨op, k, hop, hentry⟩
    obtain ⟨id, call, ret, hspec, rfl⟩ := h.is_operation hop
    rcases List.mem_pair.mp hentry with rfl | rfl
    · refine List.mem_of_getElem? (i := call) ?_
      rw [get_convert_entries, hspec.calls, hspec.call_eq]
      rfl
    · refine List.mem_of_getElem? (i := ret) ?_
      rw [get_convert_entries, hspec.returns, hspec.ret_eq]
      rfl

/-- The entries are in the order of their times. -/
theorem pairwise_convert_entries (events : List (Event Nat Input Output)) :
    (convertEntries events).Pairwise fun first second => first.time < second.time := by
  rw [List.pairwise_iff_getElem]
  intro i j hi hj hlt
  simp only [convertEntries, List.getElem_map, List.getElem_zipIdx]
  omega

/-- The events give the entries of their operations. -/
theorem convert_entries_eq {sort : List (Entry Input Output) → List (Entry Input Output)}
    (hsort : SortsByTime sort) (h : WellFormed events) :
    convertEntries (renumber events) = makeEntries sort (eventOperations events) := by
  rw [h.renumber_eq]
  have htimes := pairwise_convert_entries (events.map (numbered events))
  have hnodup : (convertEntries (events.map (numbered events))).Nodup :=
    htimes.imp fun hlt heq => by rw [heq] at hlt; exact lt_irrefl _ hlt
  have hperm : (convertEntries (events.map (numbered events))).Perm
      (makeEntries sort (eventOperations events)) := by
    refine (List.perm_ext_iff_of_nodup hnodup (nodup_keys_make_entries hsort _).of_map).mpr ?_
    intro entry
    rw [h.mem_convert_entries_iff, mem_make_entries_iff hsort]
  have hsorted : (convertEntries (events.map (numbered events))).Pairwise
      fun first second => byTimeLess second first = false := by
    refine htimes.imp fun {first second} hlt => ?_
    rw [← Bool.not_eq_true, by_time_less_iff]
    omega
  -- two entries of which none is less have the same time, and so the same place
  refine hperm.eq_of_pairwise (fun first second hfirst hsecond hle hge => ?_) hsorted
    (hsort.sorted _)
  rw [← Bool.not_eq_true, by_time_less_iff] at hle hge
  have htime : first.time = second.time := by omega
  obtain ⟨place, hplace⟩ := List.mem_iff_getElem?.mp hfirst
  obtain ⟨other, hother⟩ := List.mem_iff_getElem?.mp (hperm.mem_iff.mpr hsecond)
  have hsame : place = other := by
    rw [get_convert_entries] at hplace hother
    obtain ⟨event, -, rfl⟩ := Option.map_eq_some_iff.mp hplace
    obtain ⟨event', -, rfl⟩ := Option.map_eq_some_iff.mp hother
    exact Int.ofNat_inj.mp htime
  subst hsame
  exact Option.some.inj (hplace.symm.trans hother)

/-- The operations do not return before they are called. -/
theorem WellFormed.call_le_ret (h : WellFormed events) :
    ∀ op ∈ eventOperations events, op.call ≤ op.ret := by
  intro op hop
  obtain ⟨k, hk⟩ := List.mem_iff_getElem?.mp hop
  obtain ⟨id, call, ret, hspec, -⟩ := h.is_operation hk
  have hbefore := hspec.before
  rw [hspec.call_eq, hspec.ret_eq]
  omega

end WellFormed

/-! ## The answer -/

section Answer

variable [DecidableEq State]

/-- The entries of a list of events in which every call has its return are those of its operations,
whatever the sort. Whatever the interleaving, the check of the list is right about them: `Ok` means
that all parts are linearizable, `Illegal` that one of them is not, and `Unknown` is given only when
the time was up. If there is a part, the check can always go on without the timeout until it
returns. -/
theorem check_events_verdict (model : Model State Input Output)
    (hequal : EqualLawful (fillDefault model)) (history : List (Event Int Input Output))
    (hformed : ∀ part ∈ (fillDefault model).partitionEvent history, WellFormed part)
    (verbose timeout : Bool) (actions : List ParallelAction) (s : Parallel State)
    (hrun : (checkEvents model history verbose timeout).run actions = some s) :
    (∀ part ∈ (fillDefault model).partitionEvent history,
      ∀ sort : List (Entry Input Output) → List (Entry Input Output), SortsByTime sort →
        convertEntries (renumber part) = makeEntries sort (eventOperations part)) ∧
    (∀ result, s.phase = .returned result →
      (result = .ok → ∀ part ∈ (fillDefault model).partitionEvent history,
        Linearizable (fillDefault model).object ((eventOperations part).map Completed.record)) ∧
      (result = .illegal → ∃ part ∈ (fillDefault model).partitionEvent history,
        ¬ Linearizable (fillDefault model).object
          ((eventOperations part).map Completed.record)) ∧
      (result = .unknown → timeout = true ∧ .timeout ∈ actions)) ∧
    ((fillDefault model).partitionEvent history ≠ [] →
      (∀ action, action ≠ .timeout →
        (checkEvents model history verbose timeout).step s action = none) →
      ∃ result, s.phase = .returned result) := by
  have hentries : (((fillDefault model).partitionEvent history).map fun subhistory =>
      convertEntries (renumber subhistory)) =
      (((fillDefault model).partitionEvent history).map eventOperations).map
        (makeEntries insertByTime) := by
    rw [List.map_map]
    exact List.map_congr_left fun part hpart =>
      convert_entries_eq sorts_by_time_insert (hformed part hpart)
  have htimes : ∀ ops ∈ ((fillDefault model).partitionEvent history).map eventOperations,
      ∀ op ∈ ops, op.call ≤ op.ret := by
    intro ops hops
    obtain ⟨part, hpart, rfl⟩ := List.mem_map.mp hops
    exact (hformed part hpart).call_le_ret
  rw [checkEvents, hentries] at hrun ⊢
  refine ⟨fun part hpart sort hsort => convert_entries_eq hsort (hformed part hpart), ?_, ?_⟩
  · intro result hreturned
    obtain ⟨hok, hillegal, hunknown⟩ :=
      verdict_of_run sorts_by_time_insert hequal htimes hrun hreturned
    simp only [List.forall_mem_map] at hok hillegal
    refine ⟨hok, fun hresult => ?_, hunknown⟩
    by_contra hnone
    refine hillegal hresult fun part hpart => ?_
    by_contra hnot
    exact hnone ⟨part, hpart, hnot⟩
  · intro hparts
    exact (terminates_of_run sorts_by_time_insert hequal htimes (by simpa using hparts)
      hrun).2.2.2.2

end Answer

/-- A put and an overlapping get that returns a value which was never written, with numbers that the
user has chosen. -/
def staleEvents : List (Event Int Models.KvInput Models.KvOutput) :=
  [⟨1, .call getStale.input, 7⟩, ⟨0, .call Models.putA.input, -3⟩, ⟨1, .ret getStale.output, 7⟩,
    ⟨0, .ret Models.putA.output, -3⟩]

/-- The events have their counterparts. -/
theorem stale_events_formed : WellFormed staleEvents := by
  constructor
  · decide
  · intro place ret hret hkind
    rcases place with _ | _ | _ | _ | place
    · cases hret
      cases hkind
    · cases hret
      cases hkind
    · cases hret
      exact ⟨0, _, rfl, rfl, rfl, rfl, by decide⟩
    · cases hret
      exact ⟨1, _, rfl, rfl, rfl, rfl, by decide⟩
    · cases hret
  · intro place call hcall hkind
    rcases place with _ | _ | _ | _ | place
    · cases hcall
      exact ⟨2, _, rfl, rfl, rfl⟩
    · cases hcall
      exact ⟨3, _, rfl, rfl, rfl⟩
    · cases hcall
      cases hkind
    · cases hcall
      cases hkind
    · cases hcall

/-- The check of these events is `Illegal`, and they are not linearizable. -/
theorem check_events_verdict_stale :
    ∃ (actions : List ParallelAction) (s : Parallel GoString),
      (checkEvents (kvPorcupine id) staleEvents false false).run actions = some s ∧
      s.phase = .returned .illegal ∧
      ¬ Linearizable (fillDefault (kvPorcupine id)).object
        ((eventOperations staleEvents).map Completed.record) := by
  obtain ⟨s, hrun, hphase⟩ :=
    (checkEvents (kvPorcupine id) staleEvents false false).exists_run_of_check
      (List.replicate 7 (.task 0) ++ [.receive]) (fun s => s.phase = .returned .illegal)
      (by decide +kernel)
  obtain ⟨part, hpart, hnot⟩ := ((check_events_verdict (kvPorcupine id) (equal_lawful_default _ rfl)
    staleEvents (by
      intro part hpart
      obtain rfl := List.mem_singleton.mp hpart
      exact stale_events_formed)
    false false _ s hrun).2.1 .illegal hphase).2.1 rfl
  obtain rfl := List.mem_singleton.mp hpart
  exact ⟨_, s, hrun, hphase, hnot⟩

end DistributedLabs.Porcupine
