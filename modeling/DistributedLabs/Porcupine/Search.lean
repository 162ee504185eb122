import DistributedLabs.Library.Backtracking
import DistributedLabs.Library.Lists
import DistributedLabs.Porcupine.Checker

/-!
# Partial linearizations

What the checker searches for, without its list and its bit sets. A partial linearization is a
sequence of operations that the model accepts, that keeps real time, and that has with an operation
everything that returned before its call. The search goes from one to the next by a call that no
remaining return comes before; `reached_iff` says that it can get to every partial linearization,
and `memo` that those with the same operations and equal states have the same future.
-/

namespace DistributedLabs.Porcupine

variable {State Input Output : Type}

/-- `Equal` relates states that the model does not tell apart. -/
structure EqualLawful (model : FilledModel State Input Output) : Prop where
  refl : ∀ state, model.equal state state = true
  trans : ∀ first second third, model.equal first second = true →
    model.equal second third = true → model.equal first third = true
  step : ∀ first second input output, model.equal first second = true →
    (model.step first input output).1 = (model.step second input output).1 ∧
      ((model.step first input output).1 = true →
        model.equal (model.step first input output).2 (model.step second input output).2 = true)

/-- The default for `Equal` is equality. -/
theorem equal_lawful_default [DecidableEq State] (model : Model State Input Output)
    (h : model.equal = none) : EqualLawful (fillDefault model) := by
  have hequal : ∀ first second, (fillDefault model).equal first second = true ↔ first = second := by
    intro first second
    simp [fillDefault, h, shallowEqual]
  constructor
  · intro state
    exact (hequal state state).mpr rfl
  · intro first second third hfirst hsecond
    rw [hequal] at hfirst hsecond ⊢
    exact hfirst.trans hsecond
  · intro first second input output heq
    rw [hequal] at heq
    subst heq
    exact ⟨rfl, fun _ => (hequal _ _).mpr rfl⟩

section Space

variable (model : FilledModel State Input Output) {entries : List (Entry Input Output)}
  (matching : Matching entries)

/-- Perform operations given by their ids. -/
def performIds (state : State) : List Nat → Option State
  | [] => some state
  | id :: rest => (matching.ops[id]?).bind fun op =>
      (model.object.step state op.1 op.2).bind fun next => performIds next rest

/-- A sequence of operations that the model accepts in real time, and that is closed under what
returned before. -/
structure PartialLinearization (ids : List Nat) (state : State) : Prop where
  nodup : ids.Nodup
  lt_length : ∀ id ∈ ids, id < matching.ops.length
  realTime : ids.Pairwise fun first second => ¬ matching.retAt second < matching.callAt first
  closed : ∀ id ∈ ids, ∀ other < matching.ops.length,
    matching.retAt other < matching.callAt id → other ∈ ids
  legal : performIds model matching model.init ids = some state

/-- Whether there is a call at the place. -/
def isCallAt (entries : List (Entry Input Output)) (place : Nat) : Bool :=
  match entries[place]? with
  | some entry => entry.value.isCall
  | none => false

/-- The configurations of the search: the operations so far and the state after them. A move is a
call that is left and that no return comes before. -/
def space : Space (List Nat × State) Nat where
  root := ([], model.init)
  moves := fun config => (remaining entries config.1).takeWhile (isCallAt entries)
  next := fun config place =>
    entries[place]?.bind fun entry => (matching.ops[entry.id]?).bind fun op =>
      (model.object.step config.2 op.1 op.2).map fun state => (config.1 ++ [entry.id], state)
  goal := fun config => (remaining entries config.1).isEmpty

variable {model matching} {ids : List Nat} {state : State} {id place : Nat}

/-- Performing one more operation. -/
theorem perform_ids_concat (state : State) (ids : List Nat) (id : Nat) :
    performIds model matching state (ids ++ [id]) =
      (performIds model matching state ids).bind fun middle =>
        (matching.ops[id]?).bind fun op => model.object.step middle op.1 op.2 := by
  induction ids generalizing state with
  | nil =>
      simp only [List.nil_append, performIds, Option.bind_some]
      exact congrArg _ (funext fun op => Option.bind_fun_some _)
  | cons first rest ih =>
      simp only [List.cons_append, performIds, Option.bind_assoc, ih]

/-- The moves are the calls of the operations that nothing left has returned before. -/
theorem mem_moves_iff : place ∈ (space model matching).moves (ids, state) ↔
    ∃ id, id < matching.ops.length ∧ id ∉ ids ∧ place = matching.callAt id ∧
      ∀ other < matching.ops.length, matching.retAt other < matching.callAt id → other ∈ ids := by
  show place ∈ (remaining entries ids).takeWhile (isCallAt entries) ↔ _
  rw [mem_take_while_iff (remaining_sorted entries ids), mem_remaining_iff]
  constructor
  · rintro ⟨⟨entry, hentry, hleft⟩, hcalls⟩
    have hcall : entry.value.isCall = true := by
      have htest := hcalls place (mem_remaining_iff.mpr ⟨entry, hentry, hleft⟩) (Nat.le_refl _)
      simpa only [isCallAt, hentry] using htest
    have hplace := matching.call_at hentry hcall
    refine ⟨entry.id, (matching.entry_cases place entry hentry).1, hleft, hplace, ?_⟩
    intro other hother hbefore
    by_contra hnot
    have hret := (mem_remaining_of_not_mem matching hother hnot).2
    have htest := hcalls _ hret (by omega)
    obtain ⟨ret, hget, hvalue, -⟩ := matching.ret_entry _ _ (List.getElem?_eq_getElem hother)
    simp only [isCallAt, hget, hvalue, is_call_ret] at htest
    cases htest
  · rintro ⟨id, hid, hleft, rfl, hbefore⟩
    refine ⟨mem_remaining_iff.mp (mem_remaining_of_not_mem matching hid hleft).1, ?_⟩
    intro other hother hle
    obtain ⟨entry, hentry, hnot⟩ := mem_remaining_iff.mp hother
    simp only [isCallAt, hentry]
    by_contra hret
    -- a return before the call belongs to an operation that is not left
    have hat := matching.ret_at hentry (by simpa using hret)
    have hbound := (matching.entry_cases other entry hentry).1
    rcases Nat.lt_or_eq_of_le hle with hlt | heq
    · exact hnot (hbefore entry.id hbound (by omega))
    · obtain ⟨call, hcall, hvalue, -⟩ := matching.call_entry _ _ (List.getElem?_eq_getElem hid)
      rw [heq, hcall] at hentry
      rw [← Option.some.inj hentry, hvalue] at hret
      exact hret rfl

/-- A move performs its operation. -/
theorem next_call (model : FilledModel State Input Output) (ids : List Nat) (state : State)
    (hid : id < matching.ops.length) :
    (space model matching).next (ids, state) (matching.callAt id) =
      (model.object.step state (matching.ops[id]).1 (matching.ops[id]).2).map
        fun later => (ids ++ [id], later) := by
  obtain ⟨call, hcall, -, hcallId⟩ := matching.call_entry _ _ (List.getElem?_eq_getElem hid)
  show (entries[matching.callAt id]?.bind fun entry => _) = _
  rw [hcall, Option.bind_some, hcallId, List.getElem?_eq_getElem hid, Option.bind_some]

/-- One configuration leads to the other by one operation. -/
theorem leads_iff {config later : List Nat × State} : (space model matching).Leads config later ↔
    ∃ id, ∃ hid : id < matching.ops.length, id ∉ config.1 ∧
      (∀ other < matching.ops.length, matching.retAt other < matching.callAt id →
        other ∈ config.1) ∧
      model.object.step config.2 (matching.ops[id]).1 (matching.ops[id]).2 = some later.2 ∧
      later.1 = config.1 ++ [id] := by
  obtain ⟨ids, state⟩ := config
  obtain ⟨ids', state'⟩ := later
  constructor
  · rintro ⟨place, hmove, hnext⟩
    obtain ⟨id, hid, hleft, rfl, hbefore⟩ := mem_moves_iff.mp hmove
    rw [next_call model _ _ hid] at hnext
    obtain ⟨later, hstep, heq⟩ := Option.map_eq_some_iff.mp hnext
    cases heq
    exact ⟨id, hid, hleft, hbefore, hstep, rfl⟩
  · rintro ⟨id, hid, hleft, hbefore, hstep, hlater⟩
    refine ⟨matching.callAt id, mem_moves_iff.mpr ⟨id, hid, hleft, rfl, hbefore⟩, ?_⟩
    rw [next_call model _ _ hid, hstep, Option.map_some, show ids' = ids ++ [id] from hlater]

/-- A partial linearization can be extended by what the search may try next. -/
theorem PartialLinearization.concat (h : PartialLinearization model matching ids state)
    (hid : id < matching.ops.length) (hleft : id ∉ ids)
    (hbefore : ∀ other < matching.ops.length, matching.retAt other < matching.callAt id →
      other ∈ ids) {later : State}
    (hstep : model.object.step state (matching.ops[id]).1 (matching.ops[id]).2 = some later) :
    PartialLinearization model matching (ids ++ [id]) later where
  nodup := by
    refine List.nodup_append.mpr ⟨h.nodup, List.nodup_singleton id, ?_⟩
    intro first hfirst second hsecond heq
    exact hleft (by rwa [← List.mem_singleton.mp hsecond, ← heq])
  lt_length := by
    intro other hother
    rcases List.mem_append.mp hother with hold | hnew
    · exact h.lt_length other hold
    · rwa [List.mem_singleton.mp hnew]
  realTime := by
    refine List.pairwise_append.mpr ⟨h.realTime, List.pairwise_singleton _ _, ?_⟩
    intro first hfirst second hsecond hlt
    rw [List.mem_singleton.mp hsecond] at hlt
    exact hleft (h.closed first hfirst id hid hlt)
  closed := by
    intro first hfirst other hother hlt
    refine List.mem_append_left _ ?_
    rcases List.mem_append.mp hfirst with hold | hnew
    · exact h.closed first hold other hother hlt
    · rw [List.mem_singleton.mp hnew] at hlt
      exact hbefore other hother hlt
  legal := by
    rw [perform_ids_concat, h.legal, Option.bind_some, List.getElem?_eq_getElem hid]
    exact hstep

/-- What was there before the last operation of a partial linearization. -/
theorem PartialLinearization.of_concat
    (h : PartialLinearization model matching (ids ++ [id]) state) :
    ∃ before, PartialLinearization model matching ids before ∧
      (space model matching).Leads (ids, before) (ids ++ [id], state) := by
  have hid : id < matching.ops.length := h.lt_length id (List.mem_append_right _ List.mem_cons_self)
  obtain ⟨hnodup, -, hdisjoint⟩ := List.nodup_append.mp h.nodup
  have hleft : id ∉ ids := fun hmem => hdisjoint id hmem id List.mem_cons_self rfl
  obtain ⟨hreal, -, hlast⟩ := List.pairwise_append.mp h.realTime
  have hlegal := h.legal
  rw [perform_ids_concat, List.getElem?_eq_getElem hid] at hlegal
  obtain ⟨before, hbefore, hstep⟩ := Option.bind_eq_some_iff.mp hlegal
  have hclosed : ∀ first ∈ ids, ∀ other < matching.ops.length,
      matching.retAt other < matching.callAt first → other ∈ ids := by
    intro first hfirst other hother hlt
    rcases List.mem_append.mp (h.closed first (List.mem_append_left _ hfirst) other hother hlt) with
      hmem | hmem
    · exact hmem
    · rw [List.mem_singleton.mp hmem] at hlt
      exact absurd hlt (hlast first hfirst id List.mem_cons_self)
  refine ⟨before, ⟨hnodup, fun other hother => h.lt_length other (List.mem_append_left _ hother),
    hreal, hclosed, hbefore⟩, leads_iff.mpr ⟨id, hid, hleft, ?_, hstep, rfl⟩⟩
  intro other hother hlt
  rcases List.mem_append.mp (h.closed id (List.mem_append_right _ List.mem_cons_self) other hother
    hlt) with hmem | hmem
  · exact hmem
  · rw [List.mem_singleton.mp hmem] at hlt
    have hown := matching.call_lt_ret id hid
    omega

/-- The search can get to the partial linearizations and to nothing else. -/
theorem reached_iff {config : List Nat × State} : (space model matching).Reached config ↔
    PartialLinearization model matching config.1 config.2 := by
  constructor
  · intro h
    induction h with
    | refl => exact ⟨List.nodup_nil, by simp [space], List.Pairwise.nil, by simp [space], rfl⟩
    | @tail config later _ hleads ih =>
        obtain ⟨id, hid, hleft, hbefore, hstep, hlater⟩ := leads_iff.mp hleads
        rw [hlater]
        exact ih.concat hid hleft hbefore hstep
  · obtain ⟨ids, state⟩ := config
    intro h
    induction ids using List.reverseRecOn generalizing state with
    | nil =>
        have hroot : (([], state) : List Nat × State) = (space model matching).root :=
          Prod.ext rfl (Option.some.inj h.legal).symm
        rw [hroot]
        exact Relation.ReflTransGen.refl
    | append_singleton ids id ih =>
        obtain ⟨before, hbefore, hleads⟩ := h.of_concat
        exact (ih before hbefore).tail hleads

/-- When the memo may be used. -/
structure SameFuture (model : FilledModel State Input Output) (first second : List Nat × State) :
    Prop where
  ids : ∀ id, id ∈ first.1 ↔ id ∈ second.1
  length : first.1.length = second.1.length
  equal : model.equal first.2 second.2 = true

/-- Configurations with the same operations and equal states have the same future. -/
def memo (matching : Matching entries) (hequal : EqualLawful model) :
    (space model matching).Memo where
  same := fun first second =>
    first.1.toFinset = second.1.toFinset && model.equal first.2 second.2
  Sim := SameFuture model
  level := fun config => config.1.length
  sim_refl := fun config _ => ⟨fun _ => Iff.rfl, rfl, hequal.refl _⟩
  sim_trans := fun first second third h h' =>
    ⟨fun id => (h.ids id).trans (h'.ids id), h.length.trans h'.length,
      hequal.trans _ _ _ h.equal h'.equal⟩
  sim_of_same := by
    intro first second hfirst hsecond hsame
    obtain ⟨hids, hstate⟩ := Bool.and_eq_true_iff.mp hsame
    have hids := of_decide_eq_true hids
    refine ⟨fun id => ?_, ?_, hstate⟩
    · rw [← List.mem_toFinset, hids, List.mem_toFinset]
    · rw [← List.toFinset_card_of_nodup (reached_iff.mp hfirst).nodup, hids,
        List.toFinset_card_of_nodup (reached_iff.mp hsecond).nodup]
  level_of_leads := by
    intro config later _ hleads
    obtain ⟨id, -, -, -, -, hlater⟩ := leads_iff.mp hleads
    rw [hlater, List.length_append, List.length_singleton]
  level_of_sim := fun _ _ h => h.length
  goal_of_sim := fun first second h => by
    show (remaining entries first.1).isEmpty = (remaining entries second.1).isEmpty
    rw [remaining_congr h.ids]
  leads_of_sim := by
    intro first second later h hleads
    obtain ⟨id, hid, hleft, hbefore, hstep, hlater⟩ := leads_iff.mp hleads
    obtain ⟨hok, hnext⟩ := hequal.step first.2 second.2 (matching.ops[id]).1 (matching.ops[id]).2
      h.equal
    have hfirst : (model.step first.2 (matching.ops[id]).1 (matching.ops[id]).2).1 = true ∧
        (model.step first.2 (matching.ops[id]).1 (matching.ops[id]).2).2 = later.2 := by
      simpa [FilledModel.object] using hstep
    refine ⟨(second.1 ++ [id],
      (model.step second.2 (matching.ops[id]).1 (matching.ops[id]).2).2), leads_iff.mpr
        ⟨id, hid, fun hmem => hleft ((h.ids id).mpr hmem), fun other hother hlt =>
          (h.ids other).mp (hbefore other hother hlt), ?_, rfl⟩, ?_, ?_, ?_⟩
    · simp only [FilledModel.object, ← hok, hfirst.1, if_true]
    · intro other
      rw [hlater, List.mem_append, List.mem_append, h.ids]
    · rw [hlater, List.length_append, List.length_append, h.length]
    · rw [← hfirst.2]
      exact hnext hfirst.1

/-! ## Complete linearizations -/

/-- A linearization of all operations. -/
structure CompleteLinearization (model : FilledModel State Input Output)
    (matching : Matching entries) (ids : List Nat) : Prop where
  partly : ∃ state, PartialLinearization model matching ids state
  complete : ∀ id < matching.ops.length, id ∈ ids

/-- The search has its goal when no operation is left. -/
theorem remaining_eq_nil_iff (matching : Matching entries) :
    remaining entries ids = [] ↔ ∀ id < matching.ops.length, id ∈ ids := by
  constructor
  · intro hnil id hid
    by_contra hleft
    have hmem := (mem_remaining_of_not_mem matching hid hleft).1
    rw [hnil] at hmem
    cases hmem
  · intro hall
    refine List.eq_nil_iff_forall_not_mem.mpr fun place hplace => ?_
    obtain ⟨entry, hentry, hleft⟩ := mem_remaining_iff.mp hplace
    exact hleft (hall entry.id (matching.entry_cases place entry hentry).1)

end Space

section Histories

variable {model : FilledModel State Input Output}
  {sort : List (Entry Input Output) → List (Entry Input Output)} {hsort : SortsByTime sort}
  {history : List (Operation Input Output)} {htimes : ∀ op ∈ history, op.call ≤ op.ret}

/-- Performing operations by their ids is performing the operations. -/
theorem perform_ids_indexed {indexed : List (Operation Input Output × Nat)}
    (hindexed : ∀ op ∈ indexed, op ∈ history.zipIdx) (state : State) :
    performIds model (makeEntriesMatching hsort history htimes) state (indexed.map Prod.snd) =
      model.object.perform state (indexed.map Prod.fst) := by
  induction indexed generalizing state with
  | nil => rfl
  | cons op rest ih =>
      have hop : history[op.2]? = some op.1 :=
        List.mem_zipIdx_iff_getElem?.mp (hindexed op List.mem_cons_self)
      have hops : (makeEntriesMatching hsort history htimes).ops[op.2]? =
          some (op.1.input, op.1.output) := by
        show (history.map fun op => (op.input, op.output))[op.2]? = _
        rw [List.getElem?_map, hop, Option.map_some]
      rw [List.map_cons, List.map_cons, performIds, SequentialObject.perform, hops,
        Option.bind_some]
      exact congrArg _ (funext fun next =>
        ih (fun other hother => hindexed other (List.mem_cons_of_mem _ hother)) next)

/-- Real time by the places of the entries is real time. -/
theorem real_time_indexed {indexed : List (Operation Input Output × Nat)}
    (hindexed : ∀ op ∈ indexed, op ∈ history.zipIdx) :
    ((indexed.map Prod.snd).Pairwise fun first second =>
        ¬ (makeEntriesMatching hsort history htimes).retAt second <
          (makeEntriesMatching hsort history htimes).callAt first) ↔
      RealTime (indexed.map Prod.fst) := by
  rw [RealTime, List.pairwise_map, List.pairwise_map]
  refine List.Pairwise.iff_of_mem fun {first second} hfirst hsecond => ?_
  have hbefore := ret_before_call_iff hsort
    (List.mem_zipIdx_iff_getElem?.mp (hindexed second hsecond))
    (List.mem_zipIdx_iff_getElem?.mp (hindexed first hfirst))
  exact not_congr hbefore

/-- A history can be ordered when it has a complete linearization. -/
theorem orderable_iff_complete (hsort : SortsByTime sort)
    (htimes : ∀ op ∈ history, op.call ≤ op.ret) : Orderable model.object history ↔
    ∃ ids, CompleteLinearization model (makeEntriesMatching hsort history htimes) ids := by
  have hlength : (makeEntriesMatching hsort history htimes).ops.length = history.length :=
    List.length_map _
  have hfst : history.zipIdx.map Prod.fst = history := List.zipIdx_map_fst 0 history
  have hsnd : history.zipIdx.map Prod.snd = List.range history.length := by
    rw [List.zipIdx_map_snd, ← List.range_eq_range']
  constructor
  · rintro ⟨order, hperm, hreal, hlegal⟩
    rw [← hfst] at hperm
    obtain ⟨indexed, rfl, hindexed⟩ := exists_perm_of_map hperm
    have hmem : ∀ op ∈ indexed, op ∈ history.zipIdx := fun op hop => hindexed.mem_iff.mp hop
    have hids : (indexed.map Prod.snd).Perm (List.range history.length) := by
      rw [← hsnd]
      exact hindexed.map _
    obtain ⟨final, hfinal⟩ := Option.isSome_iff_exists.mp hlegal
    have hcomplete : ∀ id < (makeEntriesMatching hsort history htimes).ops.length,
        id ∈ indexed.map Prod.snd := by
      intro id hid
      rw [hlength] at hid
      exact hids.mem_iff.mpr (List.mem_range.mpr hid)
    refine ⟨indexed.map Prod.snd, ⟨final, ?_, ?_, ?_, ?_, ?_⟩, hcomplete⟩
    · exact hids.nodup_iff.mpr List.nodup_range
    · intro id hid
      rw [hlength]
      exact List.mem_range.mp (hids.mem_iff.mp hid)
    · exact (real_time_indexed hmem).mpr hreal
    · exact fun _ _ other hother _ => hcomplete other hother
    · rw [perform_ids_indexed hmem]
      exact hfinal
  · rintro ⟨ids, ⟨final, h⟩, hcomplete⟩
    have hids : ids.Perm (history.zipIdx.map Prod.snd) := by
      rw [hsnd]
      refine (List.perm_ext_iff_of_nodup h.nodup List.nodup_range).mpr fun id => ?_
      rw [List.mem_range, ← hlength]
      exact ⟨h.lt_length id, hcomplete id⟩
    obtain ⟨indexed, rfl, hindexed⟩ := exists_perm_of_map hids
    have hmem : ∀ op ∈ indexed, op ∈ history.zipIdx := fun op hop => hindexed.mem_iff.mp hop
    refine ⟨indexed.map Prod.fst, ?_, (real_time_indexed hmem).mp h.realTime, ?_⟩
    · have hmap := hindexed.map Prod.fst
      rwa [hfst] at hmap
    · have hlegal := h.legal
      rw [perform_ids_indexed hmem] at hlegal
      rw [show model.object.init = model.init from rfl, hlegal]
      rfl

end Histories

end DistributedLabs.Porcupine
