import DistributedLabs.Porcupine.Longest
import DistributedLabs.Porcupine.Search

/-!
# The checker follows the search

`Simulates` relates the variables of `checkSingle` to a search with a stack and a memo: the linked
list has what is left, the bit set has the operations on the stack, the cache has the configurations
that were entered, and `longest` has those that were given up. Every round of the loop is a step of
the search (`round_simulates`), so that no pointer is nil, and the loop comes to an end.
-/

namespace DistributedLabs.Porcupine

variable {State Input Output : Type}

/-! ## The stack -/

section Trail

variable {entries : List (Entry Input Output)} (matching : Matching entries)

/-- The operations on the stack, given with the states before them, the last one first. -/
def trailIds (trail : List (Nat × State)) : List Nat := (trail.map Prod.fst).reverse

/-- The stack of the checker. -/
def trailCalls (trail : List (Nat × State)) : List (CallsEntry State) :=
  (trail.map fun call => ⟨matching.callAt call.1, call.2⟩).reverse

/-- The calls that are tried after a place. -/
def callsBehind (entries : List (Entry Input Output)) (ids : List Nat) (place : Nat) : List Nat :=
  ((remaining entries ids).filter (place < ·)).takeWhile (isCallAt entries)

/-- The stack of the search. -/
def trailStack : List (Nat × State) → List ((List Nat × State) × List Nat)
  | [] => []
  | (id, before) :: rest =>
      ((trailIds rest, before), callsBehind entries (trailIds rest) (matching.callAt id)) ::
        trailStack rest

/-- The operations on the stack were lifted one after the other, and can be put back. -/
def Lifted : Links Nat → List (Nat × State) → Prop
  | links, [] => links.Linked none (entries.length :: remaining entries [])
  | links, (id, before) :: rest =>
      id < matching.ops.length ∧ id ∉ trailIds rest ∧
      links.Linked none (entries.length :: remaining entries (trailIds ((id, before) :: rest))) ∧
      ∃ more, unlift links (makeLinkedEntries entries).matchOf (matching.callAt id) = some more ∧
        Lifted more rest

variable {matching} {trail : List (Nat × State)} {links : Links Nat} {id : Nat} {before : State}

/-- One more operation on the stack. -/
theorem trail_ids_cons (id : Nat) (before : State) (trail : List (Nat × State)) :
    trailIds ((id, before) :: trail) = trailIds trail ++ [id] := by
  simp [trailIds]

/-- The list has what is left. -/
theorem Lifted.linked (h : Lifted matching links trail) :
    links.Linked none (entries.length :: remaining entries (trailIds trail)) := by
  cases trail with
  | nil => exact h
  | cons call rest => exact h.2.2.1

/-- The ids of the calls can be read. -/
theorem call_ids_trail (hids : ∀ id ∈ trailIds trail, id < matching.ops.length) :
    callIds entries (trailCalls matching trail) = some (trailIds trail) := by
  induction trail with
  | nil => rfl
  | cons call rest ih =>
      obtain ⟨id, before⟩ := call
      rw [trail_ids_cons] at hids ⊢
      have hrest := ih fun other hother => hids other (List.mem_append_left _ hother)
      have hid := hids id (List.mem_append_right _ List.mem_cons_self)
      obtain ⟨entry, hentry, -, hentryId⟩ :=
        matching.call_entry _ _ (List.getElem?_eq_getElem hid)
      have hcalls : trailCalls matching ((id, before) :: rest) =
          trailCalls matching rest ++ [⟨matching.callAt id, before⟩] := by
        simp [trailCalls]
      rw [callIds] at hrest
      rw [hcalls, callIds, List.mapM_append, hrest]
      simp [hentry, hentryId]

end Trail

/-! ## The simulation -/

section Simulation

variable (model : FilledModel State Input Output) {entries : List (Entry Input Output)}
  (matching : Matching entries) (computePartial : Bool)

/-- The cache has the configurations that were entered. -/
structure CacheOf (cache : BitVec 64 → List (CacheEntry State))
    (visited : List (List Nat × State)) : Prop where
  sound : ∀ hash, ∀ cell ∈ cache hash, ∃ config ∈ visited,
    Represents cell.linearized matching.ops.length config.1.toFinset ∧ cell.state = config.2
  complete : ∀ config ∈ visited, ∃ cell, cell ∈ cache cell.linearized.hash ∧
    Represents cell.linearized matching.ops.length config.1.toFinset ∧ cell.state = config.2

/-- The checker is where the search is. `trail` is the stack, and `rest` what is left of the list
from the variable `entry` on. -/
structure Simulates (trail : List (Nat × State)) (rest : List Nat) (s : CheckState State)
    (b : Backtrack (List Nat × State) Nat) : Prop where
  config : b.config = (trailIds trail, s.state)
  calls : s.calls = trailCalls matching trail
  stack : b.stack = trailStack matching trail
  lifted : Lifted matching s.links trail
  bits : Represents s.linearized matching.ops.length (trailIds trail).toFinset
  entry : s.entry = rest.head?
  suffix : rest <:+ remaining entries (trailIds trail)
  rest_ne_nil : remaining entries (trailIds trail) ≠ [] → rest ≠ []
  todo : b.todo = rest.takeWhile (isCallAt entries)
  cache : CacheOf matching s.cache b.visited
  longest_length : s.longest.length = matching.ops.length
  longest : computePartial = true →
    LongestOf (b.closed.map Prod.fst) matching.ops.length s.longest

variable {model matching computePartial}

/-- Looking into the cache is looking for a configuration that counts as the same. -/
theorem cache_contains_iff (hequal : EqualLawful model)
    {cache : BitVec 64 → List (CacheEntry State)} {visited : List (List Nat × State)}
    (hcache : CacheOf matching cache visited) (cell : CacheEntry State)
    (config : List Nat × State)
    (hbits : Represents cell.linearized matching.ops.length config.1.toFinset)
    (hstate : cell.state = config.2) :
    cacheContains model cache cell = true ↔
      ∃ other ∈ visited, (memo matching hequal).same config other = true := by
  rw [cacheContains, List.any_eq_true]
  constructor
  · rintro ⟨elem, helem, hsame⟩
    obtain ⟨hbitset, hvalue⟩ := Bool.and_eq_true_iff.mp hsame
    obtain ⟨other, hother, hbits', hstate'⟩ := hcache.sound _ elem helem
    refine ⟨other, hother, Bool.and_eq_true_iff.mpr ⟨decide_eq_true ?_, ?_⟩⟩
    · exact (hbits.equals_iff hbits').mp hbitset
    · rwa [hstate, hstate'] at hvalue
  · rintro ⟨other, hother, hsame⟩
    obtain ⟨hids, hvalue⟩ := Bool.and_eq_true_iff.mp hsame
    obtain ⟨elem, helem, hbits', hstate'⟩ := hcache.complete other hother
    have hbitset := (hbits.equals_iff hbits').mpr (of_decide_eq_true hids)
    have heq : cell.linearized = elem.linearized := Bitset.equals_iff.mp hbitset
    refine ⟨elem, heq ▸ helem, Bool.and_eq_true_iff.mpr ⟨hbitset, ?_⟩⟩
    rwa [hstate, hstate']

/-- Putting a configuration into the cache. -/
theorem CacheOf.insert {cache : BitVec 64 → List (CacheEntry State)}
    {visited : List (List Nat × State)} (h : CacheOf matching cache visited)
    (cell : CacheEntry State) (config : List Nat × State)
    (hbits : Represents cell.linearized matching.ops.length config.1.toFinset)
    (hstate : cell.state = config.2) :
    CacheOf matching (Function.update cache cell.linearized.hash
      (cache cell.linearized.hash ++ [cell])) (visited ++ [config]) where
  sound := by
    intro hash elem helem
    by_cases hhash : hash = cell.linearized.hash
    · subst hhash
      rw [Function.update_self] at helem
      rcases List.mem_append.mp helem with hold | hnew
      · obtain ⟨other, hother, hspec⟩ := h.sound _ elem hold
        exact ⟨other, List.mem_append_left _ hother, hspec⟩
      · rw [List.mem_singleton.mp hnew]
        exact ⟨config, List.mem_append_right _ List.mem_cons_self, hbits, hstate⟩
    · rw [Function.update_of_ne hhash] at helem
      obtain ⟨other, hother, hspec⟩ := h.sound _ elem helem
      exact ⟨other, List.mem_append_left _ hother, hspec⟩
  complete := by
    intro other hother
    rcases List.mem_append.mp hother with hold | hnew
    · obtain ⟨elem, helem, hspec⟩ := h.complete other hold
      refine ⟨elem, ?_, hspec⟩
      by_cases hhash : elem.linearized.hash = cell.linearized.hash
      · rw [hhash, Function.update_self, ← hhash]
        exact List.mem_append_left _ helem
      · rwa [Function.update_of_ne hhash]
    · rw [List.mem_singleton.mp hnew]
      refine ⟨cell, ?_, hbits, hstate⟩
      rw [Function.update_self]
      exact List.mem_append_right _ List.mem_cons_self

end Simulation

/-! ## The rounds -/

section Rounds

variable {model : FilledModel State Input Output} {entries : List (Entry Input Output)}
  {matching : Matching entries} {computePartial : Bool} {trail : List (Nat × State)}
  {rest tail ids : List Nat} {links : Links Nat} {s : CheckState State}
  {b : Backtrack (List Nat × State) Nat} {id place : Nat}

/-- Before anything is lifted, everything is left. -/
theorem remaining_nil (entries : List (Entry Input Output)) :
    remaining entries [] = List.range' 0 entries.length := by
  rw [← List.range_eq_range']
  refine List.filter_eq_self.mpr fun place hplace => ?_
  rw [List.getElem?_eq_getElem (List.mem_range.mp hplace)]
  simp

/-- The variables before the loop. -/
theorem start_simulates (model : FilledModel State Input Output) (matching : Matching entries)
    (computePartial : Bool) :
    ∃ s, checkStart model entries = some s ∧
      Simulates matching computePartial [] (remaining entries []) s
        (Backtrack.start (space model matching)) := by
  obtain ⟨hroot, hlinked, hfresh⟩ := linked_link_from entries 0
  have hlength : length (makeLinkedEntries entries).links entries.length
      (makeLinkedEntries entries).root = some entries.length := by
    have hfuel : (List.range' 0 entries.length).length ≤ entries.length := by
      rw [List.length_range']
    have hcount := length_linked hlinked hfuel
    rw [List.length_range', ← hroot] at hcount
    exact hcount
  have hhalf : entries.length / 2 = matching.ops.length := by
    rw [matching.length_eq]
    omega
  have hhead : entries.length ∉ List.range' 0 entries.length := by simp
  rw [checkStart, hlength, Option.map_some, hhalf]
  refine ⟨_, rfl, rfl, rfl, rfl, ?_, ?_, ?_, List.suffix_rfl, id, rfl, ⟨by simp, ?_⟩, ?_, ?_⟩
  · show (insertBefore _ _ _).Linked none (entries.length :: remaining entries [])
    rw [remaining_nil]
    show (insertBefore _ _ (linkFrom entries 0).root).Linked none _
    rw [hroot]
    exact linked_insert_before hlinked (List.nodup_cons.mpr ⟨hhead, List.nodup_range'⟩)
      (hfresh _ hhead).1 (hfresh _ hhead).2
  · exact represents_new _
  · rw [remaining_nil]
    exact hroot
  · simp [Backtrack.start]
  · exact List.length_replicate
  · exact fun _ => longest_of_nil _

/-- A place of the list points to the one behind it. -/
theorem next_of_suffix (hlinked : links.Linked none (entries.length :: remaining entries ids))
    (hsuffix : place :: tail <:+ remaining entries ids) : links.next place = tail.head? := by
  obtain ⟨front, hfront⟩ := hsuffix
  rw [← hfront, ← List.cons_append] at hlinked
  exact hlinked.next_eq

/-- What is behind a place of the list. -/
theorem filter_of_suffix (hsuffix : place :: tail <:+ remaining entries ids) :
    (remaining entries ids).filter (place < ·) = tail := by
  obtain ⟨front, hfront⟩ := hsuffix
  have hsorted := remaining_sorted entries ids
  rw [← hfront] at hsorted ⊢
  exact filter_lt_of_sorted hsorted

/-- Behind a call there is at least its return. -/
theorem tail_ne_nil (matching : Matching entries) (hid : id < matching.ops.length)
    (hleft : id ∉ ids) (hsuffix : matching.callAt id :: tail <:+ remaining entries ids) :
    tail ≠ [] := by
  have hret := (mem_remaining_of_not_mem matching hid hleft).2
  have hmem : matching.retAt id ∈ (remaining entries ids).filter (matching.callAt id < ·) :=
    List.mem_filter.mpr ⟨hret, decide_eq_true (matching.call_lt_ret id hid)⟩
  rw [filter_of_suffix hsuffix] at hmem
  exact List.ne_nil_of_mem hmem

/-- The places behind a call are the end of the list. -/
theorem filter_suffix (matching : Matching entries) (hid : id < matching.ops.length)
    (hleft : id ∉ ids) :
    ∃ tail, matching.callAt id :: tail <:+ remaining entries ids ∧
      (remaining entries ids).filter (matching.callAt id < ·) = tail := by
  obtain ⟨front, tail, hsplit⟩ :=
    List.append_of_mem (mem_remaining_of_not_mem matching hid hleft).1
  exact ⟨tail, ⟨front, hsplit.symm⟩, filter_of_suffix ⟨front, hsplit.symm⟩⟩

/-- The branch for a call. -/
theorem try_call_eq (hid : id < matching.ops.length) {bits : Bitset}
    (hset : s.linearized.set id = some bits) :
    tryCall model entries (makeLinkedEntries entries).matchOf (matching.callAt id)
        (matching.retAt id) s =
      if (model.step s.state (matching.ops[id]).1 (matching.ops[id]).2).1 then
        if cacheContains model s.cache
            ⟨bits, (model.step s.state (matching.ops[id]).1 (matching.ops[id]).2).2⟩ then
          some { s with entry := s.links.next (matching.callAt id) }
        else
          (lift s.links (makeLinkedEntries entries).matchOf (matching.callAt id)).map fun links =>
            { s with
              cache := Function.update s.cache bits.hash (s.cache bits.hash ++
                [⟨bits, (model.step s.state (matching.ops[id]).1 (matching.ops[id]).2).2⟩])
              calls := s.calls ++ [⟨matching.callAt id, s.state⟩]
              state := (model.step s.state (matching.ops[id]).1 (matching.ops[id]).2).2
              linearized := bits
              links := links
              entry := links.next entries.length }
      else some { s with entry := s.links.next (matching.callAt id) } := by
  obtain ⟨call, hcall, hinput, hcallId⟩ := matching.call_entry _ _ (List.getElem?_eq_getElem hid)
  obtain ⟨ret, hret, houtput, -⟩ := matching.ret_entry _ _ (List.getElem?_eq_getElem hid)
  simp only [tryCall, hcall, hret, hinput, houtput, hcallId, hset, EntryValue.input?,
    EntryValue.output?, Option.bind_eq_bind, Option.bind_some]
  cases (model.step s.state (matching.ops[id]).1 (matching.ops[id]).2).1 with
  | false => rfl
  | true =>
      cases cacheContains model s.cache
        ⟨bits, (model.step s.state (matching.ops[id]).1 (matching.ops[id]).2).2⟩ with
      | true => rfl
      | false =>
          cases lift s.links (makeLinkedEntries entries).matchOf (matching.callAt id) <;> rfl

/-- Going on behind a call. -/
theorem Simulates.skip
    (h : Simulates matching computePartial trail (matching.callAt id :: tail) s b)
    (hid : id < matching.ops.length) (hleft : id ∉ trailIds trail) :
    Simulates matching computePartial trail tail
      { s with entry := s.links.next (matching.callAt id) }
      { b with todo := tail.takeWhile (isCallAt entries) } :=
  { h with
    entry := next_of_suffix h.lifted.linked h.suffix
    suffix := (List.suffix_cons _ _).trans h.suffix
    rest_ne_nil := fun _ => tail_ne_nil matching hid hleft h.suffix
    todo := rfl }

/-- Lifting a call. -/
theorem Simulates.push (model : FilledModel State Input Output)
    (h : Simulates matching computePartial trail (matching.callAt id :: tail) s b)
    (hid : id < matching.ops.length) (hleft : id ∉ trailIds trail) {bits : Bitset}
    (hbits : Represents bits matching.ops.length (trailIds trail ++ [id]).toFinset)
    (later : State) :
    ∃ links, lift s.links (makeLinkedEntries entries).matchOf (matching.callAt id) = some links ∧
      Simulates matching computePartial ((id, s.state) :: trail)
        (remaining entries (trailIds trail ++ [id]))
        { s with
          cache := Function.update s.cache bits.hash (s.cache bits.hash ++ [⟨bits, later⟩])
          calls := s.calls ++ [⟨matching.callAt id, s.state⟩]
          state := later
          linearized := bits
          links := links
          entry := links.next entries.length }
        ⟨(trailIds trail ++ [id], later),
          (space model matching).moves (trailIds trail ++ [id], later),
          (b.config, tail.takeWhile (isCallAt entries)) :: b.stack,
          b.visited ++ [(trailIds trail ++ [id], later)], b.closed⟩ := by
  obtain ⟨links, hlift, hlinked, hback⟩ := lift_spec matching h.lifted.linked hid hleft
  have hids := trail_ids_cons id s.state trail
  refine ⟨links, hlift, ?_⟩
  constructor
  · rw [hids]
  · rw [h.calls]
    simp [trailCalls]
  · rw [h.stack, h.config, trailStack, callsBehind, filter_of_suffix h.suffix]
  · exact ⟨hid, hleft, by rwa [hids], s.links, hback, h.lifted⟩
  · rwa [hids]
  · exact hlinked.2.1
  · rw [hids]
  · rw [hids]
    exact fun hne => hne
  · rfl
  · exact h.cache.insert ⟨bits, later⟩ _ hbits rfl
  · exact h.longest_length
  · exact h.longest

/-- What `longest` is when a configuration is given up. -/
theorem Simulates.longest_later (h : Simulates matching computePartial trail rest s b)
    (hnodup : (trailIds trail).Nodup) (hids : ∀ id ∈ trailIds trail, id < matching.ops.length) :
    ∃ longest, updateLongest entries computePartial s = some longest ∧
      longest.length = matching.ops.length ∧
      (computePartial = true →
        LongestOf ((b.closed ++ [b.config]).map Prod.fst) matching.ops.length longest) := by
  cases hpartial : computePartial with
  | false => exact ⟨s.longest, rfl, h.longest_length, by simp⟩
  | true =>
      obtain ⟨later, hlater, hlongest⟩ := longest_recorded (h.longest hpartial) hnodup hids
      refine ⟨later, ?_, hlongest.length, fun _ => ?_⟩
      · rw [updateLongest, if_pos rfl, h.calls, call_ids_trail hids]
        exact hlater
      · rw [List.map_append, List.map_singleton, h.config]
        exact hlongest

/-- Taking a call from the stack. -/
theorem Simulates.pop {before : State}
    (h : Simulates matching computePartial ((id, before) :: trail) rest s b)
    (hnodup : (trailIds ((id, before) :: trail)).Nodup)
    (hids : ∀ other ∈ trailIds ((id, before) :: trail), other < matching.ops.length) :
    ∃ s', takeBack entries (makeLinkedEntries entries).matchOf computePartial
        ⟨matching.callAt id, before⟩ s = some s' ∧
      Simulates matching computePartial trail
        ((remaining entries (trailIds trail)).filter (matching.callAt id < ·)) s'
        ⟨(trailIds trail, before), callsBehind entries (trailIds trail) (matching.callAt id),
          trailStack matching trail, b.visited, b.closed ++ [b.config]⟩ := by
  obtain ⟨hid, hleft, -, links, hunlift, hlifted⟩ := h.lifted
  obtain ⟨longest, hlongest, hlength, hbest⟩ := h.longest_later hnodup hids
  obtain ⟨bits, hclear, hbits⟩ := h.bits.clear hid
  obtain ⟨call, hcall, -, hcallId⟩ := matching.call_entry _ _ (List.getElem?_eq_getElem hid)
  obtain ⟨tail, hsuffix, hfilter⟩ := filter_suffix matching hid hleft
  have htake : takeBack entries (makeLinkedEntries entries).matchOf computePartial
      ⟨matching.callAt id, before⟩ s = some { s with
        longest := longest
        state := before
        linearized := bits
        calls := s.calls.dropLast
        links := links
        entry := links.next (matching.callAt id) } := by
    simp only [takeBack, hlongest, hcall, hcallId, hclear, hunlift, Option.bind_eq_bind,
      Option.bind_some]
    rfl
  refine ⟨_, htake, ?_⟩
  constructor
  · rfl
  · rw [h.calls]
    simp [trailCalls]
  · rfl
  · exact hlifted
  · rw [trail_ids_cons] at hbits
    have herase : (trailIds trail ++ [id]).toFinset.erase id = (trailIds trail).toFinset := by
      ext other
      simp only [Finset.mem_erase, List.mem_toFinset, List.mem_append, List.mem_singleton]
      constructor
      · rintro ⟨hne, hmem⟩
        exact hmem.resolve_right hne
      · intro hmem
        exact ⟨fun heq => hleft (heq ▸ hmem), Or.inl hmem⟩
    rwa [herase] at hbits
  · rw [hfilter]
    exact next_of_suffix hlifted.linked hsuffix
  · rw [hfilter]
    exact (List.suffix_cons _ _).trans hsuffix
  · intro _
    rw [hfilter]
    exact tail_ne_nil matching hid hleft hsuffix
  · rfl
  · exact h.cache
  · exact hlength
  · exact hbest

/-- Only the places of operations that are not on the stack are left. -/
theorem Simulates.entry_at (h : Simulates matching computePartial trail (place :: tail) s b) :
    ∃ entry, entries[place]? = some entry ∧ entry.id ∉ trailIds trail ∧
      entry.id < matching.ops.length := by
  have hmem : place ∈ remaining entries (trailIds trail) := h.suffix.subset List.mem_cons_self
  obtain ⟨entry, hentry, hleft⟩ := mem_remaining_iff.mp hmem
  exact ⟨entry, hentry, hleft, (matching.entry_cases place entry hentry).1⟩

/-- A round ends when nothing is left. -/
theorem round_of_goal (kill : Bool) (h : Simulates matching computePartial trail rest s b)
    (hids : ∀ id ∈ trailIds trail, id < matching.ops.length)
    (hgoal : remaining entries (trailIds trail) = []) :
    checkRound model entries (makeLinkedEntries entries).matchOf computePartial kill s =
      some (.done true (List.replicate matching.ops.length (some (trailIds trail)))) := by
  have hnext : s.links.next entries.length = none := by
    rw [h.lifted.linked.2.1, hgoal]
    rfl
  rw [checkRound, hnext, h.calls, call_ids_trail hids, h.longest_length]
  rfl

/-- There is a call at the place of a call. -/
theorem is_call_at_call (matching : Matching entries) (hid : id < matching.ops.length) :
    isCallAt entries (matching.callAt id) = true := by
  obtain ⟨call, hcall, hvalue, -⟩ := matching.call_entry _ _ (List.getElem?_eq_getElem hid)
  simp only [isCallAt, hcall, hvalue, is_call_call]

/-- The search is at a call: the model refuses it, or it was tried before, or it is lifted. -/
theorem round_of_call (hequal : EqualLawful model)
    (h : Simulates matching computePartial trail (matching.callAt id :: tail) s b)
    (hid : id < matching.ops.length) (hleft : id ∉ trailIds trail) :
    ∃ trail' rest' s' b', tryCall model entries (makeLinkedEntries entries).matchOf
        (matching.callAt id) (matching.retAt id) s = some s' ∧
      Simulates matching computePartial trail' rest' s' b' ∧
      SearchStep (space model matching) (memo matching hequal).same b b' := by
  obtain ⟨config, todo, stack, visited, closed⟩ := b
  obtain rfl : config = (trailIds trail, s.state) := h.config
  obtain rfl : todo = matching.callAt id :: tail.takeWhile (isCallAt entries) := by
    rw [← List.takeWhile_cons_of_pos (is_call_at_call matching hid)]
    exact h.todo
  obtain ⟨bits, hset, hbits⟩ := h.bits.set hid
  have hinsert : insert id (trailIds trail).toFinset = (trailIds trail ++ [id]).toFinset := by
    ext other
    simp
  rw [hinsert] at hbits
  have hnext := next_call model (trailIds trail) s.state hid
  rw [try_call_eq hid hset]
  cases hok : (model.step s.state (matching.ops[id]).1 (matching.ops[id]).2).1 with
  | false =>
      have hrefused :
          model.object.step s.state (matching.ops[id]).1 (matching.ops[id]).2 = none := by
        simp only [FilledModel.object, hok, Bool.false_eq_true, if_false]
      rw [hrefused, Option.map_none] at hnext
      refine ⟨trail, tail, _, _, rfl, h.skip hid hleft, .skip _ _ _ _ _ _ fun later hlater => ?_⟩
      rw [hnext] at hlater
      cases hlater
  | true =>
      have haccepted : model.object.step s.state (matching.ops[id]).1 (matching.ops[id]).2 =
          some (model.step s.state (matching.ops[id]).1 (matching.ops[id]).2).2 := by
        simp only [FilledModel.object, hok, if_true]
      generalize (model.step s.state (matching.ops[id]).1 (matching.ops[id]).2).2 = later at *
      rw [haccepted, Option.map_some] at hnext
      have hcontains := cache_contains_iff hequal h.cache ⟨bits, later⟩
        (trailIds trail ++ [id], later) hbits rfl
      cases hcache : cacheContains model s.cache ⟨bits, later⟩ with
      | true =>
          refine ⟨trail, tail, _, _, rfl, h.skip hid hleft,
            .skip _ _ _ _ _ _ fun found hfound => ?_⟩
          rw [hnext] at hfound
          rw [← Option.some.inj hfound]
          exact hcontains.mp hcache
      | false =>
          obtain ⟨links, hlift, hpush⟩ := h.push model hid hleft hbits later
          rw [hlift]
          refine ⟨_, _, _, _, rfl, hpush, .push _ _ _ _ _ _ _ hnext fun other hother => ?_⟩
          by_contra hsame
          have hfound := hcontains.mpr ⟨other, hother, by simpa using hsame⟩
          rw [hcache] at hfound
          cases hfound

/-- A round of the loop is a step of the search, until nothing is left to try. -/
theorem round_simulates (hequal : EqualLawful model)
    (h : Simulates matching computePartial trail rest s b)
    (hnodup : (trailIds trail).Nodup) (hids : ∀ id ∈ trailIds trail, id < matching.ops.length)
    (hgoal : remaining entries (trailIds trail) ≠ []) :
    (b.todo = [] ∧ b.stack = [] ∧
      checkRound model entries (makeLinkedEntries entries).matchOf computePartial false s =
        some (.done false s.longest)) ∨
    ∃ trail' rest' s' b',
      checkRound model entries (makeLinkedEntries entries).matchOf computePartial false s =
        some (.next s') ∧
      Simulates matching computePartial trail' rest' s' b' ∧
      SearchStep (space model matching) (memo matching hequal).same b b' := by
  obtain ⟨first, hfirst⟩ : ∃ first, s.links.next entries.length = some first := by
    rw [h.lifted.linked.2.1]
    exact Option.isSome_iff_exists.mp (List.isSome_head?.mpr hgoal)
  obtain ⟨place, tail, rfl⟩ := List.exists_cons_of_ne_nil (h.rest_ne_nil hgoal)
  obtain ⟨entry, hentry, hleft, hid⟩ := h.entry_at
  cases hcall : entry.value.isCall with
  | true =>
      obtain rfl := matching.call_at hentry hcall
      obtain ⟨trail', rest', s', b', htry, hsim, hstep⟩ := round_of_call hequal h hid hleft
      refine Or.inr ⟨trail', rest', s', b', ?_, hsim, hstep⟩
      rw [checkRound, hfirst, h.entry]
      simp only [List.head?_cons, Bool.false_eq_true, if_false, Option.bind_some,
        match_of_call matching hid, htry, Option.map_some]
  | false =>
      obtain rfl := matching.ret_at hentry hcall
      have htodo : b.todo = [] := by
        rw [h.todo, List.takeWhile_cons_of_neg]
        simp [isCallAt, hentry, hcall]
      cases trail with
      | nil =>
          refine Or.inl ⟨htodo, h.stack, ?_⟩
          rw [checkRound, hfirst, h.entry, h.calls]
          simp only [List.head?_cons, Bool.false_eq_true, if_false, Option.bind_some,
            match_of_ret matching hid, trailCalls, List.map_nil, List.reverse_nil,
            List.getLast?_nil]
      | cons call trail =>
          obtain ⟨id, before⟩ := call
          obtain ⟨s', htake, hsim⟩ := h.pop hnodup hids
          refine Or.inr ⟨trail, _, s', _, ?_, hsim, ?_⟩
          · rw [checkRound, hfirst, h.entry, h.calls]
            simp only [List.head?_cons, Bool.false_eq_true, if_false, Option.bind_some,
              match_of_ret matching hid, trailCalls, List.map_cons, List.reverse_cons,
              List.getLast?_concat, htake, Option.map_some]
          · obtain ⟨config, todo, stack, visited, closed⟩ := b
            obtain rfl : todo = [] := htodo
            obtain rfl : stack = _ := h.stack
            exact .pop _ _ _ _ _ _

end Rounds

end DistributedLabs.Porcupine
