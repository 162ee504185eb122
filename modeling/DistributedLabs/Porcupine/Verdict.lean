import DistributedLabs.Models.Kv
import DistributedLabs.Porcupine.Single

/-!
# The verdict of the checker

The search of `checkSingle` comes to an end after a bounded number of rounds. It returns true only
with a complete linearization. It returns false when it is killed, or when it has given up every
partial linearization; then there is no complete one, and `longest` has for every operation a
longest partial linearization with it.
-/

namespace DistributedLabs.Porcupine

variable {State Input Output : Type}

/-- For every operation the list has a longest partial linearization with it, if there is one. -/
structure LongestPartials (model : FilledModel State Input Output)
    {entries : List (Entry Input Output)} (matching : Matching entries)
    (longest : List (Option (List Nat))) : Prop where
  length : longest.length = matching.ops.length
  absent : ∀ id, longest[id]? = some none →
    ∀ ids state, PartialLinearization model matching ids state → id ∉ ids
  best : ∀ id best, longest[id]? = some (some best) →
    id ∈ best ∧ (∃ state, PartialLinearization model matching best state) ∧
      ∀ ids state, PartialLinearization model matching ids state → id ∈ ids →
        ids.length ≤ best.length

section Checking

variable {model : FilledModel State Input Output} (hequal : EqualLawful model)
  {entries : List (Entry Input Output)} (matching : Matching entries) (computePartial : Bool)

/-- The checker is in order, and has at most `fuel` rounds to go before the last one. -/
def Checking (fuel : Nat) (s : CheckState State) : Prop :=
  ∃ trail rest b, Simulates matching computePartial trail rest s b ∧
    Searching (memo matching hequal) b ∧
    variant (memo matching hequal) entries.length matching.ops.length b ≤ fuel

/-- The number of rounds that are enough. -/
def enoughRounds (entries : List (Entry Input Output)) (n : Nat) : Nat :=
  entries.length * (entries.length + 2) ^ (n + 1)

variable {hequal matching computePartial} {s : CheckState State} {fuel : Nat}

/-- A configuration has at most as many moves as there are entries. -/
theorem moves_length_le (model : FilledModel State Input Output) (matching : Matching entries)
    (config : List Nat × State) :
    ((space model matching).moves config).length ≤ entries.length := by
  have htake : ((space model matching).moves config).length ≤
      (remaining entries config.1).length := (List.takeWhile_sublist _).length_le
  have hfilter : (remaining entries config.1).length ≤ (List.range entries.length).length :=
    List.length_filter_le _ _
  rw [List.length_range] at hfilter
  omega

/-- A partial linearization has at most all operations. -/
theorem PartialLinearization.length_le {ids : List Nat} {state : State}
    (h : PartialLinearization model matching ids state) : ids.length ≤ matching.ops.length := by
  have hsubset : ids ⊆ List.range matching.ops.length :=
    fun id hid => List.mem_range.mpr (h.lt_length id hid)
  have hle := (h.nodup.subperm hsubset).length_le
  rwa [List.length_range] at hle

/-- The checker starts in order. -/
theorem checking_start (hequal : EqualLawful model) (matching : Matching entries)
    (computePartial : Bool) :
    ∃ s, checkStart model entries = some s ∧
      Checking hequal matching computePartial (enoughRounds entries matching.ops.length) s := by
  obtain ⟨s, hstart, hsim⟩ := start_simulates model matching computePartial
  refine ⟨s, hstart, [], _, _, hsim, searching_start, ?_⟩
  have hmoves := moves_length_le model matching (space model matching).root
  have hvariant : variant (memo matching hequal) entries.length matching.ops.length
      (Backtrack.start (space model matching)) =
        ((space model matching).moves (space model matching).root).length *
          (entries.length + 2) ^ (matching.ops.length + 1) := by
    simp only [variant, Backtrack.start, List.map_nil, List.sum_nil, Nat.add_zero, weight]
    rfl
  rw [hvariant]
  exact Nat.mul_le_mul_right _ hmoves

/-- When nothing is left to try, `longest` has the longest partial linearizations. -/
theorem longest_of_exhausted {trail : List (Nat × State)} {rest : List Nat}
    {b : Backtrack (List Nat × State) Nat}
    (hsim : Simulates matching true trail rest s b) (hsearch : Searching (memo matching hequal) b)
    (hgoal : (space model matching).goal b.config = false) (htodo : b.todo = [])
    (hstack : b.stack = []) : LongestPartials model matching s.longest := by
  have hlongest := hsim.longest rfl
  -- a partial linearization that is not empty was given up, up to the order of its operations
  have hclosed : ∀ ids state, PartialLinearization model matching ids state → ∀ id ∈ ids,
      ∃ seq ∈ b.closed.map Prod.fst, id ∈ seq ∧ ids.length = seq.length := by
    intro ids state h id hid
    have hreached : (space model matching).Reached (ids, state) := reached_iff.mpr h
    obtain ⟨⟨other, hother, hsame⟩, -⟩ := hsearch.exhausted hgoal htodo hstack hreached
    have hmem : id ∈ other.1 := (hsame.ids id).mp hid
    rcases List.mem_append.mp hother with hclosed | hroot
    · exact ⟨other.1, List.mem_map_of_mem hclosed, hmem, hsame.length⟩
    · rw [List.mem_singleton.mp hroot] at hmem
      cases hmem
  refine ⟨hlongest.length, fun id hid ids state h hmem => ?_, fun id best hbest => ?_⟩
  · obtain ⟨seq, hseq, hin, -⟩ := hclosed ids state h id hmem
    exact hlongest.absent id hid seq hseq hin
  · obtain ⟨hin, hid, hmax⟩ := hlongest.best id best hbest
    obtain ⟨config, hconfig, rfl⟩ := List.mem_map.mp hin
    refine ⟨hid, ⟨config.2, reached_iff.mp (hsearch.closed_reached config hconfig)⟩, ?_⟩
    intro ids state h hmem
    obtain ⟨seq, hseq, hin, hlength⟩ := hclosed ids state h id hmem
    rw [hlength]
    exact hmax seq hseq hin

/-- What a round of the loop comes to. -/
theorem Checking.round (h : Checking hequal matching computePartial fuel s) :
    (∃ ids, CompleteLinearization model matching ids ∧ ∀ kill,
      checkRound model entries (makeLinkedEntries entries).matchOf computePartial kill s =
        some (.done true (List.replicate matching.ops.length (some ids)))) ∨
    checkRound model entries (makeLinkedEntries entries).matchOf computePartial true s =
        some (.done false s.longest) ∧
      ((checkRound model entries (makeLinkedEntries entries).matchOf computePartial false s =
          some (.done false s.longest) ∧
        (∀ ids, ¬ CompleteLinearization model matching ids) ∧
        (computePartial = true → LongestPartials model matching s.longest)) ∨
      ∃ s', checkRound model entries (makeLinkedEntries entries).matchOf computePartial false s =
          some (.next s') ∧
        0 < fuel ∧ Checking hequal matching computePartial (fuel - 1) s') := by
  obtain ⟨trail, rest, b, hsim, hsearch, hfuel⟩ := h
  have hreached := hsearch.reached
  have hpartial : PartialLinearization model matching (trailIds trail) s.state := by
    rw [hsim.config] at hreached
    exact reached_iff.mp hreached
  by_cases hleft : remaining entries (trailIds trail) = []
  · refine Or.inl ⟨trailIds trail, ⟨⟨s.state, hpartial⟩, ?_⟩, fun kill => ?_⟩
    · exact (remaining_eq_nil_iff matching).mp hleft
    · exact round_of_goal kill hsim hpartial.lt_length hleft
  · have hgoal : (space model matching).goal b.config = false := by
      rw [hsim.config]
      simpa [space] using hleft
    obtain ⟨first, hfirst⟩ : ∃ first, s.links.next entries.length = some first := by
      rw [hsim.lifted.linked.2.1]
      exact Option.isSome_iff_exists.mp (List.isSome_head?.mpr hleft)
    refine Or.inr ⟨by rw [checkRound, hfirst]; rfl, ?_⟩
    rcases round_simulates hequal hsim hpartial.nodup hpartial.lt_length hleft with
      ⟨htodo, hstack, hround⟩ | ⟨trail', rest', s', b', hround, hsim', hstep⟩
    · refine Or.inl ⟨hround, fun ids hcomplete => ?_, fun hcp => ?_⟩
      · obtain ⟨state, h⟩ := hcomplete.partly
        have hreached : (space model matching).Reached (ids, state) := reached_iff.mpr h
        have hnot := (hsearch.exhausted hgoal htodo hstack hreached).2
        have hnil := (remaining_eq_nil_iff matching).mpr hcomplete.complete
        simp [space, hnil] at hnot
      · subst hcp
        exact longest_of_exhausted hsim hsearch hgoal htodo hstack
    · have hlt : variant (memo matching hequal) entries.length matching.ops.length b' <
          variant (memo matching hequal) entries.length matching.ops.length b :=
        hsearch.variant_lt (fun config _ => moves_length_le model matching config)
          (fun config hconfig => (reached_iff.mp hconfig).length_le) hstep
      exact Or.inr ⟨s', hround, by omega, trail', rest', b', hsim', hsearch.step hgoal hstep,
        by omega⟩

/-- The loop comes to its end. -/
theorem Checking.rounds (h : Checking hequal matching computePartial fuel s) {kills : List Bool}
    (hfuel : fuel < kills.length) :
    ∃ ok longest, checkRounds model entries (makeLinkedEntries entries).matchOf computePartial kills
        s = some (.done ok longest) ∧
      (ok = true → ∃ ids, CompleteLinearization model matching ids ∧
        longest = List.replicate matching.ops.length (some ids)) ∧
      (ok = false → true ∈ kills ∨ (∀ ids, ¬ CompleteLinearization model matching ids) ∧
        (computePartial = true → LongestPartials model matching longest)) := by
  induction kills generalizing fuel s with
  | nil => simp at hfuel
  | cons kill kills ih =>
      rcases h.round with ⟨ids, hcomplete, hround⟩ | ⟨hkilled, hround⟩
      · refine ⟨true, _, ?_, fun _ => ⟨ids, hcomplete, rfl⟩, by simp⟩
        rw [checkRounds, hround kill]
        rfl
      · cases kill with
        | true =>
            refine ⟨false, s.longest, ?_, by simp, fun _ => Or.inl List.mem_cons_self⟩
            rw [checkRounds, hkilled]
            rfl
        | false =>
            rcases hround with ⟨hround, hnone, hlongest⟩ | ⟨s', hround, hpos, hnext⟩
            · refine ⟨false, s.longest, ?_, by simp, fun _ => Or.inr ⟨hnone, hlongest⟩⟩
              rw [checkRounds, hround]
              rfl
            · obtain ⟨ok, longest, hdone, htrue, hfalse⟩ := ih hnext (by
                rw [List.length_cons] at hfuel
                omega)
              refine ⟨ok, longest, ?_, htrue, fun hok => ?_⟩
              · rw [checkRounds, hround]
                exact hdone
              · exact (hfalse hok).imp (List.mem_cons_of_mem _) id

end Checking

/-! ## Histories -/

/-- The checker comes to its end without a nil pointer. What it accepts is linearizable, also when
it is killed; if it is not killed, it accepts all linearizable histories. -/
theorem check_single_exact (model : FilledModel State Input Output) (hequal : EqualLawful model)
    (sort : List (Entry Input Output) → List (Entry Input Output)) (hsort : SortsByTime sort)
    (history : List (Operation Input Output)) (htimes : ∀ op ∈ history, op.call ≤ op.ret)
    (computePartial : Bool) (kills : List Bool)
    (hrounds : enoughRounds (makeEntries sort history) history.length < kills.length) :
    ∃ ok longest,
      checkSingle model (makeEntries sort history) computePartial kills =
        some (.done ok longest) ∧
      (ok = true → Linearizable model.object (history.map Completed.record)) ∧
      (true ∉ kills → Linearizable model.object (history.map Completed.record) → ok = true) := by
  have hlength : (makeEntriesMatching hsort history htimes).ops.length = history.length :=
    List.length_map _
  obtain ⟨s, hstart, hchecking⟩ := checking_start hequal (makeEntriesMatching hsort history htimes)
    computePartial
  rw [hlength] at hchecking
  obtain ⟨ok, longest, hdone, htrue, hfalse⟩ := hchecking.rounds hrounds
  refine ⟨ok, longest, ?_, fun hok => ?_, fun hkills hlin => ?_⟩
  · rw [checkSingle, hstart]
    exact hdone
  · obtain ⟨ids, hcomplete, -⟩ := htrue hok
    rw [linearizable_iff_orderable, orderable_iff_complete hsort htimes]
    exact ⟨ids, hcomplete⟩
  · by_contra hok
    obtain ⟨ids, hcomplete⟩ :=
      (orderable_iff_complete hsort htimes).mp (linearizable_iff_orderable.mp hlin)
    exact ((hfalse (by simpa using hok)).resolve_left hkills).1 ids hcomplete

/-- `KvModel` as it is given to the checker. -/
def kvPorcupine (range : List GoString → List GoString) :
    Model GoString Models.KvInput Models.KvOutput where
  partition := some (Models.partition range)
  partitionEvent := none
  init := []
  step := Models.kvStep
  equal := none

/-- A get that overlaps a put may return the value before it. -/
theorem check_single_exact_overlapping :
    ∃ longest, checkSingle (fillDefault (kvPorcupine id))
      (makeEntries insertByTime [Models.putA, Models.getA]) false (List.replicate 865 false) =
        some (.done true longest) := by
  obtain ⟨ok, longest, hdone, -, hok⟩ := check_single_exact (fillDefault (kvPorcupine id))
    (equal_lawful_default _ rfl) insertByTime sorts_by_time_insert [Models.putA, Models.getA]
    (by decide) false (List.replicate 865 false) (by
      rw [enoughRounds, length_make_entries sorts_by_time_insert, List.length_replicate]
      decide)
  have hlin : Linearizable (fillDefault (kvPorcupine id)).object
      ([Models.putA, Models.getA].map Completed.record) :=
    linearizable_iff_orderable.mpr ⟨[Models.getA, Models.putA], List.Perm.swap _ _ _,
      by unfold RealTime; decide, rfl⟩
  obtain rfl := hok (fun hmem => by cases List.eq_of_mem_replicate hmem) hlin
  exact ⟨longest, hdone⟩

/-- What the checker returns beside its verdict. If there is a complete linearization, it gives one
for every operation; otherwise it gives for every operation a longest partial linearization with
it. -/
theorem longest_partials_exact (model : FilledModel State Input Output) (hequal : EqualLawful model)
    (entries : List (Entry Input Output)) (matching : Matching entries) (rounds : Nat)
    (hrounds : enoughRounds entries matching.ops.length < rounds) :
    ∃ ok longest,
      checkSingle model entries true (List.replicate rounds false) = some (.done ok longest) ∧
      ((∃ ids, CompleteLinearization model matching ids) → ok = true) ∧
      (ok = true → ∃ ids, CompleteLinearization model matching ids ∧
        longest = List.replicate matching.ops.length (some ids)) ∧
      (ok = false → LongestPartials model matching longest) := by
  obtain ⟨s, hstart, hchecking⟩ := checking_start hequal matching true
  obtain ⟨ok, longest, hdone, htrue, hfalse⟩ :=
    hchecking.rounds (by rwa [List.length_replicate] : _ < (List.replicate rounds false).length)
  have hnone : ok = false → (∀ ids, ¬ CompleteLinearization model matching ids) ∧
      LongestPartials model matching longest := by
    intro hok
    obtain ⟨hnot, hlongest⟩ := (hfalse hok).resolve_left fun hmem => by
      cases List.eq_of_mem_replicate hmem
    exact ⟨hnot, hlongest rfl⟩
  refine ⟨ok, longest, ?_, fun ⟨ids, hcomplete⟩ => ?_, htrue, fun hok => (hnone hok).2⟩
  · rw [checkSingle, hstart]
    exact hdone
  · by_contra hok
    exact (hnone (by simpa using hok)).1 ids hcomplete

/-- A get that returns a value which was never written. -/
def getStale : Models.Operation := ⟨1, ⟨0, ascii ['a'], []⟩, 4, ⟨ascii ['y']⟩, 5⟩

/-- Whether the loop has come to its end with this result. -/
def Round.isDone (ok : Bool) (longest : List (Option (List Nat))) : Round State → Bool
  | .done ok' longest' => ok' = ok && longest' = longest
  | .next _ => false

/-- For a put and such a get, the put alone is the longest partial linearization with the put, and
there is none with the get. -/
theorem longest_partials_exact_stale :
    checkSingle (fillDefault (kvPorcupine id))
        (makeEntries insertByTime [Models.putA, getStale]) true (List.replicate 865 false) =
          some (.done false [some [0], none]) ∧
      LongestPartials (fillDefault (kvPorcupine id))
        (makeEntriesMatching sorts_by_time_insert [Models.putA, getStale] (by decide))
        [some [0], none] := by
  obtain ⟨ok, longest, hdone, -, -, hlongest⟩ := longest_partials_exact
    (fillDefault (kvPorcupine id)) (equal_lawful_default _ rfl) _
    (makeEntriesMatching sorts_by_time_insert [Models.putA, getStale] (by decide)) 865 (by
      rw [enoughRounds, length_make_entries sorts_by_time_insert]
      decide)
  have hfound : (checkSingle (fillDefault (kvPorcupine id))
      (makeEntries insertByTime [Models.putA, getStale]) true (List.replicate 865 false)).any
        (Round.isDone false [some [0], none]) = true := by
    decide +kernel
  obtain ⟨rfl, rfl⟩ : ok = false ∧ longest = [some [0], none] := by
    rw [hdone] at hfound
    simpa [Round.isDone] using hfound
  exact ⟨hdone, hlongest rfl⟩

end DistributedLabs.Porcupine
