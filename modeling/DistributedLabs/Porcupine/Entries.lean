import DistributedLabs.Library.Locality
import Mathlib.Data.List.Nodup
import Mathlib.Data.List.Sort

/-!
# Histories as lists of entries

`porcupine/checker.go` checks a history as the list of its calls and returns, in the order of their
times; at the same time calls come before returns. `Matching` is what the checker relies on: every
operation has one call and, later in the list, one return. `makeEntries` gives such a list for
operations that do not return before they are called, and an operation returns before another one is
called exactly when its entry is before the other, `ret_before_call_iff`.
-/

namespace DistributedLabs.Porcupine

variable {Input Output : Type}

/-- An operation with its client, input, call time, output and return time. -/
abbrev Operation (Input Output : Type) := Completed Int Int Input Output

/-- The kind of an entry together with its value: a call has an input and a return an output. -/
inductive EntryValue (Input Output : Type) where
  | call (input : Input)
  | ret (output : Output)

/-- Whether the entry is a call. -/
def EntryValue.isCall : EntryValue Input Output → Bool
  | .call _ => true
  | .ret _ => false

@[simp] theorem is_call_call (input : Input) :
    (.call input : EntryValue Input Output).isCall = true := rfl

@[simp] theorem is_call_ret (output : Output) :
    (.ret output : EntryValue Input Output).isCall = false := rfl

/-- A call or a return as the user gives it. -/
structure Event (Id Input Output : Type) where
  clientId : Int
  value : EntryValue Input Output
  id : Id

/-- A call or a return of the history. -/
structure Entry (Input Output : Type) where
  value : EntryValue Input Output
  id : Nat
  time : Int
  clientId : Int

/-- `byTime.Less`. -/
def byTimeLess (a b : Entry Input Output) : Bool :=
  if a.time ≠ b.time then a.time < b.time else a.value.isCall && !b.value.isCall

/-- The two entries of an operation. -/
def operationEntries (elem : Operation Input Output) (id : Nat) : List (Entry Input Output) :=
  [⟨.call elem.input, id, elem.call, elem.client⟩, ⟨.ret elem.output, id, elem.ret, elem.client⟩]

/-- The entries of a history in order of time. `sort` is `sort.Sort(byTime(·))`. -/
def makeEntries (sort : List (Entry Input Output) → List (Entry Input Output))
    (history : List (Operation Input Output)) : List (Entry Input Output) :=
  sort (history.zipIdx.flatMap fun elem => operationEntries elem.1 elem.2)

/-- What `sort.Sort` promises: the same entries, and none before one that is less. -/
structure SortsByTime (sort : List (Entry Input Output) → List (Entry Input Output)) : Prop where
  perm : ∀ entries, (sort entries).Perm entries
  sorted : ∀ entries, (sort entries).Pairwise fun first second => byTimeLess second first = false

/-- A sort that keeps this promise. -/
def insertByTime (entries : List (Entry Input Output)) : List (Entry Input Output) :=
  entries.insertionSort fun first second => byTimeLess second first = false

/-- An entry is less when its time is earlier, or when it is a call and the other one a return of
the same time. -/
theorem by_time_less_iff (a b : Entry Input Output) : byTimeLess a b = true ↔
    a.time < b.time ∨ a.time = b.time ∧ a.value.isCall = true ∧ b.value.isCall = false := by
  unfold byTimeLess
  split
  · rename_i hne
    rw [decide_eq_true_iff]
    omega
  · rename_i heq
    have htime : a.time = b.time := by omega
    simp [htime]

/-- Not being less is transitive. -/
theorem not_less_trans {a b c : Entry Input Output} (hab : ¬ byTimeLess b a = true)
    (hbc : ¬ byTimeLess c b = true) : ¬ byTimeLess c a = true := by
  rw [by_time_less_iff] at hab hbc ⊢
  rintro (hlt | ⟨htime, hcall, hret⟩)
  · omega
  · have hfirst : b.time = a.time := by omega
    have hsecond : c.time = b.time := by omega
    cases hb : b.value.isCall with
    | true => exact hab (Or.inr ⟨hfirst, hb, hret⟩)
    | false => exact hbc (Or.inr ⟨hsecond, hcall, hb⟩)

/-- Insertion sort sorts by time. -/
theorem sorts_by_time_insert : SortsByTime (@insertByTime Input Output) where
  perm := fun entries => List.perm_insertionSort _ entries
  sorted := by
    intro entries
    have : Std.Total fun first second : Entry Input Output => byTimeLess second first = false := by
      refine ⟨fun a b => ?_⟩
      rw [← Bool.not_eq_true, ← Bool.not_eq_true, by_time_less_iff, by_time_less_iff]
      cases a.value.isCall <;> simp <;> omega
    have : IsTrans (Entry Input Output) fun first second => byTimeLess second first = false := by
      refine ⟨fun a b c hab hbc => ?_⟩
      rw [← Bool.not_eq_true] at hab hbc ⊢
      exact not_less_trans hab hbc
    exact List.pairwise_insertionSort _ entries

/-! ## Matched calls and returns -/

/-- The operations of a list of entries, with the positions of their calls and returns. -/
structure Matching (entries : List (Entry Input Output)) where
  ops : List (Input × Output)
  callAt : Nat → Nat
  retAt : Nat → Nat
  length_eq : entries.length = 2 * ops.length
  call_lt_ret : ∀ id < ops.length, callAt id < retAt id
  call_entry : ∀ id op, ops[id]? = some op →
    ∃ entry, entries[callAt id]? = some entry ∧ entry.value = .call op.1 ∧ entry.id = id
  ret_entry : ∀ id op, ops[id]? = some op →
    ∃ entry, entries[retAt id]? = some entry ∧ entry.value = .ret op.2 ∧ entry.id = id
  entry_cases : ∀ place entry, entries[place]? = some entry → entry.id < ops.length ∧
    (place = callAt entry.id ∨ place = retAt entry.id)

section Matching

variable {entries : List (Entry Input Output)} (matching : Matching entries)
  {entry : Entry Input Output} {place id : Nat}

/-- A call is at the place of its operation's call. -/
theorem Matching.call_at (hentry : entries[place]? = some entry)
    (hcall : entry.value.isCall = true) : place = matching.callAt entry.id := by
  obtain ⟨hid, hcases⟩ := matching.entry_cases place entry hentry
  refine hcases.resolve_right fun hret => ?_
  obtain ⟨other, hother, hvalue, -⟩ := matching.ret_entry _ _ (List.getElem?_eq_getElem hid)
  rw [← hret, hentry] at hother
  rw [Option.some.inj hother, hvalue] at hcall
  cases hcall

/-- A return is at the place of its operation's return. -/
theorem Matching.ret_at (hentry : entries[place]? = some entry)
    (hcall : entry.value.isCall = false) : place = matching.retAt entry.id := by
  obtain ⟨hid, hcases⟩ := matching.entry_cases place entry hentry
  refine hcases.resolve_left fun hplace => ?_
  obtain ⟨other, hother, hvalue, -⟩ := matching.call_entry _ _ (List.getElem?_eq_getElem hid)
  rw [← hplace, hentry] at hother
  rw [Option.some.inj hother, hvalue] at hcall
  cases hcall

/-- The entries of an operation are its call and its return. -/
theorem Matching.id_eq_iff (hentry : entries[place]? = some entry)
    (hid : id < matching.ops.length) :
    entry.id = id ↔ place = matching.callAt id ∨ place = matching.retAt id := by
  constructor
  · rintro rfl
    exact (matching.entry_cases place entry hentry).2
  · rintro (rfl | rfl)
    · obtain ⟨call, hcall, -, hcallId⟩ := matching.call_entry _ _ (List.getElem?_eq_getElem hid)
      rw [← hcallId, Option.some.inj (hentry.symm.trans hcall)]
    · obtain ⟨ret, hret, -, hretId⟩ := matching.ret_entry _ _ (List.getElem?_eq_getElem hid)
      rw [← hretId, Option.some.inj (hentry.symm.trans hret)]

end Matching

/-- What tells the entries of a history apart. -/
def Entry.key (entry : Entry Input Output) : Bool × Nat := (entry.value.isCall, entry.id)

/-- The place of the call or the return of an operation. -/
def placeOf (entries : List (Entry Input Output)) (isCall : Bool) (id : Nat) : Nat :=
  entries.findIdx fun entry => entry.key = (isCall, id)

section Places

variable {entries : List (Entry Input Output)} {entry : Entry Input Output} {place : Nat}

/-- An entry is at the place of its key. -/
theorem place_of_key (hkeys : (entries.map Entry.key).Nodup)
    (hentry : entries[place]? = some entry) :
    placeOf entries entry.value.isCall entry.id = place := by
  obtain ⟨hplace, hget⟩ := List.getElem?_eq_some_iff.mp hentry
  have hfound : placeOf entries entry.value.isCall entry.id < entries.length :=
    List.findIdx_lt_length_of_exists ⟨entry, List.mem_of_getElem? hentry, by simp [Entry.key]⟩
  have hkey : (entries[placeOf entries entry.value.isCall entry.id]).key = entry.key := by
    have hspec := List.findIdx_getElem (w := hfound)
    exact of_decide_eq_true hspec
  have hmap : (entries.map Entry.key)[placeOf entries entry.value.isCall entry.id]? =
      (entries.map Entry.key)[place]? := by
    rw [List.getElem?_map, List.getElem?_map, hentry, List.getElem?_eq_getElem hfound,
      Option.map_some, Option.map_some, hkey]
  exact (List.getElem?_inj (by rwa [List.length_map]) hkeys).mp hmap

end Places

section MakeEntries

variable {sort : List (Entry Input Output) → List (Entry Input Output)}
  {history : List (Operation Input Output)} {entry : Entry Input Output}
  {op : Operation Input Output} {id other : Nat}

/-- The entries are the calls and the returns of the operations. -/
theorem mem_make_entries_iff (hsort : SortsByTime sort) :
    entry ∈ makeEntries sort history ↔
      ∃ op id, history[id]? = some op ∧ entry ∈ operationEntries op id := by
  rw [makeEntries, (hsort.perm _).mem_iff, List.mem_flatMap]
  constructor
  · intro h
    obtain ⟨⟨op, id⟩, hmem, hentry⟩ := h
    exact ⟨op, id, List.mem_zipIdx_iff_getElem?.mp hmem, hentry⟩
  · intro h
    obtain ⟨op, id, hop, hentry⟩ := h
    exact ⟨(op, id), List.mem_zipIdx_iff_getElem?.mpr hop, hentry⟩

/-- The entries have different keys. -/
theorem nodup_keys_make_entries (hsort : SortsByTime sort)
    (history : List (Operation Input Output)) :
    ((makeEntries sort history).map Entry.key).Nodup := by
  rw [makeEntries, ((hsort.perm _).map Entry.key).nodup_iff, List.map_flatMap]
  have hkeys : (history.zipIdx.flatMap fun elem => (operationEntries elem.1 elem.2).map Entry.key) =
      (List.range' 0 history.length).flatMap fun id => [(true, id), (false, id)] := by
    rw [← List.zipIdx_map_snd 0 history, List.flatMap_map]
    rfl
  rw [hkeys, List.nodup_flatMap]
  refine ⟨fun id _ => by simp, ?_⟩
  refine List.Pairwise.imp (fun {first second} hne => ?_) List.nodup_range'
  simp only [Function.onFun, List.disjoint_cons_left, List.mem_cons, Prod.mk.injEq, true_and,
    Bool.true_eq_false, Bool.false_eq_true, false_and, false_or, List.not_mem_nil, or_false,
    List.disjoint_nil_left, and_true]
  exact ⟨hne, hne⟩

/-- Every operation has two entries. -/
theorem length_make_entries (hsort : SortsByTime sort) (history : List (Operation Input Output)) :
    (makeEntries sort history).length = 2 * history.length := by
  rw [makeEntries, (hsort.perm _).length_eq, List.length_flatMap]
  simp [operationEntries, Nat.mul_comm]

/-- The call of an operation is at its place. -/
theorem call_place (hsort : SortsByTime sort) (hop : history[id]? = some op) :
    (makeEntries sort history)[placeOf (makeEntries sort history) true id]? =
      some ⟨.call op.input, id, op.call, op.client⟩ := by
  have hmem : (⟨.call op.input, id, op.call, op.client⟩ : Entry Input Output) ∈
      makeEntries sort history :=
    (mem_make_entries_iff hsort).mpr ⟨op, id, hop, List.mem_cons_self⟩
  obtain ⟨place, hplace⟩ := List.mem_iff_getElem?.mp hmem
  have heq := place_of_key (nodup_keys_make_entries hsort history) hplace
  rw [show placeOf (makeEntries sort history) true id = place from heq]
  exact hplace

/-- The return of an operation is at its place. -/
theorem ret_place (hsort : SortsByTime sort) (hop : history[id]? = some op) :
    (makeEntries sort history)[placeOf (makeEntries sort history) false id]? =
      some ⟨.ret op.output, id, op.ret, op.client⟩ := by
  have hmem : (⟨.ret op.output, id, op.ret, op.client⟩ : Entry Input Output) ∈
      makeEntries sort history :=
    (mem_make_entries_iff hsort).mpr ⟨op, id, hop, List.mem_cons_of_mem _ List.mem_cons_self⟩
  obtain ⟨place, hplace⟩ := List.mem_iff_getElem?.mp hmem
  have heq := place_of_key (nodup_keys_make_entries hsort history) hplace
  rw [show placeOf (makeEntries sort history) false id = place from heq]
  exact hplace

/-- Of two entries, the one that is less has the smaller place. -/
theorem place_lt_of_less (hsort : SortsByTime sort) {first second : Entry Input Output}
    {place place' : Nat} (hplace : (makeEntries sort history)[place]? = some first)
    (hplace' : (makeEntries sort history)[place']? = some second)
    (hless : byTimeLess first second = true) : place < place' := by
  obtain ⟨hlt, hget⟩ := List.getElem?_eq_some_iff.mp hplace
  obtain ⟨hlt', hget'⟩ := List.getElem?_eq_some_iff.mp hplace'
  by_contra hge
  rcases Nat.lt_or_eq_of_le (Nat.le_of_not_lt hge) with hafter | heq
  · have hsorted := List.pairwise_iff_getElem.mp (hsort.sorted _) place' place hlt' hlt hafter
    have hnot : byTimeLess first second = false := by
      rw [← hget, ← hget']
      exact hsorted
    rw [hless] at hnot
    cases hnot
  · subst heq
    obtain rfl : first = second := hget.symm.trans hget'
    simp [byTimeLess] at hless

/-- An operation returns before another one is called exactly when its return is before the call in
the list. -/
theorem ret_before_call_iff (hsort : SortsByTime sort) {op' : Operation Input Output}
    (hop : history[id]? = some op) (hop' : history[other]? = some op') :
    placeOf (makeEntries sort history) false id < placeOf (makeEntries sort history) true other ↔
      op.ret < op'.call := by
  constructor
  · intro hlt
    by_contra hge
    have hless : byTimeLess (⟨.call op'.input, other, op'.call, op'.client⟩ : Entry Input Output)
        ⟨.ret op.output, id, op.ret, op.client⟩ = true := by
      simp only [byTimeLess, EntryValue.isCall]
      split
      · exact decide_eq_true (by omega)
      · rfl
    have hplace := place_lt_of_less hsort (call_place hsort hop') (ret_place hsort hop) hless
    omega
  · intro hlt
    refine place_lt_of_less hsort (ret_place hsort hop) (call_place hsort hop') ?_
    simp only [byTimeLess]
    rw [if_pos (by omega)]
    exact decide_eq_true hlt

/-- The operations of a history are matched in its entries. -/
def makeEntriesMatching (hsort : SortsByTime sort) (history : List (Operation Input Output))
    (htimes : ∀ op ∈ history, op.call ≤ op.ret) : Matching (makeEntries sort history) where
  ops := history.map fun op => (op.input, op.output)
  callAt := placeOf (makeEntries sort history) true
  retAt := placeOf (makeEntries sort history) false
  length_eq := by rw [length_make_entries hsort, List.length_map]
  call_lt_ret := by
    intro id hid
    rw [List.length_map] at hid
    have hop := List.getElem?_eq_getElem hid
    refine place_lt_of_less hsort (call_place hsort hop) (ret_place hsort hop) ?_
    have hle := htimes _ (List.getElem_mem hid)
    simp only [byTimeLess, EntryValue.isCall]
    split
    · exact decide_eq_true (by omega)
    · rfl
  call_entry := by
    intro id pair hpair
    rw [List.getElem?_map] at hpair
    obtain ⟨op, hop, rfl⟩ := Option.map_eq_some_iff.mp hpair
    exact ⟨_, call_place hsort hop, rfl, rfl⟩
  ret_entry := by
    intro id pair hpair
    rw [List.getElem?_map] at hpair
    obtain ⟨op, hop, rfl⟩ := Option.map_eq_some_iff.mp hpair
    exact ⟨_, ret_place hsort hop, rfl, rfl⟩
  entry_cases := by
    intro place entry hentry
    have hplace := place_of_key (nodup_keys_make_entries hsort history) hentry
    obtain ⟨op, id, hop, hmem⟩ := (mem_make_entries_iff hsort).mp (List.mem_of_getElem? hentry)
    have hid := (List.getElem?_eq_some_iff.mp hop).1
    rcases List.mem_pair.mp hmem with rfl | rfl
    · exact ⟨by simpa using hid, Or.inl hplace.symm⟩
    · exact ⟨by simpa using hid, Or.inr hplace.symm⟩

end MakeEntries

end DistributedLabs.Porcupine
