import DistributedLabs.Library.Linearization
import Mathlib.Data.List.Dedup
import Mathlib.Data.List.Perm.Basic
import Mathlib.Order.Defs.LinearOrder
import Mathlib.Order.Lattice

/-!
# Locality of linearizability

A history in which every operation has returned is linearizable exactly when its operations can be
put in an order that the object allows and that keeps real time, `linearizable_iff_orderable`.

When the object is a map whose keys do not depend on each other, `SequentialObject.pointwise`, it is
enough to order the operations of each key, `orderable_pointwise_iff`. The orders of the keys are
merged by linearization points: along the order of a key, the point of an operation is the latest
call so far. It lies between the call and the return of the operation, and a stable sort by the
points keeps the order of each key.
-/

namespace DistributedLabs

/-- An operation that has returned. -/
structure Completed (Client Time Input Output : Type) where
  client : Client
  input : Input
  call : Time
  output : Output
  ret : Time

variable {Client Time State Input Output Key : Type}

/-- The record of a completed operation. -/
def Completed.record (op : Completed Client Time Input Output) :
    OpRecord Client Time Input Output :=
  ⟨op.client, op.input, op.call, some (op.ret, op.output)⟩

/-- Perform completed operations in order from a state. -/
def SequentialObject.perform (object : SequentialObject State Input Output) :
    State → List (Completed Client Time Input Output) → Option State
  | state, [] => some state
  | state, op :: rest =>
      (object.step state op.input op.output).bind fun next => object.perform next rest

section RealTime

variable [LinearOrder Time]

/-- No operation stands before one that returned before its call. -/
def RealTime (order : List (Completed Client Time Input Output)) : Prop :=
  order.Pairwise fun first second => ¬ second.ret < first.call

/-- The history can be put in an order that the object allows and that keeps real time. -/
def Orderable (object : SequentialObject State Input Output)
    (history : List (Completed Client Time Input Output)) : Prop :=
  ∃ order, order.Perm history ∧ RealTime order ∧ (object.perform object.init order).isSome

/-! ## Orders and linearizations -/

/-- The entry of an operation, given with its index. -/
def entryAt (op : Completed Client Time Input Output × Nat) : Entry Input Output :=
  ⟨op.2, op.1.input, op.1.output⟩

variable {object : SequentialObject State Input Output}
  {history : List (Completed Client Time Input Output)}

omit [LinearOrder Time] in
/-- The entries of operations are performed as the operations. -/
theorem replay_entries (indexed : List (Completed Client Time Input Output × Nat)) (state : State) :
    object.replay state (indexed.map entryAt) = object.perform state (indexed.map Prod.fst) := by
  induction indexed generalizing state with
  | nil => rfl
  | cons op rest ih =>
      rw [List.map_cons, List.map_cons, SequentialObject.replay, SequentialObject.perform]
      exact congrArg _ (funext fun next => ih next)

omit [LinearOrder Time] in
/-- The record at the index of an operation. -/
theorem record_at {op : Completed Client Time Input Output} {index : Nat}
    (h : (op, index) ∈ history.zipIdx) :
    (history.map Completed.record)[index]? = some op.record := by
  rw [List.getElem?_map, List.mem_zipIdx_iff_getElem?.mp h]
  rfl

omit [LinearOrder Time] in
/-- Every record is that of an operation at its index. -/
theorem operation_at {record : OpRecord Client Time Input Output} {index : Nat}
    (h : (history.map Completed.record)[index]? = some record) :
    ∃ op, (op, index) ∈ history.zipIdx ∧ record = op.record := by
  rw [List.getElem?_map] at h
  obtain ⟨op, hop, heq⟩ := Option.map_eq_some_iff.mp h
  exact ⟨op, List.mem_zipIdx_iff_getElem?.mpr hop, heq.symm⟩

/-- One operation precedes another when it returned before the call of the other. -/
theorem precedes_iff {first second : Completed Client Time Input Output × Nat}
    (hfirst : first ∈ history.zipIdx) (hsecond : second ∈ history.zipIdx) :
    Precedes (history.map Completed.record) first.2 second.2 ↔ first.1.ret < second.1.call := by
  constructor
  · intro h
    obtain ⟨earlier, later, time, output, hearlier, hlater, hret, hlt⟩ := h
    obtain rfl := Option.some.inj ((record_at hfirst).symm.trans hearlier)
    obtain rfl := Option.some.inj ((record_at hsecond).symm.trans hlater)
    obtain ⟨rfl, -⟩ := Prod.mk.inj (Option.some.inj hret)
    exact hlt
  · intro h
    exact ⟨_, _, _, _, record_at hfirst, record_at hsecond, rfl, h⟩

omit [LinearOrder Time] in
/-- The indices along a history are distinct. -/
theorem nodup_indices (history : List (Completed Client Time Input Output)) :
    (history.zipIdx.map Prod.snd).Nodup := by
  rw [List.zipIdx_map_snd]
  exact List.nodup_range'

/-- A permutation of the indexed operations keeps real time if its entries never place an operation
before one that precedes it. -/
theorem real_time_iff {indexed : List (Completed Client Time Input Output × Nat)}
    (hperm : indexed.Perm history.zipIdx) :
    ((indexed.map entryAt).Pairwise fun first second =>
        ¬ Precedes (history.map Completed.record) second.index first.index) ↔
      RealTime (indexed.map Prod.fst) := by
  rw [RealTime, List.pairwise_map, List.pairwise_map]
  refine List.Pairwise.iff_of_mem ?_
  intro first second hfirst hsecond
  exact not_congr (precedes_iff (hperm.mem_iff.mp hsecond) (hperm.mem_iff.mp hfirst))

/-- A permutation of an image is the image of a permutation. -/
theorem exists_perm_of_map {α β : Type} {f : α → β} {list : List α} {image : List β}
    (h : image.Perm (list.map f)) : ∃ order : List α, image = order.map f ∧ order.Perm list := by
  have hcomp := congrFun (congrFun (List.eq_map_comp_perm f) image) list
  exact hcomp.mpr h

/-- The entries of a linearization are those of the operations. -/
theorem IsLinearization.perm_entries {order : List (Entry Input Output)} {final : State}
    (h : IsLinearization object (history.map Completed.record) order final) :
    order.Perm (history.zipIdx.map entryAt) := by
  have hentries : (history.zipIdx.map entryAt).Nodup := by
    refine List.Nodup.of_map Entry.index ?_
    rw [List.map_map]
    exact nodup_indices history
  refine (List.perm_ext_iff_of_nodup (h.distinct.of_map _) hentries).mpr fun entry => ?_
  constructor
  · intro hentry
    obtain ⟨record, hrecord, hinput, houtput⟩ := h.recorded entry hentry
    obtain ⟨op, hop, rfl⟩ := operation_at hrecord
    have heq : entryAt (op, entry.index) = entry := by
      rw [entryAt, show op.input = entry.input from hinput, houtput op.ret op.output rfl]
    exact List.mem_map.mpr ⟨_, hop, heq⟩
  · intro hentry
    obtain ⟨⟨op, index⟩, hop, rfl⟩ := List.mem_map.mp hentry
    exact h.complete index op.record op.ret op.output (record_at hop) rfl

/-- An order of the operations, with their indices, is a linearization. -/
theorem is_linearization_entries {indexed : List (Completed Client Time Input Output × Nat)}
    {final : State} (hperm : indexed.Perm history.zipIdx) (hreal : RealTime (indexed.map Prod.fst))
    (hlegal : object.perform object.init (indexed.map Prod.fst) = some final) :
    IsLinearization object (history.map Completed.record) (indexed.map entryAt) final where
  distinct := by
    rw [List.map_map]
    exact (hperm.map Prod.snd).nodup_iff.mpr (nodup_indices history)
  recorded := by
    intro entry hentry
    obtain ⟨⟨op, index⟩, hop, rfl⟩ := List.mem_map.mp hentry
    refine ⟨op.record, record_at (hperm.mem_iff.mp hop), rfl, ?_⟩
    intro time output hret
    exact (Prod.mk.inj (Option.some.inj hret)).2.symm
  complete := by
    intro index record time output hrecord hret
    obtain ⟨op, hop, rfl⟩ := operation_at hrecord
    obtain ⟨-, rfl⟩ := Prod.mk.inj (Option.some.inj hret)
    exact List.mem_map.mpr ⟨_, hperm.mem_iff.mpr hop, rfl⟩
  realTime := (real_time_iff hperm).mpr hreal
  legal := (replay_entries indexed object.init).trans hlegal

/-- A history of completed operations is linearizable exactly when it can be put in order. -/
theorem linearizable_iff_orderable :
    Linearizable object (history.map Completed.record) ↔ Orderable object history := by
  have hfst : history.zipIdx.map Prod.fst = history := List.zipIdx_map_fst 0 history
  constructor
  · intro h
    obtain ⟨order, final, h⟩ := h
    obtain ⟨indexed, rfl, hperm⟩ := exists_perm_of_map h.perm_entries
    have hlegal := h.legal
    rw [replay_entries] at hlegal
    exact ⟨indexed.map Prod.fst, hfst ▸ hperm.map Prod.fst, (real_time_iff hperm).mp h.realTime,
      by rw [hlegal]; rfl⟩
  · intro h
    obtain ⟨order, hperm, hreal, hlegal⟩ := h
    rw [← hfst] at hperm
    obtain ⟨indexed, rfl, hindexed⟩ := exists_perm_of_map hperm
    obtain ⟨final, hfinal⟩ := Option.isSome_iff_exists.mp hlegal
    exact ⟨_, final, is_linearization_entries hindexed hreal hfinal⟩

/-! ## Operations seen from outside -/

section Outside

variable {Process Inner Input' Output' : Type} [LT Inner]
  {inner : SequentialObject State Input' Output'}
  {calls : List (OpRecord Process Inner Input' Output')} {order : List (Entry Input' Output')}
  {final : State}

omit [LinearOrder Time] [LT Inner] in
/-- Operations that stand for the entries of a legal order are performed as the entries. -/
theorem perform_of_replay {outside : List (Nat × Completed Client Time Input Output)}
    (horder : outside.map Prod.fst = order.map Entry.index)
    (hstep : ∀ op ∈ outside, ∀ entry ∈ order, entry.index = op.1 → ∀ state next,
      inner.step state entry.input entry.output = some next →
        object.step state op.2.input op.2.output = some next) {state : State}
    (hlegal : inner.replay state order = some final) :
    object.perform state (outside.map Prod.snd) = some final := by
  induction outside generalizing order state with
  | nil =>
      obtain rfl := List.map_eq_nil_iff.mp horder.symm
      exact hlegal
  | cons op rest ih =>
      obtain ⟨entry, entries, rfl, hindex, hrest⟩ := List.map_eq_cons_iff.mp horder.symm
      obtain ⟨next, hnext, hlegal⟩ := Option.bind_eq_some_iff.mp hlegal
      have hop := hstep op List.mem_cons_self entry List.mem_cons_self hindex state next hnext
      rw [List.map_cons, SequentialObject.perform, hop, Option.bind_some]
      exact ih hrest.symm (fun op hop entry hentry =>
        hstep op (List.mem_cons_of_mem _ hop) entry (List.mem_cons_of_mem _ hentry)) hlegal

/-- A history is orderable when its operations stand for those of a linearized one, each tagged with
the index of the operation inside, and one that returned before the call of another did so inside
as well. -/
theorem IsLinearization.orderable_outside (h : IsLinearization inner calls order final)
    {outside : List (Nat × Completed Client Time Input Output)}
    (hnodup : (outside.map Prod.fst).Nodup)
    (hall : ∀ index < calls.length, index ∈ outside.map Prod.fst)
    (hsame : ∀ op ∈ outside, ∃ call time output, calls[op.1]? = some call ∧
      call.ret = some (time, output) ∧ ∀ state next,
        inner.step state call.input output = some next →
          object.step state op.2.input op.2.output = some next)
    (hreal : ∀ first ∈ outside, ∀ second ∈ outside, first.2.ret < second.2.call →
      Precedes calls first.1 second.1)
    (hinit : object.init = inner.init) : Orderable object (outside.map Prod.snd) := by
  have hperm : (order.map Entry.index).Perm (outside.map Prod.fst) := by
    refine (List.perm_ext_iff_of_nodup h.distinct hnodup).mpr fun index => ?_
    constructor
    · intro hindex
      obtain ⟨entry, hentry, rfl⟩ := List.mem_map.mp hindex
      exact hall _ (h.index_lt hentry)
    · intro hindex
      obtain ⟨op, hop, rfl⟩ := List.mem_map.mp hindex
      obtain ⟨call, time, output, hcall, hret, -⟩ := hsame op hop
      exact List.mem_map.mpr ⟨_, h.complete _ _ _ _ hcall hret, rfl⟩
  obtain ⟨sorted, hsorted, hsortedPerm⟩ := exists_perm_of_map hperm
  refine ⟨sorted.map Prod.snd, hsortedPerm.map _, ?_, ?_⟩
  · have hpairs : (sorted.map Prod.fst).Pairwise
        fun first second => ¬ Precedes calls second first :=
      hsorted ▸ List.pairwise_map.mpr h.realTime
    refine List.pairwise_map.mpr ((List.pairwise_map.mp hpairs).imp_of_mem ?_)
    intro first second hfirst hsecond hnot hlt
    exact hnot (hreal second (hsortedPerm.mem_iff.mp hsecond) first
      (hsortedPerm.mem_iff.mp hfirst) hlt)
  · have hperform : object.perform inner.init (sorted.map Prod.snd) = some final := by
      refine perform_of_replay hsorted.symm ?_ h.legal
      intro op hop entry hentry hindex state next hnext
      obtain ⟨call, time, output, hcall, hret, hstep⟩ := hsame op (hsortedPerm.mem_iff.mp hop)
      obtain ⟨call', hcall', hinput, houtput⟩ := h.recorded entry hentry
      obtain rfl : call = call' := Option.some.inj (hcall.symm.trans (hindex ▸ hcall'))
      rw [← hinput, ← houtput time output hret] at hnext
      exact hstep state next hnext
    rw [hinit, hperform]
    rfl

end Outside

end RealTime

/-! ## Objects with independent keys -/

/-- The map of objects: an operation acts on the state of its key. -/
def SequentialObject.pointwise [DecidableEq Key] (object : SequentialObject State Input Output)
    (key : Input → Key) : SequentialObject (Key → State) Input Output where
  init := fun _ => object.init
  step := fun store input output =>
    (object.step (store (key input)) input output).map (Function.update store (key input))

section Keys

variable [DecidableEq Key] {object : SequentialObject State Input Output} (key : Input → Key)

/-- The operations of one key. -/
def onKey (k : Key) (history : List (Completed Client Time Input Output)) :
    List (Completed Client Time Input Output) :=
  history.filter fun op => key op.input = k

/-- The map allows an order exactly when every key allows its part. -/
theorem perform_pointwise_iff {order : List (Completed Client Time Input Output)}
    (store : Key → State) :
    ((object.pointwise key).perform store order).isSome ↔
      ∀ k, (object.perform (store k) (onKey key k order)).isSome := by
  induction order generalizing store with
  | nil => simp [SequentialObject.perform, onKey]
  | cons op rest ih =>
      have hhead : onKey key (key op.input) (op :: rest) = op :: onKey key (key op.input) rest :=
        List.filter_cons_of_pos (by simp)
      have hskip : ∀ k, k ≠ key op.input → onKey key k (op :: rest) = onKey key k rest :=
        fun k hne => List.filter_cons_of_neg (by simpa using hne.symm)
      cases hstep : object.step (store (key op.input)) op.input op.output with
      | none =>
          have hnone : (object.pointwise key).step store op.input op.output = none := by
            simp [SequentialObject.pointwise, hstep]
          constructor
          · intro h
            rw [SequentialObject.perform, hnone] at h
            cases h
          · intro h
            have hkey := h (key op.input)
            rw [hhead, SequentialObject.perform, hstep] at hkey
            cases hkey
      | some next =>
          have hsome : (object.pointwise key).step store op.input op.output =
              some (Function.update store (key op.input) next) := by
            simp [SequentialObject.pointwise, hstep]
          rw [SequentialObject.perform, hsome, Option.bind_some, ih]
          refine forall_congr' fun k => ?_
          by_cases heq : k = key op.input
          · subst heq
            rw [hhead, Function.update_self, SequentialObject.perform, hstep, Option.bind_some]
          · rw [hskip k heq, Function.update_of_ne heq]

/-- The parts of distinct keys make up the history. -/
theorem flat_map_on_key_perm {keys : List Key} (hnodup : keys.Nodup)
    {history : List (Completed Client Time Input Output)}
    (hkeys : ∀ op ∈ history, key op.input ∈ keys) :
    (keys.flatMap fun k => onKey key k history).Perm history := by
  induction keys generalizing history with
  | nil =>
      have hnil : history = [] := List.eq_nil_iff_forall_not_mem.mpr fun op hop => by
        simpa using hkeys op hop
      rw [hnil]
      exact List.Perm.refl _
  | cons k rest ih =>
      obtain ⟨hk, hrest⟩ := List.nodup_cons.mp hnodup
      have hothers : ∀ op ∈ history.filter fun op => !decide (key op.input = k),
          key op.input ∈ rest := by
        intro op hop
        obtain ⟨hmem, hne⟩ := List.mem_filter.mp hop
        exact (List.mem_cons.mp (hkeys op hmem)).resolve_left (by simpa using hne)
      have hsame : (rest.flatMap fun other => onKey key other history) =
          rest.flatMap fun other =>
            onKey key other (history.filter fun op => !decide (key op.input = k)) := by
        refine List.flatMap_congr fun other hother => ?_
        rw [onKey, onKey, List.filter_filter]
        refine List.filter_congr fun op _ => ?_
        by_cases heq : key op.input = other
        · have hne : other ≠ k := fun h => hk (h ▸ hother)
          simp [heq, hne]
        · simp [heq]
      rw [List.flatMap_cons, hsame]
      exact ((ih hrest hothers).append_left _).trans (List.filter_append_perm _ history)

end Keys

/-! ## Linearization points -/

section Points

variable [LinearOrder Time]

/-- Each operation with the latest call so far, starting from a given time. -/
def pointsFrom : Time → List (Completed Client Time Input Output) →
    List (Completed Client Time Input Output × Time)
  | _, [] => []
  | latest, op :: rest => (op, max latest op.call) :: pointsFrom (max latest op.call) rest

/-- Each operation with its linearization point. -/
def points : List (Completed Client Time Input Output) →
    List (Completed Client Time Input Output × Time)
  | [] => []
  | op :: rest => pointsFrom op.call (op :: rest)

variable {order : List (Completed Client Time Input Output)} {latest : Time}

/-- The operations stay in their order. -/
theorem points_from_map_fst : (pointsFrom latest order).map Prod.fst = order := by
  induction order generalizing latest with
  | nil => rfl
  | cons op rest ih => rw [pointsFrom, List.map_cons, ih]

/-- The points are not before the given time. -/
theorem le_points_from : ∀ point ∈ pointsFrom latest order, latest ≤ point.2 := by
  induction order generalizing latest with
  | nil => simp [pointsFrom]
  | cons op rest ih =>
      intro point hpoint
      rcases List.mem_cons.mp hpoint with rfl | hrest
      · exact le_max_left _ _
      · exact (le_max_left _ _).trans (ih point hrest)

/-- The points never go back in time. -/
theorem points_from_increase :
    (pointsFrom latest order).Pairwise fun first second => first.2 ≤ second.2 := by
  induction order generalizing latest with
  | nil => exact List.Pairwise.nil
  | cons op rest ih => exact List.pairwise_cons.mpr ⟨le_points_from, ih⟩

/-- A point is between the call and the return of its operation. -/
theorem points_from_within (hreal : RealTime order) (htimes : ∀ op ∈ order, op.call ≤ op.ret)
    (hlatest : ∀ op ∈ order, latest ≤ op.ret) :
    ∀ point ∈ pointsFrom latest order, point.1.call ≤ point.2 ∧ point.2 ≤ point.1.ret := by
  induction order generalizing latest with
  | nil => simp [pointsFrom]
  | cons op rest ih =>
      obtain ⟨hfirst, hrest⟩ := List.pairwise_cons.mp hreal
      intro point hpoint
      rcases List.mem_cons.mp hpoint with rfl | hlater
      · exact ⟨le_max_right _ _, max_le (hlatest op List.mem_cons_self)
          (htimes op List.mem_cons_self)⟩
      · refine ih hrest (fun later hmem => htimes later (List.mem_cons_of_mem _ hmem)) ?_ point
          hlater
        intro later hmem
        exact max_le (hlatest later (List.mem_cons_of_mem _ hmem)) (not_lt.mp (hfirst later hmem))

/-- The operations stay in their order. -/
theorem points_map_fst : (points order).map Prod.fst = order := by
  cases order with
  | nil => rfl
  | cons op rest => exact points_from_map_fst

/-- The points never go back in time. -/
theorem points_increase : (points order).Pairwise fun first second => first.2 ≤ second.2 := by
  cases order with
  | nil => exact List.Pairwise.nil
  | cons op rest => exact points_from_increase

/-- A point is between the call and the return of its operation. -/
theorem points_within (hreal : RealTime order) (htimes : ∀ op ∈ order, op.call ≤ op.ret) :
    ∀ point ∈ points order, point.1.call ≤ point.2 ∧ point.2 ≤ point.1.ret := by
  cases order with
  | nil => simp [points]
  | cons op rest =>
      refine points_from_within hreal htimes ?_
      intro later hlater
      rcases List.mem_cons.mp hlater with rfl | hmem
      · exact htimes later List.mem_cons_self
      · exact not_lt.mp ((List.pairwise_cons.mp hreal).1 later hmem)

/-! ## Merging -/

/-- Sort operations by their points, keeping the order of equal ones. -/
def mergePoints (pointed : List (Completed Client Time Input Output × Time)) :
    List (Completed Client Time Input Output × Time) :=
  pointed.mergeSort fun first second => decide (first.2 ≤ second.2)

variable {pointed : List (Completed Client Time Input Output × Time)}

/-- The sorted points never go back in time. -/
theorem merge_points_increase :
    (mergePoints pointed).Pairwise fun first second => first.2 ≤ second.2 := by
  have hsorted : (mergePoints pointed).Pairwise fun first second =>
      decide (first.2 ≤ second.2) = true :=
    List.pairwise_mergeSort
      (fun _ _ _ hab hbc => decide_eq_true ((of_decide_eq_true hab).trans (of_decide_eq_true hbc)))
      (fun a b => by simpa using le_total a.2 b.2) pointed
  exact hsorted.imp fun h => of_decide_eq_true h

/-- A part whose points are already in order keeps its order. -/
theorem filter_merge_points (pointed : List (Completed Client Time Input Output × Time))
    (part : Completed Client Time Input Output × Time → Bool)
    (h : (pointed.filter part).Pairwise fun first second => first.2 ≤ second.2) :
    (mergePoints pointed).filter part = pointed.filter part := by
  have hsublist : (pointed.filter part).Sublist (mergePoints pointed) :=
    List.sublist_mergeSort
      (fun _ _ _ hab hbc => decide_eq_true ((of_decide_eq_true hab).trans (of_decide_eq_true hbc)))
      (fun a b => by simpa using le_total a.2 b.2) (h.imp fun hle => decide_eq_true hle)
      List.filter_sublist
  have hfilter := hsublist.filter part
  rw [List.filter_filter] at hfilter
  simp only [Bool.and_self] at hfilter
  refine (hfilter.eq_of_length ?_).symm
  exact ((List.mergeSort_perm pointed _).filter part).length_eq.symm

end Points

section Locality

variable [LinearOrder Time] [DecidableEq Key] {object : SequentialObject State Input Output}
  {key : Input → Key} {history : List (Completed Client Time Input Output)}

omit [LinearOrder Time] in
/-- In a concatenation of lists with distinct labels each label has its own list. -/
theorem filter_flat_map {α : Type} {label : α → Key} {part : Key → List α}
    (hlabel : ∀ k, ∀ element ∈ part k, label element = k) {keys : List Key} (hnodup : keys.Nodup)
    (k : Key) :
    ((keys.flatMap part).filter fun element => label element = k) =
      if k ∈ keys then part k else [] := by
  have hown : ∀ k, ((part k).filter fun element => label element = k) = part k :=
    fun k => List.filter_eq_self.mpr fun element hmem => by simpa using hlabel k element hmem
  have hother : ∀ other, other ≠ k → ((part other).filter fun element => label element = k) = [] :=
    fun other hne => List.filter_eq_nil_iff.mpr fun element hmem => by
      simpa [hlabel other element hmem] using hne
  induction keys with
  | nil => rfl
  | cons first rest ih =>
      obtain ⟨hfirst, hrest⟩ := List.nodup_cons.mp hnodup
      rw [List.flatMap_cons, List.filter_append, ih hrest]
      by_cases heq : first = k
      · subst heq
        rw [hown, if_neg hfirst, if_pos List.mem_cons_self, List.append_nil]
      · have hmem : k ∈ first :: rest ↔ k ∈ rest := by
          simp [Ne.symm heq]
        rw [hother first heq, List.nil_append]
        simp only [hmem]

/-- The operations of the keys that occur, each with the point that it has in the order of its
key. -/
def pointedOrders (key : Input → Key) (history : List (Completed Client Time Input Output))
    (orders : Key → List (Completed Client Time Input Output)) :
    List (Completed Client Time Input Output × Time) :=
  (history.map fun op => key op.input).dedup.flatMap fun k => points (orders k)

variable {orders : Key → List (Completed Client Time Input Output)}

/-- A pointed operation is one of its order. -/
theorem fst_mem_of_mem_points {order : List (Completed Client Time Input Output)}
    {point : Completed Client Time Input Output × Time} (h : point ∈ points order) :
    point.1 ∈ order := by
  have hfst := List.mem_map_of_mem (f := Prod.fst) h
  rwa [points_map_fst] at hfst

omit [LinearOrder Time] in
/-- The operations in the order of a key are those of the history with that key. -/
theorem mem_order_iff (hperm : ∀ k, (orders k).Perm (onKey key k history)) {k : Key}
    {op : Completed Client Time Input Output} :
    op ∈ orders k ↔ op ∈ history ∧ key op.input = k := by
  rw [(hperm k).mem_iff, onKey, List.mem_filter, decide_eq_true_iff]

/-- Every key has its own pointed operations. -/
theorem filter_pointed_orders (hperm : ∀ k, (orders k).Perm (onKey key k history)) (k : Key) :
    ((pointedOrders key history orders).filter fun point => key point.1.input = k) =
      points (orders k) := by
  have hlabel : ∀ k, ∀ point ∈ points (orders k), key point.1.input = k :=
    fun k point hpoint => ((mem_order_iff hperm).mp (fst_mem_of_mem_points hpoint)).2
  rw [pointedOrders, filter_flat_map hlabel (List.nodup_dedup _)]
  split
  · rfl
  · -- a key that does not occur has no operations
    rename_i hnot
    have hnil : orders k = [] := by
      refine List.eq_nil_iff_forall_not_mem.mpr fun op hop => hnot ?_
      obtain ⟨hmem, rfl⟩ := (mem_order_iff hperm).mp hop
      exact List.mem_dedup.mpr (List.mem_map_of_mem hmem)
    rw [hnil]
    rfl

/-- The pointed operations are those of the history. -/
theorem pointed_orders_perm (hperm : ∀ k, (orders k).Perm (onKey key k history)) :
    ((pointedOrders key history orders).map Prod.fst).Perm history := by
  have hkeys : ∀ op ∈ history, key op.input ∈ (history.map fun op => key op.input).dedup :=
    fun op hop => List.mem_dedup.mpr (List.mem_map_of_mem hop)
  have hmap : (pointedOrders key history orders).map Prod.fst =
      (history.map fun op => key op.input).dedup.flatMap orders := by
    rw [pointedOrders, List.map_flatMap]
    exact List.flatMap_congr fun k _ => points_map_fst
  rw [hmap]
  exact ((List.Perm.refl _).flatMap fun k _ => hperm k).trans
    (flat_map_on_key_perm key (List.nodup_dedup _) hkeys)

/-- The points are between the calls and the returns. -/
theorem pointed_orders_within (htimes : ∀ op ∈ history, op.call ≤ op.ret)
    (hperm : ∀ k, (orders k).Perm (onKey key k history)) (hreal : ∀ k, RealTime (orders k)) :
    ∀ point ∈ pointedOrders key history orders,
      point.1.call ≤ point.2 ∧ point.2 ≤ point.1.ret := by
  intro point hpoint
  obtain ⟨k, -, hmem⟩ := List.mem_flatMap.mp hpoint
  refine points_within (hreal k) (fun op hop => ?_) point hmem
  exact htimes op ((mem_order_iff hperm).mp hop).1

/-- The orders of the keys can be merged into one order. -/
theorem exists_merged_order (htimes : ∀ op ∈ history, op.call ≤ op.ret)
    (hperm : ∀ k, (orders k).Perm (onKey key k history)) (hreal : ∀ k, RealTime (orders k)) :
    ∃ order, order.Perm history ∧ RealTime order ∧ ∀ k, onKey key k order = orders k := by
  have hmerge := List.mergeSort_perm (pointedOrders key history orders)
    fun first second => decide (first.2 ≤ second.2)
  refine ⟨(mergePoints (pointedOrders key history orders)).map Prod.fst, ?_, ?_, ?_⟩
  · exact (hmerge.map Prod.fst).trans (pointed_orders_perm hperm)
  · -- an operation is called before its point and returns after it
    have hwithin := pointed_orders_within htimes hperm hreal
    refine List.pairwise_map.mpr (merge_points_increase.imp_of_mem ?_)
    intro first second hfirst hsecond hle
    have hcall := (hwithin first (hmerge.mem_iff.mp hfirst)).1
    have hret := (hwithin second (hmerge.mem_iff.mp hsecond)).2
    exact not_lt.mpr (hcall.trans (hle.trans hret))
  · intro k
    have hfilter := filter_pointed_orders hperm k
    have hkept := filter_merge_points (pointedOrders key history orders)
      (fun point => key point.1.input = k) (by rw [hfilter]; exact points_increase)
    rw [onKey, List.filter_map]
    show ((mergePoints (pointedOrders key history orders)).filter
      fun point => key point.1.input = k).map Prod.fst = orders k
    rw [hkept, hfilter, points_map_fst]

/-- A history can be put in order for the map exactly when the operations of each key can be put in
order for the object. -/
theorem orderable_pointwise_iff (htimes : ∀ op ∈ history, op.call ≤ op.ret) :
    Orderable (object.pointwise key) history ↔ ∀ k, Orderable object (onKey key k history) := by
  constructor
  · intro h k
    obtain ⟨order, hperm, hreal, hlegal⟩ := h
    exact ⟨onKey key k order, hperm.filter _, hreal.sublist List.filter_sublist,
      (perform_pointwise_iff key _).mp hlegal k⟩
  · intro h
    choose orders hperm hreal hlegal using h
    obtain ⟨order, horder, hrealTime, hparts⟩ := exists_merged_order htimes hperm hreal
    refine ⟨order, horder, hrealTime, (perform_pointwise_iff key _).mpr fun k => ?_⟩
    rw [hparts k]
    exact hlegal k

end Locality

end DistributedLabs
