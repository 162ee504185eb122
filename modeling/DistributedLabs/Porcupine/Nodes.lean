import DistributedLabs.Library.Links
import DistributedLabs.Library.Lists
import DistributedLabs.Porcupine.Entries

/-!
# The linked entries

The checker works on a linked list of the entries. A call that is tried is lifted out of the list
together with its return, and put back when the search returns to it. Here the node of an entry has
the place of the entry as its address, and the node before the first one has the place behind the
last entry.

`remaining` are the places that are left when some operations were lifted. `lift_spec` says that the
pointers follow it: lifting one more operation gives the links of the places that are then left, and
`unlift` gives back the links from before.
-/

namespace DistributedLabs.Porcupine

variable {Input Output : Type}

/-! ## Building the list -/

/-- Put a node before another one. -/
def insertBefore (links : Links Nat) (n : Nat) (mark : Option Nat) : Links Nat :=
  match mark with
  | none => links
  | some mark =>
      let beforeMark := links.prev mark
      let links := (links.setPrev mark (some n)).setNext n (some mark)
      match beforeMark with
      | none => links
      | some beforeMark => (links.setPrev n (some beforeMark)).setNext beforeMark (some n)

/-- The number of nodes from a node on; `none` when more than `fuel` nodes were passed. -/
def length (links : Links Nat) : Nat → Option Nat → Option Nat
  | _, none => some 0
  | 0, some _ => none
  | fuel + 1, some n => (length links fuel (links.next n)).map (· + 1)

/-- The variables of `makeLinkedEntries`: the first node so far, the pointers of the nodes, and the
return that was found for an id. -/
structure Linking where
  root : Option Nat
  links : Links Nat
  /-- the field `match` of the nodes -/
  matchOf : Nat → Option Nat
  /-- the variable `match`, by id -/
  matchById : Nat → Option Nat

/-- No nodes. -/
def Linking.empty : Linking := ⟨none, ⟨fun _ => none, fun _ => none⟩, fun _ => none, fun _ => none⟩

/-- One round of the loop: a node for an entry. -/
def linkEntry (elem : Entry Input Output × Nat) (s : Linking) : Linking :=
  match elem.1.value with
  | .ret _ =>
      { s with
        matchById := Function.update s.matchById elem.1.id (some elem.2)
        links := insertBefore s.links elem.2 s.root
        root := some elem.2 }
  | .call _ =>
      { s with
        matchOf := Function.update s.matchOf elem.2 (s.matchById elem.1.id)
        links := insertBefore s.links elem.2 s.root
        root := some elem.2 }

/-- The linked nodes of the entries, from the last one to the first. -/
def makeLinkedEntries (entries : List (Entry Input Output)) : Linking :=
  entries.zipIdx.foldr linkEntry .empty

/-! ## Taking operations out -/

/-- Take a call and its return out of the list. -/
def lift (links : Links Nat) (matchOf : Nat → Option Nat) (entry : Nat) : Option (Links Nat) := do
  let links := links.setNext (← links.prev entry) (links.next entry)
  let links := links.setPrev (← links.next entry) (links.prev entry)
  let matching ← matchOf entry
  let links := links.setNext (← links.prev matching) (links.next matching)
  match links.next matching with
  | some after => return links.setPrev after (links.prev matching)
  | none => return links

/-- Put a call and its return back. -/
def unlift (links : Links Nat) (matchOf : Nat → Option Nat) (entry : Nat) : Option (Links Nat) := do
  let matching ← matchOf entry
  let links := links.setNext (← links.prev matching) (some matching)
  let links := match links.next matching with
    | some after => links.setPrev after (some matching)
    | none => links
  let links := links.setNext (← links.prev entry) (some entry)
  return links.setPrev (← links.next entry) (some entry)

/-! ## The nodes in their order -/

section Building

variable {links : Links Nat} {list : List Nat} {n : Nat}

/-- A new node before the first one. -/
theorem linked_insert_before (hlinked : links.Linked none list) (hnodup : (n :: list).Nodup)
    (hnext : links.next n = none) (hprev : links.prev n = none) :
    (insertBefore links n list.head?).Linked none (n :: list) := by
  cases list with
  | nil => exact ⟨hprev, hnext, trivial⟩
  | cons mark rest =>
      obtain ⟨hmark, hafter, hrest⟩ := hlinked
      obtain ⟨hn, hnodup⟩ := List.nodup_cons.mp hnodup
      have hne : n ≠ mark := fun heq => hn (heq ▸ List.mem_cons_self)
      have hinsert : insertBefore links n (some mark) =
          (links.setPrev mark (some n)).setNext n (some mark) := by
        simp only [insertBefore, hmark]
      rw [List.head?_cons, hinsert]
      refine ⟨?_, Function.update_self _ _ _, Function.update_self _ _ _, ?_, ?_⟩
      · exact (Function.update_of_ne hne _ _).trans hprev
      · exact (Function.update_of_ne (Ne.symm hne) _ _).trans hafter
      · refine hrest.congr (fun node hnode => ?_) fun node hnode => ?_
        · refine Function.update_of_ne (fun heq : node = n => hn ?_) _ _
          exact heq ▸ List.mem_cons_of_mem _ hnode
        · refine Function.update_of_ne (fun heq : node = mark => ?_) _ _
          exact (List.nodup_cons.mp hnodup).1 (heq ▸ hnode)

/-- Putting a node before the first one sets no pointer of a third node. -/
theorem insert_before_of_ne (links : Links Nat) {mark : Option Nat} {node : Nat} (hn : node ≠ n)
    (hmark : node ∉ mark) (hprev : ∀ first ∈ mark, links.prev first = none) :
    (insertBefore links n mark).next node = links.next node ∧
      (insertBefore links n mark).prev node = links.prev node := by
  cases mark with
  | none => exact ⟨rfl, rfl⟩
  | some first =>
      simp only [insertBefore, hprev first rfl]
      refine ⟨Function.update_of_ne hn _ _, ?_⟩
      exact Function.update_of_ne (fun heq => hmark (by rw [heq]; rfl)) _ _

/-- The number of the linked nodes. -/
theorem length_linked {start : Option Nat} (hlinked : links.Linked start list) {fuel : Nat}
    (hfuel : list.length ≤ fuel) : length links fuel list.head? = some list.length := by
  induction list generalizing start fuel with
  | nil =>
      cases fuel <;> rfl
  | cons node rest ih =>
      cases fuel with
      | zero => simp at hfuel
      | succ fuel =>
          have hrest := ih hlinked.2.2 (Nat.le_of_succ_le_succ hfuel)
          simp only [List.head?_cons, length, hlinked.2.1, hrest, Option.map_some, List.length_cons]

end Building

section MakeLinkedEntries

variable {entries : List (Entry Input Output)} {entry : Entry Input Output} {k id place : Nat}

/-- The nodes of the entries from the place `k` on. -/
def linkFrom (entries : List (Entry Input Output)) (k : Nat) : Linking :=
  (entries.zipIdx k).foldr linkEntry .empty

/-- Every entry puts its node before those of the later ones. -/
theorem link_from_cons (entry : Entry Input Output) (entries : List (Entry Input Output))
    (k : Nat) :
    (linkFrom (entry :: entries) k).root = some k ∧
    (linkFrom (entry :: entries) k).links =
      insertBefore (linkFrom entries (k + 1)).links k (linkFrom entries (k + 1)).root := by
  simp only [linkFrom, List.zipIdx_cons, List.foldr_cons, linkEntry]
  cases entry.value <;> exact ⟨rfl, rfl⟩

/-- The nodes are linked in the order of the entries, and no other node has a pointer. -/
theorem linked_link_from (entries : List (Entry Input Output)) (k : Nat) :
    (linkFrom entries k).root = (List.range' k entries.length).head? ∧
    (linkFrom entries k).links.Linked none (List.range' k entries.length) ∧
    ∀ node ∉ List.range' k entries.length,
      (linkFrom entries k).links.next node = none ∧
        (linkFrom entries k).links.prev node = none := by
  induction entries generalizing k with
  | nil => exact ⟨rfl, trivial, fun _ _ => ⟨rfl, rfl⟩⟩
  | cons entry rest ih =>
      obtain ⟨hroot, hlinked, hfresh⟩ := ih (k + 1)
      obtain ⟨hroot', hlinks'⟩ := link_from_cons entry rest k
      have hrange : List.range' k (entry :: rest).length =
          k :: List.range' (k + 1) rest.length := List.range'_succ
      have hnodup : (k :: List.range' (k + 1) rest.length).Nodup := by
        rw [← hrange]
        exact List.nodup_range'
      have hk := (List.nodup_cons.mp hnodup).1
      rw [hrange, hroot', hlinks', hroot]
      refine ⟨rfl, linked_insert_before hlinked hnodup (hfresh k hk).1 (hfresh k hk).2, ?_⟩
      intro node hnode
      have hne : node ≠ k := fun heq => hnode (heq ▸ List.mem_cons_self)
      have hrest : node ∉ List.range' (k + 1) rest.length := fun hmem =>
        hnode (List.mem_cons_of_mem _ hmem)
      have hfirst : ∀ first ∈ (List.range' (k + 1) rest.length).head?,
          (linkFrom rest (k + 1)).links.prev first = none := by
        intro first hfirst
        cases hlist : List.range' (k + 1) rest.length with
        | nil => simp [hlist] at hfirst
        | cons head tail =>
            rw [hlist] at hfirst hlinked
            obtain rfl : head = first := Option.some.inj hfirst
            exact hlinked.1
      have hother := insert_before_of_ne (linkFrom rest (k + 1)).links hne
        (fun hmem => hrest (List.mem_of_mem_head? hmem)) hfirst
      exact ⟨hother.1.trans (hfresh node hrest).1, hother.2.trans (hfresh node hrest).2⟩

/-- The place of the first return of an operation, from the place `k` on. -/
def returnFrom (entries : List (Entry Input Output)) (k id : Nat) : Option Nat :=
  ((entries.zipIdx k).find? fun elem => !elem.1.value.isCall && elem.1.id == id).map Prod.snd

/-- The loop remembers the first return of every operation. -/
theorem match_by_id_link_from (entries : List (Entry Input Output)) (k id : Nat) :
    (linkFrom entries k).matchById id = returnFrom entries k id := by
  induction entries generalizing k with
  | nil => rfl
  | cons entry rest ih =>
      have hih := ih (k + 1)
      simp only [linkFrom, returnFrom] at hih
      simp only [linkFrom, returnFrom, List.zipIdx_cons, List.foldr_cons, linkEntry,
        List.find?_cons]
      cases hvalue : entry.value with
      | call input => simpa only [is_call_call, Bool.not_true, Bool.false_and] using hih
      | ret output =>
          by_cases hid : entry.id = id
          · simp [hid]
          · simp only [is_call_ret, Bool.not_false, Bool.true_and, beq_eq_false_iff_ne.mpr hid]
            exact (Function.update_of_ne (Ne.symm hid) _ _).trans hih

/-- A call gets the return that was found last as its match. -/
theorem match_of_cons_call {input : Input} (hvalue : entry.value = .call input) :
    (linkFrom (entry :: entries) k).matchOf = Function.update (linkFrom entries (k + 1)).matchOf k
      ((linkFrom entries (k + 1)).matchById entry.id) := by
  simp only [linkFrom, List.zipIdx_cons, List.foldr_cons, linkEntry, hvalue]

/-- A return gets no match. -/
theorem match_of_cons_ret {output : Output} (hvalue : entry.value = .ret output) :
    (linkFrom (entry :: entries) k).matchOf = (linkFrom entries (k + 1)).matchOf := by
  simp only [linkFrom, List.zipIdx_cons, List.foldr_cons, linkEntry, hvalue]

/-- Nodes before the first one have no match. -/
theorem match_of_lt (entries : List (Entry Input Output)) (k : Nat) (hplace : place < k) :
    (linkFrom entries k).matchOf place = none := by
  induction entries generalizing k with
  | nil => rfl
  | cons entry rest ih =>
      have hih := ih (k + 1) (by omega)
      cases hvalue : entry.value with
      | call input =>
          rw [match_of_cons_call hvalue]
          exact (Function.update_of_ne (by omega) _ _).trans hih
      | ret output =>
          rw [match_of_cons_ret hvalue]
          exact hih

/-- A call has the first return behind it as its match, and a return has none. -/
theorem match_of_link_from (entries : List (Entry Input Output)) (k : Nat)
    (hplace : entries[place]? = some entry) :
    (linkFrom entries k).matchOf (k + place) =
      if entry.value.isCall then returnFrom (entries.drop (place + 1)) (k + place + 1) entry.id
      else none := by
  induction entries generalizing k place with
  | nil => simp at hplace
  | cons first rest ih =>
      cases place with
      | zero =>
          obtain rfl : first = entry := by simpa using hplace
          cases hvalue : first.value with
          | call input =>
              rw [match_of_cons_call hvalue]
              exact (Function.update_self _ _ _).trans (match_by_id_link_from rest (k + 1) first.id)
          | ret output =>
              rw [match_of_cons_ret hvalue]
              exact match_of_lt rest (k + 1) (by omega)
      | succ place =>
          have hrest := ih (k + 1) (by simpa using hplace)
          have hadd : k + 1 + place = k + (place + 1) := by omega
          rw [hadd] at hrest
          rw [List.drop_succ_cons, ← hrest]
          cases hvalue : first.value with
          | call input =>
              rw [match_of_cons_call hvalue]
              exact Function.update_of_ne (by omega) _ _
          | ret output => rw [match_of_cons_ret hvalue]

end MakeLinkedEntries

section Matched

variable {entries : List (Entry Input Output)} (matching : Matching entries) {id : Nat}

/-- The return of an operation is found behind its call. -/
theorem return_from_call (hid : id < matching.ops.length) :
    returnFrom (entries.drop (matching.callAt id + 1)) (matching.callAt id + 1) id =
      some (matching.retAt id) := by
  obtain ⟨ret, hret, hvalue, hretId⟩ := matching.ret_entry _ _ (List.getElem?_eq_getElem hid)
  have hlt := matching.call_lt_ret id hid
  -- something is found, since the return is there
  have hsome : ((entries.drop (matching.callAt id + 1)).zipIdx (matching.callAt id + 1)).find?
      (fun elem => !elem.1.value.isCall && elem.1.id == id) ≠ none := by
    intro hnone
    have hnot := List.find?_eq_none.mp hnone (ret, matching.retAt id)
      (List.mem_zipIdx_iff_le_and_getElem?_sub.mpr ⟨hlt, by
        rw [List.getElem?_drop, Nat.add_sub_cancel' hlt]
        exact hret⟩)
    exact hnot (by simp [hvalue, hretId])
  obtain ⟨⟨found, place⟩, hfound⟩ := Option.ne_none_iff_exists'.mp hsome
  have hkey := List.find?_some hfound
  have hmem := List.mem_zipIdx_iff_le_and_getElem?_sub.mp (List.mem_of_find?_eq_some hfound)
  simp only [Bool.and_eq_true, Bool.not_eq_true', beq_iff_eq] at hkey
  -- and it is at the place of the return
  have hplace : entries[place]? = some found := by
    have hget := hmem.2
    rwa [List.getElem?_drop, Nat.add_sub_cancel' hmem.1] at hget
  have hat := matching.ret_at hplace hkey.1
  rw [hkey.2] at hat
  rw [returnFrom, hfound, Option.map_some, hat]

/-- A call has its return as its match. -/
theorem match_of_call (hid : id < matching.ops.length) :
    (makeLinkedEntries entries).matchOf (matching.callAt id) = some (matching.retAt id) := by
  obtain ⟨call, hcall, hvalue, hcallId⟩ := matching.call_entry _ _ (List.getElem?_eq_getElem hid)
  have hmatch := match_of_link_from entries 0 hcall
  simp only [Nat.zero_add, hvalue, is_call_call, if_true, hcallId] at hmatch
  exact hmatch.trans (return_from_call matching hid)

/-- A return has no match. -/
theorem match_of_ret (hid : id < matching.ops.length) :
    (makeLinkedEntries entries).matchOf (matching.retAt id) = none := by
  obtain ⟨ret, hret, hvalue, -⟩ := matching.ret_entry _ _ (List.getElem?_eq_getElem hid)
  have hmatch := match_of_link_from entries 0 hret
  simp only [Nat.zero_add, hvalue, is_call_ret, Bool.false_eq_true, if_false] at hmatch
  exact hmatch

end Matched

/-! ## What is left -/

/-- The places of the entries whose operations are not among those that were lifted. -/
def remaining (entries : List (Entry Input Output)) (ids : List Nat) : List Nat :=
  (List.range entries.length).filter fun place =>
    match entries[place]? with
    | some entry => entry.id ∉ ids
    | none => false

section Remaining

variable {entries : List (Entry Input Output)} {ids : List Nat} {place id : Nat}

/-- The places that are left. -/
theorem mem_remaining_iff : place ∈ remaining entries ids ↔
    ∃ entry, entries[place]? = some entry ∧ entry.id ∉ ids := by
  simp only [remaining, List.mem_filter, List.mem_range]
  constructor
  · rintro ⟨hlt, hleft⟩
    rw [List.getElem?_eq_getElem hlt] at hleft
    exact ⟨_, List.getElem?_eq_getElem hlt, of_decide_eq_true hleft⟩
  · rintro ⟨entry, hentry, hid⟩
    rw [hentry]
    exact ⟨(List.getElem?_eq_some_iff.mp hentry).1, decide_eq_true hid⟩

/-- The places that are left are in order. -/
theorem remaining_sorted (entries : List (Entry Input Output)) (ids : List Nat) :
    (remaining entries ids).Pairwise (· < ·) :=
  List.Pairwise.filter _ List.pairwise_lt_range

/-- No place is left twice. -/
theorem nodup_remaining (entries : List (Entry Input Output)) (ids : List Nat) :
    (remaining entries ids).Nodup :=
  (remaining_sorted entries ids).imp fun hlt => Nat.ne_of_lt hlt

/-- The place behind the entries is not one of them. -/
theorem nodup_head_remaining (entries : List (Entry Input Output)) (ids : List Nat) :
    (entries.length :: remaining entries ids).Nodup := by
  refine List.nodup_cons.mpr ⟨fun hmem => ?_, nodup_remaining entries ids⟩
  obtain ⟨entry, hentry, -⟩ := mem_remaining_iff.mp hmem
  simp at hentry

/-- Only the set of lifted operations matters. -/
theorem remaining_congr {other : List Nat} (h : ∀ id, id ∈ ids ↔ id ∈ other) :
    remaining entries ids = remaining entries other := by
  simp only [remaining, h]

variable (matching : Matching entries)

/-- The call and the return of an operation that was not lifted are left. -/
theorem mem_remaining_of_not_mem (hid : id < matching.ops.length) (hleft : id ∉ ids) :
    matching.callAt id ∈ remaining entries ids ∧ matching.retAt id ∈ remaining entries ids := by
  obtain ⟨call, hcall, -, hcallId⟩ := matching.call_entry _ _ (List.getElem?_eq_getElem hid)
  obtain ⟨ret, hret, -, hretId⟩ := matching.ret_entry _ _ (List.getElem?_eq_getElem hid)
  exact ⟨mem_remaining_iff.mpr ⟨call, hcall, hcallId ▸ hleft⟩,
    mem_remaining_iff.mpr ⟨ret, hret, hretId ▸ hleft⟩⟩

/-- Lifting an operation takes out its call and its return. -/
theorem remaining_concat (ids : List Nat) (hid : id < matching.ops.length) :
    remaining entries (ids ++ [id]) =
      ((remaining entries ids).erase (matching.callAt id)).erase (matching.retAt id) := by
  rw [((nodup_remaining entries ids).erase _).erase_eq_filter,
    (nodup_remaining entries ids).erase_eq_filter, remaining, remaining, List.filter_filter,
    List.filter_filter]
  refine List.filter_congr fun place hplace => ?_
  have hentry := List.getElem?_eq_getElem (List.mem_range.mp hplace)
  have hkey := matching.id_eq_iff hentry hid
  rw [hentry]
  rw [Bool.eq_iff_iff]
  simp only [List.mem_append, List.mem_singleton, hkey, not_or, decide_eq_true_eq, Bool.and_eq_true,
    bne_iff_ne, ne_eq]
  tauto

end Remaining

/-! ## Lifting -/

section Lift

variable {links : Links Nat} {list : List Nat} {start : Option Nat} {node : Nat}

/-- A node of an increasing list points to the first one that is larger. -/
theorem next_of_sorted {first : Nat} (hlinked : links.Linked start (first :: list))
    (hsorted : list.Pairwise (· < ·)) (hnode : node ∈ list) :
    links.next node = (list.filter (node < ·)).head? := by
  obtain ⟨front, back, rfl⟩ := List.append_of_mem hnode
  rw [← List.cons_append] at hlinked
  rw [filter_lt_of_sorted hsorted]
  exact hlinked.next_eq

/-- A node of a list that has something before it. -/
theorem prev_of_mem {first : Nat} (hlinked : links.Linked start (first :: list))
    (hnodup : (first :: list).Nodup) (hnode : node ∈ list) :
    ∃ before, links.prev node = some before ∧ before ≠ node := by
  obtain ⟨front, before, back, hsplit⟩ := Links.exists_before first hnode
  rw [hsplit] at hlinked hnodup
  refine ⟨before, hlinked.neighbours.2.1, fun heq => ?_⟩
  have hcons := (List.nodup_append.mp hnodup).2.1
  exact (List.nodup_cons.mp hcons).1 (heq ▸ List.mem_cons_self)

variable {less : Links Nat} {matchOf : Nat → Option Nat} {entry before after matched : Nat}

/-- `lift` unlinks the call and then the return. -/
theorem lift_eq (hprev : links.prev entry = some before) (hne : before ≠ entry)
    (hnext : links.next entry = some after) (hmatch : matchOf entry = some matched)
    (hless : links.unlink entry = some less) {last : Nat} (hlast : less.prev matched = some last)
    (hlastNe : last ≠ matched) : lift links matchOf entry = less.unlink matched := by
  have hunlink : (links.setNext before (some after)).setPrev after (some before) = less := by
    simpa only [Links.unlink, hprev, hnext, Option.map_some, Option.some.injEq] using hless
  have hkeep : (links.setNext before (some after)).next entry = some after :=
    (Function.update_of_ne (Ne.symm hne) _ _).trans hnext
  have hkeep' : (less.setNext last (less.next matched)).next matched = less.next matched :=
    Function.update_of_ne (Ne.symm hlastNe) _ _
  simp only [lift, hprev, hnext, hkeep, Option.bind_eq_bind, Option.bind_some,
    show (links.setNext before (some after)).prev entry = some before from hprev, hunlink, hmatch,
    hlast, hkeep', Links.unlink, Option.map_some]
  cases less.next matched with
  | none => rfl
  | some behind =>
      rw [show (less.setNext last (some behind)).prev matched = some last from hlast]
      rfl

/-- `unlift` relinks the return and then the call. -/
theorem unlift_eq (hmatch : matchOf entry = some matched) {last : Nat}
    (hlast : less.prev matched = some last) (hlastNe : last ≠ matched)
    (hmore : less.relink matched = some links) (hprev : links.prev entry = some before)
    (hne : before ≠ entry) (hnext : links.next entry = some after) :
    unlift less matchOf entry = links.relink entry := by
  have hkeep : (less.setNext last (some matched)).next matched = less.next matched :=
    Function.update_of_ne (Ne.symm hlastNe) _ _
  have hkeep' : (links.setNext before (some entry)).next entry = some after :=
    (Function.update_of_ne (Ne.symm hne) _ _).trans hnext
  cases hbehind : less.next matched with
  | none =>
      have hrelink : less.setNext last (some matched) = links := by
        simpa only [Links.relink, hlast, hbehind, Option.map_some, Option.some.injEq] using hmore
      simp only [unlift, hmatch, hlast, Option.bind_eq_bind, Option.bind_some, hkeep, hbehind]
      simp only [hrelink, hprev, Option.bind_some, hkeep', Links.relink, hnext, Option.map_some]
      rfl
  | some behind =>
      have hrelink : (less.setNext last (some matched)).setPrev behind (some matched) = links := by
        simpa only [Links.relink, hlast, hbehind, Option.map_some, Option.some.injEq] using hmore
      simp only [unlift, hmatch, hlast, Option.bind_eq_bind, Option.bind_some, hkeep, hbehind]
      simp only [hrelink, hprev, Option.bind_some, hkeep', Links.relink, hnext, Option.map_some]
      rfl

end Lift

section LiftSpec

variable {entries : List (Entry Input Output)} (matching : Matching entries) {ids : List Nat}
  {links : Links Nat} {id : Nat}

/-- Behind the call of an operation that is left there is at least its return. -/
theorem next_of_call (hlinked : links.Linked none (entries.length :: remaining entries ids))
    (hid : id < matching.ops.length) (hleft : id ∉ ids) :
    ∃ after, links.next (matching.callAt id) = some after := by
  obtain ⟨hcall, hret⟩ := mem_remaining_of_not_mem matching hid hleft
  have hmem : matching.retAt id ∈ (remaining entries ids).filter (matching.callAt id < ·) :=
    List.mem_filter.mpr ⟨hret, decide_eq_true (matching.call_lt_ret id hid)⟩
  rw [next_of_sorted hlinked (remaining_sorted entries ids) hcall]
  cases hlist : (remaining entries ids).filter (matching.callAt id < ·) with
  | nil =>
      rw [hlist] at hmem
      cases hmem
  | cons after rest => exact ⟨after, rfl⟩

/-- Lifting an operation takes it out of what is left, and can be undone. -/
theorem lift_spec (hlinked : links.Linked none (entries.length :: remaining entries ids))
    (hid : id < matching.ops.length) (hleft : id ∉ ids) :
    ∃ less, lift links (makeLinkedEntries entries).matchOf (matching.callAt id) = some less ∧
      less.Linked none (entries.length :: remaining entries (ids ++ [id])) ∧
      unlift less (makeLinkedEntries entries).matchOf (matching.callAt id) = some links := by
  have hnodup := nodup_head_remaining entries ids
  have hmatch := match_of_call matching hid
  obtain ⟨hcall, hret⟩ := mem_remaining_of_not_mem matching hid hleft
  obtain ⟨after, hnext⟩ := next_of_call matching hlinked hid hleft
  obtain ⟨before, hprev, hne⟩ := prev_of_mem hlinked hnodup hcall
  -- first the call
  obtain ⟨middle, hunlink, hlinked', hback, hnext', hprev'⟩ := hlinked.unlink hnodup hcall
  have hret' : matching.retAt id ∈ (remaining entries ids).erase (matching.callAt id) :=
    (List.mem_erase_of_ne (Nat.ne_of_gt (matching.call_lt_ret id hid))).mpr hret
  have hnodup' : (entries.length :: (remaining entries ids).erase (matching.callAt id)).Nodup :=
    hnodup.sublist (List.erase_sublist.cons_cons _)
  obtain ⟨last, hlast, hlastNe⟩ := prev_of_mem hlinked' hnodup' hret'
  -- then the return
  obtain ⟨less, hunlink', hlinked'', hback', -, hlast'⟩ := hlinked'.unlink hnodup' hret'
  refine ⟨less, ?_, ?_, ?_⟩
  · rw [lift_eq hprev hne hnext hmatch hunlink hlast hlastNe]
    exact hunlink'
  · rw [remaining_concat matching ids hid]
    exact hlinked''
  · rw [unlift_eq hmatch (hlast'.trans hlast) hlastNe hback' (hprev'.trans hprev) hne
      (hnext'.trans hnext)]
    exact hback

end LiftSpec

end DistributedLabs.Porcupine
