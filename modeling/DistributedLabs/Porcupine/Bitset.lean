import Mathlib.Data.Finset.Card
import Mathlib.Data.List.Nodup
import Mathlib.Tactic.Common

/-!
# Bit sets

`porcupine/bitset.go` keeps a set of small numbers in 64-bit words. `bit` reads one position;
`Represents` says that the words have the bits of a finite set and nothing else. A bit set can then
be compared word by word: equal words mean equal sets, and equal sets have equal words and therefore
the same hash.
-/

namespace DistributedLabs.Porcupine

/-- `bitset`: bits 0 to 63 are in the first word, the next ones in the second, and so on. -/
structure Bitset where
  data : List (BitVec 64)
  deriving DecidableEq

/-- A set for positions below `bits`. -/
def newBitset (bits : Nat) : Bitset :=
  let extra := if bits % 64 ≠ 0 then 1 else 0
  ⟨List.replicate (bits / 64 + extra) 0#64⟩

/-- The word of a position and the place in it. -/
def bitsetIndex (pos : Nat) : Nat × Nat := (pos / 64, pos % 64)

/-- The number of bits that are set in a word. -/
def onesCount64 (word : BitVec 64) : Nat :=
  (List.range 64).countP fun minor => word.getLsbD minor

namespace Bitset

/-- Add a position; `none` is an index out of range. -/
def set (b : Bitset) (pos : Nat) : Option Bitset :=
  let (major, minor) := bitsetIndex pos
  b.data[major]?.map fun word => ⟨b.data.set major (word ||| 1#64 <<< minor)⟩

/-- Take a position out. -/
def clear (b : Bitset) (pos : Nat) : Option Bitset :=
  let (major, minor) := bitsetIndex pos
  b.data[major]?.map fun word => ⟨b.data.set major (word &&& ~~~(1#64 <<< minor))⟩

/-- Whether a position is in the set. -/
def get (b : Bitset) (pos : Nat) : Option Bool :=
  let (major, minor) := bitsetIndex pos
  b.data[major]?.map fun word => word &&& 1#64 <<< minor ≠ 0#64

/-- The number of positions in the set. -/
def popcnt (b : Bitset) : Nat :=
  b.data.foldl (fun total word => total + onesCount64 word) 0

/-- The hash of a set. -/
def hash (b : Bitset) : BitVec 64 :=
  b.data.foldl (fun hash word => hash ^^^ word) (BitVec.ofNat 64 b.popcnt)

/-- Compare two sets word by word. -/
def equals (b b2 : Bitset) : Bool :=
  if b.data.length ≠ b2.data.length then false
  else (List.range b.data.length).all fun i => b.data[i]? = b2.data[i]?

/-! ## Single bits -/

/-- The bit at a position; false behind the last word. -/
def bit (b : Bitset) (pos : Nat) : Bool :=
  match b.data[pos / 64]? with
  | some word => word.getLsbD (pos % 64)
  | none => false

variable {b b2 : Bitset} {pos other : Nat}

/-- A mask has one bit. -/
theorem get_lsb_mask (minor place : Nat) (hminor : minor < 64) :
    (1#64 <<< minor).getLsbD place = decide (place = minor) := by
  rw [← BitVec.twoPow_eq, BitVec.getLsbD_twoPow]
  simp [hminor, eq_comm]

/-- Reading with a mask is reading the bit. -/
theorem mask_ne_zero (word : BitVec 64) {minor : Nat} (hminor : minor < 64) :
    decide (word &&& 1#64 <<< minor ≠ 0#64) = word.getLsbD minor := by
  have hmask : BitVec.twoPow 64 minor ≠ 0#64 := by
    intro hzero
    have hplace := congrArg (fun mask => mask.getLsbD minor) hzero
    simp [hminor] at hplace
  rw [← BitVec.twoPow_eq, BitVec.and_twoPow]
  cases word.getLsbD minor <;> simp [hmask]

/-- The bits of a word. -/
theorem bit_eq (h : other / 64 < b.data.length) :
    b.bit other = (b.data[other / 64]).getLsbD (other % 64) := by
  simp only [bit, List.getElem?_eq_getElem h]

/-- `get` reads the bit of a position that has a word. -/
theorem get_eq (hpos : pos / 64 < b.data.length) : b.get pos = some (b.bit pos) := by
  show (b.data[pos / 64]?.map fun word => decide (word &&& 1#64 <<< (pos % 64) ≠ 0#64)) = _
  rw [List.getElem?_eq_getElem hpos, Option.map_some, mask_ne_zero _ (Nat.mod_lt pos (by omega)),
    bit_eq hpos]

/-- Writing one word changes no bit of another word. -/
theorem bit_set_word_of_ne {major : Nat} {word : BitVec 64} (h : major ≠ other / 64) :
    bit ⟨b.data.set major word⟩ other = b.bit other := by
  simp only [bit, List.getElem?_set_ne h]

/-- The bits of a word that was written. -/
theorem bit_set_word {word : BitVec 64} (h : other / 64 < b.data.length) :
    bit ⟨b.data.set (other / 64) word⟩ other = word.getLsbD (other % 64) := by
  simp only [bit, List.getElem?_set_self h]

/-- Adding a position sets its bit and no other. -/
theorem set_spec (hpos : pos / 64 < b.data.length) :
    ∃ b', b.set pos = some b' ∧ b'.data.length = b.data.length ∧
      ∀ other, b'.bit other = (b.bit other || decide (other = pos)) := by
  have hset : b.set pos =
      some ⟨b.data.set (pos / 64) (b.data[pos / 64] ||| 1#64 <<< (pos % 64))⟩ := by
    simp only [set, bitsetIndex, List.getElem?_eq_getElem hpos, Option.map_some]
  refine ⟨_, hset, List.length_set, fun other => ?_⟩
  by_cases hword : pos / 64 = other / 64
  · have hother : other / 64 < b.data.length := hword ▸ hpos
    have hplace : other % 64 = pos % 64 ↔ other = pos := by omega
    simp only [hword]
    rw [bit_set_word hother, BitVec.getLsbD_or, get_lsb_mask _ _ (Nat.mod_lt pos (by omega)),
      bit_eq hother]
    simp only [hplace]
  · have hne : other ≠ pos := fun heq => hword (by rw [heq])
    rw [bit_set_word_of_ne hword]
    simp [hne]

/-- Taking a position out clears its bit and no other. -/
theorem clear_spec (hpos : pos / 64 < b.data.length) :
    ∃ b', b.clear pos = some b' ∧ b'.data.length = b.data.length ∧
      ∀ other, b'.bit other = (b.bit other && decide (other ≠ pos)) := by
  have hclear : b.clear pos =
      some ⟨b.data.set (pos / 64) (b.data[pos / 64] &&& ~~~(1#64 <<< (pos % 64)))⟩ := by
    simp only [clear, bitsetIndex, List.getElem?_eq_getElem hpos, Option.map_some]
  refine ⟨_, hclear, List.length_set, fun other => ?_⟩
  by_cases hword : pos / 64 = other / 64
  · have hother : other / 64 < b.data.length := hword ▸ hpos
    have hplace : other % 64 = pos % 64 ↔ other = pos := by omega
    simp only [hword]
    rw [bit_set_word hother, BitVec.getLsbD_and, BitVec.getLsbD_not,
      get_lsb_mask _ _ (Nat.mod_lt pos (by omega)), bit_eq hother]
    simp [hplace, Nat.mod_lt]
  · have hne : other ≠ pos := fun heq => hword (by rw [heq])
    rw [bit_set_word_of_ne hword]
    simp [hne]

/-- Sets with the same number of words and the same bits are the same. -/
theorem eq_of_bit_eq (hlength : b.data.length = b2.data.length)
    (hbit : ∀ pos, b.bit pos = b2.bit pos) : b = b2 := by
  have hdata : b.data = b2.data := by
    refine List.ext_getElem hlength fun major h h2 => BitVec.eq_of_getLsbD_eq fun minor hminor => ?_
    have hpos := hbit (64 * major + minor)
    have hmajor : (64 * major + minor) / 64 = major := by omega
    have hplace : (64 * major + minor) % 64 = minor := by omega
    rw [bit_eq (by rwa [hmajor]), bit_eq (by rwa [hmajor])] at hpos
    simpa only [hmajor, hplace] using hpos
  cases b
  cases b2
  simp_all

/-- Comparing word by word is comparing. -/
theorem equals_iff : b.equals b2 = true ↔ b = b2 := by
  unfold equals
  split
  · rename_i hlength
    simp only [Bool.false_eq_true, false_iff]
    exact fun heq => hlength (by rw [heq])
  · rename_i hlength
    rw [List.all_eq_true]
    constructor
    · intro hall
      have hdata : b.data = b2.data := by
        refine List.ext_getElem? fun i => ?_
        by_cases hi : i < b.data.length
        · exact of_decide_eq_true (hall i (List.mem_range.mpr hi))
        · rw [List.getElem?_eq_none (by omega), List.getElem?_eq_none (by omega)]
      cases b
      cases b2
      simp_all
    · intro heq i _
      simp [heq]

end Bitset

/-! ## Sets -/

/-- The words have the bits of the set and no others. -/
structure Represents (b : Bitset) (bits : Nat) (members : Finset Nat) : Prop where
  length : b.data.length = (newBitset bits).data.length
  bit : ∀ pos, b.bit pos = decide (pos ∈ members)

section Represents

variable {b b2 : Bitset} {bits pos : Nat} {members members2 : Finset Nat}

/-- There is a word for every position. -/
theorem word_lt (h : pos < bits) : pos / 64 < (newBitset bits).data.length := by
  simp only [newBitset, List.length_replicate]
  split <;> omega

/-- A new set is empty. -/
theorem represents_new (bits : Nat) : Represents (newBitset bits) bits ∅ where
  length := rfl
  bit := by
    intro pos
    rw [Bitset.bit]
    split
    · rename_i word hword
      have hzero : word = 0#64 := List.eq_of_mem_replicate (List.mem_of_getElem? hword)
      simp [hzero]
    · simp

/-- Adding a position. -/
theorem Represents.set (h : Represents b bits members) (hpos : pos < bits) :
    ∃ b', b.set pos = some b' ∧ Represents b' bits (insert pos members) := by
  obtain ⟨b', hset, hlength, hbit⟩ := Bitset.set_spec (by rw [h.length]; exact word_lt hpos)
  refine ⟨b', hset, hlength.trans h.length, fun other => ?_⟩
  rw [hbit, h.bit, Bool.or_comm]
  simp

/-- Taking a position out. -/
theorem Represents.clear (h : Represents b bits members) (hpos : pos < bits) :
    ∃ b', b.clear pos = some b' ∧ Represents b' bits (members.erase pos) := by
  obtain ⟨b', hclear, hlength, hbit⟩ := Bitset.clear_spec (by rw [h.length]; exact word_lt hpos)
  refine ⟨b', hclear, hlength.trans h.length, fun other => ?_⟩
  rw [hbit, h.bit, Bool.and_comm]
  simp

/-- Asking for a position. -/
theorem Represents.get (h : Represents b bits members) (hpos : pos < bits) :
    b.get pos = some (decide (pos ∈ members)) := by
  rw [Bitset.get_eq (by rw [h.length]; exact word_lt hpos), h.bit]

/-- Two bit sets are equal when they have the same members. -/
theorem Represents.equals_iff (h : Represents b bits members) (h2 : Represents b2 bits members2) :
    b.equals b2 = true ↔ members = members2 := by
  rw [Bitset.equals_iff]
  constructor
  · intro heq
    ext pos
    have hpos := (h.bit pos).symm.trans ((congrArg (fun b => b.bit pos) heq).trans (h2.bit pos))
    simpa using hpos
  · intro heq
    refine Bitset.eq_of_bit_eq (h.length.trans h2.length.symm) fun pos => ?_
    rw [h.bit, h2.bit, heq]

/-- Words are counted one after the other. -/
theorem popcnt_cons (word : BitVec 64) (rest : List (BitVec 64)) :
    Bitset.popcnt ⟨word :: rest⟩ = onesCount64 word + Bitset.popcnt ⟨rest⟩ := by
  have hshift : ∀ (rest : List (BitVec 64)) (total : Nat),
      rest.foldl (fun total word => total + onesCount64 word) total =
        total + rest.foldl (fun total word => total + onesCount64 word) 0 := by
    intro rest
    induction rest with
    | nil => exact fun total => rfl
    | cons word rest ih =>
        intro total
        rw [List.foldl_cons, List.foldl_cons, ih, ih (0 + onesCount64 word)]
        omega
  rw [Bitset.popcnt, List.foldl_cons, hshift, Nat.zero_add]
  rfl

/-- Counting words is counting bits. -/
theorem popcnt_eq_count (data : List (BitVec 64)) :
    Bitset.popcnt ⟨data⟩ =
      (List.range (64 * data.length)).countP fun pos => Bitset.bit ⟨data⟩ pos := by
  induction data with
  | nil => rfl
  | cons word rest ih =>
      have hlength : 64 * (word :: rest).length = 64 + 64 * rest.length := by
        rw [List.length_cons]
        omega
      rw [popcnt_cons, ih, hlength, List.range_add, List.countP_append, List.countP_map,
        onesCount64]
      refine congrArg₂ (· + ·) ?_ ?_
      · refine List.countP_congr fun pos hpos => ?_
        have hlt := List.mem_range.mp hpos
        have hword : pos / 64 = 0 := by omega
        have hplace : pos % 64 = pos := by omega
        simp [Bitset.bit, hword, hplace]
      · refine List.countP_congr fun pos _ => ?_
        have hword : (64 + pos) / 64 = pos / 64 + 1 := by omega
        have hplace : (64 + pos) % 64 = pos % 64 := by omega
        simp [Bitset.bit, hword, hplace]

/-- The number of bits is the number of members. -/
theorem Represents.popcnt (h : Represents b bits members) : b.popcnt = members.card := by
  have hmembers : members =
      ((List.range (64 * b.data.length)).filter fun pos => b.bit pos).toFinset := by
    ext pos
    rw [List.mem_toFinset, List.mem_filter, List.mem_range, h.bit]
    constructor
    · intro hpos
      refine ⟨?_, decide_eq_true hpos⟩
      by_contra hlarge
      have hnone : b.bit pos = false := by
        rw [Bitset.bit, List.getElem?_eq_none (by omega)]
      rw [h.bit] at hnone
      exact of_decide_eq_false hnone hpos
    · intro hpos
      exact of_decide_eq_true hpos.2
  rw [hmembers, List.toFinset_card_of_nodup (List.nodup_range.filter _),
    ← List.countP_eq_length_filter]
  exact popcnt_eq_count b.data

end Represents

/-! ## Any number of changes -/

/-- A change of a bit set. -/
inductive BitsetOp where
  | set (pos : Nat)
  | clear (pos : Nat)
  deriving DecidableEq

/-- The position of a change. -/
def BitsetOp.pos : BitsetOp → Nat
  | .set pos => pos
  | .clear pos => pos

/-- Make a change in a bit set. -/
def BitsetOp.apply (b : Bitset) : BitsetOp → Option Bitset
  | .set pos => b.set pos
  | .clear pos => b.clear pos

/-- Make a change in a set. -/
def BitsetOp.change (members : Finset Nat) : BitsetOp → Finset Nat
  | .set pos => insert pos members
  | .clear pos => members.erase pos

/-- Changes keep the bit set a representation of the set. -/
theorem represents_changes {bits : Nat} {b : Bitset} {members : Finset Nat} (ops : List BitsetOp)
    (h : Represents b bits members) (hops : ∀ op ∈ ops, op.pos < bits) :
    ∃ b', ops.foldlM BitsetOp.apply b = some b' ∧
      Represents b' bits (ops.foldl BitsetOp.change members) := by
  induction ops generalizing b members with
  | nil => exact ⟨b, rfl, h⟩
  | cons op rest ih =>
      have hpos := hops op List.mem_cons_self
      have hstep : ∃ b', op.apply b = some b' ∧ Represents b' bits (op.change members) := by
        cases op with
        | set pos => exact h.set hpos
        | clear pos => exact h.clear hpos
      obtain ⟨middle, happly, hmiddle⟩ := hstep
      obtain ⟨b', hrest, hb'⟩ := ih hmiddle fun op hop => hops op (List.mem_cons_of_mem _ hop)
      refine ⟨b', ?_, hb'⟩
      rw [List.foldlM_cons, happly]
      exact hrest

/-- However a bit set for positions below `bits` came about, `get` answers for its set, `popcnt`
counts it, and two of them are equal, and then have the same hash, exactly when their sets are. -/
theorem bitset_refines_sets (bits : Nat) (first second : List BitsetOp)
    (hfirst : ∀ op ∈ first, op.pos < bits) (hsecond : ∀ op ∈ second, op.pos < bits) :
    ∃ b b2, first.foldlM BitsetOp.apply (newBitset bits) = some b ∧
      second.foldlM BitsetOp.apply (newBitset bits) = some b2 ∧
      (∀ pos < bits, b.get pos = some (decide (pos ∈ first.foldl BitsetOp.change ∅))) ∧
      b.popcnt = (first.foldl BitsetOp.change ∅).card ∧
      (b.equals b2 = true ↔ first.foldl BitsetOp.change ∅ = second.foldl BitsetOp.change ∅) ∧
      (b.equals b2 = true → b.hash = b2.hash) := by
  obtain ⟨b, hb, hrep⟩ := represents_changes first (represents_new bits) hfirst
  obtain ⟨b2, hb2, hrep2⟩ := represents_changes second (represents_new bits) hsecond
  refine ⟨b, b2, hb, hb2, fun pos hpos => hrep.get hpos, hrep.popcnt, hrep.equals_iff hrep2, ?_⟩
  intro hequals
  rw [Bitset.equals_iff.mp hequals]

/-- Two ways to the set of the positions 3 and 64. -/
theorem bitset_refines_sets_two_words :
    ∃ b b2, [BitsetOp.set 3, .set 64].foldlM BitsetOp.apply (newBitset 65) = some b ∧
      [BitsetOp.set 64, .set 5, .set 3, .clear 5].foldlM BitsetOp.apply (newBitset 65) = some b2 ∧
      b.popcnt = 2 ∧ b.equals b2 = true ∧ b.hash = b2.hash := by
  obtain ⟨b, b2, hb, hb2, -, hcount, hequals, hhash⟩ := bitset_refines_sets 65
    [.set 3, .set 64] [.set 64, .set 5, .set 3, .clear 5] (by decide) (by decide)
  have hequal : b.equals b2 = true := hequals.mpr (by decide)
  exact ⟨b, b2, hb, hb2, hcount.trans (by decide), hequal, hhash hequal⟩

end DistributedLabs.Porcupine
