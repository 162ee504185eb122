import DistributedLabs.Library.GoString

/-!
# UTF-8 in Go strings

A Go string may have any bytes; Go reads a string as UTF-8 one rune at a time, and takes a byte at
which no encoded rune starts as an invalid rune of one byte. `runeSize` is the test of
`utf8.DecodeRune`: the table of first bytes, and the range of the byte that follows.

`mapRunes` goes through a string in this way. It is given by an equation for an encoded rune and one
for an invalid byte, and `rune_induction` is the induction that goes with them. A string is `Valid`
when it is a sequence of encoded runes; `toValid` replaces the invalid bytes, and changes nothing
exactly when the string is valid (`to_valid_eq_iff`).
-/

namespace DistributedLabs.Utf8

/-! ## Runes -/

/-- What may follow a first byte: the number of bytes, and the range of the first of them. -/
structure Follow where
  count : Nat
  lo : Nat
  hi : Nat

/-- The table of first bytes. -/
def follow (byte : Byte) : Option Follow :=
  if byte.val < 0x80 then some ⟨0, 0x80, 0xBF⟩
  else if byte.val < 0xC2 then none
  else if byte.val < 0xE0 then some ⟨1, 0x80, 0xBF⟩
  else if byte.val = 0xE0 then some ⟨2, 0xA0, 0xBF⟩
  else if byte.val = 0xED then some ⟨2, 0x80, 0x9F⟩
  else if byte.val < 0xF0 then some ⟨2, 0x80, 0xBF⟩
  else if byte.val = 0xF0 then some ⟨3, 0x90, 0xBF⟩
  else if byte.val < 0xF4 then some ⟨3, 0x80, 0xBF⟩
  else if byte.val = 0xF4 then some ⟨3, 0x80, 0x8F⟩
  else none

/-- The string starts with `count` bytes that continue a rune, the first of them in the range. -/
def continues : Nat → Nat → Nat → GoString → Bool
  | 0, _, _, _ => true
  | _ + 1, _, _, [] => false
  | count + 1, lo, hi, byte :: rest =>
      decide (lo ≤ byte.val ∧ byte.val ≤ hi) && continues count 0x80 0xBF rest

/-- The number of bytes of the encoded rune at the start of a string, if there is one. -/
def runeSize : GoString → Option Nat
  | [] => none
  | byte :: rest =>
      match follow byte with
      | some after =>
          if continues after.count after.lo after.hi rest then some (after.count + 1) else none
      | none => none

/-- The bytes of one encoded rune. -/
def IsRune (rune : GoString) : Prop := runeSize rune = some rune.length

section Runes

variable {byte : Byte} {rune rest string : GoString} {count lo hi size : Nat}

/-- A rune starts with a byte of the table, which is continued as the table says. -/
theorem rune_size_cons_iff :
    runeSize (byte :: rest) = some size ↔
      ∃ after, follow byte = some after ∧
        continues after.count after.lo after.hi rest = true ∧ size = after.count + 1 := by
  rw [runeSize]
  cases follow byte with
  | none => simp
  | some after =>
      dsimp only
      constructor
      · intro h
        split at h
        · rename_i hcontinues
          exact ⟨after, rfl, hcontinues, (Option.some.inj h).symm⟩
        · cases h
      · intro h
        obtain ⟨other, hother, hcontinues, rfl⟩ := h
        obtain rfl := Option.some.inj hother
        exact if_pos hcontinues

/-- Continuing is a matter of the bytes that continue. -/
theorem continues_take (h : continues count lo hi string = true) (more : GoString) :
    count ≤ string.length ∧ continues count lo hi (string.take count ++ more) = true := by
  induction count generalizing lo hi string with
  | zero => exact ⟨Nat.zero_le _, rfl⟩
  | succ count ih =>
      cases string with
      | nil => cases h
      | cons byte rest =>
          obtain ⟨hbyte, hrest⟩ := Bool.and_eq_true_iff.mp h
          obtain ⟨hle, hmore⟩ := ih hrest
          exact ⟨Nat.succ_le_succ hle, Bool.and_eq_true_iff.mpr ⟨hbyte, hmore⟩⟩

/-- A rune at the start of a string, followed by anything else, is a rune there. -/
theorem rune_size_take (h : runeSize string = some size) (more : GoString) :
    0 < size ∧ size ≤ string.length ∧ runeSize (string.take size ++ more) = some size := by
  cases string with
  | nil => cases h
  | cons byte rest =>
      obtain ⟨after, hafter, hcontinues, rfl⟩ := rune_size_cons_iff.mp h
      obtain ⟨hle, hmore⟩ := continues_take hcontinues more
      refine ⟨Nat.succ_pos _, Nat.succ_le_succ hle, ?_⟩
      rw [List.take_succ_cons, List.cons_append]
      exact rune_size_cons_iff.mpr ⟨after, hafter, hmore, rfl⟩

/-- The first bytes of a string that starts with a rune. -/
theorem is_rune_take (h : runeSize string = some size) : IsRune (string.take size) := by
  obtain ⟨-, hle, hsize⟩ := rune_size_take h []
  rw [List.append_nil] at hsize
  rw [IsRune, hsize, List.length_take, Nat.min_eq_left hle]

/-- A rune that is followed by anything. -/
theorem IsRune.size_append (h : IsRune rune) (rest : GoString) :
    runeSize (rune ++ rest) = some rune.length := by
  have hsize := (rune_size_take h rest).2.2
  rwa [List.take_length] at hsize

/-- A rune has a byte. -/
theorem IsRune.ne_nil (h : IsRune rune) : rune ≠ [] := by
  intro hnil
  subst hnil
  cases h

/-- A byte that continues a rune is not an ASCII character. -/
theorem le_of_continues (hlo : 0x80 ≤ lo) (h : continues string.length lo hi string = true) :
    ∀ byte ∈ string, 0x80 ≤ byte.val := by
  induction string generalizing lo hi with
  | nil => simp
  | cons byte rest ih =>
      obtain ⟨hbyte, hrest⟩ := Bool.and_eq_true_iff.mp h
      have hle := (of_decide_eq_true hbyte).1
      intro other hother
      cases hother with
      | head => omega
      | tail _ hmem => exact ih (Nat.le_refl _) hrest other hmem

/-- No ASCII character continues a rune. -/
theorem follow_lo {after : Follow} (h : follow byte = some after) : 0x80 ≤ after.lo := by
  -- one entry of the table after the other
  unfold follow at h
  grind

/-- A rune is an ASCII character, or has no ASCII character. -/
theorem IsRune.ascii_or (h : IsRune rune) :
    (∃ byte : Byte, byte.val < 0x80 ∧ rune = [byte]) ∨ ∀ byte ∈ rune, 0x80 ≤ byte.val := by
  cases rune with
  | nil => cases h
  | cons byte rest =>
      obtain ⟨after, hafter, hcontinues, hlength⟩ := rune_size_cons_iff.mp h
      rw [show after.count = rest.length from (Nat.succ.inj hlength).symm] at hcontinues
      by_cases hascii : byte.val < 0x80
      · rw [follow, if_pos hascii] at hafter
        obtain rfl := Option.some.inj hafter
        obtain rfl := List.length_eq_zero_iff.mp (Nat.succ.inj hlength)
        exact Or.inl ⟨byte, hascii, rfl⟩
      · have hlo := follow_lo hafter
        refine Or.inr fun other hother => ?_
        cases hother with
        | head => omega
        | tail _ hmem => exact le_of_continues hlo hcontinues other hmem

end Runes

/-- The code of an encoded rune. -/
def runeCode : GoString → Nat
  | [first] => first.val
  | [first, second] => first.val % 32 * 64 + second.val % 64
  | [first, second, third] => (first.val % 16 * 64 + second.val % 64) * 64 + third.val % 64
  | [first, second, third, fourth] =>
      ((first.val % 8 * 64 + second.val % 64) * 64 + third.val % 64) * 64 + fourth.val % 64
  | _ => 0xFFFD

/-- The first rune of a string, as `utf8.DecodeRuneInString` gives it: `U+FFFD` if the string is
empty or starts with an invalid byte. -/
def firstRune (string : GoString) : Nat :=
  match runeSize string with
  | some size => runeCode (string.take size)
  | none => 0xFFFD

/-! ## Going through a string -/

/-- Replace every encoded rune by its image and every invalid byte by `invalid`, after `skip`
bytes of a rune that has already been replaced. -/
def mapRunesFrom (image : GoString → GoString) (invalid : GoString) : Nat → GoString → GoString
  | _, [] => []
  | skip + 1, _ :: rest => mapRunesFrom image invalid skip rest
  | 0, byte :: rest =>
      match runeSize (byte :: rest) with
      | some size =>
          image ((byte :: rest).take size) ++ mapRunesFrom image invalid (size - 1) rest
      | none => invalid ++ mapRunesFrom image invalid 0 rest

/-- Replace every encoded rune by its image and every invalid byte by `invalid`. -/
def mapRunes (image : GoString → GoString) (invalid : GoString) (string : GoString) : GoString :=
  mapRunesFrom image invalid 0 string

section MapRunes

variable {image : GoString → GoString} {invalid rune rest string : GoString} {byte : Byte}

/-- Skipping is dropping. -/
theorem map_runes_from_eq (skip : Nat) :
    mapRunesFrom image invalid skip string = mapRunes image invalid (string.drop skip) := by
  induction skip generalizing string with
  | zero => rfl
  | succ skip ih =>
      cases string with
      | nil => rfl
      | cons byte rest => exact ih

/-- An encoded rune is replaced by its image. -/
theorem map_runes_rune (h : IsRune rune) (rest : GoString) :
    mapRunes image invalid (rune ++ rest) = image rune ++ mapRunes image invalid rest := by
  cases rune with
  | nil => exact absurd rfl h.ne_nil
  | cons byte tail =>
      have hsize := h.size_append rest
      rw [List.cons_append] at hsize ⊢
      rw [mapRunes, mapRunesFrom, hsize]
      dsimp only
      rw [map_runes_from_eq, ← List.cons_append, List.take_left, List.length_cons,
        Nat.add_sub_cancel, List.drop_left]

/-- A byte at which no encoded rune starts is replaced. -/
theorem map_runes_invalid (h : runeSize (byte :: rest) = none) :
    mapRunes image invalid (byte :: rest) = invalid ++ mapRunes image invalid rest := by
  rw [mapRunes, mapRunesFrom, h]
  rfl

/-- Induction along the runes of a string. -/
theorem rune_induction {motive : GoString → Prop} (nil : motive [])
    (rune : ∀ rune rest, IsRune rune → motive rest → motive (rune ++ rest))
    (invalid : ∀ byte rest, runeSize (byte :: rest) = none → motive rest → motive (byte :: rest))
    (string : GoString) : motive string := by
  induction hlength : string.length using Nat.strong_induction_on generalizing string with
  | _ length ih =>
      cases string with
      | nil => exact nil
      | cons byte rest =>
          cases hsize : runeSize (byte :: rest) with
          | none =>
              refine invalid byte rest hsize (ih rest.length ?_ rest rfl)
              rw [← hlength, List.length_cons]
              omega
          | some size =>
              have hpos := (rune_size_take hsize []).1
              have hrest := ih ((byte :: rest).drop size).length
                (by rw [List.length_drop, hlength, ← hlength, List.length_cons]; omega) _ rfl
              have hmotive := rune _ _ (is_rune_take hsize) hrest
              rwa [List.take_append_drop] at hmotive

end MapRunes

/-! ## Valid strings -/

/-- A sequence of encoded runes: the strings that `utf8.ValidString` accepts. -/
inductive Valid : GoString → Prop
  | nil : Valid []
  | rune {rune rest : GoString} : IsRune rune → Valid rest → Valid (rune ++ rest)

/-- The encoding of `U+FFFD`, the replacement character. -/
def replacement : GoString := [0xEF, 0xBF, 0xBD].map byteOf

/-- Replace every invalid byte by the replacement character. -/
def toValid (string : GoString) : GoString := mapRunes id replacement string

section Valid

variable {string : GoString}

/-- A byte of ASCII is a rune. -/
theorem is_rune_ascii {byte : Byte} (h : byte.val < 0x80) : IsRune [byte] := by
  simp [IsRune, runeSize, follow, continues, h]

/-- A string of ASCII is valid. -/
theorem valid_of_ascii (h : ∀ byte ∈ string, byte.val < 0x80) : Valid string := by
  induction string with
  | nil => exact .nil
  | cons byte rest ih =>
      exact .rune (is_rune_ascii (h byte List.mem_cons_self))
        (ih fun other hother => h other (List.mem_cons_of_mem _ hother))

/-- The replacement character is a rune. -/
theorem is_rune_replacement : IsRune replacement := by
  unfold IsRune
  decide

/-- An encoded rune is kept. -/
theorem to_valid_rune {rune : GoString} (h : IsRune rune) (rest : GoString) :
    toValid (rune ++ rest) = rune ++ toValid rest :=
  map_runes_rune h rest

/-- An invalid byte is replaced. -/
theorem to_valid_invalid {byte : Byte} {rest : GoString} (h : runeSize (byte :: rest) = none) :
    toValid (byte :: rest) = replacement ++ toValid rest :=
  map_runes_invalid h

/-- The result of the replacement is valid. -/
theorem valid_to_valid (string : GoString) : Valid (toValid string) := by
  induction string using rune_induction with
  | nil => exact Valid.nil
  | rune rune rest hrune ih =>
      rw [to_valid_rune hrune]
      exact Valid.rune hrune ih
  | invalid byte rest hbyte ih =>
      rw [to_valid_invalid hbyte]
      exact Valid.rune is_rune_replacement ih

/-- A valid string is left as it is. -/
theorem Valid.to_valid_eq (h : Valid string) : toValid string = string := by
  induction h with
  | nil => rfl
  | rune hrune hrest ih => rw [to_valid_rune hrune, ih]

/-- The replacement changes nothing exactly when the string is valid. -/
theorem to_valid_eq_iff : toValid string = string ↔ Valid string := by
  constructor
  · intro h
    rw [← h]
    exact valid_to_valid string
  · intro h
    exact h.to_valid_eq

instance : Decidable (Valid string) := decidable_of_iff _ to_valid_eq_iff

end Valid

end DistributedLabs.Utf8
