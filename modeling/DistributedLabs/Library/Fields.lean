import DistributedLabs.Library.Utf8

/-!
# Fields of Go strings

`strings.FieldsFunc` cuts a string into its maximal runs of runes that are not separators. `fields`
goes through the string with the field that it has read so far. Like every loop over the runes of a
string, it takes an invalid byte for `U+FFFD`; when `U+FFFD` is a separator, the fields are valid
UTF-8, whatever the string is (`valid_of_mem_fields`).
-/

namespace DistributedLabs.Utf8

/-- A field that has come to its end. -/
def endField (field : GoString) : List GoString :=
  if field = [] then [] else [field]

/-- The fields of a string behind the part of a field that has been read, after `skip` bytes of a
rune that has already been read. -/
def fieldsFrom (inside : Nat → Bool) : Nat → GoString → GoString → List GoString
  | _, field, [] => endField field
  | skip + 1, field, _ :: rest => fieldsFrom inside skip field rest
  | 0, field, byte :: rest =>
      match runeSize (byte :: rest) with
      | some size =>
          if inside (runeCode ((byte :: rest).take size)) then
            fieldsFrom inside (size - 1) (field ++ (byte :: rest).take size) rest
          else endField field ++ fieldsFrom inside (size - 1) [] rest
      | none =>
          if inside 0xFFFD then fieldsFrom inside 0 (field ++ [byte]) rest
          else endField field ++ fieldsFrom inside 0 [] rest

/-- The maximal runs of runes that are inside of a field. -/
def fields (inside : Nat → Bool) (string : GoString) : List GoString :=
  fieldsFrom inside 0 [] string

variable {inside : Nat → Bool} {field rune rest string : GoString} {byte : Byte}

/-- Skipping is dropping. -/
theorem fields_from_eq (skip : Nat) :
    fieldsFrom inside skip field string = fieldsFrom inside 0 field (string.drop skip) := by
  induction skip generalizing string with
  | zero => rfl
  | succ skip ih =>
      cases string with
      | nil => rfl
      | cons byte rest => exact ih

/-- A rune goes on with the field or ends it. -/
theorem fields_from_rune (h : IsRune rune) (rest : GoString) :
    fieldsFrom inside 0 field (rune ++ rest) =
      if inside (runeCode rune) then fieldsFrom inside 0 (field ++ rune) rest
      else endField field ++ fieldsFrom inside 0 [] rest := by
  cases rune with
  | nil => exact absurd rfl h.ne_nil
  | cons byte tail =>
      have hsize := h.size_append rest
      rw [List.cons_append] at hsize ⊢
      rw [fieldsFrom, hsize]
      dsimp only
      have hskip : ∀ read, fieldsFrom inside ((byte :: tail).length - 1) read (tail ++ rest) =
          fieldsFrom inside 0 read rest := by
        intro read
        rw [fields_from_eq, List.length_cons, Nat.add_sub_cancel, List.drop_left]
      rw [hskip, hskip, ← List.cons_append, List.take_left]

/-- An invalid byte ends the field, if `U+FFFD` is a separator. -/
theorem fields_from_invalid (hinside : inside 0xFFFD = false)
    (h : runeSize (byte :: rest) = none) :
    fieldsFrom inside 0 field (byte :: rest) =
      endField field ++ fieldsFrom inside 0 [] rest := by
  rw [fieldsFrom, h]
  dsimp only
  rw [if_neg (by rw [hinside]; simp)]

/-- One more rune. -/
theorem Valid.concat (h : Valid field) (hrune : IsRune rune) : Valid (field ++ rune) := by
  induction h with
  | nil =>
      have hsingle := Valid.rune hrune Valid.nil
      rwa [List.append_nil] at hsingle
  | rune hfirst hrest ih =>
      rw [List.append_assoc]
      exact Valid.rune hfirst ih

/-- A field that has come to its end is valid. -/
theorem valid_of_mem_end_field {other : GoString} (h : Valid field)
    (hother : other ∈ endField field) : Valid other := by
  unfold endField at hother
  split at hother
  · cases hother
  · obtain rfl := List.mem_singleton.mp hother
    exact h

/-- What follows a valid part of a field gives valid fields, if `U+FFFD` is a separator. -/
theorem valid_of_mem_fields_from (hinside : inside 0xFFFD = false) {other : GoString}
    (hfield : Valid field) (h : other ∈ fieldsFrom inside 0 field string) : Valid other := by
  induction string using rune_induction generalizing field with
  | nil => exact valid_of_mem_end_field hfield h
  | rune rune rest hrune ih =>
      rw [fields_from_rune hrune] at h
      split at h
      · exact ih (hfield.concat hrune) h
      · rcases List.mem_append.mp h with hended | hlater
        · exact valid_of_mem_end_field hfield hended
        · exact ih Valid.nil hlater
  | invalid byte rest hbyte ih =>
      rw [fields_from_invalid hinside hbyte] at h
      rcases List.mem_append.mp h with hended | hlater
      · exact valid_of_mem_end_field hfield hended
      · exact ih Valid.nil hlater

/-- The fields of a string are valid, if `U+FFFD` is a separator. -/
theorem valid_of_mem_fields (hinside : inside 0xFFFD = false) (h : field ∈ fields inside string) :
    Valid field :=
  valid_of_mem_fields_from hinside Valid.nil h

end DistributedLabs.Utf8
