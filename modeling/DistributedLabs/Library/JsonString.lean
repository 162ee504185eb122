import DistributedLabs.Library.Utf8
import Mathlib.Tactic.IntervalCases

/-!
# String literals of `encoding/json`

`quote` is the text between the quotes that `Encode` writes for a Go string: it escapes the quote,
the backslash, the control characters, the characters with a meaning in HTML and the two line
separators, and writes the escape of `U+FFFD` for an invalid byte. `unquote` reads such a text up to
its closing quote. Reading gives back the string with the invalid bytes replaced, `unquote_quote`.
-/

namespace DistributedLabs.JsonString

open Utf8

/-! ## Writing -/

/-- A hexadecimal digit. -/
def hexDigit (digit : Nat) : Byte :=
  if digit < 10 then byteOf (48 + digit) else byteOf (87 + digit)

/-- The escape of an ASCII character. -/
def escapeAscii (byte : Byte) : GoString :=
  if byte.val = 34 ∨ byte.val = 92 then [byteOf 92, byte]
  else if byte.val = 10 then ascii ['\\', 'n']
  else if byte.val = 13 then ascii ['\\', 'r']
  else if byte.val = 9 then ascii ['\\', 't']
  else if byte.val < 32 ∨ byte.val = 38 ∨ byte.val = 60 ∨ byte.val = 62 then
    ascii ['\\', 'u', '0', '0'] ++ [hexDigit (byte.val / 16), hexDigit (byte.val % 16)]
  else [byte]

/-- The encodings of `U+2028` and `U+2029`. -/
def lineSeparator (last : Nat) : GoString := [0xE2, 0x80, last].map byteOf

/-- The escape of an encoded rune. -/
def escape : GoString → GoString
  | [byte] => escapeAscii byte
  | rune =>
      if rune = lineSeparator 0xA8 then ascii ['\\', 'u', '2', '0', '2', '8']
      else if rune = lineSeparator 0xA9 then ascii ['\\', 'u', '2', '0', '2', '9']
      else rune

/-- What stands between the quotes of a string literal. -/
def quote (string : GoString) : GoString :=
  mapRunes escape (ascii ['\\', 'u', 'f', 'f', 'f', 'd']) string

/-! ## Reading -/

/-- The value of a hexadecimal digit. -/
def hexValue (byte : Byte) : Option Nat :=
  if 48 ≤ byte.val ∧ byte.val ≤ 57 then some (byte.val - 48)
  else if 97 ≤ byte.val ∧ byte.val ≤ 102 then some (byte.val - 87)
  else if 65 ≤ byte.val ∧ byte.val ≤ 70 then some (byte.val - 55)
  else none

/-- `utf8.EncodeRune` of a code of at most four hexadecimal digits. -/
def encodeRune (code : Nat) : GoString :=
  if code < 0x80 then [byteOf code]
  else if code < 0x800 then [byteOf (0xC0 + code / 64), byteOf (0x80 + code % 64)]
  else [byteOf (0xE0 + code / 4096), byteOf (0x80 + code / 64 % 64), byteOf (0x80 + code % 64)]

/-- The rune of four hexadecimal digits. Surrogates, which are never written, are not read. -/
def readCode (first second third fourth : Byte) : Option GoString := do
  let first ← hexValue first
  let second ← hexValue second
  let third ← hexValue third
  let fourth ← hexValue fourth
  let code := ((first * 16 + second) * 16 + third) * 16 + fourth
  if 0xD800 ≤ code ∧ code < 0xE000 then none else some (encodeRune code)

/-- What follows a backslash and `u`. -/
def readUnicode : GoString → Option (GoString × Nat)
  | first :: second :: third :: fourth :: _ =>
      (readCode first second third fourth).map fun rune => (rune, 5)
  | _ => none

/-- What follows a backslash: the bytes that it stands for, and how many bytes are read. -/
def readEscape : GoString → Option (GoString × Nat)
  | [] => none
  | byte :: rest =>
      if byte.val = 34 ∨ byte.val = 92 ∨ byte.val = 47 then some ([byte], 1)
      else if byte.val = 98 then some ([byteOf 8], 1)
      else if byte.val = 102 then some ([byteOf 12], 1)
      else if byte.val = 110 then some ([byteOf 10], 1)
      else if byte.val = 114 then some ([byteOf 13], 1)
      else if byte.val = 116 then some ([byteOf 9], 1)
      else if byte.val = 117 then readUnicode rest
      else none

/-- Put bytes in front of the string that is read. -/
def prepend (bytes : GoString) (read : GoString × GoString) : GoString × GoString :=
  (bytes ++ read.1, read.2)

/-- Read up to the closing quote, after `skip` bytes of an escape that has already been read. The
result is the string and what follows the quote. -/
def unquoteFrom : Nat → GoString → Option (GoString × GoString)
  | _, [] => none
  | skip + 1, _ :: rest => unquoteFrom skip rest
  | 0, byte :: rest =>
      if byte.val = 34 then some ([], rest)
      else if byte.val = 92 then
        match readEscape rest with
        | some (bytes, size) => (unquoteFrom size rest).map (prepend bytes)
        | none => none
      else if byte.val < 32 then none
      else (unquoteFrom 0 rest).map (prepend [byte])

/-- Read a string literal after its opening quote. -/
def unquote (stream : GoString) : Option (GoString × GoString) := unquoteFrom 0 stream

/-! ## Reading what was written -/

section RoundTrip

variable {byte : Byte} {bytes rune more rest : GoString} {size : Nat}

/-- Skipping is dropping. -/
theorem unquote_from_eq (skip : Nat) (stream : GoString) :
    unquoteFrom skip stream = unquote (stream.drop skip) := by
  induction skip generalizing stream with
  | zero => rfl
  | succ skip ih =>
      cases stream with
      | nil => rfl
      | cons byte rest => exact ih rest

/-- The closing quote ends the string. -/
theorem unquote_end (rest : GoString) : unquote (byteOf 34 :: rest) = some ([], rest) := rfl

/-- An escape stands for its bytes. -/
theorem unquote_escape (text : GoString) {more : GoString}
    (h : readEscape (text ++ more) = some (bytes, text.length)) :
    unquote (byteOf 92 :: (text ++ more)) = (unquote more).map (prepend bytes) := by
  rw [unquote, unquoteFrom, if_neg (by decide), if_pos (by decide), h]
  dsimp only
  rw [unquote_from_eq, List.drop_left]

/-- Other bytes stand for themselves. -/
theorem unquote_literal (hcontrol : 32 ≤ byte.val) (hquote : byte.val ≠ 34)
    (hbackslash : byte.val ≠ 92) (more : GoString) :
    unquote (byte :: more) = (unquote more).map (prepend [byte]) := by
  rw [unquote, unquoteFrom, if_neg hquote, if_neg hbackslash, if_neg (by omega)]
  rfl

/-- A run of bytes outside ASCII stands for itself. -/
theorem unquote_literals (h : ∀ byte ∈ rune, 0x80 ≤ byte.val) (more : GoString) :
    unquote (rune ++ more) = (unquote more).map (prepend rune) := by
  induction rune with
  | nil =>
      show unquote more = (unquote more).map (prepend [])
      cases unquote more <;> rfl
  | cons byte rest ih =>
      have hbyte := h byte List.mem_cons_self
      rw [List.cons_append, unquote_literal (by omega) (by omega) (by omega),
        ih fun other hother => h other (List.mem_cons_of_mem _ hother), Option.map_map]
      rfl

/-- The digits of a number below 16 are read as the number. -/
theorem hex_value_digit {digit : Nat} (h : digit < 16) :
    hexValue (hexDigit digit) = some digit := by
  interval_cases digit <;> rfl

/-- The code of an ASCII character is read as the character. -/
theorem read_code_ascii (h : byte.val < 0x80) :
    readCode (byteOf 48) (byteOf 48) (hexDigit (byte.val / 16)) (hexDigit (byte.val % 16)) =
      some [byte] := by
  have hzero : hexValue (byteOf 48) = some 0 := rfl
  have hcode : ((0 * 16 + 0) * 16 + byte.val / 16) * 16 + byte.val % 16 = byte.val := by omega
  have hbyte : byteOf byte.val = byte := Fin.ext (Nat.mod_eq_of_lt byte.isLt)
  rw [readCode, hzero, hex_value_digit (by omega), hex_value_digit (by omega)]
  simp only [Option.bind_eq_bind, Option.bind_some, hcode]
  rw [if_neg (by omega), encodeRune, if_pos h, hbyte]

/-- The escape of a single byte is read as the byte. -/
theorem unquote_escape_ascii (byte : Byte) (more : GoString) :
    unquote (escapeAscii byte ++ more) = (unquote more).map (prepend [byte]) := by
  unfold escapeAscii
  split_ifs with hself hnewline hreturn htab hcode
  · refine unquote_escape [byte] ?_
    rw [List.singleton_append, readEscape, if_pos (by omega)]
    rfl
  · obtain rfl : byte = byteOf 10 := Fin.ext hnewline
    exact unquote_escape (ascii ['n']) rfl
  · obtain rfl : byte = byteOf 13 := Fin.ext hreturn
    exact unquote_escape (ascii ['r']) rfl
  · obtain rfl : byte = byteOf 9 := Fin.ext htab
    exact unquote_escape (ascii ['t']) rfl
  · refine unquote_escape
      (ascii ['u', '0', '0'] ++ [hexDigit (byte.val / 16), hexDigit (byte.val % 16)]) ?_
    show (readCode (byteOf 48) (byteOf 48) (hexDigit (byte.val / 16))
      (hexDigit (byte.val % 16))).map (fun rune => (rune, 5)) = some ([byte], 5)
    rw [read_code_ascii (by omega)]
    rfl
  · exact unquote_literal (by omega) (by omega) (by omega) more

/-- The escape of an encoded rune is read as the rune. -/
theorem unquote_escape_rune (h : IsRune rune) (more : GoString) :
    unquote (escape rune ++ more) = (unquote more).map (prepend rune) := by
  unfold escape
  split
  · rename_i byte
    exact unquote_escape_ascii byte more
  · rename_i hlonger
    have hbytes : ∀ byte ∈ rune, 0x80 ≤ byte.val := by
      rcases h.ascii_or with ⟨byte, -, rfl⟩ | hbytes
      · exact absurd rfl (hlonger byte)
      · exact hbytes
    split_ifs with hline hparagraph
    · subst hline
      exact unquote_escape (ascii ['u', '2', '0', '2', '8']) rfl
    · subst hparagraph
      exact unquote_escape (ascii ['u', '2', '0', '2', '9']) rfl
    · exact unquote_literals hbytes more

/-- Reading what was written gives the string with its invalid bytes replaced. -/
theorem unquote_quote (string rest : GoString) :
    unquote (quote string ++ byteOf 34 :: rest) = some (toValid string, rest) := by
  induction string using rune_induction with
  | nil => exact unquote_end rest
  | rune rune tail hrune ih =>
      have hquote : quote (rune ++ tail) = escape rune ++ quote tail := map_runes_rune hrune tail
      rw [hquote, List.append_assoc, unquote_escape_rune hrune, ih, to_valid_rune hrune]
      rfl
  | invalid byte tail hbyte ih =>
      have hquote : quote (byte :: tail) = byteOf 92 :: (ascii ['u', 'f', 'f', 'f', 'd'] ++
          quote tail) := map_runes_invalid hbyte
      have hread : readEscape (ascii ['u', 'f', 'f', 'f', 'd'] ++ (quote tail ++
          byteOf 34 :: rest)) = some (replacement, 5) := rfl
      rw [hquote, List.cons_append, List.append_assoc, unquote_escape _ hread, ih,
        to_valid_invalid hbyte]
      rfl

/-- Reading leaves a shorter stream, also after an escape. -/
theorem unquote_from_shorter {stream : GoString} {skip : Nat} {string rest : GoString}
    (h : unquoteFrom skip stream = some (string, rest)) : rest.length < stream.length := by
  induction stream generalizing skip string with
  | nil => cases skip <;> cases h
  | cons byte tail ih =>
      have hlater : ∀ {skip string}, unquoteFrom skip tail = some (string, rest) →
          rest.length < (byte :: tail).length :=
        fun hread => Nat.lt_succ_of_lt (ih hread)
      cases skip with
      | succ skip => exact hlater h
      | zero =>
          rw [unquoteFrom] at h
          split_ifs at h with hquote hbackslash hcontrol
          · obtain ⟨-, rfl⟩ := Prod.mk.inj (Option.some.inj h)
            exact Nat.lt_succ_self _
          · cases hescape : readEscape tail with
            | none =>
                rw [hescape] at h
                cases h
            | some read =>
                rw [hescape] at h
                obtain ⟨⟨text, last⟩, hread, heq⟩ := Option.map_eq_some_iff.mp h
                obtain ⟨-, rfl⟩ := Prod.mk.inj heq
                exact hlater hread
          · obtain ⟨⟨text, last⟩, hread, heq⟩ := Option.map_eq_some_iff.mp h
            obtain ⟨-, rfl⟩ := Prod.mk.inj heq
            exact hlater hread

/-- Reading leaves a shorter stream. -/
theorem unquote_shorter {stream string rest : GoString} (h : unquote stream = some (string, rest)) :
    rest.length < stream.length :=
  unquote_from_shorter h

end RoundTrip

end DistributedLabs.JsonString
