import Mathlib.Data.Fin.Basic
import Mathlib.Data.List.Lex
import Mathlib.Order.Fin.Basic
import Mathlib.Tactic.Common

/-!
# Go strings

A Go string is an immutable sequence of bytes, which need not be valid UTF-8. Concatenation is
list append, the empty string is `[]`, and the order of Go's `<` is the lexicographic order on
bytes, which is the order of lists. `decimal` is what `%v` prints for a natural number.
-/

namespace DistributedLabs

/-- A byte. -/
abbrev Byte := Fin 256

/-- A Go string: a sequence of bytes. -/
abbrev GoString := List Byte

/-- The Go string of a text in ASCII. -/
def ascii (text : List Char) : GoString :=
  text.map fun char => Fin.ofNat 256 char.toNat

/-- A byte, by its number. -/
abbrev byteOf (number : Nat) : Byte := Fin.ofNat 256 number

/-- The decimal digits of a number. -/
def decimal (number : Nat) : GoString :=
  ascii (Nat.toDigits 10 number)

/-- Texts in ASCII with the same bytes are the same. -/
theorem ascii_inj {first second : List Char} (hfirst : ∀ char ∈ first, char.toNat < 256)
    (hsecond : ∀ char ∈ second, char.toNat < 256) (h : ascii first = ascii second) :
    first = second := by
  induction first generalizing second with
  | nil => exact (List.map_eq_nil_iff.mp h.symm).symm
  | cons char rest ih =>
      cases second with
      | nil => cases h
      | cons char' rest' =>
          obtain ⟨hbyte, hrest⟩ := List.cons.inj h
          have hnat : char.toNat = char'.toNat := by
            have hval := congrArg Fin.val hbyte
            simpa only [Fin.val_ofNat, Nat.mod_eq_of_lt (hfirst char List.mem_cons_self),
              Nat.mod_eq_of_lt (hsecond char' List.mem_cons_self)] using hval
          rw [Char.toNat_inj.mp hnat, ih (fun c hc => hfirst c (List.mem_cons_of_mem _ hc))
            (fun c hc => hsecond c (List.mem_cons_of_mem _ hc)) hrest]

/-- The characters of a number are digits. -/
theorem digit_bounds {number : Nat} {char : Char} (h : char ∈ Nat.toDigits 10 number) :
    48 ≤ char.toNat ∧ char.toNat ≤ 57 := by
  have hdigit := Nat.isDigit_of_mem_toDigits (by decide) (by decide) h
  simpa [Char.isDigit, UInt32.le_iff_toNat_le] using hdigit

/-- Different numbers are printed differently. -/
theorem decimal_injective : Function.Injective decimal := by
  intro first second h
  have hdigits : Nat.toDigits 10 first = Nat.toDigits 10 second := by
    refine ascii_inj ?_ ?_ h
    · intro char hchar
      have := digit_bounds hchar
      omega
    · intro char hchar
      have := digit_bounds hchar
      omega
  have hparsed := congrArg (fun digits => Nat.ofDigitChars 10 digits 0) hdigits
  simpa using hparsed

/-- The bytes of a number are digits. -/
theorem mem_decimal {number : Nat} {byte : Byte} (h : byte ∈ decimal number) :
    48 ≤ byte.val ∧ byte.val ≤ 57 := by
  obtain ⟨char, hchar, rfl⟩ := List.mem_map.mp h
  have hbounds := digit_bounds hchar
  rw [Fin.val_ofNat, Nat.mod_eq_of_lt (by omega)]
  exact hbounds

/-- Every number has a digit. -/
theorem decimal_ne_nil (number : Nat) : decimal number ≠ [] := by
  intro h
  exact Nat.toDigits_ne_nil (List.map_eq_nil_iff.mp h)

end DistributedLabs
