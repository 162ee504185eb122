import DistributedLabs.Library.GoString
import Mathlib.Data.List.Basic
import Mathlib.Logic.Function.Basic

/-!
# The files of a MapReduce job

The working directory that the coordinator's workers share, and the names of the files that a job
writes there: `mr-i-x` is what map task `i` leaves for reduce task `x`, and `mr-out-x` is the output
of reduce task `x`. Different tasks write different files. Temporary files have fresh names outside
this directory and stay private to their worker until they are renamed.
-/

namespace DistributedLabs.Mr

/-- The files by name; `none` is a file that does not exist. -/
abbrev Files := GoString → Option GoString

/-- `fmt.Sprintf("mr-%v-%v", index, bucket)`. -/
def intermediateName (index bucket : Nat) : GoString :=
  ascii ['m', 'r', '-'] ++ decimal index ++ ascii ['-'] ++ decimal bucket

/-- `fmt.Sprintf("mr-out-%v", index)`. -/
def outputName (index : Nat) : GoString :=
  ascii ['m', 'r', '-', 'o', 'u', 't', '-'] ++ decimal index

/-- A number has no dash. -/
theorem dash_not_mem_decimal (number : Nat) : (45 : Byte) ∉ decimal number := by
  intro h
  have hbounds := mem_decimal h
  exact absurd hbounds.1 (by decide)

/-- The two numbers of an intermediate file can be read off its name. -/
theorem intermediate_name_inj {index bucket index' bucket' : Nat}
    (h : intermediateName index bucket = intermediateName index' bucket') :
    index = index' ∧ bucket = bucket' := by
  simp only [intermediateName, List.append_assoc] at h
  have hnumbers : decimal index ++ (45 : Byte) :: decimal bucket =
      decimal index' ++ (45 : Byte) :: decimal bucket' := List.append_cancel_left h
  obtain ⟨hindex, -, hbucket⟩ := (List.append_cons_inj_of_notMem (dash_not_mem_decimal index)
    (dash_not_mem_decimal bucket)).mp hnumbers
  exact ⟨decimal_injective hindex, decimal_injective hbucket⟩

/-- The number of an output file can be read off its name. -/
theorem output_name_injective : Function.Injective outputName := by
  intro index index' h
  exact decimal_injective (List.append_cancel_left h)

/-- No output file is an intermediate file. -/
theorem intermediate_ne_output (index bucket output : Nat) :
    intermediateName index bucket ≠ outputName output := by
  intro h
  simp only [intermediateName, List.append_assoc] at h
  have hnames : ascii ['m', 'r', '-'] ++ (decimal index ++ (ascii ['-'] ++ decimal bucket)) =
      ascii ['m', 'r', '-'] ++ (ascii ['o', 'u', 't', '-'] ++ decimal output) := h
  have htail := List.append_cancel_left hnames
  cases hdigits : decimal index with
  | nil => exact decimal_ne_nil index hdigits
  | cons digit rest =>
      -- the first byte of the number would have to be the letter `o`
      rw [hdigits] at htail
      obtain ⟨hbyte, -⟩ := List.cons.inj htail
      have hbounds := mem_decimal (show digit ∈ decimal index by rw [hdigits]; simp)
      rw [hbyte] at hbounds
      exact absurd hbounds.2 (by decide)

end DistributedLabs.Mr
