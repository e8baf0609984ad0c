import Mathlib.Tactic.Ring
import Mathlib.Tactic.SplitIfs

set_option autoImplicit false

/-!
# Numbers of 64 bits

A sum, a difference or a product that may be no number of 64 bits, and what goes on only where it is
one.
-/
namespace SoutherNative.Checked

def i64 (n : ℤ) : Option ℤ :=
  if -9223372036854775808 ≤ n ∧ n < 9223372036854775808 then some n else none

theorem i64_of {n : ℤ} (h : -9223372036854775808 ≤ n ∧ n < 9223372036854775808) :
    i64 n = some n := if_pos h

theorem i64_bind {A : Type} {n : ℤ} {next : ℤ → Option A}
    (h : -9223372036854775808 ≤ n ∧ n < 9223372036854775808) : (i64 n >>= next) = next n := by
  rw [i64_of h]
  rfl

/-- A number that is in a range is answered where the range is one of numbers of 64 bits, whether it
overflows or is only out of the range. -/
theorem i64_filter {n low high : ℤ} (hlow : -9223372036854775808 ≤ low)
    (hhigh : high < 9223372036854775808) :
    (i64 n).filter (fun it => low ≤ it ∧ it ≤ high) =
      if low ≤ n ∧ n ≤ high then some n else none := by
  rw [i64]
  split_ifs with hfits hin hin
  · simp [hin]
  · simpa using hin
  · omega
  · rfl

end SoutherNative.Checked
