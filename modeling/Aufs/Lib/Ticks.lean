-- SUMMARY: Tick counters that wrap around in a long of 64 bits, and which of two of them is later.
import Mathlib.Order.Basic

/-!
# Wrapping ticks

Times are natural numbers that never wrap; a program sees them modulo the range of
a `long`. A comparison of two of them is right as long as they are no more than half of
the range apart.
-/

namespace Ticks

/-- A natural number as an `unsigned long`. -/
def ulong (n : Nat) : Nat := (BitVec.ofNat 64 n).toNat

/-- `time_after(a, b)`: the difference `b - a` is negative as a `long`. -/
def timeAfter (a b : Nat) : Bool := (BitVec.ofNat 64 b - BitVec.ofNat 64 a).msb

theorem timeAfter_eq (a b : Nat) :
    timeAfter a b =
      decide (9223372036854775808 ≤ (18446744073709551616 - a % 18446744073709551616 + b) %
        18446744073709551616) := by
  have hsub : (BitVec.ofNat 64 b - BitVec.ofNat 64 a).toNat =
      (18446744073709551616 - a % 18446744073709551616 + b) % 18446744073709551616 := by
    rw [BitVec.toNat_sub, BitVec.toNat_ofNat, BitVec.toNat_ofNat]
    omega
  rw [timeAfter, BitVec.msb_eq_decide, hsub]

/-- The span `s` is over, and by no more than half of the range. -/
theorem timeAfter_iff {start now span : Nat} {s : Int}
    (hspan : (span : Int) % 18446744073709551616 = s % 18446744073709551616)
    (hlow : -9223372036854775808 ≤ s - ((now : Int) - start))
    (hhigh : s - ((now : Int) - start) < 9223372036854775808) :
    timeAfter now (start + span) = true ↔ s < (now : Int) - start := by
  rw [timeAfter_eq, decide_eq_true_eq]
  omega

/-- The product of two 32-bit numbers as an `int` is no more than the product, unless it
falls below the range. -/
theorem toInt_mul_le {x y : BitVec 32} (h : -2147483648 ≤ x.toInt * y.toInt) :
    (x * y).toInt ≤ x.toInt * y.toInt := by
  rw [BitVec.toInt_mul]
  generalize x.toInt * y.toInt = p at h
  rw [Int.bmod_def]
  omega

end Ticks
