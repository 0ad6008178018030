import Mathlib.Algebra.Order.Group.Unbundled.Abs
import Mathlib.Algebra.Order.Group.Int
import Mathlib.Data.BitVec

/-!
# Clocks that wrap

A clock of `w` bits shows the residue of the time.  Two readings whose times lie less than half a
period apart are in the order that the sign of their difference tells.
-/

namespace WrapClock

variable {w : ℕ} {x y : ℤ}

/-- What the clock shows at a time. -/
def reading (w : ℕ) (t : ℤ) : BitVec w :=
  BitVec.ofInt w t

/-- The difference of two readings, with a sign. -/
def ahead (a b : BitVec w) : ℤ :=
  (a - b).toInt

theorem reading_add (x y : ℤ) : reading w (x + y) = reading w x + reading w y :=
  BitVec.ofInt_add x y

theorem reading_mul (x y : ℤ) : reading w (x * y) = reading w x * reading w y :=
  BitVec.ofInt_mul x y

theorem reading_toNat (a : BitVec w) : reading w a.toNat = a := by
  unfold reading
  rw [BitVec.ofInt_natCast, BitVec.ofNat_toNat, BitVec.setWidth_eq]

theorem ahead_reading (x y : ℤ) : ahead (reading w x) (reading w y) = (x - y).bmod (2 ^ w) := by
  unfold ahead reading
  rw [BitVec.toInt_sub, BitVec.toInt_ofInt, BitVec.toInt_ofInt, Int.bmod_sub_bmod,
    Int.sub_bmod_bmod]

/-- Less than half a period apart, nothing is lost. -/
theorem ahead_of_near (h : 2 * |x - y| < 2 ^ w) : ahead (reading w x) (reading w y) = x - y := by
  rw [ahead_reading]
  have hle := neg_abs_le (x - y)
  have hge := le_abs_self (x - y)
  apply Int.bmod_eq_of_le_mul_two
  · push_cast
    omega
  · push_cast
    omega

/-- A reading is behind another when its time is earlier. -/
theorem ahead_neg_iff (h : 2 * |x - y| < 2 ^ w) :
    ahead (reading w x) (reading w y) < 0 ↔ x < y := by
  rw [ahead_of_near h]
  omega

theorem ahead_self (a : BitVec w) : ahead a a = 0 := by
  unfold ahead
  rw [BitVec.sub_self, BitVec.toInt_zero]

end WrapClock
