import Mathlib.Data.BitVec
import Mathlib.Tactic.SplitIfs

/-!
# Fields of bits

A field is `len` bits of a word from `off` on.  It is read with a shift and a mask, and written by
clearing its place and shifting the value there.
-/

namespace BitField

variable {w len off i : ℕ}

/-- The `n` low bits. -/
def lowMask (w n : ℕ) : BitVec w :=
  1#w <<< n - 1#w

def read (x : BitVec w) (off len : ℕ) : BitVec w :=
  x >>> off &&& lowMask w len

def write (x v : BitVec w) (off len : ℕ) : BitVec w :=
  x &&& ~~~(lowMask w len <<< off) ||| v <<< off

theorem getLsbD_lowMask (hlen : len < w) (i : ℕ) :
    (lowMask w len).getLsbD i = decide (i < len) := by
  have hone : 1 < 2 ^ w := Nat.one_lt_two_pow (by omega)
  have hlt : 2 ^ len < 2 ^ w := Nat.pow_lt_pow_right (by decide) hlen
  have hpos : 0 < 2 ^ len := Nat.two_pow_pos len
  have hmask : (lowMask w len).toNat = 2 ^ len - 1 := by
    unfold lowMask
    rw [BitVec.toNat_sub_of_le, BitVec.toNat_shiftLeft, BitVec.toNat_ofNat, Nat.mod_eq_of_lt hone,
      Nat.one_shiftLeft, Nat.mod_eq_of_lt hlt]
    rw [BitVec.le_def, BitVec.toNat_shiftLeft, BitVec.toNat_ofNat, Nat.mod_eq_of_lt hone,
      Nat.one_shiftLeft, Nat.mod_eq_of_lt hlt]
    exact hpos
  rw [← BitVec.testBit_toNat, hmask, Nat.testBit_two_pow_sub_one]

theorem getLsbD_read (x : BitVec w) (off : ℕ) (hlen : len < w) (i : ℕ) :
    (read x off len).getLsbD i = (decide (i < len) && x.getLsbD (off + i)) := by
  unfold read
  rw [BitVec.getLsbD_and, BitVec.getLsbD_ushiftRight, getLsbD_lowMask hlen, Bool.and_comm]

/-- A field of so many bits holds no larger value. -/
theorem read_lt (x : BitVec w) (off : ℕ) (hlen : len < w) : (read x off len).toNat < 2 ^ len := by
  apply Nat.lt_pow_two_of_testBit
  intro i hi
  rw [BitVec.testBit_toNat, getLsbD_read x off hlen]
  simp [Nat.not_lt.mpr hi]

/-- A value of so many bits has none beyond them. -/
theorem getLsbD_of_lt_two_pow {v : BitVec w} (hv : v.toNat < 2 ^ len) (hi : len ≤ i) :
    v.getLsbD i = false := by
  rw [← BitVec.testBit_toNat]
  exact Nat.testBit_lt_two_pow (Nat.lt_of_lt_of_le hv (Nat.pow_le_pow_right (by decide) hi))

/-- The bits of the value are in the field, and the others are as they were. -/
theorem getLsbD_write (x : BitVec w) {v : BitVec w} (hlen : len < w) (hv : v.toNat < 2 ^ len)
    (off : ℕ) (hi : i < w) : (write x v off len).getLsbD i =
      if off ≤ i ∧ i < off + len then v.getLsbD (i - off) else x.getLsbD i := by
  unfold write
  rw [BitVec.getLsbD_or, BitVec.getLsbD_and, BitVec.getLsbD_not, BitVec.getLsbD_shiftLeft,
    BitVec.getLsbD_shiftLeft, getLsbD_lowMask hlen]
  by_cases hbelow : i < off
  · rw [if_neg (by omega)]
    simp [hi, hbelow]
  · by_cases hinside : i < off + len
    · rw [if_pos ⟨not_lt.mp hbelow, hinside⟩]
      simp [hi, hbelow, show i - off < len by omega]
    · rw [if_neg (by omega), getLsbD_of_lt_two_pow hv (show len ≤ i - off by omega)]
      simp [hi, hbelow, show ¬ i - off < len by omega]

/-- Testing a single bit. -/
theorem and_one_shiftLeft_ne_zero (x : BitVec w) (i : ℕ) :
    x &&& 1#w <<< i ≠ 0#w ↔ x.getLsbD i = true := by
  rw [← BitVec.twoPow_eq, BitVec.and_twoPow]
  cases hbit : x.getLsbD i
  · simp
  · have hi : i < w := BitVec.lt_of_getLsbD hbit
    rw [if_pos rfl]
    refine iff_of_true (fun hzero ↦ ?_) rfl
    have hget := congrArg (fun x ↦ x.getLsbD i) hzero
    simp [hi] at hget

end BitField
