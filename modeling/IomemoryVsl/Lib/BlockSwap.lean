import Mathlib.Data.BitVec
import Mathlib.Tactic.SplitIfs

/-!
# Swapping blocks of bits

Reversing the bytes of a word by swapping adjacent blocks, from single bytes to halves.  A swap is
described by where each bit comes from.
-/

namespace BlockSwap

variable {w : ℕ}

/-- The place in the neighbouring block of `k` bits. -/
def partner (k i : ℕ) : ℕ :=
  if i / k % 2 = 1 then i - k else i + k

/-- A mask of every other block of `k` bits, the first block not included. -/
def MasksOdd (k : ℕ) (hi : BitVec w) : Prop :=
  ∀ i < w, hi.getLsbD i = decide (i / k % 2 = 1)

instance (k : ℕ) (hi : BitVec w) : Decidable (MasksOdd k hi) :=
  inferInstanceAs (Decidable (∀ i < w, _))

/-- Shifting both ways by a block under two masks swaps the blocks. -/
theorem getLsbD_swap {k : ℕ} {hi : BitVec w} (hhi : MasksOdd k hi) (x : BitVec w) {i : ℕ}
    (hiw : i < w) :
    (x <<< k &&& hi ||| x >>> k &&& ~~~hi).getLsbD i = x.getLsbD (partner k i) := by
  unfold partner
  rw [BitVec.getLsbD_or, BitVec.getLsbD_and, BitVec.getLsbD_and, BitVec.getLsbD_not,
    BitVec.getLsbD_shiftLeft, BitVec.getLsbD_ushiftRight, hhi i hiw]
  by_cases hodd : i / k % 2 = 1
  · have hge : ¬ i < k := by
      intro hlt
      rw [Nat.div_eq_of_lt hlt] at hodd
      omega
    simp [hodd, hiw, hge]
  · simp [hodd, hiw, Nat.add_comm k i]

/-- Two halves need no mask. -/
theorem getLsbD_swapHalves {k : ℕ} (x : BitVec w) (hw : w = 2 * k) {i : ℕ} (hiw : i < w) :
    (x <<< k ||| x >>> k).getLsbD i = x.getLsbD (partner k i) := by
  unfold partner
  rw [BitVec.getLsbD_or, BitVec.getLsbD_shiftLeft, BitVec.getLsbD_ushiftRight]
  by_cases hlow : i < k
  · have heven : ¬ i / k % 2 = 1 := by
      rw [Nat.div_eq_of_lt hlow]
      omega
    simp [hlow, heven, Nat.add_comm k i]
  · have hodd : i / k = 1 := Nat.div_eq_of_lt_le (by omega) (by omega)
    simp [hlow, hodd, hiw, BitVec.getLsbD_of_ge x (k + i) (by omega)]

/-- A permutation of the bits that is its own inverse. -/
theorem involutive_of_getLsbD {f : BitVec w → BitVec w} {g : ℕ → ℕ}
    (hf : ∀ x, ∀ i < w, (f x).getLsbD i = x.getLsbD (g i)) (hlt : ∀ i < w, g i < w)
    (hg : ∀ i < w, g (g i) = i) (x : BitVec w) : f (f x) = x := by
  apply BitVec.eq_of_getLsbD_eq
  intro i hi
  rw [hf _ i hi, hf x _ (hlt i hi), hg i hi]

/-! ## Bytes -/

/-- Byte `i`, counted from the lowest one. -/
def byte (x : BitVec w) (i : ℕ) : BitVec 8 :=
  x.extractLsb' (8 * i) 8

/-- `y` has the `n` bytes of `x`, the last one first. -/
def BytesReversed (n : ℕ) (x y : BitVec w) : Prop :=
  ∀ i < n, byte y i = byte x (n - 1 - i)

/-- A permutation of the bits that takes each from the byte that lies opposite. -/
theorem bytesReversed_of_getLsbD {f : BitVec w → BitVec w} {g : ℕ → ℕ} {n : ℕ} (hw : w = 8 * n)
    (hf : ∀ x, ∀ i < w, (f x).getLsbD i = x.getLsbD (g i))
    (hg : ∀ i < w, g i = 8 * (n - 1 - i / 8) + i % 8) (x : BitVec w) : BytesReversed n x (f x) := by
  intro b hb
  apply BitVec.eq_of_getLsbD_eq
  intro i hi
  have hin : 8 * b + i < w := by omega
  have hbyte : (8 * b + i) / 8 = b := by omega
  have hbit : (8 * b + i) % 8 = i := by omega
  unfold byte
  rw [BitVec.getLsbD_extractLsb', BitVec.getLsbD_extractLsb', hf x _ hin, hg _ hin, hbyte, hbit]

end BlockSwap
