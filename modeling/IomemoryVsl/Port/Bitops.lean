import IomemoryVsl.Lib.BitCount
import IomemoryVsl.Lib.BitField

/-!
# Counting and finding bits (`port/bitops.h`)

The population counts are those that the kernel is built with, which add in parallel; the two
searches scan a word from either end.
-/

namespace IomemoryVsl.Port

open BitCount BitField

/-! ## The functions -/

def fioBitcount8 (val : BitVec 8) : BitVec 32 :=
  let val := val - (val >>> 1 &&& 0x55#8)
  let val := (val &&& 0x33#8) + (val >>> 2 &&& 0x33#8)
  (val + val >>> 4 &&& 0x0f#8).setWidth 32

def fioBitcount32 (val : BitVec 32) : BitVec 32 :=
  let val := val - (val >>> 1 &&& 0x55555555#32)
  let val := (val &&& 0x33333333#32) + (val >>> 2 &&& 0x33333333#32)
  ((val + val >>> 4 &&& 0x0f0f0f0f#32) * 0x01010101#32) >>> 24

def fioBitcount64 (val : BitVec 64) : BitVec 32 :=
  let val := val - (val >>> 1 &&& 0x5555555555555555#64)
  let val := (val &&& 0x3333333333333333#64) + (val >>> 2 &&& 0x3333333333333333#64)
  (((val + val >>> 4 &&& 0x0f0f0f0f0f0f0f0f#64) * 0x0101010101010101#64) >>> 56).setWidth 32

/-- The loop of `fio_get_nth_bit_set_index32`, with so many turns left. -/
def nthBitLoop (val : BitVec 32) (n : ℕ) : ℕ → ℕ → ℕ → ℕ
  | 0, _, index => index
  | left + 1, found, index =>
      if val &&& 1#32 <<< index ≠ 0#32 then
        if found + 1 = n then index else nthBitLoop val n left (found + 1) (index + 1)
      else nthBitLoop val n left found (index + 1)

def fioGetNthBitSetIndex32 (val : BitVec 32) (n : ℕ) : ℕ :=
  nthBitLoop val n 32 0 0

/-- The loop of `fio_get_top_bit_set_index32`, at the index one below. -/
def topBitLoop (val : BitVec 32) : ℕ → ℤ
  | 0 => -1
  | index + 1 => if val &&& 1#32 <<< index ≠ 0#32 then index else topBitLoop val index

def fioGetTopBitSetIndex32 (val : BitVec 32) : ℤ :=
  topBitLoop val 32

/-- How many bits below a place are set. -/
def bitsBelow {w : ℕ} (val : BitVec w) (i : ℕ) : ℕ :=
  below val.toNat i

/-! ## The counts -/

section Steps

variable {w n : ℕ} {val m : BitVec w}

theorem pairs_toNat (hm : m.toNat = splat 0x55 n) :
    (val - (val >>> 1 &&& m)).toNat = pairSums n val.toNat := by
  have hand : (val >>> 1 &&& m).toNat = val.toNat / 2 &&& splat 0x55 n := by
    rw [BitVec.toNat_and, BitVec.toNat_ushiftRight, hm, Nat.shiftRight_eq_div_pow, pow_one]
  have hle : val >>> 1 &&& m ≤ val := by
    rw [BitVec.le_def, hand]
    exact le_trans Nat.and_le_left (Nat.div_le_self _ 2)
  rw [BitVec.toNat_sub_of_le hle, hand]
  rfl

theorem nibbles_toNat (hm : m.toNat = splat 0x33 n) (hfit : 4 * splat 0x33 n < 2 ^ w) :
    ((val &&& m) + (val >>> 2 &&& m)).toNat = nibbleSums n val.toNat ∧
      nibbleSums n val.toNat ≤ 2 * splat 0x33 n := by
  have hlow : val.toNat &&& splat 0x33 n ≤ splat 0x33 n := Nat.and_le_right
  have hhigh : val.toNat / 4 &&& splat 0x33 n ≤ splat 0x33 n := Nat.and_le_right
  unfold nibbleSums
  rw [BitVec.toNat_add, BitVec.toNat_and, BitVec.toNat_and, BitVec.toNat_ushiftRight, hm,
    Nat.shiftRight_eq_div_pow, show 2 ^ 2 = 4 from rfl, Nat.mod_eq_of_lt (by omega)]
  exact ⟨rfl, by omega⟩

theorem bytes_toNat (hm : m.toNat = splat 0x0f n) (hfit : 2 * val.toNat < 2 ^ w) :
    (val + val >>> 4 &&& m).toNat = byteSums n val.toNat := by
  unfold byteSums
  rw [BitVec.toNat_and, BitVec.toNat_add, BitVec.toNat_ushiftRight, hm, Nat.shiftRight_eq_div_pow,
    show 2 ^ 4 = 16 from rfl, Nat.mod_eq_of_lt (by omega)]

end Steps

/-- The steps that the counts share, on words of `n` bytes; nothing overflows. -/
theorem bytes_counted {w : ℕ} (n : ℕ) (val m5 m3 m0 : BitVec w) (h5 : m5.toNat = splat 0x55 n)
    (h3 : m3.toNat = splat 0x33 n) (h0 : m0.toNat = splat 0x0f n)
    (hfit : 4 * splat 0x33 n < 2 ^ w) :
    let pairs := val - (val >>> 1 &&& m5)
    let nibbles := (pairs &&& m3) + (pairs >>> 2 &&& m3)
    (nibbles + nibbles >>> 4 &&& m0).toNat = byteCounts n val.toNat := by
  intro pairs nibbles
  have hpairs : pairs.toNat = pairSums n val.toNat := pairs_toNat h5
  obtain ⟨hnibbles, hle⟩ := @nibbles_toNat w n pairs m3 h3 hfit
  rw [hpairs] at hnibbles hle
  have hbytes := @bytes_toNat w n nibbles m0 h0 (by rw [hnibbles]; omega)
  rw [hbytes, hnibbles]
  rfl

theorem fioBitcount8_eq (val : BitVec 8) : (fioBitcount8 val).toNat = below val.toNat 8 := by
  have hbytes := bytes_counted 1 val 0x55#8 0x33#8 0x0f#8 rfl rfl rfl (by decide)
  have hcount := (byteCounts_one val.toNat val.isLt).2.2.2
  have hle := below_le val.toNat 8
  unfold fioBitcount8
  dsimp only at hbytes ⊢
  rw [BitVec.toNat_setWidth, hbytes, hcount, Nat.mod_eq_of_lt (by omega)]

/-- The product adds up the counts of the bytes. -/
theorem fioBitcount32_eq (val : BitVec 32) : (fioBitcount32 val).toNat = below val.toNat 32 := by
  have hbytes := bytes_counted 4 val 0x55555555#32 0x33333333#32 0x0f0f0f0f#32 rfl rfl rfl
    (by decide)
  unfold fioBitcount32
  dsimp only at hbytes ⊢
  rw [BitVec.toNat_ushiftRight, BitVec.toNat_mul, hbytes, Nat.shiftRight_eq_div_pow]
  exact byteCounts_mul_div 3 val.toNat (by decide)

theorem fioBitcount64_eq (val : BitVec 64) : (fioBitcount64 val).toNat = below val.toNat 64 := by
  have hbytes := bytes_counted 8 val 0x5555555555555555#64 0x3333333333333333#64
    0x0f0f0f0f0f0f0f0f#64 rfl rfl rfl (by decide)
  have hcount : byteCounts 8 val.toNat * (0x0101010101010101#64).toNat % 2 ^ 64 / 2 ^ 56 =
      below val.toNat 64 := byteCounts_mul_div 7 val.toNat (by decide)
  have hle := below_le val.toNat 64
  unfold fioBitcount64
  dsimp only at hbytes ⊢
  rw [BitVec.toNat_setWidth, BitVec.toNat_ushiftRight, BitVec.toNat_mul, hbytes,
    Nat.shiftRight_eq_div_pow, hcount, Nat.mod_eq_of_lt (by omega)]

/-- Each half of 64 bits has its own count. -/
theorem fioBitcount64_halves (val : BitVec 64) : (fioBitcount64 val).toNat =
    (fioBitcount32 (val.setWidth 32)).toNat + (fioBitcount32 ((val >>> 32).setWidth 32)).toNat := by
  rw [fioBitcount64_eq, fioBitcount32_eq, fioBitcount32_eq, BitVec.toNat_setWidth,
    BitVec.toNat_setWidth, BitVec.toNat_ushiftRight, below_mod, below_mod,
    Nat.shiftRight_eq_div_pow]
  exact below_add val.toNat 32 32

/-! ## The searches -/

variable {val : BitVec 32} {n : ℕ}

theorem bit_set_iff (val : BitVec 32) (i : ℕ) :
    val &&& 1#32 <<< i ≠ 0#32 ↔ val.toNat.testBit i = true := by
  rw [and_one_shiftLeft_ne_zero, BitVec.testBit_toNat]

/-- What the search from below has found: the bit, or that there are not as many. -/
def NthFound (val : BitVec 32) (n r : ℕ) : Prop :=
  (r < 32 ∧ val.toNat.testBit r = true ∧ bitsBelow val r + 1 = n) ∨ (r = 32 ∧ bitsBelow val 32 < n)

/-- The loop has counted the bits below its index, and not yet `n` of them. -/
theorem nthBitLoop_found (left found index : ℕ) (hleft : index + left = 32)
    (hfound : found = bitsBelow val index) (hn : found < n) :
    NthFound val n (nthBitLoop val n left found index) := by
  induction left generalizing found index with
  | zero =>
    have hindex : index = 32 := hleft
    rw [hindex] at hfound
    exact Or.inr ⟨hindex, by omega⟩
  | succ left ih =>
    have hnext := below_succ val.toNat index
    unfold nthBitLoop
    by_cases hset : val.toNat.testBit index = true
    · rw [if_pos ((bit_set_iff val index).mpr hset)]
      rw [if_pos hset] at hnext
      by_cases hlast : found + 1 = n
      · rw [if_pos hlast]
        exact Or.inl ⟨by omega, hset, by rw [← hfound]; exact hlast⟩
      · rw [if_neg hlast]
        exact ih (found + 1) (index + 1) (by omega) (by rw [hfound]; exact hnext.symm) (by omega)
    · rw [if_neg (mt (bit_set_iff val index).mp hset)]
      rw [if_neg hset] at hnext
      exact ih found (index + 1) (by omega) (hfound.trans hnext.symm) hn

theorem fioGetNthBitSetIndex32_found (val : BitVec 32) (hn : 1 ≤ n) :
    NthFound val n (fioGetNthBitSetIndex32 val n) :=
  nthBitLoop_found 32 0 0 rfl rfl hn

/-- The search from above stops at a bit with none above it. -/
theorem topBitLoop_found (val : BitVec 32) (i : ℕ) :
    (∃ j < i, topBitLoop val i = j ∧ val.toNat.testBit j = true ∧
      bitsBelow val i = bitsBelow val j + 1) ∨
    (topBitLoop val i = -1 ∧ bitsBelow val i = 0) := by
  induction i with
  | zero => exact Or.inr ⟨rfl, rfl⟩
  | succ i ih =>
    have hnext := below_succ val.toNat i
    unfold topBitLoop
    by_cases hset : val.toNat.testBit i = true
    · rw [if_pos ((bit_set_iff val i).mpr hset)]
      rw [if_pos hset] at hnext
      exact Or.inl ⟨i, Nat.lt_succ_self i, rfl, hset, hnext⟩
    · rw [if_neg (mt (bit_set_iff val i).mp hset)]
      rw [if_neg hset] at hnext
      have hsame : bitsBelow val (i + 1) = bitsBelow val i := hnext
      rw [hsame]
      rcases ih with ⟨j, hj, hfound⟩ | hnone
      · exact Or.inl ⟨j, Nat.lt_succ_of_lt hj, hfound⟩
      · exact Or.inr hnone

theorem bitsBelow_pos (hval : val ≠ 0#32) : 0 < bitsBelow val 32 := by
  by_contra hzero
  apply hval
  apply BitVec.eq_of_getLsbD_eq
  intro i hi
  rw [← BitVec.testBit_toNat, BitVec.getLsbD_zero, Bool.eq_false_iff]
  intro hset
  have hlt := below_lt hset hi
  exact hzero (Nat.lt_of_le_of_lt (Nat.zero_le _) hlt)

/-- The topmost bit is the last that the search from below can find. -/
theorem fioGetTopBitSetIndex32_eq (hval : val ≠ 0#32) : fioGetTopBitSetIndex32 val =
    fioGetNthBitSetIndex32 val (fioBitcount32 val).toNat := by
  have hpos := bitsBelow_pos hval
  have hcount : (fioBitcount32 val).toNat = bitsBelow val 32 := fioBitcount32_eq val
  rw [hcount]
  rcases topBitLoop_found val 32 with ⟨j, hj, htop, hset, hbelow⟩ | ⟨_, hnone⟩
  · rcases fioGetNthBitSetIndex32_found val hpos with ⟨_, hsetNth, hbelowNth⟩ | ⟨_, hfew⟩
    · have hsame : j = fioGetNthBitSetIndex32 val (bitsBelow val 32) :=
        eq_of_below_eq hset hsetNth (show bitsBelow val j = bitsBelow val _ by omega)
      rw [← hsame]
      exact htop
    · exact absurd hfew (Nat.lt_irrefl _)
  · omega

/-- The search for the `n`th bit succeeds up to the count of the bits and finds the bit with `n - 1`
below it, the search from above finds the last of them, and 64 bits are counted by halves. -/
theorem bit_searches_count (val : BitVec 32) (n : ℕ) (hn : 1 ≤ n) (val64 : BitVec 64) :
    ((fioGetNthBitSetIndex32 val n < 32 ↔ n ≤ (fioBitcount32 val).toNat) ∧
      (n ≤ (fioBitcount32 val).toNat →
        val.getLsbD (fioGetNthBitSetIndex32 val n) = true ∧
          bitsBelow val (fioGetNthBitSetIndex32 val n) = n - 1) ∧
      (¬ n ≤ (fioBitcount32 val).toNat → fioGetNthBitSetIndex32 val n = 32)) ∧
    ((val ≠ 0#32 → fioGetTopBitSetIndex32 val =
        fioGetNthBitSetIndex32 val (fioBitcount32 val).toNat) ∧
      fioGetTopBitSetIndex32 0#32 = -1) ∧
    (fioBitcount64 val64).toNat = bitsBelow val64 64 ∧
      (fioBitcount64 val64).toNat = (fioBitcount32 (val64.setWidth 32)).toNat +
        (fioBitcount32 ((val64 >>> 32).setWidth 32)).toNat := by
  have hcount : (fioBitcount32 val).toNat = bitsBelow val 32 := fioBitcount32_eq val
  refine ⟨?_, ⟨fioGetTopBitSetIndex32_eq, by decide⟩, fioBitcount64_eq val64,
    fioBitcount64_halves val64⟩
  rw [hcount]
  rcases fioGetNthBitSetIndex32_found val hn with ⟨hlt, hset, hbelow⟩ | ⟨hnone, hfew⟩
  · -- the bit itself is among those counted
    have hmore : bitsBelow val (fioGetNthBitSetIndex32 val n) < bitsBelow val 32 :=
      below_lt hset hlt
    refine ⟨iff_of_true hlt (by omega), fun _ ↦ ⟨?_, by omega⟩, fun hover ↦ ?_⟩
    · rw [← BitVec.testBit_toNat]
      exact hset
    · omega
  · exact ⟨iff_of_false (by omega) (by omega), fun hle ↦ by omega, fun _ ↦ hnone⟩

/-- The second of the three bits of 0x80000009. -/
theorem bit_searches_count_second :
    ((fioGetNthBitSetIndex32 0x80000009#32 2 < 32 ↔ 2 ≤ (fioBitcount32 0x80000009#32).toNat) ∧
      (2 ≤ (fioBitcount32 0x80000009#32).toNat →
        (0x80000009#32).getLsbD (fioGetNthBitSetIndex32 0x80000009#32 2) = true ∧
          bitsBelow 0x80000009#32 (fioGetNthBitSetIndex32 0x80000009#32 2) = 2 - 1) ∧
      (¬ 2 ≤ (fioBitcount32 0x80000009#32).toNat →
        fioGetNthBitSetIndex32 0x80000009#32 2 = 32)) ∧
    ((0x80000009#32 ≠ 0#32 → fioGetTopBitSetIndex32 0x80000009#32 =
        fioGetNthBitSetIndex32 0x80000009#32 (fioBitcount32 0x80000009#32).toNat) ∧
      fioGetTopBitSetIndex32 0#32 = -1) ∧
    (fioBitcount64 0xff00000001#64).toNat = bitsBelow 0xff00000001#64 64 ∧
      (fioBitcount64 0xff00000001#64).toNat =
        (fioBitcount32 ((0xff00000001#64).setWidth 32)).toNat +
          (fioBitcount32 ((0xff00000001#64 >>> 32).setWidth 32)).toNat :=
  bit_searches_count 0x80000009#32 2 (by decide) 0xff00000001#64

end IomemoryVsl.Port
