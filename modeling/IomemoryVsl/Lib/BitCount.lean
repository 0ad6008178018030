import Mathlib.Data.Nat.Bitwise
import Mathlib.Data.List.Basic
import Mathlib.Tactic.Ring

/-!
# Counting the bits of a number

The bits below a place, and the count in parallel: pairs of bits are replaced by their sums, then
pairs of sums, up to bytes.  No byte carries into the next, so that it is enough to look at one.
-/

namespace BitCount

/-- How many of the `n` low bits are set. -/
def below (x n : ℕ) : ℕ :=
  (List.range n).countP x.testBit

variable {x y a n i j : ℕ}

theorem below_succ (x n : ℕ) : below x (n + 1) = below x n + if x.testBit n then 1 else 0 := by
  unfold below
  rw [List.range_succ, List.countP_append, List.countP_singleton]

theorem below_le (x n : ℕ) : below x n ≤ n := by
  have hle : below x n ≤ (List.range n).length := List.countP_le_length
  rwa [List.length_range] at hle

theorem below_mono (h : i ≤ j) : below x i ≤ below x j := by
  induction j, h using Nat.le_induction with
  | base => exact Nat.le_refl _
  | succ j _ ih =>
    rw [below_succ]
    omega

/-- A bit that is set counts from the next place on. -/
theorem below_lt (hset : x.testBit i = true) (h : i < j) : below x i < below x j := by
  have hnext := below_succ x i
  rw [if_pos hset] at hnext
  have hmono : below x (i + 1) ≤ below x j := below_mono h
  omega

/-- Set bits with as many below them are the same. -/
theorem eq_of_below_eq (hi : x.testBit i = true) (hj : x.testBit j = true)
    (h : below x i = below x j) : i = j := by
  rcases Nat.lt_trichotomy i j with hlt | heq | hgt
  · have hcount := below_lt hi hlt
    omega
  · exact heq
  · have hcount := below_lt hj hgt
    omega

/-- The low bits and the high ones. -/
theorem below_add (x m n : ℕ) : below x (m + n) = below x m + below (x / 2 ^ m) n := by
  induction n with
  | zero => rfl
  | succ n ih =>
    rw [← Nat.add_assoc, below_succ, ih, below_succ, Nat.testBit_div_two_pow, Nat.add_comm n m,
      Nat.add_assoc]

theorem below_mod (x n : ℕ) : below (x % 2 ^ n) n = below x n := by
  unfold below
  apply List.countP_congr
  intro i hi
  rw [Nat.testBit_mod_two_pow, decide_eq_true (List.mem_range.mp hi), Bool.true_and]

/-! ## In parallel -/

/-- A byte `n` times over. -/
def splat (m : ℕ) : ℕ → ℕ
  | 0 => 0
  | n + 1 => m + 256 * splat m n

theorem splat_succ (m n : ℕ) : splat m (n + 1) = m + 256 * splat m n := rfl

theorem splat_one (m : ℕ) : splat m 1 = m := by
  rw [splat_succ, splat, Nat.mul_zero, Nat.add_zero]

/-- Each pair of bits is replaced by the number of those set. -/
def pairSums (n x : ℕ) : ℕ :=
  x - (x / 2 &&& splat 0x55 n)

def nibbleSums (n x : ℕ) : ℕ :=
  (x &&& splat 0x33 n) + (x / 4 &&& splat 0x33 n)

def byteSums (n x : ℕ) : ℕ :=
  x + x / 16 &&& splat 0x0f n

/-- Each of the `n` low bytes is replaced by the number of its bits that are set. -/
def byteCounts (n x : ℕ) : ℕ :=
  byteSums n (nibbleSums n (pairSums n x))

/-- The sum of the `n` low bytes. -/
def byteTotal : ℕ → ℕ → ℕ
  | 0, _ => 0
  | n + 1, x => x % 256 + byteTotal n (x / 256)

theorem and_cons {c z : ℕ} (ha : a < 256) (hc : c < 256) :
    a + 256 * y &&& c + 256 * z = (a &&& c) + 256 * (y &&& z) := by
  have hmod := @Nat.and_mod_two_pow (a + 256 * y) (c + 256 * z) 8
  have hdiv := @Nat.and_div_two_pow (a + 256 * y) (c + 256 * z) 8
  rw [show (a + 256 * y) % 2 ^ 8 = a by omega, show (c + 256 * z) % 2 ^ 8 = c by omega] at hmod
  rw [show (a + 256 * y) / 2 ^ 8 = y by omega, show (c + 256 * z) / 2 ^ 8 = z by omega] at hdiv
  omega

/-- The bit that the shift brings in from the next byte is not in the mask. -/
theorem pairSums_cons (ha : a < 256) (n y : ℕ) :
    pairSums (n + 1) (a + 256 * y) = pairSums 1 a + 256 * pairSums n y := by
  have hmask : ∀ a < 256, ∀ b < 2, a / 2 + 128 * b &&& 0x55 = a / 2 &&& 0x55 := by decide +kernel
  have hlow : a / 2 &&& 0x55 ≤ a / 2 := Nat.and_le_left
  have hhigh : y / 2 &&& splat 0x55 n ≤ y / 2 := Nat.and_le_left
  have hshift : (a + 256 * y) / 2 = a / 2 + 128 * (y % 2) + 256 * (y / 2) := by omega
  unfold pairSums
  rw [splat_succ, splat_one, hshift, and_cons (by omega) (by decide),
    hmask a ha (y % 2) (by omega)]
  omega

theorem nibbleSums_cons (ha : a < 256) (n y : ℕ) :
    nibbleSums (n + 1) (a + 256 * y) = nibbleSums 1 a + 256 * nibbleSums n y := by
  have hmask : ∀ a < 256, ∀ b < 4, a / 4 + 64 * b &&& 0x33 = a / 4 &&& 0x33 := by decide +kernel
  have hshift : (a + 256 * y) / 4 = a / 4 + 64 * (y % 4) + 256 * (y / 4) := by omega
  unfold nibbleSums
  rw [splat_succ, splat_one, hshift, and_cons ha (by decide), and_cons (by omega) (by decide),
    hmask a ha (y % 4) (by omega)]
  omega

/-- What the shift brings in from the next byte is at most 4, and does not carry. -/
theorem byteSums_cons (ha : a ≤ 0x44) (hy : y % 16 ≤ 4) (n : ℕ) :
    byteSums (n + 1) (a + 256 * y) = byteSums 1 a + 256 * byteSums n y := by
  have hmask : ∀ a ≤ 0x44, ∀ b ≤ 4, a + a / 16 + 16 * b &&& 0x0f = a + a / 16 &&& 0x0f := by
    decide +kernel
  have hshift : a + 256 * y + (a + 256 * y) / 16 =
      a + a / 16 + 16 * (y % 16) + 256 * (y + y / 16) := by omega
  unfold byteSums
  rw [splat_succ, splat_one, hshift, and_cons (by omega) (by decide), hmask a ha (y % 16) hy]

/-- In one byte. -/
theorem byteCounts_one : ∀ a < 256, pairSums 1 a < 256 ∧ nibbleSums 1 (pairSums 1 a) ≤ 0x44 ∧
    nibbleSums 1 (pairSums 1 a) % 16 ≤ 4 ∧ byteCounts 1 a = below a 8 := by
  decide +kernel

theorem nibbleSums_mod_le (n x : ℕ) : nibbleSums n (pairSums n x) % 16 ≤ 4 := by
  cases n with
  | zero =>
    unfold nibbleSums splat
    rw [Nat.and_zero, Nat.and_zero]
    decide
  | succ n =>
    have hlow : x % 256 < 256 := Nat.mod_lt x (by decide)
    obtain ⟨hpair, _, hmod, _⟩ := byteCounts_one (x % 256) hlow
    have hx : pairSums (n + 1) x = pairSums 1 (x % 256) + 256 * pairSums n (x / 256) := by
      rw [← pairSums_cons hlow, Nat.mod_add_div]
    rw [hx, nibbleSums_cons hpair]
    omega

/-- The bytes are counted one by one. -/
theorem byteCounts_cons (ha : a < 256) (n y : ℕ) :
    byteCounts (n + 1) (a + 256 * y) = below a 8 + 256 * byteCounts n y := by
  obtain ⟨hpair, hnibble, _, hcount⟩ := byteCounts_one a ha
  unfold byteCounts at hcount ⊢
  rw [pairSums_cons ha, nibbleSums_cons hpair, byteSums_cons hnibble (nibbleSums_mod_le n y),
    hcount]

theorem byteTotal_byteCounts (n x : ℕ) : byteTotal n (byteCounts n x) = below x (8 * n) := by
  induction n generalizing x with
  | zero => rfl
  | succ n ih =>
    have hlow : x % 256 < 256 := Nat.mod_lt x (by decide)
    have hle := below_le (x % 256) 8
    have hx : byteCounts (n + 1) x = below (x % 256) 8 + 256 * byteCounts n (x / 256) := by
      rw [← byteCounts_cons hlow, Nat.mod_add_div]
    rw [byteTotal, hx, show (below (x % 256) 8 + 256 * byteCounts n (x / 256)) % 256 =
        below (x % 256) 8 by omega,
      show (below (x % 256) 8 + 256 * byteCounts n (x / 256)) / 256 =
        byteCounts n (x / 256) by omega, ih, Nat.mul_succ, Nat.add_comm (8 * n) 8, below_add]
    rw [show below (x % 256) 8 = below x 8 from below_mod x 8, show (256 : ℕ) = 2 ^ 8 from rfl]

/-! ## The sum of the bytes by a product -/

theorem splat_ones_succ (n : ℕ) : splat 1 (n + 1) = splat 1 n + 256 ^ n := by
  induction n with
  | zero => rfl
  | succ n ih =>
    have hnext := splat_succ 1 n
    rw [splat_succ, ih, pow_succ]
    omega

theorem splat_ones (n : ℕ) : 255 * splat 1 n + 1 = 256 ^ n := by
  induction n with
  | zero => rfl
  | succ n ih =>
    rw [splat_succ, pow_succ, ← ih]
    omega

/-- In the product with ones everywhere each byte is the sum of those up to it, the topmost that of
all; what is above overflows. -/
theorem mul_splat_ones (n x : ℕ) : ∃ q r, r ≤ byteTotal (n + 1) x * splat 1 n ∧
    x * splat 1 (n + 1) = q * 256 ^ (n + 1) + byteTotal (n + 1) x * 256 ^ n + r := by
  induction n generalizing x with
  | zero =>
    refine ⟨x / 256, 0, Nat.zero_le _, ?_⟩
    rw [splat_one]
    simp only [byteTotal]
    omega
  | succ n ih =>
    obtain ⟨q, r, hr, heq⟩ := ih (x / 256)
    have hx := Nat.mod_add_div x 256
    have hsplat := splat_ones_succ (n + 1)
    have hlast := splat_succ 1 n
    refine ⟨q + x / 256, x % 256 * splat 1 (n + 1) + 256 * r, ?_, ?_⟩
    · rw [byteTotal, Nat.add_mul]
      apply Nat.add_le_add_left
      calc 256 * r ≤ 256 * (byteTotal (n + 1) (x / 256) * splat 1 n) := Nat.mul_le_mul_left 256 hr
        _ = byteTotal (n + 1) (x / 256) * (256 * splat 1 n) := by ring
        _ ≤ byteTotal (n + 1) (x / 256) * splat 1 (n + 1) := Nat.mul_le_mul_left _ (by omega)
    · rw [byteTotal]
      calc x * splat 1 (n + 1 + 1)
          = (x % 256 + 256 * (x / 256)) * (splat 1 (n + 1) + 256 ^ (n + 1)) := by rw [hx, hsplat]
        _ = x % 256 * splat 1 (n + 1) + 256 * (x / 256 * splat 1 (n + 1)) +
              (x % 256 + 256 * (x / 256)) * 256 ^ (n + 1) := by ring
        _ = _ := by
          rw [heq]
          ring

/-- The sum of the bytes is the topmost one of the product, if it is a byte. -/
theorem mul_splat_ones_div (n x : ℕ) (hsum : byteTotal (n + 1) x < 256) :
    x * splat 1 (n + 1) % 256 ^ (n + 1) / 256 ^ n = byteTotal (n + 1) x := by
  obtain ⟨q, r, hr, heq⟩ := mul_splat_ones n x
  have hone := splat_ones n
  have hle : byteTotal (n + 1) x * splat 1 n ≤ 255 * splat 1 n :=
    Nat.mul_le_mul_right _ (Nat.le_of_lt_succ hsum)
  have hlow : r < 256 ^ n := by omega
  have htop : byteTotal (n + 1) x * 256 ^ n + r < 256 ^ (n + 1) := by
    calc byteTotal (n + 1) x * 256 ^ n + r < (byteTotal (n + 1) x + 1) * 256 ^ n := by
          rw [Nat.succ_mul]
          omega
      _ ≤ 256 * 256 ^ n := Nat.mul_le_mul_right _ hsum
      _ = 256 ^ (n + 1) := (pow_succ' 256 n).symm
  rw [heq, Nat.add_assoc, Nat.mul_add_mod_self_right, Nat.mod_eq_of_lt htop,
    Nat.mul_comm _ (256 ^ n), Nat.mul_add_div (by omega), Nat.div_eq_of_lt hlow, Nat.add_zero]

/-- The count of all bits, from the counts of the bytes. -/
theorem byteCounts_mul_div (n x : ℕ) (hn : 8 * (n + 1) < 256) :
    byteCounts (n + 1) x * splat 1 (n + 1) % 256 ^ (n + 1) / 256 ^ n = below x (8 * (n + 1)) := by
  have htotal := byteTotal_byteCounts (n + 1) x
  have hle := below_le x (8 * (n + 1))
  rw [mul_splat_ones_div n _ (by omega), htotal]

end BitCount
