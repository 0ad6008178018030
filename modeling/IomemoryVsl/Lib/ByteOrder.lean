import Mathlib.Tactic.Ring
import IomemoryVsl.Lib.BlockSwap
import IomemoryVsl.Lib.ByteMemory

/-!
# Words in either byte order

A word of several bytes is stored with its lowest byte first or with its highest byte first.  The
two ways are one another's image under the reversal of the bytes of the word.
-/

namespace ByteMemory

open BlockSwap

/-- A big-endian load of `n` bytes. -/
def loadBE (m : Bytes) (a : ℕ) : ℕ → ℕ
  | 0 => 0
  | n + 1 => (m a).toNat * 256 ^ n + loadBE m (a + 1) n

/-- A big-endian store of `n` bytes. -/
def storeBE (m : Bytes) (a n v : ℕ) : Bytes :=
  overwrite m a n fun i ↦ UInt8.ofNat (v / 256 ^ (n - 1 - i))

variable {m : Bytes} {a n k v i : ℕ}

/-! ## Digits -/

theorem loadLE_lt (m : Bytes) (a n : ℕ) : loadLE m a n < 256 ^ n := by
  induction n generalizing a with
  | zero => exact Nat.one_pos
  | succ n ih =>
      have hbyte := (m a).toNat_lt
      have hrest := ih (a + 1)
      rw [loadLE, pow_succ']
      omega

theorem loadBE_lt (m : Bytes) (a n : ℕ) : loadBE m a n < 256 ^ n := by
  induction n generalizing a with
  | zero => exact Nat.one_pos
  | succ n ih =>
      have hbyte := (m a).toNat_lt
      have hrest := ih (a + 1)
      have hmul : (m a).toNat * 256 ^ n ≤ 255 * 256 ^ n := Nat.mul_le_mul_right _ (by omega)
      rw [loadBE, pow_succ']
      omega

theorem loadLE_digit (m : Bytes) (a : ℕ) (hi : i < n) :
    loadLE m a n / 256 ^ i % 256 = (m (a + i)).toNat := by
  induction n generalizing a i with
  | zero => omega
  | succ n ih =>
      have hbyte := (m a).toNat_lt
      cases i with
      | zero =>
          rw [loadLE, pow_zero, Nat.div_one]
          show _ = (m a).toNat
          omega
      | succ i =>
          rw [loadLE, pow_succ', ← Nat.div_div_eq_div_mul,
            show ((m a).toNat + 256 * loadLE m (a + 1) n) / 256 = loadLE m (a + 1) n by omega,
            ih (a + 1) (by omega), show a + 1 + i = a + (i + 1) by omega]

theorem loadBE_digit (m : Bytes) (a : ℕ) (hi : i < n) :
    loadBE m a n / 256 ^ (n - 1 - i) % 256 = (m (a + i)).toNat := by
  induction n generalizing a i with
  | zero => omega
  | succ n ih =>
      have hbyte := (m a).toNat_lt
      have hrest := loadBE_lt m (a + 1) n
      have hpos : 0 < 256 ^ n := Nat.pow_pos (by decide)
      cases i with
      | zero =>
          rw [loadBE, show n + 1 - 1 - 0 = n by omega, Nat.mul_comm, Nat.mul_add_div hpos,
            Nat.div_eq_of_lt hrest]
          show _ = (m a).toNat
          omega
      | succ i =>
          -- the first byte is a multiple of the base of the digit asked for
          have hsplit : 256 ^ n = 256 ^ (n - 1 - i) * (256 * 256 ^ i) := by
            rw [← pow_succ', ← pow_add]
            congr 1
            omega
          rw [loadBE, show n + 1 - 1 - (i + 1) = n - 1 - i by omega, hsplit,
            show (m a).toNat * (256 ^ (n - 1 - i) * (256 * 256 ^ i)) =
              256 ^ (n - 1 - i) * (256 * (256 ^ i * (m a).toNat)) by ring,
            Nat.mul_add_div (Nat.pow_pos (by decide)), Nat.mul_add_mod, ih (a + 1) (by omega),
            show a + 1 + i = a + (i + 1) by omega]

/-- A number is given by its digits. -/
theorem eq_of_digits {x y : ℕ} (hx : x < 256 ^ n) (hy : y < 256 ^ n)
    (h : ∀ i < n, x / 256 ^ i % 256 = y / 256 ^ i % 256) : x = y := by
  induction n generalizing x y with
  | zero =>
      rw [pow_zero] at hx hy
      omega
  | succ n ih =>
      have hlow : x % 256 = y % 256 := by simpa using h 0 (Nat.succ_pos n)
      have hhigh : x / 256 = y / 256 := by
        apply ih
        · rw [pow_succ'] at hx
          omega
        · rw [pow_succ'] at hy
          omega
        · intro i hi
          have hdigit := h (i + 1) (by omega)
          rwa [pow_succ', ← Nat.div_div_eq_div_mul, ← Nat.div_div_eq_div_mul] at hdigit
      omega

theorem loadBE_storeBE (m : Bytes) (a n v : ℕ) : loadBE (storeBE m a n v) a n = v % 256 ^ n := by
  apply eq_of_digits (loadBE_lt _ a n) (Nat.mod_lt v (Nat.pow_pos (by decide)))
  intro i hi
  have hdigit := loadBE_digit (storeBE m a n v) a (show n - 1 - i < n by omega)
  have hbyte : storeBE m a n v (a + (n - 1 - i)) = UInt8.ofNat (v / 256 ^ i) := by
    rw [storeBE, overwrite_inside m _ (show n - 1 - i < n by omega),
      show n - 1 - (n - 1 - i) = i by omega]
  rw [show n - 1 - (n - 1 - i) = i by omega, hbyte, UInt8.toNat_ofNat'] at hdigit
  rw [hdigit]
  have hpow : 256 ^ n = 256 ^ i * 256 ^ (n - i) := by rw [← pow_add]; congr 1; omega
  have hdvd : 256 ∣ 256 ^ (n - i) := dvd_pow_self 256 (by omega)
  rw [hpow, Nat.mod_mul_right_div_self, Nat.mod_mod_of_dvd _ hdvd]

/-! ## The two orders -/

theorem byte_toNat {w : ℕ} (x : BitVec w) (i : ℕ) :
    (byte x i).toNat = x.toNat / 256 ^ i % 256 := by
  unfold byte
  rw [BitVec.extractLsb'_toNat, Nat.shiftRight_eq_div_pow, Nat.pow_mul]

theorem overwrite_congr {f g : ℕ → UInt8} (h : ∀ i < n, f i = g i) :
    overwrite m a n f = overwrite m a n g := by
  funext x
  by_cases hx : a ≤ x ∧ x < a + n
  · obtain ⟨i, rfl⟩ := Nat.exists_eq_add_of_le hx.1
    have hi : i < n := by omega
    rw [overwrite_inside m f hi, overwrite_inside m g hi, h i hi]
  · have hout : x < a ∨ a + n ≤ x := by omega
    rw [overwrite_outside m f hout, overwrite_outside m g hout]

variable {w : ℕ} {x y : BitVec w}

/-- A word with its bytes reversed, stored the other way round. -/
theorem storeBE_of_reversed (h : BytesReversed n x y) (m : Bytes) (a : ℕ) :
    storeBE m a n y.toNat = storeLE m a n x.toNat := by
  unfold storeBE storeLE
  apply overwrite_congr
  intro i hi
  have hbyte := congrArg BitVec.toNat (h (n - 1 - i) (by omega))
  rw [byte_toNat, byte_toNat, show n - 1 - (n - 1 - i) = i by omega] at hbyte
  apply UInt8.toNat_inj.mp
  rw [UInt8.toNat_ofNat', UInt8.toNat_ofNat']
  exact hbyte

/-- A word loaded the other way round, with its bytes reversed. -/
theorem loadLE_of_reversed (hw : w = 8 * n) (h : BytesReversed n x y)
    (hx : x = BitVec.ofNat w (loadBE m a n)) : y = BitVec.ofNat w (loadLE m a n) := by
  have hpow : 2 ^ w = 256 ^ n := by rw [hw, Nat.pow_mul]
  have hle := loadLE_lt m a n
  have hbe := loadBE_lt m a n
  have hxnat : x.toNat = loadBE m a n := by
    rw [hx, BitVec.toNat_ofNat, hpow, Nat.mod_eq_of_lt hbe]
  have hylt : y.toNat < 256 ^ n := hpow ▸ y.isLt
  apply BitVec.eq_of_toNat_eq
  rw [BitVec.toNat_ofNat, hpow, Nat.mod_eq_of_lt hle]
  apply eq_of_digits hylt hle
  intro i hi
  have hbyte := congrArg BitVec.toNat (h i hi)
  rw [byte_toNat, byte_toNat, hxnat, loadBE_digit m a hi] at hbyte
  rw [hbyte, loadLE_digit m a hi]

/-! ## Two words as one -/

/-- A store sees the low bytes of its value only. -/
theorem storeLE_mod (m : Bytes) (a n v : ℕ) : storeLE m a n (v % 256 ^ n) = storeLE m a n v := by
  unfold storeLE
  apply overwrite_congr
  intro i hi
  have hpow : 256 ^ n = 256 ^ i * 256 ^ (n - i) := by
    rw [← pow_add]
    congr 1
    omega
  have hdvd : 256 ∣ 256 ^ (n - i) := dvd_pow_self 256 (by omega)
  apply UInt8.toNat_inj.mp
  rw [UInt8.toNat_ofNat', UInt8.toNat_ofNat', hpow, Nat.mod_mul_right_div_self]
  exact Nat.mod_mod_of_dvd _ hdvd

theorem loadLE_add (m : Bytes) (a n k : ℕ) :
    loadLE m a (n + k) = loadLE m a n + 256 ^ n * loadLE m (a + n) k := by
  induction n generalizing a with
  | zero => rw [Nat.zero_add, loadLE, pow_zero, Nat.one_mul, Nat.zero_add, Nat.add_zero]
  | succ n ih =>
      rw [show n + 1 + k = n + k + 1 by omega, loadLE, ih, loadLE,
        show a + 1 + n = a + (n + 1) by omega]
      ring

theorem storeLE_add (m : Bytes) (a n k v : ℕ) :
    storeLE m a (n + k) v = storeLE (storeLE m a n v) (a + n) k (v / 256 ^ n) := by
  funext x
  by_cases hlow : x < a + n
  · rw [storeLE_outside _ _ (Or.inl hlow)]
    by_cases hx : a ≤ x
    · obtain ⟨i, rfl⟩ := Nat.exists_eq_add_of_le hx
      have hi : i < n := by omega
      rw [storeLE, storeLE, overwrite_inside m _ (Nat.lt_add_right k hi), overwrite_inside m _ hi]
    · rw [storeLE_outside _ _ (Or.inl (by omega)), storeLE_outside _ _ (Or.inl (by omega))]
  · by_cases hhigh : x < a + n + k
    · obtain ⟨i, rfl⟩ := Nat.exists_eq_add_of_le (Nat.not_lt.mp hlow)
      have hi : i < k := by omega
      rw [storeLE, storeLE, overwrite_inside _ _ hi, Nat.add_assoc,
        overwrite_inside m _ (show n + i < n + k by omega), pow_add, Nat.div_div_eq_div_mul]
    · rw [storeLE_outside _ _ (Or.inr (by omega)), storeLE_outside _ _ (Or.inr (by omega)),
        storeLE_outside _ _ (Or.inr (by omega))]

end ByteMemory
