import Mathlib.Algebra.Order.Group.Nat
import Mathlib.Algebra.Order.Ring.Nat

/-!
# Memory as bytes

A memory gives each address a byte.  Every store is an overwriting of a range; a load sees the bytes
of its range and nothing else.
-/

namespace ByteMemory

abbrev Bytes := ℕ → UInt8

/-- The `n` bytes from `a` on are replaced by those of `f`. -/
def overwrite (m : Bytes) (a n : ℕ) (f : ℕ → UInt8) : Bytes :=
  fun x ↦ if a ≤ x ∧ x < a + n then f (x - a) else m x

/-- `memcpy`. -/
def copy (m : Bytes) (dst src n : ℕ) : Bytes :=
  overwrite m dst n fun i ↦ m (src + i)

/-- One byte after the other, at the addresses of a list. -/
def storeEach (m : Bytes) : List ℕ → (ℕ → UInt8) → Bytes
  | [], _ => m
  | a :: as, f => storeEach (Function.update m a (f 0)) as fun i ↦ f (i + 1)

/-- A little-endian load of `n` bytes. -/
def loadLE (m : Bytes) (a : ℕ) : ℕ → ℕ
  | 0 => 0
  | n + 1 => (m a).toNat + 256 * loadLE m (a + 1) n

/-- A little-endian store of `n` bytes. -/
def storeLE (m : Bytes) (a n v : ℕ) : Bytes :=
  overwrite m a n fun i ↦ UInt8.ofNat (v / 256 ^ i)

variable {m m' : Bytes} {a n v x : ℕ} {f : ℕ → UInt8}

theorem overwrite_inside (m : Bytes) (f : ℕ → UInt8) {i : ℕ} (hi : i < n) :
    overwrite m a n f (a + i) = f i := by
  rw [overwrite, if_pos ⟨Nat.le_add_right a i, Nat.add_lt_add_left hi a⟩, Nat.add_sub_cancel_left]

theorem overwrite_outside (m : Bytes) (f : ℕ → UInt8) (hx : x < a ∨ a + n ≤ x) :
    overwrite m a n f x = m x := by
  rw [overwrite, if_neg]
  omega

theorem copy_inside (m : Bytes) {dst src i : ℕ} (hi : i < n) :
    copy m dst src n (dst + i) = m (src + i) :=
  overwrite_inside m _ hi

theorem copy_outside (m : Bytes) {dst src : ℕ} (hx : x < dst ∨ dst + n ≤ x) :
    copy m dst src n x = m x :=
  overwrite_outside m _ hx

theorem overwrite_succ (m : Bytes) (f : ℕ → UInt8) :
    overwrite m a (n + 1) f =
      overwrite (Function.update m a (f 0)) (a + 1) n fun i ↦ f (i + 1) := by
  funext x
  rcases Nat.lt_trichotomy x a with hx | rfl | hx
  · rw [overwrite_outside m f (Or.inl hx), overwrite_outside _ _ (Or.inl (by omega)),
      Function.update_of_ne (Nat.ne_of_lt hx)]
  · rw [overwrite_outside _ _ (Or.inl (Nat.lt_succ_self x)), Function.update_self]
    exact overwrite_inside m f (Nat.succ_pos n)
  · by_cases hin : x < a + (n + 1)
    · obtain ⟨i, rfl⟩ := Nat.exists_eq_add_of_le (Nat.succ_le_of_lt hx)
      rw [overwrite_inside _ _ (by omega), Nat.succ_add_eq_add_succ]
      exact overwrite_inside m f (by omega)
    · rw [overwrite_outside m f (Or.inr (by omega)), overwrite_outside _ _ (Or.inr (by omega)),
        Function.update_of_ne (Nat.ne_of_gt hx)]

/-- Storing along a range is overwriting it. -/
theorem storeEach_range' (m : Bytes) (a n : ℕ) (f : ℕ → UInt8) :
    storeEach m (List.range' a n) f = overwrite m a n f := by
  -- each turn overwrites the byte at the front of the range
  induction n generalizing m a f with
  | zero =>
      funext x
      exact (overwrite_outside m f (Nat.lt_or_ge x a)).symm
  | succ n ih => rw [List.range'_succ, storeEach, ih, overwrite_succ]

theorem loadLE_congr (heq : ∀ i < n, m' (a + i) = m (a + i)) : loadLE m' a n = loadLE m a n := by
  induction n generalizing a with
  | zero => rfl
  | succ n ih =>
      have hrest : loadLE m' (a + 1) n = loadLE m (a + 1) n := by
        apply ih
        intro i hi
        rw [Nat.add_assoc, Nat.add_comm 1 i]
        exact heq (i + 1) (Nat.succ_lt_succ hi)
      rw [loadLE, loadLE, hrest, show m' a = m a from heq 0 (Nat.succ_pos n)]

/-- A load of the digits of a number. -/
theorem loadLE_digits (heq : ∀ i < n, m (a + i) = UInt8.ofNat (v / 256 ^ i)) :
    loadLE m a n = v % 256 ^ n := by
  induction n generalizing a v with
  | zero => rw [loadLE, pow_zero, Nat.mod_one]
  | succ n ih =>
      have hfirst : (m a).toNat = v % 256 := by
        rw [show m a = UInt8.ofNat (v / 256 ^ 0) from heq 0 (Nat.succ_pos n), pow_zero, Nat.div_one]
        exact UInt8.toNat_ofNat'
      have hrest : loadLE m (a + 1) n = v / 256 % 256 ^ n := by
        apply ih
        intro i hi
        rw [Nat.add_assoc, Nat.add_comm 1 i, heq (i + 1) (Nat.succ_lt_succ hi),
          Nat.div_div_eq_div_mul, pow_succ']
      rw [loadLE, hfirst, hrest, pow_succ', Nat.mod_mul]

theorem loadLE_storeLE (m : Bytes) (a n v : ℕ) : loadLE (storeLE m a n v) a n = v % 256 ^ n :=
  loadLE_digits fun _ hi ↦ overwrite_inside m _ hi

/-- A store elsewhere is not seen. -/
theorem loadLE_storeLE_of_disjoint {b k : ℕ} (h : a + n ≤ b ∨ b + k ≤ a) :
    loadLE (storeLE m b k v) a n = loadLE m a n := by
  apply loadLE_congr
  intro i hi
  apply overwrite_outside
  omega

theorem storeLE_outside (m : Bytes) (v : ℕ) (hx : x < a ∨ a + n ≤ x) : storeLE m a n v x = m x :=
  overwrite_outside m _ hx

end ByteMemory
