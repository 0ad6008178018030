import Mathlib.Algebra.Order.Floor.Div
import Mathlib.Algebra.Order.Group.Nat
import Mathlib.Algebra.Order.Ring.Nat

/-!
# Converting to a coarser unit and back

There are `n` of the fine unit and `h` of the coarse one to the same length of time.  Both ways
round down: what is converted, and the length `n / h` of the coarse unit.  Time-outs are rounded up
instead.
-/

namespace FloorConvert

/-- From the fine unit to the coarse one. -/
def coarse (n h u : ℕ) : ℕ :=
  u * h / n

/-- From the coarse unit to the fine one. -/
def fine (n h t : ℕ) : ℕ :=
  n / h * t

/-- From the fine unit to the coarse one, rounded up. -/
def coarseUp (n h u : ℕ) : ℕ :=
  u * h ⌈/⌉ n

variable {n h u u' t t' : ℕ}

theorem coarse_mono (hle : u ≤ u') : coarse n h u ≤ coarse n h u' :=
  Nat.div_le_div_right (Nat.mul_le_mul_right h hle)

theorem fine_mono (hle : t ≤ t') : fine n h t ≤ fine n h t' :=
  Nat.mul_le_mul_left (n / h) hle

/-- Going through the coarse unit makes nothing longer. -/
theorem fine_coarse_le (hpos : 0 < h) : fine n h (coarse n h u) ≤ u := by
  unfold fine coarse
  apply Nat.le_of_mul_le_mul_right _ hpos
  calc n / h * (u * h / n) * h = n / h * h * (u * h / n) := by rw [Nat.mul_right_comm]
    _ ≤ n * (u * h / n) := Nat.mul_le_mul_right _ (Nat.div_mul_le_self n h)
    _ ≤ u * h := Nat.mul_div_le (u * h) n

/-- Nor does going through the fine one. -/
theorem coarse_fine_le : coarse n h (fine n h t) ≤ t := by
  unfold coarse fine
  apply Nat.div_le_of_le_mul
  calc n / h * t * h = n / h * h * t := by rw [Nat.mul_right_comm]
    _ ≤ n * t := Nat.mul_le_mul_right t (Nat.div_mul_le_self n h)

theorem coarseUp_le_iff_mul (hn : 0 < n) : coarseUp n h u ≤ t ↔ u * h ≤ n * t :=
  ceilDiv_le_iff_le_mul hn

/-- Instants that are a coarse unit apart are told apart. -/
theorem coarseUp_lt (hn : 0 < n) (happart : u * h + n ≤ u' * h) :
    coarseUp n h u < coarseUp n h u' := by
  have hup : u' * h ≤ n * coarseUp n h u' := (coarseUp_le_iff_mul hn).mp (Nat.le_refl _)
  have hpos : 0 < coarseUp n h u' := by
    apply Nat.pos_of_ne_zero
    intro hzero
    rw [hzero, Nat.mul_zero] at hup
    omega
  apply Nat.lt_of_le_of_lt _ (Nat.sub_one_lt_of_lt hpos)
  rw [coarseUp_le_iff_mul hn, Nat.mul_sub_one]
  omega

section Whole

variable (hn : 0 < n) (hdvd : h ∣ n)

include hn hdvd

/-- A coarse unit that is a whole number of fine ones comes back. -/
theorem coarse_fine_of_dvd : coarse n h (fine n h t) = t := by
  unfold coarse fine
  rw [Nat.mul_right_comm, Nat.div_mul_cancel hdvd, Nat.mul_div_cancel_left t hn]

/-- What the fine unit loses is less than one coarse unit. -/
theorem sub_fine_coarse_lt : u - fine n h (coarse n h u) < n / h := by
  have hpos : 0 < h := Nat.pos_of_dvd_of_pos hdvd hn
  have hunit : 0 < n / h := Nat.div_pos (Nat.le_of_dvd hn hdvd) hpos
  have hcoarse : u * h / n = u / (n / h) := by
    calc u * h / n = u * h / (n / h * h) := by rw [Nat.div_mul_cancel hdvd]
      _ = u / (n / h) := Nat.mul_div_mul_right u (n / h) hpos
  unfold fine coarse
  rw [hcoarse, ← Nat.mod_eq_sub_mul_div]
  exact Nat.mod_lt u hunit

theorem coarseUp_le_iff : coarseUp n h u ≤ t ↔ u ≤ n / h * t := by
  have hpos : 0 < h := Nat.pos_of_dvd_of_pos hdvd hn
  have hunit : n * t = n / h * t * h := by rw [Nat.mul_right_comm, Nat.div_mul_cancel hdvd]
  rw [coarseUp_le_iff_mul hn, hunit, Nat.mul_le_mul_right_iff hpos]

/-- Rounding up adds less than one coarse unit. -/
theorem coarseUp_bounds :
    u ≤ n / h * coarseUp n h u ∧ n / h * coarseUp n h u < u + n / h := by
  refine ⟨(coarseUp_le_iff hn hdvd).mp (Nat.le_refl _), ?_⟩
  have hpos : 0 < h := Nat.pos_of_dvd_of_pos hdvd hn
  have hunit : 0 < n / h := Nat.div_pos (Nat.le_of_dvd hn hdvd) hpos
  by_cases hzero : coarseUp n h u = 0
  · rw [hzero, Nat.mul_zero]
    omega
  · obtain ⟨t, ht⟩ := Nat.exists_eq_add_one_of_ne_zero hzero
    have hless : ¬ coarseUp n h u ≤ t := by omega
    rw [coarseUp_le_iff hn hdvd] at hless
    rw [ht, Nat.mul_succ]
    omega

end Whole

end FloorConvert
