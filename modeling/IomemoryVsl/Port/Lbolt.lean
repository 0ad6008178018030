import IomemoryVsl.Port.Ticks

/-!
# The tick clock (`ktime.c`, `port/ktime.h`)

`fusion_get_lbolt` counts the ticks since the last boot in 64 bits.  It gets them from `tvtohz`,
which is made for time-outs: it rounds up, adds a tick, and goes no further than an `int`.
-/

namespace IomemoryVsl.Port

open FloorConvert

/-- `struct timeval` of an uptime. -/
structure Timeval where
  tvSec : ℕ
  tvUsec : ℕ
  usec : tvUsec < 1000000

def Timeval.micros (tv : Timeval) : ℕ :=
  tv.tvSec * 1000000 + tv.tvUsec

/-- The ticks that an uptime takes, rounded up. -/
def Timeval.ticks (tv : Timeval) (r : TickRate) : ℕ :=
  coarseUp 1000000 r.hz tv.micros

/-- The kernel's `tvtohz`. -/
structure Tvtohz (r : TickRate) where
  tvtohz : Timeval → Int32
  saturates : ∀ tv, (tvtohz tv).toInt = min intMax (tv.ticks r + 1)

section Clock

variable {r : TickRate} (k : Tvtohz r)

/-- `fusion_get_lbolt`, at the uptime that `getmicrouptime` tells. -/
def fusionGetLbolt (tv : Timeval) : UInt64 :=
  (k.tvtohz tv).toInt64.toUInt64

def fusionGetLboltUsec (tv : Timeval) : UInt64 :=
  fusionHztousec r (fusionGetLbolt k tv)

end Clock

/-- `a` and `b` differ by `n` at most. -/
def Within (n a b : ℕ) : Prop :=
  a ≤ b + n ∧ b ≤ a + n

variable {r : TickRate} {k : Tvtohz r} {tv tv' : Timeval}

theorem fusionGetLbolt_toNat (k : Tvtohz r) (tv : Timeval) :
    (fusionGetLbolt k tv).toNat = min intMax (tv.ticks r + 1) := by
  have hint := k.saturates tv
  have hpos : 0 ≤ (k.tvtohz tv).toInt64 := by
    rw [Int64.le_iff_toInt_le, Int32.toInt_toInt64, hint]
    exact Int.natCast_nonneg _
  unfold fusionGetLbolt
  rw [Int64.toNat_toUInt64_of_le hpos]
  show (k.tvtohz tv).toInt64.toInt.toNat = _
  rw [Int32.toInt_toInt64, hint, Int.toNat_natCast]

/-- The product of a tick and what an `int` can say is far from wrapping. -/
theorem fusionGetLboltUsec_toNat (k : Tvtohz r) (tv : Timeval) :
    (fusionGetLboltUsec k tv).toNat = r.tick * min intMax (tv.ticks r + 1) := by
  have htick : r.tick ≤ 1000000 := Nat.div_le_self 1000000 r.hz
  unfold fusionGetLboltUsec
  rw [fusionHztousec_toNat, fusionGetLbolt_toNat]
  apply Nat.mod_eq_of_lt
  calc r.tick * min intMax (tv.ticks r + 1)
      ≤ 1000000 * intMax := Nat.mul_le_mul htick (Nat.min_le_left _ _)
    _ < 2 ^ 64 := by decide

/-- The clock advances from every instant at which an `int` can still say more. -/
theorem lbolt_lt_iff (k : Tvtohz r) (happart : tv.micros * r.hz + 2 * 1000000 ≤ tv'.micros * r.hz) :
    fusionGetLbolt k tv < fusionGetLbolt k tv' ↔ tv.ticks r + 1 < intMax := by
  have hlater : tv.ticks r < tv'.ticks r := coarseUp_lt (by decide) (by omega)
  rw [UInt64.lt_iff_toNat_lt, fusionGetLbolt_toNat, fusionGetLbolt_toNat]
  omega

/-- In microseconds, the clock is at most two ticks ahead of the uptime until it stands still, and
`n` ticks behind it `n` ticks after that. -/
theorem lboltUsec_within_iff (k : Tvtohz r) (hdvd : r.hz ∣ 1000000) {n : ℕ} (hn : 2 ≤ n)
    (tv : Timeval) : Within (r.tick * n) (fusionGetLboltUsec k tv).toNat tv.micros ↔
      tv.micros ≤ r.tick * (intMax + n) := by
  have hbounds : tv.micros ≤ r.tick * tv.ticks r ∧ r.tick * tv.ticks r < tv.micros + r.tick :=
    coarseUp_bounds (by decide) hdvd
  have htwo : r.tick * 2 ≤ r.tick * n := Nat.mul_le_mul_left r.tick hn
  unfold Within
  rw [fusionGetLboltUsec_toNat, Nat.mul_add]
  by_cases hsays : tv.ticks r + 1 ≤ intMax
  · have hticks : r.tick * (tv.ticks r + 1) ≤ r.tick * intMax := Nat.mul_le_mul_left r.tick hsays
    rw [Nat.min_eq_right hsays, Nat.mul_succ]
    rw [Nat.mul_succ] at hticks
    omega
  · have hticks : r.tick * intMax ≤ r.tick * tv.ticks r := Nat.mul_le_mul_left r.tick (by omega)
    rw [Nat.min_eq_left (by omega)]
    omega

/-- The tick clock advances between instants two ticks apart exactly when it does not stand still
yet at the first of them, and its microseconds stay within any two or more ticks of the uptime
exactly up to as many ticks after it has come to stand still. -/
theorem lbolt_advances (k : Tvtohz r) :
    (∀ tv tv', tv.micros * r.hz + 2 * 1000000 ≤ tv'.micros * r.hz →
      (fusionGetLbolt k tv < fusionGetLbolt k tv' ↔ tv.ticks r + 1 < intMax)) ∧
    (r.hz ∣ 1000000 → ∀ n, 2 ≤ n → ∀ tv,
      (Within (r.tick * n) (fusionGetLboltUsec k tv).toNat tv.micros ↔
        tv.micros ≤ r.tick * (intMax + n))) :=
  ⟨fun _ _ happart ↦ lbolt_lt_iff k happart, fun hdvd _ hn tv ↦ lboltUsec_within_iff k hdvd hn tv⟩

/-- A `tvtohz` that does its sums exactly. -/
def exactTvtohz (r : TickRate) : Tvtohz r where
  tvtohz tv := Int32.ofInt (min intMax (tv.ticks r + 1) : ℕ)
  saturates tv := by
    have hmax : min intMax (tv.ticks r + 1) ≤ 2 ^ 31 - 1 := Nat.min_le_left _ _
    exact Int32.toInt_ofInt_of_le (by omega) (by omega)

def uptimeSeconds (n : ℕ) : Timeval := ⟨n, 0, by decide⟩

theorem lbolt_advances_hour :
    (fusionGetLbolt (exactTvtohz rate1000) (uptimeSeconds 3600) <
        fusionGetLbolt (exactTvtohz rate1000) (uptimeSeconds 3601) ↔
      (uptimeSeconds 3600).ticks rate1000 + 1 < intMax) ∧
    (Within (rate1000.tick * 2)
        (fusionGetLboltUsec (exactTvtohz rate1000) (uptimeSeconds 3600)).toNat
        (uptimeSeconds 3600).micros ↔
      (uptimeSeconds 3600).micros ≤ rate1000.tick * (intMax + 2)) :=
  ⟨(lbolt_advances (exactTvtohz rate1000)).1 _ _ (by decide),
    (lbolt_advances (exactTvtohz rate1000)).2 (by decide) 2 (by decide) _⟩

/-- At 1000 ticks to a second, the clock stands still after less than 25 days, and no number of
ticks bounds how far it falls behind. -/
theorem lbolt_stands_still :
    ((uptimeSeconds 2147484).micros * rate1000.hz + 2 * 1000000 ≤
        (uptimeSeconds 2147485).micros * rate1000.hz ∧
      fusionGetLbolt (exactTvtohz rate1000) (uptimeSeconds 2147484) = 2147483647 ∧
      fusionGetLbolt (exactTvtohz rate1000) (uptimeSeconds 2147485) = 2147483647) ∧
    rate1000.hz ∣ 1000000 ∧ ∀ n, ∃ tv, ¬ Within (rate1000.tick * n)
      (fusionGetLboltUsec (exactTvtohz rate1000) tv).toNat tv.micros := by
  have hdvd : rate1000.hz ∣ 1000000 := by decide
  refine ⟨by decide, hdvd, fun n ↦ ⟨uptimeSeconds (2147484 + n), ?_⟩⟩
  intro hwithin
  have hticks : rate1000.tick = 1000 := rfl
  have hmore : Within (rate1000.tick * (n + 2))
      (fusionGetLboltUsec (exactTvtohz rate1000) (uptimeSeconds (2147484 + n))).toNat
      (uptimeSeconds (2147484 + n)).micros := by
    unfold Within at hwithin ⊢
    rw [hticks] at hwithin ⊢
    omega
  rw [lboltUsec_within_iff _ hdvd (Nat.le_add_left 2 n)] at hmore
  have hmicros : (uptimeSeconds (2147484 + n)).micros = (2147484 + n) * 1000000 :=
    Nat.add_zero _
  have hmax : intMax = 2147483647 := rfl
  rw [hticks, hmax, hmicros] at hmore
  omega

end IomemoryVsl.Port
