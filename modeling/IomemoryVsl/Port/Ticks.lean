import IomemoryVsl.Lib.FloorConvert
import Mathlib.Tactic.SplitIfs

/-!
# Clock ticks (`ktime.c`, `kcondvar.c`, `sched.c`)

Conversions between microseconds and ticks, and the functions that hand the kernel a number of ticks
to wait.
-/

namespace IomemoryVsl.Port

open FloorConvert

/-- The variable `hz` of the kernel, an `int`. -/
structure TickRate where
  hz : ℕ
  pos : 0 < hz
  int : hz < 2 ^ 31
deriving DecidableEq, Repr

/-- The variable `tick` of the kernel: microseconds to a tick. -/
def TickRate.tick (r : TickRate) : ℕ :=
  1000000 / r.hz

def fusionUsectohz (r : TickRate) (usec : UInt64) : UInt64 :=
  usec * UInt64.ofNat r.hz / 1000000

def fusionHztousec (r : TickRate) (hertz : UInt64) : UInt64 :=
  UInt64.ofNat r.tick * hertz

variable {r : TickRate}

theorem TickRate.hz_word (r : TickRate) : (UInt64.ofNat r.hz).toNat = r.hz := by
  have hint := r.int
  exact UInt64.toNat_ofNat_of_lt' (show r.hz < 2 ^ 64 by omega)

theorem TickRate.tick_word (r : TickRate) : (UInt64.ofNat r.tick).toNat = r.tick := by
  have htick : r.tick ≤ 1000000 := Nat.div_le_self 1000000 r.hz
  exact UInt64.toNat_ofNat_of_lt' (show r.tick < 2 ^ 64 by omega)

theorem fusionUsectohz_toNat (r : TickRate) (usec : UInt64) :
    (fusionUsectohz r usec).toNat = usec.toNat * r.hz % 2 ^ 64 / 1000000 := by
  unfold fusionUsectohz
  rw [UInt64.toNat_div, UInt64.toNat_mul, r.hz_word]
  rfl

theorem fusionHztousec_toNat (r : TickRate) (hertz : UInt64) :
    (fusionHztousec r hertz).toNat = r.tick * hertz.toNat % 2 ^ 64 := by
  unfold fusionHztousec
  rw [UInt64.toNat_mul, r.tick_word]

/-! ## Back and forth -/

theorem fusionUsectohz_coarse {u : UInt64} (hfit : u.toNat * r.hz < 2 ^ 64) :
    (fusionUsectohz r u).toNat = coarse 1000000 r.hz u.toNat := by
  rw [fusionUsectohz_toNat, Nat.mod_eq_of_lt hfit]
  rfl

theorem fusionHztousec_fine {t : UInt64} (hfit : r.tick * t.toNat < 2 ^ 64) :
    (fusionHztousec r t).toNat = fine 1000000 r.hz t.toNat := by
  rw [fusionHztousec_toNat, Nat.mod_eq_of_lt hfit]
  rfl

/-- A time-out that has been converted to ticks still fits when it is converted back. -/
theorem fusionHztousec_fusionUsectohz {u : UInt64} (hfit : u.toNat * r.hz < 2 ^ 64) :
    (fusionHztousec r (fusionUsectohz r u)).toNat =
      fine 1000000 r.hz (coarse 1000000 r.hz u.toNat) := by
  have hback : fine 1000000 r.hz (coarse 1000000 r.hz u.toNat) ≤ u.toNat := fine_coarse_le r.pos
  rw [← fusionUsectohz_coarse hfit] at hback ⊢
  have hword := u.toNat_lt
  exact fusionHztousec_fine (Nat.lt_of_le_of_lt hback hword)

/-- Whatever wraps, a number of ticks has not become larger when it comes back. -/
theorem fusionUsectohz_fusionHztousec_le (r : TickRate) (t : UInt64) :
    (fusionUsectohz r (fusionHztousec r t)).toNat ≤ t.toNat := by
  rw [fusionUsectohz_toNat, fusionHztousec_toNat]
  calc r.tick * t.toNat % 2 ^ 64 * r.hz % 2 ^ 64 / 1000000
      ≤ r.tick * t.toNat % 2 ^ 64 * r.hz / 1000000 := Nat.div_le_div_right (Nat.mod_le _ _)
    _ ≤ coarse 1000000 r.hz (fine 1000000 r.hz t.toNat) := coarse_mono (Nat.mod_le _ _)
    _ ≤ t.toNat := coarse_fine_le

/-- What the conversions promise while their products fit in 64 bits. -/
structure ConvertsDown (r : TickRate) : Prop where
  usectohz_mono : ∀ u u' : UInt64, u ≤ u' → u'.toNat * r.hz < 2 ^ 64 →
    fusionUsectohz r u ≤ fusionUsectohz r u'
  hztousec_mono : ∀ t t' : UInt64, t ≤ t' → r.tick * t'.toNat < 2 ^ 64 →
    fusionHztousec r t ≤ fusionHztousec r t'
  usec_back : ∀ u : UInt64, u.toNat * r.hz < 2 ^ 64 → fusionHztousec r (fusionUsectohz r u) ≤ u
  ticks_back : ∀ t : UInt64, fusionUsectohz r (fusionHztousec r t) ≤ t
  ticks_exact : r.hz ∣ 1000000 → ∀ t : UInt64, r.tick * t.toNat * r.hz < 2 ^ 64 →
    fusionUsectohz r (fusionHztousec r t) = t
  usec_loss : r.hz ∣ 1000000 → ∀ u : UInt64, u.toNat * r.hz < 2 ^ 64 →
    u.toNat - (fusionHztousec r (fusionUsectohz r u)).toNat < r.tick

/-- Converting a time-out to ticks and back never lengthens it, and at a rate that divides a second
it loses less than one tick. -/
theorem conversions_down (r : TickRate) : ConvertsDown r where
  usectohz_mono := by
    intro u u' hle hfit
    rw [UInt64.le_iff_toNat_le] at hle ⊢
    rw [fusionUsectohz_coarse (Nat.lt_of_le_of_lt (Nat.mul_le_mul_right r.hz hle) hfit),
      fusionUsectohz_coarse hfit]
    exact coarse_mono hle
  hztousec_mono := by
    intro t t' hle hfit
    rw [UInt64.le_iff_toNat_le] at hle ⊢
    rw [fusionHztousec_fine (Nat.lt_of_le_of_lt (Nat.mul_le_mul_left r.tick hle) hfit),
      fusionHztousec_fine hfit]
    exact fine_mono hle
  usec_back := by
    intro u hfit
    rw [UInt64.le_iff_toNat_le, fusionHztousec_fusionUsectohz hfit]
    exact fine_coarse_le r.pos
  ticks_back := by
    intro t
    rw [UInt64.le_iff_toNat_le]
    exact fusionUsectohz_fusionHztousec_le r t
  ticks_exact := by
    intro hdvd t hfit
    have husec : (fusionHztousec r t).toNat = fine 1000000 r.hz t.toNat :=
      fusionHztousec_fine (Nat.lt_of_le_of_lt (Nat.le_mul_of_pos_right _ r.pos) hfit)
    apply UInt64.toNat_inj.mp
    rw [fusionUsectohz_coarse (by rw [husec]; exact hfit), husec]
    exact coarse_fine_of_dvd (by decide) hdvd
  usec_loss := by
    intro hdvd u hfit
    rw [fusionHztousec_fusionUsectohz hfit]
    exact sub_fine_coarse_lt (by decide) hdvd

/-- 100 ticks to a second. -/
def rate100 : TickRate := ⟨100, by decide, by decide⟩

/-- Ticks whose product with `hz` fits, and whose product with `tick` does not: more of them are
fewer microseconds, and they do not come back. -/
theorem hztousec_wraps :
    ((1844674407370955 : UInt64) ≤ 1844674407370956 ∧
      (1844674407370956 : UInt64).toNat * rate100.hz < 2 ^ 64 ∧
      ¬ fusionHztousec rate100 1844674407370955 ≤ fusionHztousec rate100 1844674407370956) ∧
    rate100.hz ∣ 1000000 ∧ fusionUsectohz rate100 (fusionHztousec rate100 1844674407370956) ≠
      1844674407370956 := by
  decide

/-! ## Waiting -/

/-- A count converted to `int`, by a cast or for a parameter: its 32 low bits are kept. -/
def intOfCount (count : UInt64) : Int32 :=
  count.toUInt32.toInt32

/-- The argument of `pause`. -/
def kfioMsleep (r : TickRate) (millisecs : UInt32) : Int32 :=
  let timo := millisecs.toUInt64 * UInt64.ofNat r.hz / 1000
  intOfCount timo

/-- The argument of `cv_timedwait`. -/
def fusionCondvarTimedwait (r : TickRate) (timeoutUs : Int64) : Int32 :=
  intOfCount (fusionUsectohz r timeoutUs.toUInt64)

/-- The argument of `timeout`. -/
def fusionScheduleDelayedWork (r : TickRate) (sleepTime : UInt64) : Int32 :=
  intOfCount (fusionUsectohz r sleepTime)

/-- The argument of `callout_reset`. -/
def fusionSetRelativeTimer (t : UInt64) : Int32 :=
  intOfCount t

/-- A wait that a caller asks for. -/
inductive Delay where
  | msleep (millisecs : UInt32)
  | timedwait (timeoutUs : Int64) (nonneg : 0 ≤ timeoutUs)
  | delayedWork (sleepTime : UInt64)
  | relativeTimer (t : UInt64)

/-- The number of ticks that the kernel is handed. -/
def Delay.handed (r : TickRate) : Delay → Int32
  | .msleep millisecs => kfioMsleep r millisecs
  | .timedwait timeoutUs _ => fusionCondvarTimedwait r timeoutUs
  | .delayedWork sleepTime => fusionScheduleDelayedWork r sleepTime
  | .relativeTimer t => fusionSetRelativeTimer t

def Delay.amount : Delay → ℕ
  | .msleep millisecs => millisecs.toNat
  | .timedwait timeoutUs _ => timeoutUs.toInt.toNat
  | .delayedWork sleepTime => sleepTime.toNat
  | .relativeTimer t => t.toNat

/-- The amounts to a second; ticks are counted as they are. -/
def Delay.unit (r : TickRate) : Delay → ℕ
  | .msleep _ => 1000
  | .timedwait _ _ => 1000000
  | .delayedWork _ => 1000000
  | .relativeTimer _ => r.hz

/-- The ticks that the wait takes, rounded down. -/
def Delay.exact (r : TickRate) (d : Delay) : ℕ :=
  d.amount * r.hz / d.unit r

def intMax : ℕ := 2 ^ 31 - 1

/-- The kernel is handed as many ticks as asked for, or as many as an `int` can say. -/
structure Honours (exact : ℕ) (handed : Int32) : Prop where
  nonneg : 0 ≤ handed.toInt
  enough : exact ≤ intMax → exact ≤ handed.toInt
  capped : intMax < exact → handed.toInt = intMax

/-- What the arithmetic of 64 bits makes of the wait, before it is converted to `int`. -/
def Delay.count (r : TickRate) : Delay → ℕ
  | .relativeTimer t => t.toNat
  | d => d.amount * r.hz % 2 ^ 64 / d.unit r

theorem intOfCount_toInt (count : UInt64) :
    (intOfCount count).toInt = (count.toNat : ℤ).bmod (2 ^ 32) := by
  show count.toUInt32.toBitVec.toInt = _
  rw [BitVec.toInt_eq_toNat_bmod]
  show (count.toUInt32.toNat : ℤ).bmod (2 ^ 32) = _
  rw [UInt64.toNat_toUInt32, Int.natCast_emod, Int.emod_bmod]

theorem handed_toInt (r : TickRate) (d : Delay) :
    (d.handed r).toInt = (d.count r : ℤ).bmod (2 ^ 32) := by
  cases d with
  | msleep millisecs =>
    unfold Delay.handed kfioMsleep
    rw [intOfCount_toInt, UInt64.toNat_div, UInt64.toNat_mul, r.hz_word, UInt32.toNat_toUInt64]
    rfl
  | timedwait timeoutUs nonneg =>
    unfold Delay.handed fusionCondvarTimedwait
    rw [intOfCount_toInt, fusionUsectohz_toNat, Int64.toNat_toUInt64_of_le nonneg]
    rfl
  | delayedWork sleepTime =>
    unfold Delay.handed fusionScheduleDelayedWork
    rw [intOfCount_toInt, fusionUsectohz_toNat]
    rfl
  | relativeTimer t => exact intOfCount_toInt t

/-- A quotient that an `int` can say comes of a product that fits in 64 bits. -/
theorem product_fits {product n : ℕ} (hn : 0 < n) (hunit : n ≤ 1000000)
    (hquot : product / n ≤ intMax) : product < 2 ^ 64 := by
  calc product < (intMax + 1) * n := Nat.lt_mul_of_div_lt (Nat.lt_succ_of_le hquot) hn
    _ ≤ (intMax + 1) * 1000000 := Nat.mul_le_mul_left _ hunit
    _ < 2 ^ 64 := by decide

theorem count_of_fits (r : TickRate) {d : Delay} (hfits : d.exact r ≤ intMax) :
    d.count r = d.exact r := by
  cases d with
  | msleep millisecs =>
    have hsmall : millisecs.toNat * r.hz < 2 ^ 64 :=
      product_fits (n := 1000) (by decide) (by decide) hfits
    show millisecs.toNat * r.hz % 2 ^ 64 / 1000 = millisecs.toNat * r.hz / 1000
    rw [Nat.mod_eq_of_lt hsmall]
  | timedwait timeoutUs nonneg =>
    have hsmall : timeoutUs.toInt.toNat * r.hz < 2 ^ 64 :=
      product_fits (n := 1000000) (by decide) (by decide) hfits
    show timeoutUs.toInt.toNat * r.hz % 2 ^ 64 / 1000000 = timeoutUs.toInt.toNat * r.hz / 1000000
    rw [Nat.mod_eq_of_lt hsmall]
  | delayedWork sleepTime =>
    have hsmall : sleepTime.toNat * r.hz < 2 ^ 64 :=
      product_fits (n := 1000000) (by decide) (by decide) hfits
    show sleepTime.toNat * r.hz % 2 ^ 64 / 1000000 = sleepTime.toNat * r.hz / 1000000
    rw [Nat.mod_eq_of_lt hsmall]
  | relativeTimer t => exact (Nat.mul_div_cancel t.toNat r.pos).symm

/-- The kernel is handed what was asked for when that is an `int`; beyond, only when the low bits
of the count happen to be those of the largest one. -/
theorem delay_honoured (r : TickRate) (d : Delay) :
    Honours (d.exact r) (d.handed r) ↔
      d.exact r ≤ intMax ∨ d.count r % 2 ^ 32 = intMax := by
  have hhanded := handed_toInt r d
  rw [Int.bmod_def] at hhanded
  have hmax : intMax = 2147483647 := rfl
  by_cases hfits : d.exact r ≤ intMax
  · rw [count_of_fits r hfits] at hhanded
    refine iff_of_true ⟨?_, fun _ ↦ ?_, fun hover ↦ ?_⟩ (Or.inl hfits)
    all_goals
      split_ifs at hhanded <;> omega
  · constructor
    · intro h
      have hcapped := h.capped (by omega)
      right
      split_ifs at hhanded <;> omega
    · rintro (hle | hlow)
      · exact absurd hle hfits
      · have hcapped : (d.handed r).toInt = intMax := by
          split_ifs at hhanded <;> omega
        exact ⟨by omega, fun hle ↦ absurd hle hfits, fun _ ↦ hcapped⟩

def rate1000 : TickRate := ⟨1000, by decide, by decide⟩

/-- The longest sleep becomes a negative one, and a little over 49 days become none, in each of the
functions. -/
theorem delay_wraps :
    ((Delay.msleep 4294967295).handed rate1000 = -1 ∧
      ¬ Honours ((Delay.msleep 4294967295).exact rate1000)
        ((Delay.msleep 4294967295).handed rate1000)) ∧
    ((Delay.timedwait 4294967296000 (by decide)).handed rate1000 = 0 ∧
      ¬ Honours ((Delay.timedwait 4294967296000 (by decide)).exact rate1000)
        ((Delay.timedwait 4294967296000 (by decide)).handed rate1000)) ∧
    ((Delay.delayedWork 4294967296000).handed rate1000 = 0 ∧
      ¬ Honours ((Delay.delayedWork 4294967296000).exact rate1000)
        ((Delay.delayedWork 4294967296000).handed rate1000)) ∧
    (Delay.relativeTimer 4294967296).handed rate1000 = 0 ∧
      ¬ Honours ((Delay.relativeTimer 4294967296).exact rate1000)
        ((Delay.relativeTimer 4294967296).handed rate1000) := by
  refine ⟨⟨by decide, fun h ↦ ?_⟩, ⟨by decide, fun h ↦ ?_⟩, ⟨by decide, fun h ↦ ?_⟩, by decide,
    fun h ↦ ?_⟩
  all_goals
    exact absurd (h.capped (by decide)) (by decide)

end IomemoryVsl.Port
