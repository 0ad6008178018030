import IomemoryVsl.Lib.WrapClock

/-!
# Comparing times (`port/ktime.h`)

The times are counters of 64 bits, compared by the sign of their difference as signed numbers.
-/

namespace IomemoryVsl.Port

open WrapClock

def kfioTimeAfter64 (a b : UInt64) : Bool :=
  b.toInt64 - a.toInt64 < 0

def kfioTimeBefore64 (a b : UInt64) : Bool :=
  kfioTimeAfter64 b a

def kfioTimeAfterEq64 (a b : UInt64) : Bool :=
  a.toInt64 - b.toInt64 ≥ 0

def kfioTimeBeforeEq64 (a b : UInt64) : Bool :=
  kfioTimeAfterEq64 b a

/-- `MILLI_SECONDS_TO_MICRO_SECONDS` -/
def milliSecondsToMicroSeconds (x : UInt64) : UInt64 :=
  x * 1000

/-- `PERIOD_OVER`; `now` and `then` in microseconds, `period` in milliseconds. -/
def periodOver (now then_ period : UInt64) : Bool :=
  kfioTimeAfter64 now (then_ + milliSecondsToMicroSeconds period)

/-- What a counter of microseconds shows at a time. -/
def counterAt (t : ℤ) : UInt64 :=
  ⟨reading 64 t⟩

variable {a b d : UInt64} {x y : ℤ}

theorem kfioTimeAfter64_iff :
    kfioTimeAfter64 a b = true ↔ ahead b.toBitVec a.toBitVec < 0 := by
  unfold kfioTimeAfter64
  rw [decide_eq_true_iff, Int64.lt_iff_toInt_lt]
  rfl

/-- The comparison that is not strict is the negation of the strict one the other way round. -/
theorem kfioTimeAfterEq64_eq (a b : UInt64) : kfioTimeAfterEq64 a b = !kfioTimeAfter64 b a := by
  unfold kfioTimeAfterEq64 kfioTimeAfter64
  rw [← decide_not]
  exact decide_eq_decide.mpr Int64.not_lt.symm

/-- Counters at times less than 2 ^ 63 apart compare as the times do. -/
theorem kfioTimeAfter64_counterAt (hnear : |x - y| < 2 ^ 63) :
    kfioTimeAfter64 (counterAt x) (counterAt y) = true ↔ y < x := by
  rw [kfioTimeAfter64_iff]
  apply ahead_neg_iff
  rw [abs_sub_comm]
  omega

theorem counterAt_toNat (a : UInt64) : counterAt a.toNat = a :=
  UInt64.toBitVec_inj.mp (reading_toNat a.toBitVec)

theorem counterAt_add (x y : ℤ) : counterAt (x + y) = counterAt x + counterAt y :=
  UInt64.toBitVec_inj.mp (reading_add x y)

theorem counterAt_mul (x y : ℤ) : counterAt (x * y) = counterAt x * counterAt y :=
  UInt64.toBitVec_inj.mp (reading_mul x y)

/-- The end of a period; the product and the sum may both have wrapped. -/
theorem counterAt_deadline (t : ℤ) (period : UInt64) :
    counterAt t + milliSecondsToMicroSeconds period = counterAt (t + period.toNat * 1000) := by
  rw [counterAt_add, counterAt_mul, counterAt_toNat]
  rfl

/-- A counter `d` ahead of another, if the sum has not come half way round. -/
theorem kfioTimeAfter64_add (hpos : 0 < d.toNat) (hd : d.toNat < 2 ^ 63) :
    kfioTimeAfter64 (a + d) a = true ∧ kfioTimeAfter64 a (a + d) = false := by
  have hahead := @kfioTimeAfter64_counterAt (a.toNat + d.toNat) a.toNat (by rw [abs_lt]; omega)
  have hbehind := @kfioTimeAfter64_counterAt a.toNat (a.toNat + d.toNat) (by rw [abs_lt]; omega)
  rw [counterAt_add, counterAt_toNat, counterAt_toNat] at hahead hbehind
  refine ⟨hahead.mpr (by omega), ?_⟩
  rw [Bool.eq_false_iff]
  intro h
  have hlt := hbehind.mp h
  omega

theorem kfioTimeAfter64_self (a : UInt64) : kfioTimeAfter64 a a = false := by
  rw [Bool.eq_false_iff, ne_eq, kfioTimeAfter64_iff, ahead_self]
  omega

theorem periodOver_iff {tNow tThen : ℤ} {period : UInt64}
    (hnear : |tNow - (tThen + 1000 * period.toNat)| < 2 ^ 63) :
    periodOver (counterAt tNow) (counterAt tThen) period = true ↔
      1000 * period.toNat < tNow - tThen := by
  unfold periodOver
  rw [counterAt_deadline, Int.mul_comm, kfioTimeAfter64_counterAt hnear]
  omega

/-- Counters that are less than 2 ^ 63 apart compare as the times they show, the two comparisons
differ on equal counters only, and a period is over once more time has passed than its length. -/
theorem kfioTime_orders (a d : UInt64) (hpos : 0 < d.toNat) (hd : d.toNat < 2 ^ 63)
    (tNow tThen : ℤ) (period : UInt64)
    (hnear : |tNow - (tThen + 1000 * period.toNat)| < 2 ^ 63) :
    (kfioTimeAfter64 (a + d) a = true ∧ kfioTimeBefore64 a (a + d) = true ∧
        kfioTimeAfter64 a (a + d) = false) ∧
      (kfioTimeAfterEq64 (a + d) a = kfioTimeAfter64 (a + d) a ∧
        kfioTimeAfterEq64 a (a + d) = kfioTimeAfter64 a (a + d)) ∧
      (kfioTimeAfter64 a a = false ∧ kfioTimeAfterEq64 a a = true) ∧
      (periodOver (counterAt tNow) (counterAt tThen) period = true ↔
        1000 * period.toNat < tNow - tThen) := by
  have hafter := @kfioTimeAfter64_add a d hpos hd
  have hself := kfioTimeAfter64_self a
  refine ⟨⟨hafter.1, hafter.1, hafter.2⟩, ⟨?_, ?_⟩, ⟨hself, ?_⟩, periodOver_iff hnear⟩
  · rw [kfioTimeAfterEq64_eq, hafter.1, hafter.2, Bool.not_false]
  · rw [kfioTimeAfterEq64_eq, hafter.1, hafter.2, Bool.not_true]
  · rw [kfioTimeAfterEq64_eq, hself, Bool.not_false]

/-- A period of two milliseconds that is over 1500 microseconds after the counter has wrapped. -/
theorem kfioTime_orders_wrapped :
    (kfioTimeAfter64 (0xffffffffffffffff + 3) 0xffffffffffffffff = true ∧
        kfioTimeBefore64 0xffffffffffffffff (0xffffffffffffffff + 3) = true ∧
        kfioTimeAfter64 0xffffffffffffffff (0xffffffffffffffff + 3) = false) ∧
      (kfioTimeAfterEq64 (0xffffffffffffffff + 3) 0xffffffffffffffff =
          kfioTimeAfter64 (0xffffffffffffffff + 3) 0xffffffffffffffff ∧
        kfioTimeAfterEq64 0xffffffffffffffff (0xffffffffffffffff + 3) =
          kfioTimeAfter64 0xffffffffffffffff (0xffffffffffffffff + 3)) ∧
      (kfioTimeAfter64 0xffffffffffffffff 0xffffffffffffffff = false ∧
        kfioTimeAfterEq64 0xffffffffffffffff 0xffffffffffffffff = true) ∧
      (periodOver (counterAt (2 ^ 64 + 1501)) (counterAt (2 ^ 64 - 500)) 2 = true ↔
        1000 * ((2 : UInt64).toNat : ℤ) < (2 ^ 64 + 1501) - (2 ^ 64 - 500)) :=
  kfioTime_orders 0xffffffffffffffff 3 (by decide) (by decide) (2 ^ 64 + 1501) (2 ^ 64 - 500) 2
    (by decide)

end IomemoryVsl.Port
