import IomemoryVsl.Port.Atomic
import IomemoryVsl.Lib.BitField

/-!
# Atomic bits (`port/arch/ia64_bits.h`)

Bits of a word that threads set, clear and test.  With the HP compiler every writer is a loop around
`cmpxchg4`, on registers of 64 bits; with GCC the two functions that answer are loops around
`__sync_val_compare_and_swap`, on 32 bits, and the others one builtin each.

The mask of a bit number `v` is that of `v & 31`, but the answer is the old word shifted by `v`.
-/

namespace IomemoryVsl.Port

open SharedCell BitField

/-- The calls on a bit number. -/
inductive BitCall where
  | test (v : ℕ)
  | set (v : ℕ)
  | clear (v : ℕ)
  | testAndSet (v : ℕ)
  | testAndClear (v : ℕ)
deriving DecidableEq, Repr

/-- `1U << (v & 31)` -/
def bitMask (v : ℕ) : BitVec 32 :=
  1#32 <<< (v &&& 31)

/-- `((1U << (v & 31)) & *p) != 0` -/
def ia64TestBit (v : ℕ) (p : BitVec 32) : ℕ :=
  if bitMask v &&& p ≠ 0 then 1 else 0

/-! ## With the HP compiler -/

/-- `(unsigned char)((old >> v) & 1)` of a register of `w` bits, where `v < w` -/
def shiftedBit {w : ℕ} (v : ℕ) (old : BitVec w) : ℕ :=
  ((old >>> v &&& 1#w).setWidth 8).toNat

/-- What the calls answer; a `void` function answers nothing. -/
abbrev BitAnswer := Option ℕ

def hpcBitMethod : BitCall → Method (BitVec 32) (BitVec 64) BitAnswer
  | .test v => .once fun p ↦ (p, some (ia64TestBit v p))
  | .set v => .retry (cmpxchgLoop (fun old ↦ old ||| zxt4 (bitMask v)) fun _ ↦ none)
  | .clear v => .retry (cmpxchgLoop (fun old ↦ old &&& zxt4 (~~~bitMask v)) fun _ ↦ none)
  | .testAndSet v =>
      .retry (cmpxchgLoop (fun old ↦ old ||| zxt4 (bitMask v)) fun old ↦ some (shiftedBit v old))
  | .testAndClear v =>
      .retry (cmpxchgLoop (fun old ↦ old &&& zxt4 (~~~bitMask v)) fun old ↦
        some (shiftedBit v old))

/-! ## With GCC -/

/-- `__sync_val_compare_and_swap`: what the cell held, and what it holds afterwards -/
def syncValCompareAndSwap (old new p : BitVec 32) : BitVec 32 × BitVec 32 :=
  (p, if p = old then new else p)

/-- `do { old = *p; ret = compare_and_swap(p, old, next(old)); } while (ret != old);` -/
def syncLoop {ρ : Type*} (next : BitVec 32 → BitVec 32) (answer : BitVec 32 → ρ) :
    Retry (BitVec 32) (BitVec 32) ρ where
  load := id
  swap old p := syncValCompareAndSwap old (next old) p
  answer := answer
  swap_finds _ _ := rfl
  swap_keeps _ _ hne := if_neg hne

def syncBitMethod : BitCall → Method (BitVec 32) (BitVec 32) BitAnswer
  | .test v => .once fun p ↦ (p, some (ia64TestBit v p))
  | .set v => .once fun p ↦ (p ||| bitMask v, none)
  | .clear v => .once fun p ↦ (p &&& ~~~bitMask v, none)
  | .testAndSet v =>
      .retry (syncLoop (fun old ↦ old ||| bitMask v) fun old ↦ some (shiftedBit v old))
  | .testAndClear v =>
      .retry (syncLoop (fun old ↦ old &&& ~~~bitMask v) fun old ↦ some (shiftedBit v old))

/-! ## What one call does -/

/-- The bit numbers that a call writes, if any: all that share its mask. -/
def BitCall.Writes (i : ℕ) : BitCall → Prop
  | .test _ => False
  | .set v | .clear v | .testAndSet v | .testAndClear v => v % 32 = i % 32

theorem bitMask_getLsbD (v i : ℕ) : (bitMask v).getLsbD i = decide (i = v % 32) := by
  have hlow : v &&& 31 = v % 32 := Nat.and_two_pow_sub_one_eq_mod v 5
  have hbit : v % 32 < 32 := Nat.mod_lt v (by decide)
  unfold bitMask
  rw [hlow, ← BitVec.twoPow_eq, BitVec.getLsbD_twoPow]
  simp [hbit, eq_comm]

theorem zxt4_or (x y : BitVec 32) : zxt4 x ||| zxt4 y = zxt4 (x ||| y) :=
  (BitVec.setWidth_or).symm

theorem zxt4_and (x y : BitVec 32) : zxt4 x &&& zxt4 y = zxt4 (x &&& y) :=
  (BitVec.setWidth_and).symm

/-- The shift by the unmasked bit number finds the bit only below 32. -/
theorem shiftedBit_eq {w : ℕ} (hw : 8 ≤ w) (v : ℕ) (old : BitVec w) :
    shiftedBit v old = if old.getLsbD v then 1 else 0 := by
  unfold shiftedBit
  have hone : (old >>> v &&& 1#w).setWidth 8 = if old.getLsbD v then 1#8 else 0#8 := by
    apply BitVec.eq_of_getLsbD_eq
    intro i hi
    rw [BitVec.getLsbD_setWidth, BitVec.getLsbD_and, BitVec.getLsbD_ushiftRight]
    cases i with
    | zero => cases old.getLsbD v <;> simp [show 0 < w by omega]
    | succ i => cases old.getLsbD v <;> simp
  rw [hone]
  split <;> rfl

theorem shiftedBit_zxt4 (v : ℕ) (p : BitVec 32) :
    shiftedBit v (zxt4 p) = if p.getLsbD v then 1 else 0 := by
  have hbit : (zxt4 p).getLsbD v = p.getLsbD v := by
    unfold zxt4
    rw [BitVec.getLsbD_setWidth]
    by_cases hv : v < 32
    · simp [show v < 64 by omega]
    · simp [BitVec.getLsbD_of_ge p v (by omega)]
  rw [shiftedBit_eq (by decide), hbit]

/-- What a call leaves in the word. -/
def BitCall.value : BitCall → BitVec 32 → BitVec 32
  | .test _, p => p
  | .set v, p | .testAndSet v, p => p ||| bitMask v
  | .clear v, p | .testAndClear v, p => p &&& ~~~bitMask v

theorem hpcBitMethod_value (c : BitCall) (p : BitVec 32) :
    ((hpcBitMethod c).effect p).1 = c.value p := by
  cases c with
  | test v => rfl
  | set v | testAndSet v =>
      show ((Method.retry _).effect p).1 = _
      rw [cmpxchgLoop_effect, zxt4_or, truncInt32_zxt4]
      rfl
  | clear v | testAndClear v =>
      show ((Method.retry _).effect p).1 = _
      rw [cmpxchgLoop_effect, zxt4_and, truncInt32_zxt4]
      rfl

theorem syncLoop_effect {ρ : Type*} (next : BitVec 32 → BitVec 32) (answer : BitVec 32 → ρ)
    (p : BitVec 32) : (Method.retry (syncLoop next answer)).effect p = (next p, answer p) := by
  simp [Method.effect, syncLoop, syncValCompareAndSwap]

theorem syncBitMethod_value (c : BitCall) (p : BitVec 32) :
    ((syncBitMethod c).effect p).1 = c.value p := by
  cases c with
  | testAndSet v | testAndClear v =>
      show ((Method.retry _).effect p).1 = _
      rw [syncLoop_effect]
      rfl
  | _ => rfl

theorem hpc_testAndSet_answer (v : ℕ) (p : BitVec 32) :
    ((hpcBitMethod (.testAndSet v)).effect p).2 = some (if p.getLsbD v then 1 else 0) := by
  show ((Method.retry _).effect p).2 = _
  rw [cmpxchgLoop_effect, shiftedBit_zxt4]

theorem sync_testAndSet_answer (v : ℕ) (p : BitVec 32) :
    ((syncBitMethod (.testAndSet v)).effect p).2 = some (if p.getLsbD v then 1 else 0) := by
  show ((Method.retry _).effect p).2 = _
  rw [syncLoop_effect, shiftedBit_eq (by decide)]

/-- A call that does not write a bit leaves it as it is. -/
theorem value_getLsbD {c : BitCall} {i : ℕ} (hc : ¬ c.Writes i) (p : BitVec 32) :
    (c.value p).getLsbD (i % 32) = p.getLsbD (i % 32) := by
  have hi : i % 32 < 32 := Nat.mod_lt i (by decide)
  cases c with
  | test v => rfl
  | set v | testAndSet v =>
      have hne : ¬ i % 32 = v % 32 := fun h ↦ hc h.symm
      show (p ||| bitMask v).getLsbD (i % 32) = _
      rw [BitVec.getLsbD_or, bitMask_getLsbD, decide_eq_false hne, Bool.or_false]
  | clear v | testAndClear v =>
      have hne : ¬ i % 32 = v % 32 := fun h ↦ hc h.symm
      show (p &&& ~~~bitMask v).getLsbD (i % 32) = _
      rw [BitVec.getLsbD_and, BitVec.getLsbD_not, bitMask_getLsbD, decide_eq_false hne]
      simp [hi]

/-! ## A bit as a lock -/

/-- `fio_test_and_set_bit` takes the bit, and has won it when it answers 0; any other call that
writes the bit counts as dropping it. -/
def bitLock (v : ℕ) : TryLock BitCall BitAnswer where
  take c := c = .testAndSet v
  drop c := c ≠ .testAndSet v ∧ c.Writes v
  won r := r = some 0

/-- Threads that write the bit only while they hold it, other than to take it, exclude each
other: from any word, in any interleaving, and whatever is done to the other bits. -/
def BitExcludes {κ : Type*} [DecidableEq κ] (method : BitCall → Method (BitVec 32) κ BitAnswer)
    (v : ℕ) : Prop :=
  ∀ (p₀ : BitVec 32) (es : List (Event ℕ BitCall)) (s : State ℕ BitCall (BitVec 32) κ BitAnswer),
    Transition.Along (step method) (bitLock v).Disciplined (initial p₀) es →
      Transition.run (step method) (initial p₀) es = some s →
        ∀ t u, (bitLock v).Holds t s.trace → (bitLock v).Holds u s.trace → t = u

section Lock

variable {κ : Type*} {method : BitCall → Method (BitVec 32) κ BitAnswer} {v : ℕ}

/-- Below 32 the answer is about the bit that the mask has. -/
def bitFlag (hv : v < 32) (hvalue : ∀ c p, ((method c).effect p).1 = c.value p)
    (hanswer : ∀ p, ((method (.testAndSet v)).effect p).2 =
      some (if p.getLsbD v then 1 else 0)) : Flag method where
  toTryLock := bitLock v
  set p := p.getLsbD v = true
  takes c p hc := by
    have htake : c = .testAndSet v := hc
    rw [htake, hvalue]
    show (p ||| bitMask v).getLsbD v = true
    rw [BitVec.getLsbD_or, bitMask_getLsbD, Nat.mod_eq_of_lt hv]
    simp
  wins c p hc := by
    have htake : c = .testAndSet v := hc
    rw [htake]
    show ((method (.testAndSet v)).effect p).2 = some 0 ↔ _
    rw [hanswer]
    cases p.getLsbD v <;> simp
  others c p htake hdrop hset := by
    have hwrites : ¬ c.Writes v := fun h ↦ hdrop ⟨htake, h⟩
    have hkept := value_getLsbD hwrites p
    rw [Nat.mod_eq_of_lt hv] at hkept
    rw [hvalue, hkept]
    exact hset

theorem bitExcludes_of_lt [DecidableEq κ] (hv : v < 32)
    (hvalue : ∀ c p, ((method c).effect p).1 = c.value p)
    (hanswer : ∀ p, ((method (.testAndSet v)).effect p).2 =
      some (if p.getLsbD v then 1 else 0)) : BitExcludes method v := by
  intro p₀ es s hd hr t u ht hu
  exact ((bitFlag hv hvalue hanswer).exclusive hd hr ht).2 hu

/-- A thread tests and sets the bit, and nobody interferes. -/
def takeAlone (t v : ℕ) : List (Event ℕ BitCall) :=
  [.invoke t (.testAndSet v), .next t, .next t, .next t]

/-- From bit 32 on the loop of the HP compiler answers 0 whatever it finds. -/
theorem holds_takeAlone (hv : ¬ v < 32) {t : ℕ}
    {s : State ℕ BitCall (BitVec 32) (BitVec 64) BitAnswer} (hpc : s.pcs t = .idle) :
    ∃ s', Transition.run (step hpcBitMethod) s (takeAlone t v) = some s' ∧ s'.pcs = s.pcs ∧
      (bitLock v).Holds t s'.trace ∧
        ∀ u, (bitLock v).Holds u s.trace → (bitLock v).Holds u s'.trace := by
  obtain ⟨s', hs', hpcs, htrace⟩ : ∃ s',
      Transition.run (step hpcBitMethod) s (takeAlone t v) = some s' ∧ s'.pcs = s.pcs ∧
        s'.trace = _ := run_alone hpc rfl
  have hzero : ((hpcBitMethod (.testAndSet v)).effect s.value).2 = some 0 := by
    rw [hpc_testAndSet_answer, BitVec.getLsbD_of_ge s.value v (by omega)]
    rfl
  have hdrop : ¬ (bitLock v).drop (.testAndSet v) := fun h ↦ h.1 rfl
  refine ⟨s', hs', hpcs, ?_, ?_⟩
  · rw [htrace, (bitLock v).holds_ret]
    exact Or.inr ⟨rfl, rfl, hzero⟩
  · intro u hu
    rw [htrace, (bitLock v).holds_ret, (bitLock v).holds_lin, (bitLock v).holds_inv]
    exact Or.inl ⟨hu, fun h ↦ hdrop h.2⟩

/-- Two threads win the same bit one after the other. -/
theorem not_bitExcludes (hv : ¬ v < 32) : ¬ BitExcludes hpcBitMethod v := by
  intro hexcl
  obtain ⟨s, hs, hpcs, hfirst, -⟩ := holds_takeAlone hv (t := 0) (s := initial 0#32) rfl
  obtain ⟨s', hs', -, hsecond, hkept⟩ := holds_takeAlone hv (t := 1) (s := s) (by rw [hpcs]; rfl)
  have hrun : Transition.run (step hpcBitMethod) (initial 0#32) (takeAlone 0 v ++ takeAlone 1 v) =
      some s' := by
    rw [Transition.run_append, hs]
    exact hs'
  have hdisc : Transition.Along (step hpcBitMethod) (bitLock v).Disciplined (initial 0#32)
      (takeAlone 0 v ++ takeAlone 1 v) := by
    apply Transition.along_of_forall
    intro s e he t c heq hdrop
    subst heq
    simp only [takeAlone, List.cons_append, List.nil_append, List.mem_cons, Event.invoke.injEq,
      reduceCtorEq, List.not_mem_nil, or_false, false_or] at he
    rcases he with ⟨-, rfl⟩ | ⟨-, rfl⟩ <;> exact absurd rfl hdrop.1
  exact absurd (hexcl 0#32 _ s' hdisc hrun 0 1 (hkept 0 hfirst) hsecond) (by decide)

end Lock

/-- With the HP compiler a bit can serve as a lock exactly when its number is below the width of the
word, although the mask of every number is a bit of the word; from 64 on the shift is undefined.
With GCC the shift of 32 bits is defined below 32, where the bit serves as a lock. -/
theorem bit_excludes_iff : ∀ v < 64,
    (BitExcludes hpcBitMethod v ↔ v < 32) ∧ (v < 32 → BitExcludes syncBitMethod v) := by
  intro v _
  refine ⟨⟨?_, ?_⟩, ?_⟩
  · intro hexcl
    by_contra hv
    exact not_bitExcludes hv hexcl
  · intro hv
    exact bitExcludes_of_lt hv hpcBitMethod_value (hpc_testAndSet_answer v)
  · intro hv
    exact bitExcludes_of_lt hv syncBitMethod_value (sync_testAndSet_answer v)

theorem bit_excludes_iff_31 : BitExcludes hpcBitMethod 31 ∧ BitExcludes syncBitMethod 31 ∧
    ¬ BitExcludes hpcBitMethod 63 :=
  ⟨(bit_excludes_iff 31 (by decide)).1.mpr (by decide),
    (bit_excludes_iff 31 (by decide)).2 (by decide),
    fun h ↦ absurd ((bit_excludes_iff 63 (by decide)).1.mp h) (by decide)⟩

end IomemoryVsl.Port
