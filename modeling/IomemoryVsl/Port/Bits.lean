import IomemoryVsl.Lib.BitField
import Mathlib.Logic.Function.Basic

/-!
# Bits of a word (`port/arch/bits.h`, `port/arch/x86_64/bits.h`)

The writers are single instructions, `bts` and `btr` on a word in memory; the reader is C.  Which
word an instruction works on depends on the operand that the compiler picks for the bit number.
-/

namespace IomemoryVsl.Port

open BitField

/-- The words from a pointer on; `fusion_bits_t` is `uint32_t`. -/
abbrev FusionWords := ℕ → BitVec 32

/-- How the bit number is encoded. -/
inductive BitOperand where
  | immediate
  | register
deriving DecidableEq, Repr

/-- The constraint `"Ir"`: an immediate is a constant from 0 to 31. -/
def BitOperand.Ir (o : BitOperand) (v : ℕ) : Prop :=
  o = .immediate → v < 32

instance (o : BitOperand) (v : ℕ) : Decidable (o.Ir v) :=
  inferInstanceAs (Decidable (_ → _))

/-- The constraint `"Jr"`, of constants from 0 to 63. -/
def BitOperand.Jr (o : BitOperand) (v : ℕ) : Prop :=
  o = .immediate → v < 64

instance (o : BitOperand) (v : ℕ) : Decidable (o.Jr v) :=
  inferInstanceAs (Decidable (_ → _))

/-- The word that `btsl` and `btrl` address; the bit in it is `v % 32`. -/
def BitOperand.word (v : ℕ) : BitOperand → ℕ
  | .immediate => 0
  | .register => v / 32

/-! ## The instructions and the functions -/

section Functions

variable (o : BitOperand) (v : ℕ) (p : FusionWords)

/-- The carry flag and the words after `btsl`. -/
def btsl : Bool × FusionWords :=
  ((p (o.word v)).getLsbD (v % 32),
    Function.update p (o.word v) (p (o.word v) ||| 1#32 <<< (v % 32)))

def btrl : Bool × FusionWords :=
  ((p (o.word v)).getLsbD (v % 32),
    Function.update p (o.word v) (p (o.word v) &&& ~~~(1#32 <<< (v % 32))))

def fioTestBit : Int32 :=
  if 1#32 <<< (v &&& 31) &&& p 0 ≠ 0 then 1 else 0

def fioSetBit : FusionWords :=
  (btsl o v p).2

def fioClearBit : FusionWords :=
  (btrl o v p).2

/-- `setb` -/
def setb (carry : Bool) : UInt8 :=
  if carry then 1 else 0

def fioTestAndSetBit : UInt8 × FusionWords :=
  (setb (btsl o v p).1, (btsl o v p).2)

def fioTestAndClearBit : UInt8 × FusionWords :=
  (setb (btrl o v p).1, (btrl o v p).2)

/-- The 64 bits are two words in memory, the lower one first. -/
def fioClearBit64 (q : BitVec 64) : BitVec 64 :=
  let words := (btrl o v fun w ↦ q.extractLsb' (32 * w) 32).2
  words 1 ++ words 0

end Functions

/-! ## What they promise -/

/-- The five functions agree on bit `v`, which is bit `v % 32` of word `v / 32`. -/
structure BitsAgree (o : BitOperand) (v : ℕ) (p : FusionWords) : Prop where
  set : fioTestBit v (fioSetBit o v p) = 1
  testAndSet : fioTestBit v (fioTestAndSetBit o v p).2 = 1
  clear : fioTestBit v (fioClearBit o v p) = 0
  testAndClear : fioTestBit v (fioTestAndClearBit o v p).2 = 0
  setReturns : (fioTestAndSetBit o v p).1.toUInt32.toInt32 = fioTestBit v p
  clearReturns : (fioTestAndClearBit o v p).1.toUInt32.toInt32 = fioTestBit v p
  others : ∀ p' ∈ [fioSetBit o v p, (fioTestAndSetBit o v p).2, fioClearBit o v p,
      (fioTestAndClearBit o v p).2], ∀ w i, (w, i) ≠ (v / 32, v % 32) →
    (p' w).getLsbD i = (p w).getLsbD i

/-- Bit `v` of the 64, and no other, has been cleared. -/
def ClearsBit64 (o : BitOperand) (v : ℕ) (q : BitVec 64) : Prop :=
  ∀ i, (fioClearBit64 o v q).getLsbD i = (q.getLsbD i && i ≠ v)

variable {o : BitOperand} {v : ℕ} {p : FusionWords}

theorem fioTestBit_eq (v : ℕ) (p : FusionWords) :
    fioTestBit v p = if (p 0).getLsbD (v % 32) then 1 else 0 := by
  have hmask : v &&& 31 = v % 32 := Nat.and_two_pow_sub_one_eq_mod v 5
  unfold fioTestBit
  rw [hmask, BitVec.and_comm]
  exact if_congr (and_one_shiftLeft_ne_zero (p 0) (v % 32)) rfl rfl

/-- The bit that an instruction addresses. -/
def BitOperand.Addresses (o : BitOperand) (v w i : ℕ) : Prop :=
  w = o.word v ∧ i = v % 32

instance (o : BitOperand) (v w i : ℕ) : Decidable (o.Addresses v w i) :=
  inferInstanceAs (Decidable (_ ∧ _))

theorem btsl_getLsbD (o : BitOperand) (v : ℕ) (p : FusionWords) (w i : ℕ) :
    ((btsl o v p).2 w).getLsbD i = ((p w).getLsbD i || decide (o.Addresses v w i)) := by
  have hbit : v % 32 < 32 := Nat.mod_lt v (by decide)
  unfold btsl BitOperand.Addresses
  dsimp only
  by_cases hw : w = o.word v
  · subst hw
    rw [Function.update_self, BitVec.getLsbD_or, ← BitVec.twoPow_eq, BitVec.getLsbD_twoPow]
    simp [hbit, eq_comm]
  · rw [Function.update_of_ne hw]
    simp [hw]

theorem btrl_getLsbD (o : BitOperand) (v : ℕ) (p : FusionWords) (w i : ℕ) :
    ((btrl o v p).2 w).getLsbD i = ((p w).getLsbD i && !decide (o.Addresses v w i)) := by
  have hbit : v % 32 < 32 := Nat.mod_lt v (by decide)
  unfold btrl BitOperand.Addresses
  dsimp only
  by_cases hw : w = o.word v
  · subst hw
    rw [Function.update_self, BitVec.getLsbD_and, BitVec.getLsbD_not, ← BitVec.twoPow_eq,
      BitVec.getLsbD_twoPow]
    by_cases hi : i < 32
    · simp [hbit, hi, eq_comm]
    · simp [BitVec.getLsbD_of_ge _ i (not_lt.mp hi)]
  · rw [Function.update_of_ne hw]
    simp [hw]

/-- A test after a store is of the bit that was stored, if that is in the first word. -/
theorem fioTestBit_btsl (o : BitOperand) (v : ℕ) (p : FusionWords) :
    fioTestBit v (btsl o v p).2 = if o.word v = 0 then 1 else fioTestBit v p := by
  rw [fioTestBit_eq, fioTestBit_eq, btsl_getLsbD]
  by_cases hword : o.word v = 0
  · simp [BitOperand.Addresses, hword]
  · simp [BitOperand.Addresses, hword, Ne.symm hword]

theorem fioTestBit_btrl (o : BitOperand) (v : ℕ) (p : FusionWords) :
    fioTestBit v (btrl o v p).2 = if o.word v = 0 then 0 else fioTestBit v p := by
  rw [fioTestBit_eq, fioTestBit_eq, btrl_getLsbD]
  by_cases hword : o.word v = 0
  · simp [BitOperand.Addresses, hword]
  · simp [BitOperand.Addresses, hword, Ne.symm hword]

theorem setb_eq (v : ℕ) (p : FusionWords) :
    (setb ((p 0).getLsbD (v % 32))).toUInt32.toInt32 = fioTestBit v p := by
  rw [fioTestBit_eq]
  cases (p 0).getLsbD (v % 32) <;> rfl

/-- The operand that is allowed for a bit addresses the first word, if the bit is there. -/
theorem word_eq (hv : v < 32) (o : BitOperand) : o.word v = v / 32 := by
  cases o with
  | immediate => exact (Nat.div_eq_of_lt hv).symm
  | register => rfl

/-- Beyond the first word it is a register, and addresses another. -/
theorem word_ne_zero (ho : o.Ir v) (hv : ¬ v < 32) : o.word v ≠ 0 := by
  cases o with
  | immediate => exact absurd (ho rfl) hv
  | register =>
    show v / 32 ≠ 0
    omega

theorem bitsAgree_of_lt (hv : v < 32) (o : BitOperand) (p : FusionWords) : BitsAgree o v p := by
  have hword : o.word v = 0 := (word_eq hv o).trans (Nat.div_eq_of_lt hv)
  have hset : fioTestBit v (btsl o v p).2 = 1 := by rw [fioTestBit_btsl, if_pos hword]
  have hclear : fioTestBit v (btrl o v p).2 = 0 := by rw [fioTestBit_btrl, if_pos hword]
  have hcarry : (setb ((p (o.word v)).getLsbD (v % 32))).toUInt32.toInt32 = fioTestBit v p := by
    rw [hword]
    exact setb_eq v p
  refine ⟨hset, hset, hclear, hclear, hcarry, hcarry, ?_⟩
  intro p' hp' w i hother
  have haddress : ¬ o.Addresses v w i := by
    intro haddress
    apply hother
    rw [haddress.1, haddress.2, word_eq hv o]
  have hbtsl : ((btsl o v p).2 w).getLsbD i = (p w).getLsbD i := by
    rw [btsl_getLsbD, decide_eq_false haddress, Bool.or_false]
  have hbtrl : ((btrl o v p).2 w).getLsbD i = (p w).getLsbD i := by
    rw [btrl_getLsbD, decide_eq_false haddress, Bool.not_false, Bool.and_true]
  simp only [List.mem_cons, List.not_mem_nil, or_false] at hp'
  rcases hp' with rfl | rfl | rfl | rfl
  · exact hbtsl
  · exact hbtsl
  · exact hbtrl
  · exact hbtrl

/-- In another word than the first, what is stored is not what is tested. -/
theorem not_bitsAgree (ho : o.Ir v) (hv : ¬ v < 32) (p : FusionWords) : ¬ BitsAgree o v p := by
  intro h
  have hset : fioTestBit v (btsl o v p).2 = 1 := h.set
  have hclear : fioTestBit v (btrl o v p).2 = 0 := h.clear
  rw [fioTestBit_btsl, if_neg (word_ne_zero ho hv)] at hset
  rw [fioTestBit_btrl, if_neg (word_ne_zero ho hv), hset] at hclear
  exact absurd hclear (by decide)

/-! ## 64 bits -/

/-- Bit `i` is bit `i % 32` of word `i / 32`. -/
theorem fioClearBit64_getLsbD (o : BitOperand) (v : ℕ) (q : BitVec 64) (i : ℕ) (hi : i < 64) :
    (fioClearBit64 o v q).getLsbD i =
      (q.getLsbD i && !decide (o.Addresses v (i / 32) (i % 32))) := by
  unfold fioClearBit64
  dsimp only
  rw [BitVec.getLsbD_append, btrl_getLsbD, btrl_getLsbD, BitVec.getLsbD_extractLsb',
    BitVec.getLsbD_extractLsb']
  by_cases hlow : i < 32
  · simp [hlow, Nat.div_eq_of_lt hlow, Nat.mod_eq_of_lt hlow]
  · have hword : i / 32 = 1 := by omega
    have hbit : i % 32 = i - 32 := by omega
    simp [hlow, hword, hbit, show i - 32 < 32 by omega, show 32 + (i - 32) = i by omega]

theorem clearsBit64_iff_addresses (o : BitOperand) (v : ℕ) (q : BitVec 64) : ClearsBit64 o v q ↔
    ∀ i, q.getLsbD i = true → (o.Addresses v (i / 32) (i % 32) ↔ i = v) := by
  constructor
  · intro h i hset
    have hi : i < 64 := by
      by_contra hge
      rw [BitVec.getLsbD_of_ge q i (not_lt.mp hge)] at hset
      cases hset
    have hbit := h i
    rw [fioClearBit64_getLsbD o v q i hi, hset] at hbit
    simpa [not_iff_not] using hbit
  · intro h i
    by_cases hi : i < 64
    · rw [fioClearBit64_getLsbD o v q i hi]
      cases hset : q.getLsbD i
      · rfl
      · simp [h i hset]
    · rw [BitVec.getLsbD_of_ge q i (not_lt.mp hi), BitVec.getLsbD_of_ge _ i (not_lt.mp hi)]
      rfl

theorem addresses_of_word (hword : o.word v = v / 32) (i : ℕ) :
    o.Addresses v (i / 32) (i % 32) ↔ i = v := by
  unfold BitOperand.Addresses
  rw [hword]
  omega

/-- As a constant, a bit of the upper word addresses the one 32 places below. -/
theorem addresses_immediate (hv : v < 64) (hhigh : ¬ v < 32) (i : ℕ) :
    BitOperand.immediate.Addresses v (i / 32) (i % 32) ↔ i = v - 32 := by
  show i / 32 = 0 ∧ i % 32 = v % 32 ↔ i = v - 32
  omega

theorem clearsBit64_iff (hv : v < 64) (o : BitOperand) (q : BitVec 64) : ClearsBit64 o v q ↔
    o = .register ∨ v < 32 ∨ q.getLsbD v = false ∧ q.getLsbD (v - 32) = false := by
  rw [clearsBit64_iff_addresses]
  by_cases hlow : v < 32
  · exact iff_of_true (fun i _ ↦ addresses_of_word (word_eq hlow o) i) (Or.inr (Or.inl hlow))
  · cases o with
    | register => exact iff_of_true (fun i _ ↦ addresses_of_word rfl i) (Or.inl rfl)
    | immediate =>
      constructor
      · intro h
        refine Or.inr (Or.inr ⟨?_, ?_⟩)
        · by_contra hset
          have heq := (addresses_immediate hv hlow v).mp ((h v (by simpa using hset)).mpr rfl)
          omega
        · by_contra hset
          have heq := (h (v - 32) (by simpa using hset)).mp
            ((addresses_immediate hv hlow (v - 32)).mpr rfl)
          omega
      · rintro (hregister | hword | ⟨hclear, hbelow⟩)
        · cases hregister
        · exact absurd hword hlow
        · -- neither of the two bits is set, so that clearing either changes nothing
          intro i hset
          rw [addresses_immediate hv hlow]
          constructor
          · rintro rfl
            rw [hbelow] at hset
            cases hset
          · rintro rfl
            rw [hclear] at hset
            cases hset

/-- The five functions agree exactly on the bits of the first word, whatever the operand; and the
function for 64 bits clears the one it is asked to, exactly when its operand is a register, or the
bit is in the lower word, or neither that bit nor the one 32 places below is set. -/
theorem bits_agree_iff (o : BitOperand) (v : ℕ) (p : FusionWords) (ho : o.Ir v) (o' : BitOperand)
    (n : ℕ) (q : BitVec 64) (hn : n < 64) :
    (BitsAgree o v p ↔ v < 32) ∧
      (ClearsBit64 o' n q ↔
        o' = .register ∨ n < 32 ∨ q.getLsbD n = false ∧ q.getLsbD (n - 32) = false) := by
  refine ⟨⟨?_, fun hv ↦ bitsAgree_of_lt hv o p⟩, clearsBit64_iff hn o' q⟩
  intro h
  by_contra hv
  exact not_bitsAgree ho hv p h

/-- A register with 31, and the topmost of 64 bits. -/
theorem bits_agree_iff_top :
    (BitsAgree .register 31 (fun _ ↦ 0#32) ↔ 31 < 32) ∧
      (ClearsBit64 .register 63 0#64 ↔ BitOperand.register = .register ∨ 63 < 32 ∨
        (0#64).getLsbD 63 = false ∧ (0#64).getLsbD (63 - 32) = false) :=
  bits_agree_iff .register 31 (fun _ ↦ 0#32) (by decide) .register 63 0#64 (by decide)

/-- Bit 32 is set in the second word and looked for in the first; as a constant it is cleared in
the lower half of the 64 bits. -/
theorem bit_32_missed :
    (BitOperand.Ir .register 32 ∧ fioSetBit .register 32 (fun _ ↦ 0#32) 1 = 1#32 ∧
      fioTestBit 32 (fioSetBit .register 32 fun _ ↦ 0#32) = 0 ∧
      ¬ BitsAgree .register 32 (fun _ ↦ 0#32)) ∧
    BitOperand.Jr .immediate 32 ∧ fioClearBit64 .immediate 32 0x100000001#64 = 0x100000000#64 ∧
      ¬ ClearsBit64 .immediate 32 0x100000001#64 := by
  have htest : fioTestBit 32 (fioSetBit .register 32 fun _ ↦ 0#32) = 0 := by decide
  have hclear : fioClearBit64 .immediate 32 0x100000001#64 = 0x100000000#64 := by decide
  refine ⟨⟨by decide, by decide, htest, fun h ↦ ?_⟩, by decide, hclear, fun h ↦ ?_⟩
  · have hset := h.set
    rw [htest] at hset
    exact absurd hset (by decide)
  · have hbit := h 32
    rw [hclear] at hbit
    exact absurd hbit (by decide)

end IomemoryVsl.Port
