import IomemoryVsl.Lib.ByteMemory
import Mathlib.Tactic.SplitIfs

/-!
# Values for user space (`kfio.c`, `port/kfio.h`)

`kfio_put_user` picks a helper by the size of the destination.  Each of them gets the value as an
`int` and converts it back.
-/

namespace IomemoryVsl.Kfio

open ByteMemory

/-- `copyout` of the `n` bytes of an unsigned value.  When it fails, nothing is said about what it
has written. -/
structure Copyout where
  copyout : Bytes → ℕ → ℕ → ℕ → Int32 × Bytes
  copied : ∀ m t arg n, (copyout m t arg n).1 = 0 → (copyout m t arg n).2 = storeLE m arg n t

/-- A value passed for an `int` parameter: the 32 low bits of it are kept. -/
def passInt (v : ℕ) : Int32 :=
  Int32.ofNat v

section Helpers

variable (c : Copyout) (m : Bytes)

def kfioPutUser8 (x : Int32) (arg : ℕ) : Int32 × Bytes :=
  let t : UInt8 := x.toUInt32.toUInt8
  c.copyout m t.toNat arg 1

def kfioPutUser16 (x : Int32) (arg : ℕ) : Int32 × Bytes :=
  let t : UInt16 := x.toUInt32.toUInt16
  c.copyout m t.toNat arg 2

def kfioPutUser32 (x : Int32) (arg : ℕ) : Int32 × Bytes :=
  let t : UInt32 := x.toUInt32
  c.copyout m t.toNat arg 4

/-- The conversion to 64 bits extends the sign. -/
def kfioPutUser64 (x : Int32) (arg : ℕ) : Int32 × Bytes :=
  let t : UInt64 := x.toInt64.toUInt64
  c.copyout m t.toNat arg 8

/-- The unsigned type that `arg` points to. -/
inductive UserType where
  | uint8
  | uint16
  | uint32
  | uint64
deriving DecidableEq, Repr

/-- `sizeof (*(arg))` -/
def UserType.sizeof : UserType → ℕ
  | .uint8 => 1
  | .uint16 => 2
  | .uint32 => 4
  | .uint64 => 8

/-- The macro `kfio_put_user`. -/
def kfioPutUser (type : UserType) (v arg : ℕ) : Int32 × Bytes :=
  match type with
  | .uint8 => kfioPutUser8 c m (passInt v) arg
  | .uint16 => kfioPutUser16 c m (passInt v) arg
  | .uint32 => kfioPutUser32 c m (passInt v) arg
  | .uint64 => kfioPutUser64 c m (passInt v) arg

end Helpers

/-- The value is at `arg`, and the bytes around it are what they were. -/
structure Stores (m m' : Bytes) (type : UserType) (v arg : ℕ) : Prop where
  value : loadLE m' arg type.sizeof = v
  frame : ∀ x, x < arg ∨ arg + type.sizeof ≤ x → m' x = m x

/-! ## The value on its way -/

/-- What a helper converts its parameter back to. -/
def UserType.convert (type : UserType) (x : Int32) : ℕ :=
  match type with
  | .uint8 => x.toUInt32.toUInt8.toNat
  | .uint16 => x.toUInt32.toUInt16.toNat
  | .uint32 => x.toUInt32.toNat
  | .uint64 => x.toInt64.toUInt64.toNat

variable {c : Copyout} {m : Bytes} {type : UserType} {v arg : ℕ}

theorem kfioPutUser_eq :
    kfioPutUser c m type v arg = c.copyout m (type.convert (passInt v)) arg type.sizeof := by
  cases type <;> rfl

theorem convert_lt (type : UserType) (x : Int32) : type.convert x < 256 ^ type.sizeof := by
  cases type
  case uint8 => exact x.toUInt32.toUInt8.toNat_lt
  case uint16 => exact x.toUInt32.toUInt16.toNat_lt
  case uint32 => exact x.toUInt32.toNat_lt
  case uint64 => exact x.toInt64.toUInt64.toNat_lt

/-- A destination no wider than an `int` gets back the bits that were passed. -/
theorem convert_passInt_narrow (hnarrow : type ≠ .uint64) (v : ℕ) :
    type.convert (passInt v) = v % 256 ^ type.sizeof := by
  have hword : (passInt v).toUInt32.toNat = v % 2 ^ 32 := by
    unfold passInt
    rw [Int32.toUInt32_ofNat']
    exact UInt32.toNat_ofNat'
  cases type
  case uint8 =>
    show (passInt v).toUInt32.toUInt8.toNat = v % 256
    rw [UInt32.toNat_toUInt8, hword]
    omega
  case uint16 =>
    show (passInt v).toUInt32.toUInt16.toNat = v % 65536
    rw [UInt32.toNat_toUInt16, hword]
    omega
  case uint32 => exact hword
  case uint64 => exact absurd rfl hnarrow

/-- In 64 bits, bit 31 of the value is spread over the upper half. -/
theorem convert_passInt_wide (v : ℕ) : UserType.uint64.convert (passInt v) =
    v % 2 ^ 32 + if v % 2 ^ 32 < 2 ^ 31 then 0 else 2 ^ 64 - 2 ^ 32 := by
  show ((BitVec.ofNat 32 v).signExtend 64).toNat = _
  have hsign : (BitVec.ofNat 32 v).msb = true ↔ ¬ v % 2 ^ 32 < 2 ^ 31 := by
    rw [BitVec.msb_eq_decide, BitVec.toNat_ofNat, decide_eq_true_iff]
    omega
  rw [BitVec.toNat_signExtend, BitVec.toNat_setWidth, BitVec.toNat_ofNat,
    Nat.mod_eq_of_lt (show v % 2 ^ 32 < 2 ^ 64 by omega)]
  by_cases hlow : v % 2 ^ 32 < 2 ^ 31
  · rw [if_neg (show ¬ (BitVec.ofNat 32 v).msb = true from fun h ↦ hsign.mp h hlow), if_pos hlow]
  · rw [if_pos (hsign.mpr hlow), if_neg hlow]

/-- The values that come back as they were passed. -/
theorem convert_passInt_iff (hv : v < 256 ^ type.sizeof) : type.convert (passInt v) = v ↔
    type ≠ .uint64 ∨ v < 2 ^ 31 ∨ 2 ^ 64 - 2 ^ 31 ≤ v := by
  by_cases hwide : type = .uint64
  · subst hwide
    have hbound : v < 2 ^ 64 := hv
    rw [convert_passInt_wide]
    constructor
    · intro hback
      right
      split_ifs at hback <;> omega
    · rintro (hne | hlow | hhigh)
      · exact absurd rfl hne
      · rw [if_pos (by omega)]
        omega
      · rw [if_neg (by omega)]
        omega
  · rw [convert_passInt_narrow hwide, Nat.mod_eq_of_lt hv]
    exact iff_of_true rfl (Or.inl hwide)

/-- A copy-out that succeeds has stored the value that was passed, exactly when the destination has
less than 64 bits or the upper 33 bits of the value are all equal. -/
theorem kfioPutUser_stores (c : Copyout) (m : Bytes) (type : UserType) (v arg : ℕ)
    (hv : v < 256 ^ type.sizeof) (hok : (kfioPutUser c m type v arg).1 = 0) :
    Stores m (kfioPutUser c m type v arg).2 type v arg ↔
      type ≠ .uint64 ∨ v < 2 ^ 31 ∨ 2 ^ 64 - 2 ^ 31 ≤ v := by
  rw [kfioPutUser_eq] at hok ⊢
  rw [← convert_passInt_iff hv, c.copied _ _ _ _ hok]
  have hload := loadLE_storeLE m arg type.sizeof (type.convert (passInt v))
  rw [Nat.mod_eq_of_lt (convert_lt type (passInt v))] at hload
  constructor
  · intro hstores
    exact hload.symm.trans hstores.value
  · intro hback
    exact
      { value := hload.trans hback
        frame := fun x hx ↦ storeLE_outside m _ hx }

/-- A `copyout` to memory all of which is there. -/
def userCopyout : Copyout where
  copyout m t arg n := (0, storeLE m arg n t)
  copied _ _ _ _ _ := rfl

theorem kfioPutUser_stores_uint32 :
    Stores (fun _ ↦ 0) (kfioPutUser userCopyout (fun _ ↦ 0) .uint32 0xdeadbeef 16).2 .uint32
      0xdeadbeef 16 :=
  (kfioPutUser_stores userCopyout (fun _ ↦ 0) .uint32 0xdeadbeef 16 (by decide) rfl).mpr
    (Or.inl (by decide))

/-- 2 GiB is stored as a number close to 2 ^ 64. -/
theorem kfioPutUser_two_gib :
    (kfioPutUser userCopyout (fun _ ↦ 0) .uint64 0x80000000 16).1 = 0 ∧
      loadLE (kfioPutUser userCopyout (fun _ ↦ 0) .uint64 0x80000000 16).2 16 8 =
        0xffffffff80000000 ∧
      ¬ Stores (fun _ ↦ 0) (kfioPutUser userCopyout (fun _ ↦ 0) .uint64 0x80000000 16).2 .uint64
        0x80000000 16 := by
  have hvalue : loadLE (kfioPutUser userCopyout (fun _ ↦ 0) .uint64 0x80000000 16).2 16 8 =
      0xffffffff80000000 := by decide
  refine ⟨rfl, hvalue, ?_⟩
  intro hstores
  exact absurd (hvalue.symm.trans hstores.value) (by decide)

end IomemoryVsl.Kfio
