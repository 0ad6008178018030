import IomemoryVsl.Lib.BitField
import IomemoryVsl.Kblock.Bio

/-!
# The numbers of ioctls (`port/ioctl.h`, `port/freebsd/platform_ioctl.h`, `cdev.c`, `kblock.c`)

A command is put together from a direction, a type, a number and the size of its argument.  On
FreeBSD all commands have one direction and no size, so that the kernel leaves the copying of the
argument to the driver.
-/

namespace IomemoryVsl.Port

open BitField Kblock

/-- What a platform may override: the widths of the two upper fields, which share the upper half of
the command, the directions, and whether `FIO_PLATFORM_IOC` is there and puts a zero in the place of
the size. -/
structure IocLayout where
  sizeBits : ℕ
  dirBits : ℕ
  whole : sizeBits + dirBits = 16
  none : BitVec 32
  write : BitVec 32
  read : BitVec 32
  none_lt : none.toNat < 2 ^ dirBits
  write_lt : write.toNat < 2 ^ dirBits
  read_lt : read.toNat < 2 ^ dirBits
  dropsSize : Bool

def genericIoc : IocLayout :=
  ⟨14, 2, rfl, 0#32, 1#32, 2#32, by decide, by decide, by decide, false⟩

def freebsdIoc : IocLayout :=
  ⟨13, 3, rfl, 1#32, 1#32, 1#32, by decide, by decide, by decide, true⟩

/-- `FIO_IO`, `FIO_IOR`, `FIO_IOW` and `FIO_IOWR` -/
inductive IocKind where
  | io
  | ior
  | iow
  | iowr
deriving DecidableEq, Repr

section Layout

variable (L : IocLayout)

/-- `FIO_IOC_DIRSHIFT` -/
def IocLayout.dirShift : ℕ := 16 + L.sizeBits

/-- `FIO_IOC`; a size has 64 bits and makes a command of 64 bits. -/
def fioIoc (dir type nr : BitVec 32) (size : BitVec 64) : BitVec 64 :=
  let head := dir <<< L.dirShift ||| type <<< 8 ||| nr <<< 0
  if L.dropsSize then (head ||| 0#32 <<< 16).setWidth 64 else head.setWidth 64 ||| size <<< 16

def IocKind.dir : IocKind → BitVec 32
  | .io => L.none
  | .ior => L.read
  | .iow => L.write
  | .iowr => L.read ||| L.write

/-- The command of a kind, as the driver gets it: `(unsigned)cmd`. -/
def fioCommand (kind : IocKind) (type nr : BitVec 32) (size : BitVec 64) : BitVec 32 :=
  (fioIoc L (kind.dir L) type nr (if kind = .io then 0#64 else size)).setWidth 32

def fioIocDir (c : BitVec 32) : BitVec 32 := BitField.read c L.dirShift L.dirBits
def fioIocType (c : BitVec 32) : BitVec 32 := BitField.read c 8 8
def fioIocNr (c : BitVec 32) : BitVec 32 := BitField.read c 0 8
def fioIocSize (c : BitVec 32) : BitVec 32 := BitField.read c 16 L.sizeBits

end Layout

/-! ## Bits of a command -/

variable {L : IocLayout} {dir type nr : BitVec 32} {size : BitVec 64}

theorem fioIoc_getLsbD (L : IocLayout) (dir type nr : BitVec 32) (size : BitVec 64) {i : ℕ}
    (hi : i < 32) : ((fioIoc L dir type nr size).setWidth 32).getLsbD i =
      (decide (L.dirShift ≤ i) && dir.getLsbD (i - L.dirShift) ||
        decide (8 ≤ i) && type.getLsbD (i - 8) || nr.getLsbD i ||
        !L.dropsSize && decide (16 ≤ i) && size.getLsbD (i - 16)) := by
  have hi64 : i < 64 := by omega
  unfold fioIoc
  cases L.dropsSize with
  | true =>
      simp only [if_true, BitVec.getLsbD_setWidth, BitVec.getLsbD_or, BitVec.getLsbD_shiftLeft, hi,
        hi64, decide_true]
      simp
      grind
  | false =>
      simp only [Bool.false_eq_true, if_false, BitVec.getLsbD_setWidth, BitVec.getLsbD_or,
        BitVec.getLsbD_shiftLeft, hi, hi64, decide_true]
      simp
      grind

/-- What a command is put together from; the three first parts are small enough for their fields. -/
structure IocParts (L : IocLayout) where
  dir : BitVec 32
  type : BitVec 32
  nr : BitVec 32
  size : BitVec 64
  dir_lt : dir.toNat < 2 ^ L.dirBits
  type_lt : type.toNat < 2 ^ 8
  nr_lt : nr.toNat < 2 ^ 8

def IocParts.command (p : IocParts L) : BitVec 32 :=
  (fioIoc L p.dir p.type p.nr p.size).setWidth 32

/-- The size does not reach into the direction. -/
def IocParts.Fits (p : IocParts L) : Prop :=
  L.dropsSize = false → p.size.toNat < 2 ^ L.sizeBits

variable (p : IocParts L)

/-- The lower half, whatever the size. -/
theorem IocParts.getLsbD_low {i : ℕ} (hi : i < 16) : p.command.getLsbD i =
    if i < 8 then p.nr.getLsbD i else p.type.getLsbD (i - 8) := by
  have hshift : L.dirShift = 16 + L.sizeBits := rfl
  unfold IocParts.command
  rw [fioIoc_getLsbD L p.dir p.type p.nr p.size (by omega)]
  have hnr : 8 ≤ i → p.nr.getLsbD i = false := getLsbD_of_lt_two_pow p.nr_lt
  split
  · simp [show ¬ L.dirShift ≤ i by omega, show ¬ 8 ≤ i by omega, show ¬ 16 ≤ i by omega]
  · simp [show ¬ L.dirShift ≤ i by omega, show 8 ≤ i by omega, show ¬ 16 ≤ i by omega,
      hnr (by omega)]

/-- The upper half. -/
theorem IocParts.getLsbD_high (hfits : p.Fits) {i : ℕ} (hlow : 16 ≤ i) (hi : i < 32) :
    p.command.getLsbD i =
      if i < L.dirShift then !L.dropsSize && p.size.getLsbD (i - 16)
      else p.dir.getLsbD (i - L.dirShift) := by
  have hshift : L.dirShift = 16 + L.sizeBits := rfl
  unfold IocParts.command
  rw [fioIoc_getLsbD L p.dir p.type p.nr p.size hi]
  have hnr : p.nr.getLsbD i = false := getLsbD_of_lt_two_pow p.nr_lt (by omega)
  have htype : p.type.getLsbD (i - 8) = false := getLsbD_of_lt_two_pow p.type_lt (by omega)
  split
  · simp [show ¬ L.dirShift ≤ i by omega, hlow, hnr, htype]
  · have hsize : (!L.dropsSize && p.size.getLsbD (i - 16)) = false := by
      cases hdrops : L.dropsSize with
      | true => rfl
      | false => exact getLsbD_of_lt_two_pow (hfits hdrops) (by omega)
    simp only [show L.dirShift ≤ i by omega, hlow, hnr, htype, decide_true, Bool.and_true,
      Bool.and_false, Bool.true_and, Bool.or_false, hsize]

theorem fioIocNr_command : fioIocNr p.command = p.nr := by
  apply BitVec.eq_of_getLsbD_eq
  intro i hi
  rw [fioIocNr, getLsbD_read _ _ (by decide), Nat.zero_add]
  by_cases hin : i < 8
  · rw [p.getLsbD_low (by omega), if_pos hin]
    simp [hin]
  · rw [getLsbD_of_lt_two_pow p.nr_lt (by omega)]
    simp [hin]

theorem fioIocType_command : fioIocType p.command = p.type := by
  apply BitVec.eq_of_getLsbD_eq
  intro i hi
  rw [fioIocType, getLsbD_read _ _ (by decide)]
  by_cases hin : i < 8
  · rw [p.getLsbD_low (by omega), if_neg (by omega), Nat.add_sub_cancel_left]
    simp [hin]
  · rw [getLsbD_of_lt_two_pow p.type_lt (by omega)]
    simp [hin]

theorem fioIocDir_command (hfits : p.Fits) : fioIocDir L p.command = p.dir := by
  have hwhole := L.whole
  have hshift : L.dirShift = 16 + L.sizeBits := rfl
  apply BitVec.eq_of_getLsbD_eq
  intro i hi
  rw [fioIocDir, getLsbD_read _ _ (by omega)]
  by_cases hin : i < L.dirBits
  · rw [p.getLsbD_high hfits (by omega) (by omega), if_neg (by omega), Nat.add_sub_cancel_left]
    simp [hin]
  · rw [getLsbD_of_lt_two_pow p.dir_lt (by omega)]
    simp [hin]

theorem fioIocSize_command (hfits : p.Fits) :
    fioIocSize L p.command = if L.dropsSize then 0#32 else p.size.setWidth 32 := by
  have hwhole := L.whole
  have hshift : L.dirShift = 16 + L.sizeBits := rfl
  apply BitVec.eq_of_getLsbD_eq
  intro i hi
  rw [fioIocSize, getLsbD_read _ _ (by omega)]
  by_cases hin : i < L.sizeBits
  · rw [p.getLsbD_high hfits (by omega) (by omega), if_pos (by omega), Nat.add_sub_cancel_left]
    cases L.dropsSize with
    | true => simp
    | false => simp [hin, hi]
  · cases hdrops : L.dropsSize with
    | true => simp [hin]
    | false => simp [hin, getLsbD_of_lt_two_pow (hfits hdrops) (not_lt.mp hin)]

/-! ## What a command tells -/

theorem IocKind.dir_lt (L : IocLayout) (kind : IocKind) : (kind.dir L).toNat < 2 ^ L.dirBits := by
  cases kind with
  | io => exact L.none_lt
  | ior => exact L.read_lt
  | iow => exact L.write_lt
  | iowr =>
      show (L.read ||| L.write).toNat < _
      rw [BitVec.toNat_or]
      exact Nat.or_lt_two_pow L.read_lt L.write_lt

/-- A command of a kind; `FIO_IO` has no size. -/
def IocParts.ofKind (L : IocLayout) (kind : IocKind) (size : BitVec 64)
    (htype : type.toNat < 2 ^ 8) (hnr : nr.toNat < 2 ^ 8) : IocParts L where
  dir := kind.dir L
  type := type
  nr := nr
  size := if kind = .io then 0#64 else size
  dir_lt := kind.dir_lt L
  type_lt := htype
  nr_lt := hnr

theorem fioCommand_eq (L : IocLayout) (kind : IocKind) (size : BitVec 64)
    (htype : type.toNat < 2 ^ 8) (hnr : nr.toNat < 2 ^ 8) :
    fioCommand L kind type nr size = (IocParts.ofKind L kind size htype hnr).command := rfl

theorem fioCommand_type_nr (L : IocLayout) (kind : IocKind) (size : BitVec 64)
    (htype : type.toNat < 2 ^ 8) (hnr : nr.toNat < 2 ^ 8) :
    fioIocType (fioCommand L kind type nr size) = type ∧
      fioIocNr (fioCommand L kind type nr size) = nr := by
  rw [fioCommand_eq L kind size htype hnr]
  exact ⟨fioIocType_command _, fioIocNr_command _⟩

/-- A command of a platform that has no place for the size. -/
theorem fioCommand_dropped (L : IocLayout) (kind : IocKind) (size : BitVec 64)
    (htype : type.toNat < 2 ^ 8) (hnr : nr.toNat < 2 ^ 8) (hdrops : L.dropsSize = true) :
    fioIocDir L (fioCommand L kind type nr size) = kind.dir L ∧
      fioIocSize L (fioCommand L kind type nr size) = 0#32 := by
  have hfits : (IocParts.ofKind L kind size htype hnr).Fits :=
    fun hkept ↦ by rw [hdrops] at hkept; cases hkept
  rw [fioCommand_eq L kind size htype hnr]
  refine ⟨fioIocDir_command _ hfits, ?_⟩
  rw [fioIocSize_command _ hfits, if_pos hdrops]

/-- A command without an argument, wherever the size goes. -/
theorem fioCommand_io (L : IocLayout) (size : BitVec 64) (htype : type.toNat < 2 ^ 8)
    (hnr : nr.toNat < 2 ^ 8) :
    fioIocDir L (fioCommand L .io type nr size) = L.none ∧
      fioIocSize L (fioCommand L .io type nr size) = 0#32 := by
  have hfits : (IocParts.ofKind L .io size htype hnr).Fits := fun _ ↦ Nat.two_pow_pos L.sizeBits
  rw [fioCommand_eq L .io size htype hnr]
  refine ⟨fioIocDir_command _ hfits, ?_⟩
  rw [fioIocSize_command _ hfits]
  exact ite_self _

/-- On every platform a command tells its type and its number, and one without an argument that it
has none.  Where the size has a place, it is told if and only if it is small enough for it, and then
so is the direction; where it has none, the size that is told is zero. -/
theorem commands_decode (L : IocLayout) (kind : IocKind) {type nr : BitVec 32} (size : BitVec 64)
    (htype : type.toNat < 2 ^ 8) (hnr : nr.toNat < 2 ^ 8) :
    let c := fioCommand L kind type nr size
    fioIocType c = type ∧ fioIocNr c = nr ∧
      (L.dropsSize = true → fioIocDir L c = kind.dir L ∧ fioIocSize L c = 0#32) ∧
      (kind = .io → fioIocDir L c = L.none ∧ fioIocSize L c = 0#32) ∧
      (L.dropsSize = false → kind ≠ .io →
        ((fioIocSize L c).toNat = size.toNat ↔ size.toNat < 2 ^ L.sizeBits) ∧
        (size.toNat < 2 ^ L.sizeBits → fioIocDir L c = kind.dir L)) := by
  intro c
  obtain ⟨htold, hnrtold⟩ := fioCommand_type_nr L kind size htype hnr
  refine ⟨htold, hnrtold, fioCommand_dropped L kind size htype hnr, ?_, ?_⟩
  · rintro rfl
    exact fioCommand_io L size htype hnr
  intro hkept hkind
  have hc : c = (IocParts.ofKind L kind size htype hnr).command := rfl
  have hpsize : (IocParts.ofKind L kind size htype hnr).size = size := if_neg hkind
  have hwhole := L.whole
  have hpow : 2 ^ L.sizeBits ≤ 2 ^ 16 := Nat.pow_le_pow_right (by decide) (by omega)
  refine ⟨⟨?_, ?_⟩, ?_⟩
  · intro hsize
    rw [← hsize]
    exact read_lt _ _ (by omega)
  · intro hlt
    have hsize := fioIocSize_command _ fun _ ↦ hpsize.symm ▸ hlt
    rw [if_neg (by rw [hkept]; decide), hpsize] at hsize
    rw [hc, hsize, BitVec.toNat_setWidth]
    omega
  · intro hlt
    rw [hc]
    exact fioIocDir_command _ fun _ ↦ hpsize.symm ▸ hlt

theorem commands_decode_tooLarge :
    ((115#32).toNat < 2 ^ 8 ∧ (3#32).toNat < 2 ^ 8) ∧
      (fioIocSize genericIoc (fioCommand genericIoc .iow 115#32 3#32 16384#64)).toNat ≠ 16384 := by
  refine ⟨⟨by decide, by decide⟩, ?_⟩
  obtain ⟨-, -, -, -, hsize⟩ := commands_decode genericIoc .iow 16384#64
    (show (115#32).toNat < 2 ^ 8 by decide) (show (3#32).toNat < 2 ^ 8 by decide)
  intro htold
  exact absurd ((hsize rfl (by decide)).1.mp htold) (by decide)

/-! ## Through the kernel -/

/-- What the handlers make of the answer of the library. -/
def ioctlErrno (result : Int32) : Int32 :=
  if result < 0 then -result else 0

/-- `freebsd_char_ioctl`, where `data` is what its argument points to. -/
def freebsdCharIoctl {Dev : Type} (fusionControlIoctl : Dev → BitVec 32 → UInt64 → Int32)
    (siDrv1 : Option Dev) (cmd : BitVec 64) (data : UInt64) : Int32 :=
  match siDrv1 with
  | none => ENXIO
  | some nandDev => ioctlErrno (fusionControlIoctl nandDev (cmd.setWidth 32) data)

/-- `freebsd_disk_ioctl`, for a disk with its owner, if it has them. -/
def freebsdDiskIoctl {Dev : Type} (fioIoctl : Dev → BitVec 32 → UInt64 → Int32)
    (disk : Option (Option Dev)) (cmd : BitVec 64) (data : UInt64) : Int32 :=
  match disk with
  | some (some fioDev) => ioctlErrno (fioIoctl fioDev (cmd.setWidth 32) data)
  | _ => ENXIO

/-- The kernel gives the handler of a device a command without parameters with the word that the
caller has passed, unchanged. -/
def PassesVoid (sysIoctl : (BitVec 64 → UInt64 → Int32) → BitVec 64 → UInt64 → Int32) : Prop :=
  ∀ handler (com : BitVec 64) arg,
    fioIocDir freebsdIoc (com.setWidth 32) = freebsdIoc.none →
    fioIocSize freebsdIoc (com.setWidth 32) = 0#32 →
    sysIoctl handler com arg = handler com arg

/-- A negative answer is an error, of which the caller sees the positive number. -/
theorem ioctlErrno_neg {e : Int32} (he : 0 < e) : ioctlErrno (-e) = e := by
  have hpos : 0 < e.toInt := Int32.lt_iff_toInt_lt.mp he
  have hlt := e.toInt_lt
  have hneg : (-e).toInt = -e.toInt := by
    rw [Int32.toInt_neg, Int.bmod_eq_of_le] <;> omega
  have hbelow : -e < 0 := by
    apply Int32.lt_iff_toInt_lt.mpr
    rw [hneg]
    show -e.toInt < 0
    omega
  unfold ioctlErrno
  rw [if_pos hbelow, Int32.neg_neg]

/-- Any other answer is success. -/
theorem ioctlErrno_of_nonneg {result : Int32} (hresult : 0 ≤ result) : ioctlErrno result = 0 := by
  unfold ioctlErrno
  rw [if_neg]
  intro hneg
  have hle := Int32.le_iff_toInt_le.mp hresult
  have hlt := Int32.lt_iff_toInt_lt.mp hneg
  omega

/-- Every command of one type and number is the same one on FreeBSD. -/
theorem fioIoc_freebsd (kind : IocKind) (type nr : BitVec 32) (size : BitVec 64) :
    fioIoc freebsdIoc (kind.dir freebsdIoc) type nr size =
      (fioCommand freebsdIoc .io type nr 0#64).setWidth 64 := by
  have hdir : kind.dir freebsdIoc = 1#32 := by cases kind <;> rfl
  rw [hdir]
  unfold fioCommand fioIoc
  simp [freebsdIoc, IocKind.dir]

/-- A user's command reaches the library as it was put together, of whatever kind and with whatever
size: with its type and number, and with the pointer that the user has passed.  The user sees the
error that the library has returned as a positive number, and 0 if it has returned none. -/
theorem ioctl_reaches_library {Dev : Type}
    (sysIoctl : (BitVec 64 → UInt64 → Int32) → BitVec 64 → UInt64 → Int32)
    (hkernel : PassesVoid sysIoctl) (library : Dev → BitVec 32 → UInt64 → Int32) (dev : Dev)
    (kind : IocKind) {type nr : BitVec 32} (size : BitVec 64) (htype : type.toNat < 2 ^ 8)
    (hnr : nr.toNat < 2 ^ 8) (arg : UInt64) :
    let com := fioIoc freebsdIoc (kind.dir freebsdIoc) type nr size
    let c := fioCommand freebsdIoc .io type nr 0#64
    sysIoctl (freebsdCharIoctl library (some dev)) com arg = ioctlErrno (library dev c arg) ∧
      sysIoctl (freebsdDiskIoctl library (some (some dev))) com arg =
        ioctlErrno (library dev c arg) ∧
      fioIocType c = type ∧ fioIocNr c = nr ∧
      (∀ e : Int32, 0 < e → library dev c arg = -e →
        sysIoctl (freebsdCharIoctl library (some dev)) com arg = e ∧
          sysIoctl (freebsdDiskIoctl library (some (some dev))) com arg = e) ∧
      (0 ≤ library dev c arg →
        sysIoctl (freebsdCharIoctl library (some dev)) com arg = 0 ∧
          sysIoctl (freebsdDiskIoctl library (some (some dev))) com arg = 0) := by
  intro com c
  have hcom : com = c.setWidth 64 := fioIoc_freebsd kind type nr size
  have hback : (c.setWidth 64).setWidth 32 = c := by simp
  obtain ⟨htold, hnrtold⟩ := fioCommand_type_nr freebsdIoc .io 0#64 htype hnr
  obtain ⟨hdir, hsize⟩ := fioCommand_dropped freebsdIoc .io 0#64 htype hnr rfl
  have hpass : ∀ handler, sysIoctl handler com arg = handler com arg := by
    intro handler
    apply hkernel
    · rw [hcom, hback]
      exact hdir
    · rw [hcom, hback]
      exact hsize
  have hchar : sysIoctl (freebsdCharIoctl library (some dev)) com arg =
      ioctlErrno (library dev c arg) := by
    rw [hpass]
    show ioctlErrno (library dev (com.setWidth 32) arg) = _
    rw [hcom, hback]
  have hdisk : sysIoctl (freebsdDiskIoctl library (some (some dev))) com arg =
      ioctlErrno (library dev c arg) := by
    rw [hpass]
    show ioctlErrno (library dev (com.setWidth 32) arg) = _
    rw [hcom, hback]
  refine ⟨hchar, hdisk, htold, hnrtold, ?_, ?_⟩
  · intro e he hanswer
    rw [hchar, hdisk, hanswer]
    exact ⟨ioctlErrno_neg he, ioctlErrno_neg he⟩
  · intro hanswer
    rw [hchar, hdisk]
    exact ⟨ioctlErrno_of_nonneg hanswer, ioctlErrno_of_nonneg hanswer⟩

/-- A kernel that refuses every other command. -/
def voidOnly (handler : BitVec 64 → UInt64 → Int32) (com : BitVec 64) (arg : UInt64) : Int32 :=
  if fioIocDir freebsdIoc (com.setWidth 32) = freebsdIoc.none ∧
      fioIocSize freebsdIoc (com.setWidth 32) = 0#32 then handler com arg
  else 25

theorem voidOnly_passesVoid : PassesVoid voidOnly := by
  intro handler com arg hdir hsize
  unfold voidOnly
  rw [if_pos ⟨hdir, hsize⟩]

theorem ioctl_reaches_library_readWrite :
    ((115#32).toNat < 2 ^ 8 ∧ (3#32).toNat < 2 ^ 8 ∧ PassesVoid voidOnly) ∧
      voidOnly (freebsdCharIoctl (fun _ _ _ ↦ -5) (some ()))
        (fioIoc freebsdIoc (IocKind.iowr.dir freebsdIoc) 115#32 3#32 40#64) 4096 = 5 ∧
      voidOnly (freebsdDiskIoctl (fun _ _ _ ↦ -5) (some (some ())))
        (fioIoc freebsdIoc (IocKind.iowr.dir freebsdIoc) 115#32 3#32 40#64) 4096 = 5 := by
  refine ⟨⟨by decide, by decide, voidOnly_passesVoid⟩, ?_⟩
  obtain ⟨-, -, -, -, herror, -⟩ := ioctl_reaches_library voidOnly voidOnly_passesVoid
    (fun (_ : Unit) _ _ ↦ -5) () .iowr 40#64 (show (115#32).toNat < 2 ^ 8 by decide)
    (show (3#32).toNat < 2 ^ 8 by decide) 4096
  exact herror 5 (by decide) rfl

end IomemoryVsl.Port
