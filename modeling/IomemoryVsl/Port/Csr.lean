import IomemoryVsl.Lib.ByteOrder
import IomemoryVsl.Port.Byteswap

/-!
# Registers and unaligned words (`kcsr.c`, `port/unaligned.h`)

The registers of the card are little-endian words.  A host of either order accesses them through
the words of its own, and swaps what it reads and writes.
-/

namespace IomemoryVsl.Port

open ByteMemory BlockSwap

section Order

variable (o : FusionByteOrder)

/-- A load of a word of `w` bits by the host. -/
def hostLoad (w : ℕ) (m : Bytes) (addr : ℕ) : BitVec w :=
  match o with
  | .littleEndian => BitVec.ofNat w (loadLE m addr (w / 8))
  | .bigEndian => BitVec.ofNat w (loadBE m addr (w / 8))

/-- A store by the host. -/
def hostStore {w : ℕ} (m : Bytes) (addr : ℕ) (v : BitVec w) : Bytes :=
  match o with
  | .littleEndian => storeLE m addr (w / 8) v.toNat
  | .bigEndian => storeBE m addr (w / 8) v.toNat

/-! ## Registers -/

/-- What the functions that read a register of this width do. -/
def csrRead (ww : WordWidth) (m : Bytes) (addr : ℕ) : BitVec ww.bits :=
  fusionCardToHost o (hostLoad o ww.bits m addr)

/-- What those that write one do; a barrier changes no memory. -/
def csrWrite (ww : WordWidth) (m : Bytes) (addr : ℕ) (val : BitVec ww.bits) : Bytes :=
  hostStore o m addr (hostToFusionCard o val)

def kfioCsrReadDirect (m : Bytes) (addr : ℕ) : BitVec 32 :=
  csrRead o .w32 m addr

def kfioCsrReadDirect64 (m : Bytes) (addr : ℕ) : BitVec 64 :=
  csrRead o .w64 m addr

def kfioCsrWriteNobarrier (m : Bytes) (val : BitVec 32) (addr : ℕ) : Bytes :=
  csrWrite o .w32 m addr val

def kfioCsrWrite (m : Bytes) (val : BitVec 32) (addr : ℕ) : Bytes :=
  kfioCsrWriteNobarrier o m val addr

def kfioCsrWrite64 (m : Bytes) (val : BitVec 64) (addr : ℕ) : Bytes :=
  csrWrite o .w64 m addr val

/-! ## Unaligned words -/

def getUnaligned16 (m : Bytes) (ptr : ℕ) : BitVec 16 := hostLoad o 16 m ptr
def getUnaligned32 (m : Bytes) (ptr : ℕ) : BitVec 32 := hostLoad o 32 m ptr
def getUnaligned64 (m : Bytes) (ptr : ℕ) : BitVec 64 := hostLoad o 64 m ptr

def putUnaligned16 (m : Bytes) (ptr : ℕ) (v : BitVec 16) : Bytes := hostStore o m ptr v
def putUnaligned32 (m : Bytes) (ptr : ℕ) (v : BitVec 32) : Bytes := hostStore o m ptr v
def putUnaligned64 (m : Bytes) (ptr : ℕ) (v : BitVec 64) : Bytes := hostStore o m ptr v

/-- `sizeof(*(ptr))`; another one does not link. -/
inductive UnalignedSize where
  | one
  | two
  | four
  | eight
deriving DecidableEq, Repr

def UnalignedSize.bytes : UnalignedSize → ℕ
  | .one => 1
  | .two => 2
  | .four => 4
  | .eight => 8

def getUnaligned (size : UnalignedSize) (m : Bytes) (ptr : ℕ) : BitVec (8 * size.bytes) :=
  match size with
  | .one => hostLoad o 8 m ptr
  | .two => getUnaligned16 o m ptr
  | .four => getUnaligned32 o m ptr
  | .eight => getUnaligned64 o m ptr

def putUnaligned (size : UnalignedSize) (m : Bytes) (ptr : ℕ) (v : BitVec (8 * size.bytes)) :
    Bytes :=
  match size, v with
  | .one, v => hostStore o m ptr v
  | .two, v => putUnaligned16 o m ptr v
  | .four, v => putUnaligned32 o m ptr v
  | .eight, v => putUnaligned64 o m ptr v

end Order

variable {m : Bytes} {addr : ℕ}

/-! ## The host's own words -/

theorem hostLoad_hostStore (o : FusionByteOrder) {w n : ℕ} (hw : w = 8 * n) (m : Bytes) (addr : ℕ)
    (v : BitVec w) : hostLoad o w (hostStore o m addr v) addr = v := by
  have hdiv : w / 8 = n := by omega
  have hpow : 256 ^ n = 2 ^ w := by rw [hw, Nat.pow_mul]
  cases o with
  | littleEndian =>
      show BitVec.ofNat w (loadLE (storeLE m addr (w / 8) v.toNat) addr (w / 8)) = v
      rw [loadLE_storeLE, hdiv, hpow, Nat.mod_eq_of_lt v.isLt, BitVec.ofNat_toNat,
        BitVec.setWidth_eq]
  | bigEndian =>
      show BitVec.ofNat w (loadBE (storeBE m addr (w / 8) v.toNat) addr (w / 8)) = v
      rw [loadBE_storeBE, hdiv, hpow, Nat.mod_eq_of_lt v.isLt, BitVec.ofNat_toNat,
        BitVec.setWidth_eq]

theorem hostStore_outside (o : FusionByteOrder) {w n : ℕ} (hw : w = 8 * n) (m : Bytes)
    (v : BitVec w) {addr x : ℕ} (hx : x < addr ∨ addr + n ≤ x) : hostStore o m addr v x = m x := by
  have hdiv : w / 8 = n := by omega
  cases o with
  | littleEndian =>
      show storeLE m addr (w / 8) v.toNat x = m x
      rw [hdiv]
      exact storeLE_outside m _ hx
  | bigEndian =>
      show storeBE m addr (w / 8) v.toNat x = m x
      rw [hdiv]
      exact overwrite_outside m _ hx

theorem getUnaligned_eq (o : FusionByteOrder) (size : UnalignedSize) (m : Bytes) (ptr : ℕ) :
    getUnaligned o size m ptr = hostLoad o (8 * size.bytes) m ptr := by
  cases size <;> rfl

theorem putUnaligned_eq (o : FusionByteOrder) (size : UnalignedSize) (m : Bytes) (ptr : ℕ)
    (v : BitVec (8 * size.bytes)) : putUnaligned o size m ptr v = hostStore o m ptr v := by
  cases size <;> rfl

/-- What is put anywhere is got from there, and nothing else is touched. -/
theorem getUnaligned_putUnaligned (o : FusionByteOrder) (size : UnalignedSize) (m : Bytes) (ptr : ℕ)
    (v : BitVec (8 * size.bytes)) :
    getUnaligned o size (putUnaligned o size m ptr v) ptr = v ∧
      ∀ x, x < ptr ∨ ptr + size.bytes ≤ x → putUnaligned o size m ptr v x = m x := by
  rw [getUnaligned_eq, putUnaligned_eq]
  exact ⟨hostLoad_hostStore o rfl m ptr v, fun x hx ↦ hostStore_outside o rfl m v hx⟩

/-! ## The order of the card -/

/-- A register holds its lowest byte first, whatever the host. -/
theorem csrRead_eq (o : FusionByteOrder) (ww : WordWidth) (m : Bytes) (addr : ℕ) :
    csrRead o ww m addr = BitVec.ofNat ww.bits (loadLE m addr (ww.bits / 8)) := by
  cases o with
  | littleEndian => cases ww <;> rfl
  | bigEndian =>
      cases ww with
      | w16 => exact loadLE_of_reversed (n := 2) rfl (fusionBswap16_bytes _) rfl
      | w32 => exact loadLE_of_reversed (n := 4) rfl (fusionBswap32_bytes _) rfl
      | w64 => exact loadLE_of_reversed (n := 8) rfl (fusionBswap64_bytes _) rfl

theorem csrWrite_eq (o : FusionByteOrder) (ww : WordWidth) (m : Bytes) (addr : ℕ)
    (val : BitVec ww.bits) :
    csrWrite o ww m addr val = storeLE m addr (ww.bits / 8) val.toNat := by
  cases o with
  | littleEndian => cases ww <;> rfl
  | bigEndian =>
      cases ww with
      | w16 => exact storeBE_of_reversed (n := 2) (fusionBswap16_bytes _) m addr
      | w32 => exact storeBE_of_reversed (n := 4) (fusionBswap32_bytes _) m addr
      | w64 => exact storeBE_of_reversed (n := 8) (fusionBswap64_bytes _) m addr

/-- A register of 64 bits is written as the two of 32 bits that are its halves. -/
theorem kfioCsrWrite64_halves (o : FusionByteOrder) (m : Bytes) (val : BitVec 64) (addr : ℕ) :
    kfioCsrWrite64 o m val addr =
      kfioCsrWrite o (kfioCsrWrite o m (val.setWidth 32) addr) ((val >>> 32).setWidth 32)
        (addr + 4) := by
  have hwhole : kfioCsrWrite64 o m val addr = storeLE m addr (4 + 4) val.toNat :=
    csrWrite_eq o .w64 m addr val
  have hhalf : ∀ m (v : BitVec 32) a, kfioCsrWrite o m v a = storeLE m a 4 v.toNat :=
    fun m v a ↦ csrWrite_eq o .w32 m a v
  have hlow : (val.setWidth 32).toNat = val.toNat % 256 ^ 4 := BitVec.toNat_setWidth ..
  have hhigh : ((val >>> 32).setWidth 32).toNat = val.toNat / 256 ^ 4 := by
    have hlt := val.isLt
    rw [BitVec.toNat_setWidth, BitVec.toNat_ushiftRight, Nat.shiftRight_eq_div_pow]
    omega
  rw [hwhole, storeLE_add, hhalf, hhalf, hlow, hhigh, storeLE_mod]

theorem kfioCsrReadDirect64_halves (o : FusionByteOrder) (m : Bytes) (addr : ℕ) :
    kfioCsrReadDirect64 o m addr =
      kfioCsrReadDirect o m (addr + 4) ++ kfioCsrReadDirect o m addr := by
  have hwhole : kfioCsrReadDirect64 o m addr = BitVec.ofNat 64 (loadLE m addr (4 + 4)) :=
    csrRead_eq o .w64 m addr
  have hhalf : ∀ a, kfioCsrReadDirect o m a = BitVec.ofNat 32 (loadLE m a 4) :=
    fun a ↦ csrRead_eq o .w32 m a
  have hlow := loadLE_lt m addr 4
  have hhigh := loadLE_lt m (addr + 4) 4
  rw [hwhole, hhalf, hhalf, loadLE_add]
  apply BitVec.eq_of_toNat_eq
  rw [BitVec.toNat_append, BitVec.toNat_ofNat, BitVec.toNat_ofNat, BitVec.toNat_ofNat,
    Nat.mod_eq_of_lt (by omega), Nat.mod_eq_of_lt (by omega), Nat.mod_eq_of_lt (by omega),
    ← Nat.shiftLeft_add_eq_or_of_lt (by omega), Nat.shiftLeft_eq]
  omega

/-- The registers are the same on hosts of either order.  A register that has been written reads as
what was written, one elsewhere reads as before, and a register of 64 bits is the two of 32 bits at
its address and four bytes on. -/
theorem csr_accesses_agree (o o' : FusionByteOrder) (m : Bytes) (addr : ℕ) (val : BitVec 32)
    (val64 : BitVec 64) :
    (kfioCsrReadDirect o m addr = kfioCsrReadDirect o' m addr ∧
        kfioCsrWrite o m val addr = kfioCsrWrite o' m val addr) ∧
      kfioCsrReadDirect o (kfioCsrWrite o m val addr) addr = val ∧
      kfioCsrReadDirect64 o (kfioCsrWrite64 o m val64 addr) addr = val64 ∧
      (∀ b, addr + 4 ≤ b ∨ b + 4 ≤ addr →
        kfioCsrReadDirect o (kfioCsrWrite o m val addr) b = kfioCsrReadDirect o m b) ∧
      kfioCsrWrite64 o m val64 addr =
        kfioCsrWrite o (kfioCsrWrite o m (val64.setWidth 32) addr) ((val64 >>> 32).setWidth 32)
          (addr + 4) ∧
      kfioCsrReadDirect64 o m addr =
        kfioCsrReadDirect o m (addr + 4) ++ kfioCsrReadDirect o m addr := by
  have hread : ∀ o m a, kfioCsrReadDirect o m a = BitVec.ofNat 32 (loadLE m a 4) :=
    fun o m a ↦ csrRead_eq o .w32 m a
  have hread64 : ∀ m a, kfioCsrReadDirect64 o m a = BitVec.ofNat 64 (loadLE m a 8) :=
    fun m a ↦ csrRead_eq o .w64 m a
  have hwrite : ∀ o, kfioCsrWrite o m val addr = storeLE m addr 4 val.toNat :=
    fun o ↦ csrWrite_eq o .w32 m addr val
  have hwrite64 : kfioCsrWrite64 o m val64 addr = storeLE m addr 8 val64.toNat :=
    csrWrite_eq o .w64 m addr val64
  refine ⟨⟨by rw [hread o, hread o'], by rw [hwrite o, hwrite o']⟩, ?_, ?_, ?_,
    kfioCsrWrite64_halves o m val64 addr, kfioCsrReadDirect64_halves o m addr⟩
  · have hlt : val.toNat < 256 ^ 4 := val.isLt
    rw [hread, hwrite, loadLE_storeLE, Nat.mod_eq_of_lt hlt,
      BitVec.ofNat_toNat, BitVec.setWidth_eq]
  · have hlt : val64.toNat < 256 ^ 8 := val64.isLt
    rw [hread64, hwrite64, loadLE_storeLE, Nat.mod_eq_of_lt hlt,
      BitVec.ofNat_toNat, BitVec.setWidth_eq]
  · intro b hb
    rw [hread, hread, hwrite, loadLE_storeLE_of_disjoint (by omega)]

end IomemoryVsl.Port
