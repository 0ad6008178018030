import IomemoryVsl.Kfio.Strings
import IomemoryVsl.Lib.Numeral
import Mathlib.Tactic.SplitIfs

/-!
# The names of devices (`main.c`, `kblock.c`)

`freebsd_attach` names a device by its place on the bus, and `kfio_block_get_device_name` names a
disk by its unit.  Both print into a buffer with room for so many bytes.
-/

namespace IomemoryVsl.Kfio

open ByteMemory Numeral

/-! ## Printing -/

def hex2ascii (d : ℕ) : UInt8 :=
  if d < 10 then 48 + UInt8.ofNat d else 87 + UInt8.ofNat d

/-- `%x` with a width, filled up with zeros. -/
def formatHex (w n : ℕ) : List UInt8 :=
  (padded 16 w n).map hex2ascii

/-- `%d` -/
def formatInt (i : Int32) : List UInt8 :=
  let digits := (padded 10 1 i.toInt.natAbs).map hex2ascii
  if i.toInt < 0 then 45 :: digits else digits

/-- What fits into `size` bytes, with a NUL behind it. -/
def vsnprintfText (size : ℕ) (text : List UInt8) : List UInt8 :=
  text.take (size - 1)

/-- `kfio_vsnprintf` of a text, into the `n` bytes at `buffer`. -/
def kfioVsnprintf (m : Bytes) (buffer n : ℕ) (text : List UInt8) : Bytes :=
  if n = 0 then m else storeString m buffer (vsnprintfText n text)

/-- The value of a digit that `hex2ascii` has printed. -/
def asciiValue (c : UInt8) : ℕ :=
  if c < 58 then c.toNat - 48 else c.toNat - 87

theorem asciiValue_hex2ascii : ∀ d < 16, asciiValue (hex2ascii d) = d := by
  decide

theorem hex2ascii_ne : ∀ d < 16, hex2ascii d ≠ 0 ∧ hex2ascii d ≠ 58 ∧ hex2ascii d ≠ 46 := by
  decide

theorem isDecimal_hex2ascii : ∀ d < 10, isDecimal (hex2ascii d) ∧ (hex2ascii d).toNat - 48 = d := by
  decide

variable {w k m n : ℕ}

@[simp]
theorem length_formatHex : (formatHex w n).length = (padded 16 w n).length := by
  unfold formatHex
  rw [List.length_map]

theorem formatHex_inj : formatHex w m = formatHex w n ↔ m = n := by
  have hvalue : ∀ n, (formatHex w n).map asciiValue = padded 16 w n := by
    intro n
    unfold formatHex
    rw [List.map_map, List.map_congr_left, List.map_id]
    intro d hd
    exact asciiValue_hex2ascii d (lt_of_mem_padded (by decide) hd)
  constructor
  · intro h
    rw [← @padded_inj 16 w, ← hvalue, h, hvalue]
  · rintro rfl
    rfl

theorem take_formatHex (hk : k ≤ (formatHex w n).length) :
    (formatHex w n).take k = formatHex k (n / 16 ^ ((formatHex w n).length - k)) := by
  rw [length_formatHex] at hk ⊢
  unfold formatHex
  rw [← List.map_take, take_padded (by decide) hk]

theorem not_mem_formatHex : (0 : UInt8) ∉ formatHex w n ∧ (58 : UInt8) ∉ formatHex w n ∧
    (46 : UInt8) ∉ formatHex w n := by
  have hne : ∀ c ∈ formatHex w n, c ≠ 0 ∧ c ≠ 58 ∧ c ≠ 46 := by
    intro c hc
    obtain ⟨d, hd, rfl⟩ := List.mem_map.mp hc
    exact hex2ascii_ne d (lt_of_mem_padded (by decide) hd)
  exact ⟨fun h ↦ (hne _ h).1 rfl, fun h ↦ (hne _ h).2.1 rfl, fun h ↦ (hne _ h).2.2 rfl⟩

/-! ## The name of a PCI device -/

/-- What `pci_get_domain`, `pci_get_bus`, `pci_get_slot` and `pci_get_function` answer. -/
structure PciAddress where
  domain : UInt32
  bus : UInt8
  slot : UInt8
  function : UInt8
deriving DecidableEq, Repr

/-- `KFIO_PCI_NAME_LEN` -/
def kfioPciNameLen : ℕ := 13

/-- `"%04x:%02x:%02x.%x"` -/
def pciNameText (p : PciAddress) : List UInt8 :=
  formatHex 4 p.domain.toNat ++ 58 :: (formatHex 2 p.bus.toNat ++ 58 ::
    (formatHex 2 p.slot.toNat ++ 46 :: formatHex 1 p.function.toNat))

/-- `pci_name`, as `freebsd_attach` fills it in and `kfio_pci_name` returns it. -/
def pciName (p : PciAddress) : List UInt8 :=
  vsnprintfText (kfioPciNameLen + 1) (pciNameText p)

/-- The slot, as far as it is in the name. -/
def shownSlot (p : PciAddress) : ℕ :=
  if p.domain.toNat < 2 ^ 28 then p.slot.toNat else p.slot.toNat / 16

/-- The function, as far as it is in the name: not at all behind a long domain. -/
def shownFunction (p : PciAddress) : ℕ :=
  if p.domain.toNat < 2 ^ 16 then p.function.toNat
  else if p.domain.toNat < 2 ^ 20 then
    if p.function.toNat < 16 then p.function.toNat else p.function.toNat / 16
  else 0

variable {p q : PciAddress}

theorem length_byte (c : UInt8) : (formatHex 2 c.toNat).length = 2 := by
  rw [length_formatHex]
  exact length_padded_of_lt (by decide) c.toNat_lt

/-- The digits of a domain beyond the fourth. -/
theorem length_domain (hw : 4 ≤ k) (d : UInt32) :
    (formatHex 4 d.toNat).length ≤ k ↔ d.toNat < 16 ^ k := by
  rw [length_formatHex, length_padded, max_le_iff, Nat.digits_length_le_iff (by decide)]
  exact and_iff_right hw

theorem length_domain_le (d : UInt32) : (formatHex 4 d.toNat).length ≤ 8 :=
  (length_domain (by decide) d).mpr d.toNat_lt

theorem pciName_fields : pciName p = pciName q ↔ p.domain = q.domain ∧ p.bus = q.bus ∧
    (formatHex 2 p.slot.toNat ++ 46 :: formatHex 1 p.function.toNat).take
        (9 - (formatHex 4 p.domain.toNat).length) =
      (formatHex 2 q.slot.toNat ++ 46 :: formatHex 1 q.function.toNat).take
        (9 - (formatHex 4 p.domain.toNat).length) := by
  have hp := length_domain_le p.domain
  have hq := length_domain_le q.domain
  show (pciNameText p).take 13 = (pciNameText q).take 13 ↔ _
  unfold pciNameText
  rw [take_field_eq_iff not_mem_formatHex.2.1 not_mem_formatHex.2.1 (by omega) (by omega),
    take_field_eq_iff not_mem_formatHex.2.1 not_mem_formatHex.2.1 (by rw [length_byte]; omega)
      (by rw [length_byte]; omega),
    formatHex_inj, formatHex_inj, UInt32.toNat_inj, UInt8.toNat_inj, length_byte,
    show 13 - (formatHex 4 p.domain.toNat).length - 1 - 2 - 1 =
      9 - (formatHex 4 p.domain.toNat).length by omega]

/-- Every four bits of the domain beyond sixteen are a digit more. -/
theorem length_domain_cases (d : UInt32) :
    d.toNat < 2 ^ 16 ∧ (formatHex 4 d.toNat).length = 4 ∨
    ¬ d.toNat < 2 ^ 16 ∧ d.toNat < 2 ^ 20 ∧ (formatHex 4 d.toNat).length = 5 ∨
    ¬ d.toNat < 2 ^ 20 ∧ d.toNat < 2 ^ 28 ∧ (formatHex 4 d.toNat).length ∈ [6, 7] ∨
    ¬ d.toNat < 2 ^ 28 ∧ (formatHex 4 d.toNat).length = 8 := by
  have hlow : 4 ≤ (formatHex 4 d.toNat).length := by
    rw [length_formatHex, length_padded]
    exact le_max_left 4 _
  have hhigh := length_domain_le d
  have h4 := length_domain (k := 4) (by decide) d
  have h5 := length_domain (k := 5) (by decide) d
  have h7 := length_domain (k := 7) (by decide) d
  simp only [List.mem_cons, List.not_mem_nil, or_false]
  omega

/-- The slot and what of the function is left. -/
theorem take_slot_function (hk : 2 < k) (slot slot' function function' : UInt8) :
    (formatHex 2 slot.toNat ++ 46 :: formatHex 1 function.toNat).take k =
        (formatHex 2 slot'.toNat ++ 46 :: formatHex 1 function'.toNat).take k ↔
      slot.toNat = slot'.toNat ∧ (formatHex 1 function.toNat).take (k - 3) =
        (formatHex 1 function'.toNat).take (k - 3) := by
  rw [take_field_eq_iff not_mem_formatHex.2.2 not_mem_formatHex.2.2 (by rwa [length_byte])
    (by rwa [length_byte]), formatHex_inj, length_byte, Nat.sub_sub]

/-- When not even the dot is left. -/
theorem take_slot (hk : k ≤ 2) (slot slot' : UInt8) (s s' : List UInt8) :
    (formatHex 2 slot.toNat ++ s).take k = (formatHex 2 slot'.toNat ++ s').take k ↔
      slot.toNat / 16 ^ (2 - k) = slot'.toNat / 16 ^ (2 - k) := by
  have htake : ∀ (c : UInt8) (s : List UInt8), (formatHex 2 c.toNat ++ s).take k =
      formatHex k (c.toNat / 16 ^ (2 - k)) := by
    intro c s
    rw [List.take_append_of_le_length (by rwa [length_byte]),
      take_formatHex (by rwa [length_byte]), length_byte]
  rw [htake, htake, formatHex_inj]

/-- The function has one digit or two. -/
theorem length_function (c : UInt8) : (formatHex 1 c.toNat).length = if c.toNat < 16 then 1
    else 2 := by
  have hbyte : c.toNat < 16 ^ 2 := c.toNat_lt
  have hone := Nat.digits_length_le_iff (b := 16) (k := 1) (by decide) c.toNat
  have htwo := (Nat.digits_length_le_iff (b := 16) (by decide) c.toNat).mpr hbyte
  rw [length_formatHex, length_padded]
  rw [pow_one] at hone
  split_ifs <;> omega

theorem take_function_one (c : UInt8) : (formatHex 1 c.toNat).take 1 =
    formatHex 1 (if c.toNat < 16 then c.toNat else c.toNat / 16) := by
  have hlen := length_function c
  rw [take_formatHex (by rw [hlen]; split_ifs <;> decide), hlen]
  split_ifs
  · rw [Nat.sub_self, pow_zero, Nat.div_one]
  · rw [show 2 - 1 = 1 by rfl, pow_one]

/-- Two devices have the same name if they have the same domain and bus, and the same slot and
function as far as these are in the name. -/
theorem pciName_eq_iff (p q : PciAddress) : pciName p = pciName q ↔
    p.domain = q.domain ∧ p.bus = q.bus ∧ shownSlot p = shownSlot q ∧
      shownFunction p = shownFunction q := by
  rw [pciName_fields]
  refine and_congr_right fun hdomain ↦ and_congr_right fun _ ↦ ?_
  unfold shownSlot shownFunction
  rw [← hdomain]
  rcases length_domain_cases p.domain with ⟨h16, hlen⟩ | ⟨h16, h20, hlen⟩ | ⟨h20, h28, hlen⟩ |
    ⟨h28, hlen⟩
  -- all of it
  · have hfull : ∀ c : UInt8, (formatHex 1 c.toNat).take 2 = formatHex 1 c.toNat := by
      intro c
      apply List.take_of_length_le
      rw [length_function]
      split_ifs <;> decide
    have h28 : p.domain.toNat < 2 ^ 28 := by omega
    simp only [if_pos h16, if_pos h28]
    rw [hlen, take_slot_function (by decide), hfull, hfull, formatHex_inj]
  -- one digit of the function
  · have h28 : p.domain.toNat < 2 ^ 28 := by omega
    simp only [if_neg h16, if_pos h20, if_pos h28]
    rw [hlen, take_slot_function (by decide), take_function_one, take_function_one, formatHex_inj]
  -- the slot, and the dot or not even that
  · have h16 : ¬ p.domain.toNat < 2 ^ 16 := by omega
    simp only [if_neg h16, if_neg h20, if_pos h28, and_true]
    rcases List.mem_cons.mp hlen with hsix | hseven
    · rw [hsix, take_slot_function (by decide)]
      exact and_iff_left rfl
    · rw [List.mem_singleton.mp hseven, take_slot (by decide), Nat.sub_self, pow_zero, Nat.div_one,
        Nat.div_one]
  -- one digit of the slot
  · have h20 : ¬ p.domain.toNat < 2 ^ 20 := by omega
    have h16 : ¬ p.domain.toNat < 2 ^ 16 := by omega
    simp only [if_neg h16, if_neg h20, if_neg h28, and_true]
    rw [hlen, take_slot (by decide)]
    rfl

/-- `"0000:1f:03.0"` -/
example : pciName ⟨0, 0x1f, 3, 0⟩ = [48, 48, 48, 48, 58, 49, 102, 58, 48, 51, 46, 48] := by
  decide

/-! ## The name of a disk -/

/-- `kfio_block_get_device_name`, for a disk with this `d_name` and `d_unit`: `"%s%d"`. -/
def kfioBlockGetDeviceName (m : Bytes) (name size : ℕ) (dName : List UInt8) (dUnit : UInt32) :
    Bytes :=
  kfioVsnprintf m name size (dName ++ formatInt dUnit.toInt32)

/-- The first decimal digits of a number are digits, and denote a quotient of it. -/
theorem decimal_printed (w n k : ℕ) :
    digitsOf (((padded 10 w n).take k).map hex2ascii) = ((padded 10 w n).take k).map hex2ascii ∧
      decimal (((padded 10 w n).take k).map hex2ascii) =
        n / 10 ^ ((padded 10 w n).length - k) := by
  have hdigit : ∀ d ∈ (padded 10 w n).take k,
      isDecimal (hex2ascii d) ∧ (hex2ascii d).toNat - 48 = d :=
    fun d hd ↦ isDecimal_hex2ascii d (lt_of_mem_padded (by decide) (List.mem_of_mem_take hd))
  constructor
  · apply List.takeWhile_eq_self_iff.mpr
    intro c hc
    obtain ⟨d, hd, rfl⟩ := List.mem_map.mp hc
    exact (hdigit d hd).1
  · unfold decimal
    rw [← List.map_reverse, List.map_map, List.map_congr_left, List.map_id,
      ofDigits_take_padded (by decide)]
    intro d hd
    exact (hdigit d (List.mem_reverse.mp hd)).2

theorem formatInt_ne_zero (i : Int32) : ∀ c ∈ formatInt i, c ≠ 0 := by
  have hdigits : ∀ c ∈ (padded 10 1 i.toInt.natAbs).map hex2ascii, c ≠ 0 := by
    intro c hc
    obtain ⟨d, hd, rfl⟩ := List.mem_map.mp hc
    have hlt : d < 10 := lt_of_mem_padded (by decide) hd
    exact (hex2ascii_ne d (by omega)).1
  unfold formatInt
  dsimp only
  split_ifs
  · exact List.forall_mem_cons.mpr ⟨by decide, hdigits⟩
  · exact hdigits

theorem length_formatInt_le (i : Int32) : (formatInt i).length ≤ 11 := by
  have hlow := i.le_toInt
  have hhigh := i.toInt_lt
  have hlen := (Nat.digits_length_le_iff (b := 10) (k := 10) (by decide) i.toInt.natAbs).mpr
    (by omega)
  unfold formatInt
  dsimp only
  split_ifs
  · rw [List.length_cons, List.length_map, length_padded]
    omega
  · rw [List.length_map, length_padded]
    omega

/-- What `kfio_stoi` makes of the first bytes of a printed number: a quotient of it, and nothing of
a negative one. -/
theorem kfioStoi_formatInt {m : Bytes} {p : ℕ} (sign : CharSign) (i : Int32) (k : ℕ)
    (hs : IsString m p ((formatInt i).take k)) : ∃ n nchar reads,
      (∀ fuel > 11, kfioStoi sign fuel m p = some (n, nchar, reads)) ∧
      n.toInt = if i.toInt < 0 then 0 else i.toInt / 10 ^ ((formatInt i).length - k) := by
  have hfuel : ∀ fuel > 11, ((formatInt i).take k).length < fuel := by
    intro fuel hfuel
    have hlen := length_formatInt_le i
    rw [List.length_take]
    omega
  refine ⟨_, _, _, fun fuel hgt ↦ kfioStoi_eq sign hs (hfuel fuel hgt), ?_⟩
  by_cases hneg : i.toInt < 0
  -- the sign is not a digit
  · have hnone : digitsOf ((formatInt i).take k) = [] := by
      unfold formatInt
      dsimp only
      rw [if_pos hneg]
      cases k with
      | zero => rfl
      | succ k => exact List.takeWhile_cons_of_neg (by decide)
    rw [hnone, if_pos hneg]
    rfl
  · have hformat : formatInt i = (padded 10 1 i.toInt.natAbs).map hex2ascii := by
      unfold formatInt
      dsimp only
      rw [if_neg hneg]
    obtain ⟨hdigits, hvalue⟩ := decimal_printed 1 i.toInt.natAbs k
    have hhigh := i.toInt_lt
    have hquotient :=
      Nat.div_le_self i.toInt.natAbs (10 ^ ((padded 10 1 i.toInt.natAbs).length - k))
    rw [hformat, ← List.map_take, hdigits, hvalue, if_neg hneg, List.length_map,
      Int32.toInt_ofNat_of_lt (by omega), Int.natCast_ediv, Int.natAbs_of_nonneg (by omega)]
    norm_cast

/-- The name of a disk is written into its buffer and nowhere else, as far as it fits, and
`kfio_stoi` reads the unit back from behind the name of the driver, less the digits that did not
fit. -/
theorem kfioBlockGetDeviceName_stoi (sign : CharSign) (m : Bytes) (name size : ℕ)
    {dName : List UInt8} (hname : ∀ c ∈ dName, c ≠ 0) (dUnit : UInt32) :
    (∀ x, x < name ∨ name + size ≤ x →
      kfioBlockGetDeviceName m name size dName dUnit x = m x) ∧
    (0 < size → IsString (kfioBlockGetDeviceName m name size dName dUnit) name
      ((dName ++ formatInt dUnit.toInt32).take (size - 1))) ∧
    (dName.length < size → ∃ n nchar reads, (∀ fuel > 11,
      kfioStoi sign fuel (kfioBlockGetDeviceName m name size dName dUnit) (name + dName.length) =
        some (n, nchar, reads)) ∧
      n.toInt = if dUnit.toInt32.toInt < 0 then 0 else dUnit.toInt32.toInt /
        10 ^ (dName.length + (formatInt dUnit.toInt32).length + 1 - size)) := by
  have hstored : 0 < size → IsString (kfioBlockGetDeviceName m name size dName dUnit) name
      ((dName ++ formatInt dUnit.toInt32).take (size - 1)) := by
    intro hsize
    unfold kfioBlockGetDeviceName kfioVsnprintf
    rw [if_neg (Nat.ne_of_gt hsize)]
    apply isString_storeString
    intro c hc
    rcases List.mem_append.mp (List.mem_of_mem_take hc) with hd | hunit
    · exact hname c hd
    · exact formatInt_ne_zero _ c hunit
  refine ⟨?_, hstored, ?_⟩
  · intro x hx
    unfold kfioBlockGetDeviceName kfioVsnprintf
    by_cases hsize : size = 0
    · rw [if_pos hsize]
    · rw [if_neg hsize]
      apply storeString_outside
      unfold vsnprintfText
      rw [List.length_take]
      omega
  · intro hroom
    have hs := hstored (by omega)
    rw [List.take_append, List.take_of_length_le (by omega)] at hs
    obtain ⟨n, nchar, reads, hret, hn⟩ := kfioStoi_formatInt sign _ _ hs.drop
    refine ⟨n, nchar, reads, hret, ?_⟩
    rw [hn]
    congr 3
    omega

/-- Unit 12 of `fio`, in a buffer without room for the second digit. -/
theorem kfioBlockGetDeviceName_stoi_fio12 :
    ∃ n nchar reads, (∀ fuel > 11, kfioStoi .signed fuel
      (kfioBlockGetDeviceName (fun _ ↦ 255) 64 5 [102, 105, 111] 12) 67 = some (n, nchar, reads)) ∧
      n.toInt = 1 := by
  have hname : ∀ c ∈ ([102, 105, 111] : List UInt8), c ≠ 0 := by simp
  obtain ⟨n, nchar, reads, hret, hn⟩ :=
    (kfioBlockGetDeviceName_stoi .signed (fun _ ↦ 255) 64 5 hname 12).2.2 (by decide)
  exact ⟨n, nchar, reads, hret, hn.trans (by decide)⟩

end IomemoryVsl.Kfio
