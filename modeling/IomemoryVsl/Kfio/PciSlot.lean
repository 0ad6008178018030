import IomemoryVsl.Lib.ByteMemory
import IomemoryVsl.Lib.Run
import Mathlib.Tactic.SplitIfs

/-!
# The slot of a device (`kfio.c`)

`kfio_pci_get_slot` finds the PCI interrupt routing table of the BIOS, maps its header, maps it
again in its full length, and looks for the entry of the device.
-/

namespace IomemoryVsl.Kfio

open ByteMemory Transition

/-- `"$PIR"` -/
def dollarPir : List UInt8 := [0x24, 0x50, 0x49, 0x52]

/-- `"_PIR"` -/
def underscorePir : List UInt8 := [0x5f, 0x50, 0x49, 0x52]

/-- What the BIOS has left in memory, with `bios_sigsearch (0, sig, 4, 16, 0)`: the address of a
paragraph that starts with the signature, or 0. -/
structure Bios where
  mem : Bytes
  biosSigsearch : List UInt8 → UInt32
  found : ∀ sig, biosSigsearch sig ≠ 0 →
    (List.range sig.length).map (fun i ↦ mem ((biosSigsearch sig).toNat + i)) = sig

/-- What `pci_get_bus` and `pci_get_slot` answer. -/
structure KfioPciDev where
  bus : UInt8
  slot : UInt8
deriving DecidableEq, Repr

/-- What `pmap_mapbios` returns, with a name of its own. -/
structure Mapping where
  id : ℕ
  addr : UInt32
  len : ℕ
deriving DecidableEq, Repr

/-- Calls of `pmap_mapbios` and `pmap_unmapbios`, and reads of `n` bytes at an offset between
them. -/
inductive BiosCall where
  | map (m : Mapping)
  | read (m : Mapping) (off n : ℕ)
  | unmap (m : Mapping) (len : ℕ)
deriving DecidableEq, Repr

/-- `sizeof (struct pir_header)` -/
def pirHeaderSize : ℕ := 32

/-- `sizeof (struct pir_entry)` -/
def pirEntrySize : ℕ := 16

def requiredPirVersion : ℕ := 0x100

section Function

variable (b : Bios)

def pmapMapbios (addr : UInt32) (len : ℕ) (calls : List BiosCall) : Mapping × List BiosCall :=
  let m : Mapping := ⟨calls.length, addr, len⟩
  (m, calls ++ [.map m])

def pmapUnmapbios (m : Mapping) (len : ℕ) (calls : List BiosCall) : List BiosCall :=
  calls ++ [.unmap m len]

def readByte (m : Mapping) (off : ℕ) (calls : List BiosCall) : UInt8 × List BiosCall :=
  (b.mem (m.addr.toNat + off), calls ++ [.read m off 1])

/-- `header->ph_version` -/
def readPhVersion (m : Mapping) (calls : List BiosCall) : ℕ × List BiosCall :=
  (loadLE b.mem (m.addr.toNat + 4) 2, calls ++ [.read m 4 2])

/-- `header->ph_length` -/
def readPhLength (m : Mapping) (calls : List BiosCall) : ℕ × List BiosCall :=
  (loadLE b.mem (m.addr.toNat + 6) 2, calls ++ [.read m 6 2])

/-- The loop, with so many entries left, at the entry `i`. -/
def pirLoop (pt : Mapping) (pdev : KfioPciDev) :
    ℕ → ℕ → List BiosCall → UInt8 × List BiosCall
  | 0, _, calls => (0, calls)
  | left + 1, i, calls =>
      let pe := pirHeaderSize + pirEntrySize * i
      let (peBus, calls) := readByte b pt pe calls
      if peBus = pdev.bus then
        -- the low three bits of this byte are `pe_res1`
        let (device, calls) := readByte b pt (pe + 1) calls
        if device >>> 3 = pdev.slot then readByte b pt (pe + 14) calls
        else pirLoop pt pdev left (i + 1) calls
      else pirLoop pt pdev left (i + 1) calls

/-- `kfio_pci_get_slot`, with the calls that it makes. -/
def kfioPciGetSlot (pdev : KfioPciDev) : UInt8 × List BiosCall :=
  let sigaddr := b.biosSigsearch dollarPir
  let sigaddr := if sigaddr = 0 then b.biosSigsearch underscorePir else sigaddr
  if sigaddr = 0 then (0, [])
  else
    let (header, calls) := pmapMapbios sigaddr pirHeaderSize []
    let (phLength, calls) := readPhLength b header calls
    if phLength ≤ pirHeaderSize then (0, pmapUnmapbios header pirHeaderSize calls)
    else
      let (phVersion, calls) := readPhVersion b header calls
      if phVersion ≠ requiredPirVersion then (0, pmapUnmapbios header pirHeaderSize calls)
      else
        let (phLength, calls) := readPhLength b header calls
        let (pt, calls) := pmapMapbios sigaddr phLength calls
        let calls := pmapUnmapbios header pirHeaderSize calls
        let (phLength, calls) := readPhLength b pt calls
        let count := (phLength - pirHeaderSize) / pirEntrySize
        let (slotNum, calls) := pirLoop b pt pdev count 0 calls
        let (phLength, calls) := readPhLength b pt calls
        (slotNum, pmapUnmapbios pt phLength calls)

end Function

/-! ## The table -/

structure PirEntry where
  peBus : UInt8
  peDevice : UInt8
  peSlot : UInt8
deriving DecidableEq, Repr

/-- Where the table is. -/
def Bios.sigaddr (b : Bios) : UInt32 :=
  if b.biosSigsearch dollarPir = 0 then b.biosSigsearch underscorePir
  else b.biosSigsearch dollarPir

/-- A byte of the table. -/
def Bios.byte (b : Bios) (off : ℕ) : UInt8 :=
  b.mem (b.sigaddr.toNat + off)

def Bios.phVersion (b : Bios) : ℕ :=
  loadLE b.mem (b.sigaddr.toNat + 4) 2

def Bios.phLength (b : Bios) : ℕ :=
  loadLE b.mem (b.sigaddr.toNat + 6) 2

/-- There is a signature, with a length and a version after it that are accepted. -/
structure Bios.HasTable (b : Bios) : Prop where
  found : b.sigaddr ≠ 0
  length : pirHeaderSize < b.phLength
  version : b.phVersion = requiredPirVersion

/-- The number of whole entries. -/
def Bios.pirCount (b : Bios) : ℕ :=
  (b.phLength - pirHeaderSize) / pirEntrySize

def Bios.pirEntry (b : Bios) (i : ℕ) : PirEntry where
  peBus := b.byte (pirHeaderSize + pirEntrySize * i)
  peDevice := b.byte (pirHeaderSize + pirEntrySize * i + 1) >>> 3
  peSlot := b.byte (pirHeaderSize + pirEntrySize * i + 14)

def PirEntry.isFor (pe : PirEntry) (pdev : KfioPciDev) : Bool :=
  pe.peBus = pdev.bus && pe.peDevice = pdev.slot

def Bios.pirEntries (b : Bios) : List PirEntry :=
  (List.range b.pirCount).map b.pirEntry

/-- The slot number in the first entry that is for the device. -/
def slotIn (pdev : KfioPciDev) (entries : List PirEntry) : UInt8 :=
  match entries.find? (·.isFor pdev) with
  | some pe => pe.peSlot
  | none => 0

/-- The sum of all bytes, `ph_checksum` included, is a multiple of 256. -/
def Bios.ChecksumHolds (b : Bios) : Prop :=
  ((List.range b.phLength).map fun i ↦ (b.byte i).toNat).sum % 256 = 0

instance (b : Bios) : Decidable b.ChecksumHolds :=
  inferInstanceAs (Decidable (_ = _))

/-! ## Mappings -/

/-- The mappings after a call: memory is mapped under a new name, read inside a mapping that is
there, and unmapped with the length it was mapped with. -/
def mapStep (live : List Mapping) : BiosCall → Option (List Mapping)
  | .map m => if m ∈ live then none else some (m :: live)
  | .read m off n => if m ∈ live ∧ off + n ≤ m.len then some live else none
  | .unmap m len => if m ∈ live ∧ len = m.len then some (live.erase m) else none

def BiosCall.mapped : BiosCall → Option Mapping
  | .map m => some m
  | _ => none

def BiosCall.unmapped : BiosCall → Option (Mapping × ℕ)
  | .unmap m len => some (m, len)
  | _ => none

/-- Nothing is read but through a mapping, and each of them is unmapped once, with its length. -/
structure MappingsReturned (calls : List BiosCall) : Prop where
  disciplined : run mapStep [] calls = some []
  distinct : (calls.filterMap BiosCall.mapped).Nodup
  once : calls.filterMap BiosCall.unmapped =
    (calls.filterMap BiosCall.mapped).map fun m ↦ (m, m.len)

/-- What holds of a call of `kfio_pci_get_slot`. -/
structure SlotSound (b : Bios) (pdev : KfioPciDev) : Prop where
  returned : MappingsReturned (kfioPciGetSlot b pdev).2
  inside : b.HasTable → ∀ m off n, BiosCall.read m off n ∈ (kfioPciGetSlot b pdev).2 →
    m.addr = b.sigaddr ∧ off + n ≤ b.phLength
  whole : b.HasTable → ∀ m off n, BiosCall.read m off n ∈ (kfioPciGetSlot b pdev).2 →
    off + n ≤ pirHeaderSize + pirEntrySize * b.pirCount
  first : b.HasTable → (kfioPciGetSlot b pdev).1 = slotIn pdev b.pirEntries

variable {b : Bios} {pdev : KfioPciDev} {pt m : Mapping} {live : List Mapping}
  {calls : List BiosCall}

/-! ## The loop -/

theorem slotIn_cons (pe : PirEntry) (entries : List PirEntry) :
    slotIn pdev (pe :: entries) = if pe.isFor pdev then pe.peSlot else slotIn pdev entries := by
  unfold slotIn
  rw [List.find?_cons]
  by_cases hfor : pe.isFor pdev
  · rw [if_pos hfor, hfor]
  · rw [if_neg hfor, Bool.eq_false_iff.mpr hfor]

theorem pirLoop_slot (haddr : pt.addr = b.sigaddr) (n i : ℕ) (calls : List BiosCall) :
    (pirLoop b pt pdev n i calls).1 = slotIn pdev ((List.range' i n).map b.pirEntry) := by
  induction n generalizing i calls with
  | zero => rfl
  | succ n ih =>
    have hentry : (b.pirEntry i).isFor pdev = true ↔
        b.mem (pt.addr.toNat + (pirHeaderSize + pirEntrySize * i)) = pdev.bus ∧
          b.mem (pt.addr.toNat + (pirHeaderSize + pirEntrySize * i + 1)) >>> 3 = pdev.slot := by
      rw [haddr]
      unfold PirEntry.isFor
      rw [Bool.and_eq_true, decide_eq_true_iff, decide_eq_true_iff]
      rfl
    rw [List.range'_succ, List.map_cons, slotIn_cons]
    unfold pirLoop readByte
    dsimp only
    split_ifs with hbus hslot hfor hfor hfor
    · rw [haddr]
      rfl
    · exact absurd (hentry.mpr ⟨hbus, hslot⟩) hfor
    · exact absurd (hentry.mp hfor).2 hslot
    · exact ih (i + 1) _
    · exact absurd (hentry.mp hfor).1 hbus
    · exact ih (i + 1) _

/-- Since `calls`, a mapping has been read up to a bound, and nothing else has been done. -/
def ReadsOn (pt : Mapping) (bound : ℕ) (calls calls' : List BiosCall) : Prop :=
  ∃ reads, calls' = calls ++ reads ∧
    ∀ c ∈ reads, ∃ off n, c = BiosCall.read pt off n ∧ off + n ≤ bound

theorem ReadsOn.refl (pt : Mapping) (bound : ℕ) (calls : List BiosCall) :
    ReadsOn pt bound calls calls :=
  ⟨[], (List.append_nil calls).symm, List.forall_mem_nil _⟩

theorem ReadsOn.read {off n bound : ℕ} {calls' : List BiosCall} (hbound : off + n ≤ bound)
    (h : ReadsOn pt bound (calls ++ [.read pt off n]) calls') : ReadsOn pt bound calls calls' := by
  obtain ⟨reads, heq, hreads⟩ := h
  refine ⟨.read pt off n :: reads, ?_, ?_⟩
  · rw [heq, List.append_assoc]
    rfl
  · rw [List.forall_mem_cons]
    exact ⟨⟨off, n, rfl, hbound⟩, hreads⟩

/-- The loop reads whole entries. -/
theorem pirLoop_reads (b : Bios) (pt : Mapping) (pdev : KfioPciDev) (n i : ℕ)
    (calls : List BiosCall) :
    ReadsOn pt (pirHeaderSize + pirEntrySize * (i + n)) calls
      (pirLoop b pt pdev n i calls).2 := by
  induction n generalizing i calls with
  | zero => exact ReadsOn.refl _ _ _
  | succ n ih =>
    have hentry : pirHeaderSize + pirEntrySize * i + 16 ≤
        pirHeaderSize + pirEntrySize * (i + (n + 1)) := by
      unfold pirEntrySize
      omega
    have hrest := ih (i + 1)
    rw [show i + 1 + n = i + (n + 1) from by omega] at hrest
    unfold pirLoop readByte
    dsimp only
    split_ifs
    · exact ReadsOn.read (by omega) (ReadsOn.read (by omega) (ReadsOn.read (by omega)
        (ReadsOn.refl _ _ _)))
    · exact ReadsOn.read (by omega) (ReadsOn.read (by omega) (hrest _))
    · exact ReadsOn.read (by omega) (hrest _)

/-! ## The function -/

/-- The first mapping, of the header alone. -/
def Bios.headerMapping (b : Bios) : Mapping := ⟨0, b.sigaddr, pirHeaderSize⟩

/-- The second mapping, of the whole table. -/
def Bios.tableMapping (b : Bios) : Mapping := ⟨4, b.sigaddr, b.phLength⟩

/-- What has been done when the loop begins. -/
def Bios.opening (b : Bios) : List BiosCall :=
  [.map b.headerMapping, .read b.headerMapping 6 2, .read b.headerMapping 4 2,
    .read b.headerMapping 6 2, .map b.tableMapping, .unmap b.headerMapping pirHeaderSize,
    .read b.tableMapping 6 2]

/-- The four ways through the function. -/
theorem kfioPciGetSlot_eq (b : Bios) (pdev : KfioPciDev) : kfioPciGetSlot b pdev =
    if b.sigaddr = 0 then (0, [])
    else if b.phLength ≤ pirHeaderSize then
      (0, [.map b.headerMapping, .read b.headerMapping 6 2, .unmap b.headerMapping pirHeaderSize])
    else if b.phVersion ≠ requiredPirVersion then
      (0, [.map b.headerMapping, .read b.headerMapping 6 2, .read b.headerMapping 4 2,
        .unmap b.headerMapping pirHeaderSize])
    else
      ((pirLoop b b.tableMapping pdev b.pirCount 0 b.opening).1,
        (pirLoop b b.tableMapping pdev b.pirCount 0 b.opening).2 ++ [.read b.tableMapping 6 2] ++
          [.unmap b.tableMapping b.phLength]) :=
  rfl

/-- The mappings made and undone are not changed by reads. -/
theorem ReadsOn.mappings {bound : ℕ} {calls' : List BiosCall}
    (h : ReadsOn pt bound calls calls') :
    calls'.filterMap BiosCall.mapped = calls.filterMap BiosCall.mapped ∧
      calls'.filterMap BiosCall.unmapped = calls.filterMap BiosCall.unmapped := by
  obtain ⟨reads, rfl, hreads⟩ := h
  have hmapped : reads.filterMap BiosCall.mapped = [] := by
    rw [List.filterMap_eq_nil_iff]
    intro c hc
    obtain ⟨off, n, rfl, _⟩ := hreads c hc
    rfl
  have hunmapped : reads.filterMap BiosCall.unmapped = [] := by
    rw [List.filterMap_eq_nil_iff]
    intro c hc
    obtain ⟨off, n, rfl, _⟩ := hreads c hc
    rfl
  rw [List.filterMap_append, List.filterMap_append, hmapped, hunmapped, List.append_nil,
    List.append_nil]
  exact ⟨rfl, rfl⟩

/-- Reading inside a mapping that is there leaves the mappings as they are. -/
theorem ReadsOn.run {bound : ℕ} {calls' : List BiosCall} (h : ReadsOn pt bound calls calls')
    (hbound : bound ≤ pt.len) (hpt : pt ∈ live) (hrun : run mapStep [] calls = some live) :
    run mapStep [] calls' = some live := by
  obtain ⟨reads, rfl, hreads⟩ := h
  rw [run_append, hrun]
  show Transition.run mapStep live reads = some live
  apply run_fixed
  intro c hc
  obtain ⟨off, n, rfl, hle⟩ := hreads c hc
  exact if_pos ⟨hpt, by omega⟩

/-- Whole entries end within the table. -/
theorem pirCount_le (h : b.HasTable) :
    pirHeaderSize + pirEntrySize * b.pirCount ≤ b.phLength := by
  have hlen := h.length
  have hwhole := Nat.mul_div_le (b.phLength - pirHeaderSize) pirEntrySize
  unfold Bios.pirCount
  omega

theorem mappings_ne (b : Bios) : b.tableMapping ≠ b.headerMapping := by
  intro h
  exact absurd (congrArg Mapping.id h) (show (4 : ℕ) ≠ 0 by decide)

theorem unmap_last (m : Mapping) : mapStep [m] (.unmap m m.len) = some [] := by
  dsimp only [mapStep]
  rw [if_pos ⟨List.mem_singleton.mpr rfl, rfl⟩, List.erase_cons_head]

/-- When the loop begins, the table is mapped and the header no longer is. -/
theorem opening_run (hlen : pirHeaderSize < b.phLength) :
    run mapStep [] b.opening = some [b.tableMapping] := by
  have htable : (6 : ℕ) + 2 ≤ b.tableMapping.len := by
    show 8 ≤ b.phLength
    unfold pirHeaderSize at hlen
    omega
  have hheader : b.headerMapping.len = pirHeaderSize := rfl
  unfold Bios.opening
  simp [run_cons, mapStep, hheader, htable, mappings_ne, pirHeaderSize,
    (mappings_ne b).symm]

/-- With a table, both mappings are undone whatever entry the loop has stopped at. -/
theorem table_returned (h : b.HasTable) (pdev : KfioPciDev) :
    MappingsReturned ((pirLoop b b.tableMapping pdev b.pirCount 0 b.opening).2 ++
      [.read b.tableMapping 6 2] ++ [.unmap b.tableMapping b.phLength]) := by
  have hreads := pirLoop_reads b b.tableMapping pdev b.pirCount 0 b.opening
  rw [Nat.zero_add] at hreads
  have hlen := h.length
  have hloop := hreads.run (pirCount_le h) (List.mem_singleton.mpr rfl) (opening_run hlen)
  have hread : mapStep [b.tableMapping] (.read b.tableMapping 6 2) = some [b.tableMapping] :=
    if_pos ⟨List.mem_singleton.mpr rfl, show 8 ≤ b.phLength by unfold pirHeaderSize at hlen; omega⟩
  refine ⟨?_, ?_, ?_⟩
  · rw [run_concat ((run_concat hloop _).trans hread)]
    exact unmap_last b.tableMapping
  · rw [List.filterMap_append, List.filterMap_append, hreads.mappings.1]
    show [b.headerMapping, b.tableMapping].Nodup
    simp [(mappings_ne b).symm]
  · rw [List.filterMap_append, List.filterMap_append, List.filterMap_append,
      List.filterMap_append, hreads.mappings.1, hreads.mappings.2]
    rfl

/-- Without one, the header is mapped at most. -/
theorem header_returned (b : Bios) (reads : List BiosCall) (hreads : ∀ c ∈ reads, ∃ off n,
    c = BiosCall.read b.headerMapping off n ∧ off + n ≤ pirHeaderSize) :
    MappingsReturned (.map b.headerMapping :: reads ++ [.unmap b.headerMapping pirHeaderSize]) := by
  have hon : ReadsOn b.headerMapping pirHeaderSize [.map b.headerMapping]
      (.map b.headerMapping :: reads) := ⟨reads, rfl, hreads⟩
  have hrun : run mapStep [] (.map b.headerMapping :: reads) = some [b.headerMapping] :=
    hon.run (Nat.le_refl _) (List.mem_singleton.mpr rfl) rfl
  refine ⟨?_, ?_, ?_⟩
  · rw [run_concat hrun]
    exact unmap_last b.headerMapping
  · rw [List.filterMap_append, hon.mappings.1]
    exact List.pairwise_singleton _ _
  · rw [List.filterMap_append, List.filterMap_append, hon.mappings.1, hon.mappings.2]
    rfl

theorem kfioPciGetSlot_table (h : b.HasTable) (pdev : KfioPciDev) :
    kfioPciGetSlot b pdev = ((pirLoop b b.tableMapping pdev b.pirCount 0 b.opening).1,
      (pirLoop b b.tableMapping pdev b.pirCount 0 b.opening).2 ++ [.read b.tableMapping 6 2] ++
        [.unmap b.tableMapping b.phLength]) := by
  rw [kfioPciGetSlot_eq, if_neg h.found, if_neg (not_le.mpr h.length),
    if_neg (not_not.mpr h.version)]

theorem kfioPciGetSlot_noTable (h : ¬ b.HasTable) (pdev : KfioPciDev) :
    (kfioPciGetSlot b pdev).1 = 0 ∧ MappingsReturned (kfioPciGetSlot b pdev).2 := by
  rw [kfioPciGetSlot_eq]
  split_ifs with hfound hlen hver
  · exact ⟨rfl, rfl, List.nodup_nil, rfl⟩
  · refine ⟨rfl, header_returned b [.read b.headerMapping 6 2] ?_⟩
    rw [List.forall_mem_singleton]
    exact ⟨6, 2, rfl, by decide⟩
  · refine ⟨rfl, header_returned b [.read b.headerMapping 6 2, .read b.headerMapping 4 2] ?_⟩
    rw [List.forall_mem_cons, List.forall_mem_singleton]
    exact ⟨⟨6, 2, rfl, by decide⟩, ⟨4, 2, rfl, by decide⟩⟩
  · exact absurd ⟨hfound, not_le.mp hlen, not_not.mp hver⟩ h

/-- With a table, the function answers with the first entry that is for the device. -/
theorem kfioPciGetSlot_first (h : b.HasTable) (pdev : KfioPciDev) :
    (kfioPciGetSlot b pdev).1 = slotIn pdev b.pirEntries := by
  rw [kfioPciGetSlot_table h, Bios.pirEntries, List.range_eq_range']
  exact pirLoop_slot rfl b.pirCount 0 b.opening

/-- What is read of the table is in its header or in its whole entries. -/
theorem kfioPciGetSlot_reads (h : b.HasTable) {off n : ℕ}
    (hread : BiosCall.read m off n ∈ (kfioPciGetSlot b pdev).2) :
    m.addr = b.sigaddr ∧ off + n ≤ pirHeaderSize + pirEntrySize * b.pirCount := by
  obtain ⟨reads, hloop, hreads⟩ := pirLoop_reads b b.tableMapping pdev b.pirCount 0 b.opening
  rw [Nat.zero_add] at hreads
  rw [kfioPciGetSlot_table h, hloop] at hread
  have hheader : 8 ≤ pirHeaderSize + pirEntrySize * b.pirCount := by
    unfold pirHeaderSize
    omega
  simp only [List.mem_append, List.mem_singleton, reduceCtorEq, or_false] at hread
  rcases hread with (hopening | hread) | hclosing
  · -- the header, whichever mapping it is read through
    simp only [Bios.opening, List.mem_cons, reduceCtorEq, BiosCall.read.injEq, List.not_mem_nil,
      false_or, or_false] at hopening
    rcases hopening with ⟨rfl, rfl, rfl⟩ | ⟨rfl, rfl, rfl⟩ | ⟨rfl, rfl, rfl⟩ | ⟨rfl, rfl, rfl⟩
    · exact ⟨rfl, hheader⟩
    · exact ⟨rfl, by omega⟩
    · exact ⟨rfl, hheader⟩
    · exact ⟨rfl, hheader⟩
  · obtain ⟨off, n, heq, hle⟩ := hreads _ hread
    cases heq
    exact ⟨rfl, hle⟩
  · cases hclosing
    exact ⟨rfl, hheader⟩

theorem kfioPciGetSlot_sound (b : Bios) (pdev : KfioPciDev) : SlotSound b pdev where
  returned := by
    by_cases h : b.HasTable
    · rw [kfioPciGetSlot_table h]
      exact table_returned h pdev
    · exact (kfioPciGetSlot_noTable h pdev).2
  inside := by
    intro h m off n hread
    have hwhole := kfioPciGetSlot_reads h hread
    exact ⟨hwhole.1, hwhole.2.trans (pirCount_le h)⟩
  whole := fun h _ _ _ hread ↦ (kfioPciGetSlot_reads h hread).2
  first := fun h ↦ kfioPciGetSlot_first h pdev

/-! ## The checksum -/

/-- What the comments of the function ask of a table. -/
structure Bios.Valid (b : Bios) : Prop extends b.HasTable where
  checksum : b.ChecksumHolds

/-- A slot number comes from a valid table, exactly when there is no table, or its bytes sum up to
a multiple of 256, or it has no slot number for the device. -/
theorem slot_valid_iff (b : Bios) (pdev : KfioPciDev) :
    ((kfioPciGetSlot b pdev).1 ≠ 0 → b.Valid) ↔
      ¬ b.HasTable ∨ b.ChecksumHolds ∨ slotIn pdev b.pirEntries = 0 := by
  by_cases h : b.HasTable
  · rw [kfioPciGetSlot_first h]
    constructor
    · intro hvalid
      by_cases hslot : slotIn pdev b.pirEntries = 0
      · exact Or.inr (Or.inr hslot)
      · exact Or.inr (Or.inl (hvalid hslot).checksum)
    · rintro (hnone | hsum | hslot)
      · exact absurd h hnone
      · exact fun _ ↦ ⟨h, hsum⟩
      · exact fun hne ↦ absurd hslot hne
  · have hzero := (kfioPciGetSlot_noTable h pdev).1
    exact iff_of_true (fun hne ↦ absurd hzero hne) (Or.inl h)

/-- A table of one entry, for device 1 on bus 0 in the slot given; its checksum is that for
slot 5. -/
def pirBytes (slot : UInt8) : List UInt8 :=
  [0x24, 0x50, 0x49, 0x52, 0, 1, 48, 0, 0, 0, 0, 0, 0, 0, 0, 0,
    0, 0, 0, 0, 0, 0, 0, 0, 0, 0, 0, 0, 0, 0, 0, 179,
    0, 8, 0, 0, 0, 0, 0, 0, 0, 0, 0, 0, 0, 0, slot, 0]

/-- A BIOS with that table. -/
def pirBios (slot : UInt8) : Bios where
  mem x := (pirBytes slot).getD (x - 0xf5000) 0
  biosSigsearch sig := if sig = dollarPir then 0xf5000 else 0
  found sig hfound := by
    by_cases hsig : sig = dollarPir
    · rw [if_pos hsig, show (0xf5000 : UInt32).toNat = 0xf5000 from rfl, hsig]
      simp only [Nat.add_sub_cancel_left]
      rfl
    · exact absurd (if_neg hsig) hfound

/-- The one entry of that table is for the device, and for no other. -/
theorem kfioPciGetSlot_sound_oneEntry :
    (SlotSound (pirBios 5) ⟨0, 1⟩ ∧ SlotSound (pirBios 5) ⟨0, 2⟩) ∧ (pirBios 5).HasTable ∧
      (kfioPciGetSlot (pirBios 5) ⟨0, 1⟩).1 = 5 ∧ (kfioPciGetSlot (pirBios 5) ⟨0, 2⟩).1 = 0 := by
  have hdevice := kfioPciGetSlot_sound (pirBios 5) ⟨0, 1⟩
  have hother := kfioPciGetSlot_sound (pirBios 5) ⟨0, 2⟩
  have htable : (pirBios 5).HasTable :=
    ⟨by decide +kernel, by decide +kernel, by decide +kernel⟩
  refine ⟨⟨hdevice, hother⟩, htable, ?_, ?_⟩
  · rw [hdevice.first htable]
    decide +kernel
  · rw [hother.first htable]
    decide +kernel

/-- The table as it is meant to be, and the same with one byte changed: the checksum no longer
holds, and the byte determines the slot number. -/
theorem slot_of_corrupted_table :
    ((kfioPciGetSlot (pirBios 5) ⟨0, 1⟩).1 = 5 ∧ (pirBios 5).ChecksumHolds) ∧
      (kfioPciGetSlot (pirBios 4) ⟨0, 1⟩).1 = 4 ∧ ¬ (pirBios 4).ChecksumHolds ∧
      ¬ ((kfioPciGetSlot (pirBios 4) ⟨0, 1⟩).1 ≠ 0 → (pirBios 4).Valid) := by
  have hbad : ¬ (pirBios 4).ChecksumHolds := by decide +kernel
  refine ⟨⟨by decide +kernel, by decide +kernel⟩, by decide +kernel, hbad, ?_⟩
  intro hvalid
  exact hbad (hvalid (by decide +kernel)).checksum

end IomemoryVsl.Kfio
