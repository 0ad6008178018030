import IomemoryVsl.Kmem.UserPages
import IomemoryVsl.Kscatter.Recording
import IomemoryVsl.Kscatter.Tiling
import IomemoryVsl.Kscatter.WholeMap

/-!
# User buffers on their way to the device (`kmem.c`, `kscatter.c`)

Buffers of a user are pinned, recorded in one list, loaded, and worked off in slices; then their
pages are given back.  The user's bytes go through the pages of `kmem.c`, the entries and the
segments of a list and the pieces of its slices, and come out in their order.
-/

namespace IomemoryVsl.Kscatter

open Kmem

/-- A user's buffer; it may begin and end within a page. -/
structure UserBuffer where
  start : UInt64
  size : UInt32
deriving DecidableEq, Repr

namespace UserBuffer

/-- Where the buffer begins in its first page. -/
def offset (b : UserBuffer) : UInt32 := (b.start &&& (FUSION_PAGE_SIZE - 1)).toUInt32

def pageCount (b : UserBuffer) : ℕ := pagesSpanned b.size.toNat b.offset.toNat

/-- The call that pins the buffer. -/
def getCall (b : UserBuffer) : GetCall := ⟨Int32.ofNat b.pageCount, b.start, 0⟩

/-- The addresses of the bytes of the buffer. -/
def bytes (b : UserBuffer) : List UInt64 := (List.range b.size.toNat).map (busShift b.start)

end UserBuffer

/-- The array `pages`, with what lies in memory behind it. -/
def arrayAt (pages : List UInt64) (beyond : ℕ → UInt64) (i : ℕ) : UInt64 := pages.getD i (beyond i)

/-- A caller's loop of `kfio_get_user_pages` and `kfio_sgl_map_user_pages` with all its pages. -/
def mapBuffers (beyond : ℕ → UInt64) (curthread : Thread) :
    FreebsdSgl → List UserBuffer → Except Fault (Int32 × FreebsdSgl × List UInt64)
  | fsg, [] => .ok (0, fsg, [])
  | fsg, b :: bs => do
      let (_, pages) := kfioGetUserPages b.getCall
      let (rc, fsg, _) ← kfioSglMapUserPages fsg (arrayAt pages beyond) b.size b.offset curthread
      if rc ≠ 0 then .ok (rc, fsg, pages)
      else
        let (rc, fsg, rest) ← mapBuffers beyond curthread fsg bs
        .ok (rc, fsg, pages ++ rest)

/-- busdma translates each byte that the list records. -/
structure BusLoad.Translates (load : BusLoad) (fsg : FreebsdSgl) (bus : UInt64 → UInt64) : Prop
    extends load.Loads fsg where
  bytes : segBytes load.segs =
    (Extent.cellsOf busShift (fsg.entries.map Iovec.extent)).map bus

/-! ## The pages of a buffer -/

theorem UserBuffer.offset_toNat (b : UserBuffer) : b.offset.toNat = b.start.toNat % 4096 := by
  unfold UserBuffer.offset
  rw [UInt64.toNat_toUInt32, toNat_pageOffset]
  omega

theorem UserBuffer.offset_lt (b : UserBuffer) : b.offset.toNat < fusionPageSize := by
  rw [b.offset_toNat, fusionPageSize_eq]
  exact Nat.mod_lt _ (by decide)

theorem UserBuffer.page_offset (b : UserBuffer) :
    busShift (truncPage b.start) b.offset.toNat = b.start := by
  have hoffset : UInt64.ofNat b.offset.toNat = b.start &&& (FUSION_PAGE_SIZE - 1) := by
    apply UInt64.toNat_inj.mp
    rw [b.offset_toNat, toNat_pageOffset, UInt64.toNat_ofNat']
    omega
  unfold busShift
  rw [hoffset, truncPage_add_offset]

/-- Bytes that lie in pages one behind the other lie one behind the other. -/
theorem UserBuffer.pageByte_eq (b : UserBuffer) (k : ℕ) :
    pageByte (pageShift (truncPage b.start)) b.offset.toNat k = busShift b.start k := by
  have hpage : UInt64.ofNat fusionPageSize = FUSION_PAGE_SIZE := by decide
  unfold pageByte
  rw [show pageShift (truncPage b.start) ((b.offset.toNat + k) / fusionPageSize) =
      busShift (truncPage b.start) ((b.offset.toNat + k) / fusionPageSize * fusionPageSize) by
    unfold pageShift busShift
    rw [UInt64.ofNat_mul, hpage], busShift_busShift, Nat.div_add_mod', ← busShift_busShift,
    b.page_offset]

/-- A buffer of 32 bits lies in fewer pages than an `int` counts. -/
theorem UserBuffer.pageCount_toInt (b : UserBuffer) :
    b.getCall.nrPages.toInt = b.pageCount := by
  have hsize := b.size.toNat_lt
  have hoffset := b.offset_lt
  unfold UserBuffer.getCall UserBuffer.pageCount pagesSpanned
  rw [fusionPageSize_eq] at hoffset ⊢
  apply Int32.toInt_ofNat_of_lt
  split_ifs <;> omega

/-- What `kfio_get_user_pages` hands out for a buffer. -/
theorem UserBuffer.get_eq (b : UserBuffer) :
    (kfioGetUserPages b.getCall).2 = Extent.cells pageShift ⟨truncPage b.start, b.pageCount⟩ ∧
      (kfioGetUserPages b.getCall).2 = b.getCall.range.pages := by
  have hint := b.pageCount_toInt
  have hnr : 0 ≤ b.getCall.nrPages := by
    rw [Int32.le_iff_toInt_le, hint]
    exact Int.natCast_nonneg _
  have hget := kfioGetUserPages_success hnr rfl
  refine ⟨?_, by rw [hget]⟩
  have hlt := b.getCall.nrPages.toInt_lt
  rw [hget]
  show b.getCall.range.pages = _
  rw [GetCall.range_eq hnr, pages_ofNat (truncPage_aligned _) (by omega), hint, Int.toNat_natCast]
  rfl

/-! ## One buffer -/

variable {fsg fsg' : FreebsdSgl} {curthread : Thread} {beyond : ℕ → UInt64}

theorem recordAll_keeps (fsg : FreebsdSgl) (chunks : List (UInt64 × UInt32)) :
    (fsg.recordAll chunks).uioMax = fsg.uioMax ∧ (fsg.recordAll chunks).uioSegflg = fsg.uioSegflg ∧
      (fsg.recordAll chunks).uioTd = fsg.uioTd := by
  induction chunks generalizing fsg with
  | nil => exact ⟨rfl, rfl, rfl⟩
  | cons chunk chunks ih => exact ih (fsg.record chunk.1 chunk.2)

/-- What has been recorded of the buffers `bs`: their bytes, in their order, and one entry for each
page. -/
structure Records (fsg : FreebsdSgl) (bs : List UserBuffer) (fsg' : FreebsdSgl) : Prop where
  bytes : Extent.cellsOf busShift (fsg'.entries.map Iovec.extent) =
    Extent.cellsOf busShift (fsg.entries.map Iovec.extent) ++ bs.flatMap UserBuffer.bytes
  uioNum : fsg'.uioNum.toNat = fsg.uioNum.toNat + (bs.map UserBuffer.pageCount).sum
  uioSize : fsg'.uioSize.toNat =
    (fsg.uioSize.toNat + (bs.map fun b ↦ b.size.toNat).sum) % 2 ^ 32
  uioMax : fsg'.uioMax = fsg.uioMax

theorem arrayAt_of_lt {pages : List UInt64} {i : ℕ} (hi : i < pages.length) :
    arrayAt pages beyond i = pages[i] := by
  unfold arrayAt
  rw [List.getD_eq_getElem?_getD, List.getElem?_eq_getElem hi, Option.getD_some]

/-- A buffer for whose pages there is room is recorded, whatever lies behind the array. -/
theorem UserBuffer.recorded (b : UserBuffer) (htakes : fsg.TakesPagesOf curthread)
    (hroom : fsg.uioNum.toNat + b.pageCount ≤ fsg.uioMax.toNat) :
    ∃ fsg', kfioSglMapUserPages fsg (arrayAt (kfioGetUserPages b.getCall).2 beyond) b.size b.offset
        curthread = .ok (0, fsg', b.pageCount) ∧
      Records fsg [b] fsg' ∧ fsg'.TakesPagesOf curthread := by
  have hneed : pagesNeeded b.size.toNat b.offset.toNat = b.pageCount := pagesNeeded_eq b.offset_lt
  have hle : b.pageCount ≤ fsg.room := by
    unfold FreebsdSgl.room
    omega
  have hpages : ∀ i < b.pageCount, arrayAt (kfioGetUserPages b.getCall).2 beyond (0 + i) =
      pageShift (truncPage b.start) (0 + i) := by
    intro i hi
    have hlen : i < (kfioGetUserPages b.getCall).2.length := by
      rw [b.get_eq.1]
      simpa [Extent.cells] using hi
    rw [Nat.zero_add, arrayAt_of_lt hlen]
    simp [b.get_eq.1, Extent.cells]
  have hchunks : pageChunks (arrayAt (kfioGetUserPages b.getCall).2 beyond) b.pageCount 0 b.size
      b.offset = pageChunks (pageShift (truncPage b.start)) b.pageCount 0 b.size b.offset :=
    pageChunks_congr 0 hpages
  have hrec := recordAll_recorded (fsg.taggedFor curthread)
    (pageChunks (pageShift (truncPage b.start)) b.pageCount 0 b.size b.offset)
    (by rw [length_pageChunks]; exact hle)
  have hkeeps := recordAll_keeps (fsg.taggedFor curthread)
    (pageChunks (pageShift (truncPage b.start)) b.pageCount 0 b.size b.offset)
  have hbytes : (List.range b.size.toNat).map
      (pageByte (pageShift (truncPage b.start)) b.offset.toNat) = b.bytes :=
    List.map_congr_left fun k _ ↦ b.pageByte_eq k
  refine ⟨_, ?_, ⟨?_, ?_, ?_, hkeeps.1⟩, fun _ ↦ ⟨hkeeps.2.1, hkeeps.2.2⟩⟩
  · rw [kfioSglMapUserPages_eq htakes, hneed, if_pos hle, min_eq_left hle, hchunks]
  · rw [hrec.entries, List.map_append, Extent.cellsOf_append,
      cellsOf_pageChunks _ b.offset_lt hneed.symm, hbytes]
    simp [FreebsdSgl.entries, FreebsdSgl.taggedFor]
  · rw [hrec.uioNum, length_pageChunks]
    simp [FreebsdSgl.taggedFor]
  · rw [hrec.uioSize, chunkTotal_pageChunks _ 0 b.size b.offset hneed.symm]
    simp [FreebsdSgl.taggedFor]

/-! ## All the buffers -/

theorem Records.cons {b : UserBuffer} {bs : List UserBuffer} {fsg'' : FreebsdSgl}
    (h : Records fsg [b] fsg') (hs : Records fsg' bs fsg'') : Records fsg (b :: bs) fsg'' where
  bytes := by
    rw [hs.bytes, h.bytes]
    simp
  uioNum := by
    rw [hs.uioNum, h.uioNum]
    simp [Nat.add_assoc]
  uioSize := by
    rw [hs.uioSize, h.uioSize]
    simp [Nat.add_assoc]
  uioMax := hs.uioMax.trans h.uioMax

theorem mapBuffers_records {bs : List UserBuffer} (htakes : fsg.TakesPagesOf curthread)
    (hroom : fsg.uioNum.toNat + (bs.map UserBuffer.pageCount).sum ≤ fsg.uioMax.toNat) :
    ∃ fsg', mapBuffers beyond curthread fsg bs =
        .ok (0, fsg', bs.flatMap fun b ↦ b.getCall.range.pages) ∧ Records fsg bs fsg' := by
  induction bs generalizing fsg with
  | nil =>
      have hsize := fsg.uioSize.toNat_lt
      refine ⟨fsg, rfl, ?_, rfl, ?_, rfl⟩
      · simp
      · simp
  | cons b bs ih =>
      rw [List.map_cons, List.sum_cons] at hroom
      obtain ⟨mid, hmap, hmid, htakes'⟩ :=
        @UserBuffer.recorded fsg curthread beyond b htakes (by omega)
      have hnum := hmid.uioNum
      rw [List.map_singleton, List.sum_singleton] at hnum
      obtain ⟨fsg', hrest, hrecords⟩ := ih htakes' (by rw [hnum, hmid.uioMax]; omega)
      refine ⟨fsg', ?_, hmid.cons hrecords⟩
      simp only [mapBuffers, hmap, hrest, bind, Except.bind]
      rw [if_neg (by decide), b.get_eq.2, List.flatMap_cons]

/-- A map of the recorded bytes, cut into slices. -/
theorem BusLoad.Translates.slices {load : BusLoad} {bus : UInt64 → UInt64} {bytes : List UInt64}
    (h : load.Translates fsg bus)
    (hbytes : Extent.cellsOf busShift (fsg.entries.map Iovec.extent) = bytes) (log : BusLog)
    (dmap : KfioDmaMap) (dir : Int32) {fuel : ℕ} (hfuel : load.segs.length ≤ fuel)
    {offset : UInt32} {ls : List UInt32} (hpos : ∀ l ∈ ls, 0 < l)
    (hsum : offset.toNat + sliceTotal ls ≤ fsg.uioSize.toNat) :
    ∃ mapped whole pieces, (kfioSglDmaMap load log fsg (some dmap) dir).2.2 = (mapped, some whole) ∧
      slicePieces mapped fuel whole offset ls = .ok pieces ∧
      physBytes pieces = ((bytes.map bus).drop offset.toNat).take (sliceTotal ls) := by
  obtain ⟨hmap, hmapped⟩ := kfioSglDmaMap_loaded h.toLoads log dmap dir
  have hsegs : 0 < load.segs.length := List.length_pos_iff.mpr h.nonempty
  obtain ⟨pieces, hpieces, hphys, -⟩ :=
    slicePieces_from hmapped hfuel hpos _ hsum hsegs (Nat.zero_le offset.toNat)
  rw [h.bytes, hbytes] at hphys
  exact ⟨_, _, pieces, hmap, hpieces, hphys⟩

/-- Pages that are given back are unlocked, all of them and in their order, in whole ranges. -/
theorem kfioPutUserPages_pages {pages : List UInt64} {nrPages : Int32}
    (hnr : nrPages.toInt = pages.length) (haligned : ∀ p ∈ pages, p.toNat % 4096 = 0) :
    ∃ calls, kfioPutUserPages pages nrPages = .ok calls ∧
      calls.flatMap PageRange.pages = pages ∧ ∀ r ∈ calls, r.Whole := by
  obtain ⟨calls, hcalls, hwhole, hruns⟩ :=
    @putRuns_spec pages nrPages hnr haligned (nrPages.toInt.toNat + 1) 0 (Nat.zero_le _) (by omega)
  rw [List.drop_zero] at hruns
  refine ⟨calls, hcalls, ?_, hwhole⟩
  rw [List.flatMap_def, hruns, List.flatten_splitBy]

/-- An empty list takes the buffers of a user if it has an entry for each page and can count the
bytes.  The pieces of whatever slices it is then worked off in are the user's bytes as busdma
translates them, each once and in their order, and the pages that are unlocked in the end, in ranges
of whole pages, are those that were locked. -/
theorem userBuffers_reach_device (beyond : ℕ → UInt64) (hempty : fsg.uioNum = 0)
    (hzero : fsg.uioSize = 0) {bs : List UserBuffer}
    (hroom : (bs.map UserBuffer.pageCount).sum ≤ fsg.uioMax.toNat)
    (hfits : (bs.map fun b ↦ b.size.toNat).sum < 2 ^ 32) :
    ∃ fsg' pages, mapBuffers beyond curthread fsg bs = .ok (0, fsg', pages) ∧
      (kfioSglSize fsg').toNat = (bs.map fun b ↦ b.size.toNat).sum ∧
      Extent.cellsOf busShift (fsg'.entries.map Iovec.extent) = bs.flatMap UserBuffer.bytes ∧
      (∀ load bus, load.Translates fsg' bus → ∀ log dmap dir fuel, load.segs.length ≤ fuel →
        ∀ (offset : UInt32) ls, (∀ l ∈ ls, 0 < l) →
          offset.toNat + sliceTotal ls ≤ (kfioSglSize fsg').toNat →
        ∃ mapped whole pieces,
          (kfioSglDmaMap load log fsg' (some dmap) dir).2.2 = (mapped, some whole) ∧
          slicePieces mapped fuel whole offset ls = .ok pieces ∧
          physBytes pieces =
            (((bs.flatMap UserBuffer.bytes).map bus).drop offset.toNat).take (sliceTotal ls)) ∧
      ∀ nrPages : Int32, nrPages.toInt = pages.length →
        ∃ calls, kfioPutUserPages pages nrPages = .ok calls ∧
          calls.flatMap PageRange.pages = (bs.flatMap fun b ↦ b.getCall.range.pages) ∧
          ∀ r ∈ calls, r.Whole := by
  have htakes : fsg.TakesPagesOf curthread := fun hne ↦ absurd hempty hne
  have hnum : fsg.uioNum.toNat = 0 := by rw [hempty]; rfl
  have hsize : fsg.uioSize.toNat = 0 := by rw [hzero]; rfl
  obtain ⟨fsg', hmap, hrec⟩ := @mapBuffers_records fsg curthread beyond bs htakes (by omega)
  have hbytes := hrec.bytes
  rw [show fsg.entries = [] by unfold FreebsdSgl.entries; rw [hnum]; rfl] at hbytes
  refine ⟨fsg', _, hmap, ?_, hbytes, ?_, ?_⟩
  · show fsg'.uioSize.toNat = _
    rw [hrec.uioSize, hsize, Nat.zero_add, Nat.mod_eq_of_lt hfits]
  · intro load bus htrans log dmap dir fuel hfuel offset ls hpos hsum
    exact htrans.slices hbytes log dmap dir hfuel hpos hsum
  · intro nrPages hnr
    apply kfioPutUserPages_pages hnr
    intro p hp
    obtain ⟨b, -, hpb⟩ := List.mem_flatMap.mp hp
    exact b.getCall.range.pages_aligned p hpb

/-! Two buffers of a user, the first across the end of a page, that busdma finds 0x100000 higher. -/

def twoBuffers : List UserBuffer := [⟨0x1ffe, 4⟩, ⟨0x5008, 3⟩]

def higherLoad : BusLoad where
  rc := 0
  segs := [⟨0x101ffe, 4⟩, ⟨0x105008, 3⟩]
  nsegs := 2
  error := 0

/-- The middle of the bytes, in slices of three and two, and three pages that are given back. -/
theorem userBuffers_reach_device_twoBuffers :
    ∃ fsg' pages mapped whole pieces calls,
      mapBuffers (fun _ ↦ 0) 7 emptySgl twoBuffers = .ok (0, fsg', pages) ∧
      (kfioSglDmaMap higherLoad [] fsg' (some clearedDmaMap) 0).2.2 = (mapped, some whole) ∧
      slicePieces mapped 2 whole 1 [3, 2] = .ok pieces ∧
      physBytes pieces = [0x101fff, 0x102000, 0x102001, 0x105008, 0x105009] ∧
      kfioPutUserPages pages 3 = .ok calls ∧
      calls.flatMap PageRange.pages = [0x1000, 0x2000, 0x5000] ∧ ∀ r ∈ calls, r.Whole := by
  obtain ⟨fsg', pages, hmap, hsize, hbytes, hdevice, hput⟩ :=
    @userBuffers_reach_device emptySgl 7 (fun _ ↦ 0) rfl rfl twoBuffers (by decide) (by decide)
  have htrans : higherLoad.Translates fsg' (· + 0x100000) := {
    rc := rfl
    error := rfl
    nsegs := rfl
    nonempty := by decide
    pos := by decide
    total := hsize.symm
    bytes := by rw [hbytes]; decide }
  obtain ⟨mapped, whole, pieces, hwhole, hpieces, hphys⟩ :=
    hdevice higherLoad _ htrans [] clearedDmaMap 0 2 (by decide) 1 [3, 2] (by simp)
      (by rw [hsize]; decide)
  have hpages : pages = [0x1000, 0x2000, 0x5000] := by
    cases hmap
    decide
  obtain ⟨calls, hcalls, hflat, hwholes⟩ := hput 3 (by rw [hpages]; rfl)
  exact ⟨fsg', pages, mapped, whole, pieces, calls, hmap, hwhole, hpieces, hphys.trans (by decide),
    hcalls, hflat.trans (by decide), hwholes⟩

end IomemoryVsl.Kscatter
