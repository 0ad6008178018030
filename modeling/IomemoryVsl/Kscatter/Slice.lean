import IomemoryVsl.Kscatter.Sgl
import IomemoryVsl.Lib.Extent

/-!
# Slices of a mapped scatter-gather list

`kfio_sgl_dma_slice` describes a byte range of a mapped list by its first and last segment, the
bytes to skip in the first one and the bytes to drop from the last one; `kfio_dma_map_first` and
`kfio_dma_map_next` enumerate the pieces again.  A read outside the segment array is a fault.
-/

namespace IomemoryVsl.Kscatter

structure KfioSglPhys where
  addr : UInt64
  len : UInt32
deriving DecidableEq, Repr

/-- Reading `seg_ptr[i]`. -/
def readSeg (segPtr : Option (List BusDmaSegment)) (i : Nat) : Except Fault BusDmaSegment :=
  match segPtr with
  | none => .error .nullDeref
  | some segs =>
      match segs[i]? with
      | none => .error .outOfBounds
      | some seg => .ok seg

/-- The first loop of `kfio_sgl_dma_slice`, entered with the index `i`: skip the segments that end
at or before `offset`. -/
def sliceFirstLoop (fsg : FreebsdSgl) :
    Nat → UInt32 → UInt32 → KfioDmaMap → Except Fault (UInt32 × KfioDmaMap)
  | 0, _, _, _ => .error .diverges
  | fuel + 1, i, offset, dmap =>
      if i < fsg.segNum.toUInt32 then do
        let seg ← readSeg fsg.segPtr i.toNat
        if offset.toUInt64 < seg.dsLen then
          -- what the map held before is overwritten
          .ok (i, { dmap with
            segFirst := some i.toNat
            segLast := some i.toNat
            mapLength := (seg.dsLen - offset.toUInt64).toUInt32
            segSkip := offset
            segCount := 1 })
        else sliceFirstLoop fsg fuel (i + 1) (offset.toUInt64 - seg.dsLen).toUInt32 dmap
      else .ok (i, dmap)

/-- The second loop of `kfio_sgl_dma_slice`: take segments until `length` bytes are covered.  In the
last turn `seg` is one past the array; it is not read, because the bytes are covered then. -/
def sliceLastLoop (fsg : FreebsdSgl) (length : UInt32) :
    Nat → UInt32 → KfioDmaMap → Except Fault KfioDmaMap
  | 0, _, _ => .error .diverges
  | fuel + 1, i, dmap =>
      if i ≤ fsg.segNum.toUInt32 then
        if dmap.mapLength ≥ length then
          .ok { dmap with
            segTrunc := dmap.mapLength - length
            mapLength := dmap.mapLength - (dmap.mapLength - length) }
        else do
          kassert (i < fsg.segNum.toUInt32)
          let seg ← readSeg fsg.segPtr i.toNat
          sliceLastLoop fsg length fuel (i + 1) { dmap with
            mapLength := (dmap.mapLength.toUInt64 + seg.dsLen).toUInt32
            segLast := some i.toNat
            segCount := dmap.segCount + 1 }
      else .ok dmap

def kfioSglDmaSlice (fsg : FreebsdSgl) (dmap : KfioDmaMap) (offset length : UInt32) :
    Except Fault (Int32 × KfioDmaMap) := do
  -- both loops go through the segments at most once
  let fuel := fsg.segNum.toUInt32.toNat + 1
  let (i, dmap) ← sliceFirstLoop fsg fuel 0 offset { dmap with mapOffset := offset }
  kassert (i < fsg.segNum.toUInt32)
  kassert (dmap.segFirst ≠ none)
  let dmap ← sliceLastLoop fsg length fuel (i + 1) dmap
  .ok (0, dmap)

def kfioDmaMapNvecs (dmap : KfioDmaMap) : Int32 := dmap.segCount.toInt32

def kfioDmaMapSize (dmap : KfioDmaMap) : UInt32 := dmap.mapLength

/-- `kfio_dma_map_first`, over the segment array that the pointers of `dmap` point into; the answer
is the iterator and what is stored in `*segp`. -/
def kfioDmaMapFirst (segPtr : Option (List BusDmaSegment)) (dmap : KfioDmaMap) :
    Except Fault (Option (Nat × KfioSglPhys)) :=
  match dmap.segFirst with
  | none => .ok none
  | some i => do
      let seg ← readSeg segPtr i
      let len := (seg.dsLen - dmap.segSkip.toUInt64).toUInt32
      -- the first piece may be the last one too
      let len := if some i = dmap.segLast then len - dmap.segTrunc else len
      .ok (some (i, ⟨seg.dsAddr + dmap.segSkip.toUInt64, len⟩))

/-- The order of segment pointers as addresses; `NULL` is below every segment. -/
def segRank : SegPtr → Nat
  | none => 0
  | some i => i + 1

def kfioDmaMapNext (segPtr : Option (List BusDmaSegment)) (dmap : KfioDmaMap) (iter : Nat) :
    Except Fault (Option (Nat × KfioSglPhys)) :=
  if segRank dmap.segFirst ≤ segRank (some iter) ∧
      segRank (some iter) < segRank dmap.segLast then do
    let seg ← readSeg segPtr (iter + 1)
    let len := seg.dsLen.toUInt32
    let len := if some (iter + 1) = dmap.segLast then len - dmap.segTrunc else len
    .ok (some (iter + 1, ⟨seg.dsAddr, len⟩))
  else .ok none

/-- A caller's loop of `kfio_dma_map_next` calls, until `NULL`. -/
def dmaMapWalk (segPtr : Option (List BusDmaSegment)) (dmap : KfioDmaMap) :
    Nat → Nat → Except Fault (List KfioSglPhys)
  | 0, _ => .error .diverges
  | fuel + 1, iter => do
      match ← kfioDmaMapNext segPtr dmap iter with
      | none => .ok []
      | some (iter, seg) =>
          let segs ← dmaMapWalk segPtr dmap fuel iter
          .ok (seg :: segs)

/-- All the pieces of a map: `kfio_dma_map_first`, then `kfio_dma_map_next` at most `fuel` times. -/
def dmaMapPieces (segPtr : Option (List BusDmaSegment)) (dmap : KfioDmaMap) (fuel : Nat) :
    Except Fault (List KfioSglPhys) := do
  match ← kfioDmaMapFirst segPtr dmap with
  | none => .ok []
  | some (iter, seg) =>
      let segs ← dmaMapWalk segPtr dmap fuel iter
      .ok (seg :: segs)

/-! ## The bytes of a list and of its pieces -/

/-- Bus addresses are 64 bits wide. -/
def busShift (a : UInt64) (k : ℕ) : UInt64 := a + UInt64.ofNat k

theorem busShift_busShift (a : UInt64) (j k : ℕ) :
    busShift (busShift a j) k = busShift a (j + k) := by
  simp only [busShift, UInt64.ofNat_add, UInt64.add_assoc]

def BusDmaSegment.extent (seg : BusDmaSegment) : Extent UInt64 := ⟨seg.dsAddr, seg.dsLen.toNat⟩

def KfioSglPhys.extent (seg : KfioSglPhys) : Extent UInt64 := ⟨seg.addr, seg.len.toNat⟩

/-- The physical byte addresses of a list of segments, in order. -/
def segBytes (segs : List BusDmaSegment) : List UInt64 :=
  Extent.cellsOf busShift (segs.map BusDmaSegment.extent)

/-- The physical byte addresses of a list of pieces, in order. -/
def physBytes (segs : List KfioSglPhys) : List UInt64 :=
  Extent.cellsOf busShift (segs.map KfioSglPhys.extent)

/-- The number of bytes of a list of segments. -/
def segTotal (segs : List BusDmaSegment) : ℕ := Extent.total (segs.map BusDmaSegment.extent)

@[simp]
theorem segTotal_nil : segTotal [] = 0 := rfl

@[simp]
theorem segTotal_cons (seg : BusDmaSegment) (segs : List BusDmaSegment) :
    segTotal (seg :: segs) = seg.dsLen.toNat + segTotal segs := by
  simp [segTotal, BusDmaSegment.extent]

@[simp]
theorem segTotal_append (segs segs' : List BusDmaSegment) :
    segTotal (segs ++ segs') = segTotal segs + segTotal segs' := by
  simp [segTotal]

theorem dsLen_le_segTotal {taken : List BusDmaSegment} {seg : BusDmaSegment} (hseg : seg ∈ taken) :
    seg.dsLen.toNat ≤ segTotal taken :=
  List.le_sum_of_mem (List.mem_map_of_mem (List.mem_map_of_mem hseg))

/-- A list that busdma has loaded: its segments are not empty and cover the recorded bytes. -/
structure Mapped (fsg : FreebsdSgl) (segs : List BusDmaSegment) : Prop where
  segPtr : fsg.segPtr = some segs
  segNum : fsg.segNum.toInt = segs.length
  nonempty : segs ≠ []
  pos : ∀ seg ∈ segs, 0 < seg.dsLen
  total : segTotal segs = fsg.uioSize.toNat

theorem int32_toUInt32_toNat {x : Int32} {n : ℕ} (h : x.toInt = n) : x.toUInt32.toNat = n := by
  rw [Int32.toNat_toUInt32_of_le (by rw [Int32.le_iff_toInt_le, h]; simp)]
  change x.toInt.toNat = n
  rw [h, Int.toNat_natCast]

theorem uint64_toUInt32_toNat {x : UInt64} (h : x.toNat < 2 ^ 32) : x.toUInt32.toNat = x.toNat := by
  rw [UInt64.toNat_toUInt32, Nat.mod_eq_of_lt h]

/-- A difference that is taken in 64 bits and fits 32. -/
theorem sub_toUInt32_toNat {x y : UInt64} (hle : y.toNat ≤ x.toNat)
    (hfits : x.toNat - y.toNat < 2 ^ 32) : (x - y).toUInt32.toNat = x.toNat - y.toNat := by
  have hsub := UInt64.toNat_sub_of_le x y (UInt64.le_iff_toNat_le.mpr hle)
  rw [uint64_toUInt32_toNat (by omega), hsub]

/-- The bytes of a segment behind those that are skipped. -/
theorem sub_skip_toNat {seg : BusDmaSegment} {skip : UInt32} (hskip : skip.toNat ≤ seg.dsLen.toNat)
    (hfits : seg.dsLen.toNat - skip.toNat < 2 ^ 32) :
    (seg.dsLen - skip.toUInt64).toUInt32.toNat = seg.dsLen.toNat - skip.toNat := by
  rw [← UInt32.toNat_toUInt64] at hskip hfits
  rw [sub_toUInt32_toNat hskip hfits, UInt32.toNat_toUInt64]

theorem Mapped.segNum_toNat {fsg : FreebsdSgl} {segs : List BusDmaSegment} (h : Mapped fsg segs) :
    fsg.segNum.toUInt32.toNat = segs.length :=
  int32_toUInt32_toNat h.segNum

theorem readSeg_append (pre post : List BusDmaSegment) (seg : BusDmaSegment) :
    readSeg (some (pre ++ seg :: post)) pre.length = .ok seg := by
  simp [readSeg]

/-! ## The two loops of a slice -/

/-- The next index of a loop over the segment array does not wrap. -/
theorem succ_toNat {fsg : FreebsdSgl} {pre rest : List BusDmaSegment} {seg : BusDmaSegment}
    (hnum : fsg.segNum.toUInt32.toNat = (pre ++ seg :: rest).length) {i : UInt32}
    (hi : i.toNat = pre.length) : (i + 1).toNat = (pre ++ [seg]).length := by
  have hb := fsg.segNum.toUInt32.toNat_lt
  rw [hnum, List.length_append, List.length_cons] at hb
  rw [UInt32.toNat_add, hi, List.length_append]
  simp only [UInt32.reduceToNat, List.length_singleton]
  omega

/-- A loop over the segment array is at one of its elements while some are left. -/
theorem index_within {fsg : FreebsdSgl} {pre rest : List BusDmaSegment} {seg : BusDmaSegment}
    (hptr : fsg.segPtr = some (pre ++ seg :: rest))
    (hnum : fsg.segNum.toUInt32.toNat = (pre ++ seg :: rest).length) {i : UInt32}
    (hi : i.toNat = pre.length) :
    i < fsg.segNum.toUInt32 ∧ readSeg fsg.segPtr i.toNat = .ok seg := by
  rw [UInt32.lt_iff_toNat_lt, hnum, hptr, hi]
  exact ⟨by simp, readSeg_append pre rest seg⟩

/-- The first loop stops at the segment that holds the byte number `offset`. -/
theorem sliceFirstLoop_spec {fsg : FreebsdSgl} (pre : List BusDmaSegment)
    {rest : List BusDmaSegment} (hptr : fsg.segPtr = some (pre ++ rest))
    (hnum : fsg.segNum.toUInt32.toNat = (pre ++ rest).length)
    {fuel : ℕ} {i offset : UInt32} (hi : i.toNat = pre.length)
    (hoff : offset.toNat < segTotal rest) (hfuel : rest.length < fuel) :
    ∃ mid seg post skip j, rest = mid ++ seg :: post ∧
      offset.toNat = segTotal mid + skip.toNat ∧ skip.toNat < seg.dsLen.toNat ∧
      j.toNat = (pre ++ mid).length ∧
      ∀ dmap, sliceFirstLoop fsg fuel i offset dmap = .ok (j, { dmap with
        segFirst := some j.toNat
        segLast := some j.toNat
        mapLength := (seg.dsLen - skip.toUInt64).toUInt32
        segSkip := skip
        segCount := 1 }) := by
  induction rest generalizing pre fuel i offset with
  | nil => simp at hoff
  | cons seg rest ih =>
      obtain ⟨fuel, rfl⟩ : ∃ n, fuel = n + 1 := ⟨fuel - 1, by omega⟩
      obtain ⟨hlt, hread⟩ := index_within hptr hnum hi
      -- the induction is on the segments not yet looked at; the offset counts from their first
      by_cases hin : offset.toUInt64 < seg.dsLen
      · refine ⟨[], seg, rest, offset, i, rfl, by simp, ?_, by simpa using hi, fun dmap ↦ ?_⟩
        · simpa [UInt64.lt_iff_toNat_lt] using hin
        · rw [sliceFirstLoop, if_pos hlt, hread]
          simp only [bind, Except.bind, if_pos hin]
      · -- the segment ends at or before the offset
        have hle : seg.dsLen.toNat ≤ offset.toNat := by
          simpa [UInt64.lt_iff_toNat_lt] using hin
        have hsub : (offset.toUInt64 - seg.dsLen).toUInt32.toNat
            = offset.toNat - seg.dsLen.toNat := by
          have hlt := offset.toNat_lt
          rw [sub_toUInt32_toNat (by simpa using hle) (by rw [UInt32.toNat_toUInt64]; omega),
            UInt32.toNat_toUInt64]
        rw [segTotal_cons] at hoff
        obtain ⟨mid, s, post, skip, j, hrest, hsum, hskip, hj, heq⟩ :=
          ih (pre ++ [seg]) (by simpa using hptr) (by simpa using hnum)
            (succ_toNat hnum hi) (by rw [hsub]; omega) (by simpa using hfuel)
        refine ⟨seg :: mid, s, post, skip, j, by rw [hrest]; rfl, ?_, hskip, by simpa using hj,
          fun dmap ↦ ?_⟩
        · rw [segTotal_cons]
          omega
        · rw [sliceFirstLoop, if_pos hlt, hread]
          simp only [bind, Except.bind, if_neg hin]
          exact heq dmap

/-- What the second loop does when `covered` bytes lie before the segments `rest`: it takes the
segments `taken`, the last of which reaches the byte number `length`, and records the overlap. -/
def TakesUpTo (fsg : FreebsdSgl) (done rest : List BusDmaSegment) (fuel : ℕ)
    (i length covered : UInt32) : Prop :=
  ∃ taken post trunc, rest = taken ++ post ∧
    covered.toNat + segTotal taken = length.toNat + trunc.toNat ∧
    (taken ≠ [] → covered.toNat + segTotal taken.dropLast < length.toNat) ∧
    ∀ dmap, dmap.mapLength = covered → dmap.segLast = some (done.length - 1) →
      sliceLastLoop fsg length fuel i dmap = .ok { dmap with
        segTrunc := trunc
        mapLength := length
        segLast := some (done.length + taken.length - 1)
        segCount := dmap.segCount + UInt32.ofNat taken.length }

/-- A turn that finds enough bytes covered ends the loop and reads no segment. -/
theorem sliceLastLoop_covered {fsg : FreebsdSgl} {done rest : List BusDmaSegment} {fuel : ℕ}
    {i length covered : UInt32} (hi : i.toNat ≤ fsg.segNum.toUInt32.toNat)
    (hge : length ≤ covered) : TakesUpTo fsg done rest (fuel + 1) i length covered := by
  have hle := UInt32.le_iff_toNat_le.mp hge
  have hsub := UInt32.toNat_sub_of_le _ _ hge
  have hback : covered - (covered - length) = length := by
    apply UInt32.toNat_inj.mp
    rw [UInt32.toNat_sub_of_le _ _ (by rw [UInt32.le_iff_toNat_le, hsub]; omega), hsub]
    omega
  refine ⟨[], rest, covered - length, rfl, ?_, by simp, fun dmap hcov hlast ↦ ?_⟩
  · rw [hsub, segTotal_nil]
    omega
  · subst hcov
    rw [sliceLastLoop, if_pos (UInt32.le_iff_toNat_le.mpr hi), if_pos hge, hback]
    simp [← hlast]

theorem sliceLastLoop_spec {fsg : FreebsdSgl} (done : List BusDmaSegment)
    {rest : List BusDmaSegment} (hptr : fsg.segPtr = some (done ++ rest))
    (hnum : fsg.segNum.toUInt32.toNat = (done ++ rest).length)
    {fuel : ℕ} {i length : UInt32} (covered : UInt32) (hi : i.toNat = done.length)
    (hlen : length.toNat ≤ covered.toNat + segTotal rest)
    (hfit : covered.toNat + segTotal rest < 2 ^ 32) (hfuel : rest.length < fuel) :
    TakesUpTo fsg done rest fuel i length covered := by
  have hile : i.toNat ≤ fsg.segNum.toUInt32.toNat := by
    rw [hnum, hi]
    simp
  obtain ⟨fuel, rfl⟩ : ∃ n, fuel = n + 1 := ⟨fuel - 1, by omega⟩
  induction rest generalizing done fuel i covered with
  | nil =>
      apply sliceLastLoop_covered hile
      rw [UInt32.le_iff_toNat_le]
      simpa using hlen
  | cons seg rest ih =>
      by_cases hge : length ≤ covered
      · exact sliceLastLoop_covered hile hge
      · obtain ⟨fuel, rfl⟩ : ∃ n, fuel = n + 1 :=
          ⟨fuel - 1, by simp only [List.length_cons] at hfuel; omega⟩
        obtain ⟨hlt, hread⟩ := index_within hptr hnum hi
        have hmore : covered.toNat < length.toNat := by
          simpa [UInt32.le_iff_toNat_le] using hge
        rw [segTotal_cons] at hlen hfit
        -- the bytes covered so far stay below the size of the list, so the sum does not wrap
        have hadd : (covered.toUInt64 + seg.dsLen).toUInt32.toNat =
            covered.toNat + seg.dsLen.toNat := by
          have hsum : (covered.toUInt64 + seg.dsLen).toNat = covered.toNat + seg.dsLen.toNat := by
            rw [UInt64.toNat_add, UInt32.toNat_toUInt64, Nat.mod_eq_of_lt (by omega)]
          rw [uint64_toUInt32_toNat (by omega), hsum]
        have hnext := succ_toNat hnum hi
        obtain ⟨taken, post, trunc, hrest, hsum, hshort, heq⟩ :=
          ih (done ++ [seg]) (by simpa using hptr) (by simpa using hnum)
            (covered.toUInt64 + seg.dsLen).toUInt32 hnext (by rw [hadd]; omega)
            (by rw [hadd]; omega) (by rw [hnext, hnum]; simp) fuel (by simpa using hfuel)
        rw [hadd] at hsum hshort
        refine ⟨seg :: taken, post, trunc, by rw [hrest]; rfl, ?_, fun _ ↦ ?_,
          fun dmap hcov hlast ↦ ?_⟩
        · rw [segTotal_cons]
          omega
        · -- without the last segment taken, too little is covered: `seg` was needed
          cases taken with
          | nil => simpa using hmore
          | cons t ts =>
              have := hshort (List.cons_ne_nil t ts)
              rw [List.dropLast_cons_cons, segTotal_cons]
              omega
        · subst hcov
          rw [sliceLastLoop, if_pos (UInt32.le_iff_toNat_le.mpr hile), if_neg hge, hread]
          simp only [kassert, if_pos hlt, bind, Except.bind]
          rw [heq _ rfl (by simp [hi])]
          simp only [List.length_append, List.length_cons, List.length_nil, Nat.zero_add,
            UInt32.ofNat_add, UInt32.reduceOfNat, Except.ok.injEq, KfioDmaMap.mk.injEq, true_and,
            Option.some.injEq]
          refine ⟨?_, by omega⟩
          rw [UInt32.add_assoc, UInt32.add_comm 1]

/-! ## Enumerating the pieces -/

theorem extent_whole {seg : BusDmaSegment} (h : seg.dsLen.toNat < 2 ^ 32) :
    (KfioSglPhys.mk seg.dsAddr seg.dsLen.toUInt32).extent = seg.extent := by
  simp only [KfioSglPhys.extent, BusDmaSegment.extent, uint64_toUInt32_toNat h]

theorem extent_cutBack (p : KfioSglPhys) {trunc : UInt32} (h : trunc.toNat ≤ p.len.toNat) :
    (KfioSglPhys.mk p.addr (p.len - trunc)).extent = p.extent.cutBack trunc.toNat := by
  simp only [KfioSglPhys.extent, Extent.cutBack,
    UInt32.toNat_sub_of_le _ _ (UInt32.le_iff_toNat_le.mpr h)]

theorem extent_skipFront {seg : BusDmaSegment} {skip : UInt32} (h : seg.dsLen.toNat < 2 ^ 32)
    (hskip : skip.toNat ≤ seg.dsLen.toNat) :
    (KfioSglPhys.mk (seg.dsAddr + skip.toUInt64) (seg.dsLen - skip.toUInt64).toUInt32).extent =
      seg.extent.skipFront busShift skip.toNat := by
  have hsub := sub_skip_toNat hskip (by omega)
  have hofNat : UInt64.ofNat skip.toNat = skip.toUInt64 := by
    rw [← UInt32.toNat_toUInt64, UInt64.ofNat_toNat]
  simp only [KfioSglPhys.extent, BusDmaSegment.extent, Extent.skipFront, busShift, hsub, hofNat]

/-- `kfio_dma_map_next` yields the segments `rest` up to the last one of the map, which is cut. -/
theorem dmaMapWalk_eq {segPtr : Option (List BusDmaSegment)} (done : List BusDmaSegment)
    {rest post : List BusDmaSegment} {dmap : KfioDmaMap}
    (hptr : segPtr = some (done ++ rest ++ post)) {iter : ℕ} (hiter : iter + 1 = done.length)
    (hfirst : segRank dmap.segFirst ≤ iter + 1)
    (hlast : dmap.segLast = some (done.length + rest.length - 1))
    (hlen : ∀ seg ∈ rest, seg.dsLen.toNat < 2 ^ 32)
    (htrunc : ∀ seg, rest.getLast? = some seg → dmap.segTrunc.toNat ≤ seg.dsLen.toNat) :
    ∃ pieces, pieces.map KfioSglPhys.extent =
        Extent.cutLast dmap.segTrunc.toNat (rest.map BusDmaSegment.extent) ∧
      ∀ fuel, rest.length < fuel → dmaMapWalk segPtr dmap fuel iter = .ok pieces := by
  induction rest generalizing done iter with
  | nil =>
      refine ⟨[], rfl, fun fuel hfuel ↦ ?_⟩
      obtain ⟨fuel, rfl⟩ : ∃ n, fuel = n + 1 := ⟨fuel - 1, by omega⟩
      have hend : ¬ segRank (some iter) < segRank dmap.segLast := by
        rw [hlast]
        simp only [segRank, List.length_nil]
        omega
      rw [dmaMapWalk, kfioDmaMapNext, if_neg (fun h ↦ hend h.2)]
      rfl
  | cons seg rest ih =>
      have hin : segRank dmap.segFirst ≤ segRank (some iter) ∧
          segRank (some iter) < segRank dmap.segLast := by
        rw [hlast]
        simp only [segRank, List.length_cons]
        exact ⟨hfirst, by omega⟩
      have hread : readSeg segPtr (iter + 1) = .ok seg := by
        rw [hptr, hiter, List.append_assoc, List.cons_append, readSeg_append]
      have hseg := hlen seg List.mem_cons_self
      have htail : ∀ s, rest.getLast? = some s → dmap.segTrunc.toNat ≤ s.dsLen.toNat := by
        intro s hs
        apply htrunc s
        rw [List.getLast?_cons, hs]
        rfl
      obtain ⟨pieces, hext, hwalk⟩ := ih (done ++ [seg])
        (by simpa using hptr) (show iter + 1 + 1 = _ by simp [hiter]) (by omega)
        (by rw [hlast]; simp [Nat.add_assoc, Nat.add_comm 1])
        (fun s hs ↦ hlen s (List.mem_cons_of_mem _ hs)) htail
      refine ⟨⟨seg.dsAddr, if some (iter + 1) = dmap.segLast then seg.dsLen.toUInt32 - dmap.segTrunc
        else seg.dsLen.toUInt32⟩ :: pieces, ?_, fun fuel hfuel ↦ ?_⟩
      · rw [List.map_cons, hext]
        -- the piece is cut when nothing is left behind it
        cases rest with
        | nil =>
            have hcut := htrunc seg rfl
            rw [if_pos (by rw [hlast]; simp [hiter])]
            simp only [List.map_nil, List.map_cons, Extent.cutLast]
            rw [← extent_whole hseg]
            congr 1
            exact extent_cutBack ⟨seg.dsAddr, seg.dsLen.toUInt32⟩ (by
              rwa [uint64_toUInt32_toNat hseg])
        | cons t ts =>
            rw [if_neg (by rw [hlast]; simp [hiter]), extent_whole hseg]
            rfl
      · obtain ⟨fuel, rfl⟩ : ∃ n, fuel = n + 1 := ⟨fuel - 1, by omega⟩
        rw [dmaMapWalk, kfioDmaMapNext, if_pos hin, hread]
        simp only [bind, Except.bind]
        rw [hwalk fuel (by simpa using hfuel)]

/-- Enumerating a map from its first to its last segment gives the window between them. -/
theorem dmaMapPieces_eq (pre taken post : List BusDmaSegment) {seg : BusDmaSegment}
    {dmap : KfioDmaMap} (hfirst : dmap.segFirst = some pre.length)
    (hlast : dmap.segLast = some (pre.length + taken.length))
    (hlen : ∀ s ∈ seg :: taken, s.dsLen.toNat < 2 ^ 32)
    (hskip : dmap.segSkip.toNat ≤ seg.dsLen.toNat)
    (hsingle : taken = [] → dmap.segSkip.toNat + dmap.segTrunc.toNat ≤ seg.dsLen.toNat)
    (htrunc : ∀ s, taken.getLast? = some s → dmap.segTrunc.toNat ≤ s.dsLen.toNat) :
    ∃ pieces, pieces.map KfioSglPhys.extent =
        Extent.window busShift dmap.segSkip.toNat dmap.segTrunc.toNat seg.extent
          (taken.map BusDmaSegment.extent) ∧
      ∀ fuel, taken.length < fuel →
        dmaMapPieces (some (pre ++ seg :: taken ++ post)) dmap fuel = .ok pieces := by
  obtain ⟨pieces, hext, hwalk⟩ := dmaMapWalk_eq (pre ++ [seg])
    (show some (pre ++ seg :: taken ++ post) = some (pre ++ [seg] ++ taken ++ post) by simp)
    (show pre.length + 1 = _ by simp) (by rw [hfirst]; simp [segRank])
    (by rw [hlast]; simp [Nat.add_right_comm]) (fun s hs ↦ hlen s (List.mem_cons_of_mem _ hs))
    htrunc
  have hseg := hlen seg List.mem_cons_self
  have hread : readSeg (some (pre ++ seg :: taken ++ post)) pre.length = .ok seg := by
    rw [List.append_assoc, List.cons_append, readSeg_append]
  refine ⟨⟨seg.dsAddr + dmap.segSkip.toUInt64, if some pre.length = dmap.segLast
    then (seg.dsLen - dmap.segSkip.toUInt64).toUInt32 - dmap.segTrunc
    else (seg.dsLen - dmap.segSkip.toUInt64).toUInt32⟩ :: pieces, ?_, fun fuel hfuel ↦ ?_⟩
  · rw [List.map_cons, hext, Extent.window]
    -- skip and cut meet in the first piece when it is the only one
    cases taken with
    | nil =>
        have hcut := hsingle rfl
        rw [if_pos (by rw [hlast]; simp)]
        simp only [List.map_nil, Extent.cutLast]
        rw [← extent_skipFront hseg hskip]
        congr 1
        refine extent_cutBack ⟨seg.dsAddr + dmap.segSkip.toUInt64,
          (seg.dsLen - dmap.segSkip.toUInt64).toUInt32⟩ ?_
        have hsize := congrArg Extent.size (extent_skipFront hseg hskip)
        simp only [KfioSglPhys.extent, Extent.skipFront, BusDmaSegment.extent] at hsize
        rw [hsize]
        omega
    | cons t ts =>
        rw [if_neg (by rw [hlast]; simp), extent_skipFront hseg hskip]
        rfl
  · rw [dmaMapPieces, kfioDmaMapFirst, hfirst]
    simp only [hread, bind, Except.bind]
    rw [hwalk fuel hfuel]

/-! ## A slice describes exactly its bytes -/

/-- The map that a slice fills in, whatever was in it before. -/
theorem kfioSglDmaSlice_eq {fsg : FreebsdSgl} {segs : List BusDmaSegment} (h : Mapped fsg segs)
    {offset length : UInt32} (hoff : offset.toNat < fsg.uioSize.toNat)
    (hlen : offset.toNat + length.toNat ≤ fsg.uioSize.toNat) :
    ∃ pre seg taken post skip trunc, segs = pre ++ seg :: taken ++ post ∧
      offset.toNat = segTotal pre + skip.toNat ∧ skip.toNat < seg.dsLen.toNat ∧
      skip.toNat + trunc.toNat + length.toNat = seg.dsLen.toNat + segTotal taken ∧
      (taken ≠ [] → seg.dsLen.toNat + segTotal taken.dropLast < skip.toNat + length.toNat) ∧
      ∀ dmap, kfioSglDmaSlice fsg dmap offset length = .ok (0, {
        mapOffset := offset
        mapLength := length
        segCount := 1 + UInt32.ofNat taken.length
        segSkip := skip
        segTrunc := trunc
        segFirst := some pre.length
        segLast := some (pre.length + taken.length) }) := by
  have hsize := fsg.uioSize.toNat_lt
  rw [← h.total] at hoff hlen hsize
  obtain ⟨pre, seg, rest, skip, j, hsegs, hsum, hskip, hj, hfirst⟩ :=
    sliceFirstLoop_spec [] h.segPtr h.segNum_toNat (i := 0) rfl hoff
      (Nat.lt_succ_of_le (Nat.le_of_eq h.segNum_toNat.symm))
  subst hsegs
  simp only [segTotal_append, segTotal_cons] at hoff hlen hsize
  have hcov := sub_skip_toNat hskip.le (by omega)
  have hjlt : j < fsg.segNum.toUInt32 := by
    rw [UInt32.lt_iff_toNat_lt, h.segNum_toNat, hj]
    simp
  -- the second loop starts with the bytes of the first segment covered, less those skipped
  obtain ⟨taken, post, trunc, hrest, hcut, hshort, hlast⟩ :=
    sliceLastLoop_spec (pre ++ [seg])
      (show fsg.segPtr = some (pre ++ [seg] ++ rest) by rw [h.segPtr]; simp)
      (by rw [h.segNum_toNat]; simp) (seg.dsLen - skip.toUInt64).toUInt32
      (succ_toNat (by rw [h.segNum_toNat]) (by simpa using hj))
      (show length.toNat ≤ _ by rw [hcov]; omega) (by rw [hcov]; omega)
      (show rest.length < fsg.segNum.toUInt32.toNat + 1 by rw [h.segNum_toNat]; simp; omega)
  rw [hcov] at hcut hshort
  refine ⟨pre, seg, taken, post, skip, trunc, by rw [hrest]; simp, hsum, hskip, by omega,
    fun hne ↦ by have := hshort hne; omega, fun dmap ↦ ?_⟩
  have hjeq : j.toNat = pre.length := by simpa using hj
  simp only [kfioSglDmaSlice, hfirst, bind, Except.bind, kassert, if_pos hjlt]
  rw [if_pos (by simp), hlast _ rfl (by simp [hjeq])]
  simp [hjeq]

/-- A slice of a mapped list enumerates exactly the bytes `offset` to `offset + length - 1` of the
list, whatever the map held before, and reads no segment outside the list. -/
theorem kfioSglDmaSlice_bytes {fsg : FreebsdSgl} {segs : List BusDmaSegment} (h : Mapped fsg segs)
    {offset length : UInt32} (hoff : offset.toNat < fsg.uioSize.toNat)
    (hlen : offset.toNat + length.toNat ≤ fsg.uioSize.toNat) :
    ∃ dmap pieces, (∀ old, kfioSglDmaSlice fsg old offset length = .ok (0, dmap)) ∧
      (∀ fuel, segs.length ≤ fuel → dmaMapPieces fsg.segPtr dmap fuel = .ok pieces) ∧
      physBytes pieces = ((segBytes segs).drop offset.toNat).take length.toNat ∧
      kfioDmaMapSize dmap = length ∧ (kfioDmaMapNvecs dmap).toInt = pieces.length := by
  obtain ⟨pre, seg, taken, post, skip, trunc, hsegs, hsum, hskip, hcut, hshort, hslice⟩ :=
    kfioSglDmaSlice_eq h hoff hlen
  have hsize := fsg.uioSize.toNat_lt
  have hnum := h.segNum
  have htotal := h.total
  rw [hsegs] at htotal
  simp only [segTotal_append, segTotal_cons] at htotal
  -- no segment of the slice is longer than the list, so its length fits the 32 bits of a piece
  have hlong : ∀ s ∈ taken, s.dsLen.toNat ≤ segTotal taken := by
    intro s hs
    obtain ⟨as, bs, rfl⟩ := List.append_of_mem hs
    rw [segTotal_append, segTotal_cons]
    omega
  -- the loop stopped at the last segment it needed, so the cut lies inside that segment
  have htrunc : ∀ s, taken.getLast? = some s → trunc.toNat ≤ s.dsLen.toNat := by
    intro s hs
    obtain ⟨as, rfl⟩ := List.getLast?_eq_some_iff.mp hs
    have := hshort (by simp)
    simp only [List.dropLast_concat, segTotal_append, segTotal_cons, segTotal_nil] at this hcut
    omega
  have hlong' : ∀ s ∈ seg :: taken, s.dsLen.toNat < 2 ^ 32 := by
    intro s hs
    rcases List.mem_cons.mp hs with rfl | hs
    · omega
    · have := hlong s hs
      omega
  let dmap : KfioDmaMap := {
    mapOffset := offset
    mapLength := length
    segCount := 1 + UInt32.ofNat taken.length
    segSkip := skip
    segTrunc := trunc
    segFirst := some pre.length
    segLast := some (pre.length + taken.length) }
  obtain ⟨pieces, hext, hpieces⟩ := dmaMapPieces_eq pre taken post (show dmap.segFirst = _ from rfl)
    rfl hlong' hskip.le (by rintro rfl; simp only [segTotal_nil] at hcut; simp only [dmap]; omega)
    htrunc
  refine ⟨dmap, pieces, hslice, fun fuel hfuel ↦ ?_, ?_, rfl, ?_⟩
  · rw [h.segPtr, hsegs]
    apply hpieces
    rw [hsegs] at hfuel
    simp at hfuel
    omega
  · have hwin := Extent.cellsOf_window busShift busShift_busShift
      (pre.map BusDmaSegment.extent) (taken.map BusDmaSegment.extent)
      (post.map BusDmaSegment.extent) (show skip.toNat ≤ seg.extent.size from hskip.le) hcut ?_
    · rw [physBytes, hext, hwin, segBytes, hsegs, hsum]
      simp [segTotal]
    · rcases List.eq_nil_or_concat taken with rfl | ⟨as, l, rfl⟩
      · simp only [segTotal_nil] at hcut
        simp only [List.map_nil, List.getLast_singleton, Extent.skipFront, BusDmaSegment.extent]
        omega
      · simpa [BusDmaSegment.extent] using htrunc l (by simp)
  · have hcount : pieces.length = taken.length + 1 := by
      simpa [Extent.window] using congrArg List.length hext
    have hbound : taken.length + 1 < 2 ^ 31 := by
      have hmax := fsg.segNum.toInt_lt
      rw [hnum, hsegs] at hmax
      simp at hmax
      omega
    rw [kfioDmaMapNvecs, hcount]
    change (1 + UInt32.ofNat taken.length).toInt32.toInt = _
    rw [show (1 : UInt32) + UInt32.ofNat taken.length = UInt32.ofNat (taken.length + 1) by
      rw [UInt32.ofNat_add, UInt32.add_comm]; rfl]
    exact Int32.toInt_ofNat_of_lt hbound

/-- A list of twelve bytes that busdma loaded as a segment of four and one of eight bytes. -/
def twoSegmentSgl : FreebsdSgl where
  uioMax := 1
  uioNum := 1
  uioSize := 12
  uioTd := none
  uioSegflg := .sysspace
  segPtr := some [⟨0x1000, 4⟩, ⟨0x9000, 8⟩]
  segNum := 2
  dmaTag := some 1
  dmaMap := some 1
  uioVec := fun _ ↦ ⟨0x5000, 12⟩

theorem twoSegmentSgl_mapped : Mapped twoSegmentSgl [⟨0x1000, 4⟩, ⟨0x9000, 8⟩] where
  segPtr := rfl
  segNum := by decide
  nonempty := by decide
  pos := by decide
  total := by decide

/-- The slice of five bytes from byte two on begins in the first and ends in the second segment. -/
theorem kfioSglDmaSlice_bytes_twoSegmentSgl :
    ∃ dmap pieces, (∀ old, kfioSglDmaSlice twoSegmentSgl old 2 5 = .ok (0, dmap)) ∧
      (∀ fuel, 2 ≤ fuel → dmaMapPieces twoSegmentSgl.segPtr dmap fuel = .ok pieces) ∧
      physBytes pieces = [0x1002, 0x1003, 0x9000, 0x9001, 0x9002] ∧
      kfioDmaMapSize dmap = 5 ∧ (kfioDmaMapNvecs dmap).toInt = pieces.length :=
  kfioSglDmaSlice_bytes twoSegmentSgl_mapped (show (2 : UInt32).toNat < _ by decide)
    (show _ + (5 : UInt32).toNat ≤ _ by decide)

end IomemoryVsl.Kscatter
