import IomemoryVsl.Kscatter.Slice

/-!
# The map of a whole list

`kfio_sgl_dma_map` fills in a map of the whole list from closed forms, and `kfio_sgl_phys_first` and
`kfio_sgl_phys_next` enumerate the segments of a list without a map.  Both agree with what a slice
of all the bytes computes.
-/

namespace IomemoryVsl.Kscatter

/-- What `kfio_sgl_phys_first` and `kfio_sgl_phys_next` store in `*segp`. -/
def BusDmaSegment.phys (seg : BusDmaSegment) : KfioSglPhys := ⟨seg.dsAddr, seg.dsLen.toUInt32⟩

def kfioSglPhysFirst (fsg : FreebsdSgl) : Except Fault (Option (Nat × KfioSglPhys)) :=
  if fsg.segPtr ≠ none then do
    let seg ← readSeg fsg.segPtr 0
    .ok (some (0, seg.phys))
  else .ok none

/-- `kfio_sgl_phys_next`, with an iterator that points into the array. -/
def kfioSglPhysNext (fsg : FreebsdSgl) (iter : Nat) : Except Fault (Option (Nat × KfioSglPhys)) :=
  if fsg.segPtr ≠ none then
    -- the difference of the pointers is an index, and `seg_num` is signed
    if (iter : Int) + 1 < fsg.segNum.toInt then do
      let seg ← readSeg fsg.segPtr (iter + 1)
      .ok (some (iter + 1, seg.phys))
    else .ok none
  else .ok none

/-- A caller's loop of `kfio_sgl_phys_next` calls, until `NULL`. -/
def sglPhysWalk (fsg : FreebsdSgl) : Nat → Nat → Except Fault (List KfioSglPhys)
  | 0, _ => .error .diverges
  | fuel + 1, iter => do
      match ← kfioSglPhysNext fsg iter with
      | none => .ok []
      | some (iter, seg) =>
          let segs ← sglPhysWalk fsg fuel iter
          .ok (seg :: segs)

/-- All the segments of a list: `kfio_sgl_phys_first`, then `kfio_sgl_phys_next` at most `fuel`
times. -/
def sglPhysPieces (fsg : FreebsdSgl) (fuel : Nat) : Except Fault (List KfioSglPhys) := do
  match ← kfioSglPhysFirst fsg with
  | none => .ok []
  | some (iter, seg) =>
      let segs ← sglPhysWalk fsg fuel iter
      .ok (seg :: segs)

/-- busdma loads the list and calls back with segments that are not empty and hold its bytes. -/
structure BusLoad.Loads (load : BusLoad) (fsg : FreebsdSgl) : Prop where
  rc : load.rc = 0
  error : load.error = 0
  nsegs : load.nsegs.toInt = load.segs.length
  nonempty : load.segs ≠ []
  pos : ∀ seg ∈ load.segs, 0 < seg.dsLen
  total : segTotal load.segs = fsg.uioSize.toNat

theorem kfioSglDmaMap_loaded {load : BusLoad} {fsg : FreebsdSgl} (h : load.Loads fsg)
    (log : BusLog) (dmap : KfioDmaMap) (dir : Int32) :
    let fsg' := { fsg with segPtr := some load.segs, segNum := load.nsegs }
    (kfioSglDmaMap load log fsg (some dmap) dir).2.2 = (fsg', some (wholeDmaMap fsg')) ∧
      Mapped fsg' load.segs := by
  refine ⟨?_, rfl, h.nsegs, h.nonempty, h.pos, h.total⟩
  simp only [kfioSglDmaMap, fusionDmamapCallback, h.rc, h.error, ne_eq, not_true_eq_false,
    if_false, if_true, Option.map_some]

/-! ## A slice of all the bytes -/

variable {fsg : FreebsdSgl} {segs : List BusDmaSegment}

/-- Segments that hold no byte are none at all, as each of them holds one. -/
theorem segTotal_eq_zero (hpos : ∀ seg ∈ segs, 0 < seg.dsLen) (hzero : segTotal segs = 0) :
    segs = [] := by
  cases segs with
  | nil => rfl
  | cons seg segs =>
      have hseg := UInt64.lt_iff_toNat_lt.mp (hpos seg List.mem_cons_self)
      rw [segTotal_cons] at hzero
      simp only [UInt64.toNat_zero] at hseg
      omega

theorem Mapped.uioSize_pos (h : Mapped fsg segs) : 0 < fsg.uioSize.toNat := by
  rw [← h.total]
  exact Nat.pos_of_ne_zero fun hzero ↦ h.nonempty (segTotal_eq_zero h.pos hzero)

theorem kfioSglDmaSlice_whole (h : Mapped fsg segs) (dmap : KfioDmaMap) :
    kfioSglDmaSlice fsg dmap 0 fsg.uioSize = .ok (0, wholeDmaMap fsg) := by
  obtain ⟨pre, seg, taken, post, skip, trunc, hsegs, hsum, -, hcut, -, hslice⟩ :=
    kfioSglDmaSlice_eq h (show (0 : UInt32).toNat < _ from h.uioSize_pos)
      (show _ + fsg.uioSize.toNat ≤ _ by simp)
  have htotal := h.total
  have hpos := h.pos
  rw [hsegs] at htotal hpos
  simp only [segTotal_append, segTotal_cons] at htotal
  rw [UInt32.toNat_zero] at hsum
  -- nothing is left over in front of the slice or behind it
  have hpre : pre = [] := by
    refine segTotal_eq_zero (fun s hs ↦ hpos s ?_) (by omega)
    simp [hs]
  have hpost : post = [] := by
    refine segTotal_eq_zero (fun s hs ↦ hpos s ?_) (by omega)
    simp [hs]
  have hskip : skip = 0 := UInt32.toNat_inj.mp (show skip.toNat = 0 by omega)
  have htrunc : trunc = 0 := UInt32.toNat_inj.mp (show trunc.toNat = 0 by omega)
  subst hpre hpost hskip htrunc
  have hlength : segs.length = taken.length + 1 := by
    rw [hsegs]
    simp
  have hnum := h.segNum
  rw [hlength] at hnum
  have hcount : fsg.segNum.toUInt32 = 1 + UInt32.ofNat taken.length := by
    rw [UInt32.add_comm, show (1 : UInt32) = UInt32.ofNat 1 from rfl, ← UInt32.ofNat_add]
    apply UInt32.toNat_inj.mp
    rw [h.segNum_toNat, hlength, UInt32.toNat_ofNat_of_lt']
    have hlt := fsg.segNum.toUInt32.toNat_lt
    rw [h.segNum_toNat, hlength] at hlt
    exact hlt
  rw [hslice, wholeDmaMap, hcount, hnum]
  simp

/-! ## Two enumerations of one array -/

theorem kfioDmaMapFirst_whole (h : Mapped fsg segs) :
    kfioDmaMapFirst fsg.segPtr (wholeDmaMap fsg) = kfioSglPhysFirst fsg := by
  have hptr : fsg.segPtr ≠ none := by
    rw [h.segPtr]
    exact Option.some_ne_none segs
  unfold kfioDmaMapFirst kfioSglPhysFirst BusDmaSegment.phys
  rw [if_pos hptr]
  -- nothing is skipped and nothing is cut, also when the first segment is the last one
  simp [wholeDmaMap]

/-- The pointer range of the map and the index bound of the list end the walk at one segment. -/
theorem kfioDmaMapNext_whole (h : Mapped fsg segs) (iter : ℕ) :
    kfioDmaMapNext fsg.segPtr (wholeDmaMap fsg) iter = kfioSglPhysNext fsg iter := by
  have hptr : fsg.segPtr ≠ none := by
    rw [h.segPtr]
    exact Option.some_ne_none segs
  have hnonempty : 0 < segs.length := List.length_pos_of_ne_nil h.nonempty
  have hbound : (segRank (wholeDmaMap fsg).segFirst ≤ segRank (some iter) ∧
      segRank (some iter) < segRank (wholeDmaMap fsg).segLast) ↔
        (iter : Int) + 1 < fsg.segNum.toInt := by
    simp only [wholeDmaMap, segRank, h.segNum]
    omega
  unfold kfioDmaMapNext kfioSglPhysNext BusDmaSegment.phys
  rw [if_pos hptr]
  by_cases hin : (iter : Int) + 1 < fsg.segNum.toInt
  · rw [if_pos (hbound.mpr hin), if_pos hin]
    simp [wholeDmaMap]
  · rw [if_neg (fun hmap ↦ hin (hbound.mp hmap)), if_neg hin]

theorem dmaMapWalk_whole (h : Mapped fsg segs) (fuel iter : ℕ) :
    dmaMapWalk fsg.segPtr (wholeDmaMap fsg) fuel iter = sglPhysWalk fsg fuel iter := by
  induction fuel generalizing iter with
  | zero => rfl
  | succ fuel ih =>
      rw [dmaMapWalk, sglPhysWalk, kfioDmaMapNext_whole h]
      cases kfioSglPhysNext fsg iter with
      | error fault => rfl
      | ok piece =>
          cases piece with
          | none => rfl
          | some piece =>
              exact congrArg (fun walk ↦ walk >>= fun segs ↦ .ok (piece.2 :: segs)) (ih piece.1)

theorem dmaMapPieces_whole (h : Mapped fsg segs) (fuel : ℕ) :
    dmaMapPieces fsg.segPtr (wholeDmaMap fsg) fuel = sglPhysPieces fsg fuel := by
  rw [dmaMapPieces, sglPhysPieces, kfioDmaMapFirst_whole h]
  cases kfioSglPhysFirst fsg with
  | error fault => rfl
  | ok piece =>
      cases piece with
      | none => rfl
      | some piece =>
          exact congrArg (fun walk ↦ walk >>= fun segs ↦ .ok (piece.2 :: segs))
            (dmaMapWalk_whole h fuel piece.1)

/-- Walking the list yields the segments behind the iterator, and then `NULL`. -/
theorem sglPhysWalk_eq (done : List BusDmaSegment) {rest : List BusDmaSegment}
    (hptr : fsg.segPtr = some (done ++ rest)) (hnum : fsg.segNum.toInt = (done ++ rest).length)
    {iter fuel : ℕ} (hiter : iter + 1 = done.length) (hfuel : rest.length < fuel) :
    sglPhysWalk fsg fuel iter = .ok (rest.map BusDmaSegment.phys) := by
  have hsome : fsg.segPtr ≠ none := by
    rw [hptr]
    exact Option.some_ne_none _
  rw [List.length_append] at hnum
  obtain ⟨fuel, rfl⟩ : ∃ n, fuel = n + 1 := ⟨fuel - 1, by omega⟩
  induction rest generalizing done iter fuel with
  | nil =>
      rw [sglPhysWalk, kfioSglPhysNext, if_pos hsome, if_neg (by simp at hnum; omega)]
      rfl
  | cons seg rest ih =>
      have hread : readSeg fsg.segPtr (iter + 1) = .ok seg := by
        rw [hptr, hiter, readSeg_append]
      simp only [List.length_cons] at hnum hfuel
      obtain ⟨fuel, rfl⟩ : ∃ n, fuel = n + 1 := ⟨fuel - 1, by omega⟩
      have hlength : (done ++ [seg]).length = done.length + 1 := by simp
      have hrest := ih (done ++ [seg]) (by simpa using hptr) (by rw [hlength]; omega)
        (show iter + 1 + 1 = _ by rw [hlength, hiter]) fuel (by omega)
      rw [sglPhysWalk, kfioSglPhysNext, if_pos hsome, if_pos (by omega), hread]
      simp only [bind, Except.bind]
      rw [hrest]
      rfl

theorem sglPhysPieces_eq (h : Mapped fsg segs) {fuel : ℕ} (hfuel : segs.length ≤ fuel) :
    sglPhysPieces fsg fuel = .ok (segs.map BusDmaSegment.phys) := by
  cases segs with
  | nil => exact absurd rfl h.nonempty
  | cons seg rest =>
      have hread : readSeg fsg.segPtr 0 = .ok seg := by
        rw [h.segPtr]
        rfl
      have hwalk : sglPhysWalk fsg fuel 0 = .ok (rest.map BusDmaSegment.phys) :=
        sglPhysWalk_eq [seg] h.segPtr h.segNum rfl hfuel
      have hsome : fsg.segPtr ≠ none := by
        rw [h.segPtr]
        exact Option.some_ne_none _
      rw [sglPhysPieces, kfioSglPhysFirst, if_pos hsome, hread]
      simp only [bind, Except.bind]
      rw [hwalk]
      rfl

/-- The map that `kfio_sgl_dma_map` fills in is the slice of all the bytes, whatever either map held
before, and walking it visits the segments that walking the list visits. -/
theorem kfioSglDmaMap_eq_slice {load : BusLoad} (h : load.Loads fsg) (log : BusLog)
    (dmap : KfioDmaMap) (dir : Int32) :
    ∃ fsg' whole, (kfioSglDmaMap load log fsg (some dmap) dir).2.2 = (fsg', some whole) ∧
      (∀ old, kfioSglDmaSlice fsg' old 0 fsg'.uioSize = .ok (0, whole)) ∧
      kfioDmaMapFirst fsg'.segPtr whole = kfioSglPhysFirst fsg' ∧
      (∀ iter, kfioDmaMapNext fsg'.segPtr whole iter = kfioSglPhysNext fsg' iter) ∧
      ∀ fuel, load.segs.length ≤ fuel →
        dmaMapPieces fsg'.segPtr whole fuel = .ok (load.segs.map BusDmaSegment.phys) ∧
          sglPhysPieces fsg' fuel = .ok (load.segs.map BusDmaSegment.phys) := by
  obtain ⟨hmap, hmapped⟩ := kfioSglDmaMap_loaded h log dmap dir
  refine ⟨_, _, hmap, kfioSglDmaSlice_whole hmapped, kfioDmaMapFirst_whole hmapped,
    kfioDmaMapNext_whole hmapped, fun fuel hfuel ↦ ?_⟩
  have hpieces := sglPhysPieces_eq hmapped hfuel
  exact ⟨(dmaMapPieces_whole hmapped fuel).trans hpieces, hpieces⟩

/-- busdma loads twelve bytes as a segment of four and one of eight bytes. -/
def twoSegmentLoad : BusLoad := ⟨0, [⟨0x1000, 4⟩, ⟨0x9000, 8⟩], 2, 0⟩

theorem twoSegmentLoad_loads : twoSegmentLoad.Loads twoSegmentSgl where
  rc := rfl
  error := rfl
  nsegs := by decide
  nonempty := by decide
  pos := by decide
  total := by decide

theorem kfioSglDmaMap_eq_slice_twoSegmentLoad :
    ∃ fsg' whole,
      (kfioSglDmaMap twoSegmentLoad [] twoSegmentSgl (some ⟨7, 7, 7, 7, 7, none, none⟩)
        IODRIVE_DMA_DIR_READ).2.2 = (fsg', some whole) ∧
      (∀ old, kfioSglDmaSlice fsg' old 0 fsg'.uioSize = .ok (0, whole)) ∧
      kfioDmaMapFirst fsg'.segPtr whole = kfioSglPhysFirst fsg' ∧
      (∀ iter, kfioDmaMapNext fsg'.segPtr whole iter = kfioSglPhysNext fsg' iter) ∧
      ∀ fuel, 2 ≤ fuel →
        dmaMapPieces fsg'.segPtr whole fuel = .ok [⟨0x1000, 4⟩, ⟨0x9000, 8⟩] ∧
          sglPhysPieces fsg' fuel = .ok [⟨0x1000, 4⟩, ⟨0x9000, 8⟩] :=
  kfioSglDmaMap_eq_slice twoSegmentLoad_loads _ _ _

end IomemoryVsl.Kscatter
