import IomemoryVsl.Kscatter.Slice

/-!
# Slices that follow each other (`kscatter.c`)

A request is worked off in slices of its scatter list, one after the other and all in one map.
Together they are the list: no byte is left out or comes twice where one slice ends and the next
begins, and each cut costs at most one piece more than the list has segments.
-/

namespace IomemoryVsl.Kscatter

/-- A map as `kfio_dma_map_alloc` returns it. -/
def clearedDmaMap : KfioDmaMap where
  mapOffset := 0
  mapLength := 0
  segCount := 0
  segSkip := 0
  segTrunc := 0
  segFirst := none
  segLast := none

/-- The pieces of slices of the lengths `ls`, the first of which begins at `offset`; the map of one
slice is used for the next. -/
def slicePieces (fsg : FreebsdSgl) (fuel : ℕ) :
    KfioDmaMap → UInt32 → List UInt32 → Except Fault (List KfioSglPhys)
  | _, _, [] => .ok []
  | dmap, offset, l :: ls => do
      let (_, dmap) ← kfioSglDmaSlice fsg dmap offset l
      let pieces ← dmaMapPieces fsg.segPtr dmap fuel
      let rest ← slicePieces fsg fuel dmap (offset + l) ls
      .ok (pieces ++ rest)

/-- The bytes that slices of the lengths `ls` are long. -/
def sliceTotal (ls : List UInt32) : ℕ :=
  (ls.map UInt32.toNat).sum

variable {fsg : FreebsdSgl} {segs : List BusDmaSegment}

/-! ## The segments of one slice -/

theorem segTotal_take_mono (segs : List BusDmaSegment) {i j : ℕ} (h : i ≤ j) :
    segTotal (segs.take i) ≤ segTotal (segs.take j) := by
  obtain ⟨k, rfl⟩ := Nat.exists_eq_add_of_le h
  rw [List.take_add, segTotal_append]
  omega

/-- The pieces of a cut that begins in `seg` and takes all of `taken` but the end of the last. -/
theorem pieces_of_cut (h : Mapped fsg segs) {pre taken post : List BusDmaSegment}
    {seg : BusDmaSegment} {dmap : KfioDmaMap} {len : ℕ} (hsegs : segs = pre ++ seg :: taken ++ post)
    (hfirst : dmap.segFirst = some pre.length)
    (hlast : dmap.segLast = some (pre.length + taken.length))
    (hskip : dmap.segSkip.toNat < seg.dsLen.toNat)
    (hcut : dmap.segSkip.toNat + dmap.segTrunc.toNat + len = seg.dsLen.toNat + segTotal taken)
    (hshort : taken ≠ [] → seg.dsLen.toNat + segTotal taken.dropLast < dmap.segSkip.toNat + len) :
    ∃ pieces, (∀ fuel, segs.length ≤ fuel → dmaMapPieces fsg.segPtr dmap fuel = .ok pieces) ∧
      physBytes pieces =
        ((segBytes segs).drop (segTotal pre + dmap.segSkip.toNat)).take len ∧
      pieces.length = taken.length + 1 := by
  have hsmall : ∀ s ∈ seg :: taken, s.dsLen.toNat < 2 ^ 32 := by
    intro s hs
    have hmem : s ∈ segs := by
      rw [hsegs]
      exact List.mem_append_left post (List.mem_append_right pre hs)
    have hle := dsLen_le_segTotal hmem
    rw [h.total] at hle
    exact Nat.lt_of_le_of_lt hle fsg.uioSize.toNat_lt
  -- the cut at the end lies inside the last segment, because the segments before it are too short
  have htrunc : ∀ s, taken.getLast? = some s → dmap.segTrunc.toNat ≤ s.dsLen.toNat := by
    intro s hs
    obtain ⟨as, rfl⟩ := List.getLast?_eq_some_iff.mp hs
    have hbelow := hshort (by simp)
    rw [List.dropLast_concat] at hbelow
    rw [segTotal_append, segTotal_cons, segTotal_nil] at hcut
    omega
  have hsingle : taken = [] → dmap.segSkip.toNat + dmap.segTrunc.toNat ≤ seg.dsLen.toNat := by
    rintro rfl
    rw [segTotal_nil] at hcut
    omega
  obtain ⟨pieces, hext, hpieces⟩ :=
    dmaMapPieces_eq pre taken post hfirst hlast hsmall hskip.le hsingle htrunc
  refine ⟨pieces, ?_, ?_, ?_⟩
  · intro fuel hfuel
    have hlength : taken.length < segs.length := by
      rw [hsegs]
      simp only [List.length_append, List.length_cons]
      omega
    rw [h.segPtr, hsegs]
    exact hpieces fuel (by omega)
  · have hends : dmap.segTrunc.toNat ≤
        ((seg.extent.skipFront busShift dmap.segSkip.toNat :: taken.map BusDmaSegment.extent).getLast
          (List.cons_ne_nil _ _)).size := by
      rcases List.eq_nil_or_concat taken with rfl | ⟨as, l, rfl⟩
      · have hone := hsingle rfl
        simp only [List.map_nil, List.getLast_singleton, Extent.skipFront, BusDmaSegment.extent]
        omega
      · simpa [BusDmaSegment.extent] using htrunc l (by simp)
    have hwindow := Extent.cellsOf_window busShift busShift_busShift
      (pre.map BusDmaSegment.extent) (taken.map BusDmaSegment.extent)
      (post.map BusDmaSegment.extent) (show dmap.segSkip.toNat ≤ seg.extent.size from hskip.le)
      hcut hends
    rw [physBytes, hext, hwindow, segBytes, hsegs]
    simp [segTotal]
  · simpa [Extent.window] using congrArg List.length hext

/-- The segments `a` to `b` of the list, of which the first has the first byte of the slice, and the
last has its last. -/
structure Spans (segs : List BusDmaSegment) (offset length : ℕ) (a b : ℕ) : Prop where
  le : a ≤ b
  lt : b < segs.length
  first : offset < segTotal (segs.take (a + 1))
  last : segTotal (segs.take b) < offset + length

/-- A slice that is not empty has one piece for each segment it spans. -/
theorem kfioSglDmaSlice_spans (h : Mapped fsg segs) {offset length : UInt32} (hpos : 0 < length)
    (hlen : offset.toNat + length.toNat ≤ fsg.uioSize.toNat) :
    ∃ dmap pieces a b, (∀ old, kfioSglDmaSlice fsg old offset length = .ok (0, dmap)) ∧
      (∀ fuel, segs.length ≤ fuel → dmaMapPieces fsg.segPtr dmap fuel = .ok pieces) ∧
      physBytes pieces = ((segBytes segs).drop offset.toNat).take length.toNat ∧
      Spans segs offset.toNat length.toNat a b ∧ pieces.length = b - a + 1 := by
  have hlength : 0 < length.toNat := UInt32.lt_iff_toNat_lt.mp hpos
  have hoff : offset.toNat < fsg.uioSize.toNat := by omega
  obtain ⟨pre, seg, taken, post, skip, trunc, hsegs, hsum, hskip, hcut, hshort, hslice⟩ :=
    kfioSglDmaSlice_eq h hoff hlen
  let dmap : KfioDmaMap := {
    mapOffset := offset
    mapLength := length
    segCount := 1 + UInt32.ofNat taken.length
    segSkip := skip
    segTrunc := trunc
    segFirst := some pre.length
    segLast := some (pre.length + taken.length) }
  obtain ⟨pieces, hpieces, hbytes, hcount⟩ :=
    pieces_of_cut h hsegs (show dmap.segFirst = _ from rfl) rfl hskip hcut hshort
  rw [show segTotal pre + dmap.segSkip.toNat = offset.toNat from hsum.symm] at hbytes
  refine ⟨dmap, pieces, pre.length, pre.length + taken.length, hslice, hpieces, hbytes, ?_, ?_⟩
  · have hlast : pre.length + taken.length < segs.length := by
      rw [hsegs]
      simp only [List.length_append, List.length_cons]
      omega
    refine ⟨Nat.le_add_right _ _, hlast, ?_, ?_⟩
    · have htake : segs.take (pre.length + 1) = pre ++ [seg] := by
        rw [hsegs]
        simp [List.take_append]
      rw [htake, segTotal_append, segTotal_cons, segTotal_nil]
      omega
    · rcases List.eq_nil_or_concat taken with hnil | ⟨as, l, hconcat⟩
      · have htake : segs.take (pre.length + taken.length) = pre := by
          rw [hsegs, hnil]
          simp
        rw [htake]
        omega
      · have htake : segs.take (pre.length + taken.length) = pre ++ seg :: as := by
          rw [hsegs, hconcat]
          simp [List.take_append]
        have hbelow := hshort (by rw [hconcat]; simp)
        rw [hconcat, List.concat_eq_append, List.dropLast_concat] at hbelow
        rw [htake, segTotal_append, segTotal_cons]
        omega
  · omega

/-! ## All the slices -/

theorem sliceTotal_cons (l : UInt32) (ls : List UInt32) :
    sliceTotal (l :: ls) = l.toNat + sliceTotal ls := by
  unfold sliceTotal
  rw [List.map_cons, List.sum_cons]

/-- Slices from `offset` on, given a segment `a` that does not begin after it. -/
theorem slicePieces_from (h : Mapped fsg segs) {fuel : ℕ} (hfuel : segs.length ≤ fuel)
    {ls : List UInt32} (hpos : ∀ l ∈ ls, 0 < l) {offset : UInt32} (dmap : KfioDmaMap)
    (hsum : offset.toNat + sliceTotal ls ≤ fsg.uioSize.toNat) {a : ℕ} (ha : a < segs.length)
    (hbegin : segTotal (segs.take a) ≤ offset.toNat) :
    ∃ pieces, slicePieces fsg fuel dmap offset ls = .ok pieces ∧
      physBytes pieces = ((segBytes segs).drop offset.toNat).take (sliceTotal ls) ∧
      pieces.length + a < segs.length + ls.length := by
  induction ls generalizing offset dmap a with
  | nil =>
      refine ⟨[], rfl, ?_, ?_⟩
      · simp [physBytes, sliceTotal]
      · simpa using ha
  | cons l ls ih =>
      rw [sliceTotal_cons] at hsum ⊢
      have hl := hpos l List.mem_cons_self
      have hsize := fsg.uioSize.toNat_lt
      obtain ⟨dmap', pieces, b, c, hslice, hpieces, hbytes, hspans, hcount⟩ :=
        kfioSglDmaSlice_spans h hl (show offset.toNat + l.toNat ≤ _ by omega)
      have hnext : (offset + l).toNat = offset.toNat + l.toNat := by
        rw [UInt32.toNat_add, Nat.mod_eq_of_lt (by omega)]
      -- the next slice begins in the last segment of this one, or later
      have hcbegin : segTotal (segs.take c) ≤ (offset + l).toNat := by
        have hlast := hspans.last
        omega
      obtain ⟨rest, hrest, hrbytes, hrcount⟩ :=
        ih (fun k hk ↦ hpos k (List.mem_cons_of_mem l hk)) dmap'
          (show (offset + l).toNat + _ ≤ _ by omega) hspans.lt hcbegin
      refine ⟨pieces ++ rest, ?_, ?_, ?_⟩
      · simp only [slicePieces, hslice dmap, hpieces fuel hfuel, hrest, bind, Except.bind]
      · have hconcat : physBytes (pieces ++ rest) = physBytes pieces ++ physBytes rest := by
          simp [physBytes]
        rw [hconcat, hbytes, hrbytes, hnext, List.take_add, List.drop_drop]
      · -- the segment `a` lies before the first one of this slice
        have hab : a ≤ b := by
          by_contra hlt
          have hmono := segTotal_take_mono segs (show b + 1 ≤ a by omega)
          have hfirst := hspans.first
          omega
        have hle := hspans.le
        rw [List.length_append, List.length_cons, hcount]
        omega

/-- Slices that are taken one after the other, in a map that is used again and again, are together
the bytes from the start of the first to the end of the last, in their order; and there are fewer
pieces than segments and slices. -/
theorem slices_tile (h : Mapped fsg segs) {fuel : ℕ} (hfuel : segs.length ≤ fuel)
    (ls : List UInt32) (hpos : ∀ l ∈ ls, 0 < l) (offset : UInt32) (dmap : KfioDmaMap)
    (hsum : offset.toNat + sliceTotal ls ≤ fsg.uioSize.toNat) :
    ∃ pieces, slicePieces fsg fuel dmap offset ls = .ok pieces ∧
      physBytes pieces = ((segBytes segs).drop offset.toNat).take (sliceTotal ls) ∧
      pieces.length < segs.length + ls.length := by
  have hsegs : 0 < segs.length := List.length_pos_iff.mpr h.nonempty
  exact slicePieces_from h hfuel hpos dmap hsum hsegs (Nat.zero_le offset.toNat)

/-- Three slices of the list of two segments, the second of which lies across the cut. -/
theorem slices_tile_twoSegmentSgl :
    ∃ pieces, slicePieces twoSegmentSgl 2 clearedDmaMap 0 [3, 4, 5] = .ok pieces ∧
      physBytes pieces = segBytes [⟨0x1000, 4⟩, ⟨0x9000, 8⟩] ∧ pieces.length < 5 :=
  slices_tile twoSegmentSgl_mapped (Nat.le_refl 2) [3, 4, 5] (by simp) 0 clearedDmaMap
    (show 0 + sliceTotal [3, 4, 5] ≤ twoSegmentSgl.uioSize.toNat by decide)

end IomemoryVsl.Kscatter
