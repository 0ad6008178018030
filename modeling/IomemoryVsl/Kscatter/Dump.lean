import IomemoryVsl.Kscatter.Recording
import IomemoryVsl.Kscatter.WholeMap

/-!
# Dumping a scatter-gather list

`kfio_sgl_dump` walks the I/O vectors and the physical segments of a list at the same time and
prints, under each vector, the segments that hold its bytes.  The segment iterator moves on with
every line, also when the segment reaches over the end of the vector.  What is printed is kept as
the values behind the format strings; the caller's prefix, which starts every line, is left out.
-/

namespace IomemoryVsl.Kscatter

/-- What a line says behind `psize`: nothing, `(first %u bytes)`, `(last %u bytes)` or
`(%u bytes)`. -/
inductive Portion where
  | whole
  | first (bytes : UInt32)
  | last (bytes : UInt32)
  | part (bytes : UInt32)
deriving DecidableEq, Repr

/-- `mvec %d paddr: 0x%x psize: %u` and the portion. -/
structure Mvec where
  j : Nat
  paddr : UInt64
  psize : UInt32
  portion : Portion
deriving DecidableEq, Repr

inductive DumpLine where
  /-- `sglist %p num %u max %u size %u` -/
  | sglist (num max size : UInt32)
  /-- `map %p offset %u size %u count %u` -/
  | map (offset size count : UInt32)
  /-- `iovec %d: vaddr: %p size: %u` -/
  | iovec (i : Nat) (vaddr : UInt64) (size : UInt32)
  | mvec (v : Mvec)
  /-- `map first skip %u` -/
  | mapFirst (skip : UInt32)
  /-- `map last trunc %u` -/
  | mapLast (trunc : UInt32)
  /-- `%04d:`, in front of sixteen bytes -/
  | row (j : Nat)
  /-- `%02x` -/
  | byte (b : UInt8)
  | newline
deriving DecidableEq, Repr

/-- The branches of the loop body: the portion that is printed, and the new `spill` and `used`. -/
def dumpPortion (len spill segLen : UInt32) : Portion × UInt32 × UInt32 :=
  if spill > 0 then
    let used := if spill > len then len else spill
    (if used = spill then .last used else .part used, spill - used, used)
  else if segLen > len then (.first len, segLen - len, len)
  else (.whole, spill, segLen)

/-- The lines about the map, when the iterator is at its first or its last segment. -/
def dumpMapLines (dmap : Option KfioDmaMap) (cur : Nat) : List DumpLine :=
  match dmap with
  | none => []
  | some dmap =>
      (if some cur = dmap.segFirst then [.mapFirst dmap.segSkip] else []) ++
        (if some cur = dmap.segLast then [.mapLast dmap.segTrunc] else [])

/-- The variables of `kfio_sgl_dump` that outlive a turn of its outer loop.  `seg` is only read
while `cur` is not `NULL`, so the two are one. -/
structure DumpState where
  spill : UInt32
  cur : Option (Nat × KfioSglPhys)
  j : Nat
deriving DecidableEq, Repr

/-- The inner loop of `kfio_sgl_dump`; the answer has the bytes of the vector that no line is
about. -/
def dumpMvecLoop (fsg : FreebsdSgl) (dmap : Option KfioDmaMap) :
    Nat → UInt32 → DumpState → Except Fault (List DumpLine × UInt32 × DumpState)
  | 0, _, _ => .error .diverges
  | fuel + 1, len, st =>
      match st.cur with
      | none => .ok ([], len, st)
      | some (cur, seg) =>
          if len > 0 then do
            let (portion, spill, used) := dumpPortion len st.spill seg.len
            -- the iterator moves on also when some of the segment is spilled
            let next ← kfioSglPhysNext fsg cur
            let (lines, len, st') ← dumpMvecLoop fsg dmap fuel (len - used) ⟨spill, next, st.j + 1⟩
            .ok (.mvec ⟨st.j, seg.addr, seg.len, portion⟩ :: dumpMapLines dmap cur ++ lines, len,
              st')
          else .ok ([], len, st)

/-- The bytes `bp[0]` up to `bp[len - 1]`, sixteen to a row. -/
def dumpBytes (mem : UInt64 → UInt8) (bp : UInt64) (len : UInt32) : List DumpLine :=
  (List.range len.toNat).flatMap (fun j ↦
    (if j % 16 = 0 then [.row j] else []) ++ [.byte (mem (bp + UInt64.ofNat j))]) ++ [.newline]

/-- The outer loop of `kfio_sgl_dump`, from the vector with the index `i` on. -/
def dumpIovecLoop (mem : UInt64 → UInt8) (fsg : FreebsdSgl) (dmap : Option KfioDmaMap)
    (dumpContents : UInt32) : Nat → List Iovec → DumpState → Except Fault (List DumpLine)
  | _, [], _ => .ok []
  | i, iov :: iovs, st => do
      -- `len` is 32 bits wide, `iov_len` is a `size_t`
      let len := iov.iovLen.toUInt32
      let (mvecs, rest, st) ← dumpMvecLoop fsg dmap (fsg.segNum.toUInt32.toNat + 1) len st
      let contents := if dumpContents ≠ 0 then dumpBytes mem iov.iovBase rest else []
      let lines ← dumpIovecLoop mem fsg dmap dumpContents (i + 1) iovs st
      .ok (.iovec i iov.iovBase len :: mvecs ++ contents ++ lines)

/-- `kfio_sgl_dump`, over the memory that the vectors point into; `dmap` is `none` when the caller
passes `NULL`. -/
def kfioSglDump (mem : UInt64 → UInt8) (fsg : FreebsdSgl) (dmap : Option KfioDmaMap)
    (dumpContents : UInt32) : Except Fault (List DumpLine) := do
  let sglist : DumpLine := .sglist fsg.uioNum fsg.uioMax fsg.uioSize
  let map : List DumpLine :=
    match dmap with
    | none => []
    | some dmap => [.map dmap.mapOffset dmap.mapLength dmap.segCount]
  let cur ← kfioSglPhysFirst fsg
  let lines ← dumpIovecLoop mem fsg dmap dumpContents 0 fsg.entries ⟨0, cur, 0⟩
  .ok (sglist :: map ++ lines)

/-! ## What a dump accounts for -/

/-- The bytes that a line is about. -/
def Mvec.bytes (v : Mvec) : ℕ :=
  match v.portion with
  | .whole => v.psize.toNat
  | .first bytes => bytes.toNat
  | .last bytes => bytes.toNat
  | .part bytes => bytes.toNat

def mvecTotal (vs : List Mvec) : ℕ := (vs.map Mvec.bytes).sum

@[simp]
theorem mvecTotal_nil : mvecTotal [] = 0 := rfl

@[simp]
theorem mvecTotal_cons (v : Mvec) (vs : List Mvec) :
    mvecTotal (v :: vs) = v.bytes + mvecTotal vs := by
  simp [mvecTotal]

def iovTotal (iovs : List Iovec) : ℕ := Extent.total (iovs.map Iovec.extent)

@[simp]
theorem iovTotal_nil : iovTotal [] = 0 := rfl

@[simp]
theorem iovTotal_cons (iov : Iovec) (iovs : List Iovec) :
    iovTotal (iov :: iovs) = iov.iovLen.toNat + iovTotal iovs := by
  simp [iovTotal, Iovec.extent]

def DumpLine.isIovec : DumpLine → Bool
  | .iovec .. => true
  | _ => false

def DumpLine.mvec? : DumpLine → Option Mvec
  | .mvec v => some v
  | _ => none

/-- The segment lines in front of the next vector. -/
def leadMvecs (lines : List DumpLine) : List Mvec :=
  (lines.takeWhile (!·.isIovec)).filterMap DumpLine.mvec?

/-- The segment lines under each vector of a dump. -/
def mvecsUnder : List DumpLine → List (List Mvec)
  | [] => []
  | line :: lines =>
      if line.isIovec then leadMvecs lines :: mvecsUnder lines else mvecsUnder lines

/-- The segment that a line names holds the bytes of the line, of which the first is the byte
number `start` of the list. -/
def Mvec.Holds (segs : List BusDmaSegment) (start : ℕ) (v : Mvec) : Prop :=
  ∃ seg, segs[v.j]? = some seg ∧ v.paddr = seg.dsAddr ∧ v.psize.toNat = seg.dsLen.toNat ∧
    segTotal (segs.take v.j) ≤ start ∧
    start + v.bytes ≤ segTotal (segs.take v.j) + seg.dsLen.toNat

/-- Under the vector number `k`, a line is about the bytes behind those of the lines above it; the
first vector starts at the byte number `start`. -/
def NamesHolder (segs : List BusDmaSegment) (start : ℕ) (iovs : List Iovec)
    (under : List (List Mvec)) : Prop :=
  ∀ k above (v : Mvec) below, under[k]? = some (above ++ v :: below) →
    v.Holds segs (start + iovTotal (iovs.take k) + mvecTotal above)

/-- The virtual and the physical walk of a dump are in step. -/
structure InStep (segs : List BusDmaSegment) (iovs : List Iovec) (under : List (List Mvec)) :
    Prop where
  names : NamesHolder segs 0 iovs under
  counts : under.map mvecTotal = iovs.map fun iov ↦ iov.iovLen.toNat
  /-- As each line names the holder of its bytes, no byte is among them twice. -/
  accounted : ∀ j seg, segs[j]? = some seg →
    mvecTotal (under.flatten.filter fun v ↦ v.j = j) = seg.dsLen.toNat

/-- A mapped list whose vectors and segments are not empty and hold as many bytes. -/
structure Dumpable (fsg : FreebsdSgl) (segs : List BusDmaSegment) : Prop where
  segPtr : fsg.segPtr = some segs
  segNum : fsg.segNum.toInt = segs.length
  nonempty : segs ≠ []
  segPos : ∀ seg ∈ segs, 0 < seg.dsLen
  iovPos : ∀ iov ∈ fsg.entries, 0 < iov.iovLen
  total : segTotal segs = fsg.total

/-! ## The walk over the segments -/

/-- The lines under one vector, the bytes of it that no line is about, and what is spilled; the
walk is at the segment number `j`, the first one of the list. -/
def mvecWalk : List BusDmaSegment → ℕ → UInt32 → UInt32 → List Mvec × UInt32 × UInt32
  | [], _, len, spill => ([], len, spill)
  | seg :: rest, j, len, spill =>
      if len > 0 then
        let turn := dumpPortion len spill seg.phys.len
        let walk := mvecWalk rest (j + 1) (len - turn.2.2) turn.2.1
        (⟨j, seg.dsAddr, seg.phys.len, turn.1⟩ :: walk.1, walk.2)
      else ([], len, spill)

/-- The lines under each vector, from the segment number `j` on. -/
def dumpWalk (segs : List BusDmaSegment) : List Iovec → ℕ → UInt32 → List (List Mvec)
  | [], _, _ => []
  | iov :: iovs, j, spill =>
      let walk := mvecWalk (segs.drop j) j iov.iovLen.toUInt32 spill
      walk.1 :: dumpWalk segs iovs (j + walk.1.length) walk.2.2

/-- The iterator at the segment number `j`, and what is stored in `*segp` with it. -/
def segCursor (segs : List BusDmaSegment) (j : ℕ) : Option (ℕ × KfioSglPhys) :=
  segs[j]?.map fun seg ↦ (j, seg.phys)

/-- What one turn of the inner loop prints. -/
def mvecLines (dmap : Option KfioDmaMap) (v : Mvec) : List DumpLine :=
  .mvec v :: dumpMapLines dmap v.j

section Walk

variable {fsg : FreebsdSgl} {segs : List BusDmaSegment}

theorem Dumpable.segPtr_ne_none (h : Dumpable fsg segs) : fsg.segPtr ≠ none := by
  rw [h.segPtr]
  exact Option.some_ne_none segs

theorem kfioSglPhysFirst_cursor (h : Dumpable fsg segs) :
    kfioSglPhysFirst fsg = .ok (segCursor segs 0) := by
  obtain ⟨seg, rest, hsegs⟩ := List.exists_cons_of_ne_nil h.nonempty
  rw [kfioSglPhysFirst, if_pos h.segPtr_ne_none, h.segPtr, hsegs]
  rfl

theorem kfioSglPhysNext_cursor (h : Dumpable fsg segs) (j : ℕ) :
    kfioSglPhysNext fsg j = .ok (segCursor segs (j + 1)) := by
  rw [kfioSglPhysNext, if_pos h.segPtr_ne_none, h.segNum, h.segPtr]
  by_cases hj : j + 1 < segs.length
  · have hread : readSeg (some segs) (j + 1) = .ok segs[j + 1] := by simp [readSeg, hj]
    have hcur : segCursor segs (j + 1) = some (j + 1, segs[j + 1].phys) := by
      simp [segCursor, hj]
    rw [if_pos (by omega), hread, hcur]
    rfl
  · rw [if_neg (by omega)]
    simp [segCursor, List.getElem?_eq_none (Nat.le_of_not_lt hj)]

theorem drop_eq_cons {j : ℕ} {seg : BusDmaSegment} {rest : List BusDmaSegment}
    (hrest : segs.drop j = seg :: rest) : segs[j]? = some seg ∧ segs.drop (j + 1) = rest := by
  rw [← List.head?_drop, ← List.tail_drop, hrest]
  exact ⟨rfl, rfl⟩

/-- The inner loop stops, at the latest when there is no segment left. -/
theorem dumpMvecLoop_eq (h : Dumpable fsg segs) (dmap : Option KfioDmaMap)
    {rest : List BusDmaSegment} {j : ℕ} (hrest : segs.drop j = rest) {fuel : ℕ}
    (hfuel : rest.length < fuel) (len spill : UInt32) :
    dumpMvecLoop fsg dmap fuel len ⟨spill, segCursor segs j, j⟩ =
      .ok ((mvecWalk rest j len spill).1.flatMap (mvecLines dmap), (mvecWalk rest j len spill).2.1,
        ⟨(mvecWalk rest j len spill).2.2,
          segCursor segs (j + (mvecWalk rest j len spill).1.length),
          j + (mvecWalk rest j len spill).1.length⟩) := by
  -- the induction is on the segments left, of which each turn uses up one
  induction rest generalizing j fuel len spill with
  | nil =>
      obtain ⟨fuel, rfl⟩ : ∃ n, fuel = n + 1 := ⟨fuel - 1, by omega⟩
      have hcur : segCursor segs j = none := by
        rw [segCursor, List.getElem?_eq_none (List.drop_eq_nil_iff.mp hrest), Option.map_none]
      simp [dumpMvecLoop, mvecWalk, hcur]
  | cons seg rest ih =>
      obtain ⟨fuel, rfl⟩ : ∃ n, fuel = n + 1 := ⟨fuel - 1, by omega⟩
      obtain ⟨hseg, htail⟩ := drop_eq_cons hrest
      have hcur : segCursor segs j = some (j, seg.phys) := by rw [segCursor, hseg, Option.map_some]
      rw [dumpMvecLoop, mvecWalk]
      by_cases hlen : len > 0
      · have hnext := ih htail (show rest.length < fuel by simpa using hfuel)
        simp only [hcur, if_pos hlen, kfioSglPhysNext_cursor h, bind, Except.bind, hnext]
        simp [mvecLines, BusDmaSegment.phys, Nat.add_assoc, Nat.add_comm 1]
      · simp [hcur, hlen]

/-! ### The lines of the walk in the dump -/

theorem leadMvecs_append {pre : List DumpLine} (hpre : ∀ line ∈ pre, line.isIovec = false)
    (lines : List DumpLine) :
    leadMvecs (pre ++ lines) = pre.filterMap DumpLine.mvec? ++ leadMvecs lines := by
  rw [leadMvecs, List.takeWhile_append_of_pos (by simpa using hpre), List.filterMap_append]
  rfl

theorem mvecsUnder_append {pre : List DumpLine} (hpre : ∀ line ∈ pre, line.isIovec = false)
    (lines : List DumpLine) : mvecsUnder (pre ++ lines) = mvecsUnder lines := by
  induction pre with
  | nil => rfl
  | cons line pre ih =>
      rw [List.forall_mem_cons] at hpre
      rw [List.cons_append, mvecsUnder, if_neg (by simp [hpre.1]), ih hpre.2]

theorem mvecsUnder_iovec (i : ℕ) (vaddr : UInt64) (size : UInt32) (lines : List DumpLine) :
    mvecsUnder (.iovec i vaddr size :: lines) = leadMvecs lines :: mvecsUnder lines := rfl

theorem dumpMapLines_other (dmap : Option KfioDmaMap) (cur : ℕ) :
    ∀ line ∈ dumpMapLines dmap cur, line.isIovec = false ∧ line.mvec? = none := by
  intro line hline
  cases dmap with
  | none => simp [dumpMapLines] at hline
  | some dmap =>
      simp only [dumpMapLines, List.mem_append, List.mem_ite_nil_right, List.mem_singleton] at hline
      obtain ⟨-, rfl⟩ | ⟨-, rfl⟩ := hline <;> exact ⟨rfl, rfl⟩

theorem dumpBytes_other (mem : UInt64 → UInt8) (bp : UInt64) (len : UInt32) :
    ∀ line ∈ dumpBytes mem bp len, line.isIovec = false ∧ line.mvec? = none := by
  intro line hline
  simp only [dumpBytes, List.mem_append, List.mem_flatMap, List.mem_ite_nil_right,
    List.mem_singleton] at hline
  obtain ⟨j, -, ⟨-, rfl⟩ | rfl⟩ | rfl := hline <;> exact ⟨rfl, rfl⟩

theorem mvecLines_mvecs (dmap : Option KfioDmaMap) (vs : List Mvec) :
    (∀ line ∈ vs.flatMap (mvecLines dmap), line.isIovec = false) ∧
      (vs.flatMap (mvecLines dmap)).filterMap DumpLine.mvec? = vs := by
  induction vs with
  | nil => exact ⟨by simp, rfl⟩
  | cons v vs ih =>
      have hother := dumpMapLines_other dmap v.j
      have hmap : (dumpMapLines dmap v.j).filterMap DumpLine.mvec? = [] :=
        List.filterMap_eq_nil_iff.mpr fun line hline ↦ (hother line hline).2
      rw [List.flatMap_cons]
      constructor
      · intro line hline
        rcases List.mem_append.mp hline with hline | hline
        · rcases List.mem_cons.mp hline with rfl | hline
          · rfl
          · exact (hother line hline).1
        · exact ih.1 line hline
      · rw [List.filterMap_append, ih.2, mvecLines,
          List.filterMap_cons_some (show (DumpLine.mvec v).mvec? = some v from rfl), hmap]
        rfl

theorem dumpIovecLoop_mvecsUnder (h : Dumpable fsg segs) (mem : UInt64 → UInt8)
    (dmap : Option KfioDmaMap) (dumpContents : UInt32) (i : ℕ) (iovs : List Iovec) (j : ℕ)
    (spill : UInt32) :
    ∃ lines, dumpIovecLoop mem fsg dmap dumpContents i iovs ⟨spill, segCursor segs j, j⟩ =
        .ok lines ∧
      leadMvecs lines = [] ∧ mvecsUnder lines = dumpWalk segs iovs j spill := by
  induction iovs generalizing i j spill with
  | nil => exact ⟨[], rfl, rfl, rfl⟩
  | cons iov iovs ih =>
      -- the next vector starts behind the last segment that has been printed, whatever is spilled
      set walk := mvecWalk (segs.drop j) j iov.iovLen.toUInt32 spill with hwalk
      obtain ⟨lines, hlines, hlead, hunder⟩ := ih (i + 1) (j + walk.1.length) walk.2.2
      have hfuel : (segs.drop j).length < fsg.segNum.toUInt32.toNat + 1 := by
        rw [int32_toUInt32_toNat h.segNum, List.length_drop]
        omega
      have hloop := dumpMvecLoop_eq h dmap rfl hfuel iov.iovLen.toUInt32 spill
      obtain ⟨hmvecs, hfilter⟩ := mvecLines_mvecs dmap walk.1
      set contents := if dumpContents ≠ 0 then dumpBytes mem iov.iovBase walk.2.1 else []
        with hcontents
      have hother : ∀ line ∈ contents, line.isIovec = false ∧ line.mvec? = none := by
        intro line hline
        rw [hcontents, List.mem_ite_nil_right] at hline
        exact dumpBytes_other mem _ _ line hline.2
      have hpre : ∀ line ∈ walk.1.flatMap (mvecLines dmap) ++ contents, line.isIovec = false := by
        intro line hline
        rcases List.mem_append.mp hline with hline | hline
        · exact hmvecs line hline
        · exact (hother line hline).1
      have hnone : contents.filterMap DumpLine.mvec? = [] :=
        List.filterMap_eq_nil_iff.mpr fun line hline ↦ (hother line hline).2
      refine ⟨.iovec i iov.iovBase iov.iovLen.toUInt32 ::
        (walk.1.flatMap (mvecLines dmap) ++ contents) ++ lines, ?_, rfl, ?_⟩
      · simp only [dumpIovecLoop, hloop, bind, Except.bind, ← hwalk, hlines, ← hcontents]
        simp
      · rw [List.cons_append, mvecsUnder_iovec, leadMvecs_append hpre, mvecsUnder_append hpre,
          List.filterMap_append, hfilter, hnone, hlead, hunder, dumpWalk]
        simp [hwalk]

theorem kfioSglDump_mvecsUnder (h : Dumpable fsg segs) (mem : UInt64 → UInt8)
    (dmap : Option KfioDmaMap) (dumpContents : UInt32) :
    ∃ lines, kfioSglDump mem fsg dmap dumpContents = .ok lines ∧
      mvecsUnder lines = dumpWalk segs fsg.entries 0 0 := by
  obtain ⟨lines, hlines, -, hunder⟩ :=
    dumpIovecLoop_mvecsUnder h mem dmap dumpContents 0 fsg.entries 0 0
  simp only [kfioSglDump, kfioSglPhysFirst_cursor h, bind, Except.bind, hlines]
  refine ⟨_, rfl, ?_⟩
  rw [mvecsUnder_append _ lines, hunder]
  cases dmap <;> simp [DumpLine.isIovec]

/-! ### Where a walk in step ends -/

/-- A segment that fits what is left of the vector, with nothing spilled. -/
theorem dumpPortion_whole {len segLen : UInt32} (hle : segLen ≤ len) :
    dumpPortion len 0 segLen = (.whole, 0, segLen) := by
  rw [dumpPortion, if_neg (by decide), if_neg (UInt32.not_lt.mpr hle)]

/-- A line is about the bytes that the turn uses up. -/
theorem dumpPortion_bytes (j : ℕ) (paddr : UInt64) (len spill segLen : UInt32) :
    (Mvec.mk j paddr segLen (dumpPortion len spill segLen).1).bytes =
        (dumpPortion len spill segLen).2.2.toNat ∧
      (dumpPortion len spill segLen).2.2 ≤ len := by
  unfold dumpPortion
  by_cases hspill : spill > 0
  · simp only [if_pos hspill]
    constructor
    · generalize (if spill > len then len else spill) = used
      by_cases hused : used = spill
      · rw [if_pos hused]
        rfl
      · rw [if_neg hused]
        rfl
    · by_cases hlt : spill > len
      · rw [if_pos hlt]
        exact UInt32.le_refl len
      · rw [if_neg hlt]
        exact UInt32.not_lt.mp hlt
  · rw [if_neg hspill]
    by_cases hlt : segLen > len
    · rw [if_pos hlt]
      exact ⟨rfl, UInt32.le_refl len⟩
    · rw [if_neg hlt]
      exact ⟨rfl, UInt32.not_lt.mp hlt⟩

/-- The lines under a vector and what is left over of it have its bytes between them. -/
theorem mvecWalk_total (rest : List BusDmaSegment) (j : ℕ) (len spill : UInt32) :
    mvecTotal (mvecWalk rest j len spill).1 + (mvecWalk rest j len spill).2.1.toNat =
      len.toNat := by
  induction rest generalizing j len spill with
  | nil => simp [mvecWalk]
  | cons seg rest ih =>
      rw [mvecWalk]
      by_cases hlen : len > 0
      · obtain ⟨hbytes, hle⟩ := dumpPortion_bytes j seg.dsAddr len spill seg.phys.len
        have hrest := ih (j + 1) (len - (dumpPortion len spill seg.phys.len).2.2)
          (dumpPortion len spill seg.phys.len).2.1
        rw [UInt32.toNat_sub_of_le _ _ hle] at hrest
        have hnat := UInt32.le_iff_toNat_le.mp hle
        simp only [if_pos hlen, mvecTotal_cons, hbytes]
        omega
      · simp [hlen]

/-- The first line under a vector names the segment that the walk is at. -/
theorem mvecWalk_head {rest : List BusDmaSegment} {j : ℕ} {len spill : UInt32} {v : Mvec}
    {vs : List Mvec} (hwalk : (mvecWalk rest j len spill).1 = v :: vs) : v.j = j := by
  cases rest with
  | nil => simp [mvecWalk] at hwalk
  | cons seg rest =>
      rw [mvecWalk] at hwalk
      by_cases hlen : len > 0
      · rw [if_pos hlen] at hwalk
        rw [← (List.cons.inj hwalk).1]
      · simp [hlen] at hwalk

theorem segTotal_take_add (segs : List BusDmaSegment) (j n : ℕ) :
    segTotal (segs.take (j + n)) = segTotal (segs.take j) + segTotal ((segs.drop j).take n) := by
  rw [List.take_add, segTotal_append]

/-- A walk that starts with nothing spilled and uses up its vector stops at the end of a segment, or
it has printed a segment that reaches over the end of the vector. -/
theorem mvecWalk_ends {rest : List BusDmaSegment} {j : ℕ} {len : UInt32}
    (hrest : segs.drop j = rest) (hused : (mvecWalk rest j len 0).2.1 = 0)
    (hsizes : ∀ v ∈ (mvecWalk rest j len 0).1, ∃ seg, segs[v.j]? = some seg ∧
      v.psize.toNat = seg.dsLen.toNat) :
    (mvecWalk rest j len 0).2.2 = 0 ∧
        segTotal (rest.take (mvecWalk rest j len 0).1.length) = len.toNat ∨
      len.toNat < segTotal (rest.take (mvecWalk rest j len 0).1.length) := by
  -- as long as nothing is spilled, the segments printed add up to what is used of the vector
  induction rest generalizing j len with
  | nil =>
      have hlen : len = 0 := hused
      exact Or.inl ⟨rfl, by simp [hlen]⟩
  | cons seg rest ih =>
      obtain ⟨hseg, htail⟩ := drop_eq_cons hrest
      by_cases hlen : len > 0
      · simp only [mvecWalk, if_pos hlen] at hused hsizes ⊢
        rw [List.forall_mem_cons] at hsizes
        obtain ⟨hfirst, hsizes⟩ := hsizes
        have hsize : seg.phys.len.toNat = seg.dsLen.toNat := by
          obtain ⟨seg', hseg', hsize⟩ := hfirst
          obtain rfl : seg = seg' := Option.some.inj (hseg.symm.trans hseg')
          exact hsize
        rw [List.length_cons, List.take_succ_cons, segTotal_cons]
        by_cases hlt : seg.phys.len > len
        · -- the segment is longer than what is left of the vector
          have hnat := UInt32.lt_iff_toNat_lt.mp hlt
          exact Or.inr (by omega)
        · have hle := UInt32.not_lt.mp hlt
          have hnat := UInt32.le_iff_toNat_le.mp hle
          simp only [dumpPortion_whole hle] at hused hsizes ⊢
          rcases ih htail hused hsizes with ⟨hspill, htotal⟩ | hover
          · rw [UInt32.toNat_sub_of_le _ _ hle] at htotal
            exact Or.inl ⟨hspill, by omega⟩
          · rw [UInt32.toNat_sub_of_le _ _ hle] at hover
            exact Or.inr (by omega)
      · have hzero : len = 0 := UInt32.le_zero_iff.mp (UInt32.not_lt.mp hlen)
        simp [mvecWalk, hzero]

/-! ### A dump in step goes from vector to vector between segments -/

theorem namesHolder_cons {start : ℕ} {iov : Iovec} {iovs : List Iovec} {vs : List Mvec}
    {under : List (List Mvec)} :
    NamesHolder segs start (iov :: iovs) (vs :: under) ↔
      (∀ above (v : Mvec) below, vs = above ++ v :: below →
        v.Holds segs (start + mvecTotal above)) ∧
      NamesHolder segs (start + iov.iovLen.toNat) iovs under := by
  constructor
  · intro h
    constructor
    · intro above v below hvs
      simpa using h 0 above v below (congrArg some hvs)
    · intro k above v below hunder
      have hv := h (k + 1) above v below hunder
      rwa [List.take_succ_cons, iovTotal_cons, ← Nat.add_assoc] at hv
  · rintro ⟨hhead, htail⟩ k above v below hunder
    cases k with
    | zero => simpa using hhead above v below (Option.some.inj hunder)
    | succ k =>
        rw [List.take_succ_cons, iovTotal_cons, ← Nat.add_assoc]
        exact htail k above v below hunder

/-- A walk that is behind the byte at which the next vector starts is not in step with any. -/
theorem dumpWalk_past {iovs : List Iovec} {j start : ℕ} {spill : UInt32}
    (hpos : ∀ iov ∈ iovs, 0 < iov.iovLen) (hpast : start < segTotal (segs.take j))
    (hnames : NamesHolder segs start iovs (dumpWalk segs iovs j spill))
    (hcounts : (dumpWalk segs iovs j spill).map mvecTotal =
      iovs.map fun iov ↦ iov.iovLen.toNat) : iovs = [] := by
  cases iovs with
  | nil => rfl
  | cons iov iovs =>
      have hiov := UInt64.lt_iff_toNat_lt.mp (hpos iov List.mem_cons_self)
      rw [UInt64.toNat_zero] at hiov
      obtain ⟨hnamed, -⟩ := namesHolder_cons.mp hnames
      obtain ⟨hcount, -⟩ := List.cons.inj hcounts
      dsimp only at hcount
      cases hvs : (mvecWalk (segs.drop j) j iov.iovLen.toUInt32 spill).1 with
      | nil =>
          rw [hvs, mvecTotal_nil] at hcount
          omega
      | cons v vs =>
          obtain ⟨seg, -, -, -, hstart, -⟩ := hnamed [] v vs hvs
          rw [mvecWalk_head hvs, mvecTotal_nil] at hstart
          omega

/-- The vectors fit the 32 bits of `len`, and no segment reaches over the end of one. -/
theorem refines_of_dumpWalk {iovs : List Iovec} {j : ℕ} (hpos : ∀ iov ∈ iovs, 0 < iov.iovLen)
    (hnames : NamesHolder segs (segTotal (segs.take j)) iovs (dumpWalk segs iovs j 0))
    (hcounts : (dumpWalk segs iovs j 0).map mvecTotal = iovs.map fun iov ↦ iov.iovLen.toNat)
    (htotal : segTotal (segs.drop j) = iovTotal iovs) :
    (∀ iov ∈ iovs, iov.iovLen.toNat < 2 ^ 32) ∧
      Extent.Refines ((segs.drop j).map BusDmaSegment.extent) (iovs.map Iovec.extent) := by
  induction iovs generalizing j with
  | nil => exact ⟨by simp, Extent.refines_nil _⟩
  | cons iov iovs ih =>
      set walk := mvecWalk (segs.drop j) j iov.iovLen.toUInt32 0 with hwalk
      have hdump : dumpWalk segs (iov :: iovs) j 0 =
          walk.1 :: dumpWalk segs iovs (j + walk.1.length) walk.2.2 := rfl
      rw [hdump] at hnames hcounts
      obtain ⟨hnamed, hnames⟩ := namesHolder_cons.mp hnames
      obtain ⟨hcount, hcounts⟩ := List.cons.inj hcounts
      dsimp only at hcount
      have hused := mvecWalk_total (segs.drop j) j iov.iovLen.toUInt32 0
      rw [← hwalk, hcount, UInt64.toNat_toUInt32] at hused
      have hmod := Nat.mod_le iov.iovLen.toNat (2 ^ 32)
      -- the lines have as many bytes as the vector, and no more than the 32 bits kept of it say
      have hnarrow : iov.iovLen.toNat < 2 ^ 32 := by omega
      have hlen := uint64_toUInt32_toNat hnarrow
      have hzero : walk.2.1 = 0 := by
        apply UInt32.toNat_inj.mp
        rw [UInt32.toNat_zero]
        omega
      have hsizes : ∀ v ∈ walk.1, ∃ seg, segs[v.j]? = some seg ∧
          v.psize.toNat = seg.dsLen.toNat := by
        intro v hv
        obtain ⟨above, below, hvs⟩ := List.append_of_mem hv
        obtain ⟨seg, hseg, -, hsize, -⟩ := hnamed above v below hvs
        exact ⟨seg, hseg, hsize⟩
      have hends := mvecWalk_ends rfl hzero hsizes
      rw [← hwalk, hlen] at hends
      have hsplit : segTotal (segs.drop j) =
          segTotal ((segs.drop j).take walk.1.length) +
            segTotal (segs.drop (j + walk.1.length)) := by
        rw [← List.drop_drop, ← segTotal_append, List.take_append_drop]
      have htake := segTotal_take_add segs j walk.1.length
      rw [iovTotal_cons] at htotal
      rcases hends with ⟨hspill, hexact⟩ | hover
      · rw [hspill] at hnames hcounts
        rw [hexact] at htake
        obtain ⟨hnarrows, hrefines⟩ := ih (fun iov hiov ↦ hpos iov (List.mem_cons_of_mem _ hiov))
          (by rwa [htake]) hcounts (by omega)
        refine ⟨List.forall_mem_cons.mpr ⟨hnarrow, hnarrows⟩, Extent.refines_cons.mpr
          ⟨((segs.drop j).take walk.1.length).map BusDmaSegment.extent, _, ?_, hexact, hrefines⟩⟩
        rw [← List.map_append, ← List.drop_drop, List.take_append_drop]
      · -- the next vector starts within a segment that the walk has left behind
        obtain rfl : iovs = [] := dumpWalk_past
          (fun iov hiov ↦ hpos iov (List.mem_cons_of_mem _ hiov)) (by omega) hnames hcounts
        rw [iovTotal_nil] at htotal
        omega

/-! ### A dump of segments that refine the vectors -/

/-- The lines that name each segment, from the number `j` on, as a whole. -/
def wholeLines : ℕ → List BusDmaSegment → List Mvec
  | _, [] => []
  | j, seg :: segs => ⟨j, seg.dsAddr, seg.phys.len, .whole⟩ :: wholeLines (j + 1) segs

@[simp]
theorem length_wholeLines (j : ℕ) (segs : List BusDmaSegment) :
    (wholeLines j segs).length = segs.length := by
  induction segs generalizing j with
  | nil => rfl
  | cons seg segs ih => simp [wholeLines, ih]

theorem wholeLines_append (j : ℕ) (pre post : List BusDmaSegment) :
    wholeLines j (pre ++ post) = wholeLines j pre ++ wholeLines (j + pre.length) post := by
  induction pre generalizing j with
  | nil => rfl
  | cons seg pre ih =>
      rw [List.cons_append, wholeLines, ih, wholeLines, List.cons_append, List.length_cons,
        Nat.add_assoc, Nat.add_comm 1]

theorem phys_len_toNat {seg : BusDmaSegment} (hnarrow : seg.dsLen.toNat < 2 ^ 32) :
    seg.phys.len.toNat = seg.dsLen.toNat :=
  uint64_toUInt32_toNat hnarrow

theorem mvecTotal_wholeLines (j : ℕ) {segs : List BusDmaSegment}
    (hnarrow : ∀ seg ∈ segs, seg.dsLen.toNat < 2 ^ 32) :
    mvecTotal (wholeLines j segs) = segTotal segs := by
  induction segs generalizing j with
  | nil => rfl
  | cons seg segs ih =>
      rw [List.forall_mem_cons] at hnarrow
      rw [wholeLines, mvecTotal_cons, ih _ hnarrow.2, segTotal_cons, Mvec.bytes,
        phys_len_toNat hnarrow.1]

theorem wholeLines_j_ge {j : ℕ} {segs : List BusDmaSegment} {v : Mvec}
    (hv : v ∈ wholeLines j segs) : j ≤ v.j := by
  induction segs generalizing j with
  | nil => simp [wholeLines] at hv
  | cons seg segs ih =>
      rcases List.mem_cons.mp hv with rfl | hv
      · exact Nat.le_refl j
      · exact Nat.le_of_succ_le (ih hv)

theorem wholeLines_accounted {j i : ℕ} {segs : List BusDmaSegment} {seg : BusDmaSegment}
    (hseg : segs[i]? = some seg) (hnarrow : seg.dsLen.toNat < 2 ^ 32) :
    mvecTotal ((wholeLines j segs).filter fun v ↦ v.j = j + i) = seg.dsLen.toNat := by
  induction segs generalizing j i with
  | nil => simp at hseg
  | cons first segs ih =>
      cases i with
      | zero =>
          obtain rfl : first = seg := by simpa using hseg
          have hrest : (wholeLines (j + 1) segs).filter (fun v ↦ v.j = j + 0) = [] := by
            rw [List.filter_eq_nil_iff]
            intro v hv
            have hge := wholeLines_j_ge hv
            simp only [decide_eq_true_eq]
            omega
          rw [wholeLines, List.filter_cons_of_pos (by simp), hrest]
          simp [Mvec.bytes, phys_len_toNat hnarrow]
      | succ i =>
          have hrest := @ih (j + 1) i (by simpa using hseg)
          rw [wholeLines, List.filter_cons_of_neg (by simp)]
          rwa [Nat.add_assoc, Nat.add_comm 1] at hrest

/-- A line of a whole segment names the holder of its bytes. -/
theorem wholeLines_holds {j : ℕ} {taken rest : List BusDmaSegment}
    (hsegs : segs.drop j = taken ++ rest) (hnarrow : ∀ seg ∈ taken, seg.dsLen.toNat < 2 ^ 32)
    {above below : List Mvec} {v : Mvec} (hv : wholeLines j taken = above ++ v :: below) :
    v.Holds segs (segTotal (segs.take j) + mvecTotal above) := by
  induction taken generalizing j above with
  | nil => simp [wholeLines] at hv
  | cons seg taken ih =>
      rw [List.forall_mem_cons] at hnarrow
      have hsize := phys_len_toNat hnarrow.1
      obtain ⟨hseg, htail⟩ := drop_eq_cons hsegs
      cases above with
      | nil =>
          obtain ⟨rfl, -⟩ := List.cons.inj hv
          refine ⟨seg, hseg, rfl, hsize, by simp, ?_⟩
          simp [Mvec.bytes, hsize]
      | cons first above =>
          obtain ⟨rfl, hrest⟩ := List.cons.inj hv
          have hholds := ih htail hnarrow.2 hrest
          have htake : segTotal (segs.take (j + 1)) = segTotal (segs.take j) + seg.dsLen.toNat := by
            rw [segTotal_take_add, hsegs]
            simp
          rwa [htake, Nat.add_assoc, ← hsize] at hholds

/-- Segments that fill a vector are printed as a whole, one after the other. -/
theorem mvecWalk_whole {taken : List BusDmaSegment} (rest : List BusDmaSegment) {j : ℕ}
    {len : UInt32} (hpos : ∀ seg ∈ taken, 0 < seg.dsLen) (htotal : segTotal taken = len.toNat) :
    mvecWalk (taken ++ rest) j len 0 = (wholeLines j taken, 0, 0) := by
  induction taken generalizing j len with
  | nil =>
      obtain rfl : len = 0 := UInt32.toNat_inj.mp htotal.symm
      cases rest with
      | nil => rfl
      | cons seg rest => rfl
  | cons seg taken ih =>
      rw [List.forall_mem_cons] at hpos
      have hseg := UInt64.lt_iff_toNat_lt.mp hpos.1
      rw [UInt64.toNat_zero] at hseg
      rw [segTotal_cons] at htotal
      have hlt := len.toNat_lt
      have hsize : seg.phys.len.toNat = seg.dsLen.toNat := phys_len_toNat (by omega)
      have hle : seg.phys.len ≤ len := UInt32.le_iff_toNat_le.mpr (by omega)
      have hlen : len > 0 := UInt32.lt_iff_toNat_lt.mpr (by rw [UInt32.toNat_zero]; omega)
      have hleft : segTotal taken = (len - seg.phys.len).toNat := by
        rw [UInt32.toNat_sub_of_le _ _ hle]
        omega
      have hrest := @ih (j + 1) (len - seg.phys.len) hpos.2 hleft
      simp only [List.cons_append, mvecWalk, if_pos hlen, dumpPortion_whole hle, hrest]
      rfl

theorem dumpWalk_of_refines {iovs : List Iovec} {j : ℕ} (hpos : ∀ seg ∈ segs.drop j, 0 < seg.dsLen)
    (hnarrow : ∀ iov ∈ iovs, iov.iovLen.toNat < 2 ^ 32)
    (htotal : segTotal (segs.drop j) = iovTotal iovs)
    (hrefines : Extent.Refines ((segs.drop j).map BusDmaSegment.extent)
      (iovs.map Iovec.extent)) :
    NamesHolder segs (segTotal (segs.take j)) iovs (dumpWalk segs iovs j 0) ∧
      (dumpWalk segs iovs j 0).map mvecTotal = (iovs.map fun iov ↦ iov.iovLen.toNat) ∧
      (dumpWalk segs iovs j 0).flatten = wholeLines j (segs.drop j) ∧
      ∀ seg ∈ segs.drop j, seg.dsLen.toNat < 2 ^ 32 := by
  induction iovs generalizing j with
  | nil =>
      have hnone : segs.drop j = [] := segTotal_eq_zero hpos (by simpa using htotal)
      refine ⟨fun k above v below hunder ↦ by simp [dumpWalk] at hunder, rfl, ?_, ?_⟩
      · rw [hnone]
        rfl
      · simp [hnone]
  | cons iov iovs ih =>
      -- the segments that fill the vector come first, and are printed as a whole
      obtain ⟨pre, post, hmap, hsize, hrefines⟩ := Extent.refines_cons.mp hrefines
      obtain ⟨taken, rest, hsegs, rfl, rfl⟩ := List.map_eq_append_iff.mp hmap
      have hrest : segs.drop (j + taken.length) = rest := by
        rw [← List.drop_drop, hsegs, List.drop_left]
      rw [List.forall_mem_cons] at hnarrow
      rw [hsegs] at hpos htotal
      have hlen := uint64_toUInt32_toNat hnarrow.1
      have htaken : segTotal taken = iov.iovLen.toNat := hsize
      have hnarrowTaken : ∀ seg ∈ taken, seg.dsLen.toNat < 2 ^ 32 := by
        intro seg hseg
        have hle := dsLen_le_segTotal hseg
        have hlt := hnarrow.1
        omega
      have hwalk : mvecWalk (segs.drop j) j iov.iovLen.toUInt32 0 = (wholeLines j taken, 0, 0) := by
        rw [hsegs]
        exact mvecWalk_whole rest (fun seg hseg ↦ hpos seg (List.mem_append_left _ hseg))
          (htaken.trans hlen.symm)
      have hdump : dumpWalk segs (iov :: iovs) j 0 =
          wholeLines j taken :: dumpWalk segs iovs (j + taken.length) 0 := by
        simp [dumpWalk, hwalk]
      rw [segTotal_append, iovTotal_cons, htaken] at htotal
      obtain ⟨hnames, hcounts, hflatten, hnarrowRest⟩ :=
        @ih (j + taken.length)
          (by rw [hrest]; exact fun seg hseg ↦ hpos seg (List.mem_append_right _ hseg))
          hnarrow.2 (by rw [hrest]; omega) (by rwa [hrest])
      rw [hrest] at hflatten hnarrowRest
      rw [hdump]
      refine ⟨namesHolder_cons.mpr ⟨fun above v below hv ↦
        wholeLines_holds hsegs hnarrowTaken hv, ?_⟩, ?_, ?_, ?_⟩
      · rwa [segTotal_take_add, hsegs, List.take_left, htaken] at hnames
      · rw [List.map_cons, List.map_cons, hcounts, mvecTotal_wholeLines j hnarrowTaken, htaken]
      · rw [List.flatten_cons, hflatten, hsegs, wholeLines_append]
      · rw [hsegs]
        exact List.forall_mem_append.mpr ⟨hnarrowTaken, hnarrowRest⟩

end Walk

/-- The dump always ends.  Its two walks are in step if and only if the length of every vector fits
the 32 bits that the dump keeps of it and no segment reaches over the end of a vector. -/
theorem kfioSglDump_inStep_iff {fsg : FreebsdSgl} {segs : List BusDmaSegment}
    (h : Dumpable fsg segs) (mem : UInt64 → UInt8) (dmap : Option KfioDmaMap)
    (dumpContents : UInt32) :
    ∃ lines, kfioSglDump mem fsg dmap dumpContents = .ok lines ∧
      (InStep segs fsg.entries (mvecsUnder lines) ↔
        (∀ iov ∈ fsg.entries, iov.iovLen.toNat < 2 ^ 32) ∧
          Extent.Refines (segs.map BusDmaSegment.extent) (fsg.entries.map Iovec.extent)) := by
  obtain ⟨lines, hlines, hunder⟩ := kfioSglDump_mvecsUnder h mem dmap dumpContents
  refine ⟨lines, hlines, ?_⟩
  rw [hunder]
  have htotal : segTotal (segs.drop 0) = iovTotal fsg.entries := h.total
  constructor
  · intro hstep
    exact refines_of_dumpWalk h.iovPos hstep.names hstep.counts htotal
  · rintro ⟨hnarrow, hrefines⟩
    obtain ⟨hnames, hcounts, hflatten, hnarrowSegs⟩ :=
      @dumpWalk_of_refines segs fsg.entries 0 h.segPos hnarrow htotal hrefines
    refine ⟨hnames, hcounts, fun j seg hseg ↦ ?_⟩
    have haccounted := @wholeLines_accounted 0 j segs seg hseg
      (hnarrowSegs seg (List.mem_of_getElem? hseg))
    rw [Nat.zero_add] at haccounted
    rw [hflatten]
    exact haccounted

/-- A mapped list that has recorded `iovs` and was loaded as `segs`. -/
def dumpSgl (iovs : List Iovec) (segs : List BusDmaSegment) : FreebsdSgl where
  uioMax := UInt32.ofNat iovs.length
  uioNum := UInt32.ofNat iovs.length
  uioSize := UInt32.ofNat (iovTotal iovs)
  uioTd := none
  uioSegflg := .sysspace
  segPtr := some segs
  segNum := Int32.ofNat segs.length
  dmaTag := none
  dmaMap := none
  uioVec := fun i ↦ iovs.getD i ⟨0, 0⟩

/-- Seven bytes in two vectors, the first of which takes two segments. -/
def alignedSegs : List BusDmaSegment := [⟨0x1fff, 1⟩, ⟨0x9000, 3⟩, ⟨0x5000, 3⟩]

def alignedSgl : FreebsdSgl := dumpSgl [⟨0x7fff, 4⟩, ⟨0xa000, 3⟩] alignedSegs

theorem alignedSgl_dumpable : Dumpable alignedSgl alignedSegs where
  segPtr := rfl
  segNum := by decide
  nonempty := by decide
  segPos := by decide
  iovPos := by decide
  total := by decide

theorem kfioSglDump_inStep_iff_alignedSgl :
    ∃ lines, kfioSglDump (fun _ ↦ 0) alignedSgl (some (wholeDmaMap alignedSgl)) 1 = .ok lines ∧
      (InStep alignedSegs alignedSgl.entries (mvecsUnder lines) ↔
        (∀ iov ∈ alignedSgl.entries, iov.iovLen.toNat < 2 ^ 32) ∧
          Extent.Refines (alignedSegs.map BusDmaSegment.extent)
            (alignedSgl.entries.map Iovec.extent)) :=
  kfioSglDump_inStep_iff alignedSgl_dumpable _ _ _

/-- Two adjacent vectors of two bytes each; the last byte is the first one of another page. -/
def straddlingSegs : List BusDmaSegment := [⟨0x1ffd, 3⟩, ⟨0x9000, 1⟩]

def straddlingSgl : FreebsdSgl := dumpSgl [⟨0xaffd, 2⟩, ⟨0xafff, 2⟩] straddlingSegs

theorem straddlingSgl_dumpable : Dumpable straddlingSgl straddlingSegs where
  segPtr := rfl
  segNum := by decide
  nonempty := by decide
  segPos := by decide
  iovPos := by decide
  total := by decide

/-- The third byte of the first segment belongs to the second vector.  The dump names the second
segment for it, and then has no segment left for the last byte. -/
theorem kfioSglDump_out_of_step :
    Dumpable straddlingSgl straddlingSegs ∧
      ∃ lines, kfioSglDump (fun _ ↦ 0) straddlingSgl none 0 = .ok lines ∧
        ¬ InStep straddlingSegs straddlingSgl.entries (mvecsUnder lines) := by
  refine ⟨straddlingSgl_dumpable,
    [.sglist 2 2 4, .iovec 0 0xaffd 2, .mvec ⟨0, 0x1ffd, 3, .first 2⟩, .iovec 1 0xafff 2,
      .mvec ⟨1, 0x9000, 1, .last 1⟩], by decide, ?_⟩
  intro hstep
  have hcounts := hstep.counts
  revert hcounts
  decide

end IomemoryVsl.Kscatter
