import Mathlib.Logic.Function.Basic

/-!
# The FreeBSD scatter-gather list (`kscatter.c`)

The list records I/O vectors, hands them to `bus_dmamap_load_uio` and keeps the physical segments
that the load callback is given.  Calls into busdma and the allocator are recorded in a log, newest
first; what these calls answer is a parameter of each operation.
-/

namespace IomemoryVsl.Kscatter

def ENOMEM : Int32 := 12

def FUSION_PAGE_SHIFT : UInt64 := 12

/-- `FUSION_PAGE_SIZE`, an `unsigned long long`. -/
def FUSION_PAGE_SIZE : UInt64 := 1 <<< FUSION_PAGE_SHIFT

def IODRIVE_DMA_DIR_WRITE : Int32 := 0
def IODRIVE_DMA_DIR_READ : Int32 := 1

structure BusDmaSegment where
  dsAddr : UInt64
  dsLen : UInt64
deriving DecidableEq, Repr

structure Iovec where
  iovBase : UInt64
  iovLen : UInt64
deriving DecidableEq, Repr

inductive UioSeg where
  | userspace
  | sysspace
  | nocopy
deriving DecidableEq, Repr

inductive UioRw where
  | read
  | write
deriving DecidableEq, Repr

/-- `struct thread *`, `bus_dma_tag_t` and `bus_dmamap_t` are only compared and passed on. -/
abbrev Thread := Nat
abbrev DmaTag := Nat
abbrev DmaMap := Nat

/-- `struct freebsd_sgl`.  A `NULL` pointer is `none`; `segPtr` carries the array it points to, and
`uioVec` is the trailing array, of which the first `uioNum` entries have been recorded. -/
structure FreebsdSgl where
  uioMax : UInt32
  uioNum : UInt32
  uioSize : UInt32
  uioTd : Option Thread
  uioSegflg : UioSeg
  segPtr : Option (List BusDmaSegment)
  segNum : Int32
  dmaTag : Option DmaTag
  dmaMap : Option DmaMap
  uioVec : Nat → Iovec

/-- The entries recorded so far. -/
def FreebsdSgl.entries (fsg : FreebsdSgl) : List Iovec :=
  (List.range fsg.uioNum.toNat).map fsg.uioVec

/-- `struct uio`, with the `uioIovcnt` entries that `uio_iov` points to. -/
structure Uio where
  uioIov : List Iovec
  uioIovcnt : Int32
  uioOffset : Int64
  uioResid : Int64
  uioSegflg : UioSeg
  uioRw : UioRw
  uioTd : Option Thread
deriving DecidableEq, Repr

/-- Index into the segment array, `none` for `NULL`. -/
abbrev SegPtr := Option Nat

structure KfioDmaMap where
  mapOffset : UInt32
  mapLength : UInt32
  segCount : UInt32
  segSkip : UInt32
  segTrunc : UInt32
  segFirst : SegPtr
  segLast : SegPtr
deriving DecidableEq, Repr

/-- What the code must never do. -/
inductive Fault where
  | nullDeref
  | outOfBounds
  | kassert
  | diverges
deriving DecidableEq, Repr

def kassert (expr : Prop) [Decidable expr] : Except Fault Unit :=
  if expr then .ok () else .error .kassert

/-- Calls into busdma and the allocator. -/
inductive BusCall where
  | vmalloc (size : UInt64)
  | vfree (size : UInt64)
  | tagCreate (rc : Int32)
  | tagDestroy (tag : DmaTag)
  | mapCreate (tag : Option DmaTag) (rc : Int32)
  | mapDestroy (tag : DmaTag) (map : Option DmaMap)
  | loadUio (tag : Option DmaTag) (map : Option DmaMap) (uio : Uio) (rc : Int32)
  | unload (tag : Option DmaTag) (map : Option DmaMap)
deriving DecidableEq, Repr

abbrev BusLog := List BusCall

/-- `sizeof(*fsg) + extra * sizeof(struct iovec)` on amd64. -/
def sglAllocSize (extra : UInt64) : UInt64 := 96 + extra * 16

/-! ## Unmapping, reset, allocation and destruction -/

def kfioSglDmaUnmap (log : BusLog) (fsg : FreebsdSgl) : BusLog × FreebsdSgl :=
  if fsg.segPtr ≠ none then
    (.unload fsg.dmaTag fsg.dmaMap :: log, { fsg with segPtr := none, segNum := 0 })
  else (log, fsg)

/-- `kfio_sgl_destroy`; the list is gone afterwards, what is left are the calls made. -/
def kfioSglDestroy (log : BusLog) (fsg : FreebsdSgl) : BusLog :=
  let log :=
    match fsg.dmaTag with
    -- a list without a tag has no map either
    | some tag =>
        let (log, fsg) := if fsg.segPtr ≠ none then kfioSglDmaUnmap log fsg else (log, fsg)
        .tagDestroy tag :: .mapDestroy tag fsg.dmaMap :: log
    | none => log
  .vfree (sglAllocSize (fsg.uioMax - 1).toUInt64) :: log

def kfioSglReset (log : BusLog) (fsg : FreebsdSgl) : BusLog × FreebsdSgl :=
  let (log, fsg) := if fsg.segPtr ≠ none then kfioSglDmaUnmap log fsg else (log, fsg)
  (log, { fsg with uioNum := 0, uioSize := 0 })

/-- What the calls of `kfio_sgl_alloc_nvec` answer: the fresh memory (its contents are arbitrary),
`bus_dma_tag_create` and `bus_dmamap_create`. -/
structure AllocEnv where
  memory : Option FreebsdSgl
  tagRc : Int32
  tag : DmaTag
  mapRc : Int32
  map : DmaMap

def kfioSglAllocNvec (env : AllocEnv) (nvecs : Int32) : Int32 × Option FreebsdSgl × BusLog :=
  let log : BusLog := [.vmalloc (sglAllocSize (nvecs - 1).toInt64.toUInt64)]
  match env.memory with
  | none => (-ENOMEM, none, log)
  | some mem =>
      let fsg : FreebsdSgl := { mem with
        uioMax := nvecs.toUInt32
        uioNum := 0
        uioSize := 0
        segNum := 0
        segPtr := none
        dmaTag := none
        dmaMap := none }
      let log := .tagCreate env.tagRc :: log
      -- bail: the error is returned negated, and the list is destroyed as far as it got
      if env.tagRc ≠ 0 then (-env.tagRc, none, kfioSglDestroy log fsg)
      else
        let fsg := { fsg with dmaTag := some env.tag }
        let log := .mapCreate fsg.dmaTag env.mapRc :: log
        if env.mapRc ≠ 0 then (-env.mapRc, none, kfioSglDestroy log fsg)
        else (0, some { fsg with dmaMap := some env.map }, log)

/-! ## Recording I/O vectors -/

def kfioSglSize (fsg : FreebsdSgl) : UInt32 := fsg.uioSize

/-- `uio_vec[uio_num]` is filled in and counted. -/
def FreebsdSgl.record (fsg : FreebsdSgl) (base : UInt64) (len : UInt32) : FreebsdSgl :=
  { fsg with
    uioVec := Function.update fsg.uioVec fsg.uioNum.toNat ⟨base, len.toUInt64⟩
    uioSize := fsg.uioSize + len
    uioNum := fsg.uioNum + 1 }

def kfioSglMapBytes (fsg : FreebsdSgl) (buffer : UInt64) (size : UInt32) : Int32 × FreebsdSgl :=
  if fsg.uioNum ≥ fsg.uioMax then (-ENOMEM, fsg)
  -- an empty list may still carry the tag of what it held before
  else if fsg.uioNum ≠ 0 ∧ fsg.uioSegflg ≠ .sysspace then (-ENOMEM, fsg)
  else (0, { fsg.record buffer size with uioSegflg := .sysspace, uioTd := none })

def kfioSglMapPage (fsg : FreebsdSgl) (page : UInt64) (offset size : UInt32) :
    Int32 × FreebsdSgl :=
  kfioSglMapBytes fsg (page + offset.toUInt64) size

/-- `MIN(size, FUSION_PAGE_SIZE - offset)`, computed in 64 bits and stored in 32. -/
def mappedBytes (size offset : UInt32) : UInt32 :=
  if size.toUInt64 < FUSION_PAGE_SIZE - offset.toUInt64 then size
  else (FUSION_PAGE_SIZE - offset.toUInt64).toUInt32

/-- The loop of `kfio_sgl_map_user_pages`: `p` is the index of the next page that `*p++` reads.
The answer has the number of pages read next to the return value. -/
def mapUserPagesLoop (pages : Nat → UInt64) :
    Nat → FreebsdSgl → Nat → UInt32 → UInt32 → Except Fault (Int32 × FreebsdSgl × Nat)
  | 0, _, _, _, _ => .error .diverges
  | fuel + 1, fsg, p, size, offset =>
      if size > 0 then
        -- the pages recorded so far stay on the list
        if fsg.uioNum ≥ fsg.uioMax then .ok (-ENOMEM, fsg, p)
        else
          let mapped := mappedBytes size offset
          mapUserPagesLoop pages fuel (fsg.record (pages p + offset.toUInt64) mapped) (p + 1)
            (size - mapped) 0
      else .ok (0, fsg, p)

/-- `kfio_sgl_map_user_pages`, called by the thread `curthread`. -/
def kfioSglMapUserPages (fsg : FreebsdSgl) (pages : Nat → UInt64) (size offset : UInt32)
    (curthread : Thread) : Except Fault (Int32 × FreebsdSgl × Nat) :=
  if fsg.uioNum ≠ 0 ∧ fsg.uioSegflg ≠ .userspace then .ok (-ENOMEM, fsg, 0)
  else if fsg.uioNum ≠ 0 ∧ fsg.uioTd ≠ some curthread then .ok (-ENOMEM, fsg, 0)
  else
    -- each turn records an entry, so the capacity bounds the number of turns
    mapUserPagesLoop pages (fsg.uioMax.toNat - fsg.uioNum.toNat + 1)
      { fsg with uioSegflg := .userspace, uioTd := some curthread } 0 size offset

/-! ## Mapping for DMA -/

/-- What `bus_dmamap_load_uio` returns, and what it passes to its callback. -/
structure BusLoad where
  rc : Int32
  segs : List BusDmaSegment
  nsegs : Int32
  error : Int32

def fusionDmamapCallback (fsg : FreebsdSgl) (segs : List BusDmaSegment) (nsegs error : Int32) :
    FreebsdSgl :=
  if error = 0 then { fsg with segPtr := some segs, segNum := nsegs }
  else { fsg with segPtr := none, segNum := 0 }

/-- The map that `kfio_sgl_dma_map` fills in for its caller. -/
def wholeDmaMap (fsg : FreebsdSgl) : KfioDmaMap where
  mapOffset := 0
  mapLength := fsg.uioSize
  segCount := fsg.segNum.toUInt32
  segSkip := 0
  segTrunc := 0
  segFirst := some 0
  segLast := some (fsg.segNum.toInt - 1).toNat

/-- The `struct uio` that `kfio_sgl_dma_map` hands to busdma. -/
def FreebsdSgl.uio (fsg : FreebsdSgl) (dir : Int32) : Uio where
  uioIov := fsg.entries
  uioIovcnt := fsg.uioNum.toInt32
  uioOffset := 0
  uioResid := fsg.uioSize.toUInt64.toInt64
  uioSegflg := fsg.uioSegflg
  uioRw := if dir = IODRIVE_DMA_DIR_WRITE then .write else .read
  uioTd := fsg.uioTd

/-- `kfio_sgl_dma_map`; `dmap` is `none` when the caller passes `NULL`. -/
def kfioSglDmaMap (load : BusLoad) (log : BusLog) (fsg : FreebsdSgl) (dmap : Option KfioDmaMap)
    (dir : Int32) : Int32 × BusLog × FreebsdSgl × Option KfioDmaMap :=
  let log := .loadUio fsg.dmaTag fsg.dmaMap (fsg.uio dir) load.rc :: log
  let fsg := fusionDmamapCallback fsg load.segs load.nsegs load.error
  -- busdma has called back before it returns, also on an error
  if load.rc ≠ 0 then (-load.rc, log, fsg, dmap)
  else (fsg.segNum, log, fsg, dmap.map fun _ ↦ wholeDmaMap fsg)

end IomemoryVsl.Kscatter
