import IomemoryVsl.Kscatter.Sgl

/-!
# Coherent DMA memory (`kmem.c`)

`kfio_dma_alloc_coherent` takes a tag, memory and a loaded map from busdma, one after the other, and
gives back what it has when a step fails.  busdma answers the last step twice: it returns a code,
and it calls `kfio_map_dma_callback` with the segments or with an error.
-/

namespace IomemoryVsl.Kmem

open Kscatter (BusDmaSegment DmaTag DmaMap Fault kassert ENOMEM)

def EINVAL : Int32 := 22
def EINPROGRESS : Int32 := 36

/-- `struct fusion_dma_t`, with the `struct _fusion_freebsd_dma` that lies over `_private`. -/
structure FusionDma where
  physAddr : UInt64
  tag : Option DmaTag
  map : Option DmaMap
deriving DecidableEq, Repr

/-- What `bus_dmamap_load` passes to its callback. -/
structure DmaCallback where
  segs : List BusDmaSegment
  nseg : Int32
  error : Int32
deriving DecidableEq, Repr

/-- What the steps of one allocation answer; `callback` is `none` when `bus_dmamap_load` returns
without having called back. -/
structure CoherentEnv where
  tagRc : Int32
  tag : DmaTag
  memRc : Int32
  vaddr : UInt64
  map : DmaMap
  loadRc : Int32
  callback : Option DmaCallback
deriving DecidableEq, Repr

/-- Calls into busdma, with their answers. -/
inductive DmaCall where
  | tagCreate (size : UInt32) (rc : Int32) (tag : DmaTag)
  | memAlloc (tag : Option DmaTag) (rc : Int32) (vaddr : UInt64) (map : DmaMap)
  | load (tag : Option DmaTag) (map : Option DmaMap) (vaddr : UInt64) (size : UInt32) (rc : Int32)
      (callback : Option DmaCallback)
  | unload (tag : Option DmaTag) (map : Option DmaMap)
  | memFree (tag : Option DmaTag) (vaddr : UInt64) (map : Option DmaMap)
  | tagDestroy (tag : Option DmaTag)
deriving DecidableEq, Repr

/-! ## The functions -/

def kfioMapDmaCallback (dmaHandle : FusionDma) (callback : DmaCallback) : Except Fault FusionDma :=
  -- the error goes no further than this
  if callback.error ≠ 0 then .ok dmaHandle
  else do
    kassert (callback.nseg = 1)
    match callback.segs with
    | [] => .error .outOfBounds
    | seg :: _ => .ok { dmaHandle with physAddr := seg.dsAddr }

/-- What `bus_dmamap_load` has done to the handle by the time it returns. -/
def callBack (dmaHandle : FusionDma) : Option DmaCallback → Except Fault FusionDma
  | some callback => kfioMapDmaCallback dmaHandle callback
  | none => .ok dmaHandle

/-- The label `free_handle`. -/
def freeHandle (dmaHandle : FusionDma) (calls : List DmaCall) : UInt64 × FusionDma × List DmaCall :=
  (0, dmaHandle, calls ++ [.tagDestroy dmaHandle.tag])

/-- The label `free_mem`. -/
def freeMem (dmaHandle : FusionDma) (vaddr : UInt64) (calls : List DmaCall) :
    UInt64 × FusionDma × List DmaCall :=
  freeHandle dmaHandle (calls ++ [.memFree dmaHandle.tag vaddr dmaHandle.map])

/-- `kfio_dma_alloc_coherent`: the address that it returns, the handle, and the calls made. -/
def kfioDmaAllocCoherent (env : CoherentEnv) (size : UInt32) (dmaHandle : FusionDma) :
    Except Fault (UInt64 × FusionDma × List DmaCall) :=
  let calls := [.tagCreate size env.tagRc env.tag]
  if env.tagRc ≠ 0 then .ok (0, dmaHandle, calls)
  else
    let dmaHandle := { dmaHandle with tag := some env.tag }
    let calls := calls ++ [.memAlloc dmaHandle.tag env.memRc env.vaddr env.map]
    if env.memRc ≠ 0 then .ok (freeHandle dmaHandle calls)
    else do
      let dmaHandle := { dmaHandle with map := some env.map }
      let calls := calls ++
        [.load dmaHandle.tag dmaHandle.map env.vaddr size env.loadRc env.callback]
      let dmaHandle ← callBack dmaHandle env.callback
      -- each of these prints a message of its own
      if env.loadRc = ENOMEM then .ok (freeMem dmaHandle env.vaddr calls)
      else if env.loadRc = EINVAL then .ok (freeMem dmaHandle env.vaddr calls)
      else if env.loadRc = EINPROGRESS then .ok (freeMem dmaHandle env.vaddr calls)
      else if env.loadRc ≠ 0 then .ok (freeMem dmaHandle env.vaddr calls)
      else .ok (env.vaddr, dmaHandle, calls)

def kfioDmaFreeCoherent (vaddr : UInt64) (dmaHandle : FusionDma) : FusionDma × List DmaCall :=
  ({ physAddr := 0, tag := none, map := none },
    [.unload dmaHandle.tag dmaHandle.map, .memFree dmaHandle.tag vaddr dmaHandle.map,
      .tagDestroy dmaHandle.tag])

/-! ## What is taken and given back -/

inductive DmaResource where
  | tag (tag : Option DmaTag)
  | memory (tag : Option DmaTag) (vaddr : UInt64) (map : Option DmaMap)
  | loaded (tag : Option DmaTag) (map : Option DmaMap)
deriving DecidableEq, Repr

/-- busdma has loaded the map only if neither answer is an error. -/
def DmaCall.takes : DmaCall → List DmaResource
  | .tagCreate _ rc tag => if rc = 0 then [.tag (some tag)] else []
  | .memAlloc tag rc vaddr map => if rc = 0 then [.memory tag vaddr (some map)] else []
  | .load tag map _ _ rc callback =>
      if rc = 0 ∧ ∀ cb ∈ callback, cb.error = 0 then [.loaded tag map] else []
  | _ => []

def DmaCall.releases : DmaCall → List DmaResource
  | .unload tag map => [.loaded tag map]
  | .memFree tag vaddr map => [.memory tag vaddr map]
  | .tagDestroy tag => [.tag tag]
  | _ => []

/-- What busdma promises of its answers: memory has an address, a load that is not put off calls
back before it returns 0, a load that returns an error has not called back with segments, and
segments come as the single one that the tag allows. -/
structure CoherentEnv.Promised (env : CoherentEnv) : Prop where
  vaddr : env.memRc = 0 → env.vaddr ≠ 0
  called : env.loadRc = 0 → env.callback ≠ none
  failed : ∀ cb ∈ env.callback, env.loadRc ≠ 0 → cb.error ≠ 0
  single : ∀ cb ∈ env.callback, cb.error = 0 → ∃ seg, cb.segs = [seg] ∧ cb.nseg = 1

/-- An address comes with everything held and the bus address of the loaded segment, and freeing it
gives back just that; without an address, what was taken has been given back. -/
def AllocSound (env : CoherentEnv) (size : UInt32) (dmaHandle : FusionDma) : Prop :=
  ∃ vaddr handle calls, kfioDmaAllocCoherent env size dmaHandle = .ok (vaddr, handle, calls) ∧
    (vaddr ≠ 0 →
      (∃ seg, env.callback = some ⟨[seg], 1, 0⟩ ∧ handle.physAddr = seg.dsAddr) ∧
      calls.flatMap DmaCall.takes =
        [.tag handle.tag, .memory handle.tag vaddr handle.map, .loaded handle.tag handle.map] ∧
      calls.flatMap DmaCall.releases = [] ∧
      (kfioDmaFreeCoherent vaddr handle).2.flatMap DmaCall.releases =
        (calls.flatMap DmaCall.takes).reverse) ∧
    (vaddr = 0 → calls.flatMap DmaCall.releases = (calls.flatMap DmaCall.takes).reverse)

/-- `bus_dmamap_load` returns 0 and reports its failure to the callback alone. -/
def CoherentEnv.FailsInCallback (env : CoherentEnv) : Prop :=
  env.tagRc = 0 ∧ env.memRc = 0 ∧ env.loadRc = 0 ∧ ∃ cb ∈ env.callback, cb.error ≠ 0

variable {env : CoherentEnv}

/-- A callback with an error leaves the handle as it is. -/
theorem kfioMapDmaCallback_error {handle : FusionDma} {cb : DmaCallback} (herr : cb.error ≠ 0) :
    kfioMapDmaCallback handle cb = .ok handle := by
  rw [kfioMapDmaCallback, if_pos herr]

theorem kfioMapDmaCallback_single {handle : FusionDma} {cb : DmaCallback} {seg : BusDmaSegment}
    (herr : cb.error = 0) (hsegs : cb.segs = [seg]) (hnseg : cb.nseg = 1) :
    kfioMapDmaCallback handle cb = .ok { handle with physAddr := seg.dsAddr } := by
  rw [kfioMapDmaCallback, if_neg (not_not.mpr herr), hsegs, kassert, if_pos hnseg]
  rfl

/-- The handle once the tag and the memory are there. -/
def FusionDma.filled (handle : FusionDma) (env : CoherentEnv) : FusionDma :=
  { handle with tag := some env.tag, map := some env.map }

/-- A load that fails by its return code, whichever code it is. -/
theorem kfioDmaAllocCoherent_loadFails (hdoc : env.Promised) (size : UInt32) (handle : FusionDma)
    (htag : env.tagRc = 0) (hmem : env.memRc = 0) (hload : env.loadRc ≠ 0) :
    kfioDmaAllocCoherent env size handle = .ok (freeMem (handle.filled env) env.vaddr
      [.tagCreate size env.tagRc env.tag, .memAlloc (some env.tag) env.memRc env.vaddr env.map,
        .load (some env.tag) (some env.map) env.vaddr size env.loadRc env.callback]) := by
  have hcallback : callBack (handle.filled env) env.callback = .ok (handle.filled env) := by
    cases hcb : env.callback with
    | none => rfl
    | some cb => exact kfioMapDmaCallback_error (hdoc.failed cb hcb hload)
  unfold FusionDma.filled at hcallback ⊢
  simp only [kfioDmaAllocCoherent, htag, hmem, ne_eq, not_true_eq_false, if_false,
    List.cons_append, List.nil_append, hcallback, bind, Except.bind, hload,
    not_false_eq_true, if_true, ite_self]

/-- A load that returns 0 makes the allocation return its memory, with or without an address in the
handle. -/
theorem kfioDmaAllocCoherent_loadReturns (size : UInt32) (handle handle' : FusionDma)
    (htag : env.tagRc = 0) (hmem : env.memRc = 0) (hload : env.loadRc = 0)
    (hcallback : callBack (handle.filled env) env.callback = .ok handle') :
    kfioDmaAllocCoherent env size handle = .ok (env.vaddr, handle',
      [.tagCreate size env.tagRc env.tag, .memAlloc (some env.tag) env.memRc env.vaddr env.map,
        .load (some env.tag) (some env.map) env.vaddr size env.loadRc env.callback]) := by
  have hnomem : ¬ (0 : Int32) = ENOMEM := by decide
  have hinval : ¬ (0 : Int32) = EINVAL := by decide
  have hprogress : ¬ (0 : Int32) = EINPROGRESS := by decide
  unfold FusionDma.filled at hcallback
  simp only [kfioDmaAllocCoherent, htag, hmem, hload, ne_eq, not_true_eq_false, if_false,
    List.cons_append, List.nil_append, hcallback, bind, Except.bind, hnomem, hinval, hprogress]

/-- For every answer of busdma and whatever the handle held, the allocation and the free that
follows are as they should be exactly if no load fails in the callback alone. -/
theorem allocSound_iff (hdoc : env.Promised) (size : UInt32) (handle : FusionDma) :
    AllocSound env size handle ↔ ¬ env.FailsInCallback := by
  constructor
  · rintro ⟨vaddr, handle', calls, heq, hsome, -⟩ ⟨htag, hmem, hload, cb, hcb, herr⟩
    rw [Option.mem_def] at hcb
    rw [kfioDmaAllocCoherent_loadReturns size handle (handle.filled env) htag hmem hload
      (by rw [hcb]; exact kfioMapDmaCallback_error herr)] at heq
    cases heq
    -- the segment whose address is promised is not there
    obtain ⟨⟨seg, hseg, -⟩, -⟩ := hsome (hdoc.vaddr hmem)
    rw [hseg] at hcb
    cases hcb
    exact herr rfl
  · intro hnot
    by_cases htag : env.tagRc = 0
    · by_cases hmem : env.memRc = 0
      · by_cases hload : env.loadRc = 0
        · obtain ⟨cb, hcb⟩ := Option.ne_none_iff_exists'.mp (hdoc.called hload)
          have herr : cb.error = 0 := by
            by_contra herr
            exact hnot ⟨htag, hmem, hload, cb, hcb, herr⟩
          obtain ⟨seg, hsegs, hnseg⟩ := hdoc.single cb hcb herr
          have hsingle : env.callback = some ⟨[seg], 1, 0⟩ := by
            rw [hcb, ← hsegs, ← hnseg, ← herr]
          refine ⟨_, _, _, kfioDmaAllocCoherent_loadReturns size handle _ htag hmem hload
            (by rw [hcb]; exact kfioMapDmaCallback_single herr hsegs hnseg), fun _ ↦ ?_,
            fun hnull ↦ absurd hnull (hdoc.vaddr hmem)⟩
          refine ⟨⟨seg, hsingle, rfl⟩, ?_, rfl, ?_⟩ <;>
            simp [DmaCall.takes, DmaCall.releases, kfioDmaFreeCoherent, FusionDma.filled, htag,
              hmem, hload, hsingle]
        · refine ⟨_, _, _, kfioDmaAllocCoherent_loadFails hdoc size handle htag hmem hload,
            fun hne ↦ absurd rfl hne, fun _ ↦ ?_⟩
          simp [DmaCall.takes, DmaCall.releases, FusionDma.filled, htag, hmem, hload]
      · refine ⟨0, { handle with tag := some env.tag }, [.tagCreate size env.tagRc env.tag,
          .memAlloc (some env.tag) env.memRc env.vaddr env.map, .tagDestroy (some env.tag)], ?_,
          fun hne ↦ absurd rfl hne, fun _ ↦ ?_⟩
        · simp [kfioDmaAllocCoherent, freeHandle, htag, hmem]
        · simp [DmaCall.takes, DmaCall.releases, htag, hmem]
    · refine ⟨0, handle, [.tagCreate size env.tagRc env.tag], ?_, fun hne ↦ absurd rfl hne,
        fun _ ↦ ?_⟩
      · simp [kfioDmaAllocCoherent, htag]
      · simp [DmaCall.takes, DmaCall.releases, htag]

/-- A page of memory at the bus address 0x20000. -/
def onePageEnv : CoherentEnv := ⟨0, 3, 0, 0x7000, 4, 0, some ⟨[⟨0x20000, 4096⟩], 1, 0⟩⟩

theorem onePageEnv_promised : onePageEnv.Promised where
  vaddr := by decide
  called := by decide
  failed := by decide
  single := by
    intro cb hcb _
    rw [onePageEnv, Option.mem_def, Option.some.injEq] at hcb
    rw [← hcb]
    exact ⟨⟨0x20000, 4096⟩, rfl, rfl⟩

theorem allocSound_onePageEnv : AllocSound onePageEnv 4096 ⟨0xdead, none, none⟩ := by
  refine (allocSound_iff onePageEnv_promised 4096 _).mpr ?_
  rintro ⟨-, -, -, cb, hcb, herr⟩
  rw [onePageEnv, Option.mem_def, Option.some.injEq] at hcb
  rw [← hcb] at herr
  exact herr rfl

/-- The callback is told `EFBIG`, and the memory is returned with what the handle held before. -/
theorem not_allocSound_toldTooBig :
    ¬ AllocSound ⟨0, 3, 0, 0x7000, 4, 0, some ⟨[], 0, 27⟩⟩ 4096 ⟨0xdead, none, none⟩ := by
  rintro ⟨vaddr, handle, calls, heq, hsome, -⟩
  cases heq
  obtain ⟨⟨seg, hseg, -⟩, -⟩ := hsome (by decide)
  cases hseg

end IomemoryVsl.Kmem
