import IomemoryVsl.Kscatter.Sgl

/-!
# Block requests (`kblock.c`)

What `kfio_block_dequeue_bio` does to one request between taking it off the queue and deciding
where it goes, and what `freebsd_bio_completor` does when the device is finished with it.  The
answers of the allocators and of the mapping steps are parameters; calls out of the file are
recorded in the order in which they are made.
-/

namespace IomemoryVsl.Kblock

open Kscatter (ENOMEM IODRIVE_DMA_DIR_READ IODRIVE_DMA_DIR_WRITE)

def EIO : Int32 := 5
def ENXIO : Int32 := 6
def ENOTSUP : Int32 := 45

inductive BioCmd where
  | read
  | write
  | delete
  | other (cmd : UInt16)
deriving DecidableEq, Repr

/-- The fields of `struct bio` that the driver reads or writes. -/
structure Bio where
  bioCmd : BioCmd
  bioData : UInt64
  bioBcount : Int64
  bioOffset : Int64
  bioResid : Int64
  bioDriver1 : UInt64
deriving DecidableEq, Repr

inductive KbioCmd where
  | invalid
  | read
  | write
  | discard
  | flush
deriving DecidableEq, Repr

/-- Names of requests and of the objects that `kfio_bio_alloc` hands out. -/
abbrev BioId := Nat
abbrev FbioId := Nat

/-- `kfio_bio_t`; its completor is always `freebsd_bio_completor`. -/
structure Fbio where
  id : FbioId
  fbioCmd : KbioCmd
  fbioSize : UInt64
  fbioOffset : UInt64
  fbioParameter : BioId
deriving DecidableEq, Repr

inductive KblockCall where
  | vmalloc (size p : UInt64)
  | vfree (p size : UInt64)
  | memcpy (dst src len : UInt64)
  | bioFree (fbio : FbioId)
  | sglMapBytes (fbio : FbioId) (buffer : UInt64) (size : UInt32)
  | sglDmaMap (fbio : FbioId) (dir : Int32)
  | sglDmaUnmap (fbio : FbioId)
deriving DecidableEq, Repr

/-- What the steps of one dequeue answer. -/
structure DequeueEnv where
  vmalloc : UInt64
  bioAlloc : Option FbioId
  shouldFail : Bool
  mapBytes : Int32
  dmaMap : Int32
deriving DecidableEq, Repr

/-- Where a request goes from the dequeue that took it. -/
inductive DequeueExit where
  /-- the fbio is returned to the caller -/
  | handedOut (fbio : Fbio)
  /-- `biofinish` with this error -/
  | finished (error : Int32)
  /-- back to the head of the queue -/
  | requeue
deriving DecidableEq, Repr

/-- `(bp->bio_bcount + 7) & ~8`, converted to `fio_size_t`. -/
def bounceSize (bp : Bio) : UInt64 :=
  ((bp.bioBcount + 7) &&& ~~~8).toUInt64

/-- `error < 0 ? -error : error`. -/
def positiveErrno (error : Int32) : Int32 :=
  if error < 0 then -error else error

/-- The label `error_exit`, up to the point where the lock is taken again. -/
def dequeueErrorExit (bp : Bio) (fbio : Option FbioId) (error : Int32) (calls : List KblockCall) :
    Bio × List KblockCall × DequeueExit :=
  let (bp, calls) :=
    if bp.bioDriver1 ≠ bp.bioData then
      ({ bp with bioData := bp.bioDriver1 }, calls ++ [.vfree bp.bioData (bounceSize bp)])
    else (bp, calls)
  let calls :=
    match fbio with
    | some id => calls ++ [.bioFree id]
    | none => calls
  -- the mapping steps report -ENOMEM, which does not count as retryable
  if error ≠ ENOMEM then
    ({ bp with bioResid := bp.bioBcount }, calls, .finished (positiveErrno error))
  else (bp, calls, .requeue)

/-- An aligned stand-in for a buffer that the hardware cannot address, filled on a write. -/
def dequeueBounce (bp : Bio) (data : UInt64) : Bio × List KblockCall :=
  let bp := { bp with bioDriver1 := bp.bioData }
  if bp.bioData &&& 7 ≠ 0 then
    let bp' := { bp with bioData := data }
    let calls := [.vmalloc (bounceSize bp) data]
    if bp.bioCmd = .write then
      (bp', calls ++ [.memcpy bp'.bioData bp'.bioDriver1 bp'.bioBcount.toUInt64])
    else (bp', calls)
  else (bp, [])

/-- A read or a write: map the buffer, then load the map in the direction of the transfer. -/
def dequeueMap (bp : Bio) (fbio : Fbio) (env : DequeueEnv) (dir : Int32)
    (calls : List KblockCall) : Bio × List KblockCall × DequeueExit :=
  let calls := calls ++ [.sglMapBytes fbio.id bp.bioData bp.bioBcount.toUInt64.toUInt32]
  if env.mapBytes = 0 then
    let calls := calls ++ [.sglDmaMap fbio.id dir]
    -- the load reports the number of segments, or a negative error
    if env.dmaMap > 0 then (bp, calls, .handedOut fbio)
    else dequeueErrorExit bp (some fbio.id) env.dmaMap calls
  else dequeueErrorExit bp (some fbio.id) env.mapBytes calls

/-- `kfio_block_dequeue_bio` on the request `b` from `fusion_cv_unlock` on. -/
def dequeueBody (b : BioId) (bp : Bio) (env : DequeueEnv) : Bio × List KblockCall × DequeueExit :=
  let (bp, calls) := dequeueBounce bp env.vmalloc
  match env.bioAlloc with
  | none => dequeueErrorExit bp none (if env.shouldFail then EIO else ENOMEM) calls
  | some id =>
      -- the command is set below
      let fbio : Fbio := ⟨id, .invalid, bp.bioBcount.toUInt64, bp.bioOffset.toUInt64, b⟩
      match bp.bioCmd with
      | .delete => (bp, calls, .handedOut { fbio with fbioCmd := .discard })
      | .write => dequeueMap bp { fbio with fbioCmd := .write } env IODRIVE_DMA_DIR_WRITE calls
      | .read => dequeueMap bp { fbio with fbioCmd := .read } env IODRIVE_DMA_DIR_READ calls
      | .other _ => dequeueErrorExit bp (some id) ENOTSUP calls

/-- `freebsd_bio_completor`, and the error that the request is finished with (0 for `biodone`). -/
def freebsdBioCompletor (fbio : Fbio) (bp : Bio) (bytesDone : UInt64) (error : Int32) :
    Bio × List KblockCall × Int32 :=
  let calls : List KblockCall :=
    if fbio.fbioCmd = .read ∨ fbio.fbioCmd = .write then [.sglDmaUnmap fbio.id] else []
  let (bp, calls) :=
    if bp.bioDriver1 ≠ bp.bioData then
      let copy : List KblockCall :=
        if bp.bioCmd = .read then [.memcpy bp.bioDriver1 bp.bioData bytesDone] else []
      ({ bp with bioData := bp.bioDriver1 },
        calls ++ copy ++ [.vfree bp.bioData (bounceSize bp)])
    else (bp, calls)
  let bp := { bp with bioResid := bp.bioBcount - bytesDone.toInt64 }
  (bp, calls, if error ≠ 0 then positiveErrno error else 0)

/-! ## Where a request can go -/

theorem dequeueErrorExit_ne_handedOut (bp : Bio) (f : Option FbioId) (error : Int32)
    (calls : List KblockCall) (fbio : Fbio) :
    (dequeueErrorExit bp f error calls).2.2 ≠ .handedOut fbio := by
  unfold dequeueErrorExit
  dsimp only
  by_cases herr : error ≠ ENOMEM
  · rw [if_pos herr]
    exact fun heq ↦ DequeueExit.noConfusion heq
  · rw [if_neg herr]
    exact fun heq ↦ DequeueExit.noConfusion heq

theorem dequeueMap_handedOut {bp : Bio} {f fbio : Fbio} {env : DequeueEnv} {dir : Int32}
    {calls : List KblockCall} (h : (dequeueMap bp f env dir calls).2.2 = .handedOut fbio) :
    fbio = f := by
  unfold dequeueMap at h
  dsimp only at h
  by_cases hmap : env.mapBytes = 0
  · rw [if_pos hmap] at h
    by_cases hdma : env.dmaMap > 0
    · rw [if_pos hdma, DequeueExit.handedOut.injEq] at h
      exact h.symm
    · rw [if_neg hdma] at h
      exact absurd h (dequeueErrorExit_ne_handedOut _ _ _ _ _)
  · rw [if_neg hmap] at h
    exact absurd h (dequeueErrorExit_ne_handedOut _ _ _ _ _)

/-- The fbio that a dequeue returns is the one it allocated, made for the request it took. -/
theorem dequeueBody_handedOut {b : BioId} {bp : Bio} {env : DequeueEnv} {fbio : Fbio}
    (h : (dequeueBody b bp env).2.2 = .handedOut fbio) :
    fbio.fbioParameter = b ∧ env.bioAlloc = some fbio.id := by
  unfold dequeueBody at h
  dsimp only at h
  cases halloc : env.bioAlloc with
  | none =>
      rw [halloc] at h
      exact absurd h (dequeueErrorExit_ne_handedOut _ _ _ _ _)
  | some id =>
      rw [halloc] at h
      dsimp only at h
      split at h
      · rw [DequeueExit.handedOut.injEq] at h
        subst h
        exact ⟨rfl, rfl⟩
      · rw [dequeueMap_handedOut h]
        exact ⟨rfl, rfl⟩
      · rw [dequeueMap_handedOut h]
        exact ⟨rfl, rfl⟩
      · exact absurd h (dequeueErrorExit_ne_handedOut _ _ _ _ _)

end IomemoryVsl.Kblock
