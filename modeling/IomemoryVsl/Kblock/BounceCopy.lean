import IomemoryVsl.Kblock.BounceSize
import IomemoryVsl.Lib.ByteMemory

/-!
# The bytes of an unaligned request (`kblock.c`)

One request from `freebsd_disk_strategy` to its completion, with memory as bytes and the calls of
the driver carried out on it.  The buffer that stands in for an unaligned one is filled in one
function and emptied in another; a caller is not to notice.
-/

namespace IomemoryVsl.Kblock

open ByteMemory Transition
open Kscatter (ENOMEM FreebsdSgl kfioSglMapBytes)

/-! ## Memory, and the calls on it -/

structure Block where
  start : UInt64
  size : UInt64
deriving DecidableEq, Repr

/-- The byte at `x` belongs to the block. -/
def Block.Contains (k : Block) (x : ℕ) : Prop :=
  k.start.toNat ≤ x ∧ x < k.start.toNat + k.size.toNat

def Block.Holds (k k' : Block) : Prop :=
  k.start.toNat ≤ k'.start.toNat ∧
    k'.start.toNat + k'.size.toNat ≤ k.start.toNat + k.size.toNat

def Block.Apart (k k' : Block) : Prop :=
  k.start.toNat + k.size.toNat ≤ k'.start.toNat ∨ k'.start.toNat + k'.size.toNat ≤ k.start.toNat

/-- Memory as one request uses it: the caller's buffer and the blocks of `kfio_vmalloc`, with all
that were ever allocated and freed on the side, and the scatter list of the fbio.  `fault` is set by
a copy that leaves these blocks and by a free of anything else. -/
structure Arena where
  mem : Bytes
  given : Block
  blocks : List Block
  allocated : List Block
  freed : List Block
  sgl : FreebsdSgl
  fault : Bool

/-- The block lies inside one that may be used. -/
def Arena.Valid (a : Arena) (k : Block) : Prop :=
  ∃ k' ∈ a.given :: a.blocks, k'.Holds k

def Arena.Used (a : Arena) (x : ℕ) : Prop :=
  ∃ k ∈ a.given :: a.blocks, k.Contains x

instance (k : Block) (x : ℕ) : Decidable (k.Contains x) := inferInstanceAs (Decidable (_ ∧ _))

instance (k k' : Block) : Decidable (k.Holds k') := inferInstanceAs (Decidable (_ ∧ _))

instance (k k' : Block) : Decidable (k.Apart k') := inferInstanceAs (Decidable (_ ∨ _))

instance (a : Arena) (k : Block) : Decidable (a.Valid k) := List.decidableBEx _ _

instance (a : Arena) (x : ℕ) : Decidable (a.Used x) := List.decidableBEx _ _

def Arena.apply (a : Arena) : KblockCall → Arena
  -- a new block holds anything
  | .vmalloc size p =>
      { a with blocks := ⟨p, size⟩ :: a.blocks, allocated := a.allocated ++ [⟨p, size⟩] }
  | .vfree p size =>
      -- with the size that was asked for
      if ⟨p, size⟩ ∈ a.blocks then
        { a with blocks := a.blocks.erase ⟨p, size⟩, freed := a.freed ++ [⟨p, size⟩] }
      else { a with fault := true }
  | .memcpy dst src len =>
      if a.Valid ⟨dst, len⟩ ∧ a.Valid ⟨src, len⟩ ∧ Block.Apart ⟨dst, len⟩ ⟨src, len⟩ then
        { a with mem := copy a.mem dst.toNat src.toNat len.toNat }
      else { a with fault := true }
  | .sglMapBytes _ buffer size => { a with sgl := (kfioSglMapBytes a.sgl buffer size).2 }
  | .bioFree _ | .sglDmaMap _ _ | .sglDmaUnmap _ => a

def Arena.run (a : Arena) (calls : List KblockCall) : Arena :=
  calls.foldl Arena.apply a

/-- The bytes that the device reaches through a scatter list, in order. -/
def sglAddrs (sgl : FreebsdSgl) : List ℕ :=
  sgl.entries.flatMap fun iov ↦ List.range' iov.iovBase.toNat iov.iovLen.toNat

/-! ## One request -/

inductive Stage where
  | queued
  | outstanding (fbio : Fbio)
  /-- the device was done with `bytesDone` bytes, on a read those of `data` -/
  | completed (data : ℕ → UInt8) (bytesDone : UInt64)
  /-- by a dequeue that failed -/
  | finished

structure Transfer where
  queue : QueueState
  arena : Arena
  stage : Stage

/-- A caller of `kfio_block_dequeue_bio`, which holds the lock; the fbio that is allocated comes
with the list `sgl`. -/
def Transfer.attempt (t : Transfer) (env : DequeueEnv) (sgl : FreebsdSgl)
    (others : List BioId → List BioId) : Transfer :=
  match kfioBlockDequeueBio { t.queue with bioLock := true, calls := [] } env others with
  | .error _ => { t with arena := { t.arena with fault := true } }
  | .ok (queue, retval) =>
      { queue := queue
        arena := { t.arena with sgl := sgl }.run queue.calls
        stage :=
          match retval with
          | some fbio => .outstanding fbio
          | none => if queue.completions = t.queue.completions then .queued else .finished }

/-- The device works through the list and calls the completor. -/
def Transfer.complete (t : Transfer) (fbio : Fbio) (data : ℕ → UInt8) (bytesDone : UInt64)
    (error : Int32) : Transfer :=
  -- on a write the device only looks
  let mem :=
    if fbio.fbioCmd = .read then
      storeEach t.arena.mem ((sglAddrs t.arena.sgl).take bytesDone.toNat) data
    else t.arena.mem
  let b := fbio.fbioParameter
  let (bp, calls, result) := freebsdBioCompletor fbio (t.queue.bios b) bytesDone error
  { queue :=
      { t.queue with
        bios := Function.update t.queue.bios b bp
        completions := t.queue.completions ++ [(b, result)] }
    arena := { t.arena with mem := mem }.run calls
    stage := .completed data bytesDone }

/-- What everyone else does: to the queue, to other requests, and to memory that is not in use. -/
def Transfer.elsewhere (t : Transfer) (b : BioId) (queue : List BioId) (bios : BioId → Bio)
    (f : Bytes) : Transfer :=
  { t with
    queue := { t.queue with bioQueue := queue, bios := Function.update bios b (t.queue.bios b) }
    arena := { t.arena with mem := fun x ↦ if t.arena.Used x then t.arena.mem x else f x } }

inductive TransferEvent where
  | attempt (env : DequeueEnv) (sgl : FreebsdSgl) (others : List BioId → List BioId)
  | complete (data : ℕ → UInt8) (bytesDone : UInt64) (error : Int32)
  | elsewhere (queue : List BioId) (bios : BioId → Bio) (f : Bytes)

/-- New memory: aligned, in the address space, and no part of what is in use. -/
def Arena.Fresh (a : Arena) (k : Block) : Prop :=
  k.start &&& 7 = 0 ∧ k.start.toNat + k.size.toNat ≤ 2 ^ 64 ∧
    ∀ k' ∈ a.given :: a.blocks, k.Apart k'

/-- The allocators answer as they promise, and `kfio_sgl_map_bytes` as it is written. -/
def Arena.Answers (a : Arena) (bp : Bio) (env : DequeueEnv) (sgl : FreebsdSgl) : Prop :=
  sgl.uioNum = 0 ∧
    env.mapBytes = (kfioSglMapBytes sgl (dequeueBounce bp env.vmalloc).1.bioData
      bp.bioBcount.toUInt64.toUInt32).1 ∧
    (bp.bioData &&& 7 ≠ 0 → a.Fresh ⟨env.vmalloc, bounceSize bp⟩)

instance (a : Arena) (k : Block) : Decidable (a.Fresh k) :=
  inferInstanceAs (Decidable (_ ∧ _ ∧ _))

instance (a : Arena) (bp : Bio) (env : DequeueEnv) (sgl : FreebsdSgl) :
    Decidable (a.Answers bp env sgl) :=
  inferInstanceAs (Decidable (_ ∧ _ ∧ _))

/-- A step on the way of the request `b`.  It is dequeued when it is the first of the queue. -/
def transferStep (b : BioId) (t : Transfer) : TransferEvent → Option Transfer
  | .attempt env sgl others =>
      match t.stage with
      | .queued =>
          if t.queue.bioQueue.head? = some b ∧ t.arena.Answers (t.queue.bios b) env sgl then
            some (t.attempt env sgl others)
          else none
      | _ => none
  | .complete data bytesDone error =>
      match t.stage with
      | .outstanding fbio =>
          if bytesDone ≤ (t.queue.bios b).bioBcount.toUInt64 then
            some (t.complete fbio data bytesDone error)
          else none
      | _ => none
  | .elsewhere queue bios f =>
      match t.stage with
      | .queued | .outstanding _ => some (t.elsewhere b queue bios f)
      | _ => none

/-- The request once `freebsd_disk_strategy` has returned. -/
def strategyTransfer (s : DiskState) (b : BioId) (bio : Bio) (i : Nat) (mem : Bytes)
    (sgl : FreebsdSgl) : Transfer :=
  let s := freebsdDiskStrategy s b bio i
  { queue := ⟨false, s.bioQueue, s.bios, s.completions, []⟩
    arena := ⟨mem, ⟨bio.bioData, bio.bioBcount.toUInt64⟩, [], [], [], sgl, false⟩
    stage := .queued }

/-! ## What the caller is to see -/

/-- Whole sectors below 2^32 bytes, in a buffer in the address space. -/
structure SectorRequest (bio : Bio) : Prop where
  cmd : bio.bioCmd = .read ∨ bio.bioCmd = .write
  pos : 0 < bio.bioBcount
  sectors : bio.bioBcount.toInt % 512 = 0
  small : bio.bioBcount.toInt < 2 ^ 32
  fits : bio.bioData.toNat + bio.bioBcount.toUInt64.toNat ≤ 2 ^ 64

/-- The bytes of the request, and the `i`th byte of its buffer in the memory `m`. -/
def Bio.bytes (bio : Bio) : ℕ := bio.bioBcount.toUInt64.toNat

def Bio.byteAt (bio : Bio) (m : Bytes) (i : ℕ) : UInt8 := m (bio.bioData.toNat + i)

/-- A request that has been completed: the buffer holds `content`, `done` bytes were transferred,
the pointer is the caller's, and temporary memory was freed as often as it was allocated, which it
was exactly for an unaligned buffer. -/
structure Settled (b : BioId) (bio : Bio) (content : ℕ → UInt8) (done : ℕ) (t : Transfer) :
    Prop where
  buffer : ∀ i < bio.bytes, bio.byteAt t.arena.mem i = content i
  pointer : (t.queue.bios b).bioData = bio.bioData
  resid : (t.queue.bios b).bioResid.toInt = bio.bioBcount.toInt - done
  freed : t.arena.blocks = [] ∧ t.arena.freed = t.arena.allocated
  bounced : t.arena.allocated = [] ↔ bio.bioData &&& 7 = 0

/-- A request that waits for an attempt: the earlier ones have left nothing behind. -/
structure Waiting (b : BioId) (bio : Bio) (m₀ : Bytes) (t : Transfer) : Prop where
  buffer : ∀ i < bio.bytes, bio.byteAt t.arena.mem i = bio.byteAt m₀ i
  pointer : (t.queue.bios b).bioData = bio.bioData
  freed : t.arena.blocks = [] ∧ t.arena.freed = t.arena.allocated

/-- No fault; the device is given as many bytes as the request has, and on a write they are the
caller's; and what a completion leaves does not depend on the alignment of the buffer. -/
def Transparent (b : BioId) (bio : Bio) (m₀ : Bytes) (t : Transfer) : Prop :=
  t.arena.fault = false ∧
    match t.stage with
    | .queued => Waiting b bio m₀ t
    | .outstanding _ =>
        (sglAddrs t.arena.sgl).length = bio.bytes ∧
          (bio.bioCmd = .write → (sglAddrs t.arena.sgl).map t.arena.mem =
            (List.range bio.bytes).map (bio.byteAt m₀))
    | .completed data bytesDone =>
        Settled b bio (fun i ↦ if bio.bioCmd = .read ∧ i < bytesDone.toNat then data i
          else bio.byteAt m₀ i) bytesDone.toNat t
    | .finished => Settled b bio (bio.byteAt m₀) 0 t

/-! ## Before and while the buffer is replaced -/

/-- The request and memory while no dequeue has it. -/
structure Idle (bio : Bio) (m₀ : Bytes) (bp : Bio) (a : Arena) : Prop where
  fault : a.fault = false
  given : a.given = ⟨bio.bioData, bio.bioBcount.toUInt64⟩
  cmd : bp.bioCmd = bio.bioCmd
  bcount : bp.bioBcount = bio.bioBcount
  data : bp.bioData = bio.bioData
  buffer : ∀ i < bio.bytes, bio.byteAt a.mem i = bio.byteAt m₀ i
  blocks : a.blocks = []
  freed : a.freed = a.allocated
  aligned : bio.bioData &&& 7 = 0 → a.allocated = []

/-- The block that stands in for the buffer is the only one, and lies apart from it. -/
structure StandIn (k : Block) (a : Arena) : Prop where
  start : k.start &&& 7 = 0
  fits : k.start.toNat + k.size.toNat ≤ 2 ^ 64
  apart : k.Apart a.given
  blocks : a.blocks = [k]
  allocated : a.allocated = a.freed ++ [k]

/-- From `dequeueBounce` until the buffer is put back: `bio_data` is the caller's buffer or a block
that stands in for it, and on a write it holds the caller's bytes either way. -/
structure Bounced (bio : Bio) (m₀ : Bytes) (bp : Bio) (a : Arena) : Prop where
  fault : a.fault = false
  given : a.given = ⟨bio.bioData, bio.bioBcount.toUInt64⟩
  cmd : bp.bioCmd = bio.bioCmd
  bcount : bp.bioBcount = bio.bioBcount
  driver1 : bp.bioDriver1 = bio.bioData
  buffer : ∀ i < bio.bytes, bio.byteAt a.mem i = bio.byteAt m₀ i
  filled : bio.bioCmd = .write →
    ∀ i < bio.bytes, a.mem (bp.bioData.toNat + i) = bio.byteAt m₀ i
  place :
    (bio.bioData &&& 7 = 0 ∧ bp.bioData = bio.bioData ∧ a.blocks = [] ∧ a.freed = [] ∧
      a.allocated = []) ∨
    (bio.bioData &&& 7 ≠ 0 ∧ StandIn ⟨bp.bioData, bounceSize bio⟩ a)

variable {b : BioId} {bio bp : Bio} {m₀ : Bytes} {a : Arena} {t : Transfer} {env : DequeueEnv}

theorem bounceSize_congr (h : bp.bioBcount = bio.bioBcount) : bounceSize bp = bounceSize bio := by
  unfold bounceSize
  rw [h]

/-- Seven bytes more than needed. -/
theorem SectorRequest.bytes_le (hreq : SectorRequest bio) :
    bio.bytes ≤ (bounceSize bio).toNat := by
  have hle : bio.bioBcount.toUInt64 ≤ bounceSize bio := by
    rw [le_bounceSize_iff hreq.pos]
    have hsectors := hreq.sectors
    omega
  exact UInt64.le_iff_toNat_le.mp hle

theorem SectorRequest.bytes_lt (hreq : SectorRequest bio) : bio.bytes < 2 ^ 32 := by
  have hcount := toNat_bioBcount hreq.pos
  have hsmall := hreq.small
  unfold Bio.bytes
  omega

theorem dequeueBounce_aligned (h : bp.bioData &&& 7 = 0) (p : UInt64) :
    dequeueBounce bp p = ({ bp with bioDriver1 := bp.bioData }, []) := by
  unfold dequeueBounce
  simp [h]

theorem dequeueBounce_unaligned (h : bp.bioData &&& 7 ≠ 0) (p : UInt64) :
    dequeueBounce bp p = ({ bp with bioDriver1 := bp.bioData, bioData := p },
      .vmalloc (bounceSize bp) p ::
        if bp.bioCmd = .write then [.memcpy p bp.bioData bp.bioBcount.toUInt64] else []) := by
  unfold dequeueBounce
  by_cases hw : bp.bioCmd = .write <;> simp [h, hw, bounceSize]

theorem Arena.run_append (a : Arena) (calls calls' : List KblockCall) :
    a.run (calls ++ calls') = (a.run calls).run calls' :=
  List.foldl_append

/-- A copy between the caller's buffer and the block that stands in for it. -/
theorem Arena.apply_memcpy {dst src len : UInt64} (hdst : a.Valid ⟨dst, len⟩)
    (hsrc : a.Valid ⟨src, len⟩) (hap : Block.Apart ⟨dst, len⟩ ⟨src, len⟩) :
    a.apply (.memcpy dst src len) =
      { a with mem := copy a.mem dst.toNat src.toNat len.toNat } :=
  if_pos ⟨hdst, hsrc, hap⟩

/-- Parts of blocks that lie apart lie apart. -/
theorem Block.Apart.mono {k k' j j' : Block} (hap : k.Apart k') (hj : k.Holds j)
    (hj' : k'.Holds j') : j.Apart j' := by
  unfold Block.Apart Block.Holds at *
  omega

theorem Idle.bounce (hreq : SectorRequest bio) (hidle : Idle bio m₀ bp a) {p : UInt64}
    (hfresh : bp.bioData &&& 7 ≠ 0 → a.Fresh ⟨p, bounceSize bp⟩) :
    Bounced bio m₀ (dequeueBounce bp p).1 (a.run (dequeueBounce bp p).2) := by
  by_cases halign : bp.bioData &&& 7 = 0
  · rw [dequeueBounce_aligned halign]
    have hbio : bio.bioData &&& 7 = 0 := by
      rw [← hidle.data]
      exact halign
    refine ⟨hidle.fault, hidle.given, hidle.cmd, hidle.bcount, hidle.data, hidle.buffer, ?_, ?_⟩
    · intro _ i hi
      show a.mem (bp.bioData.toNat + i) = _
      rw [hidle.data]
      exact hidle.buffer i hi
    · exact Or.inl ⟨hbio, hidle.data, hidle.blocks, hidle.freed.trans (hidle.aligned hbio),
        hidle.aligned hbio⟩
  · obtain ⟨hstart, hfits, hapart⟩ := hfresh halign
    have hsize := bounceSize_congr hidle.bcount
    rw [dequeueBounce_unaligned halign, hsize, hidle.data, hidle.bcount, hidle.cmd]
    rw [hidle.data] at halign
    rw [hsize] at hfits hapart
    have hap : Block.Apart ⟨p, bounceSize bio⟩ ⟨bio.bioData, bio.bioBcount.toUInt64⟩ := by
      rw [← hidle.given]
      exact hapart a.given List.mem_cons_self
    -- the arena with the new block, and the copy into it
    let a₁ : Arena :=
      { a with
        blocks := ⟨p, bounceSize bio⟩ :: a.blocks
        allocated := a.allocated ++ [⟨p, bounceSize bio⟩] }
    have hplace : StandIn ⟨p, bounceSize bio⟩ a₁ := by
      refine ⟨hstart, hfits, ?_, ?_, ?_⟩
      · show Block.Apart _ a.given
        rw [hidle.given]
        exact hap
      · show _ :: a.blocks = _
        rw [hidle.blocks]
      · show a.allocated ++ _ = a.freed ++ _
        rw [hidle.freed]
    by_cases hw : bio.bioCmd = .write
    -- both ends of the copy lie in blocks that may be used, and apart from each other
    · have hlen := hreq.bytes_le
      have hdst : Block.Holds ⟨p, bounceSize bio⟩ ⟨p, bio.bioBcount.toUInt64⟩ :=
        ⟨Nat.le_refl _, Nat.add_le_add_left hlen _⟩
      have hsrc : Block.Holds ⟨bio.bioData, bio.bioBcount.toUInt64⟩
          ⟨bio.bioData, bio.bioBcount.toUInt64⟩ := ⟨Nat.le_refl _, Nat.le_refl _⟩
      have hcopy : a₁.apply (.memcpy p bio.bioData bio.bioBcount.toUInt64) =
          { a₁ with mem := copy a.mem p.toNat bio.bioData.toNat bio.bytes } := by
        refine Arena.apply_memcpy ⟨_, List.mem_cons_of_mem _ List.mem_cons_self, hdst⟩
          ⟨a₁.given, List.mem_cons_self, ?_⟩ (hap.mono hdst hsrc)
        show Block.Holds a.given _
        rw [hidle.given]
        exact hsrc
      rw [if_pos hw]
      show Bounced bio m₀ _ (a₁.apply (.memcpy p bio.bioData bio.bioBcount.toUInt64))
      rw [hcopy]
      refine ⟨hidle.fault, hidle.given, rfl, rfl, rfl, ?_, ?_, Or.inr ⟨halign, ?_⟩⟩
      · intro i hi
        rw [← hidle.buffer i hi]
        apply copy_outside
        have hout := hap.mono hdst hsrc
        unfold Block.Apart at hout
        unfold Bio.bytes at hi ⊢
        dsimp only at hout
        omega
      · intro _ i hi
        exact (copy_inside a.mem hi).trans (hidle.buffer i hi)
      · exact ⟨hplace.start, hplace.fits, hplace.apart, hplace.blocks, hplace.allocated⟩
    · rw [if_neg hw]
      exact ⟨hidle.fault, hidle.given, rfl, rfl, rfl, hidle.buffer, fun h ↦ absurd h hw,
        Or.inr ⟨halign, hplace⟩⟩

/-! ## The buffer is put back -/

/-- The address of the block tells the two buffers apart. -/
theorem Bounced.driver1_ne_iff (hb : Bounced bio m₀ bp a) :
    bp.bioDriver1 ≠ bp.bioData ↔ bio.bioData &&& 7 ≠ 0 := by
  rw [hb.driver1]
  rcases hb.place with ⟨halign, hdata, -⟩ | ⟨halign, hplace⟩
  · rw [hdata]
    exact ⟨fun hne ↦ absurd rfl hne, fun hne ↦ absurd halign hne⟩
  -- a block that starts where the unaligned buffer does would not be aligned
  · refine ⟨fun _ ↦ halign, fun _ heq ↦ halign ?_⟩
    rw [heq]
    exact hplace.start

theorem Arena.run_bioFree (a : Arena) (f : Option FbioId) :
    a.run (f.toList.map .bioFree) = a := by
  cases f <;> rfl

theorem StandIn.vfree {k : Block} (hplace : StandIn k a) :
    a.apply (.vfree k.start k.size) = { a with blocks := [], freed := a.freed ++ [k] } := by
  have hmem : k ∈ a.blocks := by
    rw [hplace.blocks]
    exact List.mem_singleton_self k
  refine (if_pos hmem).trans ?_
  rw [hplace.blocks, List.erase_cons_head]

/-- A temporary block has been allocated exactly for an unaligned buffer. -/
def Arena.BouncedFor (a : Arena) (bio : Bio) : Prop :=
  a.allocated = [] ↔ bio.bioData &&& 7 = 0

theorem StandIn.bouncedFor {k : Block} (hplace : StandIn k a) (halign : bio.bioData &&& 7 ≠ 0) :
    a.BouncedFor bio := by
  have hall : a.allocated ≠ [] := by
    rw [hplace.allocated]
    exact List.append_ne_nil_of_right_ne_nil _ (List.cons_ne_nil _ _)
  exact ⟨fun h ↦ absurd h hall, fun h ↦ absurd h halign⟩

/-- `error_exit` frees the block and leaves the request as it was queued. -/
theorem Bounced.exit (hb : Bounced bio m₀ bp a) (f : Option FbioId) (error : Int32)
    (calls : List KblockCall) :
    let a' := a.run ((if bp.bioDriver1 ≠ bp.bioData then [.vfree bp.bioData (bounceSize bp)]
      else []) ++ f.toList.map .bioFree)
    Idle bio m₀ (dequeueErrorExit bp f error calls).1 a' ∧ a'.BouncedFor bio := by
  have hbio : (dequeueErrorExit bp f error calls).1.bioCmd = bp.bioCmd ∧
      (dequeueErrorExit bp f error calls).1.bioBcount = bp.bioBcount ∧
      (dequeueErrorExit bp f error calls).1.bioData = bp.bioDriver1 := by
    unfold dequeueErrorExit
    by_cases hne : bp.bioDriver1 = bp.bioData <;> by_cases herr : error = ENOMEM <;>
      simp [hne, herr]
  obtain ⟨hcmd, hcount, hdata⟩ := hbio
  rw [Arena.run_append, Arena.run_bioFree]
  rcases hb.place with ⟨halign, -, hblocks, hfreed, hall⟩ | ⟨halign, hplace⟩
  · rw [if_neg (fun hne ↦ hb.driver1_ne_iff.mp hne halign)]
    exact ⟨⟨hb.fault, hb.given, hcmd.trans hb.cmd, hcount.trans hb.bcount, hdata.trans hb.driver1,
      hb.buffer, hblocks, hfreed.trans hall.symm, fun _ ↦ hall⟩,
      ⟨fun _ ↦ halign, fun _ ↦ hall⟩⟩
  · rw [if_pos (hb.driver1_ne_iff.mpr halign), bounceSize_congr hb.bcount]
    have hfree : a.run [.vfree bp.bioData (bounceSize bio)] =
        { a with blocks := [], freed := a.freed ++ [⟨bp.bioData, bounceSize bio⟩] } :=
      hplace.vfree
    rw [hfree]
    exact ⟨⟨hb.fault, hb.given, hcmd.trans hb.cmd, hcount.trans hb.bcount, hdata.trans hb.driver1,
      hb.buffer, rfl, hplace.allocated.symm, fun h ↦ absurd h halign⟩,
      hplace.bouncedFor halign⟩

/-! ## The device has the buffer -/

/-- The device's buffer is the caller's, or lies in the block. -/
theorem Bounced.overwrite_data (hreq : SectorRequest bio) (hb : Bounced bio m₀ bp a) {n : ℕ}
    (hn : n ≤ bio.bytes) (f : ℕ → UInt8) (halign : bio.bioData &&& 7 ≠ 0) {i : ℕ}
    (hi : i < bio.bytes) :
    bio.byteAt (overwrite a.mem bp.bioData.toNat n f) i = bio.byteAt m₀ i := by
  rcases hb.place with ⟨h, -⟩ | ⟨-, hplace⟩
  · exact absurd h halign
  · rw [← hb.buffer i hi]
    apply overwrite_outside
    have hap := hplace.apart
    have hlen := hreq.bytes_le
    rw [hb.given] at hap
    unfold Block.Apart at hap
    unfold Bio.bytes at hi hn hlen
    dsimp only at hap
    omega

theorem freebsdBioCompletor_calls (fbio : Fbio) (bp : Bio) (bytesDone : UInt64) (error : Int32) :
    (freebsdBioCompletor fbio bp bytesDone error).2.1 =
      (if fbio.fbioCmd = .read ∨ fbio.fbioCmd = .write then [.sglDmaUnmap fbio.id] else []) ++
        if bp.bioDriver1 ≠ bp.bioData then
          (if bp.bioCmd = .read then [.memcpy bp.bioDriver1 bp.bioData bytesDone] else []) ++
            [.vfree bp.bioData (bounceSize bp)]
        else [] := by
  unfold freebsdBioCompletor
  by_cases hne : bp.bioDriver1 = bp.bioData <;> simp [hne]

theorem StandIn.setMem {k : Block} (hplace : StandIn k a) (mem : Bytes) :
    StandIn k { a with mem := mem } :=
  ⟨hplace.start, hplace.fits, hplace.apart, hplace.blocks, hplace.allocated⟩

/-- The bytes that the device has filled are copied to the caller's buffer. -/
theorem Bounced.copyOut (hreq : SectorRequest bio) (hb : Bounced bio m₀ bp a)
    (hplace : StandIn ⟨bp.bioData, bounceSize bio⟩ a) (halign : bio.bioData &&& 7 ≠ 0)
    {n : UInt64} (hn : n.toNat ≤ bio.bytes) (data : ℕ → UInt8) :
    ∃ mem, Arena.apply { a with mem := overwrite a.mem bp.bioData.toNat n.toNat data }
        (.memcpy bp.bioDriver1 bp.bioData n) = { a with mem := mem } ∧
      ∀ i < bio.bytes, bio.byteAt mem i =
        if i < n.toNat then data i else bio.byteAt m₀ i := by
  have hlen := hreq.bytes_le
  have hdst : Block.Holds ⟨bio.bioData, bio.bioBcount.toUInt64⟩ ⟨bio.bioData, n⟩ :=
    ⟨Nat.le_refl _, Nat.add_le_add_left hn _⟩
  have hsrc : Block.Holds ⟨bp.bioData, bounceSize bio⟩ ⟨bp.bioData, n⟩ :=
    ⟨Nat.le_refl _, Nat.add_le_add_left (hn.trans hlen) _⟩
  have hap : Block.Apart ⟨bio.bioData, n⟩ ⟨bp.bioData, n⟩ := by
    have hout := hplace.apart
    rw [hb.given] at hout
    exact (hout.mono hsrc hdst).symm
  rw [hb.driver1]
  refine ⟨_, Arena.apply_memcpy ⟨a.given, List.mem_cons_self, ?_⟩ ⟨_, ?_, hsrc⟩ hap, ?_⟩
  · rw [hb.given]
    exact hdst
  · apply List.mem_cons_of_mem
    show _ ∈ a.blocks
    rw [hplace.blocks]
    exact List.mem_cons_self
  · intro i hi
    by_cases hin : i < n.toNat
    · rw [if_pos hin]
      exact (copy_inside _ hin).trans (overwrite_inside a.mem data hin)
    · rw [if_neg hin, ← hb.overwrite_data hreq hn data halign hi]
      apply copy_outside
      omega

/-- What the completor leaves, once the device has done its part. -/
theorem Bounced.complete (hreq : SectorRequest bio) (hb : Bounced bio m₀ bp a) {fbio : Fbio}
    (hread : fbio.fbioCmd = .read ↔ bio.bioCmd = .read)
    (haddrs : sglAddrs a.sgl = List.range' bp.bioData.toNat bio.bytes) {bytesDone : UInt64}
    (hdone : bytesDone.toNat ≤ bio.bytes) (data : ℕ → UInt8) (error : Int32) :
    let mem :=
      if fbio.fbioCmd = .read then
        storeEach a.mem ((sglAddrs a.sgl).take bytesDone.toNat) data
      else a.mem
    let a' := { a with mem := mem }.run (freebsdBioCompletor fbio bp bytesDone error).2.1
    a'.fault = false ∧ a'.blocks = [] ∧ a'.freed = a'.allocated ∧ a'.BouncedFor bio ∧
      ∀ i < bio.bytes, bio.byteAt a'.mem i =
        if bio.bioCmd = .read ∧ i < bytesDone.toNat then data i else bio.byteAt m₀ i := by
  intro mem a'
  have hmem : mem = if bio.bioCmd = .read then overwrite a.mem bp.bioData.toNat bytesDone.toNat data
      else a.mem := by
    show (if fbio.fbioCmd = .read then _ else _) = _
    by_cases hr : bio.bioCmd = .read
    · rw [if_pos hr, if_pos (hread.mpr hr), haddrs, List.take_range'_of_length_ge hdone,
        storeEach_range']
    · rw [if_neg hr, if_neg fun h ↦ hr (hread.mp h)]
  -- unmapping leaves memory alone
  have hrun : a' = Arena.run { a with mem := mem }
      (if bp.bioDriver1 ≠ bp.bioData then
        (if bp.bioCmd = .read then [.memcpy bp.bioDriver1 bp.bioData bytesDone] else []) ++
          [.vfree bp.bioData (bounceSize bp)]
      else []) := by
    show Arena.run _ (freebsdBioCompletor fbio bp bytesDone error).2.1 = _
    rw [freebsdBioCompletor_calls, Arena.run_append]
    congr 1
    by_cases hcmd : fbio.fbioCmd = .read ∨ fbio.fbioCmd = .write
    · rw [if_pos hcmd]
      rfl
    · rw [if_neg hcmd]
      rfl
  rw [hrun]
  rcases hb.place with ⟨halign, hdata, hblocks, hfreed, hall⟩ | ⟨halign, hplace⟩
  -- the device has worked on the caller's buffer itself
  · rw [if_neg (fun hne ↦ hb.driver1_ne_iff.mp hne halign)]
    refine ⟨hb.fault, hblocks, hfreed.trans hall.symm, ⟨fun _ ↦ halign, fun _ ↦ hall⟩, ?_⟩
    intro i hi
    show bio.byteAt mem i = _
    rw [hmem, hdata]
    by_cases hr : bio.bioCmd = .read
    · by_cases hin : i < bytesDone.toNat
      · rw [if_pos hr, if_pos ⟨hr, hin⟩]
        exact overwrite_inside a.mem data hin
      · rw [if_pos hr, if_neg (fun h ↦ hin h.2), ← hb.buffer i hi]
        apply overwrite_outside
        omega
    · rw [if_neg hr, if_neg (fun h ↦ hr h.1)]
      exact hb.buffer i hi
  · rw [if_pos (hb.driver1_ne_iff.mpr halign), bounceSize_congr hb.bcount, hb.cmd, hmem]
    have hsettled : ∀ mem' : Bytes, Arena.run { a with mem := mem' }
        [.vfree bp.bioData (bounceSize bio)] =
          { a with
            mem := mem'
            blocks := []
            freed := a.freed ++ [⟨bp.bioData, bounceSize bio⟩] } :=
      fun mem' ↦ (hplace.setMem mem').vfree
    have hbounced : a.BouncedFor bio := hplace.bouncedFor halign
    by_cases hr : bio.bioCmd = .read
    -- copied out, then freed; a write only frees
    · obtain ⟨mem', hcopy, hbytes⟩ := hb.copyOut hreq hplace halign hdone data
      have hcopied : Arena.run
          { a with mem := overwrite a.mem bp.bioData.toNat bytesDone.toNat data }
          [.memcpy bp.bioDriver1 bp.bioData bytesDone] = { a with mem := mem' } := hcopy
      rw [if_pos hr, if_pos hr, Arena.run_append, hcopied, hsettled]
      refine ⟨hb.fault, rfl, hplace.allocated.symm, hbounced, ?_⟩
      intro i hi
      rw [hbytes i hi]
      simp only [hr, true_and]
    · rw [if_neg hr, if_neg hr, List.nil_append, hsettled]
      refine ⟨hb.fault, rfl, hplace.allocated.symm, hbounced, ?_⟩
      intro i hi
      rw [if_neg (fun h ↦ hr h.1)]
      exact hb.buffer i hi

/-! ## What leaves the request alone -/

/-- The same blocks, with the same bytes in them. -/
structure Arena.Kept (a a' : Arena) : Prop where
  fault : a'.fault = a.fault
  given : a'.given = a.given
  blocks : a'.blocks = a.blocks
  allocated : a'.allocated = a.allocated
  freed : a'.freed = a.freed
  mem : ∀ x, a.Used x → a'.mem x = a.mem x

variable {a' : Arena}

/-- The caller's buffer is in use throughout. -/
theorem Arena.Kept.buffer (hk : a.Kept a')
    (hgiven : a.given = ⟨bio.bioData, bio.bioBcount.toUInt64⟩) {i : ℕ} (hi : i < bio.bytes) :
    bio.byteAt a'.mem i = bio.byteAt a.mem i := by
  apply hk.mem
  refine ⟨a.given, List.mem_cons_self, ?_⟩
  rw [hgiven]
  exact ⟨Nat.le_add_right _ _, Nat.add_lt_add_left hi _⟩

theorem Idle.kept (hidle : Idle bio m₀ bp a) (hk : a.Kept a') : Idle bio m₀ bp a' where
  fault := hk.fault.trans hidle.fault
  given := hk.given.trans hidle.given
  cmd := hidle.cmd
  bcount := hidle.bcount
  data := hidle.data
  buffer := fun i hi ↦ (hk.buffer hidle.given hi).trans (hidle.buffer i hi)
  blocks := hk.blocks.trans hidle.blocks
  freed := by rw [hk.freed, hk.allocated, hidle.freed]
  aligned := fun h ↦ hk.allocated.trans (hidle.aligned h)

theorem StandIn.kept {k : Block} (hplace : StandIn k a) (hk : a.Kept a') : StandIn k a' where
  start := hplace.start
  fits := hplace.fits
  apart := by rw [hk.given]; exact hplace.apart
  blocks := hk.blocks.trans hplace.blocks
  allocated := by rw [hk.allocated, hk.freed, hplace.allocated]

theorem Bounced.kept (hreq : SectorRequest bio) (hb : Bounced bio m₀ bp a) (hk : a.Kept a') :
    Bounced bio m₀ bp a' where
  fault := hk.fault.trans hb.fault
  given := hk.given.trans hb.given
  cmd := hb.cmd
  bcount := hb.bcount
  driver1 := hb.driver1
  buffer := fun i hi ↦ (hk.buffer hb.given hi).trans (hb.buffer i hi)
  filled := by
    intro hw i hi
    rcases hb.place with ⟨-, hdata, -⟩ | ⟨-, hplace⟩
    · rw [hdata]
      exact (hk.buffer hb.given hi).trans (hb.buffer i hi)
    · have hused : a.Used (bp.bioData.toNat + i) := by
        refine ⟨⟨bp.bioData, bounceSize bio⟩, ?_, Nat.le_add_right _ _, ?_⟩
        · rw [hplace.blocks]
          exact List.mem_cons_of_mem _ List.mem_cons_self
        · exact Nat.add_lt_add_left (hi.trans_le hreq.bytes_le) _
      rw [hk.mem _ hused]
      exact hb.filled hw i hi
  place := by
    rcases hb.place with ⟨halign, hdata, hblocks, hfreed, hall⟩ | ⟨halign, hplace⟩
    · exact Or.inl ⟨halign, hdata, hk.blocks.trans hblocks, hk.freed.trans hfreed,
        hk.allocated.trans hall⟩
    · exact Or.inr ⟨halign, hplace.kept hk⟩

def KblockCall.IsMapping : KblockCall → Prop
  | .sglMapBytes _ _ _ => True
  | .sglDmaMap _ _ => True
  | _ => False

theorem Arena.kept_sgl (a : Arena) (sgl : FreebsdSgl) : a.Kept { a with sgl := sgl } :=
  ⟨rfl, rfl, rfl, rfl, rfl, fun _ _ ↦ rfl⟩

/-- The mapping steps write to the scatter list and to nothing else. -/
theorem Arena.run_mapping (a : Arena) {work : List KblockCall} (hwork : ∀ c ∈ work, c.IsMapping) :
    ∃ sgl, a.run work = { a with sgl := sgl } := by
  induction work generalizing a with
  | nil => exact ⟨a.sgl, rfl⟩
  | cons c work ih =>
      have hrest : ∀ c' ∈ work, c'.IsMapping := fun c' hc' ↦ hwork c' (List.mem_cons_of_mem _ hc')
      obtain ⟨sgl, hstep⟩ : ∃ sgl, a.apply c = { a with sgl := sgl } := by
        cases c with
        | sglMapBytes id buffer size => exact ⟨_, rfl⟩
        | sglDmaMap id dir => exact ⟨a.sgl, rfl⟩
        | _ => exact absurd (hwork _ List.mem_cons_self) id
      obtain ⟨sgl', hrun⟩ := ih { a with sgl := sgl } hrest
      refine ⟨sgl', ?_⟩
      show (a.apply c).run work = _
      rw [hstep, hrun]

theorem Arena.kept_mapping (a : Arena) {work : List KblockCall}
    (hwork : ∀ c ∈ work, c.IsMapping) : a.Kept (a.run work) := by
  obtain ⟨sgl, hrun⟩ := a.run_mapping hwork
  rw [hrun]
  exact a.kept_sgl sgl

/-! ## How an attempt ends -/

/-- The two mapping steps of a transfer. -/
def mappingCalls (fbio : Fbio) (buffer : UInt64) (bcount : Int64) (dir : Int32) :
    List KblockCall :=
  [.sglMapBytes fbio.id buffer bcount.toUInt64.toUInt32, .sglDmaMap fbio.id dir]

theorem isMapping_mappingCalls (fbio : Fbio) (buffer : UInt64) (bcount : Int64) (dir : Int32) :
    ∀ c ∈ mappingCalls fbio buffer bcount dir, c.IsMapping := by
  simp [mappingCalls, KblockCall.IsMapping]

/-- A read or a write either goes to `error_exit` with at most the mapping steps behind it, or is
handed out with the list made for it. -/
def TransferEnds (b : BioId) (bp : Bio) (env : DequeueEnv)
    (body : Bio × List KblockCall × DequeueExit) : Prop :=
  let bounced := dequeueBounce bp env.vmalloc
  (∃ error work, (∀ c ∈ work, c.IsMapping) ∧
    body = dequeueErrorExit bounced.1 env.bioAlloc error (bounced.2 ++ work)) ∨
  ∃ fbio dir, env.mapBytes = 0 ∧ fbio.fbioParameter = b ∧
    (fbio.fbioCmd = .read ↔ bp.bioCmd = .read) ∧
    body = (bounced.1, bounced.2 ++ mappingCalls fbio bounced.1.bioData bounced.1.bioBcount dir,
      .handedOut fbio)

theorem dequeueMap_ends {fbio : Fbio} (dir : Int32) (hid : env.bioAlloc = some fbio.id)
    (hparameter : fbio.fbioParameter = b) (hread : fbio.fbioCmd = .read ↔ bp.bioCmd = .read) :
    TransferEnds b bp env (dequeueMap (dequeueBounce bp env.vmalloc).1 fbio env dir
      (dequeueBounce bp env.vmalloc).2) := by
  have hwork := isMapping_mappingCalls fbio (dequeueBounce bp env.vmalloc).1.bioData
    (dequeueBounce bp env.vmalloc).1.bioBcount dir
  unfold TransferEnds dequeueMap
  dsimp only
  rw [hid, List.append_assoc]
  by_cases hmap : env.mapBytes = 0
  · rw [if_pos hmap]
    by_cases hdma : env.dmaMap > 0
    · rw [if_pos hdma]
      exact Or.inr ⟨fbio, dir, hmap, hparameter, hread, rfl⟩
    · rw [if_neg hdma]
      exact Or.inl ⟨_, _, hwork, rfl⟩
  -- the load is not reached
  · rw [if_neg hmap]
    refine Or.inl ⟨_, _, ?_, rfl⟩
    intro c hc
    exact hwork c (List.mem_of_mem_take (i := 1) hc)

theorem dequeueBody_ends (b : BioId) (env : DequeueEnv)
    (hcmd : bp.bioCmd = .read ∨ bp.bioCmd = .write) :
    TransferEnds b bp env (dequeueBody b bp env) := by
  unfold dequeueBody
  dsimp only
  rw [dequeueBounce_bioCmd]
  cases halloc : env.bioAlloc with
  | none =>
      refine Or.inl ⟨if env.shouldFail then EIO else ENOMEM, [], List.forall_mem_nil _, ?_⟩
      rw [List.append_nil, halloc]
  | some id =>
      dsimp only
      rcases hcmd with hr | hw
      · rw [hr]
        exact dequeueMap_ends _ halloc rfl (iff_of_true rfl hr)
      · rw [hw]
        exact dequeueMap_ends _ halloc rfl (iff_of_false (by simp) (by simp [hw]))

/-- The list of one entry that `kfio_sgl_map_bytes` makes of an empty one. -/
theorem sglAddrs_mapBytes {sgl : FreebsdSgl} {buffer : UInt64} {size : UInt32}
    (hempty : sgl.uioNum = 0) (hok : (kfioSglMapBytes sgl buffer size).1 = 0) :
    sglAddrs (kfioSglMapBytes sgl buffer size).2 = List.range' buffer.toNat size.toNat := by
  unfold kfioSglMapBytes at hok ⊢
  by_cases hfull : sgl.uioNum ≥ sgl.uioMax
  · rw [if_pos hfull] at hok
    exact absurd hok (show -ENOMEM ≠ 0 from by decide)
  · rw [if_neg hfull, if_neg (fun h ↦ h.1 hempty)]
    simp [sglAddrs, FreebsdSgl.entries, FreebsdSgl.record, hempty]

/-- The count goes through 32 bits on its way to the list. -/
theorem SectorRequest.size_toNat (hreq : SectorRequest bio) :
    bio.bioBcount.toUInt64.toUInt32.toNat = bio.bytes := by
  rw [UInt64.toNat_toUInt32]
  exact Nat.mod_eq_of_lt hreq.bytes_lt

/-! ## Runs -/

/-- The device has the request: the list holds the bytes from `bio_data` on, which the completor can
still trade for the caller's. -/
structure OutstandingFor (b : BioId) (bio : Bio) (m₀ : Bytes) (fbio : Fbio) (t : Transfer) :
    Prop where
  bounced : Bounced bio m₀ (t.queue.bios b) t.arena
  parameter : fbio.fbioParameter = b
  read : fbio.fbioCmd = .read ↔ bio.bioCmd = .read
  addrs : sglAddrs t.arena.sgl = List.range' (t.queue.bios b).bioData.toNat bio.bytes

def TransferInv (b : BioId) (bio : Bio) (m₀ : Bytes) (t : Transfer) : Prop :=
  match t.stage with
  | .queued => Idle bio m₀ (t.queue.bios b) t.arena
  | .outstanding fbio => OutstandingFor b bio m₀ fbio t
  | _ => Transparent b bio m₀ t

/-- The state that an attempt leads to when the request is the first of the queue. -/
theorem Transfer.attempt_cons (env : DequeueEnv) (sgl : FreebsdSgl)
    (others : List BioId → List BioId) {q : List BioId} (hq : t.queue.bioQueue = b :: q) :
    let body := dequeueBody b (t.queue.bios b) env
    let t' := t.attempt env sgl others
    t'.queue.bios b = body.1 ∧ t'.arena = { t.arena with sgl := sgl }.run body.2.1 ∧
      t'.stage =
        match body.2.2 with
        | .handedOut fbio => .outstanding fbio
        | .finished _ => .finished
        | .requeue => .queued := by
  intro body t'
  have hcall := @kfioBlockDequeueBio_cons b env { t.queue with bioLock := true, calls := [] } q
    others rfl hq
  have hbios : Function.update t.queue.bios b body.1 b = body.1 := Function.update_self _ _ _
  show (t.attempt env sgl others).queue.bios b = _ ∧ (t.attempt env sgl others).arena = _ ∧
    (t.attempt env sgl others).stage = _
  unfold Transfer.attempt
  rw [hcall]
  cases hexit : body.2.2 with
  | handedOut fbio => exact ⟨hbios, rfl, rfl⟩
  | finished error => exact ⟨hbios, rfl, if_neg (by simp)⟩
  | requeue => exact ⟨hbios, rfl, if_pos rfl⟩

theorem run_dequeueBounce_sgl (a : Arena) (bp : Bio) (p : UInt64) :
    (a.run (dequeueBounce bp p).2).sgl = a.sgl := by
  by_cases halign : bp.bioData &&& 7 = 0
  · rw [dequeueBounce_aligned halign]
    rfl
  · rw [dequeueBounce_unaligned halign]
    by_cases hw : bp.bioCmd = .write
    · rw [if_pos hw]
      show (Arena.apply _ (.memcpy _ _ _)).sgl = _
      unfold Arena.apply
      dsimp only
      split <;> rfl
    · rw [if_neg hw]
      rfl

/-- A request that is finished before the device has had it. -/
theorem Idle.settled (hidle : Idle bio m₀ (t.queue.bios b) t.arena) (hfor : t.arena.BouncedFor bio)
    (hresid : (t.queue.bios b).bioResid = bio.bioBcount) : Settled b bio (bio.byteAt m₀) 0 t where
  buffer := hidle.buffer
  pointer := hidle.data
  resid := by rw [hresid]; exact (Int.sub_zero _).symm
  freed := ⟨hidle.blocks, hidle.freed⟩
  bounced := hfor

section Attempt

variable {sgl : FreebsdSgl}

theorem Idle.attempt (hreq : SectorRequest bio) (hidle : Idle bio m₀ (t.queue.bios b) t.arena)
    (hhead : t.queue.bioQueue.head? = some b) (hans : t.arena.Answers (t.queue.bios b) env sgl)
    (others : List BioId → List BioId) : TransferInv b bio m₀ (t.attempt env sgl others) := by
  obtain ⟨q, hq⟩ := List.head?_eq_some_iff.mp hhead
  obtain ⟨hbios, harena, hstage⟩ := Transfer.attempt_cons env sgl others hq
  obtain ⟨hempty, hmapped, hfresh⟩ := hans
  have hb := (hidle.kept (t.arena.kept_sgl sgl)).bounce hreq hfresh
  have hcmd : (t.queue.bios b).bioCmd = .read ∨ (t.queue.bios b).bioCmd = .write := by
    rw [hidle.cmd]
    exact hreq.cmd
  unfold TransferInv
  -- `error_exit` undoes what `dequeueBounce` did, whatever the mapping steps have left on the list
  rcases dequeueBody_ends b env hcmd with ⟨error, work, hwork, hbody⟩ |
      ⟨fbio, dir, hmap, hparameter, hread, hbody⟩
  · rw [hbody] at hbios harena hstage
    rw [dequeueErrorExit_calls, Arena.run_append _ (_ ++ work), Arena.run_append _ _ work] at harena
    obtain ⟨hrestored, hreleased⟩ := (hb.kept hreq (Arena.kept_mapping _ hwork)).exit env.bioAlloc
      error ((dequeueBounce (t.queue.bios b) env.vmalloc).2 ++ work)
    have hexit : Idle bio m₀ ((t.attempt env sgl others).queue.bios b)
        (t.attempt env sgl others).arena := by
      rw [hbios, harena]
      exact hrestored
    have hfor : (t.attempt env sgl others).arena.BouncedFor bio := by
      rw [harena]
      exact hreleased
    rw [dequeueErrorExit_exit] at hstage
    -- only this errno puts the request back
    by_cases herr : error ≠ ENOMEM
    · have hresid : ((t.attempt env sgl others).queue.bios b).bioResid = bio.bioBcount := by
        rw [hbios, dequeueErrorExit_resid _ _ herr, dequeueBounce_bioBcount, hidle.bcount]
      rw [if_pos herr] at hstage
      rw [hstage]
      refine ⟨hexit.fault, ?_⟩
      rw [hstage]
      exact hexit.settled hfor hresid
    · rw [if_neg herr] at hstage
      rw [hstage]
      exact hexit
  · rw [hbody] at hbios harena hstage
    rw [Arena.run_append] at harena
    have hwork := isMapping_mappingCalls fbio
      (dequeueBounce (t.queue.bios b) env.vmalloc).1.bioData
      (dequeueBounce (t.queue.bios b) env.vmalloc).1.bioBcount dir
    have hsize := hreq.size_toNat
    rw [hstage]
    refine ⟨?_, hparameter, ?_, ?_⟩
    · rw [hbios, harena]
      exact hb.kept hreq (Arena.kept_mapping _ hwork)
    · rw [hread, hidle.cmd]
    · rw [hbios, harena]
      show sglAddrs (kfioSglMapBytes (Arena.run _ _).sgl _ _).2 = _
      rw [run_dequeueBounce_sgl, sglAddrs_mapBytes hempty, dequeueBounce_bioBcount, hidle.bcount,
        hsize]
      rw [dequeueBounce_bioBcount, ← hmapped]
      exact hmap

end Attempt

theorem freebsdBioCompletor_bio (fbio : Fbio) (bp : Bio) (bytesDone : UInt64) (error : Int32) :
    (freebsdBioCompletor fbio bp bytesDone error).1.bioData = bp.bioDriver1 ∧
      (freebsdBioCompletor fbio bp bytesDone error).1.bioResid =
        bp.bioBcount - bytesDone.toInt64 := by
  unfold freebsdBioCompletor
  by_cases hne : bp.bioDriver1 = bp.bioData <;> simp [hne]

/-- The residue does not wrap around. -/
theorem SectorRequest.resid (hreq : SectorRequest bio) {bytesDone : UInt64}
    (hdone : bytesDone.toNat ≤ bio.bytes) :
    (bio.bioBcount - bytesDone.toInt64).toInt = bio.bioBcount.toInt - bytesDone.toNat := by
  have hlt := hreq.bytes_lt
  have hcount : (bio.bytes : ℤ) = bio.bioBcount.toInt := toNat_bioBcount hreq.pos
  have hint : bytesDone.toInt64.toInt = bytesDone.toNat := by
    show bytesDone.toBitVec.toInt = _
    rw [BitVec.toInt_eq_toNat_of_lt]
    · rfl
    · show 2 * bytesDone.toNat < 2 ^ 64
      omega
  rw [Int64.toInt_sub, hint]
  apply Int.bmod_eq_of_le <;> omega

theorem OutstandingFor.complete (hreq : SectorRequest bio) {fbio : Fbio}
    (h : OutstandingFor b bio m₀ fbio t) {bytesDone : UInt64}
    (hdone : bytesDone ≤ (t.queue.bios b).bioBcount.toUInt64) (data : ℕ → UInt8) (error : Int32) :
    Transparent b bio m₀ (t.complete fbio data bytesDone error) := by
  obtain ⟨hb, rfl, hread, haddrs⟩ := h
  have hle : bytesDone.toNat ≤ bio.bytes := by
    rw [hb.bcount] at hdone
    exact UInt64.le_iff_toNat_le.mp hdone
  obtain ⟨hfault, hblocks, hfreed, hfor, hbytes⟩ := hb.complete hreq hread haddrs hle data error
  obtain ⟨hdata, hresid⟩ := freebsdBioCompletor_bio fbio (t.queue.bios fbio.fbioParameter)
    bytesDone error
  have hbios : (t.complete fbio data bytesDone error).queue.bios fbio.fbioParameter =
      (freebsdBioCompletor fbio (t.queue.bios fbio.fbioParameter) bytesDone error).1 :=
    Function.update_self _ _ _
  refine ⟨hfault, hbytes, ?_, ?_, ⟨hblocks, hfreed⟩, hfor⟩
  · rw [hbios, hdata, hb.driver1]
  · rw [hbios, hresid, hb.bcount, hreq.resid hle]

theorem Transfer.kept_elsewhere (t : Transfer) (b : BioId) (queue : List BioId) (bios : BioId → Bio)
    (f : Bytes) : t.arena.Kept (t.elsewhere b queue bios f).arena :=
  ⟨rfl, rfl, rfl, rfl, rfl, fun _ hx ↦ if_pos hx⟩

theorem Transfer.elsewhere_bio (t : Transfer) (b : BioId) (queue : List BioId) (bios : BioId → Bio)
    (f : Bytes) : (t.elsewhere b queue bios f).queue.bios b = t.queue.bios b :=
  Function.update_self _ _ _

theorem OutstandingFor.elsewhere (hreq : SectorRequest bio) {fbio : Fbio}
    (h : OutstandingFor b bio m₀ fbio t) (queue : List BioId) (bios : BioId → Bio) (f : Bytes) :
    OutstandingFor b bio m₀ fbio (t.elsewhere b queue bios f) where
  bounced := by
    rw [t.elsewhere_bio]
    exact h.bounced.kept hreq (t.kept_elsewhere b queue bios f)
  parameter := h.parameter
  read := h.read
  addrs := by
    rw [t.elsewhere_bio]
    exact h.addrs

theorem transferStep_inv (hreq : SectorRequest bio) (t : Transfer) (e : TransferEvent)
    (t' : Transfer) (hinv : TransferInv b bio m₀ t) (hstep : transferStep b t e = some t') :
    TransferInv b bio m₀ t' := by
  unfold TransferInv at hinv
  -- the invariant goes by the stage, and each step is possible in one stage only
  cases e with
  | attempt env sgl others =>
      rw [transferStep] at hstep
      cases hstage : t.stage with
      | queued =>
          rw [hstage] at hinv hstep
          dsimp only at hstep
          by_cases h : t.queue.bioQueue.head? = some b ∧ t.arena.Answers (t.queue.bios b) env sgl
          · rw [if_pos h, Option.some.injEq] at hstep
            rw [← hstep]
            exact hinv.attempt hreq h.1 h.2 others
          · rw [if_neg h] at hstep
            cases hstep
      | _ => rw [hstage] at hstep; cases hstep
  | complete data bytesDone error =>
      rw [transferStep] at hstep
      cases hstage : t.stage with
      | outstanding fbio =>
          rw [hstage] at hinv hstep
          dsimp only at hstep
          by_cases h : bytesDone ≤ (t.queue.bios b).bioBcount.toUInt64
          · rw [if_pos h, Option.some.injEq] at hstep
            rw [← hstep]
            exact hinv.complete hreq h data error
          · rw [if_neg h] at hstep
            cases hstep
      | _ => rw [hstage] at hstep; cases hstep
  | elsewhere queue bios f =>
      rw [transferStep] at hstep
      unfold TransferInv
      cases hstage : t.stage with
      | queued =>
          rw [hstage, Option.some.injEq] at hstep
          rw [hstage] at hinv
          rw [← hstep, t.elsewhere_bio, show (t.elsewhere b queue bios f).stage = _ from hstage]
          exact hinv.kept (t.kept_elsewhere b queue bios f)
      | outstanding fbio =>
          rw [hstage, Option.some.injEq] at hstep
          rw [hstage] at hinv
          rw [← hstep, show (t.elsewhere b queue bios f).stage = _ from hstage]
          exact OutstandingFor.elsewhere hreq hinv queue bios f
      | _ => rw [hstage] at hstep; cases hstep

theorem TransferInv.transparent (hinv : TransferInv b bio m₀ t) : Transparent b bio m₀ t := by
  unfold TransferInv at hinv
  cases hstage : t.stage with
  | queued =>
      rw [hstage] at hinv
      refine ⟨hinv.fault, ?_⟩
      rw [hstage]
      exact ⟨hinv.buffer, hinv.data, hinv.blocks, hinv.freed⟩
  | outstanding fbio =>
      rw [hstage] at hinv
      refine ⟨hinv.bounced.fault, ?_⟩
      rw [hstage]
      dsimp only
      rw [hinv.addrs]
      refine ⟨List.length_range', ?_⟩
      intro hw
      rw [List.range'_eq_map_range, List.map_map]
      apply List.map_congr_left
      intro i hi
      exact hinv.bounced.filled hw i (List.mem_range.mp hi)
  | _ => rw [hstage] at hinv; exact hinv

/-- `freebsd_disk_strategy` queues the request as it is. -/
theorem idle_strategyTransfer {s : DiskState} (hreq : SectorRequest bio) (hdrv : s.drv1 = true)
    (hstate : s.devState ≠ .dead) (b : BioId) (i : ℕ) (m₀ : Bytes) (sgl : FreebsdSgl) :
    TransferInv b bio m₀ (strategyTransfer s b bio i m₀ sgl) := by
  have hpos : bio.bioBcount ≠ 0 := by
    intro hzero
    exact absurd hreq.pos (by rw [hzero]; decide)
  have hbios : (strategyTransfer s b bio i m₀ sgl).queue.bios b =
      { bio with bioDriver1 := bio.bioData } := by
    unfold strategyTransfer freebsdDiskStrategy
    simp [setBio, hdrv, hpos, hstate]
  show Idle bio m₀ ((strategyTransfer s b bio i m₀ sgl).queue.bios b) _
  rw [hbios]
  exact ⟨rfl, rfl, rfl, rfl, rfl, fun _ _ ↦ rfl, rfl, rfl, fun _ ↦ rfl⟩

/-- An attempt none of whose steps fails is completed with whatever the device answers. -/
def Completable (b : BioId) (bio : Bio) (t : Transfer) : Prop :=
  t.stage = .queued → t.queue.bioQueue.head? = some b →
    ∀ env sgl others data bytesDone error, t.arena.Answers (t.queue.bios b) env sgl →
      dequeueFailure (t.queue.bios b) env = none → bytesDone ≤ bio.bioBcount.toUInt64 →
        ∃ t', run (transferStep b) t
            [.attempt env sgl others, .complete data bytesDone error] = some t' ∧
          t'.stage = .completed data bytesDone

theorem TransferInv.completable (hreq : SectorRequest bio) (hinv : TransferInv b bio m₀ t) :
    Completable b bio t := by
  intro hqueued hhead env sgl others data bytesDone error hans hok hdone
  obtain ⟨q, hq⟩ := List.head?_eq_some_iff.mp hhead
  obtain ⟨fbio, hexit⟩ := dequeueBody_success b hok
  obtain ⟨-, -, hstage⟩ := Transfer.attempt_cons env sgl others hq
  rw [hexit] at hstage
  have hstep : transferStep b t (.attempt env sgl others) = some (t.attempt env sgl others) := by
    rw [transferStep, hqueued]
    exact if_pos ⟨hhead, hans⟩
  have hnext := transferStep_inv hreq _ _ _ hinv hstep
  unfold TransferInv at hnext
  rw [hstage] at hnext
  refine ⟨(t.attempt env sgl others).complete fbio data bytesDone error, ?_, rfl⟩
  rw [run_cons, hstep, Option.bind_some, run_cons, transferStep, hstage]
  dsimp only
  rw [if_pos (by rw [hnext.bounced.bcount]; exact hdone)]
  rfl

/-- Over every run of a request from `freebsd_disk_strategy` on, with as many failed attempts as
there may be, the device and the caller see the bytes that they would see without the second
buffer. -/
theorem bounce_transparent (s : DiskState) (b : BioId) (bio : Bio) (i : ℕ) (m₀ : Bytes)
    (sgl : FreebsdSgl) (hreq : SectorRequest bio) (hdrv : s.drv1 = true)
    (hstate : s.devState ≠ .dead) (es : List TransferEvent) (t : Transfer)
    (hrun : run (transferStep b) (strategyTransfer s b bio i m₀ sgl) es = some t) :
    Transparent b bio m₀ t ∧ Completable b bio t := by
  have hinv : TransferInv b bio m₀ t :=
    run_invariant (transferStep_inv hreq) (idle_strategyTransfer hreq hdrv hstate b i m₀ sgl) hrun
  exact ⟨hinv.transparent, hinv.completable hreq⟩

/-! A read from an odd address, for which there is no fbio at first; the device stops short. -/

def oddRead : Bio := ⟨.read, 0x1001, 512, 0, 0, 0⟩

def unmappedSgl : FreebsdSgl := ⟨1, 0, 0, none, .sysspace, none, 0, none, none, fun _ ↦ ⟨0, 0⟩⟩

def requeuedRead : List TransferEvent :=
  [.attempt ⟨0x2000, none, false, 0, 1⟩ unmappedSgl id,
    .elsewhere [1, 2] (fun _ ↦ oddRead) fun _ ↦ 3,
    .attempt ⟨0x3000, some 7, false, 0, 1⟩ unmappedSgl id, .complete (fun _ ↦ 9) 2 5]

def oddReadQueued : Transfer :=
  strategyTransfer (exposedDisk fun _ ↦ oddRead) 1 oddRead 0 (fun _ ↦ 1) unmappedSgl

theorem bounce_transparent_requeuedRead :
    ∃ t, run (transferStep 1) oddReadQueued requeuedRead = some t ∧
      (List.range 5).map (fun i ↦ t.arena.mem (0x1000 + i)) = [3, 9, 9, 1, 1] ∧
      t.arena.freed = [⟨0x2000, 519⟩, ⟨0x3000, 519⟩] ∧ t.queue.completions = [(1, 5)] ∧
      Transparent 1 oddRead (fun _ ↦ 1) t := by
  have hrun : (run (transferStep 1) oddReadQueued requeuedRead).map
      (fun t ↦ ((List.range 5).map (fun i ↦ t.arena.mem (0x1000 + i)), t.arena.freed,
        t.queue.completions)) =
      some ([3, 9, 9, 1, 1], [⟨0x2000, 519⟩, ⟨0x3000, 519⟩], [(1, 5)]) := by
    decide +kernel
  obtain ⟨t, ht, hseen⟩ := Option.map_eq_some_iff.mp hrun
  simp only [Prod.mk.injEq] at hseen
  exact ⟨t, ht, hseen.1, hseen.2.1, hseen.2.2,
    (bounce_transparent _ 1 oddRead 0 _ _
      ⟨Or.inl rfl, by decide, by decide, by decide, by decide⟩ rfl (by decide) _ t ht).1⟩

end IomemoryVsl.Kblock
