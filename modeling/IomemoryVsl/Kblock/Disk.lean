import IomemoryVsl.Kblock.Bio
import IomemoryVsl.Lib.Run
import IomemoryVsl.Lib.Slots

/-!
# The request queue of a disk (`kblock.c`)

Any number of callers of `freebsd_disk_strategy`, `kfio_block_dequeue_bio` and
`freebsd_bio_completor`, and one of `kfio_block_destroy_device`.  A critical section of `bio_lock`
is one step, and so is a call to a `bioq` function outside of it; between unlocking and locking
again, a dequeue works on a request of its own.
-/

namespace IomemoryVsl.Kblock

open Transition

inductive DevState where
  | running
  | dead
deriving DecidableEq, Repr

/-- A `kfio_block_dequeue_bio` that took a request and has not returned. -/
inductive DequeuePc where
  /-- past `fusion_cv_unlock` -/
  | held
  /-- about to lock and put the request back -/
  | requeueing
  /-- about to lock and return, the request finished -/
  | relocking
deriving DecidableEq, Repr

structure DequeueCall where
  bio : BioId
  pc : DequeuePc
deriving DecidableEq, Repr

/-- The request that a dequeue in progress is responsible for. -/
def DequeueCall.held (c : DequeueCall) : List BioId :=
  if c.pc = .relocking then [] else [c.bio]

/-- How far `kfio_block_destroy_device` is. -/
inductive DestroyPc where
  | idle
  | marked
  | flushed
  | done
deriving DecidableEq, Repr

/-- A disk, its queue, and everything that holds one of its requests.  `given` records the requests
passed to `freebsd_disk_strategy`, `completions` every `biofinish` and `biodone` with its error. -/
structure DiskState where
  drv1 : Bool
  devState : DevState
  bioQueue : List BioId
  bios : BioId → Bio
  dequeues : List DequeueCall
  fbios : List Fbio
  completions : List (BioId × Int32)
  given : List BioId
  destroyer : DestroyPc

/-! ## The functions -/

/-- `kfio_block_create_device`, as far as the requests go; the queue of the PCI device is empty. -/
def kfioBlockCreateDevice (bios : BioId → Bio) : DiskState where
  drv1 := true
  devState := .dead
  bioQueue := []
  bios := bios
  dequeues := []
  fbios := []
  completions := []
  given := []
  destroyer := .idle

def kfioBlockExposeDevice (s : DiskState) : DiskState :=
  { s with devState := .running }

def biofinish (s : DiskState) (b : BioId) (error : Int32) : DiskState :=
  { s with completions := s.completions ++ [(b, error)] }

def biodone (s : DiskState) (b : BioId) : DiskState :=
  { s with completions := s.completions ++ [(b, 0)] }

def setBio (s : DiskState) (b : BioId) (bp : Bio) : DiskState :=
  { s with bios := Function.update s.bios b bp }

/-- `bioq_disksort` puts the request somewhere among the others, whose order it keeps. -/
def bioqDisksort (q : List BioId) (b : BioId) (i : Nat) : List BioId :=
  q.take i ++ b :: q.drop i

/-- `freebsd_disk_strategy` on the request `b`, which the disk sort puts at place `i`. -/
def freebsdDiskStrategy (s : DiskState) (b : BioId) (bio : Bio) (i : Nat) : DiskState :=
  let s := setBio { s with given := b :: s.given } b bio
  if s.drv1 = false then biofinish s b ENXIO
  else if bio.bioBcount = 0 then biodone (setBio s b { bio with bioResid := 0 }) b
  -- from here on under the lock
  else if s.devState = .dead then biofinish s b ENXIO
  else
    let s := setBio s b { bio with bioDriver1 := bio.bioData }
    { s with bioQueue := bioqDisksort s.bioQueue b i }

/-- `bioq_takefirst` and `fusion_cv_unlock`, or the return of `NULL` when there is no request. -/
def dequeueTake (s : DiskState) : DiskState :=
  match s.bioQueue with
  -- the caller keeps the lock
  | [] => s
  | b :: q => { s with bioQueue := q, dequeues := s.dequeues ++ [⟨b, .held⟩] }

/-- The dequeue in slot `k` works on its request, up to its return or to the lock. -/
def dequeueRun (s : DiskState) (k : Nat) (c : DequeueCall) (env : DequeueEnv) : DiskState :=
  let (bp, _, exit) := dequeueBody c.bio (s.bios c.bio) env
  let s := setBio s c.bio bp
  match exit with
  | .handedOut fbio => { s with fbios := s.fbios ++ [fbio], dequeues := s.dequeues.eraseIdx k }
  | .finished error =>
      -- completed before the lock is taken again
      let s := biofinish s c.bio error
      { s with dequeues := s.dequeues.set k { c with pc := .relocking } }
  | .requeue => { s with dequeues := s.dequeues.set k { c with pc := .requeueing } }

/-- `fusion_cv_lock` at the end of `error_exit`, with `bioq_insert_head` if it is to come. -/
def dequeueRelock (s : DiskState) (k : Nat) (c : DequeueCall) : DiskState :=
  if c.pc = .requeueing then
    { s with bioQueue := c.bio :: s.bioQueue, dequeues := s.dequeues.eraseIdx k }
  else { s with dequeues := s.dequeues.eraseIdx k }

/-- The completor of the outstanding fbio in slot `j`. -/
def completeFbio (s : DiskState) (j : Nat) (fbio : Fbio) (bytesDone : UInt64) (error : Int32) :
    DiskState :=
  let b := fbio.fbioParameter
  let (bp, _, err) := freebsdBioCompletor fbio (s.bios b) bytesDone error
  let s := setBio s b bp
  { s with completions := s.completions ++ [(b, err)], fbios := s.fbios.eraseIdx j }

/-- `bioq_flush(disk->bio_queue, NULL, ENXIO)`. -/
def bioqFlush (s : DiskState) : DiskState :=
  { s with completions := s.completions ++ s.bioQueue.map (·, ENXIO), bioQueue := [] }

inductive DiskEvent where
  | strategy (b : BioId) (bio : Bio) (i : Nat)
  | dequeueTake
  | dequeueRun (k : Nat) (env : DequeueEnv)
  | dequeueRelock (k : Nat)
  | complete (j : Nat) (bytesDone : UInt64) (error : Int32)
  | destroyMark
  | destroyFlush
  | destroyFree

/-- One step.  A request is given to strategy once, and `kfio_bio_alloc` returns no fbio that is
still outstanding.  The memory of a destroyed disk keeps what it held. -/
def diskStep (s : DiskState) : DiskEvent → Option DiskState
  | .strategy b bio i => if b ∉ s.given then some (freebsdDiskStrategy s b bio i) else none
  | .dequeueTake => some (dequeueTake s)
  | .dequeueRun k env =>
      s.dequeues[k]?.bind fun c ↦
        if c.pc = .held ∧ ∀ id ∈ env.bioAlloc, id ∉ s.fbios.map Fbio.id then
          some (dequeueRun s k c env)
        else none
  | .dequeueRelock k =>
      s.dequeues[k]?.bind fun c ↦ if c.pc ≠ .held then some (dequeueRelock s k c) else none
  | .complete j bytesDone error =>
      s.fbios[j]?.bind fun fbio ↦ some (completeFbio s j fbio bytesDone error)
  | .destroyMark =>
      if s.destroyer = .idle then some { s with devState := .dead, destroyer := .marked }
      else none
  -- the flush is outside of the lock, so anything may come between it and the mark
  | .destroyFlush =>
      if s.destroyer = .marked then some { bioqFlush s with destroyer := .flushed } else none
  | .destroyFree =>
      if s.destroyer = .flushed then some { s with destroyer := .done } else none

def exposedDisk (bios : BioId → Bio) : DiskState :=
  kfioBlockExposeDevice (kfioBlockCreateDevice bios)

/-! ## Every request is in one place -/

def DiskState.heldBios (s : DiskState) : List BioId :=
  s.dequeues.flatMap DequeueCall.held

def DiskState.ownedBios (s : DiskState) : List BioId :=
  s.fbios.map Fbio.fbioParameter

def DiskState.completedBios (s : DiskState) : List BioId :=
  s.completions.map Prod.fst

/-- How often a request is queued, held by a dequeue, owned by an outstanding fbio or completed. -/
def DiskState.places (s : DiskState) (b : BioId) : Nat :=
  s.bioQueue.count b + s.heldBios.count b + s.ownedBios.count b + s.completedBios.count b

/-- Each request that was given to strategy is in one place, and no other request is anywhere. -/
def EachInOnePlace (s : DiskState) : Prop :=
  s.given.Nodup ∧ ∀ b, s.places b = s.given.count b

variable {s s' : DiskState}

theorem places_biofinish (s : DiskState) (a b : BioId) (error : Int32) :
    (biofinish s a error).places b = s.places b + List.count b [a] := by
  have hdone : (biofinish s a error).completedBios = s.completedBios ++ [a] := by
    unfold DiskState.completedBios biofinish
    rw [List.map_append]
    rfl
  unfold DiskState.places
  rw [hdone, List.count_append, ← Nat.add_assoc]
  rfl

theorem count_bioqDisksort (q : List BioId) (a b : BioId) (i : Nat) :
    (bioqDisksort q a i).count b = q.count b + List.count b [a] := by
  have hperm : (bioqDisksort q a i).Perm (q ++ [a]) := by
    unfold bioqDisksort
    refine List.perm_middle.trans ?_
    rw [List.take_append_drop]
    exact (List.perm_append_comm : ([a] ++ q).Perm (q ++ [a]))
  rw [hperm.count_eq, List.count_append]

/-- Strategy puts the request in one place, whichever branch it takes. -/
theorem places_strategy (s : DiskState) (a b : BioId) (bio : Bio) (i : Nat) :
    (freebsdDiskStrategy s a bio i).places b = s.places b + List.count b [a] ∧
      (freebsdDiskStrategy s a bio i).given = a :: s.given := by
  unfold freebsdDiskStrategy
  dsimp only
  by_cases hdrv : (setBio { s with given := a :: s.given } a bio).drv1 = false
  · rw [if_pos hdrv]
    exact ⟨places_biofinish _ a b ENXIO, rfl⟩
  · rw [if_neg hdrv]
    by_cases hzero : bio.bioBcount = 0
    · rw [if_pos hzero]
      exact ⟨places_biofinish _ a b 0, rfl⟩
    · rw [if_neg hzero]
      by_cases hdead : (setBio { s with given := a :: s.given } a bio).devState = .dead
      · rw [if_pos hdead]
        exact ⟨places_biofinish _ a b ENXIO, rfl⟩
      · rw [if_neg hdead]
        refine ⟨?_, rfl⟩
        change (bioqDisksort s.bioQueue a i).count b + s.heldBios.count b + s.ownedBios.count b +
          s.completedBios.count b = _
        rw [count_bioqDisksort]
        unfold DiskState.places
        omega

theorem places_dequeueTake (s : DiskState) (b : BioId) : (dequeueTake s).places b = s.places b := by
  unfold dequeueTake DiskState.places DiskState.heldBios
  cases hq : s.bioQueue with
  | nil =>
      dsimp only
      rw [hq]
  | cons a q =>
      have hheld : DequeueCall.held ⟨a, .held⟩ = [a] := rfl
      change q.count b +
        ((s.dequeues ++ [(⟨a, .held⟩ : DequeueCall)]).flatMap DequeueCall.held).count b +
        s.ownedBios.count b + s.completedBios.count b = _
      rw [List.flatMap_append, List.flatMap_singleton, hheld, List.count_append,
        ← List.singleton_append (l := q), List.count_append]
      omega

/-- A call in progress stands for its own request; the others for theirs. -/
theorem held_split {k : Nat} {c : DequeueCall} (hk : s.dequeues[k]? = some c) (b : BioId) :
    ((s.dequeues.eraseIdx k).flatMap DequeueCall.held).count b + c.held.count b =
        s.heldBios.count b ∧
      ∀ c' : DequeueCall, ((s.dequeues.set k c').flatMap DequeueCall.held).count b +
        c.held.count b = s.heldBios.count b + c'.held.count b := by
  obtain ⟨us, vs, hsplit, hset, herase⟩ := Slots.exists_split hk
  unfold DiskState.heldBios
  constructor
  · rw [herase, hsplit]
    simp only [List.flatMap_append, List.flatMap_cons, List.count_append]
    omega
  · intro c'
    rw [hset c', hsplit]
    simp only [List.flatMap_append, List.flatMap_cons, List.count_append]
    omega

theorem held_of_ne_relocking {c : DequeueCall} (h : c.pc ≠ .relocking) : c.held = [c.bio] :=
  if_neg h

/-- The three exits of a dequeue: the request goes to an fbio, is completed, or stays held. -/
theorem places_dequeueRun {k : Nat} {c : DequeueCall} (hk : s.dequeues[k]? = some c)
    (hpc : c.pc = .held) (env : DequeueEnv) (b : BioId) :
    (dequeueRun s k c env).places b = s.places b := by
  obtain ⟨herase, hset⟩ := held_split hk b
  -- before the step the request is counted among the held ones, whatever the exit
  have hheld : c.held = [c.bio] := held_of_ne_relocking (by rw [hpc]; decide)
  rw [hheld] at herase hset
  unfold dequeueRun
  cases hexit : (dequeueBody c.bio (s.bios c.bio) env).2.2 with
  | handedOut fbio =>
      obtain ⟨hparam, -⟩ := dequeueBody_handedOut hexit
      dsimp only
      rw [hexit]
      change s.bioQueue.count b + ((s.dequeues.eraseIdx k).flatMap DequeueCall.held).count b +
        ((s.fbios ++ [fbio]).map Fbio.fbioParameter).count b + s.completedBios.count b = _
      rw [List.map_append, List.count_append, List.map_singleton, hparam]
      unfold DiskState.places DiskState.ownedBios
      omega
  | finished error =>
      have hrelock : DequeueCall.held { c with pc := .relocking } = [] := rfl
      have h := hset { c with pc := .relocking }
      rw [hrelock, List.count_nil] at h
      dsimp only
      rw [hexit]
      change s.bioQueue.count b +
        ((s.dequeues.set k { c with pc := .relocking }).flatMap DequeueCall.held).count b +
        s.ownedBios.count b + ((s.completions ++ [(c.bio, error)]).map Prod.fst).count b = _
      have hfst : List.count b [(c.bio, error).fst] = List.count b [c.bio] := rfl
      rw [List.map_append, List.count_append, List.map_singleton, hfst]
      unfold DiskState.places DiskState.completedBios
      omega
  | requeue =>
      have hkeep : DequeueCall.held { c with pc := .requeueing } = [c.bio] := rfl
      have h := hset { c with pc := .requeueing }
      rw [hkeep] at h
      dsimp only
      rw [hexit]
      change s.bioQueue.count b +
        ((s.dequeues.set k { c with pc := .requeueing }).flatMap DequeueCall.held).count b +
        s.ownedBios.count b + s.completedBios.count b = _
      unfold DiskState.places
      omega

theorem places_dequeueRelock {k : Nat} {c : DequeueCall} (hk : s.dequeues[k]? = some c)
    (hpc : c.pc ≠ .held) (b : BioId) : (dequeueRelock s k c).places b = s.places b := by
  obtain ⟨herase, -⟩ := held_split hk b
  unfold dequeueRelock
  by_cases hre : c.pc = .requeueing
  · have hheld : c.held = [c.bio] := held_of_ne_relocking (by rw [hre]; decide)
    rw [hheld] at herase
    rw [if_pos hre]
    change (c.bio :: s.bioQueue).count b +
      ((s.dequeues.eraseIdx k).flatMap DequeueCall.held).count b + s.ownedBios.count b +
      s.completedBios.count b = _
    rw [← List.singleton_append, List.count_append]
    unfold DiskState.places
    omega
  · have hrelock : c.pc = .relocking := by
      cases hc : c.pc with
      | held => exact absurd hc hpc
      | requeueing => exact absurd hc hre
      | relocking => rfl
    have hheld : c.held = [] := if_pos hrelock
    rw [hheld, List.count_nil] at herase
    rw [if_neg hre]
    change s.bioQueue.count b + ((s.dequeues.eraseIdx k).flatMap DequeueCall.held).count b +
      s.ownedBios.count b + s.completedBios.count b = _
    unfold DiskState.places
    omega

theorem places_completeFbio {j : Nat} {fbio : Fbio} (hj : s.fbios[j]? = some fbio)
    (bytesDone : UInt64) (error : Int32) (b : BioId) :
    (completeFbio s j fbio bytesDone error).places b = s.places b := by
  obtain ⟨us, vs, hsplit, -, herase⟩ := Slots.exists_split hj
  have hcount : ((s.fbios.eraseIdx j).map Fbio.fbioParameter).count b +
      List.count b [fbio.fbioParameter] = s.ownedBios.count b := by
    unfold DiskState.ownedBios
    rw [herase, hsplit]
    simp only [List.map_append, List.map_cons, List.count_append, List.count_cons, List.count_nil]
    omega
  unfold completeFbio
  rcases hr : freebsdBioCompletor fbio (s.bios fbio.fbioParameter) bytesDone error with
    ⟨bp, calls, err⟩
  dsimp only
  rw [hr]
  change s.bioQueue.count b + s.heldBios.count b +
    ((s.fbios.eraseIdx j).map Fbio.fbioParameter).count b +
    ((s.completions ++ [(fbio.fbioParameter, err)]).map Prod.fst).count b = _
  have hfst : List.count b [(fbio.fbioParameter, err).fst] =
      List.count b [fbio.fbioParameter] := rfl
  rw [List.map_append, List.count_append, List.map_singleton, hfst]
  unfold DiskState.places DiskState.completedBios
  omega

theorem places_bioqFlush (s : DiskState) (b : BioId) : (bioqFlush s).places b = s.places b := by
  have hmap : (s.bioQueue.map fun x ↦ (x, ENXIO)).map Prod.fst = s.bioQueue := by
    rw [List.map_map]
    exact List.map_id s.bioQueue
  change List.count b [] + s.heldBios.count b + s.ownedBios.count b +
    ((s.completions ++ s.bioQueue.map fun x ↦ (x, ENXIO)).map Prod.fst).count b = _
  rw [List.map_append, List.count_append, hmap, List.count_nil]
  unfold DiskState.places DiskState.completedBios
  omega

/-- Except for strategy, a step moves requests about and is given none. -/
theorem diskStep_places {e : DiskEvent} (hstep : diskStep s e = some s') :
    (∃ a bio i, e = .strategy a bio i ∧ a ∉ s.given ∧ s'.given = a :: s.given ∧
        ∀ b, s'.places b = s.places b + List.count b [a]) ∨
      s'.given = s.given ∧ ∀ b, s'.places b = s.places b := by
  cases e with
  | strategy a bio i =>
      simp only [diskStep, Option.ite_none_right_eq_some, Option.some.injEq] at hstep
      obtain ⟨hnew, rfl⟩ := hstep
      -- strategy is the one step that hands in a request
      refine Or.inl ⟨a, bio, i, rfl, hnew, (places_strategy s a a bio i).2, ?_⟩
      intro b
      exact (places_strategy s a b bio i).1
  | dequeueTake =>
      rw [diskStep, Option.some.injEq] at hstep
      subst hstep
      refine Or.inr ⟨?_, places_dequeueTake s⟩
      unfold dequeueTake
      split <;> rfl
  | dequeueRun k env =>
      simp only [diskStep, Option.bind_eq_some_iff, Option.ite_none_right_eq_some,
        Option.some.injEq] at hstep
      obtain ⟨c, hk, ⟨hpc, -⟩, rfl⟩ := hstep
      refine Or.inr ⟨?_, places_dequeueRun hk hpc env⟩
      unfold dequeueRun
      dsimp only
      split <;> rfl
  | dequeueRelock k =>
      simp only [diskStep, Option.bind_eq_some_iff, Option.ite_none_right_eq_some,
        Option.some.injEq] at hstep
      obtain ⟨c, hk, hpc, rfl⟩ := hstep
      refine Or.inr ⟨?_, places_dequeueRelock hk hpc⟩
      unfold dequeueRelock
      split <;> rfl
  | complete j bytesDone error =>
      simp only [diskStep, Option.bind_eq_some_iff, Option.some.injEq] at hstep
      obtain ⟨fbio, hj, rfl⟩ := hstep
      exact Or.inr ⟨rfl, places_completeFbio hj bytesDone error⟩
  | destroyMark =>
      simp only [diskStep, Option.ite_none_right_eq_some, Option.some.injEq] at hstep
      obtain ⟨-, rfl⟩ := hstep
      exact Or.inr ⟨rfl, fun b ↦ rfl⟩
  | destroyFlush =>
      simp only [diskStep, Option.ite_none_right_eq_some, Option.some.injEq] at hstep
      obtain ⟨-, rfl⟩ := hstep
      exact Or.inr ⟨rfl, places_bioqFlush s⟩
  | destroyFree =>
      simp only [diskStep, Option.ite_none_right_eq_some, Option.some.injEq] at hstep
      obtain ⟨-, rfl⟩ := hstep
      exact Or.inr ⟨rfl, fun b ↦ rfl⟩

theorem diskStep_eachInOnePlace (s : DiskState) (e : DiskEvent) (s' : DiskState)
    (hi : EachInOnePlace s) (hstep : diskStep s e = some s') : EachInOnePlace s' := by
  rcases diskStep_places hstep with ⟨a, bio, i, -, hnew, hgiven, hplaces⟩ | ⟨hgiven, hplaces⟩
  · constructor
    · rw [hgiven]
      exact List.nodup_cons.mpr ⟨hnew, hi.1⟩
    · intro b
      rw [hplaces, hi.2 b, hgiven, ← List.singleton_append (l := s.given), List.count_append]
      omega
  · constructor
    · rw [hgiven]
      exact hi.1
    · intro b
      rw [hplaces, hi.2 b, hgiven]

/-- Whatever the interleaving and whatever fails, each request given to strategy is queued, held by
one dequeue, owned by one outstanding fbio or completed once, and never two of these. -/
theorem request_in_one_place (bios : BioId → Bio) (es : List DiskEvent) (s : DiskState)
    (hrun : run diskStep (exposedDisk bios) es = some s) (b : BioId) :
    s.bioQueue.count b + s.heldBios.count b + s.ownedBios.count b + s.completedBios.count b =
      if b ∈ s.given then 1 else 0 := by
  have hstart : EachInOnePlace (exposedDisk bios) := ⟨List.nodup_nil, fun b ↦ rfl⟩
  obtain ⟨hnd, hplaces⟩ := run_invariant diskStep_eachInOnePlace hstart hrun
  have hb := hplaces b
  unfold DiskState.places at hb
  rw [hb]
  by_cases hmem : b ∈ s.given
  · rw [if_pos hmem]
    exact List.count_eq_one_of_mem hnd hmem
  · rw [if_neg hmem]
    exact List.count_eq_zero_of_not_mem hmem

/-! Two reads, of which the first is handed out and completed while the second is retried once and
then flushed. -/

def sampleBio : Bio := ⟨.read, 4096, 512, 0, 0, 0⟩

def handedOutEnv : DequeueEnv := ⟨0, some 7, false, 0, 1⟩

def noFbioEnv : DequeueEnv := ⟨0, none, false, 0, 0⟩

def sampleDiskEvents : List DiskEvent :=
  [.strategy 1 sampleBio 0, .strategy 2 sampleBio 1, .dequeueTake, .dequeueTake,
    .dequeueRun 0 handedOutEnv, .dequeueRun 0 noFbioEnv, .dequeueRelock 0, .complete 0 512 0,
    .destroyMark, .destroyFlush]

theorem request_in_one_place_sample :
    ∃ s, run diskStep (exposedDisk fun _ ↦ sampleBio) sampleDiskEvents = some s ∧
      s.completions = [(1, 0), (2, ENXIO)] ∧
      s.bioQueue.count 2 + s.heldBios.count 2 + s.ownedBios.count 2 + s.completedBios.count 2 =
        if 2 ∈ s.given then 1 else 0 := by
  have hcomp : (run diskStep (exposedDisk fun _ ↦ sampleBio) sampleDiskEvents).map
      DiskState.completions = some [(1, 0), (2, ENXIO)] := by decide
  obtain ⟨s, hs, hdone⟩ := Option.map_eq_some_iff.mp hcomp
  exact ⟨s, hs, hdone, request_in_one_place _ _ s hs 2⟩

end IomemoryVsl.Kblock
