import IomemoryVsl.Kblock.Disk

/-!
# Destroying a disk that is in use (`kblock.c`)

`kfio_block_destroy_device` marks the disk dead under the lock and then flushes the queue.  Strategy
tests the mark before it queues a request; the retry at the end of `kfio_block_dequeue_bio` does
not, so a dequeue that was between its two critical sections when the flush ran puts its request on
a queue that nobody reads any more.
-/

namespace IomemoryVsl.Kblock

open Transition

def DiskState.flushed (s : DiskState) : Prop :=
  s.destroyer = .flushed ∨ s.destroyer = .done

instance (s : DiskState) : Decidable s.flushed :=
  inferInstanceAs (Decidable (_ ∨ _))

/-- The flush has run and a dequeue is about to put its request back. -/
def LateRequeue (s : DiskState) : DiskEvent → Prop
  | .dequeueRelock k => s.flushed ∧ ∃ c, s.dequeues[k]? = some c ∧ c.pc = .requeueing
  | _ => False

/-- After the flush the queue is empty. -/
def QueueDrained (s : DiskState) : Prop :=
  s.flushed → s.bioQueue = []

instance (s : DiskState) : Decidable (QueueDrained s) :=
  inferInstanceAs (Decidable (_ → _))

/-- What the mark and the flush have established so far. -/
def DestroyInv (s : DiskState) : Prop :=
  (s.destroyer ≠ .idle → s.devState = .dead) ∧ QueueDrained s

variable {s s' : DiskState}

theorem strategy_fields (s : DiskState) (b : BioId) (bio : Bio) (i : Nat) :
    (freebsdDiskStrategy s b bio i).destroyer = s.destroyer ∧
      (freebsdDiskStrategy s b bio i).devState = s.devState ∧
      (s.devState = .dead → (freebsdDiskStrategy s b bio i).bioQueue = s.bioQueue) := by
  unfold freebsdDiskStrategy
  dsimp only
  by_cases hdrv : (setBio { s with given := b :: s.given } b bio).drv1 = false
  · rw [if_pos hdrv]
    exact ⟨rfl, rfl, fun _ ↦ rfl⟩
  · rw [if_neg hdrv]
    by_cases hzero : bio.bioBcount = 0
    · rw [if_pos hzero]
      exact ⟨rfl, rfl, fun _ ↦ rfl⟩
    · rw [if_neg hzero]
      by_cases hdead : (setBio { s with given := b :: s.given } b bio).devState = .dead
      · rw [if_pos hdead]
        exact ⟨rfl, rfl, fun _ ↦ rfl⟩
      · rw [if_neg hdead]
        refine ⟨rfl, rfl, ?_⟩
        intro h
        exact absurd h hdead

theorem dequeueRun_fields (s : DiskState) (k : Nat) (c : DequeueCall) (env : DequeueEnv) :
    (dequeueRun s k c env).destroyer = s.destroyer ∧
      (dequeueRun s k c env).devState = s.devState ∧
      (dequeueRun s k c env).bioQueue = s.bioQueue := by
  unfold dequeueRun
  dsimp only
  split <;> exact ⟨rfl, rfl, rfl⟩

/-- Without a late requeue, nothing is put on the queue of a dead disk. -/
theorem destroyInv_step (s : DiskState) (e : DiskEvent) (s' : DiskState) (hi : DestroyInv s)
    (hlate : ¬ LateRequeue s e) (hstep : diskStep s e = some s') : DestroyInv s' := by
  obtain ⟨hdead, hdrained⟩ := hi
  -- the mark comes before the flush and is never taken back
  have hfl : s.flushed → s.devState = .dead := by
    rintro (h | h)
    · exact hdead (by rw [h]; decide)
    · exact hdead (by rw [h]; decide)
  cases e with
  | strategy b bio i =>
      simp only [diskStep, Option.ite_none_right_eq_some, Option.some.injEq] at hstep
      obtain ⟨-, rfl⟩ := hstep
      obtain ⟨hpc, hdev, hq⟩ := strategy_fields s b bio i
      unfold DestroyInv QueueDrained DiskState.flushed
      rw [hpc, hdev]
      refine ⟨hdead, ?_⟩
      intro hf
      rw [hq (hfl hf)]
      exact hdrained hf
  | dequeueTake =>
      rw [diskStep, Option.some.injEq] at hstep
      subst hstep
      unfold dequeueTake
      cases hq : s.bioQueue with
      | nil => exact ⟨hdead, hdrained⟩
      | cons b q =>
          refine ⟨hdead, ?_⟩
          intro hf
          have hnil := hdrained hf
          rw [hq] at hnil
          cases hnil
  | dequeueRun k env =>
      simp only [diskStep, Option.bind_eq_some_iff, Option.ite_none_right_eq_some,
        Option.some.injEq] at hstep
      obtain ⟨c, -, -, rfl⟩ := hstep
      obtain ⟨hpc, hdev, hq⟩ := dequeueRun_fields s k c env
      unfold DestroyInv QueueDrained DiskState.flushed
      rw [hpc, hdev, hq]
      exact ⟨hdead, hdrained⟩
  | dequeueRelock k =>
      simp only [diskStep, Option.bind_eq_some_iff, Option.ite_none_right_eq_some,
        Option.some.injEq] at hstep
      obtain ⟨c, hk, -, rfl⟩ := hstep
      unfold dequeueRelock
      by_cases hre : c.pc = .requeueing
      · -- the one insertion that no test guards
        rw [if_pos hre]
        refine ⟨hdead, ?_⟩
        intro hf
        exact absurd ⟨hf, c, hk, hre⟩ hlate
      · rw [if_neg hre]
        exact ⟨hdead, hdrained⟩
  | complete j bytesDone error =>
      simp only [diskStep, Option.bind_eq_some_iff, Option.some.injEq] at hstep
      obtain ⟨fbio, -, rfl⟩ := hstep
      exact ⟨hdead, hdrained⟩
  | destroyMark =>
      simp only [diskStep, Option.ite_none_right_eq_some, Option.some.injEq] at hstep
      obtain ⟨-, rfl⟩ := hstep
      refine ⟨fun _ ↦ rfl, ?_⟩
      rintro (h | h)
      · cases h
      · cases h
  | destroyFlush =>
      simp only [diskStep, Option.ite_none_right_eq_some, Option.some.injEq] at hstep
      obtain ⟨hpc, rfl⟩ := hstep
      refine ⟨fun _ ↦ hdead (by rw [hpc]; decide), fun _ ↦ rfl⟩
  | destroyFree =>
      simp only [diskStep, Option.ite_none_right_eq_some, Option.some.injEq] at hstep
      obtain ⟨hpc, rfl⟩ := hstep
      exact ⟨fun _ ↦ hdead (by rw [hpc]; decide), fun _ ↦ hdrained (Or.inl hpc)⟩

/-- A late requeue is always enabled and leaves a request on the dead queue. -/
theorem lateRequeue_stranded {e : DiskEvent} (hlate : LateRequeue s e) :
    ∃ t, diskStep s e = some t ∧ ¬ QueueDrained t := by
  cases e with
  | dequeueRelock k =>
      obtain ⟨hf, c, hk, hre⟩ := hlate
      have hne : c.pc ≠ .held := by
        rw [hre]
        decide
      refine ⟨dequeueRelock s k c, ?_, ?_⟩
      · rw [diskStep, hk, Option.bind_some, if_pos hne]
      · unfold dequeueRelock
        rw [if_pos hre]
        intro hdrained
        exact List.cons_ne_nil _ _ (hdrained hf)
  | _ => exact hlate.elim

theorem exposedDisk_destroyInv (bios : BioId → Bio) : DestroyInv (exposedDisk bios) := by
  constructor
  · intro h
    exact absurd rfl h
  · intro _
    rfl

/-- In a run from an exposed disk, no request is placed on the queue after the flush if and only if
no dequeue reaches its `bioq_insert_head` after the flush.  In such a run, once destroy and every
dequeue have returned, the queue is empty and each request given to the disk is completed or owned
by an fbio that was handed out. -/
theorem destroyed_disk_drained (bios : BioId → Bio) (es : List DiskEvent) (s : DiskState)
    (hrun : run diskStep (exposedDisk bios) es = some s) :
    (Throughout diskStep QueueDrained (exposedDisk bios) es ↔
        Along diskStep (fun t e ↦ ¬ LateRequeue t e) (exposedDisk bios) es) ∧
      (Along diskStep (fun t e ↦ ¬ LateRequeue t e) (exposedDisk bios) es →
        s.destroyer = .done → s.dequeues = [] →
          s.bioQueue = [] ∧ ∀ b ∈ s.given, b ∈ s.completedBios ∨ b ∈ s.ownedBios) := by
  have hiff := throughout_iff_along (fun t ht ↦ ht.2) destroyInv_step
    (fun t e _ hlate ↦ lateRequeue_stranded hlate) es (exposedDisk_destroyInv bios)
  refine ⟨hiff, ?_⟩
  intro halong hdone hcalls
  have hempty : s.bioQueue = [] := (hiff.mpr halong).last hrun (Or.inr hdone)
  refine ⟨hempty, ?_⟩
  intro b hb
  -- the request is in one of four places, of which the queue and the held ones are empty
  have hstart : EachInOnePlace (exposedDisk bios) := ⟨List.nodup_nil, fun b ↦ rfl⟩
  obtain ⟨-, hplaces⟩ := run_invariant diskStep_eachInOnePlace hstart hrun
  have hcount := hplaces b
  unfold DiskState.places DiskState.heldBios at hcount
  rw [hempty, hcalls, List.flatMap_nil, List.count_nil] at hcount
  have hpos : 0 < s.given.count b := List.count_pos_iff.mpr hb
  by_cases hc : b ∈ s.completedBios
  · exact Or.inl hc
  · rw [List.count_eq_zero_of_not_mem hc] at hcount
    exact Or.inr (List.count_pos_iff.mp (by omega))

/-- A dequeue that has taken the only request finds no fbio; meanwhile the disk is destroyed. -/
def strandingEvents : List DiskEvent :=
  [.strategy 1 sampleBio 0, .dequeueTake, .destroyMark, .destroyFlush, .dequeueRun 0 noFbioEnv,
    .dequeueRelock 0, .destroyFree]

theorem destroyed_disk_strands :
    ¬ ∀ bios es s, run diskStep (exposedDisk bios) es = some s → s.destroyer = .done →
        s.dequeues = [] →
          s.bioQueue = [] ∧ ∀ b ∈ s.given, b ∈ s.completedBios ∨ b ∈ s.ownedBios := by
  intro hall
  have hq : (run diskStep (exposedDisk fun _ ↦ sampleBio) strandingEvents).map
      (fun s ↦ (s.destroyer, s.dequeues, s.bioQueue)) = some (.done, [], [1]) := by decide
  obtain ⟨s, hs, hfields⟩ := Option.map_eq_some_iff.mp hq
  rw [Prod.mk.injEq, Prod.mk.injEq] at hfields
  have hempty := (hall _ _ s hs hfields.1 hfields.2.1).1
  rw [hfields.2.2] at hempty
  cases hempty

/-- The same requests with the retry before the flush. -/
def drainingEvents : List DiskEvent :=
  [.strategy 1 sampleBio 0, .dequeueTake, .destroyMark, .dequeueRun 0 noFbioEnv, .dequeueRelock 0,
    .destroyFlush, .destroyFree]

theorem destroyed_disk_drained_sample :
    ∃ s, run diskStep (exposedDisk fun _ ↦ sampleBio) drainingEvents = some s ∧
      s.bioQueue = [] ∧ ∀ b ∈ s.given, b ∈ s.completedBios ∨ b ∈ s.ownedBios := by
  have hq : (run diskStep (exposedDisk fun _ ↦ sampleBio) drainingEvents).map
      (fun s ↦ (s.destroyer, s.dequeues)) = some (.done, []) := by decide
  obtain ⟨s, hs, hfields⟩ := Option.map_eq_some_iff.mp hq
  rw [Prod.mk.injEq] at hfields
  have hdrained : Throughout diskStep QueueDrained (exposedDisk fun _ ↦ sampleBio)
      drainingEvents := by
    refine (throughout_of_check (J := fun s ↦ decide (QueueDrained s)) ?_).mono ?_
    · decide
    · intro t ht
      exact of_decide_eq_true ht
  obtain ⟨hiff, hend⟩ := destroyed_disk_drained _ _ s hs
  exact ⟨s, hs, hend (hiff.mp hdrained) hfields.1 hfields.2⟩

end IomemoryVsl.Kblock
