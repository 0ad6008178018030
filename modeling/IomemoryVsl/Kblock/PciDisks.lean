import IomemoryVsl.Kblock.Destroy

/-!
# The disks of a PCI device (`kblock.c`)

The queue of a disk is not its own: it is `bioq` of the softc, which is initialised when the device
is attached and not again when a disk is created.  So a request that the last disk has left on the
queue is there for the next one.  The softc also remembers the owner of the disk in `p_fio_device`.
-/

namespace IomemoryVsl.Kblock

open Transition

/-- The disk that a device has, or had last, and what the softc knows of it.  `created` counts the
disks, and `home` is the one that a request was given to. -/
structure PciDisks where
  disk : DiskState
  pFioDevice : Option UInt64
  created : ℕ
  home : BioId → ℕ

inductive PciDiskEvent where
  | createDevice (dev : UInt64) (memory : Bool)
  | exposeDevice
  | disk (e : DiskEvent)

/-- The softc after `freebsd_attach`: there is no disk yet. -/
def attachedDisks (bios : BioId → Bio) : PciDisks where
  disk := { kfioBlockCreateDevice bios with destroyer := .done }
  pFioDevice := none
  created := 0
  home := fun _ ↦ 0

/-- `kfio_block_create_device`, when `kfio_vmalloc` returns memory and when it does not. -/
def kfioBlockCreateNext (s : PciDisks) (dev : UInt64) (memory : Bool) : PciDisks :=
  if memory then
    { s with
      -- the queue of the softc, as it is
      disk := { s.disk with drv1 := true, devState := .dead, destroyer := .idle }
      pFioDevice := some dev
      created := s.created + 1 }
  else s

/-- A step of the disk; `kfio_block_destroy_device` begins with the pointer in the softc. -/
def PciDisks.withDisk (s : PciDisks) (e : DiskEvent) (d : DiskState) : PciDisks :=
  match e with
  | .strategy b _ _ => { s with disk := d, home := Function.update s.home b s.created }
  | .destroyMark => { s with disk := d, pFioDevice := none }
  | _ => { s with disk := d }

/-- The steps that need a disk: of one that has been destroyed, only what was begun goes on. -/
def DiskEvent.begins : DiskEvent → Bool
  | .strategy _ _ _ | .dequeueTake => true
  | _ => false

/-- One step.  A device has one disk at a time, and the next is created when no dequeue on the last
one is in progress. -/
def pciDiskStep (s : PciDisks) : PciDiskEvent → Option PciDisks
  | .createDevice dev memory =>
      if s.disk.destroyer = .done ∧ s.disk.dequeues = [] then
        some (kfioBlockCreateNext s dev memory)
      else none
  | .exposeDevice =>
      if s.disk.destroyer = .idle then some { s with disk := kfioBlockExposeDevice s.disk }
      else none
  | .disk e =>
      if s.disk.destroyer = .done ∧ e.begins then none
      else (diskStep s.disk e).map (s.withDisk e)

variable {s s' : PciDisks}

/-! ## Whose requests there are -/

/-- The requests that wait on the queue or are held by a dequeue. -/
def DiskState.Waits (d : DiskState) (b : BioId) : Prop :=
  b ∈ d.bioQueue ∨ b ∈ d.heldBios

/-- What waits was given to the disk that is there. -/
def RequestsAtHome (s : PciDisks) : Prop :=
  ∀ b, s.disk.Waits b → s.home b = s.created

/-- What a step of the device can do. -/
theorem pciDiskStep_cases {e : PciDiskEvent} (h : pciDiskStep s e = some s') :
    (∃ dev, e = .createDevice dev true ∧ s.disk.destroyer = .done ∧ s.disk.dequeues = [] ∧
        s' = kfioBlockCreateNext s dev true) ∨
      (∃ dev, e = .createDevice dev false ∧ s' = s) ∨
      (e = .exposeDevice ∧ s.disk.destroyer = .idle ∧
        s' = { s with disk := kfioBlockExposeDevice s.disk }) ∨
      ∃ de d, e = .disk de ∧ diskStep s.disk de = some d ∧ s' = s.withDisk de d := by
  cases e with
  | createDevice dev memory =>
      simp only [pciDiskStep, Option.ite_none_right_eq_some, Option.some.injEq] at h
      obtain ⟨⟨hdone, hcalls⟩, rfl⟩ := h
      cases memory with
      | true => exact Or.inl ⟨dev, rfl, hdone, hcalls, rfl⟩
      | false => exact Or.inr (Or.inl ⟨dev, rfl, rfl⟩)
  | exposeDevice =>
      simp only [pciDiskStep, Option.ite_none_right_eq_some, Option.some.injEq] at h
      obtain ⟨hidle, rfl⟩ := h
      exact Or.inr (Or.inr (Or.inl ⟨rfl, hidle, rfl⟩))
  | disk de =>
      simp only [pciDiskStep, Option.ite_none_left_eq_some, Option.map_eq_some_iff] at h
      obtain ⟨-, d, hd, rfl⟩ := h
      exact Or.inr (Or.inr (Or.inr ⟨de, d, rfl, hd, rfl⟩))

@[simp]
theorem withDisk_disk (s : PciDisks) (e : DiskEvent) (d : DiskState) :
    (s.withDisk e d).disk = d := by
  cases e <;> rfl

/-- Only the first step of destroying takes the disk out of use. -/
theorem diskStep_idle {d d' : DiskState} {e : DiskEvent} (h : diskStep d e = some d')
    (he : e ≠ .destroyMark) : d'.destroyer = .idle ↔ d.destroyer = .idle := by
  cases e with
  | strategy a bio i =>
      simp only [diskStep, Option.ite_none_right_eq_some, Option.some.injEq] at h
      obtain ⟨-, rfl⟩ := h
      rw [(strategy_fields d a bio i).1]
  | dequeueTake =>
      rw [diskStep, Option.some.injEq] at h
      subst h
      unfold dequeueTake
      split <;> exact Iff.rfl
  | dequeueRun k env =>
      simp only [diskStep, Option.bind_eq_some_iff, Option.ite_none_right_eq_some,
        Option.some.injEq] at h
      obtain ⟨c, -, -, rfl⟩ := h
      rw [(dequeueRun_fields d k c env).1]
  | dequeueRelock k =>
      simp only [diskStep, Option.bind_eq_some_iff, Option.ite_none_right_eq_some,
        Option.some.injEq] at h
      obtain ⟨c, -, -, rfl⟩ := h
      unfold dequeueRelock
      split <;> exact Iff.rfl
  | complete j bytesDone error =>
      simp only [diskStep, Option.bind_eq_some_iff, Option.some.injEq] at h
      obtain ⟨fbio, -, rfl⟩ := h
      exact Iff.rfl
  | destroyMark => exact absurd rfl he
  | destroyFlush =>
      simp only [diskStep, Option.ite_none_right_eq_some, Option.some.injEq] at h
      obtain ⟨hmarked, rfl⟩ := h
      simp [hmarked]
  | destroyFree =>
      simp only [diskStep, Option.ite_none_right_eq_some, Option.some.injEq] at h
      obtain ⟨hflushed, rfl⟩ := h
      simp [hflushed]

/-- The requests of all disks are accounted for, and the softc names an owner while there is a disk
that is not being destroyed. -/
structure PciDisksInv (s : PciDisks) : Prop where
  places : EachInOnePlace s.disk
  owner : s.pFioDevice.isSome ↔ s.disk.destroyer = .idle

theorem attachedDisks_inv (bios : BioId → Bio) : PciDisksInv (attachedDisks bios) where
  places := ⟨List.nodup_nil, fun _ ↦ rfl⟩
  owner := iff_of_false (by simp [attachedDisks]) (by simp [attachedDisks])

theorem pciDisksInv_step (s : PciDisks) (e : PciDiskEvent) (s' : PciDisks) (hi : PciDisksInv s)
    (h : pciDiskStep s e = some s') : PciDisksInv s' := by
  rcases pciDiskStep_cases h with ⟨dev, he, hdone, hcalls, rfl⟩ | ⟨dev, he, rfl⟩ |
    ⟨he, hidle, rfl⟩ | ⟨de, d, rfl, hd, rfl⟩
  · exact ⟨hi.places, iff_of_true rfl rfl⟩
  · exact hi
  · exact ⟨hi.places, hi.owner⟩
  · have hplaces := diskStep_eachInOnePlace s.disk de d hi.places hd
    by_cases hmark : de = .destroyMark
    · subst hmark
      simp only [diskStep, Option.ite_none_right_eq_some, Option.some.injEq] at hd
      obtain ⟨-, rfl⟩ := hd
      exact ⟨hplaces, iff_of_false (by simp [PciDisks.withDisk]) (by simp [PciDisks.withDisk])⟩
    · have howner : (s.withDisk de d).pFioDevice = s.pFioDevice := by
        cases de with
        | destroyMark => exact absurd rfl hmark
        | _ => rfl
      constructor
      · rw [withDisk_disk]
        exact hplaces
      · rw [withDisk_disk, howner, diskStep_idle hd hmark]
        exact hi.owner

/-- Whatever disks a device has had, each request given to any of them is queued, held by one
dequeue, owned by one outstanding fbio or completed once; and `p_fio_device`, which
`freebsd_detach` tests, is set exactly while there is a disk that is not being destroyed. -/
theorem device_requests_in_one_place (bios : BioId → Bio) (es : List PciDiskEvent) (s : PciDisks)
    (hrun : run pciDiskStep (attachedDisks bios) es = some s) :
    (∀ b, s.disk.bioQueue.count b + s.disk.heldBios.count b + s.disk.ownedBios.count b +
        s.disk.completedBios.count b = if b ∈ s.disk.given then 1 else 0) ∧
      (s.pFioDevice.isSome ↔ s.disk.destroyer = .idle) := by
  have hi := run_invariant pciDisksInv_step (attachedDisks_inv bios) hrun
  refine ⟨?_, hi.owner⟩
  intro b
  obtain ⟨hnd, hplaces⟩ := hi.places
  have hb := hplaces b
  unfold DiskState.places at hb
  rw [hb]
  by_cases hmem : b ∈ s.disk.given
  · rw [if_pos hmem]
    exact List.count_eq_one_of_mem hnd hmem
  · rw [if_neg hmem]
    exact List.count_eq_zero_of_not_mem hmem

/-! Two disks, the first of which is destroyed while a dequeue has its only request in hand. -/

def twoDiskEvents : List PciDiskEvent :=
  [.createDevice 5 true, .exposeDevice] ++ strandingEvents.map .disk ++
    [.createDevice 5 true, .exposeDevice, .disk .dequeueTake, .disk (.dequeueRun 0 handedOutEnv)]

theorem device_requests_in_one_place_twoDisks :
    ∃ s, run pciDiskStep (attachedDisks fun _ ↦ sampleBio) twoDiskEvents = some s ∧
      s.created = 2 ∧ s.home 1 = 1 ∧ s.disk.ownedBios = [1] ∧
        (s.pFioDevice.isSome ↔ s.disk.destroyer = .idle) := by
  have hfields : (run pciDiskStep (attachedDisks fun _ ↦ sampleBio) twoDiskEvents).map
      (fun s ↦ (s.created, s.home 1, s.disk.ownedBios)) = some (2, 1, [1]) := by decide
  obtain ⟨s, hs, heq⟩ := Option.map_eq_some_iff.mp hfields
  rw [Prod.mk.injEq, Prod.mk.injEq] at heq
  exact ⟨s, hs, heq.1, heq.2.1, heq.2.2,
    (device_requests_in_one_place _ twoDiskEvents s hs).2⟩

/-- The second disk hands out the request that the first has left behind. -/
theorem disks_mixed : ¬ Throughout pciDiskStep RequestsAtHome
    (attachedDisks fun _ ↦ sampleBio) twoDiskEvents := by
  have hlast : (run pciDiskStep (attachedDisks fun _ ↦ sampleBio) (twoDiskEvents.take 10)).map
      (fun s ↦ (s.created, s.home 1, s.disk.bioQueue)) = some (2, 1, [1]) := by decide
  obtain ⟨s, hs, heq⟩ := Option.map_eq_some_iff.mp hlast
  rw [Prod.mk.injEq, Prod.mk.injEq] at heq
  intro hall
  have hhome := hall _ s (List.take_prefix 10 twoDiskEvents) hs 1
    (Or.inl (by rw [heq.2.2]; exact List.mem_singleton_self 1))
  rw [heq.1, heq.2.1] at hhome
  cases hhome

end IomemoryVsl.Kblock
