import IomemoryVsl.Pci.Softc

/-!
# The BAR and the DMA tag over the life of a device (`pci.c`)

What the softc says of the BAR and of the DMA tag is right whatever becomes of the interrupt, and
the interrupt is right whenever its cookie is there.  The library takes the registers of the device
from the BAR.
-/

namespace IomemoryVsl.Pci

open Kblock Kscatter

/-! ## The functions -/

/-- The end of `iodrive_pci_remove`. -/
def releaseMapping (s : PciState) : PciState :=
  let s := if s.pd.barResource ≠ none then releaseBar s else s
  if s.pd.parentDmaTag ≠ none then destroyTag s else s

/-- `kfio_pci_map_csr`, with the handle that it stores. -/
def kfioPciMapCsr (s : PciState) : Int32 × Option Handle :=
  if s.pd.barResource ≠ none then (0, s.pd.barResource) else (-ENOMEM, none)

/-- `rman_get_rid` -/
def Bus.ridOf (bus : Bus) (type : SysRes) (r : Handle) : Option Int32 :=
  ((bus.resources type).find? (·.handle = r)).map Resource.rid

/-- `kfio_pci_resource_start`, over what `rman_get_start` answers. -/
def kfioPciResourceStart (rmanGetStart : Handle → UInt64) (s : PciState) (bar : UInt16) : UInt64 :=
  match s.pd.barResource with
  | none => 0
  | some r =>
      if s.bus.ridOf .memory r = some (pcirBar bar.toUInt32.toInt32) then rmanGetStart r else 0

/-- `kfio_pci_resource_len`, where the size of the resource loses its upper half. -/
def kfioPciResourceLen (rmanGetSize : Handle → UInt64) (s : PciState) (bar : UInt16) : UInt32 :=
  match s.pd.barResource with
  | none => 0
  | some r =>
      if s.bus.ridOf .memory r = some (pcirBar bar.toUInt32.toInt32) then (rmanGetSize r).toUInt32
      else 0

/-! ## What is backed by the bus -/

/-- No interrupt is held under a handle that is still to be given out. -/
def Bus.Fresh (bus : Bus) : Prop := ∀ r ∈ bus.resources .irq, r.handle < bus.nextHandle

/-- The softc is right about the BAR and the tag, and about the interrupt while it has a cookie;
what it points at without one is not held any more. -/
structure Backed (s : PciState) : Prop where
  bar : s.bus.resources .memory = s.pd.barResource.toList.map (⟨·, s.pd.barRid⟩)
  barRid : s.pd.barResource ≠ none → s.pd.barRid = pcirBar 5 ∨ s.pd.barRid = pcirBar 0
  tag : s.bus.tags = s.pd.parentDmaTag.toList
  tagged : s.pd.parentDmaTag.isSome = s.pd.barResource.isSome
  irq : ∀ cookie, s.pd.intrCookie = some cookie → ∃ r, s.pd.intrResource = some r ∧
    (cookie, r) ∈ s.bus.handlers ∧ ⟨r, s.pd.intrRid⟩ ∈ s.bus.resources .irq
  released : s.pd.intrCookie = none → ∀ r, s.pd.intrResource = some r →
    r ∉ (s.bus.resources .irq).map Resource.handle
  fresh : s.bus.Fresh
  clean : .notHeld ∉ s.bus.faults

/-- Neither the BAR nor the tag is held. -/
structure Unmapped (bus : Bus) : Prop where
  memory : bus.resources .memory = []
  tags : bus.tags = []
  fresh : bus.Fresh
  clean : .notHeld ∉ bus.faults

/-- A softc of zeros on a bus that holds neither. -/
theorem Unmapped.backed {s : PciState} (h : Unmapped s.bus) (hbar : s.pd.barResource = none)
    (htag : s.pd.parentDmaTag = none) (hcookie : s.pd.intrCookie = none)
    (hirq : s.pd.intrResource = none) : Backed s where
  bar := by rw [h.memory, hbar]; rfl
  barRid := fun hne ↦ absurd hbar hne
  tag := by rw [h.tags, htag]; rfl
  tagged := by rw [htag, hbar]
  irq := by
    intro cookie hsome
    rw [hcookie] at hsome
    cases hsome
  released := by
    intro _ r hsome
    rw [hirq] at hsome
    cases hsome
  fresh := h.fresh
  clean := h.clean

theorem Backed.unmapped {s : PciState} (h : Backed s) (hbar : s.pd.barResource = none) :
    Unmapped s.bus where
  memory := by rw [h.bar, hbar]; rfl
  tags := by
    have htagged := h.tagged
    rw [hbar] at htagged
    have htag : s.pd.parentDmaTag = none := Option.not_isSome_iff_eq_none.mp (by simp [htagged])
    rw [h.tag, htag]
    rfl
  fresh := h.fresh
  clean := h.clean

/-! ## The probe -/

/-- The state while a BAR has just been allocated, under the identifier `rid`. -/
def withBar (s : PciState) (rid : Int32) : PciState :=
  ⟨{ s.pd with barRid := rid, barResource := some s.bus.nextHandle },
    { s.bus with
      resources := Function.update s.bus.resources .memory
        (⟨s.bus.nextHandle, rid⟩ :: s.bus.resources .memory)
      nextHandle := s.bus.nextHandle + 1 }⟩

/-- The same with the tag. -/
def withTag (s : PciState) : PciState :=
  ⟨{ s.pd with parentDmaTag := some s.bus.nextHandle },
    { s.bus with
      tags := s.bus.nextHandle :: s.bus.tags
      nextHandle := s.bus.nextHandle + 1 }⟩

theorem allocBar_eq (s : PciState) (rid : Int32) (success : Bool) :
    allocBar s rid success =
      if success then withBar s rid
      else { s with pd := { s.pd with barRid := rid, barResource := none } } := by
  cases success <;> rfl

/-- Everything that the second half of a probe can do. -/
theorem probeTag_cases (s : PciState) (rid : Int32) (htag : s.pd.parentDmaTag = none)
    (env : ProbeEnv) :
    ((probeTag (withBar s rid) env).1 ≠ 0 ∧
      ∃ next ≥ s.bus.nextHandle, (probeTag (withBar s rid) env).2 =
        ⟨{ s.pd with barRid := rid, barResource := none }, { s.bus with nextHandle := next }⟩) ∨
    (probeTag (withBar s rid) env).1 = 0 ∧
      (probeTag (withBar s rid) env).2 = { withTag (withBar s rid) with
        bus := { (withTag (withBar s rid)).bus with intrhook := true } } := by
  obtain ⟨pd, bus⟩ := s
  obtain ⟨prv, barRid, barResource, parentDmaTag, intrRid, intrResource, intrCookie⟩ := pd
  obtain rfl : parentDmaTag = none := htag
  by_cases hrc : env.dmaTag = 0
  · cases hhook : env.intrhook with
    | true => exact Or.inr (by simp [probeTag, withBar, withTag, busDmaTagCreate, hrc, hhook])
    -- the tag and the BAR go again
    | false =>
        have hne : - ENXIO ≠ 0 := by decide
        exact Or.inl (by
          simp [probeTag, withBar, busDmaTagCreate, hrc, hhook, destroyTag, busDmaTagDestroy,
            releaseBar, busReleaseResource, hne]
          exact Nat.le_add_right _ 2)
  · have hne : -env.dmaTag ≠ 0 := by
      intro hzero
      exact hrc (by simpa using congrArg (- ·) hzero)
    exact Or.inl (by
      simp [probeTag, withBar, busDmaTagCreate, hrc, releaseBar, busReleaseResource])

theorem enableIntx_eq (bus : Bus) :
    ∃ command, bus.enableIntx = { bus with command := command } := by
  unfold Bus.enableIntx
  split
  · exact ⟨_, rfl⟩
  · exact ⟨bus.command, rfl⟩

/-- A probe that has allocated a BAR under `rid`, of the softc `s` but for the identifier of the
last try. -/
theorem probeTag_outcome (s : PciState) (rid tried : Int32) (command : UInt16)
    (hbar : s.pd.barResource = none) (htag : s.pd.parentDmaTag = none) (env : ProbeEnv) :
    let p := probeTag (withBar ⟨{ s.pd with barRid := tried, barResource := none },
      { s.bus with command := command }⟩ rid) env
    (p.1 ≠ 0 ∧ ∃ next ≥ s.bus.nextHandle, p.2 =
      ⟨{ s.pd with barRid := rid }, { s.bus with command := command, nextHandle := next }⟩) ∨
    p.1 = 0 ∧ ∃ b t, ∃ next ≥ s.bus.nextHandle, p.2 =
      ⟨{ s.pd with barRid := rid, barResource := some b, parentDmaTag := some t },
        { s.bus with
          resources := Function.update s.bus.resources .memory
            (⟨b, rid⟩ :: s.bus.resources .memory)
          tags := t :: s.bus.tags
          intrhook := true
          command := command
          nextHandle := next }⟩ := by
  intro p
  obtain ⟨hrc, next, hnext, hfailed⟩ | ⟨hrc, hheld⟩ := probeTag_cases
    ⟨{ s.pd with barRid := tried, barResource := none }, { s.bus with command := command }⟩ rid
    htag env
  · refine Or.inl ⟨hrc, next, hnext, hfailed.trans ?_⟩
    rw [← hbar]
  · exact Or.inr ⟨hrc, _, _, _, Nat.le_add_right _ 2, hheld⟩

/-- Everything that a probe of a fresh softc can do: it fails and gives back what it has taken, or
it holds one BAR more, one tag more, and the hook. -/
theorem iodrivePciProbe_cases (s : PciState) (hbar : s.pd.barResource = none)
    (htag : s.pd.parentDmaTag = none) (env : ProbeEnv) :
    ∃ rid command,
      ((iodrivePciProbe s env).1 ≠ 0 ∧ ∃ next ≥ s.bus.nextHandle, (iodrivePciProbe s env).2 =
        ⟨{ s.pd with barRid := rid }, { s.bus with command := command, nextHandle := next }⟩) ∨
      ((iodrivePciProbe s env).1 = 0 ∧ (rid = pcirBar 5 ∨ rid = pcirBar 0) ∧
        ∃ b t, ∃ next ≥ s.bus.nextHandle, (iodrivePciProbe s env).2 =
          ⟨{ s.pd with barRid := rid, barResource := some b, parentDmaTag := some t },
            { s.bus with
              resources := Function.update s.bus.resources .memory
                (⟨b, rid⟩ :: s.bus.resources .memory)
              tags := t :: s.bus.tags
              intrhook := true
              command := command
              nextHandle := next }⟩) := by
  have hsame : s.pd = { s.pd with barRid := s.pd.barRid, barResource := none } := by rw [← hbar]
  unfold iodrivePciProbe
  by_cases hign : env.ignored = true
  · rw [if_pos hign]
    exact ⟨s.pd.barRid, s.bus.command, Or.inl ⟨show -EINVAL ≠ 0 by decide, s.bus.nextHandle,
      Nat.le_refl _, rfl⟩⟩
  rw [if_neg hign]
  by_cases hmaster : env.busmaster = 0
  · rw [if_neg (not_not.mpr hmaster)]
    obtain ⟨command, hcommand⟩ := enableIntx_eq s.bus
    rw [hcommand]
    dsimp only
    rw [allocBar_eq]
    cases env.bar5 with
    | true =>
        -- BAR 5
        rw [if_pos rfl, if_neg (show (withBar _ (pcirBar 5)).pd.barResource ≠ none from
          Option.some_ne_none _)]
        have hout := probeTag_outcome s (pcirBar 5) s.pd.barRid command hbar htag env
        rw [← hsame] at hout
        exact ⟨pcirBar 5, command, hout.imp_right fun h ↦ ⟨h.1, Or.inl rfl, h.2⟩⟩
    | false =>
        rw [if_neg Bool.false_ne_true]
        dsimp only
        rw [if_pos rfl, allocBar_eq]
        cases env.bar0 with
        | true =>
            -- BAR 0
            rw [if_pos rfl, if_neg (show (withBar _ (pcirBar 0)).pd.barResource ≠ none from
              Option.some_ne_none _)]
            have hout := probeTag_outcome s (pcirBar 0) (pcirBar 5) command hbar htag env
            exact ⟨pcirBar 0, command, hout.imp_right fun h ↦ ⟨h.1, Or.inr rfl, h.2⟩⟩
        | false =>
            rw [if_neg Bool.false_ne_true]
            dsimp only
            rw [if_pos rfl]
            have hne : -ENOMEM ≠ 0 := by decide
            refine ⟨pcirBar 0, command, Or.inl ⟨hne, s.bus.nextHandle, Nat.le_refl _, ?_⟩⟩
            rw [← hbar]
  · rw [if_pos hmaster]
    have hne : -env.busmaster ≠ 0 := by
      intro hzero
      exact hmaster (by simpa using congrArg (- ·) hzero)
    exact ⟨s.pd.barRid, s.bus.command, Or.inl ⟨hne, s.bus.nextHandle, Nat.le_refl _, rfl⟩⟩

theorem iodrivePciProbe_irq {s : PciState} (hbar : s.pd.barResource = none)
    (htag : s.pd.parentDmaTag = none) (env : ProbeEnv) :
    (iodrivePciProbe s env).2.bus.resources .irq = s.bus.resources .irq := by
  obtain ⟨rid, command, ⟨_, next, _, heq⟩ | ⟨_, _, b, t, next, _, heq⟩⟩ :=
    iodrivePciProbe_cases s hbar htag env
  · rw [heq]
  · rw [heq]
    simp

theorem iodrivePciProbe_faults {s : PciState} (hbar : s.pd.barResource = none)
    (htag : s.pd.parentDmaTag = none) (env : ProbeEnv) :
    (iodrivePciProbe s env).2.bus.faults = s.bus.faults := by
  obtain ⟨rid, command, ⟨_, next, _, heq⟩ | ⟨_, _, b, t, next, _, heq⟩⟩ :=
    iodrivePciProbe_cases s hbar htag env
  · rw [heq]
  · rw [heq]

/-- A probe of a softc of zeros leaves the bus as bare as it found it, or the softc backed by it. -/
theorem iodrivePciProbe_fresh {s : PciState} (h : Unmapped s.bus) (hbar : s.pd.barResource = none)
    (htag : s.pd.parentDmaTag = none) (hcookie : s.pd.intrCookie = none)
    (hirq : s.pd.intrResource = none) (env : ProbeEnv) :
    ((iodrivePciProbe s env).1 ≠ 0 → Unmapped (iodrivePciProbe s env).2.bus ∧
      (iodrivePciProbe s env).2.bus.intrhook = s.bus.intrhook) ∧
    ((iodrivePciProbe s env).1 = 0 → Backed (iodrivePciProbe s env).2 ∧
      (iodrivePciProbe s env).2.pd.barResource ≠ none ∧
      (iodrivePciProbe s env).2.bus.intrhook = true) := by
  obtain ⟨rid, command, hfailed | hheld⟩ := iodrivePciProbe_cases s hbar htag env
  · obtain ⟨hrc, next, hnext, heq⟩ := hfailed
    rw [heq]
    have hfresh : ∀ r ∈ s.bus.resources .irq, r.handle < next := fun r hr ↦
      Nat.lt_of_lt_of_le (h.fresh r hr) hnext
    exact ⟨fun _ ↦ ⟨{ h with fresh := hfresh }, rfl⟩, fun hzero ↦ absurd hzero hrc⟩
  · obtain ⟨hrc, hrid, b, t, next, hnext, heq⟩ := hheld
    rw [heq]
    refine ⟨fun hne ↦ absurd hrc hne, fun _ ↦ ⟨?_, Option.some_ne_none b, rfl⟩⟩
    exact
      { bar := by simp [h.memory]
        barRid := fun _ ↦ hrid
        tag := by simp [h.tags]
        tagged := rfl
        irq := by
          intro cookie hsome
          rw [show s.pd.intrCookie = some cookie from hsome] at hcookie
          cases hcookie
        released := by
          intro _ r hsome
          rw [show s.pd.intrResource = some r from hsome] at hirq
          cases hirq
        fresh := by
          intro r hr
          dsimp only at hr
          rw [Function.update_of_ne (by decide)] at hr
          exact Nat.lt_of_lt_of_le (h.fresh r hr) hnext
        clean := h.clean }

/-! ## The interrupt -/

/-- A look at an interrupt while there is a cookie. -/
theorem Backed.useIrq {s : PciState} (h : Backed s) {cookie : Handle}
    (hcookie : s.pd.intrCookie = some cookie) : s.bus.useIrq s.pd.intrResource = s.bus := by
  obtain ⟨r, hr, -, hirq⟩ := h.irq cookie hcookie
  have hmem := List.mem_map_of_mem (f := Resource.handle) hirq
  rw [hr]
  unfold Bus.useIrq
  dsimp only at hmem ⊢
  rw [if_pos hmem]

/-- A look at what is left of an interrupt is a fault. -/
theorem Backed.useIrq_released {s : PciState} (h : Backed s) (hnone : s.pd.intrCookie = none) :
    s.bus.useIrq s.pd.intrResource = s.bus.fault .dereferenced := by
  cases hr : s.pd.intrResource with
  | none => rfl
  | some r => exact if_neg (h.released hnone r hr)

/-- The number of an interrupt may be asked for while there is a cookie, and then only. -/
theorem kfioGetIrqNumber_faults {s : PciState} (h : Backed s) :
    (kfioGetIrqNumber s).2.bus.faults = [] ↔ s.bus.faults = [] ∧ s.pd.intrCookie ≠ none := by
  show (s.bus.useIrq s.pd.intrResource).faults = [] ↔ _
  cases hcookie : s.pd.intrCookie with
  | none =>
      rw [h.useIrq_released hcookie]
      simp [Bus.fault]
  | some cookie =>
      rw [h.useIrq hcookie]
      simp

theorem kfioGetIrqNumber_backed {s : PciState} (h : Backed s) :
    Backed (kfioGetIrqNumber s).2 := by
  unfold kfioGetIrqNumber
  dsimp only
  cases hcookie : s.pd.intrCookie with
  | none =>
      rw [h.useIrq_released hcookie]
      refine { h with clean := ?_ }
      intro hmem
      rcases List.mem_append.mp hmem with hold | hnew
      · exact h.clean hold
      · rw [List.mem_singleton] at hnew
        cases hnew
  | some cookie =>
      rw [h.useIrq hcookie]
      exact h

theorem kfioFreeIrq_backed {s : PciState} (h : Backed s) :
    Backed (kfioFreeIrq s) ∧ (kfioFreeIrq s).bus.faults = s.bus.faults := by
  unfold kfioFreeIrq
  cases hcookie : s.pd.intrCookie with
  | none => exact ⟨h, rfl⟩
  | some cookie =>
      obtain ⟨r, hr, hhandler, hirq⟩ := h.irq cookie hcookie
      have huse := h.useIrq hcookie
      rw [hr] at huse
      dsimp only
      rw [hr]
      simp only [busTeardownIntr, busReleaseResource, huse, if_pos hhandler, if_pos hirq]
      refine ⟨?_, trivial⟩
      exact
        { bar := by simp [h.bar]
          barRid := h.barRid
          tag := h.tag
          tagged := h.tagged
          irq := by
            intro c hsome
            cases hsome
          released := by
            intro _ r hsome
            cases hsome
          fresh := by
            intro r' hr'
            dsimp only at hr'
            rw [Function.update_self] at hr'
            exact h.fresh r' (List.mem_of_mem_erase hr')
          clean := h.clean }

/-- An interrupt is requested by a driver that has none.  When its handler can not be set up it is
given back, and the softc points at what nobody holds. -/
theorem kfioRequestIrq_backed {s : PciState} (h : Backed s) (hnone : s.pd.intrCookie = none)
    (msiEnabled alloc : Bool) (setup : Int32) :
    Backed (kfioRequestIrq s msiEnabled alloc setup).2 ∧
      (kfioRequestIrq s msiEnabled alloc setup).2.bus.faults = s.bus.faults := by
  have hvacuous : ∀ {p : Prop} {cookie}, s.pd.intrCookie = some cookie → p := by
    intro p cookie hsome
    rw [hnone] at hsome
    cases hsome
  cases alloc with
  | false =>
      rw [kfioRequestIrq_refused]
      refine ⟨{ h with irq := fun _ hsome ↦ hvacuous hsome, released := ?_ }, rfl⟩
      intro _ r hsome
      cases hsome
  | true =>
      rw [kfioRequestIrq_granted]
      dsimp only
      by_cases hsetup : setup = 0
      · rw [if_pos hsetup]
        refine ⟨?_, rfl⟩
        exact
          { h with
            bar := by simp [h.bar]
            irq := by
              intro cookie hsome
              cases hsome
              exact ⟨s.bus.nextHandle, rfl, List.mem_cons_self, by simp⟩
            released := by
              intro hcookie
              cases hcookie
            fresh := by
              intro r hr
              dsimp only at hr ⊢
              rw [Function.update_self] at hr
              rcases List.mem_cons.mp hr with rfl | hold
              · exact Nat.lt_add_of_pos_right (by decide)
              · exact Nat.lt_add_right 2 (h.fresh r hold) }
      · rw [if_neg hsetup]
        refine ⟨?_, rfl⟩
        exact
          { h with
            irq := fun _ hsome ↦ hvacuous hsome
            -- the handle has just been given out, so nothing else is held under it
            released := by
              intro _ r hsome hmem
              cases hsome
              obtain ⟨held, hheld, heq⟩ := List.mem_map.mp hmem
              exact absurd heq (Nat.ne_of_lt (h.fresh held hheld))
            fresh := fun r hr ↦ Nat.lt_succ_of_lt (h.fresh r hr) }

theorem useIrq_eq (bus : Bus) (r : Option Handle) :
    ∃ faults, bus.useIrq r = { bus with faults := faults } := by
  unfold Bus.useIrq
  cases r with
  | none => exact ⟨_, rfl⟩
  | some r =>
      dsimp only
      split
      · exact ⟨bus.faults, rfl⟩
      · exact ⟨_, rfl⟩

theorem busTeardownIntr_eq (bus : Bus) (r : Option Handle) (cookie : Handle) :
    ∃ handlers faults, busTeardownIntr bus r cookie =
      { bus with handlers := handlers, faults := faults } := by
  obtain ⟨faults, huse⟩ := useIrq_eq bus r
  unfold busTeardownIntr
  rw [huse]
  cases r with
  | none => exact ⟨bus.handlers, _, rfl⟩
  | some r =>
      dsimp only
      split
      · exact ⟨_, faults, rfl⟩
      · exact ⟨bus.handlers, _, rfl⟩

/-- Giving back an interrupt takes nothing but interrupts from what is held. -/
theorem kfioFreeIrq_frame (s : PciState) :
    (kfioFreeIrq s).pd.barResource = s.pd.barResource ∧
      (kfioFreeIrq s).bus.intrhook = s.bus.intrhook ∧
      ∀ r ∈ (kfioFreeIrq s).bus.resources .irq, r ∈ s.bus.resources .irq := by
  unfold kfioFreeIrq
  cases s.pd.intrCookie with
  | none => exact ⟨rfl, rfl, fun _ hr ↦ hr⟩
  | some cookie =>
      obtain ⟨handlers, faults, hteardown⟩ := busTeardownIntr_eq s.bus s.pd.intrResource cookie
      dsimp only
      rw [hteardown]
      refine ⟨rfl, ?_⟩
      unfold busReleaseResource
      cases s.pd.intrResource with
      | none => exact ⟨rfl, fun _ hr ↦ hr⟩
      | some held =>
          dsimp only
          split
          · refine ⟨rfl, ?_⟩
            intro r hr
            dsimp only at hr
            rw [Function.update_self] at hr
            exact List.mem_of_mem_erase hr
          · exact ⟨rfl, fun _ hr ↦ hr⟩

/-- The only interrupt that a request can add is one under the identifier that it asks for. -/
theorem kfioRequestIrq_frame (s : PciState) (msiEnabled alloc : Bool) (setup : Int32) :
    let t := (kfioRequestIrq s msiEnabled alloc setup).2
    t.pd.barResource = s.pd.barResource ∧ t.bus.intrhook = s.bus.intrhook ∧
      ∀ r ∈ t.bus.resources .irq, r ∈ s.bus.resources .irq ∨
        alloc = true ∧ r.rid = if msiEnabled then 1 else 0 := by
  intro t
  cases alloc with
  | false =>
      have ht : t = _ := kfioRequestIrq_refused s msiEnabled setup
      rw [ht]
      exact ⟨rfl, rfl, fun _ hr ↦ Or.inl hr⟩
  | true =>
      have ht : t = _ := kfioRequestIrq_granted s msiEnabled setup
      rw [ht]
      dsimp only
      split
      · refine ⟨rfl, rfl, ?_⟩
        intro r hr
        dsimp only at hr
        rw [Function.update_self] at hr
        rcases List.mem_cons.mp hr with rfl | hold
        · exact Or.inr ⟨rfl, rfl⟩
        · exact Or.inl hold
      · exact ⟨rfl, rfl, fun _ hr ↦ Or.inl hr⟩

/-! ## The end -/

theorem releaseMapping_backed {s : PciState} (h : Backed s) :
    Backed (releaseMapping s) ∧ (releaseMapping s).pd.barResource = none ∧
      (releaseMapping s).bus.faults = s.bus.faults := by
  unfold releaseMapping
  cases hbar : s.pd.barResource with
  | none =>
      have htag : s.pd.parentDmaTag = none :=
        Option.not_isSome_iff_eq_none.mp (by simp [h.tagged, hbar])
      simp only [ne_eq, not_true_eq_false, if_false, htag]
      exact ⟨h, hbar, trivial⟩
  | some b =>
      have hmemory : s.bus.resources .memory = [⟨b, s.pd.barRid⟩] := by rw [h.bar, hbar]; rfl
      obtain ⟨t, htag⟩ : ∃ t, s.pd.parentDmaTag = some t :=
        Option.isSome_iff_exists.mp (by simp [h.tagged, hbar])
      have htags : s.bus.tags = [t] := by rw [h.tag, htag]; rfl
      simp only [ne_eq, reduceCtorEq, not_false_eq_true, if_true, releaseBar, hbar,
        busReleaseResource, hmemory, List.mem_singleton, htag, destroyTag, busDmaTagDestroy, htags]
      exact
        ⟨{ bar := by simp
           barRid := fun hne ↦ absurd rfl hne
           tag := by simp
           tagged := rfl
           irq := by
            intro cookie hsome
            obtain ⟨r, hr, hhandler, hirq⟩ := h.irq cookie hsome
            exact ⟨r, hr, hhandler, by simpa using hirq⟩
           released := by simpa using h.released
           fresh := by
            intro r hr
            dsimp only at hr
            rw [Function.update_of_ne (by decide)] at hr
            exact h.fresh r hr
           clean := h.clean }, trivial, trivial⟩

theorem releaseBar_frame (s : PciState) :
    (releaseBar s).bus.intrhook = s.bus.intrhook ∧
      (releaseBar s).bus.resources .irq = s.bus.resources .irq := by
  unfold releaseBar busReleaseResource
  cases s.pd.barResource with
  | none => exact ⟨rfl, rfl⟩
  | some b =>
      dsimp only
      split
      · exact ⟨rfl, by simp⟩
      · exact ⟨rfl, rfl⟩

theorem destroyTag_frame (s : PciState) :
    (destroyTag s).bus.intrhook = s.bus.intrhook ∧
      (destroyTag s).bus.resources .irq = s.bus.resources .irq := by
  unfold destroyTag busDmaTagDestroy
  cases s.pd.parentDmaTag with
  | none => exact ⟨rfl, rfl⟩
  | some tag =>
      dsimp only
      split <;> exact ⟨rfl, rfl⟩

theorem releaseMapping_frame (s : PciState) :
    (releaseMapping s).bus.intrhook = s.bus.intrhook ∧
      (releaseMapping s).bus.resources .irq = s.bus.resources .irq := by
  have hbar : ∀ t, t = (if s.pd.barResource ≠ none then releaseBar s else s) →
      t.bus.intrhook = s.bus.intrhook ∧ t.bus.resources .irq = s.bus.resources .irq := by
    intro t ht
    split at ht
    · rw [ht]
      exact releaseBar_frame s
    · rw [ht]
      exact ⟨rfl, rfl⟩
  unfold releaseMapping
  generalize ht : (if s.pd.barResource ≠ none then releaseBar s else s) = t
  obtain ⟨hhook, hirq⟩ := hbar t ht.symm
  dsimp only
  split
  · obtain ⟨hhook', hirq'⟩ := destroyTag_frame t
    exact ⟨hhook'.trans hhook, hirq'.trans hirq⟩
  · exact ⟨hhook, hirq⟩

/-! ## What the library is given -/

/-- The registers can be mapped if and only if the BAR is held, and then the handle is one that the
bus has allocated. -/
theorem kfioPciMapCsr_backed {s : PciState} (h : Backed s) :
    ((kfioPciMapCsr s).1 = 0 ↔ s.pd.barResource ≠ none) ∧
      ∀ r, (kfioPciMapCsr s).2 = some r → ⟨r, s.pd.barRid⟩ ∈ s.bus.resources .memory := by
  unfold kfioPciMapCsr
  cases hbar : s.pd.barResource with
  | none =>
      have hne : -ENOMEM ≠ 0 := by decide
      simp [hne]
  | some b => simp [h.bar, hbar]

theorem pcirBar_inj {a b : UInt16}
    (h : pcirBar a.toUInt32.toInt32 = pcirBar b.toUInt32.toInt32) : a = b := by
  have hbits := congrArg Int32.toBitVec h
  have ha := a.toNat_lt
  have hb := b.toNat_lt
  apply UInt16.toNat_inj.mp
  simp only [pcirBar, Int32.toBitVec_add, Int32.toBitVec_mul] at hbits
  have hnat := congrArg BitVec.toNat hbits
  simp at hnat
  omega

/-- A start address or a length is told of one BAR at most. -/
theorem kfioPciResource_unique (start size : Handle → UInt64) (s : PciState) {a b : UInt16}
    (ha : kfioPciResourceStart start s a ≠ 0 ∨ kfioPciResourceLen size s a ≠ 0)
    (hb : kfioPciResourceStart start s b ≠ 0 ∨ kfioPciResourceLen size s b ≠ 0) : a = b := by
  have hrid : ∀ c : UInt16, kfioPciResourceStart start s c ≠ 0 ∨ kfioPciResourceLen size s c ≠ 0 →
      s.pd.barResource.bind (s.bus.ridOf .memory) = some (pcirBar c.toUInt32.toInt32) := by
    intro c hc
    unfold kfioPciResourceStart kfioPciResourceLen at hc
    cases hbar : s.pd.barResource with
    | none => simp [hbar] at hc
    | some r =>
        rw [hbar] at hc
        dsimp only at hc
        by_contra hne
        have hne' : s.bus.ridOf .memory r ≠ some (pcirBar c.toUInt32.toInt32) := hne
        simp [hne'] at hc
  have heq := (hrid a ha).symm.trans (hrid b hb)
  exact pcirBar_inj (Option.some.inj heq)

end IomemoryVsl.Pci
