import IomemoryVsl.Kblock.Bio
import IomemoryVsl.Lib.Run

/-!
# What a PCI device holds (`pci.c`)

The softc of a device has a pointer for each thing that the driver has allocated from the bus: the
memory BAR, the DMA tag, the interrupt and its handler.  The bus keeps its own account of what is
allocated, and notes when it is given something back, or asked about something, that is not.
-/

namespace IomemoryVsl.Pci

open Kblock Kscatter Transition

def EINVAL : Int32 := 22

/-- `PCIM_CMD_INTX_DISABLE` -/
def pcimCmdIntxDisable : UInt16 := 0x0400

/-- `PCIR_BAR` -/
def pcirBar (x : Int32) : Int32 := 0x10 + x * 4

/-- `SYS_RES_MEMORY` and `SYS_RES_IRQ` -/
inductive SysRes where
  | memory
  | irq
deriving DecidableEq, Repr

/-- A pointer to what the bus has allocated; no two allocations have the same. -/
abbrev Handle := Nat

structure Resource where
  handle : Handle
  rid : Int32
deriving DecidableEq, Repr

inductive BusFault where
  /-- released, destroyed or torn down without being held -/
  | notHeld
  /-- used without being held -/
  | dereferenced
deriving DecidableEq, Repr

/-- The side of the bus. -/
structure Bus where
  resources : SysRes → List Resource
  tags : List Handle
  /-- the cookies of the handlers, with the resource each is for -/
  handlers : List (Handle × Handle)
  intrhook : Bool
  command : UInt16
  nextHandle : Handle
  faults : List BusFault

/-- The fields of `struct kfio_freebsd_pci_dev` that are used here. -/
structure KfioFreebsdPciDev where
  prv : UInt64
  barRid : Int32
  barResource : Option Handle
  parentDmaTag : Option Handle
  intrRid : Int32
  intrResource : Option Handle
  intrCookie : Option Handle
deriving DecidableEq, Repr

structure PciState where
  pd : KfioFreebsdPciDev
  bus : Bus

/-! ## The bus -/

def Bus.fault (bus : Bus) (f : BusFault) : Bus :=
  { bus with faults := bus.faults ++ [f] }

/-- `bus_alloc_resource_any`, which succeeds or not. -/
def busAllocResourceAny (bus : Bus) (type : SysRes) (rid : Int32) (success : Bool) :
    Option Handle × Bus :=
  if success then
    (some bus.nextHandle,
      { bus with
        resources := Function.update bus.resources type
          (⟨bus.nextHandle, rid⟩ :: bus.resources type)
        nextHandle := bus.nextHandle + 1 })
  else (none, bus)

def busReleaseResource (bus : Bus) (type : SysRes) (rid : Int32) (r : Option Handle) : Bus :=
  match r with
  | none => bus.fault .notHeld
  | some r =>
      if ⟨r, rid⟩ ∈ bus.resources type then
        { bus with
          resources := Function.update bus.resources type
            ((bus.resources type).erase ⟨r, rid⟩) }
      else bus.fault .notHeld

/-- `bus_dma_tag_create`, which returns a null tag on failure. -/
def busDmaTagCreate (bus : Bus) (rc : Int32) : Option Handle × Bus :=
  if rc = 0 then
    (some bus.nextHandle,
      { bus with tags := bus.nextHandle :: bus.tags, nextHandle := bus.nextHandle + 1 })
  else (none, bus)

def busDmaTagDestroy (bus : Bus) (tag : Option Handle) : Bus :=
  match tag with
  | none => bus.fault .notHeld
  | some tag =>
      if tag ∈ bus.tags then { bus with tags := bus.tags.erase tag } else bus.fault .notHeld

/-- A look at an interrupt resource. -/
def Bus.useIrq (bus : Bus) (r : Option Handle) : Bus :=
  match r with
  | none => bus.fault .dereferenced
  | some r =>
      if r ∈ (bus.resources .irq).map Resource.handle then bus else bus.fault .dereferenced

/-- `bus_setup_intr`, which stores the cookie on success only. -/
def busSetupIntr (bus : Bus) (r : Option Handle) (rc : Int32) (cookie : Option Handle) :
    Option Handle × Bus :=
  let bus := bus.useIrq r
  if rc = 0 then
    (some bus.nextHandle,
      { bus with
        handlers := (r.toList.map fun r ↦ (bus.nextHandle, r)) ++ bus.handlers
        nextHandle := bus.nextHandle + 1 })
  else (cookie, bus)

def busTeardownIntr (bus : Bus) (r : Option Handle) (cookie : Handle) : Bus :=
  let bus := bus.useIrq r
  match r with
  | none => bus.fault .notHeld
  | some r =>
      if (cookie, r) ∈ bus.handlers then
        { bus with handlers := bus.handlers.erase (cookie, r) }
      else bus.fault .notHeld

/-! ## The functions -/

/-- How the steps of `iodrive_pci_probe` come out. -/
structure ProbeEnv where
  ignored : Bool
  busmaster : Int32
  bar5 : Bool
  bar0 : Bool
  dmaTag : Int32
  intrhook : Bool
deriving DecidableEq, Repr

/-- Interrupts by pin are enabled. -/
def Bus.enableIntx (bus : Bus) : Bus :=
  if bus.command &&& pcimCmdIntxDisable ≠ 0 then
    { bus with command := bus.command &&& ~~~pcimCmdIntxDisable }
  else bus

def allocBar (s : PciState) (rid : Int32) (success : Bool) : PciState :=
  let (r, bus) := busAllocResourceAny s.bus .memory rid success
  ⟨{ s.pd with barRid := rid, barResource := r }, bus⟩

def releaseBar (s : PciState) : PciState :=
  ⟨{ s.pd with barResource := none },
    busReleaseResource s.bus .memory s.pd.barRid s.pd.barResource⟩

def destroyTag (s : PciState) : PciState :=
  ⟨{ s.pd with parentDmaTag := none }, busDmaTagDestroy s.bus s.pd.parentDmaTag⟩

/-- The part of `iodrive_pci_probe` that follows the allocation of the BAR. -/
def probeTag (s : PciState) (env : ProbeEnv) : Int32 × PciState :=
  let (tag, bus) := busDmaTagCreate s.bus env.dmaTag
  let s : PciState := ⟨{ s.pd with parentDmaTag := tag }, bus⟩
  if env.dmaTag ≠ 0 then (-env.dmaTag, releaseBar s)
  else if env.intrhook then (0, { s with bus := { s.bus with intrhook := true } })
  else (- ENXIO, releaseBar (destroyTag s))

def iodrivePciProbe (s : PciState) (env : ProbeEnv) : Int32 × PciState :=
  if env.ignored then (-EINVAL, s)
  else if env.busmaster ≠ 0 then (-env.busmaster, s)
  else
    let s : PciState := { s with bus := s.bus.enableIntx }
    let s := allocBar s (pcirBar 5) env.bar5
    if s.pd.barResource = none then
      -- can not map BAR5, so map BAR0
      let s := allocBar s (pcirBar 0) env.bar0
      if s.pd.barResource = none then (-ENOMEM, s) else probeTag s env
    else probeTag s env

def kfioFreeIrq (s : PciState) : PciState :=
  match s.pd.intrCookie with
  | none => s
  | some cookie =>
      let bus := busTeardownIntr s.bus s.pd.intrResource cookie
      let bus := busReleaseResource bus .irq s.pd.intrRid s.pd.intrResource
      ⟨{ s.pd with intrCookie := none, intrResource := none }, bus⟩

/-- `kfio_request_irq`, with what `bus_alloc_resource_any` and `bus_setup_intr` answer. -/
def kfioRequestIrq (s : PciState) (msiEnabled : Bool) (alloc : Bool) (setup : Int32) :
    Int32 × PciState :=
  let intrRid : Int32 := if msiEnabled then 1 else 0
  let (r, bus) := busAllocResourceAny s.bus .irq intrRid alloc
  let s : PciState := ⟨{ s.pd with intrRid := intrRid, intrResource := r }, bus⟩
  if r = none then (-1, s)
  else
    let (cookie, bus) := busSetupIntr s.bus s.pd.intrResource setup s.pd.intrCookie
    let s : PciState := ⟨{ s.pd with intrCookie := cookie }, bus⟩
    if setup ≠ 0 then
      -- the resource goes, and the pointer to it stays
      (-1, { s with bus := busReleaseResource s.bus .irq s.pd.intrRid s.pd.intrResource })
    else (0, s)

/-- `kfio_get_irq_number`; the number is the one the resource was allocated with. -/
def kfioGetIrqNumber (s : PciState) : Option UInt32 × PciState :=
  let number := s.pd.intrResource.bind fun r ↦
    ((s.bus.resources .irq).find? (·.handle = r)).map (·.rid.toUInt32)
  (number, { s with bus := s.bus.useIrq s.pd.intrResource })

/-- `iodrive_pci_detach` of the library: it clears the pointer, and may free the interrupt. -/
def iodrivePciDetach (s : PciState) (freesIrq : Bool) : PciState :=
  let s := if freesIrq then kfioFreeIrq s else s
  { s with pd := { s.pd with prv := 0 } }

def iodrivePciRemove (s : PciState) (freesIrq : Bool) : PciState :=
  let s := if s.pd.prv ≠ 0 then iodrivePciDetach s freesIrq else s
  let s := if s.pd.barResource ≠ none then releaseBar s else s
  if s.pd.parentDmaTag ≠ none then destroyTag s else s

inductive PciEvent where
  | probe (env : ProbeEnv)
  /-- the hook runs `iodrive_pci_startup` -/
  | startup
  /-- `kfio_pci_set_drvdata` -/
  | setDrvdata (data : UInt64)
  | requestIrq (msiEnabled : Bool) (alloc : Bool) (setup : Int32)
  | freeIrq
  | getIrqNumber
  | remove (freesIrq : Bool)
deriving DecidableEq, Repr

/-- One call.  An interrupt is requested when none is held, and its number is asked for when the
softc says that there is one. -/
def pciStep (s : PciState) : PciEvent → Option PciState
  | .probe env => some (iodrivePciProbe s env).2
  | .startup =>
      if s.bus.intrhook then some { s with bus := { s.bus with intrhook := false } } else none
  | .setDrvdata data => some { s with pd := { s.pd with prv := data } }
  | .requestIrq msiEnabled alloc setup =>
      if s.bus.resources .irq = [] then some (kfioRequestIrq s msiEnabled alloc setup).2 else none
  | .freeIrq => some (kfioFreeIrq s)
  | .getIrqNumber => if s.pd.intrResource ≠ none then some (kfioGetIrqNumber s).2 else none
  | .remove freesIrq => some (iodrivePciRemove s freesIrq)

/-- The softc of a device that has not been probed. -/
def newSoftc (command : UInt16) : PciState where
  pd := ⟨0, 0, none, none, 0, none, none⟩
  bus := ⟨fun _ ↦ [], [], [], false, command, 0, []⟩

/-! ## What is held -/

/-- The pointers of the softc say exactly what is held, and the bus has nothing to complain of. -/
structure SoftcExact (s : PciState) : Prop where
  bar : (s.bus.resources .memory).map Resource.handle = s.pd.barResource.toList
  tag : s.bus.tags = s.pd.parentDmaTag.toList
  irq : (s.bus.resources .irq).map Resource.handle = s.pd.intrResource.toList
  handler : s.bus.handlers.map Prod.fst = s.pd.intrCookie.toList
  clean : s.bus.faults = []

/-- The account of the bus as the driver's own fields give it, resource identifiers included. -/
structure Accounted (s : PciState) : Prop where
  bar : s.bus.resources .memory = s.pd.barResource.toList.map (⟨·, s.pd.barRid⟩)
  tag : s.bus.tags = s.pd.parentDmaTag.toList
  irq : s.bus.resources .irq = s.pd.intrResource.toList.map (⟨·, s.pd.intrRid⟩)
  handler : s.bus.handlers = s.pd.intrCookie.toList.zip s.pd.intrResource.toList
  installed : s.pd.intrCookie.isSome = s.pd.intrResource.isSome
  clean : s.bus.faults = []

/-- Between calls, the DMA tag is there when the BAR is. -/
structure Settled (s : PciState) : Prop extends Accounted s where
  tagged : s.pd.parentDmaTag.isSome = s.pd.barResource.isSome

theorem Accounted.exact {s : PciState} (h : Accounted s) : SoftcExact s where
  bar := by rw [h.bar, List.map_map]; exact List.map_id _
  tag := h.tag
  irq := by rw [h.irq, List.map_map]; exact List.map_id _
  handler := by
    rw [h.handler]
    have hinst := h.installed
    cases hc : s.pd.intrCookie <;> cases hr : s.pd.intrResource <;> simp_all
  clean := h.clean

theorem Settled.untagged {s : PciState} (h : Settled s) (hbar : s.pd.barResource = none) :
    s.pd.parentDmaTag = none := by
  have htagged := h.tagged
  rw [hbar] at htagged
  exact Option.not_isSome_iff_eq_none.mp (by simp [htagged])

theorem newSoftc_settled (command : UInt16) : Settled (newSoftc command) where
  bar := rfl
  tag := rfl
  irq := rfl
  handler := rfl
  installed := rfl
  clean := rfl
  tagged := rfl

/-! ## The BAR and the DMA tag -/

theorem allocBar_accounted {s : PciState} (h : Accounted s) (hnone : s.pd.barResource = none)
    (rid : Int32) (success : Bool) : Accounted (allocBar s rid success) := by
  have hbar : s.bus.resources .memory = [] := by rw [h.bar, hnone]; rfl
  unfold allocBar busAllocResourceAny
  cases success with
  | true =>
      exact { h with bar := by simp [hbar], irq := by simp [h.irq] }
  | false =>
      exact { h with bar := hbar }

theorem releaseBar_accounted {s : PciState} (h : Accounted s) (hheld : s.pd.barResource ≠ none) :
    Accounted (releaseBar s) := by
  obtain ⟨r, hr⟩ := Option.ne_none_iff_exists'.mp hheld
  have hbar : s.bus.resources .memory = [⟨r, s.pd.barRid⟩] := by rw [h.bar, hr]; rfl
  unfold releaseBar busReleaseResource
  rw [hr]
  dsimp only
  rw [if_pos (by rw [hbar]; exact List.mem_singleton.mpr rfl)]
  exact { h with bar := by simp [hbar], irq := by simp [h.irq] }

theorem destroyTag_accounted {s : PciState} (h : Accounted s) (hheld : s.pd.parentDmaTag ≠ none) :
    Accounted (destroyTag s) := by
  obtain ⟨tag, htag⟩ := Option.ne_none_iff_exists'.mp hheld
  have htags : s.bus.tags = [tag] := by rw [h.tag, htag]; rfl
  unfold destroyTag busDmaTagDestroy
  rw [htag]
  dsimp only
  rw [if_pos (by rw [htags]; exact List.mem_singleton.mpr rfl)]
  exact { h with tag := by simp [htags] }

theorem probeTag_settled {s : PciState} (h : Accounted s) (hbar : s.pd.barResource ≠ none)
    (htag : s.pd.parentDmaTag = none) (env : ProbeEnv) : Settled (probeTag s env).2 := by
  have htags : s.bus.tags = [] := by rw [h.tag, htag]; rfl
  unfold probeTag busDmaTagCreate
  by_cases hrc : env.dmaTag = 0
  · have hmade : Accounted
        ⟨{ s.pd with parentDmaTag := some s.bus.nextHandle },
          { s.bus with
            tags := s.bus.nextHandle :: s.bus.tags
            nextHandle := s.bus.nextHandle + 1 }⟩ :=
      { h with tag := by rw [htags]; rfl }
    rw [if_pos hrc]
    dsimp only
    rw [if_neg (not_not.mpr hrc)]
    cases env.intrhook with
    | true =>
        exact { hmade with tagged := (Option.isSome_iff_ne_none.mpr hbar).symm }
    -- without the hook, the tag and the BAR go again
    | false =>
        have hdestroyed := destroyTag_accounted hmade (Option.some_ne_none _)
        exact { releaseBar_accounted hdestroyed hbar with tagged := rfl }
  · rw [if_neg hrc]
    dsimp only
    rw [if_pos hrc]
    have hnull : Accounted ⟨{ s.pd with parentDmaTag := none }, s.bus⟩ :=
      { h with tag := htags }
    exact { releaseBar_accounted hnull hbar with tagged := rfl }

theorem enableIntx_accounted {s : PciState} (h : Accounted s) :
    Accounted { s with bus := s.bus.enableIntx } := by
  unfold Bus.enableIntx
  split_ifs
  · exact { h with }
  · exact h

/-- A probe of a device that holds neither. -/
theorem iodrivePciProbe_settled {s : PciState} (h : Settled s) (hbar : s.pd.barResource = none)
    (env : ProbeEnv) : Settled (iodrivePciProbe s env).2 := by
  have htag := h.untagged hbar
  have hintx := enableIntx_accounted h.toAccounted
  have hbar5 := allocBar_accounted hintx hbar (pcirBar 5) env.bar5
  unfold iodrivePciProbe
  dsimp only
  -- ignored; no bus master; neither BAR; BAR 0; BAR 5
  split_ifs with hign hmaster hnone5 hnone0
  · exact h
  · exact h
  · have hbar0 := allocBar_accounted hbar5 hnone5 (pcirBar 0) env.bar0
    exact { hbar0 with tagged := by rw [hnone0]; exact congrArg Option.isSome htag }
  · have hbar0 := allocBar_accounted hbar5 hnone5 (pcirBar 0) env.bar0
    exact probeTag_settled hbar0 hnone0 htag env
  · exact probeTag_settled hbar5 hnone5 htag env

/-! ## The interrupt -/

theorem kfioFreeIrq_settled {s : PciState} (h : Settled s) : Settled (kfioFreeIrq s) := by
  unfold kfioFreeIrq
  cases hcookie : s.pd.intrCookie with
  | none => exact h
  | some cookie =>
      have hinst := h.installed
      rw [hcookie] at hinst
      obtain ⟨r, hr⟩ := Option.isSome_iff_exists.mp hinst.symm
      have hirq : s.bus.resources .irq = [⟨r, s.pd.intrRid⟩] := by rw [h.irq, hr]; rfl
      have hhandler : s.bus.handlers = [(cookie, r)] := by rw [h.handler, hr, hcookie]; rfl
      have huse : s.bus.useIrq (some r) = s.bus := by simp [Bus.useIrq, hirq]
      dsimp only
      rw [hr]
      simp only [busTeardownIntr, busReleaseResource, huse, hhandler, hirq, List.mem_singleton,
        if_true]
      exact
        { h with
          bar := by simp [h.bar]
          irq := by simp
          handler := by simp
          installed := rfl }

theorem kfioRequestIrq_refused (s : PciState) (msiEnabled : Bool) (setup : Int32) :
    (kfioRequestIrq s msiEnabled false setup).2 =
      ⟨{ s.pd with intrRid := if msiEnabled then 1 else 0, intrResource := none }, s.bus⟩ := by
  simp [kfioRequestIrq, busAllocResourceAny]

/-- The resource is held long enough for the handler to be set up; when that fails it is given back,
and the softc still points at it. -/
theorem kfioRequestIrq_granted (s : PciState) (msiEnabled : Bool) (setup : Int32) :
    (kfioRequestIrq s msiEnabled true setup).2 =
      let pd := { s.pd with
        intrRid := if msiEnabled then 1 else 0
        intrResource := some s.bus.nextHandle }
      if setup = 0 then
        ⟨{ pd with intrCookie := some (s.bus.nextHandle + 1) },
          { s.bus with
            resources := Function.update s.bus.resources .irq
              (⟨s.bus.nextHandle, pd.intrRid⟩ :: s.bus.resources .irq)
            handlers := (s.bus.nextHandle + 1, s.bus.nextHandle) :: s.bus.handlers
            nextHandle := s.bus.nextHandle + 2 }⟩
      else ⟨pd, { s.bus with nextHandle := s.bus.nextHandle + 1 }⟩ := by
  by_cases hsetup : setup = 0
  · simp [kfioRequestIrq, busAllocResourceAny, busSetupIntr, Bus.useIrq, hsetup]
  · simp [kfioRequestIrq, busAllocResourceAny, busSetupIntr, busReleaseResource, Bus.useIrq, hsetup]

theorem kfioRequestIrq_settled {s : PciState} (h : Settled s) (hfree : s.bus.resources .irq = [])
    (msiEnabled alloc : Bool) {setup : Int32} (hgood : ¬ (alloc = true ∧ setup ≠ 0)) :
    Settled (kfioRequestIrq s msiEnabled alloc setup).2 := by
  have hres : s.pd.intrResource = none := by
    have hirq := h.irq
    rw [hfree] at hirq
    cases hr : s.pd.intrResource with
    | none => rfl
    | some r => rw [hr] at hirq; cases hirq
  have hcookie : s.pd.intrCookie = none := by
    have hinst := h.installed
    rw [hres] at hinst
    exact Option.not_isSome_iff_eq_none.mp (by simp [hinst])
  have hhandlers : s.bus.handlers = [] := by rw [h.handler, hcookie]; rfl
  cases alloc with
  | false =>
      rw [kfioRequestIrq_refused]
      exact
        { h with
          irq := hfree
          handler := by simp [hhandlers, hcookie]
          installed := by simp [hcookie] }
  | true =>
      have hsetup : setup = 0 := by
        by_contra hne
        exact hgood ⟨rfl, hne⟩
      rw [kfioRequestIrq_granted, if_pos hsetup]
      exact
        { h with
          bar := by simp [h.bar]
          irq := by simp [hfree]
          handler := by simp [hhandlers]
          installed := rfl }

theorem kfioGetIrqNumber_settled {s : PciState} (h : Settled s)
    (hheld : s.pd.intrResource ≠ none) : (kfioGetIrqNumber s).2 = s := by
  obtain ⟨r, hr⟩ := Option.ne_none_iff_exists'.mp hheld
  have hirq : s.bus.resources .irq = [⟨r, s.pd.intrRid⟩] := by rw [h.irq, hr]; rfl
  simp [kfioGetIrqNumber, Bus.useIrq, hr, hirq]

/-! ## Removal -/

theorem iodrivePciDetach_settled {s : PciState} (h : Settled s) (freesIrq : Bool) :
    Settled (iodrivePciDetach s freesIrq) := by
  unfold iodrivePciDetach
  cases freesIrq with
  | true => exact { kfioFreeIrq_settled h with }
  | false => exact { h with }

/-- What is released of the BAR and the tag is what is held of them, so nothing is left. -/
theorem iodrivePciRemove_settled {s : PciState} (h : Settled s) (freesIrq : Bool) :
    Settled (iodrivePciRemove s freesIrq) := by
  have hdetached : Settled (if s.pd.prv ≠ 0 then iodrivePciDetach s freesIrq else s) := by
    split_ifs
    · exact iodrivePciDetach_settled h freesIrq
    · exact h
  unfold iodrivePciRemove
  generalize (if s.pd.prv ≠ 0 then iodrivePciDetach s freesIrq else s) = t at hdetached ⊢
  dsimp only
  by_cases hbar : t.pd.barResource = none
  · have htag := hdetached.untagged hbar
    simp only [hbar, htag, ne_eq, not_true_eq_false, if_false]
    exact hdetached
  -- the BAR is held, so the tag is too
  · have htag : t.pd.parentDmaTag ≠ none := by
      have htagged := hdetached.tagged
      rw [Option.isSome_iff_ne_none.mpr hbar] at htagged
      exact Option.isSome_iff_ne_none.mp htagged
    have hreleased := releaseBar_accounted hdetached.toAccounted hbar
    rw [if_pos hbar, if_pos (show (releaseBar t).pd.parentDmaTag ≠ none from htag)]
    exact { destroyTag_accounted hreleased htag with tagged := rfl }

theorem iodrivePciRemove_cleared (s : PciState) (freesIrq : Bool) :
    (iodrivePciRemove s freesIrq).pd.prv = 0 ∧
      (iodrivePciRemove s freesIrq).pd.barResource = none ∧
      (iodrivePciRemove s freesIrq).pd.parentDmaTag = none := by
  have hprv : (if s.pd.prv ≠ 0 then iodrivePciDetach s freesIrq else s).pd.prv = 0 := by
    split_ifs with h
    · rfl
    · exact not_not.mp h
  unfold iodrivePciRemove
  generalize (if s.pd.prv ≠ 0 then iodrivePciDetach s freesIrq else s) = t at hprv ⊢
  dsimp only
  have hbar : (if t.pd.barResource ≠ none then releaseBar t else t).pd.barResource = none := by
    split_ifs with h
    · rfl
    · exact not_not.mp h
  have hkept : (if t.pd.barResource ≠ none then releaseBar t else t).pd.prv = 0 := by
    split_ifs
    · exact hprv
    · exact hprv
  generalize (if t.pd.barResource ≠ none then releaseBar t else t) = u at hbar hkept ⊢
  split_ifs with htag
  · exact ⟨hkept, hbar, rfl⟩
  · exact ⟨hkept, hbar, not_not.mp htag⟩

/-- A device that has been removed has nothing left for another removal to do. -/
theorem iodrivePciRemove_idempotent (s : PciState) (freesIrq again : Bool) :
    iodrivePciRemove (iodrivePciRemove s freesIrq) again = iodrivePciRemove s freesIrq := by
  obtain ⟨hprv, hbar, htag⟩ := iodrivePciRemove_cleared s freesIrq
  generalize iodrivePciRemove s freesIrq = t at hprv hbar htag ⊢
  simp [iodrivePciRemove, hprv, hbar, htag]

/-! ## Losing track -/

/-- The calls after which the softc no longer says what is held: an interrupt is granted and its
handler can not be set up, or a device that has its BAR mapped is probed again. -/
def LosesTrack (s : PciState) : PciEvent → Prop
  | .requestIrq _ alloc setup => s.bus.resources .irq = [] ∧ alloc = true ∧ setup ≠ 0
  | .probe env => env.ignored = false ∧ env.busmaster = 0 ∧ s.pd.barResource ≠ none
  | _ => False

theorem pciStep_settled (s : PciState) (e : PciEvent) (s' : PciState) (h : Settled s)
    (hgood : ¬ LosesTrack s e) (hstep : pciStep s e = some s') : Settled s' := by
  cases e with
  | probe env =>
      cases hstep
      by_cases hbar : s.pd.barResource = none
      · exact iodrivePciProbe_settled h hbar env
      · -- the probe ends before it reaches the BAR
        unfold iodrivePciProbe
        by_cases hign : env.ignored = true
        · rw [if_pos hign]
          exact h
        · have hmaster : env.busmaster ≠ 0 := fun hzero ↦
            hgood ⟨(Bool.not_eq_true _).mp hign, hzero, hbar⟩
          rw [if_neg hign, if_pos hmaster]
          exact h
  | startup =>
      simp only [pciStep, Option.ite_none_right_eq_some, Option.some.injEq] at hstep
      obtain ⟨-, rfl⟩ := hstep
      exact { h with }
  | setDrvdata data =>
      cases hstep
      exact { h with }
  | requestIrq msiEnabled alloc setup =>
      simp only [pciStep, Option.ite_none_right_eq_some, Option.some.injEq] at hstep
      obtain ⟨hfree, rfl⟩ := hstep
      exact kfioRequestIrq_settled h hfree msiEnabled alloc fun hbad ↦ hgood ⟨hfree, hbad⟩
  | freeIrq =>
      cases hstep
      exact kfioFreeIrq_settled h
  | getIrqNumber =>
      simp only [pciStep, Option.ite_none_right_eq_some, Option.some.injEq] at hstep
      obtain ⟨hheld, rfl⟩ := hstep
      rw [kfioGetIrqNumber_settled h hheld]
      exact h
  | remove freesIrq =>
      cases hstep
      exact iodrivePciRemove_settled h freesIrq

/-- More of the BAR is allocated than the softc points at. -/
def Surplus (s : PciState) : Prop :=
  s.pd.barResource.toList.length < (s.bus.resources .memory).length

theorem Surplus.not_exact {s : PciState} (h : Surplus s) : ¬ SoftcExact s := by
  intro hexact
  have hlen := congrArg List.length hexact.bar
  rw [List.length_map] at hlen
  unfold Surplus at h
  omega

theorem allocBar_surplus {s : PciState} (h : 0 < (s.bus.resources .memory).length) (rid : Int32)
    (success : Bool) : Surplus (allocBar s rid success) := by
  unfold Surplus allocBar busAllocResourceAny
  cases success <;> simpa using h

theorem releaseBar_surplus {s : PciState} (h : Surplus s) (hheld : s.pd.barResource ≠ none) :
    Surplus (releaseBar s) := by
  obtain ⟨r, hr⟩ := Option.ne_none_iff_exists'.mp hheld
  have herase := List.le_length_erase (a := (⟨r, s.pd.barRid⟩ : Resource))
    (l := s.bus.resources .memory)
  unfold Surplus at h ⊢
  unfold releaseBar busReleaseResource
  rw [hr] at h ⊢
  rw [Option.toList_some, List.length_singleton] at h
  dsimp only
  -- one resource and the one pointer go, or the release is refused and the pointer goes alone
  split_ifs
  · simp only [Option.toList_none, List.length_nil, Function.update_self]
    omega
  · simp only [Option.toList_none, List.length_nil, Bus.fault]
    omega

theorem destroyTag_resources (s : PciState) :
    (destroyTag s).bus.resources = s.bus.resources := by
  unfold destroyTag busDmaTagDestroy
  cases s.pd.parentDmaTag with
  | none => rfl
  | some tag => dsimp only; split_ifs <;> rfl

theorem probeTag_surplus {s : PciState} (h : Surplus s) (hheld : s.pd.barResource ≠ none)
    (env : ProbeEnv) : Surplus (probeTag s env).2 := by
  unfold probeTag busDmaTagCreate
  by_cases hrc : env.dmaTag = 0
  · rw [if_pos hrc]
    dsimp only
    rw [if_neg (not_not.mpr hrc)]
    split_ifs
    · exact h
    · refine releaseBar_surplus ?_ hheld
      unfold Surplus
      rw [destroyTag_resources]
      exact h
  · rw [if_neg hrc]
    dsimp only
    rw [if_pos hrc]
    exact releaseBar_surplus h hheld

/-- A second probe writes over the pointer to the BAR that the first one mapped. -/
theorem iodrivePciProbe_surplus {s : PciState} (h : Settled s) (hbar : s.pd.barResource ≠ none)
    {env : ProbeEnv} (hign : env.ignored = false) (hmaster : env.busmaster = 0) :
    Surplus (iodrivePciProbe s env).2 := by
  obtain ⟨r, hr⟩ := Option.ne_none_iff_exists'.mp hbar
  have hheld : 0 < (s.bus.enableIntx.resources .memory).length := by
    have hintx := (enableIntx_accounted h.toAccounted).bar
    dsimp only at hintx
    rw [hintx, hr]
    exact Nat.one_pos
  have hbar5 := allocBar_surplus (s := { s with bus := s.bus.enableIntx }) hheld (pcirBar 5)
    env.bar5
  have hbar0 := allocBar_surplus (Nat.zero_lt_of_lt hbar5) (pcirBar 0) env.bar0
  unfold iodrivePciProbe
  simp only [hign, hmaster, Bool.false_eq_true, ne_eq, not_true_eq_false, if_false]
  split_ifs with hnone5 hnone0
  · exact hbar0
  · exact probeTag_surplus hbar0 hnone0 env
  · exact probeTag_surplus hbar5 hnone5 env

theorem losesTrack_inexact (s : PciState) (e : PciEvent) (h : Settled s) (hbad : LosesTrack s e) :
    ∃ t, pciStep s e = some t ∧ ¬ SoftcExact t := by
  cases e with
  | probe env =>
      obtain ⟨hign, hmaster, hbar⟩ := hbad
      exact ⟨_, rfl, (iodrivePciProbe_surplus h hbar hign hmaster).not_exact⟩
  | requestIrq msiEnabled alloc setup =>
      obtain ⟨hfree, rfl, hsetup⟩ := hbad
      refine ⟨_, if_pos hfree, ?_⟩
      rw [kfioRequestIrq_granted, if_neg hsetup]
      intro hexact
      have hirq := hexact.irq
      rw [show s.bus.resources .irq = [] from hfree] at hirq
      cases hirq
  | startup => exact hbad.elim
  | setDrvdata data => exact hbad.elim
  | freeIrq => exact hbad.elim
  | getIrqNumber => exact hbad.elim
  | remove freesIrq => exact hbad.elim

/-- In every run of calls the pointers of the softc say exactly what is held after each of them, and
nothing is released twice or used after its release, if and only if no handler fails to be set up
for an interrupt that was granted and no device is probed while it has its BAR.  Removal is
idempotent. -/
theorem softc_exact (command : UInt16) (es : List PciEvent) :
    (Throughout pciStep SoftcExact (newSoftc command) es ↔
        Along pciStep (fun s e ↦ ¬ LosesTrack s e) (newSoftc command) es) ∧
      ∀ s freesIrq again,
        iodrivePciRemove (iodrivePciRemove s freesIrq) again = iodrivePciRemove s freesIrq :=
  ⟨throughout_iff_along (fun _ h ↦ h.toAccounted.exact) pciStep_settled losesTrack_inexact es
    (newSoftc_settled command), iodrivePciRemove_idempotent⟩

/-! An interrupt whose handler is refused: the resource goes back and the pointer stays, and a look
at the interrupt number follows it. -/

theorem softc_dangles :
    (run pciStep (newSoftc 0) [.requestIrq true true 5]).map
        (fun s ↦ (s.pd.intrResource, s.bus.resources .irq)) = some (some 0, []) ∧
      (run pciStep (newSoftc 0) [.requestIrq true true 5, .getIrqNumber]).map (·.bus.faults) =
        some [.dereferenced] ∧
      ¬ Throughout pciStep SoftcExact (newSoftc 0) [.requestIrq true true 5, .getIrqNumber] := by
  have hfaults : (run pciStep (newSoftc 0) [.requestIrq true true 5, .getIrqNumber]).map
      (·.bus.faults) = some [.dereferenced] := by decide
  refine ⟨by decide, hfaults, not_throughout_of_last hfaults ?_⟩
  intro t ht hexact
  have hclean := hexact.clean
  rw [ht] at hclean
  cases hclean

end IomemoryVsl.Pci
