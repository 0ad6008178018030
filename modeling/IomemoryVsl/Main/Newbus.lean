import IomemoryVsl.Main.ModEvent
import IomemoryVsl.Pci.Mapping

/-!
# The driver under newbus (`main.c`, `pci.c`, `cdev.c`)

The kernel loads the module, offers it the devices of the bus one by one, and detaches and shuts
down those that it has attached.  In between, and while it is told to let go of a device, the
library calls the port: an interrupt and its number, a vector for it, the node of the control
device.
-/

namespace IomemoryVsl.Main

open Kblock Pci Transition

/-! ## The device -/

/-- `pci_get_vendor`, `pci_get_device` and `resource_disabled` on a device. -/
structure PciIdent where
  vendor : UInt16
  device : UInt16
  disabled : Int32
deriving DecidableEq, Repr

/-- A device of the bus.  The softc is the part of `pci` that the driver keeps, with `pFioDevice`
and `cdev`; `nodes` are the device nodes made for it, `msi` counts the vectors that it has, and
`staleDestroys` the calls of `destroy_dev` for a node that is not there. -/
structure FctDevice where
  ident : PciIdent
  attached : Bool
  pci : PciState
  pFioDevice : Option UInt64
  cdev : Option Handle
  nodes : List Handle
  nextNode : Handle
  msi : ℕ
  staleDestroys : ℕ

def pciVendorIdFusion : UInt16 := 0x1AED

def iodrive3OldPciDevice : UInt16 := 0x1003
def iodrive3BootPciDevice : UInt16 := 0x1004
def iodrive3PciDevice : UInt16 := 0x1005
def ioxtremePciDevice : UInt16 := 0x1006
def ioxtremeproPciDevice : UInt16 := 0x1007
def ioxtreme2PciDevice : UInt16 := 0x1008
def iodrive4PciDevice : UInt16 := 0x2001

/-! ## What the library calls -/

/-- What `pci_msi_count` and `pci_alloc_msi` answer. -/
structure MsiEnv where
  count : Int32
  rc : Int32
  granted : ℕ
deriving DecidableEq, Repr

/-- `pci_release_msi`, which does nothing while an interrupt is held through a vector. -/
def pciReleaseMsi (d : FctDevice) : FctDevice :=
  if (d.pci.bus.resources .irq).any (·.rid ≠ 0) then d else { d with msi := 0 }

def kfioPciEnableMsi (d : FctDevice) (env : MsiEnv) : Int32 × FctDevice :=
  if 1 ≠ env.count then (- ENXIO, d)
  else if 0 ≠ env.rc then (- ENXIO, d)
  else
    let d := { d with msi := env.granted }
    if env.granted ≠ 1 then (- ENXIO, pciReleaseMsi d) else (0, d)

/-- `make_dev` succeeds or not, and the pointer follows it. -/
def fusionCreateControlDevice (d : FctDevice) (made : Bool) : Int32 × FctDevice :=
  if made then
    (0,
      { d with
        cdev := some d.nextNode
        nodes := d.nextNode :: d.nodes
        nextNode := d.nextNode + 1 })
  else (-1, { d with cdev := none })

def destroyDev (d : FctDevice) (node : Handle) : FctDevice :=
  if node ∈ d.nodes then { d with nodes := d.nodes.erase node }
  else { d with staleDestroys := d.staleDestroys + 1 }

def fusionDestroyControlDevice (d : FctDevice) : FctDevice :=
  match d.cdev with
  | none => d
  | some node => { destroyDev d node with cdev := none }

inductive PortCall where
  | setDrvdata (data : UInt64)
  | requestIrq (msiEnabled alloc : Bool) (setup : Int32)
  | freeIrq
  | getIrqNumber
  | enableMsi (env : MsiEnv)
  | disableMsi
  | createControlDevice (made : Bool)
  | destroyControlDevice
  /-- `kfio_block_create_device`, of which the softc keeps the owner of the disk -/
  | createBlockDevice (dev : UInt64)
  | destroyBlockDevice
deriving DecidableEq, Repr

/-- One call.  The library does not ask for an interrupt while it has one; the bus grants an
interrupt by message only to a device that has a vector, and vectors only to one that has none. -/
def portStep (d : FctDevice) : PortCall → Option FctDevice
  | .setDrvdata data => some { d with pci := { d.pci with pd := { d.pci.pd with prv := data } } }
  | .requestIrq msiEnabled alloc setup =>
      if d.pci.pd.intrCookie = none ∧ (msiEnabled ∧ alloc → d.msi ≠ 0) then
        some { d with pci := (kfioRequestIrq d.pci msiEnabled alloc setup).2 }
      else none
  | .freeIrq => some { d with pci := kfioFreeIrq d.pci }
  | .getIrqNumber => some { d with pci := (kfioGetIrqNumber d.pci).2 }
  | .enableMsi env =>
      if env.rc = 0 ∧ d.msi ≠ 0 then none else some (kfioPciEnableMsi d env).2
  | .disableMsi => some (pciReleaseMsi d)
  | .createControlDevice made => some (fusionCreateControlDevice d made).2
  | .destroyControlDevice => some (fusionDestroyControlDevice d)
  | .createBlockDevice dev => some { d with pFioDevice := some dev }
  | .destroyBlockDevice => some { d with pFioDevice := none }

/-! ## The methods of the driver -/

def freebsdProbe (fusionInitFailed : Int32) (i : PciIdent) : Int32 :=
  if i.vendor ≠ pciVendorIdFusion then ENXIO
  else if i.device ≠ iodrive3OldPciDevice ∧ i.device ≠ iodrive4PciDevice ∧
      i.device ≠ iodrive3PciDevice ∧ i.device ≠ iodrive3BootPciDevice ∧
      i.device ≠ ioxtremePciDevice ∧ i.device ≠ ioxtremeproPciDevice ∧
      i.device ≠ ioxtreme2PciDevice then ENXIO
  else if fusionInitFailed ≠ 0 then ENXIO
  -- disabled through hints
  else if i.disabled ≠ 0 then ENXIO
  else 0

/-- `freebsd_attach`, on the softc of zeros that newbus has allocated. -/
def freebsdAttach (d : FctDevice) (env : ProbeEnv) : Int32 × FctDevice :=
  let d := { d with
    pci := { d.pci with pd := ⟨0, 0, none, none, 0, none, none⟩ }
    pFioDevice := none
    cdev := none }
  let (rc, pci) := iodrivePciProbe d.pci env
  if rc ≠ 0 then Prod.mk ENXIO { d with pci := pci } else (0, { d with pci := pci })

/-- `iodrive_pci_remove`, where `iodrive_pci_detach` of the library calls the port. -/
def removeDevice (d : FctDevice) (pciDetach : List PortCall) : Option FctDevice :=
  (if d.pci.pd.prv ≠ 0 then run portStep d pciDetach else some d).map fun d ↦
    { d with pci := releaseMapping d.pci }

/-- `freebsd_detach`; `rc` is what `fio_detach` returns after its calls of the port. -/
def freebsdDetach (d : FctDevice) (rc : Int32) (fioDetach pciDetach : List PortCall) :
    Option (Int32 × FctDevice) :=
  match d.pFioDevice with
  | none => (removeDevice d pciDetach).map (0, ·)
  | some _ =>
      (run portStep d fioDetach).bind fun d ↦
        if rc ≠ 0 then some (Prod.mk ENXIO d)
        else (removeDevice { d with pFioDevice := none } pciDetach).map (0, ·)

def freebsdShutdown (d : FctDevice) (fioShutdown pciDetach : List PortCall) : Option FctDevice :=
  match d.pFioDevice with
  | none => removeDevice d pciDetach
  | some _ =>
      (run portStep d fioShutdown).bind fun d ↦ removeDevice { d with pFioDevice := none } pciDetach

inductive DeviceEvent where
  /-- the device is probed and, if the driver takes it, attached -/
  | attach (env : ProbeEnv)
  /-- the hook runs `iodrive_pci_startup` -/
  | startup
  | call (c : PortCall)
  | detach (rc : Int32) (fioDetach pciDetach : List PortCall)
  | shutdown (fioShutdown pciDetach : List PortCall)
deriving DecidableEq, Repr

def deviceStep (fusionInitFailed : Int32) (d : FctDevice) : DeviceEvent → Option FctDevice
  | .attach env =>
      if d.attached then none
      else if freebsdProbe fusionInitFailed d.ident ≠ 0 then some d
      else
        let (rc, d) := freebsdAttach d env
        some { d with attached := rc = 0 }
  | .startup =>
      if d.pci.bus.intrhook then
        some { d with pci := { d.pci with bus := { d.pci.bus with intrhook := false } } }
      else none
  | .call c => if d.attached then portStep d c else none
  | .detach rc fioDetach pciDetach =>
      if d.attached then
        (freebsdDetach d rc fioDetach pciDetach).map fun (rc, d) ↦ { d with attached := rc ≠ 0 }
      else none
  | .shutdown fioShutdown pciDetach =>
      if d.attached then freebsdShutdown d fioShutdown pciDetach else none

/-! ## The driver -/

/-- The module, whether it is on the list of drivers of its bus, and the devices of the bus. -/
structure Driver where
  mod : ModState
  registered : Bool
  devices : List FctDevice

inductive DriverEvent where
  | modevent (e : ModEvent)
  | device (k : ℕ) (e : DeviceEvent)
deriving DecidableEq, Repr

/-- One step.  A load puts the driver on the list even when it fails; the driver leaves the list,
before it is unloaded, when none of its devices is attached. -/
def driverStep (s : Driver) : DriverEvent → Option Driver
  | .modevent (.load env) =>
      if s.registered then none
      else (modStep s.mod (.load env)).map fun m ↦ { s with mod := m, registered := true }
  | .modevent .unload =>
      if s.registered = false ∨ s.devices.any (·.attached) then none
      else (modStep s.mod .unload).map fun m ↦ { s with mod := m, registered := false }
  | .modevent (.other event) => (modStep s.mod (.other event)).map fun m ↦ { s with mod := m }
  | .device k e =>
      if s.registered then
        s.devices[k]?.bind fun d ↦ (deviceStep s.mod.fusionInitFailed d e).map fun d ↦
          { s with devices := s.devices.set k d }
      else none

/-- A device as the bus has found it. -/
def foundDevice (ident : PciIdent) (command : UInt16) : FctDevice where
  ident := ident
  attached := false
  pci := newSoftc command
  pFioDevice := none
  cdev := none
  nodes := []
  nextNode := 0
  msi := 0
  staleDestroys := 0

/-- The driver before the first load, on a bus with these devices. -/
def unloadedDriver (iodriveLoadEbMap autoAttach : Int32) (found : List (PciIdent × UInt16)) :
    Driver where
  mod := unloadedModule iodriveLoadEbMap autoAttach
  registered := false
  devices := found.map fun (ident, command) ↦ foundDevice ident command

/-! ## What the softc holds, while the library calls the port -/

/-- The softc is backed by the bus and by the nodes, at most one vector is held, an interrupt by
message goes with it, and no node has been destroyed that was not there. -/
structure SoftcSound (d : FctDevice) : Prop where
  backed : Backed d.pci
  node : ∀ n, d.cdev = some n → n ∈ d.nodes
  msi : d.msi ≤ 1
  vector : ∀ r ∈ d.pci.bus.resources .irq, r.rid ≠ 0 → d.msi ≠ 0
  destroys : d.staleDestroys = 0

/-- What no call of the library changes. -/
structure PortFrame (d t : FctDevice) : Prop where
  ident : t.ident = d.ident
  attached : t.attached = d.attached
  bar : t.pci.pd.barResource = d.pci.pd.barResource
  intrhook : t.pci.bus.intrhook = d.pci.bus.intrhook

theorem PortFrame.trans {d t u : FctDevice} (h : PortFrame d t) (h' : PortFrame t u) :
    PortFrame d u where
  ident := h'.ident.trans h.ident
  attached := h'.attached.trans h.attached
  bar := h'.bar.trans h.bar
  intrhook := h'.intrhook.trans h.intrhook

variable {d t : FctDevice}

theorem pciReleaseMsi_frame (d : FctDevice) : PortFrame d (pciReleaseMsi d) := by
  unfold pciReleaseMsi
  split <;> exact ⟨rfl, rfl, rfl, rfl⟩

theorem pciReleaseMsi_sound (h : SoftcSound d) : SoftcSound (pciReleaseMsi d) := by
  unfold pciReleaseMsi
  split
  · exact h
  · rename_i hunused
    refine { h with msi := Nat.zero_le 1, vector := ?_ }
    intro r hr hrid
    exact absurd (List.any_eq_true.mpr ⟨r, hr, decide_eq_true hrid⟩) hunused

theorem pciReleaseMsi_pci (d : FctDevice) : (pciReleaseMsi d).pci = d.pci := by
  unfold pciReleaseMsi
  split <;> rfl

theorem kfioPciEnableMsi_pci (d : FctDevice) (env : MsiEnv) :
    (kfioPciEnableMsi d env).2.pci = d.pci := by
  unfold kfioPciEnableMsi
  dsimp only
  split_ifs
  · rfl
  · rfl
  · exact pciReleaseMsi_pci _
  · rfl

theorem kfioPciEnableMsi_frame (d : FctDevice) (env : MsiEnv) :
    PortFrame d (kfioPciEnableMsi d env).2 := by
  unfold kfioPciEnableMsi
  dsimp only
  split_ifs
  · exact ⟨rfl, rfl, rfl, rfl⟩
  · exact ⟨rfl, rfl, rfl, rfl⟩
  · have hgranted : PortFrame d { d with msi := env.granted } := ⟨rfl, rfl, rfl, rfl⟩
    exact hgranted.trans (pciReleaseMsi_frame _)
  · exact ⟨rfl, rfl, rfl, rfl⟩

/-- A device without vectors has no interrupt by message, so a number of vectors other than one goes
back. -/
theorem kfioPciEnableMsi_sound (h : SoftcSound d) {env : MsiEnv} (hfirst : env.rc = 0 → d.msi = 0) :
    SoftcSound (kfioPciEnableMsi d env).2 ∧
      ((kfioPciEnableMsi d env).1 = 0 → (kfioPciEnableMsi d env).2.msi = 1) := by
  have hne : - ENXIO ≠ 0 := by decide
  unfold kfioPciEnableMsi
  dsimp only
  split_ifs with hcount hrc hgranted
  · exact ⟨h, fun hzero ↦ absurd hzero hne⟩
  · exact ⟨h, fun hzero ↦ absurd hzero hne⟩
  · have hnone : d.msi = 0 := hfirst (not_not.mp hrc).symm
    have hunused : ¬ (d.pci.bus.resources .irq).any (·.rid ≠ 0) = true := by
      intro hany
      obtain ⟨r, hr, hrid⟩ := List.any_eq_true.mp hany
      exact h.vector r hr (of_decide_eq_true hrid) hnone
    refine ⟨?_, fun hzero ↦ absurd hzero hne⟩
    unfold pciReleaseMsi
    rw [if_neg hunused]
    refine { h with msi := Nat.zero_le 1, vector := ?_ }
    intro r hr hrid
    exact absurd (List.any_eq_true.mpr ⟨r, hr, decide_eq_true hrid⟩) hunused
  · have hone : env.granted = 1 := not_not.mp hgranted
    refine ⟨{ h with msi := hone.le, vector := ?_ }, fun _ ↦ hone⟩
    intro r _ _
    show env.granted ≠ 0
    omega

/-- The pointer to the node is dropped with the node. -/
theorem fusionDestroyControlDevice_sound (h : SoftcSound d) :
    SoftcSound (fusionDestroyControlDevice d) := by
  unfold fusionDestroyControlDevice
  cases hcdev : d.cdev with
  | none => exact h
  | some node =>
      dsimp only
      unfold destroyDev
      rw [if_pos (h.node node hcdev)]
      refine { h with node := ?_ }
      intro n hn
      cases hn

theorem fusionDestroyControlDevice_frame (d : FctDevice) :
    PortFrame d (fusionDestroyControlDevice d) := by
  unfold fusionDestroyControlDevice
  cases d.cdev with
  | none => exact ⟨rfl, rfl, rfl, rfl⟩
  | some node =>
      dsimp only
      unfold destroyDev
      split <;> exact ⟨rfl, rfl, rfl, rfl⟩

theorem fusionDestroyControlDevice_pci (d : FctDevice) :
    (fusionDestroyControlDevice d).pci = d.pci := by
  unfold fusionDestroyControlDevice
  cases d.cdev with
  | none => rfl
  | some node =>
      dsimp only
      unfold destroyDev
      split <;> rfl

theorem portStep_frame {c : PortCall} (hstep : portStep d c = some t) : PortFrame d t := by
  cases c with
  | requestIrq msiEnabled alloc setup =>
      simp only [portStep, Option.ite_none_right_eq_some, Option.some.injEq] at hstep
      obtain ⟨-, rfl⟩ := hstep
      obtain ⟨hbar, hhook, -⟩ := kfioRequestIrq_frame d.pci msiEnabled alloc setup
      exact ⟨rfl, rfl, hbar, hhook⟩
  | freeIrq =>
      cases hstep
      obtain ⟨hbar, hhook, -⟩ := kfioFreeIrq_frame d.pci
      exact ⟨rfl, rfl, hbar, hhook⟩
  | getIrqNumber =>
      cases hstep
      obtain ⟨faults, huse⟩ := useIrq_eq d.pci.bus d.pci.pd.intrResource
      exact ⟨rfl, rfl, rfl, by unfold kfioGetIrqNumber; rw [huse]⟩
  | enableMsi env =>
      simp only [portStep, Option.ite_none_left_eq_some, Option.some.injEq] at hstep
      obtain ⟨-, rfl⟩ := hstep
      exact kfioPciEnableMsi_frame d env
  | disableMsi =>
      cases hstep
      exact pciReleaseMsi_frame d
  | createControlDevice made =>
      cases hstep
      cases made <;> exact ⟨rfl, rfl, rfl, rfl⟩
  | destroyControlDevice =>
      cases hstep
      exact fusionDestroyControlDevice_frame d
  | setDrvdata data => cases hstep; exact ⟨rfl, rfl, rfl, rfl⟩
  | createBlockDevice dev => cases hstep; exact ⟨rfl, rfl, rfl, rfl⟩
  | destroyBlockDevice => cases hstep; exact ⟨rfl, rfl, rfl, rfl⟩

theorem portStep_sound (h : SoftcSound d) {c : PortCall} (hstep : portStep d c = some t) :
    SoftcSound t := by
  cases c with
  | requestIrq msiEnabled alloc setup =>
      simp only [portStep, Option.ite_none_right_eq_some, Option.some.injEq] at hstep
      obtain ⟨⟨hnone, hvector⟩, rfl⟩ := hstep
      obtain ⟨-, -, hirq⟩ := kfioRequestIrq_frame d.pci msiEnabled alloc setup
      refine { h with backed := (kfioRequestIrq_backed h.backed hnone ..).1, vector := ?_ }
      intro r hr hrid
      rcases hirq r hr with hold | ⟨halloc, hnew⟩
      · exact h.vector r hold hrid
      · cases msiEnabled with
        | true => exact hvector ⟨rfl, halloc⟩
        | false => exact absurd hnew hrid
  | freeIrq =>
      cases hstep
      obtain ⟨-, -, hirq⟩ := kfioFreeIrq_frame d.pci
      exact
        { h with
          backed := (kfioFreeIrq_backed h.backed).1
          vector := fun r hr ↦ h.vector r (hirq r hr) }
  | getIrqNumber =>
      cases hstep
      obtain ⟨faults, huse⟩ := useIrq_eq d.pci.bus d.pci.pd.intrResource
      refine { h with backed := kfioGetIrqNumber_backed h.backed, vector := ?_ }
      intro r hr
      unfold kfioGetIrqNumber at hr
      rw [huse] at hr
      exact h.vector r hr
  | enableMsi env =>
      simp only [portStep, Option.ite_none_left_eq_some, Option.some.injEq] at hstep
      obtain ⟨hfirst, rfl⟩ := hstep
      exact (kfioPciEnableMsi_sound h fun hrc ↦ by
        by_contra hmsi
        exact hfirst ⟨hrc, hmsi⟩).1
  | disableMsi =>
      cases hstep
      exact pciReleaseMsi_sound h
  | createControlDevice made =>
      cases hstep
      cases made with
      | true =>
          refine { h with node := ?_ }
          intro n hn
          cases hn
          exact List.mem_cons_self
      | false =>
          refine { h with node := ?_ }
          intro n hn
          cases hn
  | destroyControlDevice =>
      cases hstep
      exact fusionDestroyControlDevice_sound h
  | setDrvdata data =>
      cases hstep
      exact { h with backed := { h.backed with } }
  | createBlockDevice dev => cases hstep; exact { h with }
  | destroyBlockDevice => cases hstep; exact { h with }

theorem portRun_frame {cs : List PortCall} (hrun : run portStep d cs = some t) : PortFrame d t := by
  refine run_invariant (I := PortFrame d) ?_ ⟨rfl, rfl, rfl, rfl⟩ hrun
  intro u c v hu hstep
  exact hu.trans (portStep_frame hstep)

theorem portRun_sound (h : SoftcSound d) {cs : List PortCall} (hrun : run portStep d cs = some t) :
    SoftcSound t :=
  run_invariant (fun _ _ _ hu hstep ↦ portStep_sound hu hstep) h hrun

/-! ## Attaching, letting go -/

/-- What holds of a device at all times: while it is attached its softc is sound, and otherwise
neither its BAR nor its tag is held. -/
structure DeviceSound (d : FctDevice) : Prop where
  softc : d.attached = true → Backed d.pci ∧ ∀ n, d.cdev = some n → n ∈ d.nodes
  free : d.attached = false → Unmapped d.pci.bus
  msi : d.msi ≤ 1
  vector : ∀ r ∈ d.pci.bus.resources .irq, r.rid ≠ 0 → d.msi ≠ 0
  destroys : d.staleDestroys = 0

theorem DeviceSound.softcSound (h : DeviceSound d) (hatt : d.attached = true) : SoftcSound d where
  backed := (h.softc hatt).1
  node := (h.softc hatt).2
  msi := h.msi
  vector := h.vector
  destroys := h.destroys

theorem SoftcSound.deviceSound (h : SoftcSound d) (hatt : d.attached = true) : DeviceSound d where
  softc := fun _ ↦ ⟨h.backed, h.node⟩
  free := by
    intro hfalse
    rw [hatt] at hfalse
    cases hfalse
  msi := h.msi
  vector := h.vector
  destroys := h.destroys

/-- A softc that is dropped has let go of the mapping. -/
theorem SoftcSound.detached (h : SoftcSound d) (hbar : d.pci.pd.barResource = none) :
    DeviceSound { d with attached := false } where
  softc := by
    intro htrue
    cases htrue
  free := fun _ ↦ h.backed.unmapped hbar
  msi := h.msi
  vector := h.vector
  destroys := h.destroys

theorem removeDevice_spec (h : SoftcSound d) {pciDetach : List PortCall}
    (hstep : removeDevice d pciDetach = some t) :
    SoftcSound t ∧ t.pci.pd.barResource = none ∧ t.ident = d.ident ∧ t.attached = d.attached ∧
      t.pci.bus.intrhook = d.pci.bus.intrhook := by
  obtain ⟨u, hu, rfl⟩ := Option.map_eq_some_iff.mp hstep
  have hcalls : SoftcSound u ∧ PortFrame d u := by
    split at hu
    · exact ⟨portRun_sound h hu, portRun_frame hu⟩
    · cases hu
      exact ⟨h, rfl, rfl, rfl, rfl⟩
  obtain ⟨hsound, hframe⟩ := hcalls
  obtain ⟨hbacked, hbar, -⟩ := releaseMapping_backed hsound.backed
  obtain ⟨hhook, hirq⟩ := releaseMapping_frame u.pci
  refine ⟨{ hsound with backed := hbacked, vector := ?_ }, hbar, hframe.ident, hframe.attached,
    hhook.trans hframe.intrhook⟩
  intro r hr
  rw [show (releaseMapping u.pci).bus.resources .irq = u.pci.bus.resources .irq from hirq] at hr
  exact hsound.vector r hr

/-- A detach that is refused has done what `fio_detach` did, and no more; one that succeeds has let
go of the mapping. -/
theorem freebsdDetach_spec (h : SoftcSound d) {rc r : Int32} {fioDetach pciDetach : List PortCall}
    (hstep : freebsdDetach d rc fioDetach pciDetach = some (r, t)) :
    SoftcSound t ∧ t.ident = d.ident ∧ t.attached = d.attached ∧
      t.pci.bus.intrhook = d.pci.bus.intrhook ∧
      (r = 0 ↔ d.pFioDevice = none ∨ rc = 0) ∧
      (r = 0 → t.pci.pd.barResource = none) ∧
      (r ≠ 0 → r = ENXIO ∧ run portStep d fioDetach = some t) := by
  have hne : ENXIO ≠ 0 := by decide
  unfold freebsdDetach at hstep
  cases hdev : d.pFioDevice with
  | none =>
      rw [hdev] at hstep
      obtain ⟨u, hu, heq⟩ := Option.map_eq_some_iff.mp hstep
      cases heq
      obtain ⟨hsound, hbar, hident, hatt, hhook⟩ := removeDevice_spec h hu
      exact ⟨hsound, hident, hatt, hhook, by simp, fun _ ↦ hbar, fun hzero ↦ absurd rfl hzero⟩
  | some dev =>
      rw [hdev] at hstep
      obtain ⟨u, hu, hstep⟩ := Option.bind_eq_some_iff.mp hstep
      have hsound := portRun_sound h hu
      have hframe := portRun_frame hu
      split at hstep
      · rename_i hrc
        cases hstep
        exact ⟨hsound, hframe.ident, hframe.attached, hframe.intrhook, by simp [hne, hrc],
          fun hzero ↦ absurd hzero hne, fun _ ↦ ⟨rfl, hu⟩⟩
      · rename_i hrc
        obtain ⟨v, hv, heq⟩ := Option.map_eq_some_iff.mp hstep
        cases heq
        obtain ⟨hsound', hbar, hident, hatt, hhook⟩ :=
          removeDevice_spec (d := { u with pFioDevice := none }) { hsound with } hv
        exact ⟨hsound', hident.trans hframe.ident, hatt.trans hframe.attached,
          hhook.trans hframe.intrhook, by simp [not_not.mp hrc], fun _ ↦ hbar,
          fun hzero ↦ absurd rfl hzero⟩

theorem freebsdShutdown_spec (h : SoftcSound d) {fioShutdown pciDetach : List PortCall}
    (hstep : freebsdShutdown d fioShutdown pciDetach = some t) :
    SoftcSound t ∧ t.ident = d.ident ∧ t.attached = d.attached ∧
      t.pci.bus.intrhook = d.pci.bus.intrhook ∧ t.pci.pd.barResource = none := by
  unfold freebsdShutdown at hstep
  cases hdev : d.pFioDevice with
  | none =>
      rw [hdev] at hstep
      obtain ⟨hsound, hbar, hident, hatt, hhook⟩ := removeDevice_spec h hstep
      exact ⟨hsound, hident, hatt, hhook, hbar⟩
  | some dev =>
      rw [hdev] at hstep
      obtain ⟨u, hu, hstep⟩ := Option.bind_eq_some_iff.mp hstep
      have hsound := portRun_sound h hu
      have hframe := portRun_frame hu
      obtain ⟨hsound', hbar, hident, hatt, hhook⟩ :=
        removeDevice_spec (d := { u with pFioDevice := none }) { hsound with } hstep
      exact ⟨hsound', hident.trans hframe.ident, hatt.trans hframe.attached,
        hhook.trans hframe.intrhook, hbar⟩

/-- The device is one that the driver is for, and no hint disables it. -/
structure PciIdent.Supported (i : PciIdent) : Prop where
  vendor : i.vendor = pciVendorIdFusion
  device : i.device ∈ [iodrive3OldPciDevice, iodrive4PciDevice, iodrive3PciDevice,
    iodrive3BootPciDevice, ioxtremePciDevice, ioxtremeproPciDevice, ioxtreme2PciDevice]
  enabled : i.disabled = 0

theorem freebsdProbe_eq_zero (fusionInitFailed : Int32) (i : PciIdent) :
    freebsdProbe fusionInitFailed i = 0 ↔ fusionInitFailed = 0 ∧ i.Supported := by
  have hne : ENXIO ≠ 0 := by decide
  unfold freebsdProbe
  constructor
  · intro hzero
    split_ifs at hzero with hvendor hdevice hfailed hdisabled
    · exact absurd hzero hne
    · exact absurd hzero hne
    · exact absurd hzero hne
    · exact absurd hzero hne
    · refine ⟨not_not.mp hfailed, not_not.mp hvendor, ?_, not_not.mp hdisabled⟩
      simp only [List.mem_cons, List.not_mem_nil, or_false]
      tauto
  · rintro ⟨hfailed, hvendor, hdevice, henabled⟩
    simp only [List.mem_cons, List.not_mem_nil, or_false] at hdevice
    rw [if_neg (not_not.mpr hvendor), if_neg (by tauto), if_neg (not_not.mpr hfailed),
      if_neg (not_not.mpr henabled)]

/-- An attach that fails leaves the bus as bare as it was. -/
theorem freebsdAttach_spec (h : DeviceSound d) (hatt : d.attached = false) (env : ProbeEnv) :
    let p := freebsdAttach d env
    DeviceSound { p.2 with attached := p.1 = 0 } ∧ p.2.ident = d.ident ∧
      (p.1 ≠ 0 → p.1 = ENXIO ∧ p.2.pci.bus.intrhook = d.pci.bus.intrhook) := by
  intro p
  have hne : ENXIO ≠ 0 := by decide
  let fresh : PciState := { d.pci with pd := ⟨0, 0, none, none, 0, none, none⟩ }
  have hfree : Unmapped fresh.bus := h.free hatt
  obtain ⟨hfailed, hheld⟩ := iodrivePciProbe_fresh (s := fresh) hfree rfl rfl rfl rfl env
  have hirq : (iodrivePciProbe fresh env).2.bus.resources .irq = d.pci.bus.resources .irq :=
    iodrivePciProbe_irq (s := fresh) rfl rfl env
  have hp : p = if (iodrivePciProbe fresh env).1 ≠ 0
      then Prod.mk ENXIO
        { d with pci := (iodrivePciProbe fresh env).2, pFioDevice := none, cdev := none }
      else (0,
        { d with pci := (iodrivePciProbe fresh env).2, pFioDevice := none, cdev := none }) := rfl
  by_cases hrc : (iodrivePciProbe fresh env).1 = 0
  · obtain ⟨hbacked, -, -⟩ := hheld hrc
    rw [if_neg (not_not.mpr hrc)] at hp
    rw [hp]
    refine ⟨⟨fun _ ↦ ⟨hbacked, ?_⟩, ?_, h.msi, ?_, h.destroys⟩, rfl, fun hz ↦ absurd rfl hz⟩
    · intro n hn
      cases hn
    · intro hfalse
      cases hfalse
    · intro r hr
      exact h.vector r (hirq ▸ hr)
  · obtain ⟨hunmapped, hhook⟩ := hfailed hrc
    rw [if_pos hrc] at hp
    rw [hp]
    refine ⟨⟨?_, fun _ ↦ hunmapped, h.msi, ?_, h.destroys⟩, rfl, fun _ ↦ ⟨rfl, hhook⟩⟩
    · intro htrue
      exact absurd (of_decide_eq_true htrue) hne
    · intro r hr
      exact h.vector r (hirq ▸ hr)

theorem freebsdAttach_faults (d : FctDevice) (env : ProbeEnv) :
    (freebsdAttach d env).2.pci.bus.faults = d.pci.bus.faults := by
  have hprobe := iodrivePciProbe_faults
    (s := { d.pci with pd := ⟨0, 0, none, none, 0, none, none⟩ }) rfl rfl env
  unfold freebsdAttach
  dsimp only
  split_ifs <;> exact hprobe

/-- A device that becomes attached is one that the driver takes. -/
structure DeviceMoves (fusionInitFailed : Int32) (d t : FctDevice) : Prop where
  sound : DeviceSound t
  ident : t.ident = d.ident
  taken : t.attached = true → d.attached = true ∨ fusionInitFailed = 0 ∧ d.ident.Supported

theorem deviceStep_moves {failed : Int32} (h : DeviceSound d) {e : DeviceEvent}
    (hstep : deviceStep failed d e = some t) : DeviceMoves failed d t := by
  cases e with
  | attach env =>
      simp only [deviceStep, Option.ite_none_left_eq_some] at hstep
      obtain ⟨hatt, hstep⟩ := hstep
      rw [Bool.not_eq_true] at hatt
      by_cases hprobe : freebsdProbe failed d.ident = 0
      · rw [if_neg (not_not.mpr hprobe)] at hstep
        obtain ⟨hsound, hident, -⟩ := freebsdAttach_spec h hatt env
        cases hstep
        exact ⟨hsound, hident, fun _ ↦ Or.inr ((freebsdProbe_eq_zero _ _).mp hprobe)⟩
      · rw [if_pos hprobe] at hstep
        cases hstep
        exact ⟨h, rfl, fun htrue ↦ Or.inl htrue⟩
  | startup =>
      simp only [deviceStep, Option.ite_none_right_eq_some, Option.some.injEq] at hstep
      obtain ⟨-, rfl⟩ := hstep
      refine ⟨{ h with softc := ?_, free := ?_ }, rfl, Or.inl⟩
      · intro hatt
        obtain ⟨hbacked, hnode⟩ := h.softc hatt
        exact ⟨{ hbacked with }, hnode⟩
      · intro hatt
        exact { h.free hatt with }
  | call c =>
      simp only [deviceStep, Option.ite_none_right_eq_some] at hstep
      obtain ⟨hatt, hstep⟩ := hstep
      have hframe := portStep_frame hstep
      exact ⟨(portStep_sound (h.softcSound hatt) hstep).deviceSound (hframe.attached.trans hatt),
        hframe.ident, fun _ ↦ Or.inl hatt⟩
  | detach rc fioDetach pciDetach =>
      simp only [deviceStep, Option.ite_none_right_eq_some] at hstep
      obtain ⟨hatt, hstep⟩ := hstep
      obtain ⟨⟨r, u⟩, hu, rfl⟩ := Option.map_eq_some_iff.mp hstep
      obtain ⟨hsound, hident, hattached, -, -, hbar, -⟩ := freebsdDetach_spec (h.softcSound hatt) hu
      refine ⟨?_, hident, fun _ ↦ Or.inl hatt⟩
      by_cases hr : r = 0
      · have hdetached := hsound.detached (hbar hr)
        simpa [hr] using hdetached
      · have hkept := hsound.deviceSound (hattached.trans hatt)
        have hsame : { u with attached := decide (r ≠ 0) } = u := by
          rw [decide_eq_true hr, ← hatt, ← hattached]
        show DeviceSound { u with attached := decide (r ≠ 0) }
        rw [hsame]
        exact hkept
  | shutdown fioShutdown pciDetach =>
      simp only [deviceStep, Option.ite_none_right_eq_some] at hstep
      obtain ⟨hatt, hstep⟩ := hstep
      obtain ⟨hsound, hident, hattached, -, -⟩ := freebsdShutdown_spec (h.softcSound hatt) hstep
      exact ⟨hsound.deviceSound (hattached.trans hatt), hident, fun _ ↦ Or.inl hatt⟩

/-! ## Interrupts that are not held -/

/-- The number of the interrupt is asked for while the softc has the cookie of one. -/
def NumberKnown (d : FctDevice) (c : PortCall) : Prop :=
  c = .getIrqNumber → d.pci.pd.intrCookie ≠ none

/-- So it is along the calls that the library makes in `iodrive_pci_remove`. -/
def RemovalKnown (d : FctDevice) (pciDetach : List PortCall) : Prop :=
  d.pci.pd.prv ≠ 0 → Along portStep NumberKnown d pciDetach

/-- So it is along all the calls that come with an event. -/
def NumbersKnown (d : FctDevice) : DeviceEvent → Prop
  | .attach _ | .startup => True
  | .call c => NumberKnown d c
  | .detach rc fioDetach pciDetach =>
      match d.pFioDevice with
      | none => RemovalKnown d pciDetach
      | some _ =>
          Along portStep NumberKnown d fioDetach ∧
            (rc = 0 → ∀ u, run portStep d fioDetach = some u →
              RemovalKnown { u with pFioDevice := none } pciDetach)
  | .shutdown fioShutdown pciDetach =>
      match d.pFioDevice with
      | none => RemovalKnown d pciDetach
      | some _ =>
          Along portStep NumberKnown d fioShutdown ∧
            ∀ u, run portStep d fioShutdown = some u →
              RemovalKnown { u with pFioDevice := none } pciDetach

theorem portStep_faults (h : SoftcSound d) {c : PortCall} (hstep : portStep d c = some t) :
    t.pci.bus.faults = [] ↔ d.pci.bus.faults = [] ∧ NumberKnown d c := by
  by_cases hc : c = .getIrqNumber
  · subst hc
    cases hstep
    unfold NumberKnown
    rw [forall_prop_of_true rfl]
    exact kfioGetIrqNumber_faults h.backed
  · -- no other call uses an interrupt that is not held
    have hsame : t.pci.bus.faults = d.pci.bus.faults := by
      cases c with
      | getIrqNumber => exact absurd rfl hc
      | requestIrq msiEnabled alloc setup =>
          simp only [portStep, Option.ite_none_right_eq_some, Option.some.injEq] at hstep
          obtain ⟨⟨hnone, -⟩, rfl⟩ := hstep
          exact (kfioRequestIrq_backed h.backed hnone ..).2
      | freeIrq =>
          cases hstep
          exact (kfioFreeIrq_backed h.backed).2
      | enableMsi env =>
          simp only [portStep, Option.ite_none_left_eq_some, Option.some.injEq] at hstep
          obtain ⟨-, rfl⟩ := hstep
          rw [kfioPciEnableMsi_pci]
      | disableMsi =>
          cases hstep
          rw [pciReleaseMsi_pci]
      | createControlDevice made => cases hstep; cases made <;> rfl
      | destroyControlDevice =>
          cases hstep
          rw [fusionDestroyControlDevice_pci]
      | setDrvdata data => cases hstep; rfl
      | createBlockDevice dev => cases hstep; rfl
      | destroyBlockDevice => cases hstep; rfl
    have hknown : NumberKnown d c := fun heq ↦ absurd heq hc
    rw [hsame]
    exact ⟨fun hnil ↦ ⟨hnil, hknown⟩, fun hnil ↦ hnil.1⟩

theorem portRun_faults (h : SoftcSound d) {cs : List PortCall} (hrun : run portStep d cs = some t) :
    t.pci.bus.faults = [] ↔ d.pci.bus.faults = [] ∧ Along portStep NumberKnown d cs := by
  induction cs generalizing d with
  | nil =>
      cases hrun
      exact (and_iff_left trivial).symm
  | cons c cs ih =>
      obtain ⟨u, hu, hrest⟩ := run_cons_eq_some.mp hrun
      rw [ih (portStep_sound h hu) hrest, portStep_faults h hu, and_assoc, along_cons_of_some hu]

theorem removeDevice_faults (h : SoftcSound d) {pciDetach : List PortCall}
    (hstep : removeDevice d pciDetach = some t) :
    t.pci.bus.faults = [] ↔ d.pci.bus.faults = [] ∧ RemovalKnown d pciDetach := by
  obtain ⟨u, hu, rfl⟩ := Option.map_eq_some_iff.mp hstep
  show (releaseMapping u.pci).bus.faults = [] ↔ _
  unfold RemovalKnown
  by_cases hprv : d.pci.pd.prv ≠ 0
  · rw [if_pos hprv] at hu
    obtain ⟨-, -, hsame⟩ := releaseMapping_backed (portRun_sound h hu).backed
    rw [hsame, portRun_faults h hu, forall_prop_of_true hprv]
  · rw [if_neg hprv] at hu
    cases hu
    obtain ⟨-, -, hsame⟩ := releaseMapping_backed h.backed
    rw [hsame]
    exact ⟨fun hnil ↦ ⟨hnil, fun hne ↦ absurd hne hprv⟩, fun hnil ↦ hnil.1⟩

/-- Calls and then a removal, as in a detach and in a shutdown. -/
theorem callsRemove_faults (h : SoftcSound d) {calls pciDetach : List PortCall} {u : FctDevice}
    (hu : run portStep d calls = some u)
    (hstep : removeDevice { u with pFioDevice := none } pciDetach = some t) :
    t.pci.bus.faults = [] ↔ d.pci.bus.faults = [] ∧ Along portStep NumberKnown d calls ∧
      ∀ v, run portStep d calls = some v →
        RemovalKnown { v with pFioDevice := none } pciDetach := by
  have hsound : SoftcSound { u with pFioDevice := none } := { portRun_sound h hu with }
  rw [removeDevice_faults hsound hstep, portRun_faults h hu, and_assoc, hu]
  simp only [Option.some.injEq, forall_eq']

theorem freebsdDetach_faults (h : SoftcSound d) {rc r : Int32} {fioDetach pciDetach : List PortCall}
    (hstep : freebsdDetach d rc fioDetach pciDetach = some (r, t)) :
    t.pci.bus.faults = [] ↔
      d.pci.bus.faults = [] ∧ NumbersKnown d (.detach rc fioDetach pciDetach) := by
  unfold freebsdDetach at hstep
  unfold NumbersKnown
  cases hdev : d.pFioDevice with
  | none =>
      rw [hdev] at hstep
      obtain ⟨u, hu, heq⟩ := Option.map_eq_some_iff.mp hstep
      cases heq
      exact removeDevice_faults h hu
  | some dev =>
      rw [hdev] at hstep
      obtain ⟨u, hu, hstep⟩ := Option.bind_eq_some_iff.mp hstep
      dsimp only
      split at hstep
      · rename_i hrc
        cases hstep
        rw [portRun_faults h hu]
        simp [hrc]
      · rename_i hrc
        obtain ⟨v, hv, heq⟩ := Option.map_eq_some_iff.mp hstep
        cases heq
        rw [forall_prop_of_true (not_not.mp hrc)]
        exact callsRemove_faults h hu hv

theorem freebsdShutdown_faults (h : SoftcSound d) {fioShutdown pciDetach : List PortCall}
    (hstep : freebsdShutdown d fioShutdown pciDetach = some t) :
    t.pci.bus.faults = [] ↔
      d.pci.bus.faults = [] ∧ NumbersKnown d (.shutdown fioShutdown pciDetach) := by
  unfold freebsdShutdown at hstep
  unfold NumbersKnown
  cases hdev : d.pFioDevice with
  | none =>
      rw [hdev] at hstep
      exact removeDevice_faults h hstep
  | some dev =>
      rw [hdev] at hstep
      obtain ⟨u, hu, hstep⟩ := Option.bind_eq_some_iff.mp hstep
      exact callsRemove_faults h hu hstep

theorem deviceStep_faults {failed : Int32} (h : DeviceSound d) {e : DeviceEvent}
    (hstep : deviceStep failed d e = some t) :
    t.pci.bus.faults = [] ↔ d.pci.bus.faults = [] ∧ NumbersKnown d e := by
  cases e with
  | attach env =>
      simp only [deviceStep, Option.ite_none_left_eq_some] at hstep
      obtain ⟨-, hstep⟩ := hstep
      rw [show NumbersKnown d (.attach env) = True from rfl, and_true]
      split at hstep
      · cases hstep
        rfl
      · cases hstep
        show (freebsdAttach d env).2.pci.bus.faults = [] ↔ _
        rw [freebsdAttach_faults]
  | startup =>
      simp only [deviceStep, Option.ite_none_right_eq_some, Option.some.injEq] at hstep
      obtain ⟨-, rfl⟩ := hstep
      exact (and_iff_left trivial).symm
  | call c =>
      simp only [deviceStep, Option.ite_none_right_eq_some] at hstep
      exact portStep_faults (h.softcSound hstep.1) hstep.2
  | detach rc fioDetach pciDetach =>
      simp only [deviceStep, Option.ite_none_right_eq_some] at hstep
      obtain ⟨hatt, hstep⟩ := hstep
      obtain ⟨⟨r, u⟩, hu, rfl⟩ := Option.map_eq_some_iff.mp hstep
      exact freebsdDetach_faults (t := u) (h.softcSound hatt) hu
  | shutdown fioShutdown pciDetach =>
      simp only [deviceStep, Option.ite_none_right_eq_some] at hstep
      exact freebsdShutdown_faults (h.softcSound hstep.1) hstep.2

/-! ## The driver over whole runs -/

variable {s s' : Driver}

/-- The events of the module leave the devices alone. -/
theorem driverStep_modevent {e : ModEvent} (hstep : driverStep s (.modevent e) = some s') :
    s'.devices = s.devices := by
  cases e with
  | load env =>
      simp only [driverStep, Option.ite_none_left_eq_some] at hstep
      obtain ⟨m, -, rfl⟩ := Option.map_eq_some_iff.mp hstep.2
      rfl
  | unload =>
      simp only [driverStep, Option.ite_none_left_eq_some] at hstep
      obtain ⟨m, -, rfl⟩ := Option.map_eq_some_iff.mp hstep.2
      rfl
  | other event =>
      obtain ⟨m, -, rfl⟩ := Option.map_eq_some_iff.mp hstep
      rfl

/-- An event of a device is its step, while the driver is on the list. -/
theorem driverStep_device {k : ℕ} {e : DeviceEvent} :
    driverStep s (.device k e) = some s' ↔
      s.registered = true ∧ ∃ d, s.devices[k]? = some d ∧
        ∃ t, deviceStep s.mod.fusionInitFailed d e = some t ∧
          { s with devices := s.devices.set k t } = s' := by
  simp only [driverStep, Option.ite_none_right_eq_some, Option.bind_eq_some_iff,
    Option.map_eq_some_iff]

/-- A device is attached only while the driver is on the list, every load has succeeded, and the
device is one of its own; a driver on the list whose loads have all succeeded has initialised all
its subsystems. -/
structure DriverSound (s : Driver) : Prop where
  devices : ∀ d ∈ s.devices, DeviceSound d
  attached : ∀ d ∈ s.devices, d.attached = true →
    s.registered = true ∧ s.mod.fusionInitFailed = 0 ∧ d.ident.Supported
  inits : s.registered = true → s.mod.fusionInitFailed = 0 → ∀ x, x ∈ s.mod.inits

theorem unloadedDriver_sound (lebMap autoAttach : Int32) (found : List (PciIdent × UInt16)) :
    DriverSound (unloadedDriver lebMap autoAttach found) where
  devices := by
    intro d hd
    obtain ⟨⟨ident, command⟩, -, rfl⟩ := List.mem_map.mp hd
    exact
      { softc := by
          intro hatt
          cases hatt
        free := by
          intro _
          refine ⟨rfl, rfl, ?_, List.not_mem_nil⟩
          intro r hr
          cases hr
        msi := Nat.zero_le 1
        vector := by
          intro r hr
          cases hr
        destroys := rfl }
  attached := by
    intro d hd hatt
    obtain ⟨⟨ident, command⟩, -, rfl⟩ := List.mem_map.mp hd
    cases hatt
  inits := by
    intro hreg
    cases hreg

theorem driverStep_sound (s : Driver) (e : DriverEvent) (s' : Driver) (h : DriverSound s)
    (hstep : driverStep s e = some s') : DriverSound s' := by
  cases e with
  | modevent e =>
      cases e with
      | load env =>
          simp only [driverStep, Option.ite_none_left_eq_some] at hstep
          obtain ⟨hreg, hstep⟩ := hstep
          obtain ⟨m, hm, rfl⟩ := Option.map_eq_some_iff.mp hstep
          obtain ⟨-, -, hflag, hinits, -⟩ := modStep_load hm
          -- nothing is attached before a load
          refine ⟨h.devices, fun d hd hatt ↦ absurd (h.attached d hd hatt).1 hreg, ?_⟩
          intro _ hfailed
          exact hinits (hflag.mp hfailed).1
      | unload =>
          simp only [driverStep, Option.ite_none_left_eq_some, not_or] at hstep
          obtain ⟨⟨-, hnone⟩, hstep⟩ := hstep
          obtain ⟨m, hm, rfl⟩ := Option.map_eq_some_iff.mp hstep
          refine ⟨h.devices, ?_, ?_⟩
          · intro d hd hatt
            exact absurd (List.any_eq_true.mpr ⟨d, hd, hatt⟩) hnone
          · intro hreg
            cases hreg
      | other event =>
          obtain ⟨m, hm, rfl⟩ := Option.map_eq_some_iff.mp hstep
          simp only [modStep, freebsdModevent, Option.ite_none_left_eq_some,
            Option.some.injEq] at hm
          obtain ⟨-, rfl⟩ := hm
          exact h
  | device k e =>
      obtain ⟨hreg, d, hget, t, ht, rfl⟩ := driverStep_device.mp hstep
      have hd : d ∈ s.devices := List.mem_of_getElem? hget
      have hmoves := deviceStep_moves (h.devices d hd) ht
      refine ⟨?_, ?_, h.inits⟩
      · intro u hu
        rcases List.mem_or_eq_of_mem_set hu with hold | rfl
        · exact h.devices u hold
        · exact hmoves.sound
      · intro u hu hatt
        rcases List.mem_or_eq_of_mem_set hu with hold | rfl
        · exact h.attached u hold hatt
        · rw [hmoves.ident]
          rcases hmoves.taken hatt with hbefore | ⟨hfailed, hsupported⟩
          · exact h.attached d hd hbefore
          · exact ⟨hreg, hfailed, hsupported⟩

theorem driverSound_throughout (lebMap autoAttach : Int32) (found : List (PciIdent × UInt16))
    (es : List DriverEvent) :
    Throughout driverStep DriverSound (unloadedDriver lebMap autoAttach found) es :=
  fun _ _ _ hr ↦ run_invariant driverStep_sound (unloadedDriver_sound lebMap autoAttach found) hr

/-- No bus has been asked about an interrupt that is not held, or had anything else to complain
of. -/
def NoFaults (s : Driver) : Prop :=
  ∀ d ∈ s.devices, d.pci.bus.faults = []

/-- The library asks for the number of an interrupt while the softc has no cookie. -/
def AsksUnknown (s : Driver) (e : DriverEvent) : Prop :=
  ∃ k f d t, e = .device k f ∧ s.registered = true ∧ s.devices[k]? = some d ∧
    deviceStep s.mod.fusionInitFailed d f = some t ∧ ¬ NumbersKnown d f

theorem driverStep_noFaults (s : Driver) (e : DriverEvent) (s' : Driver)
    (h : DriverSound s ∧ NoFaults s) (hgood : ¬ AsksUnknown s e)
    (hstep : driverStep s e = some s') : DriverSound s' ∧ NoFaults s' := by
  refine ⟨driverStep_sound s e s' h.1 hstep, ?_⟩
  obtain ⟨hsound, hclean⟩ := h
  cases e with
  | modevent e =>
      unfold NoFaults
      rw [driverStep_modevent hstep]
      exact hclean
  | device k e =>
      obtain ⟨hreg, d, hget, t, ht, rfl⟩ := driverStep_device.mp hstep
      have hd : d ∈ s.devices := List.mem_of_getElem? hget
      intro u hu
      rcases List.mem_or_eq_of_mem_set hu with hold | rfl
      · exact hclean u hold
      · apply (deviceStep_faults (hsound.devices d hd) ht).mpr
        refine ⟨hclean d hd, ?_⟩
        by_contra hunknown
        exact hgood ⟨k, e, d, u, rfl, hreg, hget, ht, hunknown⟩

theorem asksUnknown_faults (s : Driver) (e : DriverEvent) (h : DriverSound s ∧ NoFaults s)
    (hbad : AsksUnknown s e) : ∃ t, driverStep s e = some t ∧ ¬ NoFaults t := by
  obtain ⟨k, f, d, t, rfl, hreg, hget, ht, hunknown⟩ := hbad
  refine ⟨_, driverStep_device.mpr ⟨hreg, d, hget, t, ht, rfl⟩, ?_⟩
  intro hclean
  have hlt : k < s.devices.length := (List.getElem?_eq_some_iff.mp hget).1
  have hd : d ∈ s.devices := List.mem_of_getElem? hget
  have hnil := hclean t (List.mem_set hlt t)
  exact hunknown ((deviceStep_faults (h.1.devices d hd) ht).mp hnil).2

/-- In every run of the module and of its devices, whatever fails and whatever the library calls,
the bus is never given back what it has not allocated.  The BAR and the DMA tag are held exactly as
the softc of an attached device says, and not at all otherwise: a failed attach and a detach each
let go of what was taken, once, also after a shutdown.  The bus is asked about an interrupt that is
not held if and only if the number of the interrupt is asked for while the softc has no cookie, as
after a handler that could not be set up. -/
theorem devices_accounted (lebMap autoAttach : Int32) (found : List (PciIdent × UInt16))
    (es : List DriverEvent) :
    Throughout driverStep (fun s ↦ ∀ d ∈ s.devices, DeviceSound d)
        (unloadedDriver lebMap autoAttach found) es ∧
      (Throughout driverStep NoFaults (unloadedDriver lebMap autoAttach found) es ↔
        Along driverStep (fun s e ↦ ¬ AsksUnknown s e) (unloadedDriver lebMap autoAttach found)
          es) := by
  refine ⟨(driverSound_throughout lebMap autoAttach found es).mono fun _ h ↦ h.devices, ?_⟩
  refine throughout_iff_along (I := fun s ↦ DriverSound s ∧ NoFaults s) (fun _ h ↦ h.2)
    driverStep_noFaults asksUnknown_faults es ⟨unloadedDriver_sound .., ?_⟩
  intro d hd
  obtain ⟨⟨ident, command⟩, -, rfl⟩ := List.mem_map.mp hd
  rfl

def probeSucceeds : ProbeEnv := ⟨false, 0, true, false, 0, true⟩

def ioDrive : PciIdent := ⟨pciVendorIdFusion, iodrive3PciDevice, 0⟩

/-! A handler that can not be set up, a shutdown, and a detach after it; and the same with a look at
the number of the interrupt in between. -/

def refusedHandler (calls : List PortCall) : List DriverEvent :=
  [.modevent (.load succeedsEnv), .device 0 (.attach probeSucceeds), .device 0 .startup] ++
    (.requestIrq false true 5 :: calls).map (.device 0 <| .call ·) ++
    [.device 0 (.shutdown [] []), .device 0 (.detach 0 [] [.freeIrq]), .modevent .unload]

example :
    (run driverStep (unloadedDriver 1 1 [(ioDrive, 0x0407)]) (refusedHandler [])).map
      (fun s ↦ s.devices.map fun d ↦
        (d.attached, (d.pci.bus.resources .memory).length, d.pci.bus.faults)) =
      some [(false, 0, [])] := by decide

example :
    (run driverStep (unloadedDriver 1 1 [(ioDrive, 0x0407)]) (refusedHandler [.getIrqNumber])).map
      (fun s ↦ s.devices.map fun d ↦
        (d.attached, (d.pci.bus.resources .memory).length, d.pci.bus.faults)) =
      some [(false, 0, [.dereferenced])] := by decide

/-! ## The loads of a run -/

/-- The flag is clear when it was clear before and no load has failed. -/
theorem driverStep_flag {e : DriverEvent} (hstep : driverStep s e = some s') :
    s'.mod.fusionInitFailed = 0 ↔
      s.mod.fusionInitFailed = 0 ∧ ∀ env, e = .modevent (.load env) → env.Succeeds := by
  cases e with
  | modevent e =>
      cases e with
      | load env =>
          simp only [driverStep, Option.ite_none_left_eq_some] at hstep
          obtain ⟨m, hm, rfl⟩ := Option.map_eq_some_iff.mp hstep.2
          obtain ⟨-, -, hflag, -, -⟩ := modStep_load hm
          rw [hflag, and_comm]
          simp
      | unload =>
          simp only [driverStep, Option.ite_none_left_eq_some] at hstep
          obtain ⟨m, hm, rfl⟩ := Option.map_eq_some_iff.mp hstep.2
          cases hm
          simp [freebsdModevent]
      | other event =>
          obtain ⟨m, hm, rfl⟩ := Option.map_eq_some_iff.mp hstep
          simp only [modStep, freebsdModevent, Option.ite_none_left_eq_some,
            Option.some.injEq] at hm
          obtain ⟨-, rfl⟩ := hm
          simp
  | device k e =>
      obtain ⟨-, d, -, t, -, rfl⟩ := driverStep_device.mp hstep
      simp

theorem driverRun_flag {es : List DriverEvent} (hrun : run driverStep s es = some s') :
    s'.mod.fusionInitFailed = 0 ↔
      s.mod.fusionInitFailed = 0 ∧ ∀ env, .modevent (.load env) ∈ es → env.Succeeds := by
  induction es generalizing s with
  | nil =>
      cases hrun
      simp
  | cons e es ih =>
      obtain ⟨t, ht, hrest⟩ := run_cons_eq_some.mp hrun
      rw [ih hrest, driverStep_flag ht, and_assoc, ← forall_and]
      simp only [List.mem_cons, or_imp, @eq_comm _ e]

/-- The driver is on the list only if it was, or a load has put it there. -/
theorem driverRun_registered {es : List DriverEvent} (hrun : run driverStep s es = some s')
    (hreg : s'.registered = true) :
    s.registered = true ∨ ∃ env, .modevent (.load env) ∈ es := by
  induction es generalizing s with
  | nil =>
      cases hrun
      exact Or.inl hreg
  | cons e es ih =>
      obtain ⟨t, ht, hrest⟩ := run_cons_eq_some.mp hrun
      rcases ih hrest with hbefore | ⟨env, hlater⟩
      · cases e with
        | modevent e =>
            cases e with
            | load env => exact Or.inr ⟨env, List.mem_cons_self⟩
            | unload =>
                simp only [driverStep, Option.ite_none_left_eq_some] at ht
                obtain ⟨m, -, rfl⟩ := Option.map_eq_some_iff.mp ht.2
                cases hbefore
            | other event =>
                obtain ⟨m, -, rfl⟩ := Option.map_eq_some_iff.mp ht
                exact Or.inl hbefore
        | device k e => exact Or.inl (driverStep_device.mp ht).1
      · exact Or.inr ⟨env, List.mem_cons_of_mem e hlater⟩

/-- A device is attached only if it is one of those that the driver is for, only after a load, with
every subsystem initialised, and never after a load that has failed, however long ago. -/
theorem attached_initialised {lebMap autoAttach : Int32} {found : List (PciIdent × UInt16)}
    {es : List DriverEvent}
    (hrun : run driverStep (unloadedDriver lebMap autoAttach found) es = some s) {d : FctDevice}
    (hd : d ∈ s.devices) (hatt : d.attached = true) :
    d.ident.Supported ∧ (∃ env, .modevent (.load env) ∈ es) ∧
      (∀ env, .modevent (.load env) ∈ es → env.Succeeds) ∧
      s.mod.fusionInitFailed = 0 ∧ ∀ x, x ∈ s.mod.inits := by
  have h := (driverSound_throughout lebMap autoAttach found es).last hrun
  obtain ⟨hreg, hfailed, hsupported⟩ := h.attached d hd hatt
  refine ⟨hsupported, ?_, ((driverRun_flag hrun).mp hfailed).2, hfailed, h.inits hreg hfailed⟩
  rcases driverRun_registered hrun hreg with hbefore | hload
  · cases hbefore
  · exact hload

/-- A load that succeeds after others, and then the device is found. -/
def loadedThenFound (loads : List DriverEvent) : List DriverEvent :=
  loads ++ [.modevent (.load succeedsEnv), .device 0 (.attach probeSucceeds)]

/-- The device is attached after the first load, but not if one has failed before. -/
theorem attached_initialised_ioDrive :
    (∃ s, run driverStep (unloadedDriver 1 1 [(ioDrive, 0x0407)]) (loadedThenFound []) = some s ∧
      ∃ d ∈ s.devices, d.attached = true ∧ d.ident.Supported ∧ ∀ x, x ∈ s.mod.inits) ∧
    ∃ s, run driverStep (unloadedDriver 1 1 [(ioDrive, 0x0407)])
        (loadedThenFound [.modevent (.load objFailsEnv), .modevent .unload]) = some s ∧
      ∀ d ∈ s.devices, d.attached = false := by
  have hfirst : (run driverStep (unloadedDriver 1 1 [(ioDrive, 0x0407)])
      (loadedThenFound [])).map (fun s ↦ s.devices.map (·.attached)) = some [true] := by decide
  have hsecond : (run driverStep (unloadedDriver 1 1 [(ioDrive, 0x0407)])
      (loadedThenFound [.modevent (.load objFailsEnv), .modevent .unload])).isSome := by decide
  constructor
  · obtain ⟨s, hs, hattached⟩ := Option.map_eq_some_iff.mp hfirst
    obtain ⟨d, hd, hatt⟩ := List.mem_map.mp (hattached ▸ List.mem_singleton_self true)
    obtain ⟨hsupported, -, -, -, hinits⟩ := attached_initialised hs hd hatt
    exact ⟨s, hs, d, hd, hatt, hsupported, hinits⟩
  · obtain ⟨s, hs⟩ := Option.isSome_iff_exists.mp hsecond
    refine ⟨s, hs, ?_⟩
    intro d hd
    rw [← Bool.not_eq_true]
    intro hatt
    have hloads := (attached_initialised hs hd hatt).2.2.1
    have hfailed : ¬ objFailsEnv.Succeeds := by
      unfold LoadEnv.Succeeds
      decide
    exact hfailed (hloads objFailsEnv List.mem_cons_self)

/-! ## The hook

A successful attach leaves the hook in its chain, with a pointer to the softc.  A detach does not
take it out. -/

/-- Whatever hook is to run finds its device attached. -/
def HooksAttached (s : Driver) : Prop :=
  ∀ d ∈ s.devices, d.pci.bus.intrhook = true → d.attached = true

/-- The device is detached, and not refused, while its hook has not run. -/
def DetachesHooked (s : Driver) (e : DriverEvent) : Prop :=
  ∃ k rc fioDetach pciDetach d,
    e = .device k (.detach rc fioDetach pciDetach) ∧ s.registered = true ∧
      s.devices[k]? = some d ∧ d.pci.bus.intrhook = true ∧ (d.pFioDevice = none ∨ rc = 0) ∧
      ∃ t, deviceStep s.mod.fusionInitFailed d (.detach rc fioDetach pciDetach) = some t

theorem detach_attached {failed rc : Int32} (h : DeviceSound d)
    {fioDetach pciDetach : List PortCall}
    (hstep : deviceStep failed d (.detach rc fioDetach pciDetach) = some t) :
    t.pci.bus.intrhook = d.pci.bus.intrhook ∧
      (t.attached = false ↔ d.pFioDevice = none ∨ rc = 0) := by
  simp only [deviceStep, Option.ite_none_right_eq_some] at hstep
  obtain ⟨hatt, hstep⟩ := hstep
  obtain ⟨⟨r, u⟩, hu, rfl⟩ := Option.map_eq_some_iff.mp hstep
  obtain ⟨-, -, -, hhook, hrefused, -, -⟩ := freebsdDetach_spec (h.softcSound hatt) hu
  refine ⟨hhook, ?_⟩
  rw [← hrefused]
  simp

/-- Any step but such a detach. -/
theorem deviceStep_hook {failed : Int32} (h : DeviceSound d) (hhook : d.pci.bus.intrhook = true →
    d.attached = true) {e : DeviceEvent} (hstep : deviceStep failed d e = some t)
    (hkept : ∀ rc fioDetach pciDetach, e = .detach rc fioDetach pciDetach →
      d.pci.bus.intrhook = true → ¬ (d.pFioDevice = none ∨ rc = 0)) :
    t.pci.bus.intrhook = true → t.attached = true := by
  intro hchained
  cases e with
  | attach env =>
      simp only [deviceStep, Option.ite_none_left_eq_some] at hstep
      obtain ⟨hatt, hstep⟩ := hstep
      rw [Bool.not_eq_true] at hatt
      split at hstep
      · cases hstep
        exact hhook hchained
      · cases hstep
        obtain ⟨-, -, hfailed⟩ := freebsdAttach_spec h hatt env
        by_contra hnot
        have hrc : (freebsdAttach d env).1 ≠ 0 := fun hzero ↦ hnot (decide_eq_true hzero)
        rw [show (freebsdAttach d env).2.pci.bus.intrhook = true from hchained] at hfailed
        have hbefore := hhook (hfailed hrc).2.symm
        rw [hatt] at hbefore
        cases hbefore
  | startup =>
      simp only [deviceStep, Option.ite_none_right_eq_some, Option.some.injEq] at hstep
      obtain ⟨-, rfl⟩ := hstep
      cases hchained
  | call c =>
      simp only [deviceStep, Option.ite_none_right_eq_some] at hstep
      exact (portStep_frame hstep.2).attached.trans hstep.1
  | detach rc fioDetach pciDetach =>
      obtain ⟨hsame, hdetached⟩ := detach_attached h hstep
      by_contra hnot
      rw [Bool.not_eq_true] at hnot
      exact hkept rc fioDetach pciDetach rfl (hsame ▸ hchained) (hdetached.mp hnot)
  | shutdown fioShutdown pciDetach =>
      simp only [deviceStep, Option.ite_none_right_eq_some] at hstep
      obtain ⟨hatt, hstep⟩ := hstep
      obtain ⟨-, -, hattached, -, -⟩ := freebsdShutdown_spec (h.softcSound hatt) hstep
      exact hattached.trans hatt

theorem driverStep_hooks (s : Driver) (e : DriverEvent) (s' : Driver)
    (h : DriverSound s ∧ HooksAttached s) (hgood : ¬ DetachesHooked s e)
    (hstep : driverStep s e = some s') : DriverSound s' ∧ HooksAttached s' := by
  refine ⟨driverStep_sound s e s' h.1 hstep, ?_⟩
  obtain ⟨hsound, hhooks⟩ := h
  cases e with
  | modevent e =>
      unfold HooksAttached
      rw [driverStep_modevent hstep]
      exact hhooks
  | device k e =>
      obtain ⟨hreg, d, hget, t, ht, rfl⟩ := driverStep_device.mp hstep
      have hd : d ∈ s.devices := List.mem_of_getElem? hget
      intro u hu
      rcases List.mem_or_eq_of_mem_set hu with hold | rfl
      · exact hhooks u hold
      · refine deviceStep_hook (hsound.devices d hd) (hhooks d hd) ht ?_
        rintro rc fioDetach pciDetach rfl hchained haccepted
        exact hgood ⟨k, rc, fioDetach, pciDetach, d, rfl, hreg, hget, hchained, haccepted, u, ht⟩

theorem detachesHooked_orphans (s : Driver) (e : DriverEvent) (h : DriverSound s ∧ HooksAttached s)
    (hbad : DetachesHooked s e) : ∃ t, driverStep s e = some t ∧ ¬ HooksAttached t := by
  obtain ⟨k, rc, fioDetach, pciDetach, d, rfl, hreg, hget, hchained, haccepted, t, ht⟩ := hbad
  refine ⟨{ s with devices := s.devices.set k t }, ?_, ?_⟩
  · exact driverStep_device.mpr ⟨hreg, d, hget, t, ht, rfl⟩
  · intro hhooks
    obtain ⟨hsame, hdetached⟩ := detach_attached (h.1.devices d (List.mem_of_getElem? hget)) ht
    have hlt : k < s.devices.length := (List.getElem?_eq_some_iff.mp hget).1
    have hatt := hhooks t (List.mem_set hlt t) (hsame.trans hchained)
    rw [hdetached.mpr haccepted] at hatt
    cases hatt

/-- The hooks of a run all find their devices attached, if and only if no device is detached between
its attach and its hook: the removal of a device leaves its hook in the chain. -/
theorem hooks_attached_iff (lebMap autoAttach : Int32) (found : List (PciIdent × UInt16))
    (es : List DriverEvent) :
    Throughout driverStep HooksAttached (unloadedDriver lebMap autoAttach found) es ↔
      Along driverStep (fun s e ↦ ¬ DetachesHooked s e) (unloadedDriver lebMap autoAttach found)
        es := by
  refine throughout_iff_along (I := fun s ↦ DriverSound s ∧ HooksAttached s) (fun _ h ↦ h.2)
    driverStep_hooks detachesHooked_orphans es ⟨unloadedDriver_sound .., ?_⟩
  intro d hd hchained
  obtain ⟨⟨ident, command⟩, -, rfl⟩ := List.mem_map.mp hd
  cases hchained

example :
    (run driverStep (unloadedDriver 1 1 [(ioDrive, 0x0407)])
        [.modevent (.load succeedsEnv), .device 0 (.attach probeSucceeds),
          .device 0 (.detach 0 [] [])]).map
      (fun s ↦ s.devices.map fun d ↦ (d.attached, d.pci.bus.intrhook)) =
      some [(false, true)] := by decide

end IomemoryVsl.Main
