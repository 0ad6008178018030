import IomemoryVsl.Kinfo.Node
import Mathlib.Data.List.Infix

/-!
# Requests on the typed nodes (`kinfo.c`)

`kfio_sysctl_type_proc` trades the value of a node with user space.  The value belongs to the node's
handler in the library, which is a parameter here with a state of its own; the commands that it is
given are recorded.
-/

namespace IomemoryVsl.Kinfo

open Kblock Kscatter

/-- `struct kfio_info_val` -/
structure InfoVal where
  type : InfoType
  size : Int64
  data : List UInt8
deriving DecidableEq, Repr

/-- `KFIO_INFO_READ`, `KFIO_INFO_WRITE` and `KFIO_INFO_RDWR`, with the values that go with each. -/
inductive InfoCmd where
  | read (oldval : InfoVal)
  | write (newval : InfoVal)
  | rdwr (oldval newval : InfoVal)
deriving DecidableEq, Repr

def InfoCmd.writes : InfoCmd → Bool
  | .read _ => false
  | .write _ => true
  | .rdwr _ _ => true

/-- A handler answers with the return code, what it has left in `oldval`, and its next state. -/
abbrev TypeHandler (σ : Type) := σ → InfoCmd → Int32 × InfoVal × σ

structure InfoState (σ : Type) where
  driver : σ
  cmds : List InfoCmd

section Handler

variable {σ : Type} (k : SysctlKernel) (handler : TypeHandler σ)

def kfioInfoGenericTypeHandler (s : InfoState σ) (cmd : InfoCmd) : Int32 × InfoVal × InfoState σ :=
  let (rc, oldval, driver) := handler s.driver cmd
  (rc, oldval, ⟨driver, s.cmds ++ [cmd]⟩)

/-- The branch of `kfio_sysctl_type_proc` for a string: it is read, exchanged, and written back. -/
def typeProcString (node : InfoNode) (vmalloc : Bool) (req : SysctlReq) (s : InfoState σ) :
    Int32 × SysctlReq × InfoState σ :=
  -- `sizeof(local_buf)` is 32; the comparison is unsigned
  if node.size.toUInt64 > 32 ∧ vmalloc = false then (ENOMEM, req, s)
  else
    let (rc, oldvalue, s) := kfioInfoGenericTypeHandler handler s (.read ⟨node.type, node.size, []⟩)
    if rc ≠ 0 then (positiveErrno rc, req, s)
    else
      let (rc, data, req) := k.sysctlHandleString req oldvalue.data (oldvalue.size - 1)
      if rc ≠ 0 then (positiveErrno rc, req, s)
      else if req.newptr ≠ none then
        let (rc, _, s) := kfioInfoGenericTypeHandler handler s
          (.write { oldvalue with data := data })
        (positiveErrno rc, req, s)
      else (0, req, s)

/-- How the branch for a number gets at the old value, having put a new one in its place if the
request has one. -/
def typeProcFetch (node : InfoNode) (req : SysctlReq) (s : InfoState σ) :
    Int32 × InfoVal × SysctlReq × InfoState σ :=
  let oldvalue : InfoVal := ⟨node.type, node.size, []⟩
  if req.newptr ≠ none then
    let (rc, data, req) := k.sysctlIn req oldvalue.size.toUInt64
    if rc = 0 then
      let (rc, oldvalue, s) := kfioInfoGenericTypeHandler handler s
        (.rdwr oldvalue { oldvalue with data := data })
      (rc, oldvalue, req, s)
    else (rc, oldvalue, req, s)
  else
    let (rc, oldvalue, s) := kfioInfoGenericTypeHandler handler s (.read oldvalue)
    (rc, oldvalue, req, s)

/-- The branch of `kfio_sysctl_type_proc` for a number. -/
def typeProcNumber (node : InfoNode) (req : SysctlReq) (s : InfoState σ) :
    Int32 × SysctlReq × InfoState σ :=
  let (rc, oldvalue, req, s) := typeProcFetch k handler node req s
  if rc = 0 then
    let (rc, req) := k.sysctlOut req (oldvalue.data.take oldvalue.size.toUInt64.toNat)
    (positiveErrno rc, req, s)
  else (positiveErrno rc, req, s)

def kfioSysctlTypeProc (node : InfoNode) (vmalloc : Bool) (req : SysctlReq) (s : InfoState σ) :
    Int32 × SysctlReq × InfoState σ :=
  match node.type with
  | .string => typeProcString k handler node vmalloc req s
  | .int32 | .uint32 | .uint64 => typeProcNumber k handler node req s
  | _ => (EINVAL, req, s)

/-! ## Requests from user space -/

structure UserRequest where
  req : SysctlReq
  /-- whether `kfio_vmalloc` succeeds -/
  vmalloc : Bool

/-- A request on an oid of the node that `kfio_sysctl_type_proc` serves. -/
def serveRequest (node : InfoNode) (oid : SysctlOid) (s : InfoState σ) (r : UserRequest) :
    Int32 × InfoState σ :=
  if sysctlRefuses oid r.req then (EPERM, s)
  else
    let (rc, _, s) := kfioSysctlTypeProc k handler node r.vmalloc r.req s
    (rc, s)

/-- Requests one after the other. -/
def serveRequests (node : InfoNode) (oid : SysctlOid) (s : InfoState σ) (rs : List UserRequest) :
    InfoState σ :=
  rs.foldl (fun s r ↦ (serveRequest k handler node oid s r).2) s

end Handler

/-! ## Who can write -/

/-- Some requests make the handler of the node receive a command that writes. -/
def Written {σ : Type} (k : SysctlKernel) (handler : TypeHandler σ) (node : InfoNode)
    (oid : SysctlOid) (driver : σ) : Prop :=
  ∃ rs, ∃ cmd ∈ (serveRequests k handler node oid ⟨driver, []⟩ rs).cmds, cmd.writes = true

/-- User space can write a node when its mode has a write bit, and only then. -/
structure WritesFollowMode {σ : Type} (k : SysctlKernel) (handler : TypeHandler σ)
    (node : InfoNode) (oid : SysctlOid) (driver : σ) : Prop where
  reached : Written k handler node oid driver ↔ node.Writable
  accepted : node.Writable → ∀ req, req.newptr ≠ none → sysctlRefuses oid req = false

/-- The write access that is worked out from the mode. -/
theorem ctlMode_access (node : InfoNode) :
    ctlMode node &&& ctlflagWr = if node.Writable then ctlflagWr else 0 := by
  unfold ctlMode
  by_cases hmode : node.Writable
  · have hbits : node.mode &&& sIwugo ≠ 0 := hmode
    simp only [hmode, hbits, ne_eq, not_false_eq_true, if_true]
    decide
  · have hbits : node.mode &&& sIwugo = 0 := not_not.mp hmode
    simp only [hmode, hbits, ne_eq, not_true_eq_false, if_false]
    decide

/-- The write access that is registered, which only the oid of an `INT32` node gets. -/
theorem nodeOid_access {node : InfoNode} {oid : SysctlOid} (htyped : node.Typed)
    (hoid : nodeOid node = some oid) :
    oid.kind &&& ctlflagWr = if node.type = .int32 then ctlflagWr else 0 := by
  unfold InfoNode.Typed at htyped
  unfold nodeOid at hoid
  revert htyped hoid
  cases node.type <;> intro htyped hoid <;> cases hoid <;> simp at htyped <;> decide

theorem nodeOid_writable {node : InfoNode} {oid : SysctlOid} (htyped : node.Typed)
    (hoid : nodeOid node = some oid) : oid.kind &&& ctlflagWr ≠ 0 ↔ node.type = .int32 := by
  rw [nodeOid_access htyped hoid]
  split_ifs with hint
  · exact iff_of_true (by decide) hint
  · exact iff_of_false (by decide) hint

/-- The two agree when the mode of an `INT32` node has a write bit and that of another has none. -/
theorem access_agrees_iff {node : InfoNode} {oid : SysctlOid} (htyped : node.Typed)
    (hoid : nodeOid node = some oid) :
    oid.kind &&& ctlflagWr = ctlMode node &&& ctlflagWr ↔
      (node.type = .int32 ↔ node.Writable) := by
  have hwr : ctlflagWr ≠ 0 := by decide
  rw [nodeOid_access htyped hoid, ctlMode_access]
  by_cases hint : node.type = .int32 <;> by_cases hmode : node.Writable <;>
    simp [hint, hmode, hwr, hwr.symm]

section Handler

variable {σ : Type} {k : SysctlKernel} {handler : TypeHandler σ}

/-- Reading once more is not writing. -/
theorem read_not_writes {cmds : List InfoCmd} {oldval : InfoVal}
    (h : ∀ cmd ∈ cmds, cmd.writes = false) :
    ∀ cmd ∈ cmds ++ [InfoCmd.read oldval], cmd.writes = false := by
  intro cmd hcmd
  rcases List.mem_append.mp hcmd with hold | hlast
  · exact h cmd hold
  · rw [List.mem_singleton.mp hlast]
    rfl

theorem typeProcString_reads (node : InfoNode) (vmalloc : Bool) {req : SysctlReq}
    (hnew : req.newptr = none) {s : InfoState σ} (h : ∀ cmd ∈ s.cmds, cmd.writes = false) :
    ∀ cmd ∈ (typeProcString k handler node vmalloc req s).2.2.cmds, cmd.writes = false := by
  have hread := @read_not_writes _ ⟨node.type, node.size, []⟩ h
  unfold typeProcString
  dsimp only
  split_ifs with hbig hfail hexchange hgiven
  · exact h
  · exact hread
  · exact hread
  · rw [k.string_newptr, hnew] at hgiven
    exact absurd rfl hgiven
  · exact hread

/-- The copy to user space comes last and leaves the handler alone. -/
theorem typeProcNumber_state (node : InfoNode) (req : SysctlReq) (s : InfoState σ) :
    (typeProcNumber k handler node req s).2.2 = (typeProcFetch k handler node req s).2.2.2 := by
  unfold typeProcNumber
  dsimp only
  split_ifs <;> rfl

theorem typeProcFetch_read (node : InfoNode) {req : SysctlReq} (hnew : req.newptr = none)
    (s : InfoState σ) :
    (typeProcFetch k handler node req s).2.2.2.cmds =
      s.cmds ++ [.read ⟨node.type, node.size, []⟩] := by
  unfold typeProcFetch
  rw [if_neg (not_not.mpr hnew)]
  rfl

/-- New data that can be fetched goes to the handler, in exchange for the old. -/
theorem typeProcFetch_rdwr (node : InfoNode) {req : SysctlReq} (hnew : req.newptr ≠ none)
    (hin : (k.sysctlIn req node.size.toUInt64).1 = 0) (s : InfoState σ) :
    (typeProcFetch k handler node req s).2.2.2.cmds =
      s.cmds ++ [.rdwr ⟨node.type, node.size, []⟩
        ⟨node.type, node.size, (k.sysctlIn req node.size.toUInt64).2.1⟩] := by
  unfold typeProcFetch
  rw [if_pos hnew]
  dsimp only
  rw [if_pos hin]
  rfl

theorem typeProcNumber_reads (node : InfoNode) {req : SysctlReq} (hnew : req.newptr = none)
    {s : InfoState σ} (h : ∀ cmd ∈ s.cmds, cmd.writes = false) :
    ∀ cmd ∈ (typeProcNumber k handler node req s).2.2.cmds, cmd.writes = false := by
  rw [typeProcNumber_state, typeProcFetch_read node hnew]
  exact read_not_writes h

/-- A request without new data makes the handler of the node read only. -/
theorem kfioSysctlTypeProc_reads (node : InfoNode) (vmalloc : Bool) {req : SysctlReq}
    (hnew : req.newptr = none) {s : InfoState σ} (h : ∀ cmd ∈ s.cmds, cmd.writes = false) :
    ∀ cmd ∈ (kfioSysctlTypeProc k handler node vmalloc req s).2.2.cmds, cmd.writes = false := by
  unfold kfioSysctlTypeProc
  split
  · exact typeProcString_reads node vmalloc hnew h
  · exact typeProcNumber_reads node hnew h
  · exact typeProcNumber_reads node hnew h
  · exact typeProcNumber_reads node hnew h
  · exact h

theorem serveRequest_reads (node : InfoNode) {oid : SysctlOid} (hoid : oid.kind &&& ctlflagWr = 0)
    (r : UserRequest) {s : InfoState σ} (h : ∀ cmd ∈ s.cmds, cmd.writes = false) :
    ∀ cmd ∈ (serveRequest k handler node oid s r).2.cmds, cmd.writes = false := by
  unfold serveRequest
  split_ifs with hrefused
  · exact h
  · have hnew : r.req.newptr = none := by
      by_contra hgiven
      apply hrefused
      simp [sysctlRefuses, hoid, Option.isSome_iff_ne_none.mpr hgiven]
    exact kfioSysctlTypeProc_reads node r.vmalloc hnew h

/-- No requests on an oid that does not take new data write through its node. -/
theorem serveRequests_reads (node : InfoNode) {oid : SysctlOid} (hoid : oid.kind &&& ctlflagWr = 0)
    (rs : List UserRequest) {s : InfoState σ} (h : ∀ cmd ∈ s.cmds, cmd.writes = false) :
    ∀ cmd ∈ (serveRequests k handler node oid s rs).cmds, cmd.writes = false := by
  induction rs generalizing s with
  | nil => exact h
  | cons r rs ih => exact ih (serveRequest_reads node hoid r h)

theorem kfioSysctlTypeProc_int32 {node : InfoNode} (hint : node.type = .int32) (vmalloc : Bool)
    (req : SysctlReq) (s : InfoState σ) :
    kfioSysctlTypeProc k handler node vmalloc req s = typeProcNumber k handler node req s := by
  unfold kfioSysctlTypeProc
  rw [hint]

/-- A request with as much new data as the node has bytes. -/
def writeRequest (node : InfoNode) : UserRequest where
  req :=
    { oldptr := false
      oldlen := 0
      oldidx := 0
      copied := []
      newptr := some (List.replicate node.size.toUInt64.toNat 0)
      newidx := 0
      newReadable := true }
  vmalloc := true

/-- On an oid that takes new data, the handler of an `INT32` node receives it. -/
theorem writeRequest_written {node : InfoNode} {oid : SysctlOid} (hint : node.type = .int32)
    (hoid : oid.kind &&& ctlflagWr ≠ 0) (driver : σ) : Written k handler node oid driver := by
  have haccept : sysctlRefuses oid (writeRequest node).req = false := by
    simp [sysctlRefuses, writeRequest, hoid]
  have hin : (k.sysctlIn (writeRequest node).req node.size.toUInt64).1 = 0 :=
    k.in_enough _ _ _ rfl rfl (by simp [writeRequest])
  have hcmds := @typeProcFetch_rdwr σ k handler node _
    (show (writeRequest node).req.newptr ≠ none from Option.some_ne_none _) hin ⟨driver, []⟩
  refine ⟨[writeRequest node], .rdwr ⟨node.type, node.size, []⟩
    ⟨node.type, node.size, (k.sysctlIn (writeRequest node).req node.size.toUInt64).2.1⟩, ?_, rfl⟩
  unfold serveRequests
  rw [List.foldl_cons, List.foldl_nil]
  unfold serveRequest
  rw [haccept, if_neg Bool.false_ne_true]
  dsimp only
  rw [kfioSysctlTypeProc_int32 hint, typeProcNumber_state, hcmds]
  exact List.mem_singleton.mpr rfl

/-- User space can write a typed node when its mode has a write bit and only then, whatever its
handler does, exactly when the mode of an `INT32` node has one and the mode of another has none. -/
theorem writes_follow_mode (k : SysctlKernel) (handler : TypeHandler σ) {node : InfoNode}
    {oid : SysctlOid} (htyped : node.Typed) (hoid : nodeOid node = some oid) (driver : σ) :
    WritesFollowMode k handler node oid driver ↔ (node.type = .int32 ↔ node.Writable) := by
  have hkind := nodeOid_writable htyped hoid
  by_cases hint : node.type = .int32
  · have hwr := hkind.mpr hint
    have hwritten : Written k handler node oid driver := writeRequest_written hint hwr driver
    constructor
    · intro h
      exact iff_of_true hint (h.reached.mp hwritten)
    · intro h
      exact
        { reached := iff_of_true hwritten (h.mp hint)
          accepted := fun _ req _ ↦ by simp [sysctlRefuses, hwr] }
  · have hrd : oid.kind &&& ctlflagWr = 0 := not_not.mp (mt hkind.mp hint)
    have hunwritten : ¬ Written k handler node oid driver := by
      rintro ⟨rs, cmd, hcmd, hwrites⟩
      have hreads := @serveRequests_reads σ k handler node oid hrd rs ⟨driver, []⟩
        (List.forall_mem_nil _) cmd hcmd
      rw [hwrites] at hreads
      cases hreads
    constructor
    · intro h
      exact iff_of_false hint (mt h.reached.mpr hunwritten)
    · intro h
      have hmode : ¬ node.Writable := mt h.mpr hint
      exact
        { reached := iff_of_false hunwritten hmode
          accepted := fun hw ↦ absurd hw hmode }

end Handler

/-! A handler that keeps the bytes it is given, under nodes of which two are not what they say: an
`INT32` that is read-only by its mode, and a `UINT32` that is writable. -/

def storeHandler : TypeHandler (List UInt8)
  | stored, .read oldval => (0, { oldval with data := stored }, stored)
  | _, .write newval => (0, newval, newval.data)
  | stored, .rdwr oldval newval => (0, { oldval with data := stored }, newval.data)

def counterNode : InfoNode := ⟨"counter", .uint32, 0o444, 4⟩

def readOnlyNode : InfoNode := ⟨"state", .int32, 0o444, 4⟩

def settableNode : InfoNode := ⟨"limit", .uint32, 0o644, 4⟩

def intOid : SysctlOid := ⟨ctltypeInt ||| ctlflagRw, some .kfioSysctlTypeProc, "I"⟩

def uintOid : SysctlOid := ⟨ctltypeUint ||| ctlflagRd, some .kfioSysctlTypeProc, "IU"⟩

theorem writes_follow_mode_counter :
    WritesFollowMode userKernel storeHandler counterNode uintOid [1, 0, 0, 0] :=
  (writes_follow_mode userKernel storeHandler (by decide) rfl [1, 0, 0, 0]).mpr (by decide)

/-- The one is written through, and the other refuses new data. -/
theorem readOnly_written :
    (nodeOid readOnlyNode = some intOid ∧ ¬ readOnlyNode.Writable ∧
      (serveRequests userKernel storeHandler readOnlyNode intOid ⟨[1, 0, 0, 0], []⟩
        [writeRequest readOnlyNode]).driver = [0, 0, 0, 0] ∧
      ¬ WritesFollowMode userKernel storeHandler readOnlyNode intOid [1, 0, 0, 0]) ∧
    nodeOid settableNode = some uintOid ∧ settableNode.Writable ∧
      sysctlRefuses uintOid (writeRequest settableNode).req = true ∧
      ¬ WritesFollowMode userKernel storeHandler settableNode uintOid [1, 0, 0, 0] := by
  refine ⟨⟨rfl, by decide, by decide, ?_⟩, rfl, by decide, by decide, ?_⟩
  · intro h
    have hmode : ¬ readOnlyNode.Writable := by decide
    apply hmode
    apply h.reached.mp
    exact ⟨[writeRequest readOnlyNode], _, List.mem_singleton.mpr rfl, rfl⟩
  · intro h
    have haccept := h.accepted (by decide) (writeRequest settableNode).req (by decide)
    exact absurd haccept (by decide)

end IomemoryVsl.Kinfo
