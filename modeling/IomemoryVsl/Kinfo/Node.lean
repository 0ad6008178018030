import IomemoryVsl.Kblock.Bio
import Mathlib.Tactic.SplitIfs

/-!
# Info nodes and their sysctl oids (`kinfo.c`)

What a node asks for and what `kfio_info_os_create_node` registers for it; and a sysctl request,
with what the kernel does for the handler of one.
-/

namespace IomemoryVsl.Kinfo

open Kblock Kscatter

def EPERM : Int32 := 1
def EFAULT : Int32 := 14
def EINVAL : Int32 := 22

/-- `KFIO_INFO_DIR` to `KFIO_INFO_SEQFILE`. -/
inductive InfoType where
  | dir
  | int32
  | uint32
  | uint64
  | string
  | text
  | seqfile
  | other (type : Int32)
deriving DecidableEq, Repr

/-- The fields of `struct kfio_info_node` that the port reads. -/
structure InfoNode where
  name : String
  type : InfoType
  mode : Int32
  size : Int64
deriving DecidableEq, Repr

/-- `S_IWUGO` -/
def sIwugo : Int32 := 0o222

def InfoNode.Writable (node : InfoNode) : Prop :=
  node.mode &&& sIwugo ≠ 0

instance (node : InfoNode) : Decidable node.Writable :=
  inferInstanceAs (Decidable (_ ≠ _))

/-- The kinds of node that `kfio_sysctl_type_proc` serves. -/
def InfoNode.Typed (node : InfoNode) : Prop :=
  node.type ∈ [InfoType.int32, .uint32, .uint64, .string]

instance (node : InfoNode) : Decidable node.Typed :=
  inferInstanceAs (Decidable (_ ∈ _))

/-! ## Oids -/

def ctlflagRd : UInt32 := 0x80000000
def ctlflagWr : UInt32 := 0x40000000
def ctlflagRw : UInt32 := ctlflagRd ||| ctlflagWr
def ctlflagMpsafe : UInt32 := 0x00040000

def ctltypeNode : UInt32 := 1
def ctltypeInt : UInt32 := 2
def ctltypeString : UInt32 := 3
def ctltypeUint : UInt32 := 6
def ctltypeUlong : UInt32 := 8

inductive SysctlProc where
  | kfioSysctlTypeProc
  | kfioSysctlTextProc
deriving DecidableEq, Repr

/-- What an oid is registered with, beside its name and its node. -/
structure SysctlOid where
  kind : UInt32
  proc : Option SysctlProc
  fmt : String
deriving DecidableEq, Repr

/-- The access that `kfio_info_os_create_node` works out from the mode, and does not use. -/
def ctlMode (node : InfoNode) : UInt32 :=
  let ctlMode := ctlflagRd ||| ctlflagMpsafe
  if node.mode &&& sIwugo ≠ 0 then ctlMode ||| ctlflagWr else ctlMode

/-- The oid that `kfio_info_os_create_node` registers, if the type is one it knows. -/
def nodeOid (node : InfoNode) : Option SysctlOid :=
  match node.type with
  | .dir => some ⟨ctltypeNode ||| ctlflagRd, none, "N"⟩
  | .int32 => some ⟨ctltypeInt ||| ctlflagRw, some .kfioSysctlTypeProc, "I"⟩
  | .uint32 => some ⟨ctltypeUint ||| ctlflagRd, some .kfioSysctlTypeProc, "IU"⟩
  | .uint64 => some ⟨ctltypeUlong ||| ctlflagRd, some .kfioSysctlTypeProc, "LU"⟩
  | .string => some ⟨ctltypeString ||| ctlflagRd, some .kfioSysctlTypeProc, "A"⟩
  | .text => some ⟨ctltypeString ||| ctlflagRd, some .kfioSysctlTextProc, "A"⟩
  | .seqfile => some ⟨ctltypeString ||| ctlflagRd, some .kfioSysctlTextProc, "A"⟩
  | .other _ => none

/-! ## Requests -/

/-- `struct sysctl_req`; `copied` is what has been copied to `oldptr`. -/
structure SysctlReq where
  oldptr : Bool
  oldlen : UInt64
  oldidx : UInt64
  copied : List UInt8
  /-- the new data, all `newlen` bytes of it -/
  newptr : Option (List UInt8)
  newidx : UInt64
  /-- whether the memory behind `newptr` can be read -/
  newReadable : Bool
deriving DecidableEq, Repr

/-- The bytes that `oldptr` has left. -/
def SysctlReq.room (req : SysctlReq) : UInt64 :=
  req.oldlen - req.oldidx

/-- What the kernel does for a handler. -/
structure SysctlKernel where
  sysctlIn : SysctlReq → UInt64 → Int32 × List UInt8 × SysctlReq
  sysctlOut : SysctlReq → List UInt8 → Int32 × SysctlReq
  sysctlHandleString : SysctlReq → List UInt8 → Int64 → Int32 × List UInt8 × SysctlReq
  in_newptr : ∀ req l, (sysctlIn req l).2.2.newptr = req.newptr
  in_enough : ∀ req l new, req.newptr = some new → req.newReadable = true →
    req.newidx.toNat + l.toNat ≤ new.length → (sysctlIn req l).1 = 0
  in_data : ∀ req l new, req.newptr = some new → (sysctlIn req l).1 = 0 →
    (sysctlIn req l).2.1 = (new.drop req.newidx.toNat).take l.toNat
  out_oldidx : ∀ req data,
    (sysctlOut req data).2.oldidx = req.oldidx + UInt64.ofNat data.length
  out_frame : ∀ req data, (sysctlOut req data).2.oldptr = req.oldptr ∧
    (sysctlOut req data).2.oldlen = req.oldlen ∧ (sysctlOut req data).2.newptr = req.newptr
  out_probe : ∀ req data, req.oldptr = false →
    (sysctlOut req data).1 = 0 ∧ (sysctlOut req data).2.copied = req.copied
  out_fits : ∀ req data, req.oldptr = true → req.oldidx ≤ req.oldlen →
    data.length ≤ req.room.toNat → (sysctlOut req data).1 = 0 ∨ (sysctlOut req data).1 = EFAULT
  out_copies : ∀ req data, req.oldptr = true → (sysctlOut req data).1 = 0 →
    (sysctlOut req data).2.copied = req.copied ++ data
  string_newptr : ∀ req data size, (sysctlHandleString req data size).2.2.newptr = req.newptr

/-- The transfers of a request all of whose memory is there. -/
def userKernel : SysctlKernel where
  sysctlIn req l :=
    match req.newptr with
    | none => (0, [], req)
    | some new =>
        if new.length - req.newidx.toNat < l.toNat then (EINVAL, [], req)
        else if req.newReadable then
          (0, (new.drop req.newidx.toNat).take l.toNat, { req with newidx := req.newidx + l })
        else (EFAULT, [], { req with newidx := req.newidx + l })
  sysctlOut req data :=
    let oldidx := req.oldidx + UInt64.ofNat data.length
    if req.oldptr then
      let copied := req.copied ++ data.take req.room.toNat
      (if req.room.toNat < data.length then ENOMEM else 0,
        { req with oldidx := oldidx, copied := copied })
    else (0, { req with oldidx := oldidx })
  sysctlHandleString req data _ := (0, data, req)
  in_newptr req l := by
    split
    · rfl
    · split_ifs <;> rfl
  in_enough req l new hnew hreadable hlen := by
    rw [hnew]
    dsimp only
    rw [if_neg (by omega), if_pos hreadable]
  in_data req l new hnew := by
    rw [hnew]
    dsimp only
    split_ifs
    · intro h
      cases h
    · intro _
      rfl
    · intro h
      cases h
  out_oldidx req data := by
    dsimp only
    split_ifs <;> rfl
  out_frame req data := by
    dsimp only
    split_ifs <;> exact ⟨rfl, rfl, rfl⟩
  out_probe req data hnull := by
    rw [hnull]
    exact ⟨rfl, rfl⟩
  out_fits req data hold _ hfit := by
    rw [hold]
    exact Or.inl (if_neg (by omega))
  out_copies req data hold := by
    rw [hold]
    intro h
    have hroom : ¬ req.room.toNat < data.length := by
      intro hlt
      rw [if_pos rfl] at h
      dsimp only at h
      rw [if_pos hlt] at h
      cases h
    show req.copied ++ data.take req.room.toNat = req.copied ++ data
    rw [List.take_of_length_le (by omega)]
  string_newptr req data size := rfl

/-- New data for an oid that is not writable gets `EPERM` before any handler is called. -/
def sysctlRefuses (oid : SysctlOid) (req : SysctlReq) : Bool :=
  req.newptr.isSome && oid.kind &&& ctlflagWr = 0

end IomemoryVsl.Kinfo
