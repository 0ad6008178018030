import IomemoryVsl.Kinfo.TypeProc

/-!
# What a request leaves in a numeric node (`kinfo.c`)

`kfio_sysctl_type_proc` exchanges the value of a numeric node before it copies the old one out, so
that a request whose copy-out fails has already taken effect.  Of new data it fetches as much as the
node holds and does not ask whether there is more.
-/

namespace IomemoryVsl.Kinfo

open Kblock Kscatter

/-- The nodes that the second half of `kfio_sysctl_type_proc` serves. -/
def InfoNode.Numeric (node : InfoNode) : Prop :=
  node.type ∈ [InfoType.int32, .uint32, .uint64]

instance (node : InfoNode) : Decidable node.Numeric :=
  inferInstanceAs (Decidable (_ ∈ _))

/-- A kernel whose copy-in leaves the caller's buffer for the old value alone. -/
structure ExchangeKernel extends SysctlKernel where
  in_frame : ∀ req l, (sysctlIn req l).2.2.oldptr = req.oldptr ∧
    (sysctlIn req l).2.2.oldidx = req.oldidx ∧ (sysctlIn req l).2.2.copied = req.copied

/-- A handler of one value: a command that fails has no effect, and one that succeeds hands the
value over and takes the new one, if it comes with one. -/
structure ValueHandler (σ : Type) where
  handler : TypeHandler σ
  stored : σ → List UInt8
  failed : ∀ d cmd, (handler d cmd).1 ≠ 0 → stored (handler d cmd).2.2 = stored d
  read : ∀ d oldval, (handler d (.read oldval)).1 = 0 →
    (handler d (.read oldval)).2.1 = { oldval with data := stored d } ∧
      stored (handler d (.read oldval)).2.2 = stored d
  rdwr : ∀ d oldval newval, (handler d (.rdwr oldval newval)).1 = 0 →
    (handler d (.rdwr oldval newval)).2.1 = { oldval with data := stored d } ∧
      stored (handler d (.rdwr oldval newval)).2.2 = newval.data

/-- The caller has been given the value; one that has passed no buffer is told its size only. -/
structure Received (value : List UInt8) (req req' : SysctlReq) : Prop where
  counted : req'.oldidx = req.oldidx + UInt64.ofNat value.length
  copied : req.oldptr = true → req'.copied = req.copied ++ value

/-- The new data that comes with a request and has not been fetched yet, all of it. -/
def SysctlReq.newData (req : SysctlReq) : Option (List UInt8) :=
  req.newptr.map fun new ↦ new.drop req.newidx.toNat

section Exchange

variable {σ : Type} (k : ExchangeKernel) (h : ValueHandler σ)

/-- A request fails without an effect, or it succeeds altogether. -/
structure AllOrNothing (node : InfoNode) (vmalloc : Bool) (req : SysctlReq) (s : InfoState σ) :
    Prop where
  failed : (kfioSysctlTypeProc k.toSysctlKernel h.handler node vmalloc req s).1 ≠ 0 →
    h.stored (kfioSysctlTypeProc k.toSysctlKernel h.handler node vmalloc req s).2.2.driver =
      h.stored s.driver
  received : (kfioSysctlTypeProc k.toSysctlKernel h.handler node vmalloc req s).1 = 0 →
    Received (h.stored s.driver) req
      (kfioSysctlTypeProc k.toSysctlKernel h.handler node vmalloc req s).2.1
  updated : (kfioSysctlTypeProc k.toSysctlKernel h.handler node vmalloc req s).1 = 0 →
    ∀ new, req.newData = some new →
      h.stored (kfioSysctlTypeProc k.toSysctlKernel h.handler node vmalloc req s).2.2.driver = new

/-- New data that differs from the value has been fetched and accepted by the handler, and the old
value cannot be copied out. -/
structure OldValueLost (node : InfoNode) (req : SysctlReq) (s : InfoState σ) : Prop where
  given : req.newptr ≠ none
  fetched : (k.sysctlIn req node.size.toUInt64).1 = 0
  accepted : (h.handler s.driver (.rdwr ⟨node.type, node.size, []⟩
    ⟨node.type, node.size, (k.sysctlIn req node.size.toUInt64).2.1⟩)).1 = 0
  differs : (k.sysctlIn req node.size.toUInt64).2.1 ≠ h.stored s.driver
  notCopied : (k.sysctlOut (k.sysctlIn req node.size.toUInt64).2.2 (h.stored s.driver)).1 ≠ 0

/-- The new data is longer than the node; its beginning has been fetched and accepted by the
handler, and the old value can be copied out. -/
structure NewDataCut (node : InfoNode) (req : SysctlReq) (s : InfoState σ) : Prop where
  longer : ∃ new, req.newData = some new ∧ node.size.toUInt64.toNat < new.length
  fetched : (k.sysctlIn req node.size.toUInt64).1 = 0
  accepted : (h.handler s.driver (.rdwr ⟨node.type, node.size, []⟩
    ⟨node.type, node.size, (k.sysctlIn req node.size.toUInt64).2.1⟩)).1 = 0
  copied : (k.sysctlOut (k.sysctlIn req node.size.toUInt64).2.2 (h.stored s.driver)).1 = 0

end Exchange

/-! ## The steps of the branch -/

theorem SysctlReq.newptr_of_newData {req : SysctlReq} {new : List UInt8}
    (hnew : req.newData = some new) : req.newptr ≠ none := by
  intro hnone
  unfold SysctlReq.newData at hnew
  rw [hnone] at hnew
  cases hnew

theorem positiveErrno_ne_zero (rc : Int32) : positiveErrno rc ≠ 0 ↔ rc ≠ 0 := by
  unfold positiveErrno
  split_ifs with hneg
  · exact Int32.neg_ne_zero
  · rfl

section Steps

variable {σ : Type} {k : ExchangeKernel} {h : ValueHandler σ} {node : InfoNode} {req : SysctlReq}
  {s : InfoState σ}

theorem kfioSysctlTypeProc_numeric (hnode : node.Numeric) (vmalloc : Bool) :
    kfioSysctlTypeProc k.toSysctlKernel h.handler node vmalloc req s =
      typeProcNumber k.toSysctlKernel h.handler node req s := by
  unfold kfioSysctlTypeProc
  unfold InfoNode.Numeric at hnode
  revert hnode
  cases node.type <;> intro hnode <;> first | rfl | simp at hnode

/-- The old value is not copied out when it could not be had. -/
theorem typeProcNumber_unfetched
    (hrc : (typeProcFetch k.toSysctlKernel h.handler node req s).1 ≠ 0) :
    typeProcNumber k.toSysctlKernel h.handler node req s =
      (positiveErrno (typeProcFetch k.toSysctlKernel h.handler node req s).1,
        (typeProcFetch k.toSysctlKernel h.handler node req s).2.2.1,
        (typeProcFetch k.toSysctlKernel h.handler node req s).2.2.2) := by
  unfold typeProcNumber
  dsimp only
  rw [if_neg hrc]

/-- The old value that is copied out is the one that was stored. -/
theorem typeProcFetch_oldvalue
    (hrc : (typeProcFetch k.toSysctlKernel h.handler node req s).1 = 0) :
    (typeProcFetch k.toSysctlKernel h.handler node req s).2.1 =
      ⟨node.type, node.size, h.stored s.driver⟩ := by
  revert hrc
  unfold typeProcFetch kfioInfoGenericTypeHandler
  dsimp only
  split_ifs with hgiven hin
  · exact fun hrc ↦ (h.rdwr _ _ _ hrc).1
  · exact fun hrc ↦ absurd hrc hin
  · exact fun hrc ↦ (h.read _ _ hrc).1

/-- The old value cannot be had: nothing has happened to it. -/
theorem typeProcFetch_failed
    (hrc : (typeProcFetch k.toSysctlKernel h.handler node req s).1 ≠ 0) :
    h.stored (typeProcFetch k.toSysctlKernel h.handler node req s).2.2.2.driver =
      h.stored s.driver := by
  revert hrc
  unfold typeProcFetch kfioInfoGenericTypeHandler
  dsimp only
  split_ifs with hgiven hin
  · exact h.failed _ _
  · exact fun _ ↦ rfl
  · exact h.failed _ _

/-- Without new data the value stays. -/
theorem typeProcFetch_kept (hnone : req.newptr = none)
    (hrc : (typeProcFetch k.toSysctlKernel h.handler node req s).1 = 0) :
    h.stored (typeProcFetch k.toSysctlKernel h.handler node req s).2.2.2.driver =
      h.stored s.driver := by
  revert hrc
  unfold typeProcFetch kfioInfoGenericTypeHandler
  rw [if_neg (not_not.mpr hnone)]
  exact fun hrc ↦ (h.read _ _ hrc).2

/-- With new data the value is replaced before anything is copied out. -/
theorem typeProcFetch_replaced (hgiven : req.newptr ≠ none)
    (hrc : (typeProcFetch k.toSysctlKernel h.handler node req s).1 = 0) :
    h.stored (typeProcFetch k.toSysctlKernel h.handler node req s).2.2.2.driver =
      (k.sysctlIn req node.size.toUInt64).2.1 := by
  revert hrc
  unfold typeProcFetch kfioInfoGenericTypeHandler
  rw [if_pos hgiven]
  dsimp only
  split_ifs with hin
  · exact fun hrc ↦ (h.rdwr _ _ _ hrc).2
  · exact fun hrc ↦ absurd hrc hin

/-- The old value can only be had once the new one has been fetched. -/
theorem typeProcFetch_fetched (hgiven : req.newptr ≠ none)
    (hrc : (typeProcFetch k.toSysctlKernel h.handler node req s).1 = 0) :
    (k.sysctlIn req node.size.toUInt64).1 = 0 := by
  revert hrc
  unfold typeProcFetch
  dsimp only
  rw [if_pos hgiven]
  split_ifs with hin
  · exact fun _ ↦ hin
  · exact id

/-- The new value is as much of the new data as the node holds. -/
theorem typeProcFetch_newData {new : List UInt8} (hnew : req.newData = some new)
    (hrc : (typeProcFetch k.toSysctlKernel h.handler node req s).1 = 0) :
    h.stored (typeProcFetch k.toSysctlKernel h.handler node req s).2.2.2.driver =
      new.take node.size.toUInt64.toNat := by
  have hgiven := SysctlReq.newptr_of_newData hnew
  obtain ⟨all, hall, hdrop⟩ := Option.map_eq_some_iff.mp hnew
  rw [typeProcFetch_replaced hgiven hrc, ← hdrop]
  exact k.in_data req _ all hall (typeProcFetch_fetched hgiven hrc)

/-- Until then the buffer for the old value is as the caller has passed it. -/
theorem typeProcFetch_frame :
    (typeProcFetch k.toSysctlKernel h.handler node req s).2.2.1.oldptr = req.oldptr ∧
      (typeProcFetch k.toSysctlKernel h.handler node req s).2.2.1.oldidx = req.oldidx ∧
      (typeProcFetch k.toSysctlKernel h.handler node req s).2.2.1.copied = req.copied := by
  unfold typeProcFetch
  dsimp only
  split_ifs with hgiven hin
  · exact k.in_frame req _
  · exact k.in_frame req _
  · exact ⟨rfl, rfl, rfl⟩

/-- The copy-out of a value that could be had decides what the request returns. -/
theorem typeProcNumber_fetched
    (hsize : (h.stored s.driver).length = node.size.toUInt64.toNat)
    (hrc : (typeProcFetch k.toSysctlKernel h.handler node req s).1 = 0) :
    typeProcNumber k.toSysctlKernel h.handler node req s =
      (positiveErrno (k.sysctlOut (typeProcFetch k.toSysctlKernel h.handler node req s).2.2.1
          (h.stored s.driver)).1,
        (k.sysctlOut (typeProcFetch k.toSysctlKernel h.handler node req s).2.2.1
          (h.stored s.driver)).2,
        (typeProcFetch k.toSysctlKernel h.handler node req s).2.2.2) := by
  unfold typeProcNumber
  dsimp only
  rw [if_pos hrc, typeProcFetch_oldvalue hrc]
  dsimp only
  rw [List.take_of_length_le (show (h.stored s.driver).length ≤ node.size.toUInt64.toNat
    from Nat.le_of_eq hsize)]

/-- What a successful copy-out has given the caller. -/
theorem sysctlOut_received {req' : SysctlReq} {value : List UInt8}
    (hframe : req'.oldptr = req.oldptr ∧ req'.oldidx = req.oldidx ∧ req'.copied = req.copied)
    (hout : (k.sysctlOut req' value).1 = 0) : Received value req (k.sysctlOut req' value).2 := by
  refine ⟨?_, ?_⟩
  · rw [k.out_oldidx, hframe.2.1]
  · intro hold
    rw [k.out_copies req' value (hframe.1.trans hold) hout, hframe.2.2]

/-- New data that could be fetched is for the handler to accept. -/
theorem typeProcFetch_given (hgiven : req.newptr ≠ none)
    (hin : (k.sysctlIn req node.size.toUInt64).1 = 0) :
    (typeProcFetch k.toSysctlKernel h.handler node req s).1 =
        (h.handler s.driver (.rdwr ⟨node.type, node.size, []⟩
          ⟨node.type, node.size, (k.sysctlIn req node.size.toUInt64).2.1⟩)).1 ∧
      (typeProcFetch k.toSysctlKernel h.handler node req s).2.2.1 =
        (k.sysctlIn req node.size.toUInt64).2.2 := by
  unfold typeProcFetch kfioInfoGenericTypeHandler
  dsimp only
  rw [if_pos hgiven, if_pos hin]
  exact ⟨rfl, rfl⟩

/-- The request that fails too late, by its steps. -/
theorem oldValueLost_iff : OldValueLost k h node req s ↔
    req.newptr ≠ none ∧ (typeProcFetch k.toSysctlKernel h.handler node req s).1 = 0 ∧
      (k.sysctlOut (typeProcFetch k.toSysctlKernel h.handler node req s).2.2.1
        (h.stored s.driver)).1 ≠ 0 ∧
      h.stored (typeProcFetch k.toSysctlKernel h.handler node req s).2.2.2.driver ≠
        h.stored s.driver := by
  constructor
  · intro hlost
    have ⟨hrc, hreq⟩ := @typeProcFetch_given σ k h node req s hlost.given hlost.fetched
    have hfetched := hrc.trans hlost.accepted
    rw [hreq, typeProcFetch_replaced hlost.given hfetched]
    exact ⟨hlost.given, hfetched, hlost.notCopied, hlost.differs⟩
  · intro ⟨hgiven, hfetched, hout, hdiffers⟩
    have hin := typeProcFetch_fetched hgiven hfetched
    have ⟨hrc, hreq⟩ := @typeProcFetch_given σ k h node req s hgiven hin
    rw [typeProcFetch_replaced hgiven hfetched] at hdiffers
    rw [hreq] at hout
    exact ⟨hgiven, hin, hrc.symm.trans hfetched, hdiffers, hout⟩

/-- The request whose new data is cut, by its steps. -/
theorem newDataCut_iff : NewDataCut k h node req s ↔
    (∃ new, req.newData = some new ∧ node.size.toUInt64.toNat < new.length) ∧
      (typeProcFetch k.toSysctlKernel h.handler node req s).1 = 0 ∧
      (k.sysctlOut (typeProcFetch k.toSysctlKernel h.handler node req s).2.2.1
        (h.stored s.driver)).1 = 0 := by
  constructor
  · intro hcut
    obtain ⟨new, hnew, -⟩ := hcut.longer
    have ⟨hrc, hreq⟩ :=
      @typeProcFetch_given σ k h node req s (SysctlReq.newptr_of_newData hnew) hcut.fetched
    rw [hreq]
    exact ⟨hcut.longer, hrc.trans hcut.accepted, hcut.copied⟩
  · intro ⟨hlonger, hfetched, hout⟩
    obtain ⟨new, hnew, -⟩ := id hlonger
    have hgiven := SysctlReq.newptr_of_newData hnew
    have hin := typeProcFetch_fetched hgiven hfetched
    have ⟨hrc, hreq⟩ := @typeProcFetch_given σ k h node req s hgiven hin
    rw [hreq] at hout
    exact ⟨hlonger, hin, hrc.symm.trans hfetched, hout⟩

/-- A value that has been exchanged and copied out is the new data unless that was cut. -/
theorem typeProcFetch_updated_iff
    (hrc : (typeProcFetch k.toSysctlKernel h.handler node req s).1 = 0) :
    (∀ new, req.newData = some new →
      h.stored (typeProcFetch k.toSysctlKernel h.handler node req s).2.2.2.driver = new) ↔
      ¬ ∃ new, req.newData = some new ∧ node.size.toUInt64.toNat < new.length := by
  constructor
  · rintro hupdated ⟨new, hnew, hlonger⟩
    have htake := (typeProcFetch_newData hnew hrc).symm.trans (hupdated new hnew)
    have hlen := congrArg List.length htake
    rw [List.length_take] at hlen
    omega
  · intro hfits new hnew
    rw [typeProcFetch_newData hnew hrc]
    apply List.take_of_length_le
    by_contra hlonger
    exact hfits ⟨new, hnew, Nat.not_le.mp hlonger⟩

/-- A request on a numeric node fails without an effect or succeeds altogether, exactly when it is
neither one whose old value cannot be copied out once the new one is there nor one that succeeds
with more new data than the node holds. -/
theorem numeric_all_or_nothing (k : ExchangeKernel) (h : ValueHandler σ) (hnode : node.Numeric)
    (vmalloc : Bool) (req : SysctlReq) (s : InfoState σ)
    (hsize : (h.stored s.driver).length = node.size.toUInt64.toNat) :
    AllOrNothing k h node vmalloc req s ↔
      ¬ OldValueLost k h node req s ∧ ¬ NewDataCut k h node req s := by
  have hproc := @kfioSysctlTypeProc_numeric σ k h node req s hnode vmalloc
  rw [oldValueLost_iff, newDataCut_iff]
  by_cases hrc : (typeProcFetch k.toSysctlKernel h.handler node req s).1 = 0
  · rw [typeProcNumber_fetched hsize hrc] at hproc
    by_cases hout : (k.sysctlOut (typeProcFetch k.toSysctlKernel h.handler node req s).2.2.1
        (h.stored s.driver)).1 = 0
    · -- everything has succeeded, and the new data may have been cut
      have hzero : (kfioSysctlTypeProc k.toSysctlKernel h.handler node vmalloc req s).1 = 0 := by
        rw [hproc]
        dsimp only
        rw [hout]
        decide
      have hupdated := typeProcFetch_updated_iff hrc
      constructor
      · intro hsound
        refine ⟨fun hlost ↦ hlost.2.2.1 hout, fun hcut ↦ hupdated.mp ?_ hcut.1⟩
        have hnew := hsound.updated hzero
        rw [hproc] at hnew
        exact hnew
      · intro ⟨_, hcut⟩
        refine ⟨fun hne ↦ absurd hzero hne, fun _ ↦ ?_, fun _ ↦ ?_⟩
        · rw [hproc]
          exact sysctlOut_received typeProcFetch_frame hout
        · rw [hproc]
          exact hupdated.mpr fun hlonger ↦ hcut ⟨hlonger, hrc, hout⟩
    · -- the value has been exchanged, and the request fails
      have hne : (kfioSysctlTypeProc k.toSysctlKernel h.handler node vmalloc req s).1 ≠ 0 := by
        rw [hproc]
        exact (positiveErrno_ne_zero _).mpr hout
      constructor
      · intro hsound
        refine ⟨fun hlost ↦ hlost.2.2.2 ?_, fun hcut ↦ hout hcut.2.2⟩
        have hkept := hsound.failed hne
        rw [hproc] at hkept
        exact hkept
      · intro ⟨hlost, _⟩
        refine ⟨fun _ ↦ ?_, fun hzero ↦ absurd hzero hne, fun hzero ↦ absurd hzero hne⟩
        rw [hproc]
        by_cases hgiven : req.newptr ≠ none
        · by_contra hdiffers
          exact hlost ⟨hgiven, hrc, hout, hdiffers⟩
        · exact typeProcFetch_kept (not_not.mp hgiven) hrc
  · -- the old value could not be had
    rw [typeProcNumber_unfetched hrc] at hproc
    have hne : (kfioSysctlTypeProc k.toSysctlKernel h.handler node vmalloc req s).1 ≠ 0 := by
      rw [hproc]
      exact (positiveErrno_ne_zero _).mpr hrc
    refine iff_of_true ⟨fun _ ↦ ?_, fun hzero ↦ absurd hzero hne, fun hzero ↦ absurd hzero hne⟩
      ⟨fun hlost ↦ hrc hlost.2.1, fun hcut ↦ hrc hcut.2.1⟩
    rw [hproc]
    exact typeProcFetch_failed hrc

/-- The branch for a string writes last: whatever fails, the value is as it was. -/
theorem typeProcString_failed (vmalloc : Bool)
    (hrc : (typeProcString k.toSysctlKernel h.handler node vmalloc req s).1 ≠ 0) :
    h.stored (typeProcString k.toSysctlKernel h.handler node vmalloc req s).2.2.driver =
      h.stored s.driver := by
  have hread : h.stored (h.handler s.driver (.read ⟨node.type, node.size, []⟩)).2.2 =
      h.stored s.driver := by
    by_cases hfail : (h.handler s.driver (.read ⟨node.type, node.size, []⟩)).1 = 0
    · exact (h.read _ _ hfail).2
    · exact h.failed _ _ hfail
  revert hrc
  unfold typeProcString kfioInfoGenericTypeHandler
  dsimp only
  split_ifs with hbig hfail hexchange hgiven
  · exact fun _ ↦ rfl
  · exact fun _ ↦ hread
  · exact fun _ ↦ hread
  · intro hrc
    exact (h.failed _ _ ((positiveErrno_ne_zero _).mp hrc)).trans hread
  · exact fun hrc ↦ absurd rfl hrc

end Steps

/-! The handler that keeps the bytes it is given, with a caller whose buffer is empty. -/

def userExchangeKernel : ExchangeKernel where
  toSysctlKernel := userKernel
  in_frame req l := by
    unfold userKernel
    dsimp only
    cases req.newptr with
    | none => exact ⟨rfl, rfl, rfl⟩
    | some new =>
      dsimp only
      split_ifs <;> exact ⟨rfl, rfl, rfl⟩

def storeValueHandler : ValueHandler (List UInt8) where
  handler := storeHandler
  stored := id
  failed d cmd hrc := by
    cases cmd <;> exact absurd rfl hrc
  read _ _ _ := ⟨rfl, rfl⟩
  rdwr _ _ _ _ := ⟨rfl, rfl⟩

def levelNode : InfoNode := ⟨"level", .int32, 0o644, 4⟩

/-- `sysctl` of a new value, with room for so many bytes of the old one. -/
def exchangeRequest (oldlen : UInt64) (new : List UInt8) : SysctlReq where
  oldptr := true
  oldlen := oldlen
  oldidx := 0
  copied := []
  newptr := some new
  newidx := 0
  newReadable := true

theorem numeric_all_or_nothing_room :
    AllOrNothing userExchangeKernel storeValueHandler levelNode true
      (exchangeRequest 4 [0, 0, 0, 0]) ⟨[1, 0, 0, 0], []⟩ := by
  apply (numeric_all_or_nothing userExchangeKernel storeValueHandler (by decide) true
    (exchangeRequest 4 [0, 0, 0, 0]) ⟨[1, 0, 0, 0], []⟩ (by decide)).mpr
  refine ⟨fun hlost ↦ absurd hlost.notCopied (by decide), fun hcut ↦ ?_⟩
  obtain ⟨new, hnew, hlonger⟩ := hcut.longer
  cases hnew
  exact absurd hlonger (by decide)

/-- Without room for the old value: `ENOMEM`, and the new one is there all the same.  With eight
bytes for a node of four: no error, and half of them are gone. -/
theorem exchange_not_all_or_nothing :
    ((kfioSysctlTypeProc userKernel storeHandler levelNode true
        (exchangeRequest 0 [0, 0, 0, 0]) ⟨[1, 0, 0, 0], []⟩).1 = ENOMEM ∧
      (kfioSysctlTypeProc userKernel storeHandler levelNode true
        (exchangeRequest 0 [0, 0, 0, 0]) ⟨[1, 0, 0, 0], []⟩).2.2.driver = [0, 0, 0, 0] ∧
      ¬ AllOrNothing userExchangeKernel storeValueHandler levelNode true
        (exchangeRequest 0 [0, 0, 0, 0]) ⟨[1, 0, 0, 0], []⟩) ∧
    (kfioSysctlTypeProc userKernel storeHandler levelNode true
        (exchangeRequest 4 [0, 0, 0, 0, 1, 0, 0, 0]) ⟨[1, 0, 0, 0], []⟩).1 = 0 ∧
      (kfioSysctlTypeProc userKernel storeHandler levelNode true
        (exchangeRequest 4 [0, 0, 0, 0, 1, 0, 0, 0]) ⟨[1, 0, 0, 0], []⟩).2.2.driver =
          [0, 0, 0, 0] ∧
      ¬ AllOrNothing userExchangeKernel storeValueHandler levelNode true
        (exchangeRequest 4 [0, 0, 0, 0, 1, 0, 0, 0]) ⟨[1, 0, 0, 0], []⟩ := by
  refine ⟨⟨by decide, by decide, ?_⟩, by decide, by decide, ?_⟩
  · intro hsound
    have hkept := hsound.failed (by decide)
    exact absurd hkept (by decide)
  · intro hsound
    have hnew := hsound.updated (by decide) [0, 0, 0, 0, 1, 0, 0, 0] rfl
    exact absurd hnew (by decide)

end IomemoryVsl.Kinfo
