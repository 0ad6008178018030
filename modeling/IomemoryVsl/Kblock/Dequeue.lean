import IomemoryVsl.Kblock.Disk

/-!
# One dequeue from call to return (`kblock.c`)

`kfio_block_dequeue_bio` as one thread runs it, with `bio_lock` as a flag that faults when it is
used out of turn.  What the other threads do to the queue while the lock is not held is a parameter.
-/

namespace IomemoryVsl.Kblock

open Kscatter
open Transition

/-- What goes wrong with a lock that is used out of turn. -/
inductive LockFault where
  | unlockNotHeld
  | lockHeld
deriving DecidableEq, Repr

/-- The disk as one dequeue sees it; `calls` are its calls out of the file. -/
structure QueueState where
  bioLock : Bool
  bioQueue : List BioId
  bios : BioId → Bio
  completions : List (BioId × Int32)
  calls : List KblockCall

def fusionCvUnlock (s : QueueState) : Except LockFault QueueState :=
  if s.bioLock then .ok { s with bioLock := false } else .error .unlockNotHeld

/-- `fusion_cv_lock`, before which the others have made `others q` of the queue `q`. -/
def fusionCvLock (s : QueueState) (others : List BioId → List BioId) :
    Except LockFault QueueState :=
  if s.bioLock then .error .lockHeld
  else .ok { s with bioLock := true, bioQueue := others s.bioQueue }

/-- `kfio_block_dequeue_bio`, and the fbio that it returns. -/
def kfioBlockDequeueBio (s : QueueState) (env : DequeueEnv) (others : List BioId → List BioId) :
    Except LockFault (QueueState × Option Fbio) :=
  match s.bioQueue with
  | [] => .ok (s, none)
  | b :: q => do
      let s ← fusionCvUnlock { s with bioQueue := q }
      let (bp, calls, exit) := dequeueBody b (s.bios b) env
      let s := { s with bios := Function.update s.bios b bp, calls := s.calls ++ calls }
      match exit with
      | .handedOut fbio => .ok (s, some fbio)
      | .finished error =>
          let s ← fusionCvLock { s with completions := s.completions ++ [(b, error)] } others
          .ok (s, none)
      | .requeue =>
          let s ← fusionCvLock s others
          .ok ({ s with bioQueue := b :: s.bioQueue }, none)

/-! ## The outcomes of one attempt -/

/-- The first of the two mapping steps that fails, as it reports its error. -/
def mappingFailure (env : DequeueEnv) : Option Int32 :=
  if env.mapBytes ≠ 0 then some env.mapBytes
  else if env.dmaMap > 0 then none
  else some env.dmaMap

/-- The first of the steps that fails, as it reports its error; `none` when all of them succeed. -/
def dequeueFailure (bp : Bio) (env : DequeueEnv) : Option Int32 :=
  match env.bioAlloc, bp.bioCmd with
  | none, _ => some (if env.shouldFail then EIO else ENOMEM)
  | some _, .delete => none
  | some _, .other _ => some ENOTSUP
  | some _, _ => mappingFailure env

/-- The request as an attempt that fails leaves it. -/
def restoredBio (bp : Bio) (error : Int32) : Bio :=
  { bp with
    bioDriver1 := bp.bioData
    bioResid := if error ≠ ENOMEM then bp.bioBcount else bp.bioResid }

/-- The bounce buffer of an attempt. -/
def dequeueTakes (bp : Bio) (env : DequeueEnv) : List KblockCall :=
  if bp.bioData &&& 7 ≠ 0 then [.vmalloc (bounceSize bp) env.vmalloc] else []

/-- What an attempt that fails has to give back, in the order in which it does. -/
def dequeueReleases (bp : Bio) (env : DequeueEnv) : List KblockCall :=
  (if bp.bioData &&& 7 ≠ 0 then [.vfree env.vmalloc (bounceSize bp)] else []) ++
    env.bioAlloc.toList.map .bioFree

def KblockCall.isVmalloc : KblockCall → Bool
  | .vmalloc _ _ => true
  | _ => false

/-- Neither takes nor gives back memory. -/
def KblockCall.IsWork : KblockCall → Prop
  | .vmalloc _ _ => False
  | .vfree _ _ => False
  | .bioFree _ => False
  | _ => True

variable {b : BioId} {bp : Bio} {env : DequeueEnv} {error : Int32}

theorem dequeueErrorExit_exit (f : Option FbioId) (calls : List KblockCall) :
    (dequeueErrorExit bp f error calls).2.2 =
      if error ≠ ENOMEM then .finished (positiveErrno error) else .requeue := by
  unfold dequeueErrorExit
  dsimp only
  by_cases herr : error ≠ ENOMEM
  · rw [if_pos herr, if_pos herr]
  · rw [if_neg herr, if_neg herr]

theorem dequeueErrorExit_resid (f : Option FbioId) (calls : List KblockCall)
    (herr : error ≠ ENOMEM) :
    (dequeueErrorExit bp f error calls).1.bioResid = bp.bioBcount := by
  unfold dequeueErrorExit
  dsimp only
  rw [if_pos herr]
  split <;> rfl

/-- The bounce buffer has another address than the buffer it stands in for, so the test at
`error_exit` finds it. -/
theorem dequeueErrorExit_bounce (hvmalloc : env.vmalloc &&& 7 = 0) (calls : List KblockCall) :
    dequeueErrorExit (dequeueBounce bp env.vmalloc).1 env.bioAlloc error calls =
      (restoredBio bp error, calls ++ dequeueReleases bp env,
        if error ≠ ENOMEM then .finished (positiveErrno error) else .requeue) := by
  unfold dequeueBounce dequeueErrorExit dequeueReleases restoredBio
  by_cases halign : bp.bioData &&& 7 ≠ 0
  -- one of the two addresses is aligned and the other is not
  · have hne : bp.bioData ≠ env.vmalloc := by
      intro heq
      rw [heq] at halign
      exact halign hvmalloc
    cases env.bioAlloc <;> by_cases herr : error ≠ ENOMEM <;> by_cases hw : bp.bioCmd = .write <;>
      simp [halign, hne, herr, hw, bounceSize]
  · cases env.bioAlloc <;> by_cases herr : error ≠ ENOMEM <;> simp [halign, herr]

theorem dequeueBounce_bioCmd (bp : Bio) (data : UInt64) :
    (dequeueBounce bp data).1.bioCmd = bp.bioCmd := by
  unfold dequeueBounce
  by_cases halign : bp.bioData &&& 7 ≠ 0 <;> by_cases hw : bp.bioCmd = .write <;> simp [halign, hw]

theorem dequeueBounce_bioBcount (bp : Bio) (data : UInt64) :
    (dequeueBounce bp data).1.bioBcount = bp.bioBcount := by
  unfold dequeueBounce
  by_cases halign : bp.bioData &&& 7 ≠ 0 <;> by_cases hw : bp.bioCmd = .write <;> simp [halign, hw]

theorem dequeueBounce_calls (bp : Bio) (env : DequeueEnv) :
    ∃ work : List KblockCall, (∀ c ∈ work, c.IsWork) ∧
      (dequeueBounce bp env.vmalloc).2 = dequeueTakes bp env ++ work := by
  unfold dequeueBounce dequeueTakes
  by_cases halign : bp.bioData &&& 7 = 0
  · exact ⟨[], List.forall_mem_nil _, by simp [halign]⟩
  · by_cases hw : bp.bioCmd = .write
    · refine ⟨[.memcpy env.vmalloc bp.bioData bp.bioBcount.toUInt64], ?_, ?_⟩
      · exact List.forall_mem_singleton.mpr trivial
      · simp [halign, hw, bounceSize]
    · exact ⟨[], List.forall_mem_nil _, by simp [halign, hw, bounceSize]⟩

/-- A read or a write fails at the first of its two mapping steps that fails. -/
theorem dequeueMap_failure (bp : Bio) (fbio : Fbio) (dir : Int32) (calls : List KblockCall)
    (hfail : mappingFailure env = some error) :
    ∃ work : List KblockCall, (∀ c ∈ work, c.IsWork) ∧
      dequeueMap bp fbio env dir calls =
        dequeueErrorExit bp (some fbio.id) error (calls ++ work) := by
  unfold mappingFailure at hfail
  unfold dequeueMap
  dsimp only
  by_cases hmap : env.mapBytes = 0
  · rw [if_neg (not_not.mpr hmap)] at hfail
    by_cases hdma : env.dmaMap > 0
    · rw [if_pos hdma] at hfail
      cases hfail
    · rw [if_neg hdma, Option.some.injEq] at hfail
      rw [if_pos hmap, if_neg hdma, hfail, List.append_assoc]
      refine ⟨_, ?_, rfl⟩
      intro c hc
      simp only [List.cons_append, List.nil_append, List.mem_cons, List.not_mem_nil,
        or_false] at hc
      rcases hc with rfl | rfl <;> trivial
  · rw [if_pos hmap, Option.some.injEq] at hfail
    rw [if_neg hmap, hfail]
    refine ⟨_, ?_, rfl⟩
    intro c hc
    rw [List.mem_singleton] at hc
    subst hc
    trivial

theorem dequeueMap_success (bp : Bio) (fbio : Fbio) (dir : Int32) (calls : List KblockCall)
    (hok : mappingFailure env = none) :
    (dequeueMap bp fbio env dir calls).2.2 = .handedOut fbio := by
  unfold mappingFailure at hok
  unfold dequeueMap
  dsimp only
  by_cases hmap : env.mapBytes = 0
  · rw [if_neg (not_not.mpr hmap)] at hok
    by_cases hdma : env.dmaMap > 0
    · rw [if_pos hmap, if_pos hdma]
    · rw [if_neg hdma] at hok
      cases hok
  · rw [if_pos hmap] at hok
    cases hok

/-- Every failure goes to `error_exit`, past the mapping steps. -/
theorem dequeueBody_failure (b : BioId) (hfail : dequeueFailure bp env = some error) :
    ∃ work : List KblockCall, (∀ c ∈ work, c.IsWork) ∧
      dequeueBody b bp env = dequeueErrorExit (dequeueBounce bp env.vmalloc).1 env.bioAlloc error
        ((dequeueBounce bp env.vmalloc).2 ++ work) := by
  unfold dequeueFailure at hfail
  unfold dequeueBody
  dsimp only
  rw [dequeueBounce_bioCmd]
  cases halloc : env.bioAlloc with
  | none =>
      rw [halloc, Option.some.injEq] at hfail
      subst hfail
      exact ⟨[], List.forall_mem_nil _, by rw [List.append_nil]⟩
  | some id =>
      rw [halloc] at hfail
      cases hcmd : bp.bioCmd with
      | delete => rw [hcmd] at hfail; cases hfail
      | other cmd =>
          rw [hcmd, Option.some.injEq] at hfail
          subst hfail
          exact ⟨[], List.forall_mem_nil _, by rw [List.append_nil]⟩
      | write => rw [hcmd] at hfail; exact dequeueMap_failure _ _ _ _ hfail
      | read => rw [hcmd] at hfail; exact dequeueMap_failure _ _ _ _ hfail

theorem dequeueBody_success (b : BioId) (hok : dequeueFailure bp env = none) :
    ∃ fbio, (dequeueBody b bp env).2.2 = .handedOut fbio := by
  unfold dequeueFailure at hok
  unfold dequeueBody
  dsimp only
  rw [dequeueBounce_bioCmd]
  cases halloc : env.bioAlloc with
  | none => rw [halloc] at hok; cases hok
  | some id =>
      rw [halloc] at hok
      cases hcmd : bp.bioCmd with
      | delete => exact ⟨_, rfl⟩
      | other cmd => rw [hcmd] at hok; cases hok
      | write => rw [hcmd] at hok; exact ⟨_, dequeueMap_success _ _ _ _ hok⟩
      | read => rw [hcmd] at hok; exact ⟨_, dequeueMap_success _ _ _ _ hok⟩

/-! ## From the call to the return -/

section Call

variable {s : QueueState} {q : List BioId} {others : List BioId → List BioId}

/-- The state in which the lock is asked for again, or in which an fbio is returned. -/
def QueueState.worked (s : QueueState) (b : BioId) (q : List BioId) (env : DequeueEnv) :
    QueueState :=
  { s with
    bioLock := false
    bioQueue := q
    bios := Function.update s.bios b (dequeueBody b (s.bios b) env).1
    calls := s.calls ++ (dequeueBody b (s.bios b) env).2.1 }

theorem kfioBlockDequeueBio_cons (hlock : s.bioLock = true) (hq : s.bioQueue = b :: q) :
    kfioBlockDequeueBio s env others = .ok
      (match (dequeueBody b (s.bios b) env).2.2 with
        | .handedOut fbio => (s.worked b q env, some fbio)
        | .finished error =>
            ({ s.worked b q env with
                bioLock := true
                bioQueue := others q
                completions := s.completions ++ [(b, error)] }, none)
        | .requeue =>
            ({ s.worked b q env with bioLock := true, bioQueue := b :: others q }, none)) := by
  unfold kfioBlockDequeueBio QueueState.worked
  rw [hq]
  simp only [bind, Except.bind, fusionCvUnlock, hlock, if_true]
  cases (dequeueBody b (s.bios b) env).2.2 <;> rfl

theorem kfioBlockDequeueBio_success (hlock : s.bioLock = true) (hq : s.bioQueue = b :: q)
    (hok : dequeueFailure (s.bios b) env = none) :
    ∃ fbio, kfioBlockDequeueBio s env others = .ok (s.worked b q env, some fbio) := by
  obtain ⟨fbio, hexit⟩ := dequeueBody_success b hok
  refine ⟨fbio, ?_⟩
  rw [kfioBlockDequeueBio_cons hlock hq, hexit]

theorem dequeueBody_failure_exit (b : BioId) (hfail : dequeueFailure bp env = some error) :
    (dequeueBody b bp env).2.2 =
      if error ≠ ENOMEM then .finished (positiveErrno error) else .requeue := by
  obtain ⟨work, -, hbody⟩ := dequeueBody_failure b hfail
  rw [hbody, dequeueErrorExit_exit]

theorem kfioBlockDequeueBio_finished (hlock : s.bioLock = true) (hq : s.bioQueue = b :: q)
    (hfail : dequeueFailure (s.bios b) env = some error) (herr : error ≠ ENOMEM) :
    kfioBlockDequeueBio s env others = .ok
      ({ s.worked b q env with
          bioLock := true
          bioQueue := others q
          completions := s.completions ++ [(b, positiveErrno error)] }, none) := by
  rw [kfioBlockDequeueBio_cons hlock hq, dequeueBody_failure_exit b hfail, if_pos herr]

theorem kfioBlockDequeueBio_requeue (hlock : s.bioLock = true) (hq : s.bioQueue = b :: q)
    (hfail : dequeueFailure (s.bios b) env = some ENOMEM) :
    kfioBlockDequeueBio s env others = .ok
      ({ s.worked b q env with bioLock := true, bioQueue := b :: others q }, none) := by
  rw [kfioBlockDequeueBio_cons hlock hq, dequeueBody_failure_exit b hfail,
    if_neg (not_not.mpr rfl)]

end Call

/-! ## Which failures are retried -/

/-- The mapping steps report success, or a failure as a negative errno. -/
structure DequeueEnv.Reports (env : DequeueEnv) : Prop where
  mapBytes : env.mapBytes = 0 ∨ ∃ e, 0 < e ∧ env.mapBytes = -e
  dmaMap : 0 < env.dmaMap ∨ ∃ e, 0 < e ∧ env.dmaMap = -e

/-- The functions of `kscatter.c` report in this way, whatever busdma answers with. -/
theorem reports_of_kscatter (env : DequeueEnv) (fsg fsg' : FreebsdSgl) (buffer : UInt64)
    (size : UInt32) (load : BusLoad) (log : BusLog) (dmap : Option KfioDmaMap) (dir : Int32)
    (hmap : env.mapBytes = (kfioSglMapBytes fsg buffer size).1)
    (hdma : env.dmaMap = (kfioSglDmaMap load log fsg' dmap dir).1) (hrc : 0 ≤ load.rc)
    (hload : load.rc = 0 → load.error = 0 ∧ 0 < load.nsegs) : env.Reports := by
  constructor
  · rw [hmap]
    unfold kfioSglMapBytes
    by_cases hfull : fsg.uioNum ≥ fsg.uioMax
    · rw [if_pos hfull]
      exact Or.inr ⟨ENOMEM, by decide, rfl⟩
    · rw [if_neg hfull]
      by_cases huser : fsg.uioNum ≠ 0 ∧ fsg.uioSegflg ≠ .sysspace
      · rw [if_pos huser]
        exact Or.inr ⟨ENOMEM, by decide, rfl⟩
      · rw [if_neg huser]
        exact Or.inl rfl
  · rw [hdma]
    unfold kfioSglDmaMap
    by_cases hok : load.rc = 0
    · obtain ⟨herr, hsegs⟩ := hload hok
      have hnum : (fusionDmamapCallback fsg' load.segs load.nsegs load.error).segNum =
          load.nsegs := by
        unfold fusionDmamapCallback
        rw [if_pos herr]
      dsimp only
      rw [if_neg (not_not.mpr hok), hnum]
      exact Or.inl hsegs
    · dsimp only
      rw [if_pos hok]
      exact Or.inr ⟨load.rc, Int32.lt_of_le_of_ne hrc (Ne.symm hok), rfl⟩

/-- An errno, as the driver sets it or as its functions return it. -/
def Signs (errno error : Int32) : Prop := error = errno ∨ error = -errno

/-- The request `b`, with `q` behind it on the queue, goes back to the head of the queue if its
failure is a shortage of memory, and is finished once with the errno of any other failure. -/
def RetriesOutOfMemory (s : QueueState) (b : BioId) (q : List BioId) (env : DequeueEnv)
    (others : List BioId → List BioId) : Prop :=
  ∃ t r, kfioBlockDequeueBio s env others = .ok (t, r) ∧
    ((r = none ∧ t.bioQueue = b :: others q ∧ t.completions = s.completions) ↔
      ∃ error, dequeueFailure (s.bios b) env = some error ∧ Signs ENOMEM error) ∧
    ∀ error, dequeueFailure (s.bios b) env = some error → ¬ Signs ENOMEM error →
      ∃ errno, 0 < errno ∧ Signs errno error ∧ r = none ∧ t.bioQueue = others q ∧
        t.completions = s.completions ++ [(b, errno)] ∧
        (t.bios b).bioResid = (s.bios b).bioBcount

/-- A read or a write whose mapping runs out of memory. -/
def MappingOutOfMemory (bp : Bio) (env : DequeueEnv) : Prop :=
  env.bioAlloc.isSome = true ∧ (bp.bioCmd = .read ∨ bp.bioCmd = .write) ∧
    (env.mapBytes = -ENOMEM ∨ env.mapBytes = 0 ∧ env.dmaMap = -ENOMEM)

theorem positiveErrno_neg {e : Int32} (he : 0 < e) : positiveErrno (-e) = e := by
  have hpos : 0 < e.toInt := Int32.lt_iff_toInt_lt.mp he
  have hle : e.toInt < 2 ^ 31 := Int32.toInt_lt e
  have hlt : -e < 0 := by
    rw [Int32.lt_iff_toInt_lt, Int32.toInt_neg, Int.bmod_eq_of_le (by omega) (by omega)]
    show -e.toInt < 0
    omega
  unfold positiveErrno
  rw [if_pos hlt, Int32.neg_neg]

theorem signs_positiveErrno (error : Int32) : Signs (positiveErrno error) error := by
  unfold positiveErrno
  by_cases hlt : error < 0
  · rw [if_pos hlt]
    exact Or.inr Int32.neg_neg.symm
  · rw [if_neg hlt]
    exact Or.inl rfl

theorem mappingFailure_pos (henv : env.Reports) (hfail : mappingFailure env = some error) :
    0 < positiveErrno error := by
  unfold mappingFailure at hfail
  by_cases hmap : env.mapBytes = 0
  · rw [if_neg (not_not.mpr hmap)] at hfail
    by_cases hdma : env.dmaMap > 0
    · rw [if_pos hdma] at hfail
      cases hfail
    · rw [if_neg hdma, Option.some.injEq] at hfail
      obtain ⟨e, he, hneg⟩ := henv.dmaMap.resolve_left hdma
      rw [← hfail, hneg, positiveErrno_neg he]
      exact he
  · rw [if_pos hmap, Option.some.injEq] at hfail
    obtain ⟨e, he, hneg⟩ := henv.mapBytes.resolve_left hmap
    rw [← hfail, hneg, positiveErrno_neg he]
    exact he

/-- Every source of a failure has a positive errno. -/
theorem dequeueFailure_pos (henv : env.Reports) (hfail : dequeueFailure bp env = some error) :
    0 < positiveErrno error := by
  unfold dequeueFailure at hfail
  cases halloc : env.bioAlloc with
  | none =>
      rw [halloc, Option.some.injEq] at hfail
      subst hfail
      cases env.shouldFail <;> decide
  | some id =>
      rw [halloc] at hfail
      cases hcmd : bp.bioCmd with
      | delete => rw [hcmd] at hfail; cases hfail
      | other cmd =>
          rw [hcmd, Option.some.injEq] at hfail
          subst hfail
          decide
      | write => rw [hcmd] at hfail; exact mappingFailure_pos henv hfail
      | read => rw [hcmd] at hfail; exact mappingFailure_pos henv hfail

theorem mappingFailure_neg_enomem :
    mappingFailure env = some (-ENOMEM) ↔
      env.mapBytes = -ENOMEM ∨ env.mapBytes = 0 ∧ env.dmaMap = -ENOMEM := by
  unfold mappingFailure
  by_cases hmap : env.mapBytes = 0
  · have hne : (0 : Int32) ≠ -ENOMEM := by decide
    rw [if_neg (not_not.mpr hmap), hmap]
    by_cases hdma : env.dmaMap > 0
    · have hdne : env.dmaMap ≠ -ENOMEM := by
        intro heq
        rw [heq] at hdma
        exact absurd hdma (by decide)
      simp [hdma, hne, hdne]
    · simp [hdma, hne]
  · simp [hmap]

theorem mappingOutOfMemory_iff :
    MappingOutOfMemory bp env ↔ dequeueFailure bp env = some (-ENOMEM) := by
  unfold MappingOutOfMemory dequeueFailure
  cases env.bioAlloc with
  | none =>
      have hne : (if env.shouldFail = true then EIO else ENOMEM) ≠ -ENOMEM := by
        cases env.shouldFail <;> decide
      simp [hne]
  | some id =>
      have hne : ENOTSUP ≠ -ENOMEM := by decide
      rw [← mappingFailure_neg_enomem]
      cases bp.bioCmd <;> simp [hne]

section Retry

variable {s : QueueState} {q : List BioId} {others : List BioId → List BioId}

/-- The test at `error_exit` knows `ENOMEM` only with the sign that the allocation gives it. -/
theorem not_retries_of_mapping (hlock : s.bioLock = true) (hq : s.bioQueue = b :: q)
    (hmap : MappingOutOfMemory (s.bios b) env) : ¬ RetriesOutOfMemory s b q env others := by
  have hfail := mappingOutOfMemory_iff.mp hmap
  rintro ⟨t, r, hcall, hiff, -⟩
  rw [kfioBlockDequeueBio_finished hlock hq hfail (by decide), Except.ok.injEq,
    Prod.mk.injEq] at hcall
  obtain ⟨rfl, rfl⟩ := hcall
  -- the request is finished, which `RetriesOutOfMemory` rules out for this errno
  have hkept := (hiff.mpr ⟨-ENOMEM, hfail, Or.inr rfl⟩).2.2
  exact absurd hkept (by simp)

theorem retries_of_not_mapping (hlock : s.bioLock = true) (hq : s.bioQueue = b :: q)
    (henv : env.Reports) (hmap : ¬ MappingOutOfMemory (s.bios b) env) :
    RetriesOutOfMemory s b q env others := by
  rw [mappingOutOfMemory_iff] at hmap
  cases hfail : dequeueFailure (s.bios b) env with
  | none =>
      obtain ⟨fbio, hcall⟩ := @kfioBlockDequeueBio_success b env s q others hlock hq hfail
      refine ⟨_, _, hcall, ?_, ?_⟩
      · simp [hfail]
      · simp [hfail]
  | some error =>
      by_cases herr : error = ENOMEM
      · subst herr
        refine ⟨_, _, kfioBlockDequeueBio_requeue hlock hq hfail, ?_, ?_⟩
        · exact iff_of_true ⟨rfl, rfl, rfl⟩ ⟨ENOMEM, hfail, Or.inl rfl⟩
        · intro e he hne
          rw [hfail, Option.some.injEq] at he
          exact absurd (Or.inl he.symm) hne
      -- any other failure that counts as a shortage would be a mapping step's
      · have hmag : ¬ Signs ENOMEM error := by
          rintro (heq | heq)
          · exact herr heq
          · exact hmap (by rw [hfail, heq])
        refine ⟨_, _, kfioBlockDequeueBio_finished hlock hq hfail herr, ?_, ?_⟩
        · refine iff_of_false ?_ ?_
          · simp
          · rintro ⟨e, he, heq⟩
            rw [hfail, Option.some.injEq] at he
            subst he
            exact hmag heq
        · intro e he _
          rw [hfail, Option.some.injEq] at he
          subst he
          refine ⟨_, dequeueFailure_pos henv hfail, signs_positiveErrno error, rfl, rfl, rfl, ?_⟩
          obtain ⟨work, -, hbody⟩ := dequeueBody_failure b hfail
          show (Function.update s.bios b (dequeueBody b (s.bios b) env).1 b).bioResid = _
          rw [Function.update_self, hbody, dequeueErrorExit_resid _ _ herr,
            dequeueBounce_bioBcount]

end Retry

/-- An attempt treats its failure as it should unless one of the mapping steps has run out of
memory: that is reported as `-ENOMEM`, and the request is finished instead of retried. -/
theorem dequeue_retries_outOfMemory (s : QueueState) (b : BioId) (q : List BioId)
    (env : DequeueEnv) (others : List BioId → List BioId) (hlock : s.bioLock = true)
    (hq : s.bioQueue = b :: q) (henv : env.Reports) :
    RetriesOutOfMemory s b q env others ↔ ¬ MappingOutOfMemory (s.bios b) env := by
  constructor
  · intro hretries hmap
    exact not_retries_of_mapping hlock hq hmap hretries
  · exact retries_of_not_mapping hlock hq henv

/-! An aligned read whose only trouble is that busdma has no memory for the mapping. -/

def dmaEnomemEnv : DequeueEnv := ⟨0, some 7, false, 0, -ENOMEM⟩

def sampleQueue : QueueState := ⟨true, [1, 2], fun _ ↦ sampleBio, [], []⟩

theorem dmaEnomemEnv_reports : dmaEnomemEnv.Reports :=
  ⟨Or.inl rfl, Or.inr ⟨ENOMEM, by decide, rfl⟩⟩

theorem dequeue_finishes_dmaEnomem :
    dmaEnomemEnv.Reports ∧
      (kfioBlockDequeueBio sampleQueue dmaEnomemEnv id).map
        (fun r ↦ (r.1.bioQueue, r.1.completions, r.2)) = .ok ([2], [(1, ENOMEM)], none) ∧
      ¬ RetriesOutOfMemory sampleQueue 1 [2] dmaEnomemEnv id :=
  ⟨dmaEnomemEnv_reports, by decide,
    not_retries_of_mapping rfl rfl ⟨rfl, Or.inl rfl, Or.inr ⟨rfl, rfl⟩⟩⟩

def retryEnv : DequeueEnv := ⟨0, none, false, 0, 1⟩

theorem dequeue_retries_outOfMemory_noFbio :
    dequeueFailure sampleBio retryEnv = some ENOMEM ∧
      RetriesOutOfMemory sampleQueue 1 [2] retryEnv id := by
  have hreports : retryEnv.Reports := ⟨Or.inl rfl, Or.inl (by decide)⟩
  refine ⟨rfl, (dequeue_retries_outOfMemory sampleQueue 1 [2] retryEnv id rfl rfl hreports).mpr ?_⟩
  rintro ⟨halloc, -, -⟩
  cases halloc

/-! ## What a dequeue holds when it returns -/

/-- Whatever was taken on the way has been given back once. -/
structure ReleasedOnce (bp : Bio) (env : DequeueEnv) (calls : List KblockCall) : Prop where
  bounce : ∀ p size, calls.count (.vfree p size) = calls.count (.vmalloc size p)
  bounced : calls.countP KblockCall.isVmalloc = if bp.bioData &&& 7 ≠ 0 then 1 else 0
  fbio : ∀ id, calls.count (.bioFree id) = if env.bioAlloc = some id then 1 else 0

theorem releasedOnce_of_work {work : List KblockCall} (hwork : ∀ c ∈ work, c.IsWork) :
    ReleasedOnce bp env (dequeueTakes bp env ++ work ++ dequeueReleases bp env) := by
  have hfree : ∀ p size, work.count (.vfree p size) = 0 :=
    fun p size ↦ List.count_eq_zero_of_not_mem fun hmem ↦ hwork _ hmem
  have hmalloc : ∀ p size, work.count (.vmalloc size p) = 0 :=
    fun p size ↦ List.count_eq_zero_of_not_mem fun hmem ↦ hwork _ hmem
  have hbio : ∀ id, work.count (.bioFree id) = 0 :=
    fun id ↦ List.count_eq_zero_of_not_mem fun hmem ↦ hwork _ hmem
  have hnone : work.countP KblockCall.isVmalloc = 0 := by
    rw [List.countP_eq_zero]
    intro c hc htrue
    cases c with
    | vmalloc size p => exact hwork _ hc
    | _ => cases htrue
  unfold dequeueTakes dequeueReleases
  constructor
  · intro p size
    cases env.bioAlloc <;> by_cases halign : bp.bioData &&& 7 = 0 <;>
      simp [halign, hfree, hmalloc, List.count_cons, and_comm]
  · cases env.bioAlloc <;> by_cases halign : bp.bioData &&& 7 = 0 <;>
      simp [halign, hnone, List.countP_cons, KblockCall.isVmalloc]
  · intro id
    cases env.bioAlloc <;> by_cases halign : bp.bioData &&& 7 = 0 <;>
      simp [halign, hbio, List.count_cons]

/-- A failed attempt leaves the request as it was, but for its saved pointer and its residue. -/
theorem dequeueBody_released (b : BioId) (hvmalloc : env.vmalloc &&& 7 = 0)
    (hfail : dequeueFailure bp env = some error) :
    (dequeueBody b bp env).1 = restoredBio bp error ∧
      ReleasedOnce bp env (dequeueBody b bp env).2.1 := by
  obtain ⟨mapping, hmapping, hbody⟩ := dequeueBody_failure b hfail
  obtain ⟨copy, hcopy, htakes⟩ := dequeueBounce_calls bp env
  rw [hbody, dequeueErrorExit_bounce hvmalloc, htakes, List.append_assoc _ copy]
  refine ⟨rfl, releasedOnce_of_work ?_⟩
  intro c hc
  exact (List.mem_append.mp hc).elim (hcopy c) (hmapping c)

/-- An attempt does not depend on the pointer that an earlier one has saved. -/
theorem dequeueBody_bioDriver1 (b : BioId) (bp : Bio) (saved : UInt64) (env : DequeueEnv) :
    dequeueBody b { bp with bioDriver1 := saved } env = dequeueBody b bp env := rfl

section Return

variable {s : QueueState} {q : List BioId} {others : List BioId → List BioId}

/-- The next call does not see that an earlier one has put the request back. -/
theorem kfioBlockDequeueBio_again (hlock : s.bioLock = true) (hq : s.bioQueue = b :: q)
    (saved : UInt64) (calls : List KblockCall) :
    kfioBlockDequeueBio
        { s with
          bios := Function.update s.bios b { s.bios b with bioDriver1 := saved }
          calls := calls } env others =
      kfioBlockDequeueBio { s with calls := calls } env others := by
  have hworked : QueueState.worked
      { s with
        bios := Function.update s.bios b { s.bios b with bioDriver1 := saved }
        calls := calls } b q env = QueueState.worked { s with calls := calls } b q env := by
    unfold QueueState.worked
    dsimp only
    rw [Function.update_self, dequeueBody_bioDriver1, Function.update_idem]
  rw [kfioBlockDequeueBio_cons (s := { s with
    bios := Function.update s.bios b { s.bios b with bioDriver1 := saved }
    calls := calls }) hlock hq, kfioBlockDequeueBio_cons (s := { s with calls := calls }) hlock hq,
    hworked]
  dsimp only
  rw [Function.update_self, dequeueBody_bioDriver1]

theorem dequeue_returns_empty (hq : s.bioQueue = []) :
    kfioBlockDequeueBio s env others = .ok (s, none) := by
  unfold kfioBlockDequeueBio
  rw [hq]

end Return

/-- The request `b`, with `q` behind it on the queue, is to be tried again. -/
structure Requeued (s t : QueueState) (b : BioId) (q : List BioId)
    (others : List BioId → List BioId) : Prop where
  head : t.bioQueue = b :: others q
  fields : t.bios = Function.update s.bios b
    { s.bios b with bioDriver1 := (s.bios b).bioData }
  queue : others q = q → t.bioQueue = s.bioQueue
  again : others q = q → ∀ env others', kfioBlockDequeueBio t env others' =
    kfioBlockDequeueBio { s with calls := t.calls } env others'

/-- What a call that returns `NULL` has done with the request it took. -/
structure GivenUp (s t : QueueState) (b : BioId) (q : List BioId) (env : DequeueEnv)
    (others : List BioId → List BioId) (calls : List KblockCall) : Prop where
  released : ReleasedOnce (s.bios b) env calls
  bioData : (t.bios b).bioData = (s.bios b).bioData
  requeued : t.completions = s.completions → Requeued s t b q others

theorem givenUp_of_finished {s : QueueState} {q : List BioId} {others : List BioId → List BioId}
    (hvmalloc : env.vmalloc &&& 7 = 0) (hfail : dequeueFailure (s.bios b) env = some error) :
    GivenUp s { s.worked b q env with
        bioLock := true
        bioQueue := others q
        completions := s.completions ++ [(b, positiveErrno error)] } b q env others
      (dequeueBody b (s.bios b) env).2.1 := by
  obtain ⟨hbio, hreleased⟩ := dequeueBody_released b hvmalloc hfail
  refine ⟨hreleased, ?_, ?_⟩
  · show (Function.update s.bios b (dequeueBody b (s.bios b) env).1 b).bioData = _
    rw [Function.update_self, hbio]
    rfl
  · intro hkept
    exact absurd hkept (by simp)

theorem givenUp_of_requeue {s : QueueState} {q : List BioId} {others : List BioId → List BioId}
    (hlock : s.bioLock = true) (hq : s.bioQueue = b :: q) (hvmalloc : env.vmalloc &&& 7 = 0)
    (hfail : dequeueFailure (s.bios b) env = some ENOMEM) :
    GivenUp s { s.worked b q env with bioLock := true, bioQueue := b :: others q } b q env others
      (dequeueBody b (s.bios b) env).2.1 := by
  obtain ⟨hbio, hreleased⟩ := dequeueBody_released b hvmalloc hfail
  have hworked : (s.worked b q env).bios =
      Function.update s.bios b { s.bios b with bioDriver1 := (s.bios b).bioData } := by
    show Function.update s.bios b (dequeueBody b (s.bios b) env).1 = _
    rw [hbio]
    rfl
  refine ⟨hreleased, ?_, ?_⟩
  · show ((s.worked b q env).bios b).bioData = _
    rw [hworked, Function.update_self]
  · intro _
    refine ⟨rfl, hworked, ?_, ?_⟩
    · intro hothers
      show b :: others q = s.bioQueue
      rw [hothers, hq]
    · intro hothers env' others'
      rw [← kfioBlockDequeueBio_again hlock hq (s.bios b).bioData]
      -- the two calls start in the same state
      congr 1
      unfold QueueState.worked at hworked ⊢
      dsimp only at hworked ⊢
      rw [hworked, hothers, hlock, hq]

/-- A dequeue that is entered with the lock held returns with it held exactly when it returns
`NULL`.  Then everything it took has been given back once, the request has its buffer again, and a
request that is to be retried is at the head of the queue, as if nobody had tried it. -/
theorem dequeue_returns (s : QueueState) (env : DequeueEnv) (others : List BioId → List BioId)
    (hlock : s.bioLock = true) (hvmalloc : env.vmalloc &&& 7 = 0) :
    ∃ t r calls, kfioBlockDequeueBio s env others = .ok (t, r) ∧ t.calls = s.calls ++ calls ∧
      (t.bioLock = true ↔ r = none) ∧ (s.bioQueue = [] → t = s) ∧
      ∀ b q, s.bioQueue = b :: q → r = none → GivenUp s t b q env others calls := by
  cases hq : s.bioQueue with
  | nil =>
      refine ⟨s, none, [], dequeue_returns_empty hq, (List.append_nil _).symm, ?_, ?_, ?_⟩
      · simp [hlock]
      · intro _
        rfl
      · intro b q hcons
        cases hcons
  | cons b q =>
      cases hfail : dequeueFailure (s.bios b) env with
      | none =>
          obtain ⟨fbio, hcall⟩ := @kfioBlockDequeueBio_success b env s q others hlock hq hfail
          refine ⟨_, _, _, hcall, rfl, ?_, ?_, ?_⟩
          · simp [QueueState.worked]
          · intro hnil
            cases hnil
          · intro b' q' _ hnone
            cases hnone
      | some error =>
          -- out of memory is tried again later, every other failure ends the request
          by_cases herr : error = ENOMEM
          · subst herr
            refine ⟨_, _, _, kfioBlockDequeueBio_requeue hlock hq hfail, rfl, ?_, ?_, ?_⟩
            · simp
            · intro hnil
              cases hnil
            · intro b' q' hcons _
              cases hcons
              exact givenUp_of_requeue hlock hq hvmalloc hfail
          · refine ⟨_, _, _, kfioBlockDequeueBio_finished hlock hq hfail herr, rfl, ?_, ?_, ?_⟩
            · simp
            · intro hnil
              cases hnil
            · intro b' q' hcons _
              cases hcons
              exact givenUp_of_finished hvmalloc hfail

/-! An unaligned read that is put back because there is no fbio for it. -/

def unalignedQueue : QueueState := ⟨true, [1, 2], fun _ ↦ ⟨.read, 4097, 512, 0, 0, 0⟩, [], []⟩

theorem dequeue_returns_unaligned :
    ∃ t calls, kfioBlockDequeueBio unalignedQueue { retryEnv with vmalloc := 8192 } id =
        .ok (t, none) ∧ t.bioQueue = [1, 2] ∧ calls = [.vmalloc 519 8192, .vfree 8192 519] ∧
      GivenUp unalignedQueue t 1 [2] { retryEnv with vmalloc := 8192 } id calls := by
  obtain ⟨t, r, calls, hcall, hcalls, -, -, hgiven⟩ :=
    dequeue_returns unalignedQueue { retryEnv with vmalloc := 8192 } id rfl (by decide)
  have hrun : kfioBlockDequeueBio unalignedQueue { retryEnv with vmalloc := 8192 } id =
      .ok (_, none) := kfioBlockDequeueBio_requeue rfl rfl rfl
  rw [hrun, Except.ok.injEq, Prod.mk.injEq] at hcall
  obtain ⟨rfl, rfl⟩ := hcall
  exact ⟨_, calls, hrun, rfl, hcalls.symm, hgiven 1 [2] rfl rfl⟩

/-! ## The steps of a dequeue on its own -/

/-- The disk as a dequeue sees it that is called with the lock held. -/
def DiskState.queueState (s : DiskState) : QueueState :=
  ⟨true, s.bioQueue, s.bios, s.completions, []⟩

/-- The steps that one call takes when it starts with the calls `s.dequeues` in progress. -/
def dequeueSteps (s : DiskState) (env : DequeueEnv) (returned : Option Fbio) : List DiskEvent :=
  [.dequeueTake, .dequeueRun s.dequeues.length env] ++
    if returned = none then [.dequeueRelock s.dequeues.length] else []

theorem dequeueTake_cons {s : DiskState} {q : List BioId} (hq : s.bioQueue = b :: q) :
    dequeueTake s = { s with bioQueue := q, dequeues := s.dequeues ++ [⟨b, .held⟩] } := by
  unfold dequeueTake
  rw [hq]

/-- The steps of the disk add up to one call when nothing comes in between. -/
theorem dequeueSteps_call (s : DiskState) (q : List BioId) (env : DequeueEnv)
    (hq : s.bioQueue = b :: q) (hfresh : ∀ id ∈ env.bioAlloc, id ∉ s.fbios.map Fbio.id) :
    ∃ t r, kfioBlockDequeueBio s.queueState env id = .ok (t, r) ∧
      run diskStep s (dequeueSteps s env r) = some
        { s with
          bioQueue := t.bioQueue
          bios := t.bios
          completions := t.completions
          fbios := s.fbios ++ r.toList } := by
  have hget : (s.dequeues ++ [(⟨b, .held⟩ : DequeueCall)])[s.dequeues.length]? =
      some ⟨b, .held⟩ := by simp
  have htake : diskStep s .dequeueTake =
      some { s with bioQueue := q, dequeues := s.dequeues ++ [⟨b, .held⟩] } := by
    rw [diskStep, dequeueTake_cons hq]
  have hrun : diskStep { s with bioQueue := q, dequeues := s.dequeues ++ [⟨b, .held⟩] }
      (.dequeueRun s.dequeues.length env) =
        some (dequeueRun { s with bioQueue := q, dequeues := s.dequeues ++ [⟨b, .held⟩] }
          s.dequeues.length ⟨b, .held⟩ env) := by
    rw [diskStep]
    dsimp only
    rw [hget, Option.bind_some, if_pos ⟨rfl, hfresh⟩]
  -- the slot of the call is the last one, so ending it leaves the others where they were
  have herase : ∀ c : DequeueCall, (s.dequeues ++ [c]).eraseIdx s.dequeues.length =
      s.dequeues := by
    intro c
    rw [List.eraseIdx_append_of_length_le (Nat.le_refl _), Nat.sub_self]
    exact List.append_nil _
  have hcall := @kfioBlockDequeueBio_cons b env s.queueState q id rfl hq
  have hbody : (dequeueBody b (s.queueState.bios b) env).2.2 = (dequeueBody b (s.bios b) env).2.2 :=
    rfl
  cases hexit : (dequeueBody b (s.bios b) env).2.2 with
  | handedOut fbio =>
      rw [hbody, hexit] at hcall
      refine ⟨_, _, hcall, ?_⟩
      show run diskStep s [.dequeueTake, .dequeueRun s.dequeues.length env] = _
      rw [run_cons, htake, Option.bind_some, run_cons, hrun, Option.bind_some, run_nil]
      unfold dequeueRun
      dsimp only
      rw [hexit]
      simp only [setBio, herase]
      rfl
  | finished error =>
      rw [hbody, hexit] at hcall
      refine ⟨_, _, hcall, ?_⟩
      show run diskStep s [.dequeueTake, .dequeueRun s.dequeues.length env,
        .dequeueRelock s.dequeues.length] = _
      rw [run_cons, htake, Option.bind_some, run_cons, hrun, Option.bind_some, run_cons]
      unfold dequeueRun
      dsimp only
      rw [hexit]
      simp [diskStep, dequeueRelock, setBio, biofinish, QueueState.worked, DiskState.queueState,
        herase]
  | requeue =>
      rw [hbody, hexit] at hcall
      refine ⟨_, _, hcall, ?_⟩
      show run diskStep s [.dequeueTake, .dequeueRun s.dequeues.length env,
        .dequeueRelock s.dequeues.length] = _
      rw [run_cons, htake, Option.bind_some, run_cons, hrun, Option.bind_some, run_cons]
      unfold dequeueRun
      dsimp only
      rw [hexit]
      simp [diskStep, dequeueRelock, setBio, QueueState.worked, DiskState.queueState, herase]

end IomemoryVsl.Kblock
