import IomemoryVsl.Kscatter.Sgl
import IomemoryVsl.Lib.Run

/-!
# The life of a scatter-gather list

Appending, loading, unloading and resetting in any order, from `kfio_sgl_alloc_nvec` to
`kfio_sgl_destroy`.  Next to the list runs a record of where each of its entries came from; the code
keeps one tag for all of them.
-/

namespace IomemoryVsl.Kscatter

/-! ## Appending -/

/-- What an append may do to a list: it fills in entries behind the recorded ones and leaves the
mapping alone. -/
structure Appends (fsg fsg' : FreebsdSgl) : Prop where
  uioMax : fsg'.uioMax = fsg.uioMax
  segPtr : fsg'.segPtr = fsg.segPtr
  segNum : fsg'.segNum = fsg.segNum
  dmaTag : fsg'.dmaTag = fsg.dmaTag
  dmaMap : fsg'.dmaMap = fsg.dmaMap
  grows : fsg.uioNum.toNat ≤ fsg'.uioNum.toNat
  fits : fsg.uioNum ≤ fsg.uioMax → fsg'.uioNum ≤ fsg'.uioMax
  keeps : ∀ i < fsg.uioNum.toNat, fsg'.uioVec i = fsg.uioVec i

theorem Appends.refl (fsg : FreebsdSgl) : Appends fsg fsg :=
  ⟨rfl, rfl, rfl, rfl, rfl, le_rfl, id, fun _ _ ↦ rfl⟩

theorem Appends.trans {fsg₁ fsg₂ fsg₃ : FreebsdSgl} (h : Appends fsg₁ fsg₂)
    (h' : Appends fsg₂ fsg₃) : Appends fsg₁ fsg₃ where
  uioMax := h'.uioMax.trans h.uioMax
  segPtr := h'.segPtr.trans h.segPtr
  segNum := h'.segNum.trans h.segNum
  dmaTag := h'.dmaTag.trans h.dmaTag
  dmaMap := h'.dmaMap.trans h.dmaMap
  grows := h.grows.trans h'.grows
  fits := fun hle ↦ h'.fits (h.fits hle)
  keeps := fun i hi ↦ (h'.keeps i (hi.trans_le h.grows)).trans (h.keeps i hi)

theorem Appends.entries {fsg fsg' : FreebsdSgl} (h : Appends fsg fsg') :
    fsg.entries <+: fsg'.entries := by
  obtain ⟨k, hk⟩ := Nat.exists_eq_add_of_le h.grows
  have hmap : (List.range fsg.uioNum.toNat).map fsg'.uioVec = fsg.entries :=
    List.map_congr_left fun i hi ↦ h.keeps i (List.mem_range.mp hi)
  unfold FreebsdSgl.entries
  rw [hk, List.range_add, List.map_append, hmap]
  exact List.prefix_append _ _

theorem record_uioNum {fsg : FreebsdSgl} {base : UInt64} {len : UInt32}
    (h : fsg.uioNum < fsg.uioMax) : (fsg.record base len).uioNum.toNat = fsg.uioNum.toNat + 1 := by
  have hlt := UInt32.lt_iff_toNat_lt.mp h
  have hmax := fsg.uioMax.toNat_lt
  simp only [FreebsdSgl.record, UInt32.toNat_add, UInt32.reduceToNat]
  omega

/-- Recording an entry appends it, as long as there is room. -/
theorem record_appends {fsg : FreebsdSgl} {base : UInt64} {len : UInt32}
    (h : fsg.uioNum < fsg.uioMax) : Appends fsg (fsg.record base len) where
  uioMax := rfl
  segPtr := rfl
  segNum := rfl
  dmaTag := rfl
  dmaMap := rfl
  grows := by rw [record_uioNum h]; omega
  fits := fun _ ↦ by
    have hlt := UInt32.lt_iff_toNat_lt.mp h
    rw [UInt32.le_iff_toNat_le, record_uioNum h]
    exact hlt
  keeps := fun i hi ↦ Function.update_of_ne (Nat.ne_of_lt hi) _ _

/-- Appends leave the tag alone or write it when the list is unmarked. -/
theorem Appends.retag {fsg fsg' : FreebsdSgl} (h : Appends fsg fsg') (segflg : UioSeg)
    (td : Option Thread) : Appends fsg { fsg' with uioSegflg := segflg, uioTd := td } :=
  ⟨h.uioMax, h.segPtr, h.segNum, h.dmaTag, h.dmaMap, h.grows, h.fits, h.keeps⟩

theorem kfioSglMapBytes_appends (fsg : FreebsdSgl) (buffer : UInt64) (size : UInt32) :
    Appends fsg (kfioSglMapBytes fsg buffer size).2 := by
  unfold kfioSglMapBytes
  split
  · exact .refl fsg
  · rename_i hroom
    split
    · exact .refl fsg
    · exact (record_appends (by simpa using hroom)).retag _ _

/-- The page loop ends, appends, and leaves the tag alone. -/
theorem mapUserPagesLoop_spec (pages : ℕ → UInt64) {fuel : ℕ} (fsg : FreebsdSgl) (p : ℕ)
    (size offset : UInt32) (hfuel : fsg.uioMax.toNat - fsg.uioNum.toNat < fuel) :
    ∃ rc fsg' p', mapUserPagesLoop pages fuel fsg p size offset = .ok (rc, fsg', p') ∧
      Appends fsg fsg' ∧ fsg'.uioSegflg = fsg.uioSegflg ∧ fsg'.uioTd = fsg.uioTd := by
  -- the fuel is more than the room left on the list, and each turn takes some of both
  induction fuel generalizing fsg p size offset with
  | zero => omega
  | succ fuel ih =>
      rw [mapUserPagesLoop]
      split
      · split
        · exact ⟨_, fsg, p, rfl, .refl fsg, rfl, rfl⟩
        · rename_i hroom
          have hlt : fsg.uioNum < fsg.uioMax := by simpa using hroom
          have hnat := UInt32.lt_iff_toNat_lt.mp hlt
          obtain ⟨rc, fsg', p', heq, happ, hseg, htd⟩ :=
            ih (fsg.record (pages p + offset.toUInt64) (mappedBytes size offset)) (p + 1)
              (size - mappedBytes size offset) 0 (by
                rw [record_uioNum hlt]
                simp only [FreebsdSgl.record]
                omega)
          exact ⟨rc, fsg', p', heq, (record_appends hlt).trans happ, hseg, htd⟩
      · exact ⟨_, fsg, p, rfl, .refl fsg, rfl, rfl⟩

/-- `kfio_sgl_map_user_pages` always returns.  Unless it refuses the tag, the list is tagged with
the calling thread afterwards. -/
theorem kfioSglMapUserPages_spec (fsg : FreebsdSgl) (pages : ℕ → UInt64) (size offset : UInt32)
    (curthread : Thread) :
    ∃ rc fsg' p, kfioSglMapUserPages fsg pages size offset curthread = .ok (rc, fsg', p) ∧
      Appends fsg fsg' ∧
      (fsg' = fsg ∨ fsg'.uioSegflg = .userspace ∧ fsg'.uioTd = some curthread ∧
        (fsg.uioNum ≠ 0 → fsg.uioSegflg = .userspace ∧ fsg.uioTd = some curthread)) := by
  unfold kfioSglMapUserPages
  split
  · exact ⟨_, fsg, 0, rfl, .refl fsg, .inl rfl⟩
  · rename_i hseg
    split
    · exact ⟨_, fsg, 0, rfl, .refl fsg, .inl rfl⟩
    · rename_i htd
      obtain ⟨rc, fsg', p, heq, happ, hseg', htd'⟩ := mapUserPagesLoop_spec pages
        { fsg with uioSegflg := .userspace, uioTd := some curthread } 0 size offset
        (Nat.lt_succ_self (fsg.uioMax.toNat - fsg.uioNum.toNat))
      refine ⟨rc, fsg', p, heq, ((Appends.refl fsg).retag _ _).trans happ,
        .inr ⟨hseg', htd', fun hne ↦ ?_⟩⟩
      simp only [hne, ne_eq, not_false_eq_true, true_and, not_not] at hseg htd
      exact ⟨hseg, htd⟩

/-! ## The operations as one system -/

/-- Where an entry came from. -/
structure Origin where
  segflg : UioSeg
  td : Option Thread
deriving DecidableEq, Repr

/-- A list, the calls made for it so far, and the origins of its recorded entries in order. -/
structure SglState where
  fsg : FreebsdSgl
  log : BusLog
  origins : List Origin

inductive SglEvent where
  | mapBytes (buffer : UInt64) (size : UInt32)
  | mapPage (page : UInt64) (offset size : UInt32)
  | mapUserPages (pages : ℕ → UInt64) (size offset : UInt32) (curthread : Thread)
  | dmaMap (load : BusLoad) (dmap : Option KfioDmaMap) (dir : Int32)
  | dmaUnmap
  | reset

def SglEvent.appends : SglEvent → Bool
  | .mapBytes .. | .mapPage .. | .mapUserPages .. => true
  | _ => false

/-- The callback of a load is told whether it succeeded, and a success has a segment. -/
def BusLoad.Told (load : BusLoad) : Prop :=
  load.rc = 0 ∧ load.error = 0 ∧ load.nsegs ≠ 0 ∧ load.nsegs.toInt = load.segs.length ∨
    load.rc ≠ 0 ∧ load.error ≠ 0

instance (load : BusLoad) : Decidable load.Told := inferInstanceAs (Decidable (_ ∨ _))

/-- The list after an append, with the origin of what it added. -/
def SglState.appended (s : SglState) (fsg : FreebsdSgl) (origin : Origin) : SglState :=
  { s with
    fsg := fsg
    origins := s.origins ++ List.replicate (fsg.uioNum.toNat - s.fsg.uioNum.toNat) origin }

def sglStep (s : SglState) : SglEvent → Option SglState
  | .mapBytes buffer size =>
      some (s.appended (kfioSglMapBytes s.fsg buffer size).2 ⟨.sysspace, none⟩)
  | .mapPage page offset size =>
      some (s.appended (kfioSglMapPage s.fsg page offset size).2 ⟨.sysspace, none⟩)
  | .mapUserPages pages size offset curthread =>
      match kfioSglMapUserPages s.fsg pages size offset curthread with
      | .ok (_, fsg, _) => some (s.appended fsg ⟨.userspace, some curthread⟩)
      | .error _ => none
  | .dmaMap load dmap dir =>
      -- a map is loaded once at a time
      if s.fsg.segPtr = none ∧ load.Told then
        let (_, log, fsg, _) := kfioSglDmaMap load s.log s.fsg dmap dir
        some { s with fsg := fsg, log := log }
      else none
  | .dmaUnmap =>
      let (log, fsg) := kfioSglDmaUnmap s.log s.fsg
      some { s with fsg := fsg, log := log }
  | .reset =>
      let (log, fsg) := kfioSglReset s.log s.fsg
      some { fsg := fsg, log := log, origins := [] }

/-- Whether busdma has the map loaded, from the calls made so far, newest first. -/
def mapLoaded (tag : Option DmaTag) (map : Option DmaMap) : BusLog → Bool
  | [] => false
  | .loadUio tag' map' _ rc :: log =>
      if tag' = tag ∧ map' = map then rc = 0 else mapLoaded tag map log
  | .unload tag' map' :: log =>
      if tag' = tag ∧ map' = map then false else mapLoaded tag map log
  | _ :: log => mapLoaded tag map log

structure SglInv (s : SglState) : Prop where
  capacity : s.fsg.uioNum ≤ s.fsg.uioMax
  counted : s.origins.length = s.fsg.uioNum.toNat
  tagged : ∀ o ∈ s.origins, o.segflg = s.fsg.uioSegflg ∧
    (s.fsg.uioSegflg = .userspace → o.td = s.fsg.uioTd)
  segNum : s.fsg.segPtr = none ↔ s.fsg.segNum = 0
  loaded : s.fsg.segPtr = none ↔ mapLoaded s.fsg.dmaTag s.fsg.dmaMap s.log = false
  hasTag : s.fsg.dmaTag ≠ none

/-- An append that leaves the tag of a list with entries alone, and tags what it adds. -/
theorem SglInv.append {s : SglState} (h : SglInv s) {fsg : FreebsdSgl} {origin : Origin}
    (happ : Appends s.fsg fsg)
    (hnew : s.fsg.uioNum.toNat < fsg.uioNum.toNat → origin.segflg = fsg.uioSegflg ∧
      (fsg.uioSegflg = .userspace → origin.td = fsg.uioTd))
    (hold : s.fsg.uioNum ≠ 0 → fsg.uioSegflg = s.fsg.uioSegflg ∧
      (s.fsg.uioSegflg = .userspace → fsg.uioTd = s.fsg.uioTd)) :
    SglInv (s.appended fsg origin) where
  capacity := happ.fits h.capacity
  counted := by
    have hg := happ.grows
    simp only [SglState.appended, List.length_append, List.length_replicate, h.counted]
    omega
  tagged := by
    intro o ho
    rcases List.mem_append.mp ho with ho | ho
    · -- an old entry: the list was not empty, so its tag is still the one it had
      have hne : s.fsg.uioNum ≠ 0 := by
        intro hz
        have hlen := h.counted
        rw [hz] at hlen
        exact List.not_mem_nil (List.length_eq_zero_iff.mp hlen ▸ ho)
      obtain ⟨hseg, htd⟩ := h.tagged o ho
      obtain ⟨hseg', htd'⟩ := hold hne
      refine ⟨hseg.trans hseg'.symm, fun hu ↦ ?_⟩
      have hu' := hseg'.symm.trans hu
      exact (htd hu').trans (htd' hu').symm
    · obtain ⟨hk, rfl⟩ := List.mem_replicate.mp ho
      exact hnew (by omega)
  segNum := by
    simp only [SglState.appended, happ.segPtr, happ.segNum]
    exact h.segNum
  loaded := by
    simp only [SglState.appended, happ.segPtr, happ.dmaTag, happ.dmaMap]
    exact h.loaded
  hasTag := by
    simp only [SglState.appended, happ.dmaTag]
    exact h.hasTag

theorem SglInv.mapBytes {s : SglState} (h : SglInv s) (buffer : UInt64) (size : UInt32) :
    SglInv (s.appended (kfioSglMapBytes s.fsg buffer size).2 ⟨.sysspace, none⟩) := by
  apply h.append (kfioSglMapBytes_appends s.fsg buffer size)
  · unfold kfioSglMapBytes
    split
    · exact fun hlt ↦ absurd hlt (lt_irrefl _)
    · split
      · exact fun hlt ↦ absurd hlt (lt_irrefl _)
      · exact fun _ ↦ ⟨rfl, fun hu ↦ nomatch hu⟩
  · intro hne
    unfold kfioSglMapBytes
    split
    · exact ⟨rfl, fun _ ↦ rfl⟩
    · split
      · exact ⟨rfl, fun _ ↦ rfl⟩
      · rename_i htag
        -- a list with entries passes the test of the tag only if the tag was there before
        have hsys : s.fsg.uioSegflg = .sysspace := by
          by_contra hn
          exact htag ⟨hne, hn⟩
        exact ⟨hsys.symm, fun hu ↦ nomatch hsys.symm.trans hu⟩

theorem SglInv.mapUserPages {s : SglState} (h : SglInv s) {pages : ℕ → UInt64}
    {size offset : UInt32} {curthread : Thread} {rc : Int32} {fsg : FreebsdSgl} {p : ℕ}
    (heq : kfioSglMapUserPages s.fsg pages size offset curthread = .ok (rc, fsg, p)) :
    SglInv (s.appended fsg ⟨.userspace, some curthread⟩) := by
  obtain ⟨rc', fsg', p', heq', happ, htag⟩ :=
    kfioSglMapUserPages_spec s.fsg pages size offset curthread
  rw [heq] at heq'
  cases heq'
  apply h.append happ
  · -- entries were added, so the tag was not refused
    intro hlt
    rcases htag with rfl | ⟨hseg, htd, _⟩
    · exact absurd hlt (lt_irrefl _)
    · exact ⟨hseg.symm, fun _ ↦ htd.symm⟩
  · intro hne
    rcases htag with rfl | ⟨hseg, htd, hold⟩
    · exact ⟨rfl, fun _ ↦ rfl⟩
    · obtain ⟨hseg', htd'⟩ := hold hne
      exact ⟨hseg.trans hseg'.symm, fun _ ↦ htd.trans htd'.symm⟩

/-! ## Loading, unloading and reset -/

/-- Unloading: the list keeps everything but the mapping, and busdma is called if it was mapped. -/
theorem kfioSglDmaUnmap_eq (log : BusLog) (fsg : FreebsdSgl)
    (hseg : fsg.segPtr = none ↔ fsg.segNum = 0) :
    kfioSglDmaUnmap log fsg =
      ((if fsg.segPtr = none then [] else [.unload fsg.dmaTag fsg.dmaMap]) ++ log,
        { fsg with segPtr := none, segNum := 0 }) := by
  unfold kfioSglDmaUnmap
  by_cases hp : fsg.segPtr = none
  · rw [if_neg (not_not.mpr hp), if_pos hp]
    have hn := hseg.mp hp
    cases fsg
    simp only at hp hn
    subst hp hn
    rfl
  · rw [if_pos hp, if_neg hp]
    rfl

theorem kfioSglReset_eq (log : BusLog) (fsg : FreebsdSgl)
    (hseg : fsg.segPtr = none ↔ fsg.segNum = 0) :
    kfioSglReset log fsg =
      ((kfioSglDmaUnmap log fsg).1,
        { (kfioSglDmaUnmap log fsg).2 with uioNum := 0, uioSize := 0 }) := by
  unfold kfioSglReset
  by_cases hp : fsg.segPtr = none
  · rw [if_neg (not_not.mpr hp), kfioSglDmaUnmap_eq log fsg hseg, if_pos hp]
    have hn := hseg.mp hp
    cases fsg
    simp only at hp hn
    subst hp hn
    rfl
  · rw [if_pos hp]

theorem mapLoaded_unload {tag : Option DmaTag} {map : Option DmaMap}
    {p : Option (List BusDmaSegment)} {log : BusLog}
    (h : p = none ↔ mapLoaded tag map log = false) :
    mapLoaded tag map ((if p = none then [] else [.unload tag map]) ++ log) = false := by
  split
  · rename_i hp
    exact h.mp hp
  · simp [mapLoaded]

theorem SglInv.dmaUnmap {s : SglState} (h : SglInv s) :
    SglInv { s with
      log := (kfioSglDmaUnmap s.log s.fsg).1
      fsg := (kfioSglDmaUnmap s.log s.fsg).2 } := by
  rw [kfioSglDmaUnmap_eq _ _ h.segNum]
  exact ⟨h.capacity, h.counted, h.tagged, by simp, by simp [mapLoaded_unload h.loaded], h.hasTag⟩

theorem SglInv.reset {s : SglState} (h : SglInv s) :
    SglInv {
      log := (kfioSglReset s.log s.fsg).1
      fsg := (kfioSglReset s.log s.fsg).2
      origins := [] } := by
  have hu := h.dmaUnmap
  rw [kfioSglReset_eq _ _ h.segNum]
  refine ⟨?_, rfl, fun o ho ↦ absurd ho List.not_mem_nil, hu.segNum, hu.loaded, hu.hasTag⟩
  simp [UInt32.le_iff_toNat_le]

theorem SglInv.dmaMap {s : SglState} (h : SglInv s) {load : BusLoad} (htold : load.Told)
    (dmap : Option KfioDmaMap) (dir : Int32) :
    SglInv { s with
      log := (kfioSglDmaMap load s.log s.fsg dmap dir).2.1
      fsg := (kfioSglDmaMap load s.log s.fsg dmap dir).2.2.1 } := by
  rcases htold with ⟨hrc, herr, hne, _⟩ | ⟨hrc, herr⟩
  -- the callback and the return value agree on whether the map is loaded now
  · simp only [kfioSglDmaMap, fusionDmamapCallback, if_pos herr, hrc, ne_eq, not_true_eq_false,
      if_false]
    exact ⟨h.capacity, h.counted, h.tagged, by simp [hne], by simp [mapLoaded], h.hasTag⟩
  · simp only [kfioSglDmaMap, fusionDmamapCallback, if_neg herr, ne_eq, hrc, not_false_eq_true,
      if_true]
    exact ⟨h.capacity, h.counted, h.tagged, by simp, by simp [mapLoaded, hrc], h.hasTag⟩

theorem sglStep_inv {s s' : SglState} {e : SglEvent} (h : SglInv s) (hs : sglStep s e = some s') :
    SglInv s' := by
  cases e with
  | mapBytes buffer size =>
      cases hs
      exact h.mapBytes buffer size
  | mapPage page offset size =>
      cases hs
      exact h.mapBytes (page + offset.toUInt64) size
  | mapUserPages pages size offset curthread =>
      simp only [sglStep] at hs
      split at hs
      · rename_i rc fsg p heq
        cases hs
        exact h.mapUserPages heq
      · cases hs
  | dmaMap load dmap dir =>
      simp only [sglStep] at hs
      split at hs
      · rename_i hg
        cases hs
        exact h.dmaMap hg.2 dmap dir
      · cases hs
  | dmaUnmap =>
      cases hs
      exact h.dmaUnmap
  | reset =>
      cases hs
      exact h.reset

/-! ## From allocation to destruction -/

/-- The state in which `kfio_sgl_alloc_nvec` hands the list over. -/
def allocated (fsg : FreebsdSgl) (log : BusLog) : SglState := ⟨fsg, log, []⟩

theorem kfioSglAllocNvec_inv {env : AllocEnv} {nvecs : Int32} {fsg : FreebsdSgl} {log : BusLog}
    (h : kfioSglAllocNvec env nvecs = (0, some fsg, log)) : SglInv (allocated fsg log) := by
  unfold kfioSglAllocNvec at h
  split at h
  · cases h
  · simp only at h
    split at h
    · exact nomatch (Prod.mk.inj (Prod.mk.inj h).2).1
    · split at h
      · exact nomatch (Prod.mk.inj (Prod.mk.inj h).2).1
      · cases h
        exact ⟨by simp [allocated, UInt32.le_iff_toNat_le], rfl,
          fun o ho ↦ absurd ho List.not_mem_nil, by simp [allocated],
          by simp [allocated, mapLoaded], by simp [allocated]⟩

def BusCall.isUnload : BusCall → Bool
  | .unload .. => true
  | _ => false

/-- The calls that destroying the list makes, newest first. -/
theorem SglInv.destroy_eq {s : SglState} (h : SglInv s) {tag : DmaTag}
    (htag : s.fsg.dmaTag = some tag) :
    kfioSglDestroy s.log s.fsg =
      .vfree (sglAllocSize (s.fsg.uioMax - 1).toUInt64) :: .tagDestroy tag ::
        .mapDestroy tag s.fsg.dmaMap :: (kfioSglDmaUnmap s.log s.fsg).1 := by
  unfold kfioSglDestroy
  rw [htag]
  by_cases hp : s.fsg.segPtr = none
  · rw [kfioSglDmaUnmap_eq _ _ h.segNum, if_pos hp]
    simp only [if_neg (not_not.mpr hp)]
    rfl
  · simp only [if_pos hp, kfioSglDmaUnmap]

/-- Destroying a list unloads its map if it is loaded, and unloads nothing else. -/
theorem SglInv.destroy {s : SglState} (h : SglInv s) :
    ∃ calls, kfioSglDestroy s.log s.fsg = calls ++ s.log ∧
      calls.filter BusCall.isUnload =
        if mapLoaded s.fsg.dmaTag s.fsg.dmaMap s.log then [.unload s.fsg.dmaTag s.fsg.dmaMap]
        else [] := by
  obtain ⟨tag, htag⟩ := Option.ne_none_iff_exists'.mp h.hasTag
  rw [h.destroy_eq htag, kfioSglDmaUnmap_eq _ _ h.segNum]
  refine ⟨_ :: _ :: _ :: (if s.fsg.segPtr = none then [] else _), rfl, ?_⟩
  by_cases hp : s.fsg.segPtr = none
  · rw [if_pos hp, h.loaded.mp hp]
    rfl
  · have hl : mapLoaded s.fsg.dmaTag s.fsg.dmaMap s.log = true := by
      rw [← Bool.not_eq_false]
      exact fun hf ↦ hp (h.loaded.mpr hf)
    rw [if_neg hp, hl]
    rfl

theorem sglStep_entries {s s' : SglState} {e : SglEvent} (he : e.appends = true)
    (hs : sglStep s e = some s') : s.fsg.entries <+: s'.fsg.entries := by
  cases e with
  | mapBytes buffer size =>
      cases hs
      exact (kfioSglMapBytes_appends s.fsg buffer size).entries
  | mapPage page offset size =>
      cases hs
      exact (kfioSglMapBytes_appends s.fsg (page + offset.toUInt64) size).entries
  | mapUserPages pages size offset curthread =>
      obtain ⟨rc, fsg, p, heq, happ, _⟩ :=
        kfioSglMapUserPages_spec s.fsg pages size offset curthread
      simp only [sglStep, heq] at hs
      cases hs
      exact happ.entries
  | dmaMap load dmap dir => cases he
  | dmaUnmap => cases he
  | reset => cases he

/-- What a caller may rely on whenever it holds a list. -/
structure SglSound (s : SglState) : Prop where
  capacity : s.fsg.uioNum ≤ s.fsg.uioMax
  counted : s.origins.length = s.fsg.uioNum.toNat
  /-- All entries come from the address space and the thread that the list is tagged with. -/
  tagged : ∀ o ∈ s.origins, o.segflg = s.fsg.uioSegflg ∧
    (s.fsg.uioSegflg = .userspace → o.td = s.fsg.uioTd)
  segNum : s.fsg.segPtr = none ↔ s.fsg.segNum = 0
  loaded : s.fsg.segNum = 0 ↔ mapLoaded s.fsg.dmaTag s.fsg.dmaMap s.log = false
  appends : ∀ e s', e.appends = true → sglStep s e = some s' → s.fsg.entries <+: s'.fsg.entries
  /-- Destroying the list now unloads the map if it is loaded, and nothing else. -/
  destroy : ∃ calls, kfioSglDestroy s.log s.fsg = calls ++ s.log ∧
    calls.filter BusCall.isUnload =
      if mapLoaded s.fsg.dmaTag s.fsg.dmaMap s.log then [.unload s.fsg.dmaTag s.fsg.dmaMap] else []

/-- Whatever is done to a list between allocation and destruction, in any order. -/
theorem sgl_lifecycle {env : AllocEnv} {nvecs : Int32} {fsg : FreebsdSgl} {log : BusLog}
    (halloc : kfioSglAllocNvec env nvecs = (0, some fsg, log)) {es : List SglEvent} {s : SglState}
    (hrun : Transition.run sglStep (allocated fsg log) es = some s) : SglSound s := by
  have h : SglInv s :=
    Transition.run_invariant (fun _ _ _ hi hs ↦ sglStep_inv hi hs) (kfioSglAllocNvec_inv halloc)
      hrun
  exact ⟨h.capacity, h.counted, h.tagged, h.segNum, h.segNum.symm.trans h.loaded,
    fun e s' he hs ↦ sglStep_entries he hs, h.destroy⟩

/-- Allocation succeeds over memory that holds garbage. -/
def twoEntryEnv : AllocEnv where
  memory := some ⟨7, 7, 7, some 9, .nocopy, some [⟨1, 1⟩], 7, some 9, some 9, fun _ ↦ ⟨0, 0⟩⟩
  tagRc := 0
  tag := 1
  mapRc := 0
  map := 2

/-- A user page is recorded, a kernel buffer is refused, and the list is loaded. -/
def userEvents : List SglEvent :=
  [.mapUserPages (fun _ ↦ 0x8000) 512 16 3, .mapBytes 0x5000 64,
    .dmaMap ⟨0, [⟨0x10010, 512⟩], 1, 0⟩ none IODRIVE_DMA_DIR_READ]

theorem sgl_lifecycle_userEvents :
    ∃ fsg log s, kfioSglAllocNvec twoEntryEnv 2 = (0, some fsg, log) ∧
      Transition.run sglStep (allocated fsg log) userEvents = some s ∧
      s.fsg.uioNum = 1 ∧ s.fsg.segNum = 1 ∧ SglSound s :=
  ⟨_, _, _, rfl, rfl, by decide, by decide, @sgl_lifecycle twoEntryEnv 2 _ _ rfl userEvents _ rfl⟩

end IomemoryVsl.Kscatter
