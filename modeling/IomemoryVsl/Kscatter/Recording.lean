import IomemoryVsl.Kscatter.Lifecycle
import IomemoryVsl.Kscatter.Slice

/-!
# What an append records (`kscatter.c`)

`kfio_sgl_map_user_pages` cuts a range of bytes at the page ends and records the chunks one by one,
as long as there is room.  From the chunks follow the bytes that an append describes, what a failed
append leaves behind, and what the running total of a list says about its entries.
-/

namespace IomemoryVsl.Kscatter

open Transition

def fusionPageSize : ℕ := FUSION_PAGE_SIZE.toNat

theorem fusionPageSize_eq : fusionPageSize = 4096 := by decide

/-- The pages that `size` bytes from the byte `offset` of the first one on lie in. -/
def pagesSpanned (size offset : ℕ) : ℕ :=
  if size = 0 then 0 else (offset + size + (fusionPageSize - 1)) / fusionPageSize

/-- The turns that the loop takes when the list has room for them. -/
def pagesNeeded (size offset : ℕ) : ℕ :=
  if size = 0 then 0
  -- the space left in the first page is negative, and everything fits in it
  else if fusionPageSize < offset then 1
  else 1 + pagesSpanned (size - (fusionPageSize - offset)) 0

/-- The chunks of the first `n` turns. -/
def pageChunks (pages : ℕ → UInt64) : ℕ → ℕ → UInt32 → UInt32 → List (UInt64 × UInt32)
  | 0, _, _, _ => []
  | n + 1, p, size, offset =>
      (pages p + offset.toUInt64, mappedBytes size offset) ::
        pageChunks pages n (p + 1) (size - mappedBytes size offset) 0

def FreebsdSgl.recordAll (fsg : FreebsdSgl) : List (UInt64 × UInt32) → FreebsdSgl
  | [] => fsg
  | (base, len) :: chunks => (fsg.record base len).recordAll chunks

/-- The entries that may still be recorded. -/
def FreebsdSgl.room (fsg : FreebsdSgl) : ℕ := fsg.uioMax.toNat - fsg.uioNum.toNat

/-- The list is empty, or the user pages of this thread may be added to it. -/
def FreebsdSgl.TakesPagesOf (fsg : FreebsdSgl) (curthread : Thread) : Prop :=
  fsg.uioNum ≠ 0 → fsg.uioSegflg = .userspace ∧ fsg.uioTd = some curthread

instance (fsg : FreebsdSgl) (curthread : Thread) : Decidable (fsg.TakesPagesOf curthread) :=
  inferInstanceAs (Decidable (_ → _))

/-- The list as the page loop finds it. -/
def FreebsdSgl.taggedFor (fsg : FreebsdSgl) (curthread : Thread) : FreebsdSgl :=
  { fsg with uioSegflg := .userspace, uioTd := some curthread }

/-! ## The turns of the page loop -/

theorem mappedBytes_toNat (size offset : UInt32) :
    (mappedBytes size offset).toNat =
      if fusionPageSize < offset.toNat then size.toNat
      else min size.toNat (fusionPageSize - offset.toNat) := by
  have hsize := size.toNat_lt
  have hoff := offset.toNat_lt
  have hpage : FUSION_PAGE_SIZE.toNat = 4096 := by decide
  have hleft : (FUSION_PAGE_SIZE - offset.toUInt64).toNat =
      (2 ^ 64 - offset.toNat + 4096) % 2 ^ 64 := by
    rw [UInt64.toNat_sub, hpage, UInt32.toNat_toUInt64]
  rw [fusionPageSize_eq]
  unfold mappedBytes
  -- an offset past the page wraps around, and the whole size is less than that
  by_cases hover : 4096 < offset.toNat
  · have hlt : size.toUInt64 < FUSION_PAGE_SIZE - offset.toUInt64 := by
      rw [UInt64.lt_iff_toNat_lt, hleft, UInt32.toNat_toUInt64]
      omega
    rw [if_pos hlt, if_pos hover]
  · rw [if_neg hover]
    by_cases hlt : size.toUInt64 < FUSION_PAGE_SIZE - offset.toUInt64
    · rw [if_pos hlt]
      rw [UInt64.lt_iff_toNat_lt, hleft, UInt32.toNat_toUInt64] at hlt
      omega
    · rw [if_neg hlt, UInt64.toNat_toUInt32, hleft]
      rw [UInt64.lt_iff_toNat_lt, hleft, UInt32.toNat_toUInt64] at hlt
      omega

theorem mappedBytes_rest (size offset : UInt32) :
    (size - mappedBytes size offset).toNat =
      if fusionPageSize < offset.toNat then 0
      else size.toNat - (fusionPageSize - offset.toNat) := by
  have hmapped := mappedBytes_toNat size offset
  rw [UInt32.toNat_sub_of_le _ _ (by
    rw [UInt32.le_iff_toNat_le, hmapped]
    split <;> omega), hmapped]
  split <;> omega

theorem pagesNeeded_zero (offset : ℕ) : pagesNeeded 0 offset = 0 := rfl

theorem pagesNeeded_eq_zero_iff {size offset : ℕ} : pagesNeeded size offset = 0 ↔ size = 0 := by
  unfold pagesNeeded
  by_cases hzero : size = 0
  · rw [if_pos hzero]
    exact iff_of_true rfl hzero
  · rw [if_neg hzero]
    refine iff_of_false ?_ hzero
    by_cases hover : fusionPageSize < offset
    · rw [if_pos hover]
      exact Nat.one_ne_zero
    · rw [if_neg hover, Nat.add_comm]
      exact Nat.succ_ne_zero _

/-- Past the first page, the turns are those of the bytes that it leaves over. -/
theorem pagesNeeded_turn {size offset : UInt32} (hpos : 0 < size.toNat) :
    pagesNeeded size.toNat offset.toNat =
      pagesNeeded (size - mappedBytes size offset).toNat 0 + 1 := by
  rw [mappedBytes_rest]
  unfold pagesNeeded pagesSpanned
  rw [fusionPageSize_eq, if_neg (by omega : ¬ size.toNat = 0), if_neg (by omega : ¬ 4096 < 0)]
  by_cases hover : 4096 < offset.toNat
  · rw [if_pos hover, if_pos hover, if_pos rfl]
  · rw [if_neg hover, if_neg hover]
    split_ifs <;> omega

/-- Bytes that start within the first page take one turn for each page they lie in. -/
theorem pagesNeeded_eq {size offset : ℕ} (hoff : offset < fusionPageSize) :
    pagesNeeded size offset = pagesSpanned size offset := by
  unfold pagesNeeded pagesSpanned
  rw [fusionPageSize_eq] at hoff ⊢
  rw [if_neg (by omega : ¬ 4096 < offset)]
  split_ifs <;> omega

@[simp]
theorem length_pageChunks (pages : ℕ → UInt64) (n p : ℕ) (size offset : UInt32) :
    (pageChunks pages n p size offset).length = n := by
  induction n generalizing p size offset with
  | zero => rfl
  | succ n ih => rw [pageChunks, List.length_cons, ih]

/-- The loop records a chunk a turn until the bytes or the room are used up. -/
theorem mapUserPagesLoop_eq (pages : ℕ → UInt64) {fuel : ℕ} (fsg : FreebsdSgl) (p : ℕ)
    (size offset : UInt32) (hfuel : fsg.room < fuel) :
    let need := pagesNeeded size.toNat offset.toNat
    mapUserPagesLoop pages fuel fsg p size offset = .ok
      (if need ≤ fsg.room then 0 else -ENOMEM,
        fsg.recordAll (pageChunks pages (min need fsg.room) p size offset),
        p + min need fsg.room) := by
  -- the fuel is more than the room left on the list, and each turn takes one of both
  induction fuel generalizing fsg p size offset with
  | zero => omega
  | succ fuel ih =>
      dsimp only
      rw [mapUserPagesLoop]
      by_cases hpos : size > 0
      · have hsize : 0 < size.toNat := UInt32.lt_iff_toNat_lt.mp hpos
        rw [if_pos hpos, pagesNeeded_turn hsize]
        by_cases hfull : fsg.uioNum ≥ fsg.uioMax
        · have hroom : fsg.room = 0 := by
            have hle := UInt32.le_iff_toNat_le.mp hfull
            unfold FreebsdSgl.room
            omega
          rw [if_pos hfull, hroom, if_neg (by omega), Nat.min_zero]
          rfl
        · have hlt : fsg.uioNum < fsg.uioMax := by simpa using hfull
          have hnat := UInt32.lt_iff_toNat_lt.mp hlt
          have hroom : fsg.room =
              (fsg.record (pages p + offset.toUInt64) (mappedBytes size offset)).room + 1 := by
            unfold FreebsdSgl.room
            rw [record_uioNum hlt]
            simp only [FreebsdSgl.record]
            omega
          rw [if_neg hfull, hroom, Nat.add_min_add_right, ih _ _ _ _ (by omega)]
          simp only [UInt32.toNat_zero, Nat.add_le_add_iff_right, pageChunks, FreebsdSgl.recordAll,
            Nat.add_assoc, Nat.add_comm 1]
      · have hzero : size.toNat = 0 := by
          have hnot : ¬ 0 < size.toNat := fun h ↦ hpos (UInt32.lt_iff_toNat_lt.mpr h)
          omega
        rw [if_neg hpos, hzero, pagesNeeded_zero, if_pos (Nat.zero_le _), Nat.zero_min]
        rfl

/-! ## What the chunks record -/

def Iovec.extent (iov : Iovec) : Extent UInt64 := ⟨iov.iovBase, iov.iovLen.toNat⟩

def chunkIovec (chunk : UInt64 × UInt32) : Iovec := ⟨chunk.1, chunk.2.toUInt64⟩

/-- The bytes of all recorded entries, counted without a bound. -/
def FreebsdSgl.total (fsg : FreebsdSgl) : ℕ := Extent.total (fsg.entries.map Iovec.extent)

def chunkTotal (chunks : List (UInt64 × UInt32)) : ℕ :=
  Extent.total ((chunks.map chunkIovec).map Iovec.extent)

@[simp]
theorem chunkTotal_nil : chunkTotal [] = 0 := rfl

@[simp]
theorem chunkTotal_cons (chunk : UInt64 × UInt32) (chunks : List (UInt64 × UInt32)) :
    chunkTotal (chunk :: chunks) = chunk.2.toNat + chunkTotal chunks := by
  simp [chunkTotal, chunkIovec, Iovec.extent]

theorem record_entries {fsg : FreebsdSgl} {base : UInt64} {len : UInt32}
    (h : fsg.uioNum < fsg.uioMax) :
    (fsg.record base len).entries = fsg.entries ++ [⟨base, len.toUInt64⟩] := by
  have hkeep : (List.range fsg.uioNum.toNat).map (fsg.record base len).uioVec = fsg.entries :=
    List.map_congr_left fun i hi ↦ (record_appends h).keeps i (List.mem_range.mp hi)
  unfold FreebsdSgl.entries at hkeep ⊢
  rw [record_uioNum h, List.range_succ, List.map_append, hkeep]
  simp [FreebsdSgl.record]

/-- What is recorded within the room stands behind the entries that were there, and is counted. -/
structure Recorded (fsg : FreebsdSgl) (chunks : List (UInt64 × UInt32)) (fsg' : FreebsdSgl) :
    Prop where
  entries : fsg'.entries = fsg.entries ++ chunks.map chunkIovec
  uioNum : fsg'.uioNum.toNat = fsg.uioNum.toNat + chunks.length
  uioSize : fsg'.uioSize.toNat = (fsg.uioSize.toNat + chunkTotal chunks) % 2 ^ 32

theorem recordAll_recorded (fsg : FreebsdSgl) (chunks : List (UInt64 × UInt32))
    (hroom : chunks.length ≤ fsg.room) : Recorded fsg chunks (fsg.recordAll chunks) := by
  induction chunks generalizing fsg with
  | nil =>
      have hlt := fsg.uioSize.toNat_lt
      exact ⟨by simp [FreebsdSgl.recordAll], rfl, by simp [FreebsdSgl.recordAll]⟩
  | cons chunk chunks ih =>
      unfold FreebsdSgl.room at hroom ih
      rw [List.length_cons] at hroom
      have hlt : fsg.uioNum < fsg.uioMax := by
        rw [UInt32.lt_iff_toNat_lt]
        omega
      have hnum : (fsg.record chunk.1 chunk.2).uioNum.toNat = fsg.uioNum.toNat + 1 :=
        record_uioNum hlt
      have hmax : (fsg.record chunk.1 chunk.2).uioMax = fsg.uioMax := rfl
      have hrest := ih (fsg.record chunk.1 chunk.2) (by rw [hnum, hmax]; omega)
      refine ⟨?_, ?_, ?_⟩
      · rw [FreebsdSgl.recordAll, hrest.entries, record_entries hlt]
        simp [chunkIovec]
      · rw [FreebsdSgl.recordAll, hrest.uioNum, hnum, List.length_cons]
        omega
      · have hsize : (fsg.record chunk.1 chunk.2).uioSize.toNat =
            (fsg.uioSize.toNat + chunk.2.toNat) % 2 ^ 32 := UInt32.toNat_add _ _
        rw [FreebsdSgl.recordAll, hrest.uioSize, hsize, chunkTotal_cons, Nat.mod_add_mod,
          Nat.add_assoc]

/-- A byte count that fits in the pages needed is recorded whole. -/
theorem chunkTotal_pageChunks (pages : ℕ → UInt64) {n : ℕ} (p : ℕ) (size offset : UInt32)
    (hn : n = pagesNeeded size.toNat offset.toNat) :
    chunkTotal (pageChunks pages n p size offset) = size.toNat := by
  induction n generalizing p size offset with
  | zero =>
      rw [pagesNeeded_eq_zero_iff.mp hn.symm]
      rfl
  | succ n ih =>
      have hpos : 0 < size.toNat := by
        apply Nat.pos_of_ne_zero
        intro hzero
        rw [pagesNeeded_eq_zero_iff.mpr hzero] at hn
        omega
      rw [pagesNeeded_turn hpos] at hn
      have hrest := mappedBytes_rest size offset
      have hmapped := mappedBytes_toNat size offset
      rw [pageChunks, chunkTotal_cons, ih _ _ _ (by rw [UInt32.toNat_zero]; omega), hrest, hmapped]
      split <;> omega

/-- The call of a thread whose pages the list takes. -/
theorem kfioSglMapUserPages_eq {fsg : FreebsdSgl} {curthread : Thread}
    (htakes : fsg.TakesPagesOf curthread) (pages : ℕ → UInt64) (size offset : UInt32) :
    let need := pagesNeeded size.toNat offset.toNat
    kfioSglMapUserPages fsg pages size offset curthread = .ok
      (if need ≤ fsg.room then 0 else -ENOMEM,
        (fsg.taggedFor curthread).recordAll (pageChunks pages (min need fsg.room) 0 size offset),
        min need fsg.room) := by
  have hloop := mapUserPagesLoop_eq pages (fsg.taggedFor curthread) 0 size offset
    (Nat.lt_succ_self fsg.room)
  dsimp only at hloop ⊢
  rw [Nat.zero_add] at hloop
  unfold kfioSglMapUserPages
  rw [if_neg (fun h ↦ h.2 (htakes h.1).1), if_neg (fun h ↦ h.2 (htakes h.1).2)]
  exact hloop

theorem kfioSglMapUserPages_refused {fsg : FreebsdSgl} {curthread : Thread}
    (htakes : ¬ fsg.TakesPagesOf curthread) (pages : ℕ → UInt64) (size offset : UInt32) :
    kfioSglMapUserPages fsg pages size offset curthread = .ok (-ENOMEM, fsg, 0) := by
  unfold kfioSglMapUserPages
  by_cases hseg : fsg.uioNum ≠ 0 ∧ fsg.uioSegflg ≠ .userspace
  · rw [if_pos hseg]
  · rw [if_neg hseg]
    by_cases htd : fsg.uioNum ≠ 0 ∧ fsg.uioTd ≠ some curthread
    · rw [if_pos htd]
    · refine absurd (fun hnum ↦ ?_) htakes
      exact ⟨not_not.mp fun h ↦ hseg ⟨hnum, h⟩, not_not.mp fun h ↦ htd ⟨hnum, h⟩⟩

/-! ## The bytes of an append -/

/-- The address of the byte number `k` of a range that starts `offset` bytes into the first page. -/
def pageByte (pages : ℕ → UInt64) (offset k : ℕ) : UInt64 :=
  busShift (pages ((offset + k) / fusionPageSize)) ((offset + k) % fusionPageSize)

theorem pageByte_first (pages : ℕ → UInt64) {offset : UInt32} {k : ℕ}
    (hin : offset.toNat + k < fusionPageSize) :
    pageByte pages offset.toNat k = busShift (pages 0 + offset.toUInt64) k := by
  rw [pageByte, Nat.div_eq_of_lt hin, Nat.mod_eq_of_lt hin, ← busShift_busShift]
  simp only [busShift, UInt64.ofNat_uInt32ToNat]

/-- Behind the first page the range goes on at the start of the next one. -/
theorem pageByte_next (pages : ℕ → UInt64) {offset k : ℕ} (hoff : offset < fusionPageSize) :
    pageByte pages offset (fusionPageSize - offset + k) = pageByte (fun i ↦ pages (i + 1)) 0 k := by
  rw [fusionPageSize_eq] at hoff
  unfold pageByte
  rw [fusionPageSize_eq, show offset + (4096 - offset + k) = k + 4096 by omega, Nat.zero_add,
    Nat.add_div_right k (by decide), Nat.add_mod_right]

theorem pageChunks_shift (pages : ℕ → UInt64) (n p : ℕ) (size offset : UInt32) :
    pageChunks pages n (p + 1) size offset =
      pageChunks (fun i ↦ pages (i + 1)) n p size offset := by
  induction n generalizing p size offset with
  | zero => rfl
  | succ n ih => rw [pageChunks, pageChunks, ih]

theorem range_map_add {α : Type*} (f : ℕ → α) (m n : ℕ) :
    (List.range (m + n)).map f = (List.range m).map f ++ (List.range n).map fun k ↦ f (m + k) := by
  rw [List.range_add, List.map_append, List.map_map]
  rfl

/-- The chunks together are the bytes of the range, in order. -/
theorem cellsOf_pageChunks (pages : ℕ → UInt64) {n : ℕ} {size offset : UInt32}
    (hoff : offset.toNat < fusionPageSize) (hn : n = pagesNeeded size.toNat offset.toNat) :
    Extent.cellsOf busShift (((pageChunks pages n 0 size offset).map chunkIovec).map
        Iovec.extent) = (List.range size.toNat).map (pageByte pages offset.toNat) := by
  induction n generalizing pages size offset with
  | zero =>
      have htotal := chunkTotal_pageChunks pages 0 size offset hn
      rw [← htotal]
      rfl
  | succ n ih =>
      have hpos : 0 < size.toNat := by
        apply Nat.pos_of_ne_zero
        intro hzero
        rw [pagesNeeded_eq_zero_iff.mpr hzero] at hn
        omega
      rw [pagesNeeded_turn hpos, Nat.add_right_cancel_iff] at hn
      have hmapped := mappedBytes_toNat size offset
      have hrest := mappedBytes_rest size offset
      rw [if_neg (by omega)] at hmapped hrest
      have hnext := ih (fun i ↦ pages (i + 1)) (show (0 : UInt32).toNat < fusionPageSize by decide)
        hn
      -- the first page is taken from the offset on, every later one from its start
      have hfirst : (List.range (mappedBytes size offset).toNat).map (pageByte pages offset.toNat) =
          (List.range (mappedBytes size offset).toNat).map
            (busShift (pages 0 + offset.toUInt64)) := by
        refine List.map_congr_left fun k hk ↦ pageByte_first pages ?_
        rw [List.mem_range] at hk
        omega
      have hsplit := congrArg (fun k ↦ (List.range k).map (pageByte pages offset.toNat))
        (show size.toNat =
          (mappedBytes size offset).toNat + (size - mappedBytes size offset).toNat by omega)
      rw [hsplit, range_map_add, hfirst, pageChunks, pageChunks_shift, List.map_cons, List.map_cons,
        Extent.cellsOf_cons, hnext]
      refine congrArg₂ (· ++ ·) ?_ ?_
      · simp [Extent.cells, Iovec.extent, chunkIovec]
      · refine List.map_congr_left fun k hk ↦ ?_
        rw [List.mem_range, hrest] at hk
        rw [show (mappedBytes size offset).toNat = fusionPageSize - offset.toNat by omega,
          pageByte_next pages hoff]
        rfl

/-- The chunk number `j` lies in the page number `j`. -/
theorem pageChunks_within (pages : ℕ → UInt64) {n : ℕ} {size offset : UInt32}
    (hoff : offset.toNat < fusionPageSize) {j : ℕ} {chunk : UInt64 × UInt32}
    (hj : (pageChunks pages n 0 size offset)[j]? = some chunk) :
    ∃ o : ℕ, chunk.1 = busShift (pages j) o ∧ o + chunk.2.toNat ≤ fusionPageSize := by
  induction n generalizing pages size offset j with
  | zero => simp [pageChunks] at hj
  | succ n ih =>
      rw [pageChunks, pageChunks_shift] at hj
      cases j with
      | zero =>
          rw [List.getElem?_cons_zero, Option.some.injEq] at hj
          have hmapped := mappedBytes_toNat size offset
          rw [if_neg (by omega)] at hmapped
          subst hj
          refine ⟨offset.toNat, ?_, by dsimp only; omega⟩
          simp only [busShift, UInt64.ofNat_uInt32ToNat]
      | succ j =>
          rw [List.getElem?_cons_succ] at hj
          exact ih (fun i ↦ pages (i + 1)) (by decide) hj

/-- The chunks depend on no page but those of their turns. -/
theorem pageChunks_congr {pages pages' : ℕ → UInt64} {n : ℕ} (p : ℕ) {size offset : UInt32}
    (hsame : ∀ i < n, pages' (p + i) = pages (p + i)) :
    pageChunks pages' n p size offset = pageChunks pages n p size offset := by
  induction n generalizing p size offset with
  | zero => rfl
  | succ n ih =>
      have hfirst : pages' p = pages p := hsame 0 (Nat.succ_pos n)
      rw [pageChunks, pageChunks, hfirst, ih (p + 1)]
      intro i hi
      rw [Nat.add_assoc, Nat.add_comm 1]
      exact hsame (i + 1) (by omega)

/-- With room for all of them, the pages of a range are read one after the other, each gives one
entry, and the entries together are the bytes of the range. -/
theorem kfioSglMapUserPages_bytes {fsg : FreebsdSgl} {curthread : Thread} {size offset : UInt32}
    (hoff : offset.toNat < fusionPageSize) (htakes : fsg.TakesPagesOf curthread)
    (hroom : fsg.uioNum.toNat + pagesSpanned size.toNat offset.toNat ≤ fsg.uioMax.toNat)
    (pages : ℕ → UInt64) :
    ∃ fsg' entries,
      (∀ pages', (∀ i < pagesSpanned size.toNat offset.toNat, pages' i = pages i) →
        kfioSglMapUserPages fsg pages' size offset curthread =
          .ok (0, fsg', pagesSpanned size.toNat offset.toNat)) ∧
      fsg'.entries = fsg.entries ++ entries ∧
      entries.length = pagesSpanned size.toNat offset.toNat ∧
      Extent.cellsOf busShift (entries.map Iovec.extent) =
        (List.range size.toNat).map (pageByte pages offset.toNat) ∧
      ∀ j iov, entries[j]? = some iov →
        ∃ o : ℕ, iov.iovBase = busShift (pages j) o ∧ o + iov.iovLen.toNat ≤ fusionPageSize := by
  have hneed : pagesNeeded size.toNat offset.toNat = pagesSpanned size.toNat offset.toNat :=
    pagesNeeded_eq hoff
  have hle : pagesNeeded size.toNat offset.toNat ≤ fsg.room := by
    unfold FreebsdSgl.room
    omega
  have hcells := cellsOf_pageChunks pages hoff (rfl : pagesNeeded size.toNat offset.toNat = _)
  rw [← hneed]
  refine ⟨(fsg.taggedFor curthread).recordAll
      (pageChunks pages (pagesNeeded size.toNat offset.toNat) 0 size offset),
    (pageChunks pages (pagesNeeded size.toNat offset.toNat) 0 size offset).map chunkIovec,
    fun pages' hsame ↦ ?_, ?_, ?_, hcells, ?_⟩
  · rw [kfioSglMapUserPages_eq htakes, if_pos hle, min_eq_left hle,
      pageChunks_congr 0 (by simpa using hsame)]
  · refine (recordAll_recorded (fsg.taggedFor curthread) _ ?_).entries
    rw [length_pageChunks]
    exact hle
  · rw [List.length_map, length_pageChunks]
  · intro j iov hj
    rw [List.getElem?_map, Option.map_eq_some_iff] at hj
    obtain ⟨chunk, hchunk, rfl⟩ := hj
    simpa [chunkIovec] using pageChunks_within pages hoff hchunk

/-- An empty list with room for three entries, tagged with what it held before. -/
def emptySgl : FreebsdSgl where
  uioMax := 3
  uioNum := 0
  uioSize := 0
  uioTd := none
  uioSegflg := .sysspace
  segPtr := none
  segNum := 0
  dmaTag := some 1
  dmaMap := some 1
  uioVec := fun _ ↦ ⟨0, 0⟩

/-- Two pages that do not lie one behind the other. -/
def twoPages (i : ℕ) : UInt64 := if i = 0 then 0x7000 else 0x3000

/-- The bytes 100 to 5099 of the two pages. -/
theorem kfioSglMapUserPages_bytes_emptySgl :
    ∃ fsg' entries,
      (∀ pages', (∀ i < 2, pages' i = twoPages i) →
        kfioSglMapUserPages emptySgl pages' 5000 100 7 = .ok (0, fsg', 2)) ∧
      fsg'.entries = emptySgl.entries ++ entries ∧ entries.length = 2 ∧
      Extent.cellsOf busShift (entries.map Iovec.extent) =
        (List.range 5000).map (pageByte twoPages 100) ∧
      ∀ j iov, entries[j]? = some iov →
        ∃ o : ℕ, iov.iovBase = busShift (twoPages j) o ∧ o + iov.iovLen.toNat ≤ fusionPageSize :=
  kfioSglMapUserPages_bytes (show (100 : UInt32).toNat < _ by decide) (by decide)
    (show _ + pagesSpanned (5000 : UInt32).toNat _ ≤ _ by decide) twoPages

/-! ## A failed append -/

/-- The recording is the same, and so is what it is tagged with unless it is empty. -/
structure SameRecording (fsg fsg' : FreebsdSgl) : Prop where
  uioNum : fsg'.uioNum = fsg.uioNum
  uioSize : fsg'.uioSize = fsg.uioSize
  entries : fsg'.entries = fsg.entries
  uioSegflg : fsg.uioNum ≠ 0 → fsg'.uioSegflg = fsg.uioSegflg
  uioTd : fsg.uioNum ≠ 0 → fsg'.uioTd = fsg.uioTd

theorem SameRecording.refl (fsg : FreebsdSgl) : SameRecording fsg fsg :=
  ⟨rfl, rfl, rfl, fun _ ↦ rfl, fun _ ↦ rfl⟩

/-- Room is looked for before anything is written. -/
theorem kfioSglMapBytes_atomic {fsg : FreebsdSgl} {buffer : UInt64} {size : UInt32}
    (hfail : (kfioSglMapBytes fsg buffer size).1 ≠ 0) :
    SameRecording fsg (kfioSglMapBytes fsg buffer size).2 := by
  unfold kfioSglMapBytes at hfail ⊢
  by_cases hfull : fsg.uioNum ≥ fsg.uioMax
  · rw [if_pos hfull]
    exact .refl fsg
  · rw [if_neg hfull] at hfail ⊢
    by_cases hseg : fsg.uioNum ≠ 0 ∧ fsg.uioSegflg ≠ .sysspace
    · rw [if_pos hseg]
      exact .refl fsg
    · rw [if_neg hseg] at hfail
      exact absurd rfl hfail

/-- The loop runs out of room after it has recorded a page. -/
def StopsHalfway (fsg : FreebsdSgl) (size offset : UInt32) (curthread : Thread) : Prop :=
  fsg.TakesPagesOf curthread ∧ 0 < fsg.room ∧ fsg.room < pagesNeeded size.toNat offset.toNat

/-- Whatever fails leaves the recording as it was, of the appends of bytes and of pages alike. -/
def AtomicOnFailure (fsg : FreebsdSgl) (buffer : UInt64) (bytes : UInt32) (pages : ℕ → UInt64)
    (size offset : UInt32) (curthread : Thread) : Prop :=
  ((kfioSglMapBytes fsg buffer bytes).1 ≠ 0 →
      SameRecording fsg (kfioSglMapBytes fsg buffer bytes).2) ∧
    ∀ rc fsg' p, kfioSglMapUserPages fsg pages size offset curthread = .ok (rc, fsg', p) →
      rc ≠ 0 → SameRecording fsg fsg'

theorem atomicOnFailure_iff (fsg : FreebsdSgl) (buffer : UInt64) (bytes : UInt32)
    (pages : ℕ → UInt64) (size offset : UInt32) (curthread : Thread) :
    AtomicOnFailure fsg buffer bytes pages size offset curthread ↔
      ¬ StopsHalfway fsg size offset curthread := by
  constructor
  · rintro ⟨-, hpages⟩ ⟨htakes, hroom, hneed⟩
    have heq := kfioSglMapUserPages_eq htakes pages size offset
    dsimp only at heq
    rw [if_neg (by omega), min_eq_right hneed.le] at heq
    have hsame := hpages _ _ _ heq (by decide)
    -- a page was recorded, and it is counted
    have hnum := (recordAll_recorded (fsg.taggedFor curthread)
      (pageChunks pages fsg.room 0 size offset)
      (by rw [length_pageChunks]; exact le_rfl)).uioNum
    rw [hsame.uioNum, length_pageChunks] at hnum
    have hkept : (fsg.taggedFor curthread).uioNum = fsg.uioNum := rfl
    rw [hkept] at hnum
    omega
  · intro hnot
    refine ⟨kfioSglMapBytes_atomic, fun rc fsg' p heq hfail ↦ ?_⟩
    by_cases htakes : fsg.TakesPagesOf curthread
    · rw [kfioSglMapUserPages_eq htakes] at heq
      by_cases hle : pagesNeeded size.toNat offset.toNat ≤ fsg.room
      · rw [if_pos hle] at heq
        cases heq
        exact absurd rfl hfail
      · have hroom : fsg.room = 0 := by
          by_contra hpos
          exact hnot ⟨htakes, by omega, by omega⟩
        rw [hroom, Nat.min_zero] at heq
        cases heq
        -- nothing was recorded, and the tag that was written is the one that was there
        exact ⟨rfl, rfl, rfl, fun hne ↦ (htakes hne).1.symm, fun hne ↦ (htakes hne).2.symm⟩
    · rw [kfioSglMapUserPages_refused htakes] at heq
      cases heq
      exact .refl fsg

/-- Four pages for a list that has room for three, which are recorded before the call fails. -/
theorem atomicOnFailure_emptySgl :
    ¬ AtomicOnFailure emptySgl 0x5000 64 (fun _ ↦ 0x10000) 16384 0 7 := by
  rintro ⟨-, hpages⟩
  have hfail : ∃ fsg', kfioSglMapUserPages emptySgl (fun _ ↦ 0x10000) 16384 0 7 =
      .ok (-ENOMEM, fsg', 3) ∧ fsg'.uioNum = 3 := ⟨_, rfl, by decide⟩
  obtain ⟨fsg', heq, hnum⟩ := hfail
  have hsame := (hpages _ _ _ heq (by decide)).uioNum
  rw [hnum] at hsame
  exact absurd hsame (by decide)

/-! ## The running total -/

/-- The byte count of a list is that of its entries, also where busdma and a map are given it. -/
structure SizeExact (fsg : FreebsdSgl) : Prop where
  size : (kfioSglSize fsg).toNat = fsg.total
  resid : ∀ dir, (fsg.uio dir).uioResid.toInt = fsg.total
  mapLength : (wholeDmaMap fsg).mapLength.toNat = fsg.total

theorem sizeExact_iff (fsg : FreebsdSgl) : SizeExact fsg ↔ fsg.uioSize.toNat = fsg.total := by
  constructor
  · exact fun h ↦ h.size
  · intro h
    refine ⟨h, fun dir ↦ ?_, h⟩
    have hlt := fsg.uioSize.toNat_lt
    have hresid : (fsg.uio dir).uioResid.toInt = fsg.uioSize.toUInt64.toInt64.toInt := rfl
    rw [hresid, ← UInt64.ofNat_uInt32ToNat]
    show (Int64.ofNat fsg.uioSize.toNat).toInt = _
    rw [Int64.toInt_ofNat_of_lt (by omega), h]

theorem Recorded.total {fsg fsg' : FreebsdSgl} {chunks : List (UInt64 × UInt32)}
    (h : Recorded fsg chunks fsg') : fsg'.total = fsg.total + chunkTotal chunks := by
  unfold FreebsdSgl.total chunkTotal
  rw [h.entries, List.map_append, Extent.total_append]

/-- The bytes of a page append that find room on the list. -/
def bytesWithin (room size offset : ℕ) : ℕ :=
  if room = 0 then 0
  else if fusionPageSize < offset then size
  else min size (room * fusionPageSize - offset)

theorem chunkTotal_within (pages : ℕ → UInt64) (room p : ℕ) (size offset : UInt32) :
    chunkTotal (pageChunks pages (min (pagesNeeded size.toNat offset.toNat) room) p size offset) =
      bytesWithin room size.toNat offset.toNat := by
  -- on the room: each turn takes one entry of it, and every page but the first whole
  induction room generalizing p size offset with
  | zero => rw [Nat.min_zero]; rfl
  | succ room ih =>
      by_cases hpos : 0 < size.toNat
      · have hrest := mappedBytes_rest size offset
        have hmapped := mappedBytes_toNat size offset
        have htail := ih (p + 1) (size - mappedBytes size offset) 0
        rw [UInt32.toNat_zero] at htail
        rw [pagesNeeded_turn hpos, Nat.add_min_add_right, pageChunks, chunkTotal_cons, htail, hrest,
          hmapped]
        unfold bytesWithin
        rw [fusionPageSize_eq]
        by_cases hover : 4096 < offset.toNat
        · simp [hover]
        · simp only [hover, if_false, Nat.add_eq_zero_iff, one_ne_zero, and_false, not_lt_zero]
          by_cases hlast : room = 0
          · rw [if_pos hlast, hlast]
            omega
          · rw [if_neg hlast]
            omega
      · have hzero : size.toNat = 0 := by omega
        rw [hzero, pagesNeeded_zero, Nat.zero_min]
        simp [pageChunks, bytesWithin]

/-- The list has room for a kernel buffer, and holds no user pages. -/
def FreebsdSgl.bytesTaken (fsg : FreebsdSgl) (size : UInt32) : ℕ :=
  if 0 < fsg.room ∧ (fsg.uioNum ≠ 0 → fsg.uioSegflg = .sysspace) then size.toNat else 0

def FreebsdSgl.pageBytesTaken (fsg : FreebsdSgl) (size offset : UInt32) (curthread : Thread) : ℕ :=
  if fsg.TakesPagesOf curthread then bytesWithin fsg.room size.toNat offset.toNat else 0

/-- The bytes that an append adds to a list in this state. -/
def SglEvent.bytesAdded (fsg : FreebsdSgl) : SglEvent → ℕ
  | .mapBytes _ size | .mapPage _ _ size => fsg.bytesTaken size
  | .mapUserPages _ size offset curthread => fsg.pageBytesTaken size offset curthread
  | _ => 0

/-- An append counts what it adds modulo the width of the counter. -/
structure Counts (fsg : FreebsdSgl) (added : ℕ) (fsg' : FreebsdSgl) : Prop where
  total : fsg'.total = fsg.total + added
  uioSize : fsg'.uioSize.toNat = (fsg.uioSize.toNat + added) % 2 ^ 32

theorem Counts.refl (fsg : FreebsdSgl) : Counts fsg 0 fsg :=
  ⟨rfl, (Nat.mod_eq_of_lt fsg.uioSize.toNat_lt).symm⟩

theorem kfioSglMapBytes_counts (fsg : FreebsdSgl) (buffer : UInt64) (size : UInt32) :
    Counts fsg (fsg.bytesTaken size) (kfioSglMapBytes fsg buffer size).2 := by
  have hroom : 0 < fsg.room ↔ ¬ fsg.uioNum ≥ fsg.uioMax := by
    rw [ge_iff_le, UInt32.le_iff_toNat_le, FreebsdSgl.room]
    omega
  unfold FreebsdSgl.bytesTaken kfioSglMapBytes
  by_cases hfull : fsg.uioNum ≥ fsg.uioMax
  · rw [if_pos hfull, if_neg (fun h ↦ hroom.mp h.1 hfull)]
    exact .refl fsg
  · rw [if_neg hfull]
    by_cases hseg : fsg.uioNum ≠ 0 ∧ fsg.uioSegflg ≠ .sysspace
    · rw [if_pos hseg, if_neg (fun h ↦ hseg.2 (h.2 hseg.1))]
      exact .refl fsg
    · rw [if_neg hseg, if_pos ⟨hroom.mpr hfull, fun hnum ↦ not_not.mp fun h ↦ hseg ⟨hnum, h⟩⟩]
      have hrec := recordAll_recorded fsg [(buffer, size)] (hroom.mpr hfull)
      have htotal : chunkTotal [(buffer, size)] = size.toNat := by simp
      rw [← htotal]
      exact ⟨hrec.total, hrec.uioSize⟩

theorem kfioSglMapUserPages_counts (fsg : FreebsdSgl) (pages : ℕ → UInt64) (size offset : UInt32)
    (curthread : Thread) :
    ∃ rc fsg' p, kfioSglMapUserPages fsg pages size offset curthread = .ok (rc, fsg', p) ∧
      Counts fsg (fsg.pageBytesTaken size offset curthread) fsg' := by
  unfold FreebsdSgl.pageBytesTaken
  by_cases htakes : fsg.TakesPagesOf curthread
  · refine ⟨_, _, _, kfioSglMapUserPages_eq htakes pages size offset, ?_⟩
    have hrec := recordAll_recorded (fsg.taggedFor curthread)
      (pageChunks pages (min (pagesNeeded size.toNat offset.toNat) fsg.room) 0 size offset)
      (by rw [length_pageChunks]; exact min_le_right _ _)
    rw [if_pos htakes, ← chunkTotal_within pages fsg.room 0]
    exact ⟨hrec.total, hrec.uioSize⟩
  · refine ⟨_, _, _, kfioSglMapUserPages_refused htakes pages size offset, ?_⟩
    rw [if_neg htakes]
    exact .refl fsg

theorem total_of_empty {fsg : FreebsdSgl} (hempty : fsg.uioNum = 0) : fsg.total = 0 := by
  unfold FreebsdSgl.total FreebsdSgl.entries
  rw [hempty]
  rfl

/-- A load changes the segments of a list, not its entries. -/
theorem kfioSglDmaMap_counts (load : BusLoad) (log : BusLog) (fsg : FreebsdSgl)
    (dmap : Option KfioDmaMap) (dir : Int32) :
    Counts fsg 0 (kfioSglDmaMap load log fsg dmap dir).2.2.1 := by
  have hcallback : Counts fsg 0 (fusionDmamapCallback fsg load.segs load.nsegs load.error) := by
    unfold fusionDmamapCallback
    split_ifs
    · exact ⟨rfl, (Counts.refl fsg).uioSize⟩
    · exact ⟨rfl, (Counts.refl fsg).uioSize⟩
  unfold kfioSglDmaMap
  dsimp only
  split_ifs <;> exact hcallback

theorem kfioSglDmaUnmap_counts (log : BusLog) (fsg : FreebsdSgl) :
    Counts fsg 0 (kfioSglDmaUnmap log fsg).2 := by
  unfold kfioSglDmaUnmap
  split_ifs
  · exact ⟨rfl, (Counts.refl fsg).uioSize⟩
  · exact .refl fsg

/-- A reset starts the total again at zero; anything else counts what it adds. -/
theorem sglStep_counts {s s' : SglState} {e : SglEvent} (hs : sglStep s e = some s') :
    Counts s.fsg (e.bytesAdded s.fsg) s'.fsg ∨
      e = .reset ∧ s'.fsg.uioSize = 0 ∧ s'.fsg.total = 0 := by
  cases e with
  | mapBytes buffer size => cases hs; exact Or.inl (kfioSglMapBytes_counts _ _ _)
  | mapPage page offset size =>
      cases hs
      exact Or.inl (kfioSglMapBytes_counts s.fsg (page + offset.toUInt64) size)
  | mapUserPages pages size offset curthread =>
      obtain ⟨rc, fsg', p, heq, hcounts⟩ :=
        kfioSglMapUserPages_counts s.fsg pages size offset curthread
      rw [sglStep, heq] at hs
      cases hs
      exact Or.inl hcounts
  | dmaMap load dmap dir =>
      rw [sglStep] at hs
      by_cases hload : s.fsg.segPtr = none ∧ load.Told
      · rw [if_pos hload] at hs
        obtain rfl := Option.some.inj hs
        exact Or.inl (kfioSglDmaMap_counts load s.log s.fsg dmap dir)
      · rw [if_neg hload] at hs
        cases hs
  | dmaUnmap =>
      cases hs
      exact Or.inl (kfioSglDmaUnmap_counts s.log s.fsg)
  | reset =>
      cases hs
      exact Or.inr ⟨rfl, rfl, total_of_empty rfl⟩

/-- An append is never refused as an event: the source reports its failure to the caller. -/
theorem sglStep_of_bytesAdded {s : SglState} {e : SglEvent} (hadd : e.bytesAdded s.fsg ≠ 0) :
    ∃ t, sglStep s e = some t := by
  cases e with
  | mapBytes buffer size => exact ⟨_, rfl⟩
  | mapPage page offset size => exact ⟨_, rfl⟩
  | mapUserPages pages size offset curthread =>
      obtain ⟨rc, fsg', p, heq, -⟩ :=
        kfioSglMapUserPages_counts s.fsg pages size offset curthread
      rw [sglStep, heq]
      exact ⟨_, rfl⟩
  | dmaMap load dmap dir => exact absurd rfl hadd
  | dmaUnmap => exact absurd rfl hadd
  | reset => exact absurd rfl hadd

/-- However a list that was empty is used, its size is that of its entries in every state exactly if
no append takes the bytes recorded past what the 32 bits of the counter hold. -/
theorem kfioSglSize_exact_iff {s : SglState} (hnum : s.fsg.uioNum = 0) (hsize : s.fsg.uioSize = 0)
    (es : List SglEvent) :
    Throughout sglStep (fun t ↦ SizeExact t.fsg) s es ↔
      Along sglStep (fun t e ↦ ¬ 2 ^ 32 ≤ t.fsg.total + e.bytesAdded t.fsg) s es := by
  refine throughout_iff_along (fun _ h ↦ h) ?_ ?_ es ?_
  · intro t e t' hexact hfits hs
    rw [sizeExact_iff] at hexact ⊢
    rcases sglStep_counts hs with hcounts | ⟨-, hzero, htotal⟩
    · rw [hcounts.uioSize, hcounts.total, hexact]
      exact Nat.mod_eq_of_lt (by omega)
    · rw [hzero, htotal]
      rfl
  · intro t e hexact hover
    rw [sizeExact_iff] at hexact
    have hlt := t.fsg.uioSize.toNat_lt
    obtain ⟨t', hs⟩ := sglStep_of_bytesAdded (s := t) (e := e) (by omega)
    refine ⟨t', hs, ?_⟩
    rw [sizeExact_iff]
    rcases sglStep_counts hs with hcounts | ⟨hreset, -, -⟩
    · -- the counter is below the total from here on
      have hlt' := t'.fsg.uioSize.toNat_lt
      have htotal := hcounts.total
      omega
    · subst hreset
      have hnone : SglEvent.reset.bytesAdded t.fsg = 0 := rfl
      omega
  · rw [sizeExact_iff, hsize, total_of_empty hnum]
    rfl

def emptySglState : SglState := ⟨emptySgl, [], []⟩

/-- Two buffers of 2 GiB. -/
theorem kfioSglSize_inexact :
    ¬ Throughout sglStep (fun t ↦ SizeExact t.fsg) emptySglState
      [.mapBytes 0x100000000 0x80000000, .mapBytes 0x200000000 0x80000000] := by
  refine not_throughout_of_last (f := fun t ↦ (t.fsg.uioSize, t.fsg.entries))
    (b := (0, [⟨0x100000000, 0x80000000⟩, ⟨0x200000000, 0x80000000⟩])) (by decide) ?_
  intro t ht hexact
  have hsize := (Prod.mk.inj ht).1
  have hentries := (Prod.mk.inj ht).2
  rw [sizeExact_iff, hsize, FreebsdSgl.total, hentries] at hexact
  exact absurd hexact (by decide)

theorem kfioSglSize_exact_iff_emptySglState :
    Throughout sglStep (fun t ↦ SizeExact t.fsg) emptySglState [.mapBytes 0x5000 64] := by
  refine (kfioSglSize_exact_iff rfl rfl _).mpr ⟨by decide, ?_⟩
  intro t _
  exact trivial

end IomemoryVsl.Kscatter
