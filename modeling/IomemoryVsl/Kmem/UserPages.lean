import IomemoryVsl.Kscatter.Sgl
import IomemoryVsl.Lib.Extent

/-!
# Pinned user pages (`kmem.c`)

`kfio_get_user_pages` locks a range of pages with one call of `vslock` and hands out its pages one
by one.  `kfio_put_user_pages` gets pages in any order and finds the ranges again: it calls
`vsunlock` once for each run of pages that follow on from each other.
-/

namespace IomemoryVsl.Kmem

open Kscatter (FUSION_PAGE_SIZE Fault)

/-- The address and the length that `vslock` or `vsunlock` is called with. -/
structure PageRange where
  addr : UInt64
  len : UInt64
deriving DecidableEq, Repr

/-- `trunc_page`. -/
def truncPage (a : UInt64) : UInt64 := a &&& ~~~(FUSION_PAGE_SIZE - 1)

/-- `round_page`. -/
def roundPage (a : UInt64) : UInt64 := truncPage (a + (FUSION_PAGE_SIZE - 1))

/-- A call of `kfio_get_user_pages`, and what its `vslock` answers. -/
structure GetCall where
  nrPages : Int32
  start : UInt64
  error : Int32
deriving DecidableEq, Repr

/-- The range that the call locks. -/
def GetCall.range (c : GetCall) : PageRange :=
  ⟨truncPage c.start, c.nrPages.toInt64.toUInt64 * FUSION_PAGE_SIZE⟩

/-- The loop that fills in `pages`, with `n` pages to go. -/
def splitPages : Nat → UInt64 → List UInt64
  | 0, _ => []
  | n + 1, start => start :: splitPages n (start + FUSION_PAGE_SIZE)

/-- `kfio_get_user_pages`, and the elements of `pages` that it fills in. -/
def kfioGetUserPages (c : GetCall) : Int32 × List UInt64 :=
  if c.error ≠ 0 then (-c.error, [])
  else (c.nrPages, splitPages c.nrPages.toInt.toNat c.range.addr)

/-- Reading `pages[i]`. -/
def readPage (pages : List UInt64) (i : Nat) : Except Fault UInt64 :=
  match pages[i]? with
  | none => .error .outOfBounds
  | some page => .ok page

/-- The inner loop of `kfio_put_user_pages`, entered with the index `j`. -/
def putRun (pages : List UInt64) (nrPages : Int32) : Nat → UInt64 → Nat → Except Fault Nat
  | 0, _, _ => .error .diverges
  | fuel + 1, start, j =>
      if (j : Int) < nrPages.toInt then do
        let start := start + FUSION_PAGE_SIZE
        let page ← readPage pages j
        if start ≠ page then .ok j else putRun pages nrPages fuel start (j + 1)
      else .ok j

/-- The outer loop of `kfio_put_user_pages`, entered with the index `i`, and the calls of
`vsunlock` that it makes. -/
def putRuns (pages : List UInt64) (nrPages : Int32) : Nat → Nat → Except Fault (List PageRange)
  | 0, _ => .error .diverges
  | fuel + 1, i =>
      if (i : Int) < nrPages.toInt then do
        let start ← readPage pages i
        let j ← putRun pages nrPages fuel start (i + 1)
        let calls ← putRuns pages nrPages fuel j
        .ok (⟨start, UInt64.ofNat (j - i) * FUSION_PAGE_SIZE⟩ :: calls)
      else .ok []

def kfioPutUserPages (pages : List UInt64) (nrPages : Int32) : Except Fault (List PageRange) :=
  -- each turn of either loop passes over a page
  putRuns pages nrPages (nrPages.toInt.toNat + 1) 0

/-! ## Ranges and their pages -/

/-- The address of the page `k` pages after `a`. -/
def pageShift (a : UInt64) (k : Nat) : UInt64 := a + UInt64.ofNat k * FUSION_PAGE_SIZE

/-- The number of pages that `vslock` wires or `vsunlock` unwires: all that the range touches. -/
def PageRange.size (r : PageRange) : Nat :=
  ((roundPage (r.addr + r.len) - truncPage r.addr) / FUSION_PAGE_SIZE).toNat

/-- The addresses of these pages. -/
def PageRange.pages (r : PageRange) : List UInt64 :=
  Extent.cells pageShift ⟨truncPage r.addr, r.size⟩

/-- The range begins where a page does, and its length is a number of pages. -/
def PageRange.Whole (r : PageRange) : Prop :=
  r.addr.toNat % 4096 = 0 ∧ r.len.toNat = r.size * 4096

/-- The range does not wrap around the end of the address space. -/
def PageRange.InSpace (r : PageRange) : Prop := r.addr.toNat + r.len.toNat < 2 ^ 64

theorem pageShift_zero (a : UInt64) : pageShift a 0 = a := by
  unfold pageShift
  simp

theorem pageShift_one (a : UInt64) : pageShift a 1 = a + FUSION_PAGE_SIZE := by
  unfold pageShift
  simp

theorem pageShift_pageShift (a : UInt64) (j k : Nat) :
    pageShift (pageShift a j) k = pageShift a (j + k) := by
  unfold pageShift
  rw [UInt64.ofNat_add, UInt64.add_mul, UInt64.add_assoc]

theorem toNat_pageShift {a : UInt64} {k : Nat} (hfit : a.toNat + k * 4096 < 2 ^ 64) :
    (pageShift a k).toNat = a.toNat + k * 4096 := by
  have hsize : FUSION_PAGE_SIZE.toNat = 4096 := rfl
  unfold pageShift
  rw [UInt64.toNat_add, UInt64.toNat_mul, UInt64.toNat_ofNat', hsize,
    Nat.mod_eq_of_lt (show k < 2 ^ 64 by omega), Nat.mod_eq_of_lt (show k * 4096 < 2 ^ 64 by omega),
    Nat.mod_eq_of_lt hfit]

/-! ## Rounding to pages -/

theorem truncPage_add_offset (a : UInt64) :
    truncPage a + (a &&& (FUSION_PAGE_SIZE - 1)) = a := by
  unfold truncPage
  apply UInt64.toBitVec_inj.mp
  rw [UInt64.toBitVec_add, UInt64.toBitVec_and, UInt64.toBitVec_and, UInt64.toBitVec_not]
  generalize (FUSION_PAGE_SIZE - 1).toBitVec = mask
  rw [BitVec.add_eq_or_of_and_eq_zero]
  · ext i hi
    cases hbit : mask[i] <;> simp [hbit]
  · ext i hi
    cases hbit : mask[i] <;> simp [hbit]

theorem toNat_pageOffset (a : UInt64) : (a &&& (FUSION_PAGE_SIZE - 1)).toNat = a.toNat % 4096 := by
  have hmask : (FUSION_PAGE_SIZE - 1).toNat = 2 ^ 12 - 1 := by decide
  rw [UInt64.toNat_and, hmask, Nat.and_two_pow_sub_one_eq_mod]

theorem toNat_truncPage (a : UInt64) : (truncPage a).toNat = a.toNat / 4096 * 4096 := by
  have hle : (truncPage a).toNat ≤ a.toNat := by
    unfold truncPage
    rw [UInt64.toNat_and]
    exact Nat.and_le_left
  have hsum := congrArg UInt64.toNat (truncPage_add_offset a)
  rw [UInt64.toNat_add, toNat_pageOffset] at hsum
  omega

theorem truncPage_aligned (a : UInt64) : (truncPage a).toNat % 4096 = 0 := by
  rw [toNat_truncPage]
  exact Nat.mul_mod_left _ _

theorem pageShift_aligned {a : UInt64} (ha : a.toNat % 4096 = 0) (k : Nat) :
    (pageShift a k).toNat % 4096 = 0 := by
  have hsize : FUSION_PAGE_SIZE.toNat = 4096 := rfl
  unfold pageShift
  rw [UInt64.toNat_add, UInt64.toNat_mul, UInt64.toNat_ofNat', hsize]
  omega

theorem PageRange.pages_aligned (r : PageRange) : ∀ p ∈ r.pages, p.toNat % 4096 = 0 := by
  intro p hp
  obtain ⟨k, -, rfl⟩ := List.mem_map.mp hp
  exact pageShift_aligned (truncPage_aligned r.addr) k

section Aligned

variable {a : UInt64} (ha : a.toNat % 4096 = 0)

include ha in
theorem truncPage_eq_self : truncPage a = a := by
  apply UInt64.toNat_inj.mp
  rw [toNat_truncPage]
  omega

include ha in
theorem roundPage_eq_self : roundPage a = a := by
  have hlt := a.toNat_lt
  have hmask : (FUSION_PAGE_SIZE - 1).toNat = 4095 := by decide
  apply UInt64.toNat_inj.mp
  unfold roundPage
  rw [toNat_truncPage, UInt64.toNat_add, hmask]
  omega

variable {n : Nat} (hn : n < 2 ^ 32)

include hn in
/-- A number of pages that fits in an `int` is not lost in the length of a range. -/
theorem toNat_pagesLen : (UInt64.ofNat n * FUSION_PAGE_SIZE).toNat = n * 4096 := by
  have hsize : FUSION_PAGE_SIZE.toNat = 4096 := rfl
  rw [UInt64.toNat_mul, UInt64.toNat_ofNat', hsize, Nat.mod_eq_of_lt (show n < 2 ^ 64 by omega),
    Nat.mod_eq_of_lt (by omega)]

include ha hn in
theorem size_ofNat : (PageRange.mk a (UInt64.ofNat n * FUSION_PAGE_SIZE)).size = n := by
  have hsize : FUSION_PAGE_SIZE.toNat = 4096 := rfl
  have hend : (a + UInt64.ofNat n * FUSION_PAGE_SIZE).toNat % 4096 = 0 := pageShift_aligned ha n
  unfold PageRange.size
  rw [roundPage_eq_self hend, truncPage_eq_self ha, UInt64.add_comm, UInt64.add_sub_cancel,
    UInt64.toNat_div, toNat_pagesLen hn, hsize, Nat.mul_div_cancel n (by decide)]

include ha hn in
theorem whole_ofNat : (PageRange.mk a (UInt64.ofNat n * FUSION_PAGE_SIZE)).Whole := by
  refine ⟨ha, ?_⟩
  rw [size_ofNat ha hn]
  exact toNat_pagesLen hn

include ha hn in
theorem pages_ofNat :
    (PageRange.mk a (UInt64.ofNat n * FUSION_PAGE_SIZE)).pages = Extent.cells pageShift ⟨a, n⟩ := by
  unfold PageRange.pages
  rw [size_ofNat ha hn, truncPage_eq_self ha]

end Aligned

/-- A whole range that does not wrap has no page at the end of the address space. -/
theorem PageRange.InSpace.page {r : PageRange} (hwhole : r.Whole) (hspace : r.InSpace) :
    ∀ p ∈ r.pages, p.toNat + 4096 < 2 ^ 64 := by
  obtain ⟨haligned, hlen⟩ := hwhole
  unfold PageRange.InSpace at hspace
  intro p hp
  obtain ⟨k, hk, rfl⟩ := List.mem_map.mp hp
  have hlt : k < r.size := List.mem_range.mp hk
  have hto := toNat_pageShift (show r.addr.toNat + k * 4096 < 2 ^ 64 by omega)
  show (pageShift (truncPage r.addr) k).toNat + 4096 < 2 ^ 64
  rw [truncPage_eq_self haligned]
  omega

/-- A whole range none of whose pages is at the end of the address space does not wrap. -/
theorem PageRange.inSpace_of_pages {r : PageRange} (hwhole : r.Whole)
    (hpages : ∀ p ∈ r.pages, p.toNat + 4096 < 2 ^ 64) : r.InSpace := by
  obtain ⟨haligned, hlen⟩ := hwhole
  -- on the number of pages from the start of the range
  have hfit : ∀ k, k ≤ r.size → r.addr.toNat + k * 4096 < 2 ^ 64 := by
    intro k
    induction k with
    | zero =>
        intro _
        simpa using r.addr.toNat_lt
    | succ k ih =>
        intro hk
        have hmem : pageShift (truncPage r.addr) k ∈ r.pages :=
          List.mem_map.mpr ⟨k, List.mem_range.mpr hk, rfl⟩
        have hpage := hpages _ hmem
        rw [truncPage_eq_self haligned, toNat_pageShift (ih (Nat.le_of_succ_le hk))] at hpage
        omega
  unfold PageRange.InSpace
  rw [hlen]
  exact hfit r.size (Nat.le_refl _)

theorem splitPages_eq (n : Nat) (start : UInt64) :
    splitPages n start = Extent.cells pageShift ⟨start, n⟩ := by
  induction n generalizing start with
  | zero => rfl
  | succ n ih =>
      rw [splitPages, ih, Extent.cells_succ pageShift pageShift_pageShift pageShift_zero,
        pageShift_one]

section Get

variable {c : GetCall} (hnr : 0 ≤ c.nrPages)

include hnr in
theorem GetCall.range_eq :
    c.range = ⟨truncPage c.start, UInt64.ofNat c.nrPages.toInt.toNat * FUSION_PAGE_SIZE⟩ := by
  have hle : 0 ≤ c.nrPages.toInt := Int32.le_iff_toInt_le.mp hnr
  have hlt : c.nrPages.toInt < 2 ^ 31 := Int32.toInt_lt c.nrPages
  have hcount : c.nrPages.toInt64.toUInt64 = UInt64.ofNat c.nrPages.toInt.toNat := by
    apply UInt64.toNat_inj.mp
    have hpos : 0 ≤ c.nrPages.toInt64 := by
      rw [Int64.le_iff_toInt_le, Int32.toInt_toInt64]
      exact hle
    rw [Int64.toNat_toUInt64_of_le hpos, UInt64.toNat_ofNat', Nat.mod_eq_of_lt (by omega)]
    show c.nrPages.toInt64.toInt.toNat = _
    rw [Int32.toInt_toInt64]
  unfold GetCall.range
  rw [hcount]

include hnr in
theorem GetCall.range_whole : c.range.Whole := by
  have hlt : c.nrPages.toInt < 2 ^ 31 := Int32.toInt_lt c.nrPages
  rw [GetCall.range_eq hnr]
  exact whole_ofNat (truncPage_aligned _) (by omega)

include hnr in
/-- A successful call fills in the pages of the range that it locked. -/
theorem kfioGetUserPages_success (hok : c.error = 0) :
    kfioGetUserPages c = (c.nrPages, c.range.pages) := by
  have hlt : c.nrPages.toInt < 2 ^ 31 := Int32.toInt_lt c.nrPages
  unfold kfioGetUserPages
  rw [if_neg (not_not.mpr hok), splitPages_eq, GetCall.range_eq hnr,
    pages_ofNat (truncPage_aligned _) (by omega)]

end Get

/-! ## Finding the ranges again -/

theorem readPage_of_lt {pages : List UInt64} {i : Nat} (hi : i < pages.length) :
    readPage pages i = .ok pages[i] := by
  unfold readPage
  rw [List.getElem?_eq_getElem hi]

section Put

variable {pages : List UInt64} {nrPages : Int32} (hnr : nrPages.toInt = pages.length)
  (haligned : ∀ p ∈ pages, p.toNat % 4096 = 0)

include hnr in
/-- The inner loop stops behind the pages that follow on from `start`. -/
theorem putRun_eq {fuel : Nat} (start : UInt64) {j : Nat} (hj : j ≤ pages.length)
    (hfuel : pages.length - j < fuel) :
    putRun pages nrPages fuel start j =
      .ok (j + Extent.runLength pageShift start (pages.drop j)) := by
  induction fuel generalizing start j with
  | zero => omega
  | succ fuel ih =>
      rw [putRun]
      by_cases hlt : j < pages.length
      · have hcond : (j : Int) < nrPages.toInt := by omega
        rw [if_pos hcond, readPage_of_lt hlt, List.drop_eq_getElem_cons hlt, Extent.runLength,
          pageShift_one]
        simp only [bind, Except.bind]
        by_cases hnext : start + FUSION_PAGE_SIZE = pages[j]
        · rw [if_neg (not_not.mpr hnext), if_pos hnext, hnext, ih pages[j] hlt (by omega),
            Nat.add_assoc j 1, Nat.add_comm 1]
        · rw [if_pos hnext, if_neg hnext]
          rfl
      · have hcond : ¬ (j : Int) < nrPages.toInt := by omega
        rw [if_neg hcond, List.drop_eq_nil_of_le (by omega)]
        rfl

include hnr haligned in
/-- The outer loop finds one range for each maximal run among the pages from `i` on. -/
theorem putRuns_spec {fuel i : Nat} (hi : i ≤ pages.length) (hfuel : pages.length - i < fuel) :
    ∃ calls, putRuns pages nrPages fuel i = .ok calls ∧ (∀ r ∈ calls, r.Whole) ∧
      calls.map PageRange.pages = (pages.drop i).splitBy (Extent.follows pageShift) := by
  induction fuel generalizing i with
  | zero => omega
  | succ fuel ih =>
      rw [putRuns]
      -- the inner loop leaves at the first page that does not follow on, where the next run starts
      by_cases hlt : i < pages.length
      · have hcond : (i : Int) < nrPages.toInt := by omega
        have hrun := Extent.runLength_le pageShift pages[i] (pages.drop (i + 1))
        rw [List.length_drop] at hrun
        have hstart := haligned _ (List.getElem_mem hlt)
        have hsmall : nrPages.toInt < 2 ^ 31 := Int32.toInt_lt nrPages
        obtain ⟨calls, hcalls, hwhole, hmap⟩ :=
          @ih (i + 1 + Extent.runLength pageShift pages[i] (pages.drop (i + 1)))
            (by omega) (by omega)
        refine ⟨⟨pages[i], UInt64.ofNat (i + 1 +
          Extent.runLength pageShift pages[i] (pages.drop (i + 1)) - i) * FUSION_PAGE_SIZE⟩ ::
            calls, ?_, ?_, ?_⟩
        · rw [if_pos hcond, readPage_of_lt hlt]
          show (putRun pages nrPages fuel pages[i] (i + 1)).bind _ = _
          rw [putRun_eq hnr pages[i] (by omega) (by omega)]
          show (putRuns pages nrPages fuel _).bind _ = _
          rw [hcalls]
          rfl
        · exact List.forall_mem_cons.mpr ⟨whole_ofNat hstart (by omega), hwhole⟩
        · rw [List.map_cons, pages_ofNat hstart (by omega), hmap, List.drop_eq_getElem_cons hlt,
            Extent.splitBy_follows_cons,
            ← Extent.cells_runLength pageShift pageShift_zero pageShift_pageShift, List.drop_drop]
          congr 3
          omega
      · have hcond : ¬ (i : Int) < nrPages.toInt := by omega
        refine ⟨[], if_neg hcond, List.forall_mem_nil _, ?_⟩
        rw [List.drop_eq_nil_of_le (by omega)]
        rfl

end Put

/-- Whatever pages earlier calls have locked and in whatever order they come back, each is unlocked
once: one range for each maximal run of pages that follow on from each other, of whole pages, and
none that wraps when no locked range does. -/
theorem putUserPages_unlocks_locked (gets : List GetCall)
    (hgets : ∀ c ∈ gets, c.error = 0 ∧ 0 ≤ c.nrPages) (pages : List UInt64) (nrPages : Int32)
    (hperm : pages.Perm (gets.flatMap fun c ↦ (kfioGetUserPages c).2))
    (hnr : nrPages.toInt = pages.length) :
    ∃ calls, kfioPutUserPages pages nrPages = .ok calls ∧
      calls.flatMap PageRange.pages = pages ∧
      (calls.flatMap PageRange.pages).Perm (gets.flatMap fun c ↦ c.range.pages) ∧
      calls.map PageRange.pages = pages.splitBy (fun a b ↦ a + FUSION_PAGE_SIZE = b) ∧
      (∀ r ∈ calls, r.Whole) ∧
      ((∀ c ∈ gets, c.range.InSpace) → ∀ r ∈ calls, r.InSpace) := by
  have hlocked : (gets.flatMap fun c ↦ (kfioGetUserPages c).2) =
      gets.flatMap fun c ↦ c.range.pages := by
    refine List.flatMap_congr ?_
    intro c hc
    rw [kfioGetUserPages_success (hgets c hc).2 (hgets c hc).1]
  rw [hlocked] at hperm
  have haligned : ∀ p ∈ pages, p.toNat % 4096 = 0 := by
    intro p hp
    obtain ⟨c, -, hpc⟩ := List.mem_flatMap.mp (hperm.mem_iff.mp hp)
    exact c.range.pages_aligned p hpc
  obtain ⟨calls, hcalls, hwhole, hmap⟩ :=
    @putRuns_spec pages nrPages hnr haligned (nrPages.toInt.toNat + 1) 0 (Nat.zero_le _) (by omega)
  rw [List.drop_zero] at hmap
  have hfollows : (fun a b : UInt64 ↦ decide (a + FUSION_PAGE_SIZE = b)) =
      Extent.follows pageShift := by
    funext a b
    unfold Extent.follows
    rw [pageShift_one]
  -- cutting into runs neither drops a page nor moves one
  have hflat : calls.flatMap PageRange.pages = pages := by
    rw [List.flatMap_def, hmap, List.flatten_splitBy]
  refine ⟨calls, hcalls, hflat, ?_, ?_, hwhole, ?_⟩
  · rw [hflat]
    exact hperm
  · rw [hmap, hfollows]
  · intro hspace r hr
    refine PageRange.inSpace_of_pages (hwhole r hr) ?_
    intro p hp
    have hmem : p ∈ pages := by
      rw [← hflat]
      exact List.mem_flatMap.mpr ⟨r, hr, hp⟩
    obtain ⟨c, hc, hpc⟩ := List.mem_flatMap.mp (hperm.mem_iff.mp hmem)
    exact PageRange.InSpace.page (GetCall.range_whole (hgets c hc).2) (hspace c hc) p hpc

/-! Two calls that locked adjacent ranges, with one page of the second given back first. -/

def sampleGets : List GetCall := [⟨2, 0x1234, 0⟩, ⟨2, 0x3000, 0⟩]

def samplePages : List UInt64 := [0x4000, 0x1000, 0x2000, 0x3000]

theorem putUserPages_unlocks_locked_sample :
    kfioPutUserPages samplePages 4 = .ok [⟨0x4000, 0x1000⟩, ⟨0x1000, 0x3000⟩] ∧
      ∃ calls, kfioPutUserPages samplePages 4 = .ok calls ∧
        calls.flatMap PageRange.pages = samplePages ∧ ∀ r ∈ calls, r.Whole := by
  obtain ⟨calls, hcalls, hflat, -, -, hwhole, -⟩ := putUserPages_unlocks_locked sampleGets
    (by decide) samplePages 4 (by decide) (by decide)
  exact ⟨by decide, calls, hcalls, hflat, hwhole⟩

end IomemoryVsl.Kmem
