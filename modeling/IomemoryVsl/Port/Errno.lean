import IomemoryVsl.Lib.Designated
import Mathlib.Algebra.Group.Int.Defs
import Mathlib.Algebra.Group.Nat.Defs
import Mathlib.Data.List.Nodup
import Mathlib.Tactic.SplitIfs

/-!
# Names of errors (`errno.c`, `port/errno.h`)

`ifio_strerror` and `ifio_strerror_sym` search a table whose entries stand at the index of their own
number.  The numbers leave holes between them, and the last entry ends the search.
-/

namespace IomemoryVsl.Port

open Designated

/-- The errors of `<sys/errno.h>` in the table. -/
inductive SysErrno where
  | EPERM | ENOENT | ESRCH | EINTR | EIO | ENXIO | E2BIG | ENOEXEC | EBADF | ECHILD | EAGAIN
  | ENOMEM | EACCES | EFAULT | EBUSY | EEXIST | EXDEV | ENODEV | ENOTDIR | EISDIR | EINVAL | ENFILE
  | EMFILE | ENOTTY | EFBIG | ENOSPC | ESPIPE | EROFS | EMLINK | EPIPE | EDOM | ERANGE
deriving DecidableEq, Repr

/-- What `<sys/errno.h>` defines them as.  Fusion's own numbers start at 1024, with a gap in front
of them. -/
structure SysErrnos where
  num : SysErrno → ℕ
  pos : ∀ e, 0 < num e
  distinct : Function.Injective num
  gap : ∀ e, num e < 1024

/-- The errors in the table. -/
inductive Errno where
  | ENONE
  | sys (e : SysErrno)
  | EUNCORRECTABLEECC
  | EUECC_BMOK
  | EECC_VALIDATION_FAIL
deriving DecidableEq, Repr

structure FioStrerrorEntry where
  errnoNum : Int32
  errnoSym : Option String
  errnoMsg : Option String
deriving DecidableEq, Repr

/-- What an array element without an initializer is. -/
def zeroEntry : FioStrerrorEntry := ⟨0, none, none⟩

/-- Fusion's errors that the table leaves out. -/
def EAFU : ℕ := 1026

def EUNKNOWN : ℕ := 1028

open SysErrno

def Errno.num (p : SysErrnos) : Errno → ℕ
  | .ENONE => 0
  | .sys e => p.num e
  | .EUNCORRECTABLEECC => 1024
  | .EUECC_BMOK => 1025
  | .EECC_VALIDATION_FAIL => 1027

/-- The arguments of `FIO_STRERROR_ENTRY`, one entry after the other; the string of `errnum` comes
before `msg`. -/
def strerrorRows : List (Errno × String × String) :=
  [(.ENONE, "ENONE", "No error"),
    (.sys EPERM, "EPERM", "Operation not permitted"),
    (.sys ENOENT, "ENOENT", "No such file or directory"),
    (.sys ESRCH, "ESRCH", "No such process"),
    (.sys EINTR, "EINTR", "Interrupted system call"),
    (.sys EIO, "EIO", "I/O error"),
    (.sys ENXIO, "ENXIO", "No such device or address"),
    (.sys E2BIG, "E2BIG", "Argument list too long"),
    (.sys ENOEXEC, "ENOEXEC", "Exec format error"),
    (.sys EBADF, "EBADF", "Bad file number"),
    (.sys ECHILD, "ECHILD", "No child processes"),
    (.sys EAGAIN, "EAGAIN", "Try again"),
    (.sys ENOMEM, "ENOMEM", "Out of memory"),
    (.sys EACCES, "EACCES", "Permission denied"),
    (.sys EFAULT, "EFAULT", "Bad address"),
    (.sys EBUSY, "EBUSY", "Device or resource busy"),
    (.sys EEXIST, "EEXIST", "File exists"),
    (.sys EXDEV, "EXDEV", "Cross-device link"),
    (.sys ENODEV, "ENODEV", "No such device"),
    (.sys ENOTDIR, "ENOTDIR", "Not a directory"),
    (.sys EISDIR, "EISDIR", "Is a directory"),
    (.sys EINVAL, "EINVAL", "Invalid argument"),
    (.sys ENFILE, "ENFILE", "File table overflow"),
    (.sys EMFILE, "EMFILE", "Too many open files"),
    (.sys ENOTTY, "ENOTTY", "Not a typewriter"),
    (.sys EFBIG, "EFBIG", "File too large"),
    (.sys ENOSPC, "ENOSPC", "No space left on device"),
    (.sys ESPIPE, "ESPIPE", "Illegal seek"),
    (.sys EROFS, "EROFS", "Read-only file system"),
    (.sys EMLINK, "EMLINK", "Too many links"),
    (.sys EPIPE, "EPIPE", "Broken pipe"),
    (.sys EDOM, "EDOM", "Math argument out of domain of func"),
    (.sys ERANGE, "ERANGE", "Math result not representable"),
    (.EUNCORRECTABLEECC, "EUNCORRECTABLEECC", "Uncorrectable ECC error"),
    (.EUECC_BMOK, "EUECC_BMOK", "Uncorrectable ECC error"),
    (.EECC_VALIDATION_FAIL, "EECC_VALIDATION_FAIL", "ECC validation failure")]

section Table

variable (p : SysErrnos)

/-- `FIO_STRERROR_ENTRY` -/
def fioStrerrorEntry (row : Errno × String × String) : ℕ × FioStrerrorEntry :=
  (row.1.num p, ⟨Int32.ofNat (row.1.num p), some row.2.1, some row.2.2⟩)

/-- The entry without a designator, which comes after the last of them. -/
def unknownEntry : FioStrerrorEntry := ⟨-1, some "EUNKNOWN", some "Unknown error"⟩

def fioStrerrorEntries : List FioStrerrorEntry :=
  array zeroEntry ((strerrorRows.map (fioStrerrorEntry p)).map (fun e ↦ (some e.1, e.2)) ++
    [(none, unknownEntry)])

/-! ## The search -/

/-- The loop of `get_strerror_entries_index`, from the element `idx` of the table on; `none` when it
reads past the last one. -/
def strerrorLoop (errnum : Int32) : List FioStrerrorEntry → ℕ → Option ℕ
  | [], _ => none
  | entry :: entries, idx =>
      if entry.errnoNum ≠ -1 then
        if errnum = entry.errnoNum then some idx else strerrorLoop errnum entries (idx + 1)
      else some idx

/-- The index, and what `errprint` has printed. -/
def getStrerrorEntriesIndex (errnum : Int32) : Option (ℕ × List String) := do
  let errnum := -errnum
  let errnum := if errnum ≤ 0 then Int32.ofNat (Errno.num p .ENONE) else errnum
  let idx ← strerrorLoop errnum (fioStrerrorEntries p) 0
  let entry ← (fioStrerrorEntries p)[idx]?
  if entry.errnoNum = -1 then
    some (idx, ["Unable to find translation for errno " ++ toString errnum.toInt ++ "\n"])
  else some (idx, [])

/-- The string, a pointer that may be `NULL`. -/
def ifioStrerror (errnum : Int32) : Option (Option String) := do
  let (idx, _) ← getStrerrorEntriesIndex p errnum
  let entry ← (fioStrerrorEntries p)[idx]?
  some entry.errnoMsg

def ifioStrerrorSym (errnum : Int32) : Option (Option String) := do
  let (idx, _) ← getStrerrorEntriesIndex p errnum
  let entry ← (fioStrerrorEntries p)[idx]?
  some entry.errnoSym

end Table

/-! ## The table -/

variable {p : SysErrnos} {errnum : Int32} {j k : ℕ}

theorem Errno.num_lt (p : SysErrnos) (e : Errno) : e.num p < EUNKNOWN := by
  cases e with
  | sys e => exact Nat.lt_trans (p.gap e) (by decide)
  | _ => simp [Errno.num, EUNKNOWN]

theorem Errno.num_injective (p : SysErrnos) : Function.Injective (Errno.num p) := by
  intro e e' heq
  -- the numbers of the system lie between that of `ENONE` and those of Fusion
  cases e with
  | sys e =>
    have hpos := p.pos e
    have hgap := p.gap e
    cases e' with
    | sys e' => rw [p.distinct heq]
    | _ =>
      simp only [Errno.num] at heq
      omega
  | _ =>
    cases e' with
    | sys e' =>
      have hpos := p.pos e'
      have hgap := p.gap e'
      simp only [Errno.num] at heq
      omega
    | _ => first | rfl | cases heq

/-- The codes that Fusion leaves out are not taken by another error either. -/
theorem Errno.num_ne (p : SysErrnos) (e : Errno) : e.num p ≠ EAFU ∧ e.num p ≠ EUNKNOWN := by
  refine ⟨?_, Nat.ne_of_lt (e.num_lt p)⟩
  cases e with
  | sys e => exact Nat.ne_of_lt (Nat.lt_trans (p.gap e) (by decide))
  | _ => simp [Errno.num, EAFU]

/-- The values that the designators give to the elements of the table. -/
def designated (p : SysErrnos) : ℕ → Option FioStrerrorEntry :=
  assign (fun _ ↦ none) (strerrorRows.map (fioStrerrorEntry p))

theorem indices_eq (p : SysErrnos) : (strerrorRows.map (fioStrerrorEntry p)).map Prod.fst =
    (strerrorRows.map Prod.fst).map (Errno.num p) := by
  rw [List.map_map, List.map_map]
  rfl

theorem rows_nodup : (strerrorRows.map Prod.fst).Nodup := by decide

theorem row_unique {row row' : Errno × String × String} (hrow : row ∈ strerrorRows)
    (hrow' : row' ∈ strerrorRows) (heq : row.1.num p = row'.1.num p) : row = row' :=
  List.inj_on_of_nodup_map rows_nodup hrow hrow' (Errno.num_injective p heq)

theorem designated_row {row : Errno × String × String} (hrow : row ∈ strerrorRows) :
    designated p (row.1.num p) = some (fioStrerrorEntry p row).2 := by
  apply assign_of_mem
  · rw [indices_eq]
    exact rows_nodup.map (Errno.num_injective p)
  · exact List.mem_map_of_mem hrow

theorem designated_none (hfree : ∀ row ∈ strerrorRows, row.1.num p ≠ j) :
    designated p j = none := by
  apply assign_of_notMem
  rw [indices_eq, List.map_map, List.mem_map]
  rintro ⟨row, hrow, heq⟩
  exact hfree row hrow heq

/-- The elements below the last one are the designated ones and the holes between them. -/
theorem fioStrerrorEntries_eq (p : SysErrnos) : (fioStrerrorEntries p).length = EUNKNOWN + 1 ∧
    (fioStrerrorEntries p)[EUNKNOWN]? = some unknownEntry ∧
    ∀ j < EUNKNOWN, (fioStrerrorEntries p)[j]? = some ((designated p j).getD zeroEntry) := by
  have ⟨hfills, hnext⟩ :=
    foldl_next (n := 0) (strerrorRows.map (fioStrerrorEntry p)) (fills_nil zeroEntry)
  have hrows : ∀ e ∈ strerrorRows.map (fioStrerrorEntry p), e.1 < EUNKNOWN := by
    intro e he
    obtain ⟨row, -, rfl⟩ := List.mem_map.mp he
    exact row.1.num_lt p
  have hshort := @length_foldl_next_le _ zeroEntry [] _ 0 _ (Nat.zero_le _) hrows
  have hlast : (((strerrorRows.map (fioStrerrorEntry p)).getLast?.map fun e ↦ e.1 + 1).getD 0) =
      EUNKNOWN := rfl
  rw [hlast] at hnext
  unfold fioStrerrorEntries array
  rw [List.foldl_append]
  generalize ((strerrorRows.map (fioStrerrorEntry p)).map fun e ↦ (some e.1, e.2)).foldl
    (next zeroEntry) ([], 0) = s at hfills hnext hshort ⊢
  show (place zeroEntry s.1 s.2 unknownEntry).length = _ ∧
    (place zeroEntry s.1 s.2 unknownEntry)[EUNKNOWN]? = _ ∧
    ∀ j < EUNKNOWN, (place zeroEntry s.1 s.2 unknownEntry)[j]? = _
  rw [hnext]
  refine ⟨?_, getElem?_place_self _ _ _ _, fun j hj ↦ ?_⟩
  · rw [length_place, Nat.max_eq_right (Nat.le_succ_of_le hshort)]
  · rw [getElem?_place_of_ne _ (Nat.ne_of_lt hj) (by omega), hfills.getD]
    rfl

theorem fioStrerrorEntries_row {row : Errno × String × String} (hrow : row ∈ strerrorRows) :
    (fioStrerrorEntries p)[row.1.num p]? = some (fioStrerrorEntry p row).2 := by
  rw [(fioStrerrorEntries_eq p).2.2 _ (row.1.num_lt p), designated_row hrow]
  rfl

/-- Below the last element there are the entries of the rows, at the index of their number, and
holes. -/
theorem fioStrerrorEntries_below {entry : FioStrerrorEntry} (hj : j < EUNKNOWN)
    (hentry : (fioStrerrorEntries p)[j]? = some entry) :
    (∃ row ∈ strerrorRows, row.1.num p = j ∧ entry = (fioStrerrorEntry p row).2) ∨
      entry = zeroEntry := by
  by_cases hfree : ∀ row ∈ strerrorRows, row.1.num p ≠ j
  · rw [(fioStrerrorEntries_eq p).2.2 j hj, designated_none hfree] at hentry
    exact Or.inr (Option.some.inj hentry).symm
  · push Not at hfree
    obtain ⟨row, hrow, rfl⟩ := hfree
    rw [fioStrerrorEntries_row hrow] at hentry
    exact Or.inl ⟨row, hrow, rfl, (Option.some.inj hentry).symm⟩

/-! ## What is found -/

theorem int32_ofNat_inj (hj : j < 2 ^ 31) (hk : k < 2 ^ 31) (heq : Int32.ofNat k = Int32.ofNat j) :
    k = j := by
  have hint := congrArg Int32.toInt heq
  rw [Int32.toInt_ofNat_of_lt hk, Int32.toInt_ofNat_of_lt hj] at hint
  exact Int.ofNat.inj hint

/-- A hole is never taken for an entry, nor for the end of the table. -/
theorem not_found_below {entry : FioStrerrorEntry} (hj : j < EUNKNOWN) (hpos : 0 < k)
    (hk : k < 2 ^ 31) (hother : ∀ row ∈ strerrorRows, row.1.num p = j → j ≠ k)
    (hentry : (fioStrerrorEntries p)[j]? = some entry) :
    entry.errnoNum ≠ -1 ∧ Int32.ofNat k ≠ entry.errnoNum := by
  have hfit : j < 2 ^ 31 := Nat.lt_trans hj (by decide)
  rcases fioStrerrorEntries_below hj hentry with ⟨row, hrow, rfl, rfl⟩ | rfl
  · refine ⟨?_, ?_⟩
    · intro hend
      have hint := congrArg Int32.toInt hend
      rw [show (fioStrerrorEntry p row).2.errnoNum = Int32.ofNat (row.1.num p) from rfl,
        Int32.toInt_ofNat_of_lt hfit, show (-1 : Int32).toInt = -1 from rfl] at hint
      omega
    · intro hsame
      exact hother row hrow rfl (int32_ofNat_inj hfit hk hsame).symm
  · refine ⟨by decide, ?_⟩
    intro hsame
    exact Nat.ne_of_gt hpos (int32_ofNat_inj (by decide) hk hsame)

theorem strerrorLoop_first {entries : List FioStrerrorEntry} {i : ℕ} {entry : FioStrerrorEntry}
    (hentry : entries[i]? = some entry) (hstop : entry.errnoNum = -1 ∨ errnum = entry.errnoNum)
    (hbefore : ∀ j < i, ∀ e, entries[j]? = some e → e.errnoNum ≠ -1 ∧ errnum ≠ e.errnoNum)
    (idx : ℕ) : strerrorLoop errnum entries idx = some (idx + i) := by
  induction entries generalizing i idx with
  | nil => cases hentry
  | cons e entries ih =>
    unfold strerrorLoop
    cases i with
    | zero =>
      obtain rfl : e = entry := Option.some.inj hentry
      split_ifs with hend hsame
      · rfl
      · exact absurd (hstop.resolve_left hend) hsame
      · rfl
    | succ i =>
      have ⟨hend, hsame⟩ := hbefore 0 (Nat.succ_pos i) e rfl
      rw [if_pos hend, if_neg hsame, ih hentry (fun j hj ↦ hbefore (j + 1) (Nat.succ_lt_succ hj))]
      rw [Nat.add_right_comm, Nat.add_assoc]

/-- The number that the search is for. -/
def soughtErrno (errnum : Int32) : ℕ :=
  if errnum = Int32.minValue then 0 else (-errnum.toInt).toNat

/-- Any number but the least one can be negated. -/
theorem toInt_neg_errnum (hmin : errnum ≠ Int32.minValue) : (-errnum).toInt = -errnum.toInt := by
  have hlow := errnum.le_toInt
  have hhigh := errnum.toInt_lt
  have hne : errnum.toInt ≠ -2 ^ 31 := fun heq ↦ hmin (Int32.toInt_inj.mp heq)
  rw [Int32.toInt_neg, Int.bmod_eq_of_le] <;> omega

theorem soughtErrno_lt (errnum : Int32) : soughtErrno errnum < 2 ^ 31 := by
  have hlow := errnum.le_toInt
  unfold soughtErrno
  split_ifs with hmin
  · decide
  · have hne : errnum.toInt ≠ -2 ^ 31 := fun heq ↦ hmin (Int32.toInt_inj.mp heq)
    omega

theorem soughtErrno_eq (p : SysErrnos) (errnum : Int32) :
    (if -errnum ≤ 0 then Int32.ofNat (Errno.num p .ENONE) else -errnum) =
      Int32.ofNat (soughtErrno errnum) := by
  by_cases hmin : errnum = Int32.minValue
  · subst hmin
    rfl
  · have hneg := toInt_neg_errnum hmin
    have hsign : -errnum ≤ 0 ↔ -errnum.toInt ≤ 0 := by
      rw [Int32.le_iff_toInt_le, hneg]
      rfl
    have hfit := soughtErrno_lt errnum
    unfold soughtErrno at hfit ⊢
    rw [if_neg hmin] at hfit ⊢
    by_cases hle : -errnum.toInt ≤ 0
    · rw [if_pos (hsign.mpr hle), Int.toNat_of_nonpos hle]
      rfl
    · rw [if_neg (mt hsign.mp hle)]
      apply Int32.toInt_inj.mp
      rw [hneg, Int32.toInt_ofNat_of_lt hfit, Int.toNat_of_nonneg (by omega)]

/-- What the search is told decides what it prints. -/
theorem getStrerrorEntriesIndex_eq {i : ℕ} {entry : FioStrerrorEntry}
    (hloop : strerrorLoop (Int32.ofNat (soughtErrno errnum)) (fioStrerrorEntries p) 0 = some i)
    (hentry : (fioStrerrorEntries p)[i]? = some entry) :
    ∃ printed, getStrerrorEntriesIndex p errnum = some (i, printed) := by
  unfold getStrerrorEntriesIndex
  dsimp only
  rw [soughtErrno_eq, hloop, Option.bind_eq_bind, Option.bind_some, hentry, Option.bind_eq_bind,
    Option.bind_some]
  split_ifs
  · exact ⟨_, rfl⟩
  · exact ⟨_, rfl⟩

/-- A number that is listed is found at its own index. -/
theorem getStrerrorEntriesIndex_row {row : Errno × String × String} (hrow : row ∈ strerrorRows)
    (hsought : row.1.num p = soughtErrno errnum) :
    ∃ printed, getStrerrorEntriesIndex p errnum = some (row.1.num p, printed) := by
  have hentry := fioStrerrorEntries_row (p := p) hrow
  refine getStrerrorEntriesIndex_eq ?_ hentry
  rw [strerrorLoop_first hentry (Or.inr (congrArg Int32.ofNat hsought.symm)) ?_ 0, Nat.zero_add]
  intro j hj e he
  rw [hsought] at hj
  refine not_found_below ?_ (Nat.zero_lt_of_lt hj) (soughtErrno_lt errnum) ?_ he
  · exact Nat.lt_trans hj (hsought ▸ row.1.num_lt p)
  · exact fun _ _ _ ↦ Nat.ne_of_lt hj

/-- Any other number ends the search at the last element. -/
theorem getStrerrorEntriesIndex_unknown
    (hfree : ∀ row ∈ strerrorRows, row.1.num p ≠ soughtErrno errnum) :
    ∃ printed, getStrerrorEntriesIndex p errnum = some (EUNKNOWN, printed) := by
  have hpos : 0 < soughtErrno errnum :=
    Nat.pos_of_ne_zero (hfree (.ENONE, "ENONE", "No error") List.mem_cons_self).symm
  have hlast := (fioStrerrorEntries_eq p).2.1
  refine getStrerrorEntriesIndex_eq ?_ hlast
  rw [strerrorLoop_first hlast (Or.inl rfl) ?_ 0, Nat.zero_add]
  intro j hj e he
  refine not_found_below hj hpos (soughtErrno_lt errnum) ?_ he
  intro row hrow hnum heq
  exact hfree row hrow (hnum.trans heq)

/-- What is answered for a number: one entry of the table, that is no hole. -/
structure StrerrorSound (p : SysErrnos) (errnum : Int32) (idx : ℕ) (entry : FioStrerrorEntry) :
    Prop where
  found : ∃ printed, getStrerrorEntriesIndex p errnum = some (idx, printed)
  inTable : (fioStrerrorEntries p)[idx]? = some entry
  msg : ifioStrerror p errnum = some entry.errnoMsg
  sym : ifioStrerrorSym p errnum = some entry.errnoSym
  notNull : entry.errnoMsg ≠ none ∧ entry.errnoSym ≠ none
  listed : ∀ row ∈ strerrorRows, errnum < 0 → errnum.toInt = -(row.1.num p : ℤ) →
    entry = (fioStrerrorEntry p row).2 ∧ entry.errnoNum = -errnum
  noError : 0 ≤ errnum ∨ errnum = Int32.minValue →
    idx = 0 ∧ entry = ⟨0, some "ENONE", some "No error"⟩
  unknown : errnum < 0 → errnum ≠ Int32.minValue →
    (∀ row ∈ strerrorRows, errnum.toInt ≠ -(row.1.num p : ℤ)) →
    idx + 1 = (fioStrerrorEntries p).length ∧ entry = unknownEntry
  unlistedFusion : errnum.toInt = -EAFU ∨ errnum.toInt = -EUNKNOWN → entry = unknownEntry

theorem soughtErrno_of_neg (hneg : errnum < 0) (hmin : errnum ≠ Int32.minValue) :
    (soughtErrno errnum : ℤ) = -errnum.toInt := by
  have hint := Int32.lt_iff_toInt_lt.mp hneg
  rw [show (0 : Int32).toInt = 0 from rfl] at hint
  unfold soughtErrno
  rw [if_neg hmin, Int.toNat_of_nonneg (by omega)]

theorem soughtErrno_of_nonneg (hzero : 0 ≤ errnum ∨ errnum = Int32.minValue) :
    soughtErrno errnum = 0 := by
  unfold soughtErrno
  split_ifs with hmin
  · rfl
  · have hint := Int32.le_iff_toInt_le.mp (hzero.resolve_right hmin)
    rw [show (0 : Int32).toInt = 0 from rfl] at hint
    exact Int.toNat_of_nonpos (by omega)

/-- The numbers of the table are well above the least `int`. -/
theorem soughtErrno_of_eq {n : ℕ} (hn : n ≤ EUNKNOWN) (hnum : errnum.toInt = -(n : ℤ)) :
    errnum ≠ Int32.minValue ∧ soughtErrno errnum = n := by
  have hmin : errnum ≠ Int32.minValue := by
    rintro rfl
    have hmin : Int32.minValue.toInt = -2 ^ 31 := rfl
    unfold EUNKNOWN at hn
    omega
  refine ⟨hmin, ?_⟩
  unfold soughtErrno
  rw [if_neg hmin, hnum, Int.neg_neg, Int.toNat_natCast]

/-- Both functions read the entry that the search has stopped at. -/
theorem strerror_of_index {idx : ℕ} {entry : FioStrerrorEntry}
    (hfound : ∃ printed, getStrerrorEntriesIndex p errnum = some (idx, printed))
    (hentry : (fioStrerrorEntries p)[idx]? = some entry) :
    ifioStrerror p errnum = some entry.errnoMsg ∧
      ifioStrerrorSym p errnum = some entry.errnoSym := by
  obtain ⟨printed, hfound⟩ := hfound
  unfold ifioStrerror ifioStrerrorSym
  simp only [hfound, hentry, Option.bind_eq_bind, Option.bind_some, and_self]

/-- A listed number answers with its own entry, a number that is no error with that of `ENONE`, and
any other with the last one. -/
theorem strerror_sound (p : SysErrnos) (errnum : Int32) :
    ∃ idx entry, StrerrorSound p errnum idx entry := by
  -- with no row for the number, the search goes on to the last element
  by_cases hfree : ∀ row ∈ strerrorRows, row.1.num p ≠ soughtErrno errnum
  · have hfound := getStrerrorEntriesIndex_unknown hfree
    have ⟨hlength, hlast, _⟩ := fioStrerrorEntries_eq p
    have ⟨hmsg, hsym⟩ := strerror_of_index hfound hlast
    refine ⟨EUNKNOWN, unknownEntry, hfound, hlast, hmsg, hsym, by decide, ?_, ?_, ?_, ?_⟩
    · intro row hrow hneg hnum
      have hsought := (soughtErrno_of_eq (Nat.le_of_lt (row.1.num_lt p)) hnum).2
      exact absurd hsought.symm (hfree row hrow)
    · intro hzero
      exact absurd (soughtErrno_of_nonneg hzero).symm
        (hfree (.ENONE, "ENONE", "No error") List.mem_cons_self)
    · exact fun _ _ _ ↦ ⟨hlength.symm, rfl⟩
    · exact fun _ ↦ rfl
  · push Not at hfree
    obtain ⟨row, hrow, hsought⟩ := hfree
    have hfound := getStrerrorEntriesIndex_row hrow hsought
    have hentry := fioStrerrorEntries_row (p := p) hrow
    have ⟨hmsg, hsym⟩ := strerror_of_index hfound hentry
    refine ⟨row.1.num p, (fioStrerrorEntry p row).2, hfound, hentry, hmsg, hsym,
      ⟨Option.some_ne_none _, Option.some_ne_none _⟩, ?_, ?_, ?_, ?_⟩
    · intro row' hrow' hneg hnum
      have ⟨hmin, hsought'⟩ := soughtErrno_of_eq (Nat.le_of_lt (row'.1.num_lt p)) hnum
      obtain rfl : row = row' := row_unique hrow hrow' (hsought.trans hsought')
      refine ⟨rfl, Int32.toInt_inj.mp ?_⟩
      show (Int32.ofNat (row.1.num p)).toInt = (-errnum).toInt
      have hfit := row.1.num_lt p
      unfold EUNKNOWN at hfit
      rw [toInt_neg_errnum hmin, hnum, Int32.toInt_ofNat_of_lt (by omega), Int.neg_neg]
    · intro hzero
      rw [soughtErrno_of_nonneg hzero] at hsought
      obtain rfl : row = (.ENONE, "ENONE", "No error") :=
        row_unique (p := p) hrow List.mem_cons_self hsought
      exact ⟨rfl, rfl⟩
    · intro hneg hmin hother
      have hneg' := soughtErrno_of_neg hneg hmin
      exact absurd (by omega) (hother row hrow)
    · intro hfusion
      have ⟨hafu, hunknown⟩ := row.1.num_ne p
      rcases hfusion with hnum | hnum
      · exact absurd (hsought.trans (soughtErrno_of_eq (by decide) hnum).2) hafu
      · exact absurd (hsought.trans (soughtErrno_of_eq (Nat.le_refl _) hnum).2) hunknown

/-- The numbers of FreeBSD, on which `EAGAIN` is not between `ECHILD` and `ENOMEM`. -/
def SysErrno.freebsd : SysErrno → ℕ
  | EPERM => 1 | ENOENT => 2 | ESRCH => 3 | EINTR => 4 | EIO => 5 | ENXIO => 6 | E2BIG => 7
  | ENOEXEC => 8 | EBADF => 9 | ECHILD => 10 | EAGAIN => 35 | ENOMEM => 12 | EACCES => 13
  | EFAULT => 14 | EBUSY => 16 | EEXIST => 17 | EXDEV => 18 | ENODEV => 19 | ENOTDIR => 20
  | EISDIR => 21 | EINVAL => 22 | ENFILE => 23 | EMFILE => 24 | ENOTTY => 25 | EFBIG => 27
  | ENOSPC => 28 | ESPIPE => 29 | EROFS => 30 | EMLINK => 31 | EPIPE => 32 | EDOM => 33
  | ERANGE => 34

def freebsdErrnos : SysErrnos where
  num := SysErrno.freebsd
  pos e := by cases e <;> decide
  distinct e e' h := by cases e <;> cases e' <;> first | rfl | cases h
  gap e := by cases e <;> decide

/-- There -35 is `EAGAIN`, and -11, which Linux has for it, is not in the table. -/
theorem strerror_sound_freebsd :
    (∃ idx, StrerrorSound freebsdErrnos (-35) idx ⟨35, some "EAGAIN", some "Try again"⟩) ∧
      (∃ idx, StrerrorSound freebsdErrnos (-11) idx unknownEntry) ∧
      ifioStrerror freebsdErrnos (-35) = some (some "Try again") ∧
      ifioStrerrorSym freebsdErrnos (-11) = some (some "EUNKNOWN") := by
  obtain ⟨again, entry, hagain⟩ := strerror_sound freebsdErrnos (-35)
  obtain ⟨last, entry', hlast⟩ := strerror_sound freebsdErrnos (-11)
  obtain rfl := (hagain.listed (.sys EAGAIN, "EAGAIN", "Try again") (by decide) (by decide)
    (by decide)).1
  obtain rfl := (hlast.unknown (by decide) (by decide) (by decide)).2
  exact ⟨⟨again, hagain⟩, ⟨last, hlast⟩, hagain.msg, hlast.sym⟩

end IomemoryVsl.Port
