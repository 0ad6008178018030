import Mathlib.Algebra.GroupWithZero.Nat
import Mathlib.Algebra.Order.BigOperators.Group.List
import Mathlib.Algebra.Order.Group.Nat
import Mathlib.Data.List.Range
import Mathlib.Data.List.SplitBy

/-!
# Extents

An extent is a start and a number of cells.  A list of extents describes one sequence of cells, and
a window of that sequence is described by the extents it meets, the first one shortened in front
and the last one shortened behind.
-/

structure Extent (α : Type*) where
  start : α
  size : ℕ
deriving DecidableEq, Repr

namespace Extent

variable {α : Type*} (shift : α → ℕ → α)

/-- The cells of one extent. -/
def cells (e : Extent α) : List α := (List.range e.size).map (shift e.start)

/-- The cells of a list of extents. -/
def cellsOf (es : List (Extent α)) : List α := es.flatMap (cells shift)

/-- The number of cells of a list of extents. -/
def total (es : List (Extent α)) : ℕ := (es.map size).sum

@[simp]
theorem total_nil : total ([] : List (Extent α)) = 0 := rfl

@[simp]
theorem total_cons (e : Extent α) (es : List (Extent α)) : total (e :: es) = e.size + total es := by
  simp [total]

@[simp]
theorem total_append (es fs : List (Extent α)) : total (es ++ fs) = total es + total fs := by
  simp [total]

@[simp]
theorem length_cells (e : Extent α) : (e.cells shift).length = e.size := by
  simp [cells]

@[simp]
theorem cellsOf_nil : cellsOf shift ([] : List (Extent α)) = [] := rfl

@[simp]
theorem cellsOf_cons (e : Extent α) (es : List (Extent α)) :
    cellsOf shift (e :: es) = e.cells shift ++ cellsOf shift es := rfl

@[simp]
theorem cellsOf_append (es fs : List (Extent α)) :
    cellsOf shift (es ++ fs) = cellsOf shift es ++ cellsOf shift fs := by
  simp [cellsOf]

@[simp]
theorem length_cellsOf (es : List (Extent α)) : (cellsOf shift es).length = total es := by
  induction es with
  | nil => rfl
  | cons e es ih => simp [ih]

/-- The extent without its first `skip` cells. -/
def skipFront (skip : ℕ) (e : Extent α) : Extent α := ⟨shift e.start skip, e.size - skip⟩

/-- The extent without its last `trunc` cells. -/
def cutBack (trunc : ℕ) (e : Extent α) : Extent α := ⟨e.start, e.size - trunc⟩

theorem cells_cutBack (trunc : ℕ) (e : Extent α) :
    (e.cutBack trunc).cells shift = (e.cells shift).take (e.size - trunc) := by
  unfold cells cutBack
  rw [← List.map_take, List.take_range, min_eq_left (Nat.sub_le _ _)]

/-- The extents with the last one shortened by `trunc` cells. -/
def cutLast (trunc : ℕ) : List (Extent α) → List (Extent α)
  | [] => []
  | [l] => [l.cutBack trunc]
  | e :: f :: es => e :: cutLast trunc (f :: es)

@[simp]
theorem length_cutLast (trunc : ℕ) (es : List (Extent α)) :
    (cutLast trunc es).length = es.length := by
  induction es using cutLast.induct with
  | case1 => rfl
  | case2 l => rfl
  | case3 e f es ih => simpa [cutLast] using ih

theorem cellsOf_cutLast {trunc : ℕ} {es : List (Extent α)} (hne : es ≠ [])
    (htrunc : trunc ≤ (es.getLast hne).size) :
    cellsOf shift (cutLast trunc es) = (cellsOf shift es).take (total es - trunc) := by
  induction es using cutLast.induct with
  | case1 => exact absurd rfl hne
  | case2 l => simp [cutLast, cells_cutBack]
  | case3 e f es ih =>
      have hlast : trunc ≤ ((f :: es).getLast (List.cons_ne_nil f es)).size := by
        simpa using htrunc
      -- the cut stays within the last extent, so taking from the front passes over `e` whole
      have hle : ((f :: es).getLast (List.cons_ne_nil f es)).size ≤ total (f :: es) :=
        List.le_sum_of_mem (List.mem_map_of_mem (List.getLast_mem _))
      have htotal : total (e :: f :: es) - trunc = e.size + (total (f :: es) - trunc) := by
        rw [total_cons]
        omega
      rw [cutLast, cellsOf_cons, ih (List.cons_ne_nil f es) hlast, cellsOf_cons shift e (f :: es),
        htotal, ← length_cells shift e, List.take_length_add_append]

/-- A window that starts `skip` cells into `e` and stops `trunc` cells before the end of the last
of the extents `e :: es`; the two may be the same extent. -/
def window (skip trunc : ℕ) (e : Extent α) (es : List (Extent α)) : List (Extent α) :=
  cutLast trunc (e.skipFront shift skip :: es)

section Shift

variable (hshift : ∀ a j k, shift (shift a j) k = shift a (j + k))

include hshift in
theorem cells_skipFront (skip : ℕ) (e : Extent α) :
    (e.skipFront shift skip).cells shift = (e.cells shift).drop skip := by
  apply List.ext_getElem
  · simp [skipFront]
  · intro k _ _
    simp [cells, skipFront, hshift]

include hshift in
/-- The cells of a window are the cells of the whole list from the offset on. -/
theorem cellsOf_window (pre es post : List (Extent α)) {e : Extent α} {skip trunc len : ℕ}
    (hskip : skip ≤ e.size) (hfit : skip + trunc + len = e.size + total es)
    (htrunc : trunc ≤ ((e.skipFront shift skip :: es).getLast (List.cons_ne_nil _ es)).size) :
    cellsOf shift (window shift skip trunc e es) =
      ((cellsOf shift (pre ++ e :: es ++ post)).drop (total pre + skip)).take len := by
  -- dropping the offset leaves the window's extents, uncut, and then `post`
  have hdrop : (cellsOf shift (pre ++ e :: es ++ post)).drop (total pre + skip) =
      cellsOf shift (e.skipFront shift skip :: es) ++ cellsOf shift post := by
    rw [List.append_assoc, cellsOf_append, ← List.drop_drop,
      List.drop_left' (length_cellsOf shift pre)]
    simp only [List.cons_append, cellsOf_cons, cellsOf_append]
    rw [List.drop_append_of_le_length (by simpa using hskip), cells_skipFront shift hshift,
      List.append_assoc]
  have htotal : total (e.skipFront shift skip :: es) - trunc = len := by
    simp only [total_cons, skipFront]
    omega
  rw [window, cellsOf_cutLast shift (List.cons_ne_nil _ es) htrunc, hdrop, htotal,
    List.take_append_of_le_length (by rw [length_cellsOf]; omega)]

variable (hzero : ∀ a, shift a 0 = a)

include hzero hshift in
theorem cells_succ (a : α) (n : ℕ) :
    cells shift ⟨a, n + 1⟩ = a :: cells shift ⟨shift a 1, n⟩ := by
  unfold cells
  dsimp only
  rw [List.range_succ_eq_map, List.map_cons, List.map_map, hzero]
  congr 1
  refine List.map_congr_left ?_
  intro k _
  show shift a (k + 1) = shift (shift a 1) k
  rw [hshift, Nat.add_comm]

end Shift

/-! ## One sequence cut twice -/

section Refines

variable {β : Type*}

/-- Each extent of `fs` ends where an extent of `es` does: none of `es` reaches over the end of one
of `fs`. -/
def Refines (es : List (Extent α)) (fs : List (Extent β)) : Prop :=
  ∀ k, ∃ i, total (fs.take k) = total (es.take i)

theorem refines_nil (es : List (Extent α)) : Refines es ([] : List (Extent β)) := by
  intro k
  exact ⟨0, by simp⟩

/-- The extents that fill the first one of `fs` split off, and the others refine what is left. -/
theorem refines_cons {es : List (Extent α)} {f : Extent β} {fs : List (Extent β)} :
    Refines es (f :: fs) ↔
      ∃ pre post, es = pre ++ post ∧ total pre = f.size ∧ Refines post fs := by
  constructor
  · intro h
    obtain ⟨i, hi⟩ := h 1
    have hpre : total (es.take i) = f.size := by simpa using hi.symm
    refine ⟨es.take i, es.drop i, (List.take_append_drop i es).symm, hpre, fun k ↦ ?_⟩
    obtain ⟨m, hm⟩ := h (k + 1)
    rw [List.take_succ_cons, total_cons] at hm
    rcases Nat.le_total i m with him | hmi
    · obtain ⟨d, rfl⟩ := Nat.exists_eq_add_of_le him
      rw [List.take_add, total_append, hpre] at hm
      exact ⟨d, Nat.add_left_cancel hm⟩
    · -- cuts at or before the end of `f` leave nothing of `fs.take k`
      have hle : total (es.take m) ≤ total (es.take i) := by
        obtain ⟨d, rfl⟩ := Nat.exists_eq_add_of_le hmi
        rw [List.take_add, total_append]
        exact Nat.le_add_right _ _
      refine ⟨0, ?_⟩
      rw [List.take_zero, total_nil]
      omega
  · rintro ⟨pre, post, rfl, hpre, h⟩ k
    cases k with
    | zero => exact ⟨0, by simp⟩
    | succ k =>
        obtain ⟨i, hi⟩ := h k
        refine ⟨pre.length + i, ?_⟩
        rw [List.take_succ_cons, total_cons, List.take_length_add_append, total_append, hi, hpre]

end Refines

/-! ## Runs of consecutive cells -/

section Runs

variable [DecidableEq α]

/-- `b` is the cell after `a`. -/
def follows (a b : α) : Bool := shift a 1 = b

/-- How many cells of `l` follow on, the first one from `a` and each other from the one before. -/
def runLength : α → List α → ℕ
  | _, [] => 0
  | a, b :: l => if shift a 1 = b then runLength b l + 1 else 0

theorem runLength_le (a : α) (l : List α) : runLength shift a l ≤ l.length := by
  induction l generalizing a with
  | nil => exact Nat.le_refl 0
  | cons b l ih =>
      rw [runLength, List.length_cons]
      by_cases hab : shift a 1 = b
      · rw [if_pos hab]
        exact Nat.succ_le_succ (ih b)
      · rw [if_neg hab]
        exact Nat.zero_le _

theorem isChain_run (a : α) (l : List α) :
    (a :: l.take (runLength shift a l)).IsChain fun x y ↦ follows shift x y := by
  induction l generalizing a with
  | nil => simp [runLength]
  | cons b l ih =>
      rw [runLength]
      by_cases hab : shift a 1 = b
      · rw [if_pos hab, List.take_succ_cons, List.isChain_cons_cons]
        exact ⟨decide_eq_true hab, ih b⟩
      · rw [if_neg hab]
        simp

/-- The cell behind a run does not follow on from it. -/
theorem run_stops (a : α) (l : List α) :
    ∀ y ∈ (l.drop (runLength shift a l)).head?,
      follows shift ((a :: l.take (runLength shift a l)).getLast (List.cons_ne_nil _ _)) y =
        false := by
  induction l generalizing a with
  | nil => simp
  | cons b l ih =>
      rw [runLength]
      by_cases hab : shift a 1 = b
      · simp only [if_pos hab, List.take_succ_cons, List.drop_succ_cons]
        rw [List.getLast_cons (List.cons_ne_nil _ _)]
        exact ih b
      · simp only [if_neg hab, List.take_zero, List.drop_zero, List.head?_cons]
        intro y hy
        rw [Option.mem_some_iff] at hy
        subst hy
        exact decide_eq_false hab

theorem splitBy_follows_cons (a : α) (l : List α) :
    (a :: l).splitBy (follows shift) =
      (a :: l.take (runLength shift a l)) ::
        (l.drop (runLength shift a l)).splitBy (follows shift) := by
  have hsplit : a :: l =
      (a :: l.take (runLength shift a l)) ++ l.drop (runLength shift a l) := by
    rw [List.cons_append, List.take_append_drop]
  conv_lhs => rw [hsplit]
  rw [List.splitBy_append, List.splitBy_of_isChain (List.cons_ne_nil _ _) (isChain_run shift a l)]
  · rfl
  · intro x hx y hy
    rw [List.getLast?_eq_getLast_of_ne_nil (List.cons_ne_nil _ _), Option.mem_some_iff] at hx
    subst hx
    exact run_stops shift a l y hy

section Cells

variable (hzero : ∀ a, shift a 0 = a) (hshift : ∀ a j k, shift (shift a j) k = shift a (j + k))

include hzero hshift in
/-- A run is an extent. -/
theorem cells_runLength (a : α) (l : List α) :
    cells shift ⟨a, runLength shift a l + 1⟩ = a :: l.take (runLength shift a l) := by
  induction l generalizing a with
  | nil => rw [cells_succ shift hshift hzero]; rfl
  | cons b l ih =>
      rw [cells_succ shift hshift hzero, runLength]
      by_cases hab : shift a 1 = b
      · rw [if_pos hab, List.take_succ_cons, hab, ih b]
      · rw [if_neg hab]
        rfl

end Cells

end Runs

end Extent
