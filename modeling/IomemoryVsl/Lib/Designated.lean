import Mathlib.Data.List.Basic
import Mathlib.Logic.Function.Basic

/-!
# Arrays with designated initializers

An initializer is a list of elements, each for the index in front of it, or for the one after its
predecessor's.  The array reaches up to the largest index, and what no element is for is filled.
-/

namespace Designated

variable {α : Type*}

/-- The cells after an element for the index `i`. -/
def place (filler : α) (cells : List α) (i : ℕ) (x : α) : List α :=
  (cells ++ List.replicate (i + 1 - cells.length) filler).set i x

/-- The cells so far and the index that comes next, after one more element. -/
def next (filler : α) (s : List α × ℕ) (e : Option ℕ × α) : List α × ℕ :=
  (place filler s.1 (e.1.getD s.2) e.2, e.1.getD s.2 + 1)

/-- The array that an initializer describes. -/
def array (filler : α) (es : List (Option ℕ × α)) : List α :=
  (es.foldl (next filler) ([], 0)).1

variable {filler : α} {cells : List α} {i j : ℕ}

theorem length_place (filler : α) (cells : List α) (i : ℕ) (x : α) :
    (place filler cells i x).length = max cells.length (i + 1) := by
  unfold place
  rw [List.length_set, List.length_append, List.length_replicate]
  omega

theorem getElem?_place_self (filler : α) (cells : List α) (i : ℕ) (x : α) :
    (place filler cells i x)[i]? = some x := by
  unfold place
  apply List.getElem?_set_self
  rw [List.length_append, List.length_replicate]
  omega

theorem getElem?_place_of_ne (x : α) (hne : j ≠ i) (hj : j < max cells.length (i + 1)) :
    (place filler cells i x)[j]? = some (cells.getD j filler) := by
  unfold place
  rw [List.getElem?_set_ne hne.symm, List.getD_eq_getElem?_getD]
  by_cases hold : j < cells.length
  · rw [List.getElem?_append_left hold, List.getElem?_eq_getElem hold]
    rfl
  · rw [List.getElem?_append_right (Nat.not_lt.mp hold), List.getElem?_replicate,
      if_pos (by omega), List.getElem?_eq_none (Nat.not_lt.mp hold)]
    rfl

/-- The cells are those of a partial function, filled where that has no value. -/
structure Fills (filler : α) (cells : List α) (f : ℕ → Option α) : Prop where
  get : ∀ j < cells.length, cells[j]? = some ((f j).getD filler)
  beyond : ∀ j, cells.length ≤ j → f j = none

theorem fills_nil (filler : α) : Fills filler [] fun _ ↦ none where
  get _ hj := absurd hj (Nat.not_lt_zero _)
  beyond _ _ := rfl

theorem Fills.getD {f : ℕ → Option α} (h : Fills filler cells f) (j : ℕ) :
    cells.getD j filler = (f j).getD filler := by
  rw [List.getD_eq_getElem?_getD]
  by_cases hj : j < cells.length
  · rw [h.get j hj]
    rfl
  · rw [List.getElem?_eq_none (Nat.not_lt.mp hj), h.beyond j (Nat.not_lt.mp hj)]

theorem Fills.place {f : ℕ → Option α} (h : Fills filler cells f) (i : ℕ) (x : α) :
    Fills filler (place filler cells i x) (Function.update f i (some x)) where
  get j hj := by
    rw [length_place] at hj
    by_cases hji : j = i
    · subst hji
      rw [getElem?_place_self, Function.update_self]
      rfl
    · rw [getElem?_place_of_ne x hji hj, h.getD, Function.update_of_ne hji]
  beyond j hj := by
    rw [length_place] at hj
    rw [Function.update_of_ne (by omega), h.beyond j (by omega)]

/-! ## Elements for distinct indices -/

/-- The values that elements give to the indices in front of them. -/
def assign (f : ℕ → Option α) (es : List (ℕ × α)) : ℕ → Option α :=
  es.foldl (fun f e ↦ Function.update f e.1 (some e.2)) f

theorem assign_of_notMem {es : List (ℕ × α)} (f : ℕ → Option α) (hi : i ∉ es.map Prod.fst) :
    assign f es i = f i := by
  induction es generalizing f with
  | nil => rfl
  | cons e es ih =>
    rw [List.map_cons, List.mem_cons, not_or] at hi
    show assign (Function.update f e.1 (some e.2)) es i = f i
    rw [ih _ hi.2, Function.update_of_ne hi.1]

theorem assign_of_mem {es : List (ℕ × α)} {x : α} (f : ℕ → Option α)
    (hnodup : (es.map Prod.fst).Nodup) (hmem : (i, x) ∈ es) : assign f es i = some x := by
  induction es generalizing f with
  | nil => cases hmem
  | cons e es ih =>
    rw [List.map_cons, List.nodup_cons] at hnodup
    show assign (Function.update f e.1 (some e.2)) es i = some x
    rcases List.mem_cons.mp hmem with rfl | hmem
    · rw [assign_of_notMem _ hnodup.1, Function.update_self]
    · exact ih _ hnodup.2 hmem

/-- Elements that all have an index fill the cells with what they assign, and the index that comes
next is the one after the last of them. -/
theorem foldl_next (es : List (ℕ × α)) {f : ℕ → Option α} {n : ℕ} (h : Fills filler cells f) :
    Fills filler ((es.map fun e ↦ (some e.1, e.2)).foldl (next filler) (cells, n)).1
        (assign f es) ∧
      ((es.map fun e ↦ (some e.1, e.2)).foldl (next filler) (cells, n)).2 =
        (es.getLast?.map fun e ↦ e.1 + 1).getD n := by
  induction es generalizing cells f n with
  | nil => exact ⟨h, rfl⟩
  | cons e es ih =>
    have ⟨hfills, hnext⟩ := @ih _ _ (e.1 + 1) (h.place e.1 e.2)
    refine ⟨hfills, hnext.trans ?_⟩
    rw [List.getLast?_cons]
    cases es.getLast? <;> rfl

theorem length_foldl_next_le {es : List (ℕ × α)} {n N : ℕ} (hcells : cells.length ≤ N)
    (hes : ∀ e ∈ es, e.1 < N) :
    ((es.map fun e ↦ (some e.1, e.2)).foldl (next filler) (cells, n)).1.length ≤ N := by
  induction es generalizing cells n with
  | nil => exact hcells
  | cons e es ih =>
    rw [List.forall_mem_cons] at hes
    apply ih _ hes.2
    show (place filler cells e.1 e.2).length ≤ N
    rw [length_place]
    exact Nat.max_le.mpr ⟨hcells, hes.1⟩

end Designated
