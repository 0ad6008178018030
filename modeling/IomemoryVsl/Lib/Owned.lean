import Mathlib.Data.List.Perm.Basic
import Mathlib.Data.List.Nodup
import Mathlib.Data.List.Pairwise
import IomemoryVsl.Lib.Slots

/-!
# Calls that own memory

The calls in progress of a system own cells of a heap.  A call may take cells that are free, and it
may write to and free those that it owns; what it relies on is in cells of its own.  Then the calls
keep out of each other's way, and no cell is lost.
-/

namespace Owned

variable {α ι β : Type*} {own : α → List ι} {ready : (ι → Option β) → α → Prop}

/-- What a call relies on is allocated, and it is in the cells that it owns. -/
structure Local (own : α → List ι) (ready : (ι → Option β) → α → Prop) : Prop where
  held : ∀ {heap : ι → Option β} {x : α}, ready heap x → ∀ p ∈ own x, heap p ≠ none
  congr : ∀ {heap heap' : ι → Option β} {x : α}, (∀ p ∈ own x, heap' p = heap p) →
    ready heap x → ready heap' x

/-- Each cell that is allocated has one owner, and every call has what it relies on. -/
structure Account (own : α → List ι) (ready : (ι → Option β) → α → Prop) (heap : ι → Option β)
    (l : List α) : Prop where
  nodup : (l.flatMap own).Nodup
  ready : ∀ x ∈ l, ready heap x
  allocated : ∀ p, heap p ≠ none → p ∈ l.flatMap own

variable {heap heap' : ι → Option β} {l : List α}

theorem account_nil : Account own ready (fun _ ↦ none) [] where
  nodup := List.nodup_nil
  ready _ hx := absurd hx List.not_mem_nil
  allocated _ hp := absurd rfl hp

/-- A cell is allocated exactly when some call owns it. -/
theorem Account.allocated_iff (hloc : Local own ready) (h : Account own ready heap l) (p : ι) :
    heap p ≠ none ↔ p ∈ l.flatMap own := by
  constructor
  · exact h.allocated p
  · intro hp
    obtain ⟨x, hx, hown⟩ := List.mem_flatMap.mp hp
    exact hloc.held (h.ready x hx) p hown

/-- No two calls own the same cell. -/
theorem Account.owner_eq (h : Account own ready heap l) {x y : α} (hx : x ∈ l) (hy : y ∈ l) {p : ι}
    (hpx : p ∈ own x) (hpy : p ∈ own y) : x = y := by
  by_contra hne
  have hsymm : Std.Symm (Function.onFun List.Disjoint own) :=
    ⟨fun _ _ hd _ hpy hpx ↦ hd hpx hpy⟩
  have hdisj := (List.nodup_flatMap.mp h.nodup).2.forall hx hy hne
  exact hdisj hpx hpy

/-- A call that begins with nothing of its own. -/
theorem Account.append (h : Account own ready heap l) {y : α} (hown : own y = [])
    (hready : ready heap y) : Account own ready heap (l ++ [y]) := by
  have hflat : (l ++ [y]).flatMap own = l.flatMap own := by
    rw [List.flatMap_append, List.flatMap_singleton, hown, List.append_nil]
  refine ⟨hflat ▸ h.nodup, ?_, ?_⟩
  · intro x hx
    rcases List.mem_append.mp hx with hold | hnew
    · exact h.ready x hold
    · rw [List.mem_singleton.mp hnew]
      exact hready
  · rw [hflat]
    exact h.allocated

/-- A step of one call: what it owns afterwards was its own or free, what it no longer owns has been
freed, and the other cells are as they were. -/
theorem Account.set (hloc : Local own ready) (h : Account own ready heap l) {k : ℕ} {x y : α}
    (hget : l[k]? = some x) (hnodup : (own y).Nodup)
    (hnew : ∀ p ∈ own y, p ∈ own x ∨ heap p = none)
    (hfreed : ∀ p ∈ own x, p ∉ own y → heap' p = none)
    (hframe : ∀ p, p ∉ own x → p ∉ own y → heap' p = heap p) (hready : ready heap' y) :
    Account own ready heap' (l.set k y) := by
  obtain ⟨us, vs, rfl, hset, -⟩ := Slots.exists_split hget
  rw [hset y]
  have hperm : ∀ z, ((us ++ z :: vs).flatMap own).Perm (own z ++ (us ++ vs).flatMap own) := by
    intro z
    have hmiddle : (us ++ z :: vs).Perm (z :: (us ++ vs)) := List.perm_middle
    have hflat := hmiddle.flatMap_right own
    rwa [List.flatMap_cons] at hflat
  have hold := (hperm x).nodup_iff.mp h.nodup
  rw [List.nodup_append] at hold
  obtain ⟨-, hrest, hdisj⟩ := hold
  -- a cell of another call is neither the step's own nor free
  have hother : ∀ p ∈ (us ++ vs).flatMap own, p ∉ own x ∧ p ∉ own y := by
    intro p hp
    have hx : p ∉ own x := fun hx ↦ hdisj p hx p hp rfl
    refine ⟨hx, ?_⟩
    intro hy
    obtain ⟨z, hz, hown⟩ := List.mem_flatMap.mp hp
    have hzmem : z ∈ us ++ x :: vs := by
      rcases List.mem_append.mp hz with hus | hvs
      · exact List.mem_append_left _ hus
      · exact List.mem_append_right _ (List.mem_cons_of_mem x hvs)
    rcases hnew p hy with hmine | hfree
    · exact hx hmine
    · exact hloc.held (h.ready z hzmem) p hown hfree
  refine ⟨?_, ?_, ?_⟩
  · rw [(hperm y).nodup_iff, List.nodup_append]
    refine ⟨hnodup, hrest, ?_⟩
    rintro p hy q hq rfl
    exact (hother p hq).2 hy
  · intro z hz
    have hcases : z = y ∨ z ∈ us ++ vs := by
      rw [List.mem_append, List.mem_cons] at hz
      rw [List.mem_append]
      tauto
    rcases hcases with rfl | hzold
    · exact hready
    · refine hloc.congr ?_ (h.ready z ?_)
      · intro p hp
        obtain ⟨hx, hy⟩ := hother p (List.mem_flatMap.mpr ⟨z, hzold, hp⟩)
        exact hframe p hx hy
      · rw [List.mem_append] at hzold
        rw [List.mem_append, List.mem_cons]
        tauto
  · intro p hp
    rw [(hperm y).mem_iff, List.mem_append]
    by_cases hy : p ∈ own y
    · exact Or.inl hy
    · by_cases hx : p ∈ own x
      · exact absurd (hfreed p hx hy) hp
      · rw [hframe p hx hy] at hp
        have hmem := (hperm x).mem_iff.mp (h.allocated p hp)
        rcases List.mem_append.mp hmem with hmine | hrest
        · exact absurd hmine hx
        · exact Or.inr hrest

end Owned
