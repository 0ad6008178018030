import Mathlib.Data.List.Perm.Basic
import Mathlib.Data.List.Nodup

/-!
# Tables of running calls

The calls in progress of a system are kept in a list, and a step replaces, removes or adds one of
them.  Each call carries some things of its own; together the calls carry the things of all.
-/

namespace Slots

variable {α β : Type*}

/-- A slot of the table, and what writing and clearing it does. -/
theorem exists_split {l : List α} {k : Nat} {x : α} (h : l[k]? = some x) :
    ∃ us vs, l = us ++ x :: vs ∧ (∀ y, l.set k y = us ++ y :: vs) ∧ l.eraseIdx k = us ++ vs := by
  induction l generalizing k with
  | nil => simp at h
  | cons a l ih =>
      cases k with
      | zero =>
          rw [List.getElem?_cons_zero, Option.some.injEq] at h
          subst h
          exact ⟨[], l, rfl, fun y ↦ rfl, rfl⟩
      | succ k =>
          rw [List.getElem?_cons_succ] at h
          obtain ⟨us, vs, hl, hset, herase⟩ := ih h
          refine ⟨a :: us, vs, ?_, ?_, ?_⟩
          · rw [hl, List.cons_append]
          · intro y
            rw [List.set_cons_succ, hset y, List.cons_append]
          · rw [List.eraseIdx_cons_succ, herase, List.cons_append]

/-- When no thing is carried twice, two different calls have nothing in common. -/
theorem disjoint_of_nodup {f : α → List β} {l us vs : List α} {x y : α}
    (hnd : (l.flatMap f).Nodup) (hl : l = us ++ x :: vs) (hy : y ∈ us ++ vs) :
    List.Disjoint (f x) (f y) := by
  subst hl
  have hpw := (List.nodup_flatMap.mp hnd).2
  rw [List.pairwise_append, List.pairwise_cons] at hpw
  rcases List.mem_append.mp hy with hus | hvs
  · intro b hx hy
    exact hpw.2.2 y hus x List.mem_cons_self hy hx
  · exact hpw.2.1.1 y hvs

end Slots
