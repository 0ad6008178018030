import Mathlib.Data.List.Basic
import Mathlib.Logic.Relation
import Mathlib.Order.Lattice

/-!
# Forests that grow and are pruned

A forest is the list of its vertices, the newest first, each with its parent if it has one.  A
vertex is older than its children, so one pass from the oldest to the newest finds what is below a
vertex.
-/

namespace Forest

variable {α : Type*}

def vertices (f : List (α × Option α)) : List α :=
  f.map Prod.fst

/-- The edges, from the parent to the child. -/
def Child (f : List (α × Option α)) (p a : α) : Prop :=
  (a, some p) ∈ f

section Subtree

variable [DecidableEq α]

/-- `root` and everything below it. -/
def subtree (root : α) : List (α × Option α) → List α
  | [] => []
  | (a, parent) :: older =>
      if a = root ∨ ∃ p ∈ parent, p ∈ subtree root older then a :: subtree root older
      else subtree root older

def prune (root : α) (f : List (α × Option α)) : List (α × Option α) :=
  f.filter fun x ↦ x.1 ∉ subtree root f

theorem subtree_subset_cons (root : α) (x : α × Option α) (older : List (α × Option α)) :
    subtree root older ⊆ subtree root (x :: older) := by
  intro a ha
  unfold subtree
  split_ifs
  · exact List.mem_cons_of_mem _ ha
  · exact ha

theorem mem_subtree_cons {root a : α} {x : α × Option α} {older : List (α × Option α)}
    (ha : a ∈ subtree root (x :: older)) (hne : a ≠ x.1) : a ∈ subtree root older := by
  unfold subtree at ha
  split_ifs at ha
  · exact (List.mem_cons.mp ha).resolve_left hne
  · exact ha

theorem root_mem_subtree {root : α} {f : List (α × Option α)} (hroot : root ∈ vertices f) :
    root ∈ subtree root f := by
  induction f with
  | nil => cases hroot
  | cons x older ih =>
      rcases List.mem_cons.mp hroot with hx | hold
      · unfold subtree
        rw [if_pos (Or.inl hx.symm), hx]
        exact List.mem_cons_self
      · exact subtree_subset_cons root x older (ih hold)

/-- What is found is connected to the root. -/
theorem descends_of_mem_subtree {root a : α} {f : List (α × Option α)} (ha : a ∈ subtree root f) :
    Relation.ReflTransGen (Child f) root a := by
  induction f generalizing a with
  | nil => cases ha
  | cons x older ih =>
      have hmono : ∀ b, Relation.ReflTransGen (Child older) root b →
          Relation.ReflTransGen (Child (x :: older)) root b := fun b hb ↦
        Relation.ReflTransGen.mono (fun _ _ h ↦ List.mem_cons_of_mem _ h) _ _ hb
      by_cases hx : a = x.1
      · unfold subtree at ha
        split_ifs at ha with hfound
        · rcases hfound with hroot | ⟨p, hp, hbelow⟩
          · rw [hx, hroot]
          · refine (hmono p (ih hbelow)).tail ?_
            rw [hx]
            exact List.mem_cons.mpr (Or.inl (Prod.ext rfl hp.symm))
        · exact hmono a (ih ha)
      · exact hmono a (ih (mem_subtree_cons ha hx))

theorem mem_vertices_prune {root a : α} {f : List (α × Option α)} :
    a ∈ vertices (prune root f) ↔ a ∈ vertices f ∧ a ∉ subtree root f := by
  unfold vertices prune
  simp only [List.mem_map, List.mem_filter, decide_eq_true_eq]
  constructor
  · rintro ⟨x, ⟨hx, hout⟩, rfl⟩
    exact ⟨⟨x, hx, rfl⟩, hout⟩
  · rintro ⟨⟨x, hx, rfl⟩, hout⟩
    exact ⟨x, ⟨hx, hout⟩, rfl⟩

end Subtree

section Grown

variable [LinearOrder α]

/-- The vertices come in the order of their age, and none is older than its parent. -/
structure Grown (f : List (α × Option α)) : Prop where
  ordered : f.Pairwise fun x y ↦ y.1 < x.1
  younger : ∀ a p, Child f p a → p < a

theorem grown_nil : Grown ([] : List (α × Option α)) where
  ordered := List.Pairwise.nil
  younger _ _ h := absurd h List.not_mem_nil

theorem Grown.cons {f : List (α × Option α)} (hf : Grown f) {a : α} {parent : Option α}
    (hnew : ∀ b ∈ vertices f, b < a) (hparent : ∀ p ∈ parent, p < a) :
    Grown ((a, parent) :: f) where
  ordered := List.pairwise_cons.mpr ⟨fun x hx ↦ hnew x.1 (List.mem_map_of_mem hx), hf.ordered⟩
  younger b p h := by
    rcases List.mem_cons.mp h with heq | hold
    · cases heq
      exact hparent p rfl
    · exact hf.younger b p hold

theorem Grown.prune {f : List (α × Option α)} (hf : Grown f) (root : α) :
    Grown (prune root f) where
  ordered := hf.ordered.filter _
  younger a p h := hf.younger a p (List.mem_of_mem_filter h)

/-- The pass reaches the children of what it has reached. -/
theorem Grown.child_mem_subtree {f : List (α × Option α)} (hf : Grown f) {root p a : α}
    (hp : p ∈ subtree root f) (hchild : Child f p a) : a ∈ subtree root f := by
  have hlt := hf.younger a p hchild
  induction f with
  | nil => cases hp
  | cons x older ih =>
      obtain ⟨hnewest, hordered⟩ := List.pairwise_cons.mp hf.ordered
      rcases List.mem_cons.mp hchild with heq | hold
      · -- the child is the newest, so its parent has been reached before it
        subst heq
        have hbelow := mem_subtree_cons hp (ne_of_lt hlt)
        unfold subtree
        rw [if_pos (Or.inr ⟨p, rfl, hbelow⟩)]
        exact List.mem_cons_self
      · have hne : p ≠ x.1 := fun hx ↦ lt_asymm hlt (hx ▸ hnewest _ hold)
        have hold' : Grown older :=
          ⟨hordered, fun b q h ↦ hf.younger b q (List.mem_cons_of_mem _ h)⟩
        exact subtree_subset_cons root x older (ih hold' (mem_subtree_cons hp hne) hold)

/-- The subtree is what the root is connected to. -/
theorem Grown.mem_subtree_iff {f : List (α × Option α)} (hf : Grown f) {root a : α}
    (hroot : root ∈ vertices f) :
    a ∈ subtree root f ↔ Relation.ReflTransGen (Child f) root a := by
  constructor
  · exact descends_of_mem_subtree
  · intro h
    induction h with
    | refl => exact root_mem_subtree hroot
    | tail _ hchild ih => exact hf.child_mem_subtree ih hchild

/-- Pruning a vertex without children takes that vertex only. -/
theorem Grown.mem_vertices_prune_leaf {f : List (α × Option α)} (hf : Grown f) {root a : α}
    (hroot : root ∈ vertices f) (hleaf : ∀ b, ¬ Child f root b) :
    a ∈ vertices (Forest.prune root f) ↔ a ∈ vertices f ∧ a ≠ root := by
  rw [mem_vertices_prune, hf.mem_subtree_iff hroot]
  have halone : Relation.ReflTransGen (Child f) root a ↔ a = root := by
    constructor
    · intro h
      rcases h.cases_head with heq | ⟨b, hchild, -⟩
      · exact heq.symm
      · exact absurd hchild (hleaf b)
    · intro heq
      rw [heq]
  rw [halone]

end Grown

end Forest
