import Mathlib.Data.List.Cycle
import Mathlib.Logic.Function.Basic

/-!
# Doubly linked rings

A memory gives every address a node with a successor and a predecessor pointer.  Pointer surgery is
written with `link`, which makes two addresses neighbours, and a ring is a cycle of addresses in
which each is linked to the next.  `Rings m A` says that the memory holds a family of disjoint
rings, each with a root and the sequence of its other members.
-/

namespace LinkedRing

variable {α : Type*}

@[ext]
structure Node (α : Type*) where
  next : α
  prev : α
deriving DecidableEq, Repr

abbrev Memory (α : Type*) := α → Node α

/-! ## Chains of linked addresses -/

def Linked (m : Memory α) (a b : α) : Prop :=
  (m a).next = b ∧ (m b).prev = a

/-- A chain only depends on the nodes it runs through. -/
theorem isChain_congr {m m' : Memory α} {c : List α} (h : List.IsChain (Linked m) c)
    (heq : ∀ a ∈ c, m' a = m a) : List.IsChain (Linked m') c := by
  refine h.imp_of_mem_imp ?_
  intro a b ha hb hab
  unfold Linked
  rw [heq a ha, heq b hb]
  exact hab

theorem getLast?_cons_getLastD (a : α) (xs : List α) :
    (a :: xs).getLast? = some (xs.getLastD a) := by
  rw [List.getLast?_cons, List.getLastD_eq_getLast?]

/-! ## Rings -/

/-- Each address of `c` is linked to the one after it, the last to the first. -/
def IsRing (m : Memory α) (c : List α) : Prop :=
  Cycle.Chain (Linked m) (c : Cycle α)

theorem isRing_cons {m : Memory α} {a : α} {xs : List α} :
    IsRing m (a :: xs) ↔ List.IsChain (Linked m) (a :: (xs ++ [a])) :=
  Cycle.chain_coe_cons _ a xs

theorem isRing_singleton {m : Memory α} {a : α} : IsRing m [a] ↔ Linked m a a :=
  Cycle.chain_singleton _ a

/-- Where a ring starts does not matter. -/
theorem isRing_rotate {m : Memory α} {xs ys : List α} :
    IsRing m (xs ++ ys) ↔ IsRing m (ys ++ xs) := by
  unfold IsRing
  rw [Cycle.coe_eq_coe.mpr (List.isRotated_append : (xs ++ ys) ~r (ys ++ xs))]

theorem IsRing.isChain {m : Memory α} {c : List α} (h : IsRing m c) :
    List.IsChain (Linked m) c := by
  cases c with
  | nil => exact List.IsChain.nil
  | cons a xs =>
      rw [isRing_cons, ← List.cons_append] at h
      exact (List.isChain_append.mp h).1

theorem IsRing.next_eq {m : Memory α} {a : α} {xs : List α} (h : IsRing m (a :: xs)) :
    (m a).next = xs.headD a := by
  rw [isRing_cons] at h
  cases xs with
  | nil => exact (List.isChain_cons_cons.mp h).1.1
  | cons b xs => exact (List.isChain_cons_cons.mp h).1.1

theorem IsRing.prev_eq {m : Memory α} {a : α} {xs : List α} (h : IsRing m (a :: xs)) :
    (m a).prev = xs.getLastD a := by
  rw [isRing_cons, ← List.cons_append] at h
  -- the link that closes the ring leads from the last address back to `a`
  have hlast := (List.isChain_append.mp h).2.2 (xs.getLastD a)
    (Option.mem_def.mpr (getLast?_cons_getLastD a xs)) a rfl
  exact hlast.2

theorem IsRing.next_mem {m : Memory α} {c : List α} (h : IsRing m c) {a : α} (ha : a ∈ c) :
    (m a).next ∈ c := by
  -- turn the ring so that it starts at `a`
  obtain ⟨us, vs, rfl⟩ := List.append_of_mem ha
  rw [isRing_rotate, List.cons_append] at h
  rw [h.next_eq]
  rcases hc : vs ++ us with _ | ⟨b, ws⟩
  · exact ha
  · have hb : b ∈ vs ++ us := by
      rw [hc]
      exact List.mem_cons_self
    rw [List.headD_cons]
    simp only [List.mem_append, List.mem_cons] at hb ⊢
    tauto

theorem IsRing.prev_mem {m : Memory α} {c : List α} (h : IsRing m c) {a : α} (ha : a ∈ c) :
    (m a).prev ∈ c := by
  obtain ⟨us, vs, rfl⟩ := List.append_of_mem ha
  rw [isRing_rotate, List.cons_append] at h
  rw [h.prev_eq]
  have hb : (vs ++ us).getLastD a ∈ a :: (vs ++ us) := List.getLastD_mem_cons
  simp only [List.mem_append, List.mem_cons] at hb ⊢
  tauto

theorem IsRing.congr {m m' : Memory α} {c : List α} (h : IsRing m c)
    (heq : ∀ a ∈ c, m' a = m a) : IsRing m' c := by
  cases c with
  | nil => exact Cycle.Chain.nil _
  | cons a xs =>
      rw [isRing_cons] at h ⊢
      apply isChain_congr h
      intro b hb
      apply heq
      simp only [List.mem_cons, List.mem_append, List.not_mem_nil, or_false] at hb ⊢
      tauto

/-- In a list without repetition the last element occurs only at the end. -/
theorem getLastD_notMem_dropLast {a : α} {xs : List α} (h : (a :: xs).Nodup) :
    xs.getLastD a ∉ (a :: xs).dropLast := by
  induction xs generalizing a with
  | nil => simp
  | cons b xs ih =>
      rw [List.dropLast_cons_cons, List.getLastD_cons, List.mem_cons, not_or]
      refine ⟨?_, ih (List.nodup_cons.mp h).2⟩
      intro heq
      have hmem : xs.getLastD b ∈ b :: xs := List.getLastD_mem_cons
      rw [heq] at hmem
      exact (List.nodup_cons.mp h).1 hmem

/-- The second address of a ring points to the third. -/
theorem IsRing.next_second {m : Memory α} {a b : α} {xs : List α} (h : IsRing m (a :: b :: xs)) :
    (m b).next = xs.headD a := by
  rw [isRing_cons, List.cons_append, List.isChain_cons_cons] at h
  cases xs with
  | nil => exact (List.isChain_cons_cons.mp h.2).1.1
  | cons c xs => exact (List.isChain_cons_cons.mp h.2).1.1

theorem chain_unique {m : Memory α} {a l : α} {xs ys : List α}
    (hx : List.IsChain (Linked m) (a :: (xs ++ [l])))
    (hy : List.IsChain (Linked m) (a :: (ys ++ [l])))
    (hlx : l ∉ xs) (hly : l ∉ ys) : xs = ys := by
  -- both chains follow `next` from `a`, and each stops where it first meets `l`
  induction xs generalizing a ys with
  | nil =>
      cases ys with
      | nil => rfl
      | cons y ys =>
          have h1 := (List.isChain_cons_cons.mp hx).1.1
          have h2 := (List.isChain_cons_cons.mp hy).1.1
          exact absurd (h1.symm.trans h2 ▸ List.mem_cons_self) hly
  | cons x xs ih =>
      cases ys with
      | nil =>
          have h1 := (List.isChain_cons_cons.mp hx).1.1
          have h2 := (List.isChain_cons_cons.mp hy).1.1
          exact absurd (h2.symm.trans h1 ▸ List.mem_cons_self) hlx
      | cons y ys =>
          rw [List.cons_append, List.isChain_cons_cons] at hx hy
          have hxy : x = y := hx.1.1.symm.trans hy.1.1
          subst hxy
          rw [List.mem_cons, not_or] at hlx hly
          rw [ih hx.2 hy.2 hlx.2 hly.2]

/-- The root of a ring determines the rest of it. -/
theorem IsRing.unique {m : Memory α} {l : α} {xs ys : List α} (hx : IsRing m (l :: xs))
    (hy : IsRing m (l :: ys)) (hnx : (l :: xs).Nodup) (hny : (l :: ys).Nodup) : xs = ys :=
  chain_unique (isRing_cons.mp hx) (isRing_cons.mp hy) (List.nodup_cons.mp hnx).1
    (List.nodup_cons.mp hny).1

/-! ## Families of disjoint rings -/

/-- `a` is the root `l` of a ring of the family, or one of its members. -/
def Owns (A : α → Option (List α)) (l a : α) : Prop :=
  ∃ xs, A l = some xs ∧ a ∈ l :: xs

/-- The memory holds the rings of the family and no two of them share an address. -/
structure Rings (m : Memory α) (A : α → Option (List α)) : Prop where
  ring : ∀ l xs, A l = some xs → IsRing m (l :: xs)
  nodup : ∀ l xs, A l = some xs → (l :: xs).Nodup
  disjoint : ∀ l l' a, Owns A l a → Owns A l' a → l = l'

variable {m m' : Memory α} {A : α → Option (List α)}

theorem owns_root {l : α} {xs : List α} (h : A l = some xs) : Owns A l l :=
  ⟨xs, h, List.mem_cons_self⟩

theorem owns_mem {l a : α} {xs : List α} (h : A l = some xs) (ha : a ∈ xs) : Owns A l a :=
  ⟨xs, h, List.mem_cons_of_mem l ha⟩

theorem Rings.next_owns (h : Rings m A) {l a : α} (ha : Owns A l a) : Owns A l (m a).next := by
  obtain ⟨xs, hl, hmem⟩ := ha
  exact ⟨xs, hl, (h.ring l xs hl).next_mem hmem⟩

theorem Rings.prev_owns (h : Rings m A) {l a : α} (ha : Owns A l a) : Owns A l (m a).prev := by
  obtain ⟨xs, hl, hmem⟩ := ha
  exact ⟨xs, hl, (h.ring l xs hl).prev_mem hmem⟩

/-- An address that is alone on its ring, or a member of one. -/
def Element (A : α → Option (List α)) (a : α) : Prop :=
  A a = some [] ∨ ∃ l xs, A l = some xs ∧ a ∈ xs

theorem Element.owns {a : α} (h : Element A a) : ∃ l, Owns A l a := by
  rcases h with ha | ⟨l, xs, hl, ha⟩
  · exact ⟨a, owns_root ha⟩
  · exact ⟨l, owns_mem hl ha⟩

/-! ## Writing pointers -/

variable [DecidableEq α]

def setNext (m : Memory α) (a v : α) : Memory α :=
  Function.update m a { m a with next := v }

def setPrev (m : Memory α) (a v : α) : Memory α :=
  Function.update m a { m a with prev := v }

/-- Make `b` the successor of `a` and `a` the predecessor of `b`. -/
def link (m : Memory α) (a b : α) : Memory α :=
  setPrev (setNext m a b) b a

@[simp]
theorem setNext_next (m : Memory α) (a v c : α) :
    (setNext m a v c).next = if c = a then v else (m c).next := by
  unfold setNext
  by_cases h : c = a
  · subst h
    rw [Function.update_self, if_pos rfl]
  · rw [Function.update_of_ne h, if_neg h]

@[simp]
theorem setNext_prev (m : Memory α) (a v c : α) : (setNext m a v c).prev = (m c).prev := by
  unfold setNext
  by_cases h : c = a
  · subst h
    rw [Function.update_self]
  · rw [Function.update_of_ne h]

@[simp]
theorem setPrev_prev (m : Memory α) (a v c : α) :
    (setPrev m a v c).prev = if c = a then v else (m c).prev := by
  unfold setPrev
  by_cases h : c = a
  · subst h
    rw [Function.update_self, if_pos rfl]
  · rw [Function.update_of_ne h, if_neg h]

@[simp]
theorem setPrev_next (m : Memory α) (a v c : α) : (setPrev m a v c).next = (m c).next := by
  unfold setPrev
  by_cases h : c = a
  · subst h
    rw [Function.update_self]
  · rw [Function.update_of_ne h]

/-- The two pointers of a node are written independently of each other. -/
theorem setNext_setPrev (m : Memory α) (a b v w : α) :
    setNext (setPrev m b v) a w = setPrev (setNext m a w) b v := by
  funext c
  apply Node.ext
  · simp
  · simp

theorem link_next (m : Memory α) (a b c : α) :
    (link m a b c).next = if c = a then b else (m c).next := by
  simp [link]

theorem link_prev (m : Memory α) (a b c : α) :
    (link m a b c).prev = if c = b then a else (m c).prev := by
  simp [link]

theorem link_of_ne (m : Memory α) {a b c : α} (ha : c ≠ a) (hb : c ≠ b) : link m a b c = m c := by
  apply Node.ext
  · rw [link_next, if_neg ha]
  · rw [link_prev, if_neg hb]

theorem link_comm (m : Memory α) {a b c d : α} (hac : a ≠ c) (hbd : b ≠ d) :
    link (link m a b) c d = link (link m c d) a b := by
  funext x
  apply Node.ext
  · simp only [link_next]
    split_ifs with h1 h2
    · exact absurd (h2.symm.trans h1) hac
    all_goals rfl
  · simp only [link_prev]
    split_ifs with h1 h2
    · exact absurd (h2.symm.trans h1) hbd
    all_goals rfl

theorem linked_link (m : Memory α) (a b : α) : Linked (link m a b) a b := by
  constructor
  · rw [link_next, if_pos rfl]
  · rw [link_prev, if_pos rfl]

theorem Linked.link_of_ne {m : Memory α} {a b p n : α} (h : Linked m a b) (hp : a ≠ p)
    (hn : b ≠ n) : Linked (link m p n) a b := by
  constructor
  · rw [link_next, if_neg hp]
    exact h.1
  · rw [link_prev, if_neg hn]
    exact h.2

/-- A new link leaves a chain alone that neither leaves `p` nor enters `n`. -/
theorem isChain_link {m : Memory α} {p n : α} {c : List α} (h : List.IsChain (Linked m) c)
    (hp : p ∉ c.dropLast) (hn : n ∉ c.tail) : List.IsChain (Linked (link m p n)) c := by
  induction c with
  | nil => exact List.IsChain.nil
  | cons a c ih =>
      cases c with
      | nil => exact List.IsChain.singleton a
      | cons b c =>
          rw [List.isChain_cons_cons] at h ⊢
          rw [List.dropLast_cons_cons, List.mem_cons, not_or] at hp
          rw [List.tail_cons, List.mem_cons, not_or] at hn
          refine ⟨h.1.link_of_ne (Ne.symm hp.1) (Ne.symm hn.1), ih h.2 hp.2 ?_⟩
          rw [List.tail_cons]
          exact hn.2

/-! ## Surgery on chains and rings -/

/-- Linking the last address of a chain to its first closes it to a ring. -/
theorem isRing_close {m : Memory α} {a : α} {xs : List α}
    (h : List.IsChain (Linked m) (a :: xs)) (hnd : (a :: xs).Nodup) :
    IsRing (link m (xs.getLastD a) a) (a :: xs) := by
  rw [isRing_cons, ← List.cons_append, List.isChain_append]
  refine ⟨?_, List.IsChain.singleton a, ?_⟩
  · apply isChain_link h (getLastD_notMem_dropLast hnd)
    exact (List.nodup_cons.mp hnd).1
  · intro x hx y hy
    rw [getLast?_cons_getLastD, Option.mem_some_iff] at hx
    rw [List.head?_cons, Option.mem_some_iff] at hy
    subst hx
    subst hy
    exact linked_link m _ _

/-- Two chains linked end to end, and the end of the second to the start of the first. -/
theorem isRing_join {m : Memory α} {a b : α} {xs ys : List α}
    (ha : List.IsChain (Linked m) (a :: xs)) (hb : List.IsChain (Linked m) (b :: ys))
    (hnd : (a :: xs ++ b :: ys).Nodup) :
    IsRing (link (link m (xs.getLastD a) b) (ys.getLastD b) a) (a :: xs ++ b :: ys) := by
  obtain ⟨hnda, hndb, hdisj⟩ := List.nodup_append'.mp hnd
  -- the second link closes the ring; what remains is the chain that the first one makes
  have hlast : (xs ++ b :: ys).getLastD a = ys.getLastD b := by
    rw [List.getLastD_eq_getLast?, List.getLast?_append, getLast?_cons_getLastD]
    rfl
  rw [← hlast]
  apply isRing_close _ hnd
  change List.IsChain _ (a :: xs ++ b :: ys)
  rw [List.isChain_append]
  have hlmem : xs.getLastD a ∈ a :: xs := List.getLastD_mem_cons
  refine ⟨?_, ?_, ?_⟩
  · apply isChain_link ha (getLastD_notMem_dropLast hnda)
    intro hmem
    exact hdisj (List.mem_of_mem_tail hmem) List.mem_cons_self
  · apply isChain_link hb
    · intro hmem
      exact hdisj hlmem (List.mem_of_mem_dropLast hmem)
    · exact (List.nodup_cons.mp hndb).1
  · intro x hx y hy
    rw [getLast?_cons_getLastD, Option.mem_some_iff] at hx
    rw [List.head?_cons, Option.mem_some_iff] at hy
    subst hx
    subst hy
    exact linked_link m _ _

/-- Taking one address out of a ring. -/
theorem IsRing.unlink {m : Memory α} {e a : α} {xs : List α} (h : IsRing m (e :: a :: xs))
    (hnd : (e :: a :: xs).Nodup) : IsRing (link m (m e).prev (m e).next) (a :: xs) := by
  rw [h.prev_eq, h.next_eq, List.headD_cons, List.getLastD_cons]
  exact isRing_close (List.isChain_cons_cons.mp h.isChain).2 (List.nodup_cons.mp hnd).2

/-! ## Changing a family -/

/-- The family without `a`: the root `a` is dropped and `a` is taken out of every sequence. -/
def erase (A : α → Option (List α)) (a : α) : α → Option (List α) :=
  fun l ↦ if l = a then none else (A l).map fun xs ↦ xs.erase a

theorem owns_update {l r a : α} {xs : List α} (h : Owns (Function.update A l (some xs)) r a) :
    (r = l ∧ a ∈ l :: xs) ∨ (r ≠ l ∧ Owns A r a) := by
  obtain ⟨ys, hr, ha⟩ := h
  by_cases hrl : r = l
  · subst hrl
    rw [Function.update_self, Option.some.injEq] at hr
    subst hr
    exact Or.inl ⟨rfl, ha⟩
  · rw [Function.update_of_ne hrl] at hr
    exact Or.inr ⟨hrl, ys, hr, ha⟩

/-- Replacing (or adding) one ring of a family. -/
theorem Rings.set (h : Rings m A) {l : α} {xs : List α} (hring : IsRing m' (l :: xs))
    (hnd : (l :: xs).Nodup) (hfresh : ∀ a ∈ l :: xs, ∀ r, Owns A r a → r = l)
    (hkeep : ∀ r a, r ≠ l → Owns A r a → m' a = m a) :
    Rings m' (Function.update A l (some xs)) where
  ring r ys hr := by
    by_cases hrl : r = l
    · subst hrl
      rw [Function.update_self, Option.some.injEq] at hr
      subst hr
      exact hring
    · rw [Function.update_of_ne hrl] at hr
      apply (h.ring r ys hr).congr
      intro a ha
      exact hkeep r a hrl ⟨ys, hr, ha⟩
  nodup r ys hr := by
    by_cases hrl : r = l
    · subst hrl
      rw [Function.update_self, Option.some.injEq] at hr
      subst hr
      exact hnd
    · rw [Function.update_of_ne hrl] at hr
      exact h.nodup r ys hr
  disjoint r r' a hr hr' := by
    -- an address of the new ring had no owner but `l`, so no other ring holds it
    rcases owns_update hr with ⟨rfl, ha⟩ | ⟨hrl, ho⟩
    · rcases owns_update hr' with ⟨rfl, -⟩ | ⟨hrl', ho'⟩
      · rfl
      · exact absurd (hfresh a ha r' ho') hrl'
    · rcases owns_update hr' with ⟨rfl, ha'⟩ | ⟨-, ho'⟩
      · exact hfresh a ha' r ho
      · exact h.disjoint r r' a ho ho'

/-- Forgetting a root. -/
theorem Rings.drop (h : Rings m A) (l : α) : Rings m (Function.update A l none) := by
  have hof : ∀ r ys, Function.update A l none r = some ys → A r = some ys := by
    intro r ys hr
    by_cases hrl : r = l
    · subst hrl
      rw [Function.update_self] at hr
      cases hr
    · rwa [Function.update_of_ne hrl] at hr
  have howns : ∀ r a, Owns (Function.update A l none) r a → Owns A r a := by
    rintro r a ⟨ys, hr, ha⟩
    exact ⟨ys, hof r ys hr, ha⟩
  constructor
  · intro r ys hr
    exact h.ring r ys (hof r ys hr)
  · intro r ys hr
    exact h.nodup r ys (hof r ys hr)
  · intro r r' a hr hr'
    exact h.disjoint r r' a (howns r a hr) (howns r' a hr')

theorem erase_of_not_owned (h : ∀ l, ¬ Owns A l a) : erase A a = A := by
  funext l
  unfold erase
  by_cases hl : l = a
  · subst hl
    rw [if_pos rfl]
    rcases hA : A l with _ | xs
    · rfl
    · exact absurd (owns_root hA) (h l)
  · rw [if_neg hl]
    rcases hA : A l with _ | xs
    · rfl
    · have hmem : a ∉ xs := fun ha ↦ h l (owns_mem hA ha)
      rw [Option.map_some, List.erase_of_not_mem hmem]

/-- Erasing the root of an otherwise empty ring forgets the root. -/
theorem Rings.erase_root (h : Rings m A) {a : α} (ha : A a = some []) :
    erase A a = Function.update A a none := by
  funext l
  unfold erase
  by_cases hl : l = a
  · subst hl
    rw [if_pos rfl, Function.update_self]
  · rw [if_neg hl, Function.update_of_ne hl]
    rcases hA : A l with _ | xs
    · rfl
    · have hmem : a ∉ xs := by
        intro hx
        exact hl (h.disjoint l a a (owns_mem hA hx) (owns_root ha))
      rw [Option.map_some, List.erase_of_not_mem hmem]

/-- Erasing a member changes only the sequence it is on. -/
theorem Rings.erase_mem (h : Rings m A) {l a : α} {xs : List α} (hl : A l = some xs)
    (ha : a ∈ xs) : erase A a = Function.update A l (some (xs.erase a)) := by
  have hla : l ≠ a := by
    rintro rfl
    exact (List.nodup_cons.mp (h.nodup l xs hl)).1 ha
  have hown : Owns A l a := owns_mem hl ha
  funext r
  unfold erase
  by_cases hr : r = l
  · subst hr
    rw [if_neg hla, hl, Function.update_self, Option.map_some]
  · rw [Function.update_of_ne hr]
    -- `a` is on the ring of `l`, so it is neither another root nor on another ring
    by_cases hra : r = a
    · subst hra
      rw [if_pos rfl]
      rcases hA : A r with _ | ys
      · rfl
      · exact absurd (h.disjoint r l r (owns_root hA) hown) hr
    · rw [if_neg hra]
      rcases hA : A r with _ | ys
      · rfl
      · have hmem : a ∉ ys := by
          intro hy
          exact hr (h.disjoint r l a (owns_mem hA hy) hown)
        rw [Option.map_some, List.erase_of_not_mem hmem]

/-- No root owns an address that has been erased. -/
theorem Rings.not_owns_erase (h : Rings m A) (l a : α) : ¬ Owns (erase A a) l a := by
  rintro ⟨xs, hl, ha⟩
  unfold erase at hl
  by_cases hla : l = a
  · rw [if_pos hla] at hl
    cases hl
  · rw [if_neg hla, Option.map_eq_some_iff] at hl
    obtain ⟨ys, hys, rfl⟩ := hl
    have hnd := (List.nodup_cons.mp (h.nodup l ys hys)).2
    rcases List.mem_cons.mp ha with heq | hmem
    · exact hla heq.symm
    · exact (List.Nodup.mem_erase_iff hnd).mp hmem |>.1 rfl

theorem owns_of_erase {l a b : α} (h : Owns (erase A a) l b) : Owns A l b := by
  obtain ⟨xs, hl, hb⟩ := h
  unfold erase at hl
  by_cases hla : l = a
  · rw [if_pos hla] at hl
    cases hl
  · rw [if_neg hla, Option.map_eq_some_iff] at hl
    obtain ⟨ys, hys, rfl⟩ := hl
    refine ⟨ys, hys, ?_⟩
    rcases List.mem_cons.mp hb with rfl | hmem
    · exact List.mem_cons_self
    · exact List.mem_cons_of_mem l (List.mem_of_mem_erase hmem)

theorem erase_of_ne {l a : α} {xs : List α} (hl : A l = some xs) (hla : l ≠ a) :
    erase A a l = some (xs.erase a) := by
  unfold erase
  rw [if_neg hla, hl, Option.map_some]

theorem erase_of_notMem {l a : α} {xs : List α} (hl : A l = some xs) (ha : a ∉ l :: xs) :
    erase A a l = some xs := by
  rw [List.mem_cons, not_or] at ha
  rw [erase_of_ne hl (Ne.symm ha.1), List.erase_of_not_mem ha.2]

/-! ## The surgeries on a family -/

/-- A new ring of one address. -/
theorem Rings.init (h : Rings m A) {a : α} (ha : ∀ r, Owns A r a → r = a) :
    Rings (link m a a) (Function.update A a (some [])) := by
  refine h.set ?_ (List.nodup_singleton a) ?_ ?_
  · exact isRing_singleton.mpr (linked_link m a a)
  · intro b hb r hr
    rw [List.mem_singleton] at hb
    subst hb
    exact ha r hr
  · intro r b hra hr
    have hba : b ≠ a := by
      rintro rfl
      exact hra (ha r hr)
    exact link_of_ne m hba hba

theorem Rings.unlink_of_ne (h : Rings m A) {l r a b : α} (ha : Owns A l a) (hb : Owns A r b)
    (hrl : r ≠ l) : link m (m a).prev (m a).next b = m b := by
  apply link_of_ne
  · rintro rfl
    exact hrl (h.disjoint r l _ hb (h.prev_owns ha))
  · rintro rfl
    exact hrl (h.disjoint r l _ hb (h.next_owns ha))

/-- Linking the neighbours of `a` takes it out of the ring it is on. -/
theorem Rings.unlink (h : Rings m A) {a : α} (ha : Element A a) :
    Rings (link m (m a).prev (m a).next) (erase A a) := by
  rcases ha with ha | ⟨l, xs, hl, ha⟩
  · -- alone on its ring, `a` is its own neighbour and no pointer changes
    have hring := isRing_singleton.mp (h.ring a [] ha)
    have hsame : link m (m a).prev (m a).next = m := by
      rw [hring.1, hring.2]
      funext c
      apply Node.ext
      · rw [link_next]
        split_ifs with hc
        · rw [hc, hring.1]
        · rfl
      · rw [link_prev]
        split_ifs with hc
        · rw [hc, hring.2]
        · rfl
    rw [hsame, h.erase_root ha]
    exact h.drop a
  · rw [h.erase_mem hl ha]
    have hown : Owns A l a := owns_mem hl ha
    have hnd := h.nodup l xs hl
    obtain ⟨us, vs, hau, rfl, hxs⟩ := List.exists_erase_eq ha
    rw [hxs]
    -- start the ring at `a`, cut it out, and turn the ring back to its root
    have hrot : IsRing m (a :: (vs ++ l :: us)) := by
      rw [← List.cons_append, isRing_rotate]
      exact h.ring l _ hl
    have hndrot : (a :: (vs ++ l :: us)).Nodup := by
      refine (List.Perm.nodup_iff ?_).mp hnd
      rw [← List.cons_append, ← List.cons_append]
      exact List.perm_append_comm
    have hsub : (l :: (us ++ vs)).Nodup := by
      refine (List.Perm.nodup_iff ?_).mp (List.nodup_cons.mp hndrot).2
      rw [← List.cons_append]
      exact List.perm_append_comm
    refine h.set ?_ hsub ?_ ?_
    · rw [← List.cons_append, isRing_rotate]
      rcases hc : vs ++ l :: us with _ | ⟨b, ws⟩
      · simp at hc
      · rw [hc] at hrot hndrot
        exact hrot.unlink hndrot
    · intro b hb r hr
      refine h.disjoint r l b hr ⟨_, hl, ?_⟩
      simp only [List.mem_cons, List.mem_append] at hb ⊢
      tauto
    · intro r b hrl hr
      exact h.unlink_of_ne hown hr hrl

/-- A chain put between the last address of `us` and the first of `vs`, where `us ++ vs` is the
ring of `l` written from its root, touches only that ring and the chain. -/
theorem Rings.join_of_ne (h : Rings m A) {l r a b : α} {xs ys us vs : List α} (hl : A l = some xs)
    (hxs : xs = us ++ vs) (hfree : ∀ a ∈ b :: ys, ∀ r, ¬ Owns A r a) (ha : Owns A r a)
    (hrl : r ≠ l) :
    link (link m (us.getLastD l) b) (ys.getLastD b) (vs.headD l) a = m a := by
  have hold : ∀ x ∈ l :: xs, a ≠ x := by
    rintro x hx rfl
    exact hrl (h.disjoint r l a ha ⟨xs, hl, hx⟩)
  have hnew : ∀ x ∈ b :: ys, a ≠ x := by
    rintro x hx rfl
    exact hfree a hx r ha
  have hlast : us.getLastD l ∈ l :: xs := by
    rw [hxs, ← List.cons_append]
    exact List.mem_append_left vs List.getLastD_mem_cons
  have hhead : vs.headD l ∈ l :: xs := by
    cases vs with
    | nil => exact List.mem_cons_self
    | cons v vs =>
        rw [hxs, List.headD_cons]
        simp
  rw [link_of_ne, link_of_ne]
  · exact hold _ hlast
  · exact hnew _ List.mem_cons_self
  · exact hnew _ List.getLastD_mem_cons
  · exact hold _ hhead

/-- A chain `b :: ys` of addresses that no ring owns, put into the ring of `l` between the last
address of `us` and the first of `vs`. -/
theorem Rings.join (h : Rings m A) {l b : α} {xs ys us vs : List α} (hl : A l = some xs)
    (hxs : xs = us ++ vs) (hy : List.IsChain (Linked m) (b :: ys)) (hnd : (b :: ys).Nodup)
    (hfree : ∀ a ∈ b :: ys, ∀ r, ¬ Owns A r a) :
    Rings (link (link m (us.getLastD l) b) (ys.getLastD b) (vs.headD l))
      (Function.update A l (some (us ++ b :: ys ++ vs))) := by
  have hframe : ∀ r a, r ≠ l → Owns A r a →
      link (link m (us.getLastD l) b) (ys.getLastD b) (vs.headD l) a = m a :=
    fun r a hrl ha ↦ h.join_of_ne hl hxs hfree ha hrl
  have hown : ∀ a ∈ l :: xs, Owns A l a := fun a ha ↦ ⟨xs, hl, ha⟩
  subst hxs
  have hndall : (l :: (us ++ vs) ++ b :: ys).Nodup := by
    refine List.nodup_append'.mpr ⟨h.nodup l _ hl, hnd, ?_⟩
    intro a ha hb
    exact hfree a hb l (hown a ha)
  -- turn the ring so that it starts with `vs` and ends with `us`, ready for the seam
  obtain ⟨c, cs, hc⟩ : ∃ c cs, vs ++ l :: us = c :: cs := by
    cases vs with
    | nil => exact ⟨l, us, rfl⟩
    | cons v vs => exact ⟨v, vs ++ l :: us, rfl⟩
  have hturn : IsRing m (c :: cs) := by
    rw [← hc, isRing_rotate, List.cons_append]
    exact h.ring l _ hl
  have hhead : vs.headD l = c := by
    cases vs with
    | nil => exact (List.cons.inj hc).1
    | cons v vs => exact (List.cons.inj hc).1
  have hlast : us.getLastD l = cs.getLastD c := by
    have h1 : (c :: cs).getLast? = some (us.getLastD l) := by
      rw [← hc, List.getLast?_append, getLast?_cons_getLastD]
      rfl
    rw [getLast?_cons_getLastD, Option.some.injEq] at h1
    exact h1.symm
  have hndturn : (c :: cs ++ b :: ys).Nodup := by
    refine (List.Perm.nodup_iff ?_).mp hndall
    rw [← hc, ← List.cons_append]
    exact List.Perm.append_right _ List.perm_append_comm
  have hjoin := isRing_join hturn.isChain hy hndturn
  rw [hhead, hlast] at hframe ⊢
  refine h.set ?_ ?_ ?_ hframe
  · have hsplit : l :: (us ++ b :: ys ++ vs) = (l :: us ++ b :: ys) ++ vs := by simp
    rw [hsplit, isRing_rotate, ← List.append_assoc, hc]
    exact hjoin
  · refine (List.Perm.nodup_iff ?_).mp hndall
    have hperm : (us ++ vs ++ b :: ys).Perm (us ++ b :: ys ++ vs) := by
      rw [List.append_assoc, List.append_assoc]
      exact List.Perm.append_left _ List.perm_append_comm
    exact hperm.cons l
  · intro a ha r hr
    have hmem : a ∈ l :: (us ++ vs) ∨ a ∈ b :: ys := by
      simp only [List.mem_cons, List.mem_append] at ha ⊢
      tauto
    rcases hmem with hold | hnew
    · exact h.disjoint r l a hr (hown a hold)
    · exact absurd hr (hfree a hnew r)

end LinkedRing
