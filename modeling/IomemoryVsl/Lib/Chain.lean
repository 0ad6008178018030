import Mathlib.Data.List.Nodup
import Mathlib.Logic.Function.Basic

/-!
# Null-terminated chains

A memory gives every address the pointer it stores, which is null or another address.  A chain is
what one sees when following the pointers until null, so it is finite and, since the memory is a
function, without repetition.  `Chains` is a family of such chains that share no address.
-/

namespace NullChain

variable {α κ : Type*}

/-- Following `next` from `p` runs through `l` and ends. -/
def Chain (next : α → Option α) : Option α → List α → Prop
  | p, [] => p = none
  | p, a :: l => p = some a ∧ Chain next (next a) l

variable {next : α → Option α} {p : Option α} {a : α} {l l' : List α}

theorem chain_none : Chain next none l ↔ l = [] := by
  cases l with
  | nil => exact ⟨fun _ ↦ rfl, fun _ ↦ rfl⟩
  | cons b l =>
      constructor
      · intro h
        cases h.1
      · intro h
        cases h

theorem chain_some : Chain next (some a) l ↔ ∃ l', l = a :: l' ∧ Chain next (next a) l' := by
  cases l with
  | nil =>
      constructor
      · intro h
        cases h
      · rintro ⟨l', h, -⟩
        cases h
  | cons b l =>
      constructor
      · intro h
        have hab : a = b := Option.some.inj h.1
        subst hab
        exact ⟨l, rfl, h.2⟩
      · rintro ⟨l', h, hc⟩
        cases h
        exact ⟨rfl, hc⟩

theorem Chain.unique (h : Chain next p l) (h' : Chain next p l') : l = l' := by
  induction l generalizing p l' with
  | nil =>
      have hp : p = none := h
      rw [hp, chain_none] at h'
      exact h'.symm
  | cons a l ih =>
      cases l' with
      | nil =>
          have hp : p = none := h'
          rw [hp, chain_none] at h
          exact h
      | cons b l' =>
          have hab : b = a := Option.some.inj (h'.1.symm.trans h.1)
          subst hab
          rw [ih h.2 h'.2]

/-- The rest of a chain is what one sees from there. -/
theorem Chain.suffix {us vs : List α} (h : Chain next p (us ++ a :: vs)) :
    Chain next (some a) (a :: vs) := by
  induction us generalizing p with
  | nil => exact ⟨rfl, h.2⟩
  | cons u us ih => exact ih h.2

theorem Chain.nodup (h : Chain next p l) : l.Nodup := by
  induction l generalizing p with
  | nil => exact List.nodup_nil
  | cons a l ih =>
      refine List.nodup_cons.mpr ⟨?_, ih h.2⟩
      intro hmem
      obtain ⟨us, vs, hl⟩ := List.append_of_mem hmem
      -- seen from `a` the chain would have two lengths
      have hlong : Chain next (some a) (a :: l) := ⟨rfl, h.2⟩
      have hshort : Chain next (some a) (a :: vs) := by
        have hrest := h.2
        rw [hl] at hrest
        exact hrest.suffix
      have heq := congrArg List.length (hlong.unique hshort)
      rw [hl] at heq
      simp only [List.length_cons, List.length_append] at heq
      omega

theorem Chain.congr {next' : α → Option α} (h : Chain next p l) (heq : ∀ a ∈ l, next' a = next a) :
    Chain next' p l := by
  induction l generalizing p with
  | nil => exact h
  | cons a l ih =>
      refine ⟨h.1, ?_⟩
      rw [heq a List.mem_cons_self]
      exact ih h.2 fun b hb ↦ heq b (List.mem_cons_of_mem a hb)

/-! ## Families of chains -/

structure Chains (next : α → Option α) (start : κ → Option α) (A : κ → List α) : Prop where
  chain : ∀ k, Chain next (start k) (A k)
  separate : ∀ j k a, a ∈ A j → a ∈ A k → j = k

/-- The address is in one of the chains. -/
def Held (A : κ → List α) (a : α) : Prop :=
  ∃ k, a ∈ A k

variable {start : κ → Option α} {A : κ → List α}

theorem Chains.existsUnique (h : Chains next start A) (ha : Held A a) : ∃! k, a ∈ A k := by
  obtain ⟨k, hk⟩ := ha
  exact ⟨k, hk, fun j hj ↦ h.separate j k a hj hk⟩

/-- An address outside of the chains may be written. -/
theorem Chains.write [DecidableEq α] (h : Chains next start A) (ha : ¬ Held A a) :
    Chains (Function.update next a p) start A where
  chain k := by
    apply (h.chain k).congr
    intro b hb
    have hba : b ≠ a := by
      intro hba
      subst hba
      exact ha ⟨k, hb⟩
    exact Function.update_of_ne hba ..
  separate := h.separate

variable [DecidableEq κ] {i j k : κ} {b : α}

def push (A : κ → List α) (k : κ) (a : α) : κ → List α :=
  Function.update A k (a :: A k)

/-- The chain `j` becomes the chain `k`. -/
def move (A : κ → List α) (j k : κ) : κ → List α :=
  Function.update (Function.update A k (A j)) j []

def pop (A : κ → List α) (k : κ) : κ → List α :=
  Function.update A k (A k).tail

theorem mem_push : b ∈ push A k a i ↔ b = a ∧ i = k ∨ b ∈ A i := by
  unfold push
  by_cases hik : i = k
  · subst hik
    rw [Function.update_self, List.mem_cons]
    simp
  · rw [Function.update_of_ne hik]
    simp [hik]

theorem mem_move (hjk : j ≠ k) (hk : A k = []) :
    b ∈ move A j k i ↔ i = k ∧ b ∈ A j ∨ i ≠ j ∧ b ∈ A i := by
  unfold move
  by_cases hij : i = j
  · subst hij
    rw [Function.update_self]
    simp [hjk]
  · rw [Function.update_of_ne hij]
    by_cases hik : i = k
    · subst hik
      rw [Function.update_self, hk]
      simp
    · rw [Function.update_of_ne hik]
      simp [hij, hik]

theorem Chains.mem_pop (h : Chains next start A) (hk : A k = a :: l) :
    b ∈ pop A k i ↔ b ≠ a ∧ b ∈ A i := by
  have hnd := (h.chain k).nodup
  rw [hk, List.nodup_cons] at hnd
  unfold pop
  by_cases hik : i = k
  · subst hik
    rw [Function.update_self, hk, List.tail_cons, List.mem_cons]
    constructor
    · intro hb
      refine ⟨?_, Or.inr hb⟩
      intro hba
      subst hba
      exact hnd.1 hb
    · rintro ⟨hba, hb⟩
      exact hb.resolve_left hba
  · rw [Function.update_of_ne hik]
    constructor
    · intro hb
      refine ⟨?_, hb⟩
      intro hba
      subst hba
      apply hik
      apply h.separate i k b hb
      rw [hk]
      exact List.mem_cons_self
    · intro hb
      exact hb.2

theorem held_push : Held (push A k a) b ↔ b = a ∨ Held A b := by
  constructor
  · rintro ⟨i, hi⟩
    rcases mem_push.mp hi with ⟨hb, -⟩ | hb
    · exact Or.inl hb
    · exact Or.inr ⟨i, hb⟩
  · rintro (hb | ⟨i, hi⟩)
    · exact ⟨k, mem_push.mpr (Or.inl ⟨hb, rfl⟩)⟩
    · exact ⟨i, mem_push.mpr (Or.inr hi)⟩

theorem held_move (hjk : j ≠ k) (hk : A k = []) : Held (move A j k) b ↔ Held A b := by
  constructor
  · rintro ⟨i, hi⟩
    rcases (mem_move hjk hk).mp hi with ⟨-, hb⟩ | ⟨-, hb⟩
    · exact ⟨j, hb⟩
    · exact ⟨i, hb⟩
  · rintro ⟨i, hi⟩
    by_cases hij : i = j
    · subst hij
      exact ⟨k, (mem_move hjk hk).mpr (Or.inl ⟨rfl, hi⟩)⟩
    · exact ⟨i, (mem_move hjk hk).mpr (Or.inr ⟨hij, hi⟩)⟩

theorem Chains.held_pop (h : Chains next start A) (hk : A k = a :: l) :
    Held (pop A k) b ↔ b ≠ a ∧ Held A b := by
  constructor
  · rintro ⟨i, hi⟩
    obtain ⟨hba, hb⟩ := (h.mem_pop hk).mp hi
    exact ⟨hba, i, hb⟩
  · rintro ⟨hba, i, hi⟩
    exact ⟨i, (h.mem_pop hk).mpr ⟨hba, hi⟩⟩

theorem Chains.push (h : Chains next start A) (ha : ¬ Held A a) (hnext : next a = start k) :
    Chains next (Function.update start k (some a)) (push A k a) where
  chain i := by
    unfold NullChain.push
    by_cases hik : i = k
    · subst hik
      rw [Function.update_self, Function.update_self]
      refine ⟨rfl, ?_⟩
      rw [hnext]
      exact h.chain i
    · rw [Function.update_of_ne hik, Function.update_of_ne hik]
      exact h.chain i
  separate i i' b hb hb' := by
    rcases mem_push.mp hb with ⟨hba, hi⟩ | hb
    · rcases mem_push.mp hb' with ⟨-, hi'⟩ | hb'
      · rw [hi, hi']
      · exact absurd ⟨i', hba ▸ hb'⟩ ha
    · rcases mem_push.mp hb' with ⟨hba, -⟩ | hb'
      · exact absurd ⟨i, hba ▸ hb⟩ ha
      · exact h.separate i i' b hb hb'

theorem Chains.move (h : Chains next start A) (hjk : j ≠ k) (hk : A k = []) :
    Chains next (Function.update (Function.update start k (start j)) j none) (move A j k) where
  chain i := by
    unfold NullChain.move
    by_cases hij : i = j
    · subst hij
      rw [Function.update_self, Function.update_self]
      rfl
    · rw [Function.update_of_ne hij, Function.update_of_ne hij]
      by_cases hik : i = k
      · subst hik
        rw [Function.update_self, Function.update_self]
        exact h.chain j
      · rw [Function.update_of_ne hik, Function.update_of_ne hik]
        exact h.chain i
  separate i i' b hb hb' := by
    rcases (mem_move hjk hk).mp hb with ⟨hi, hb⟩ | ⟨hi, hb⟩
    · rcases (mem_move hjk hk).mp hb' with ⟨hi', -⟩ | ⟨hi', hb'⟩
      · rw [hi, hi']
      · exact absurd (h.separate i' j b hb' hb) hi'
    · rcases (mem_move hjk hk).mp hb' with ⟨-, hb'⟩ | ⟨-, hb'⟩
      · exact absurd (h.separate i j b hb hb') hi
      · exact h.separate i i' b hb hb'

theorem Chains.pop (h : Chains next start A) (hk : A k = a :: l) :
    Chains next (Function.update start k (next a)) (pop A k) where
  chain i := by
    unfold NullChain.pop
    by_cases hik : i = k
    · subst hik
      have hc := h.chain i
      rw [hk] at hc
      rw [Function.update_self, Function.update_self, hk]
      exact hc.2
    · rw [Function.update_of_ne hik, Function.update_of_ne hik]
      exact h.chain i
  separate i i' b hb hb' :=
    h.separate i i' b ((h.mem_pop hk).mp hb).2 ((h.mem_pop hk).mp hb').2

end NullChain
