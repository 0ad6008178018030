import IomemoryVsl.Lib.ByteMemory

/-!
# Strings in memory

A string is a sequence of bytes other than NUL with a NUL behind it.
-/

namespace ByteMemory

/-- The string `s` is at `p`. -/
def IsString (m : Bytes) : ℕ → List UInt8 → Prop
  | p, [] => m p = 0
  | p, c :: s => m p = c ∧ c ≠ 0 ∧ IsString m (p + 1) s

/-- The bytes of `s` are stored from `a` on, and a NUL behind them. -/
def storeString (m : Bytes) : ℕ → List UInt8 → Bytes
  | a, [] => Function.update m a 0
  | a, c :: s => storeString (Function.update m a c) (a + 1) s

variable {m m' : Bytes} {a p x : ℕ} {s t : List UInt8}

theorem IsString.ne_zero (h : IsString m p s) : ∀ c ∈ s, c ≠ 0 := by
  induction s generalizing p with
  | nil => exact fun c hc ↦ absurd hc List.not_mem_nil
  | cons c s ih => exact List.forall_mem_cons.mpr ⟨h.2.1, ih h.2.2⟩

theorem IsString.nul (h : IsString m p s) : m (p + s.length) = 0 := by
  induction s generalizing p with
  | nil => exact h
  | cons c s ih =>
    rw [List.length_cons, ← Nat.add_assoc, Nat.add_right_comm]
    exact ih h.2.2

/-- A string is what it is as long as its own bytes are, the NUL among them. -/
theorem IsString.congr (h : IsString m p s) (heq : ∀ x, p ≤ x → x ≤ p + s.length → m' x = m x) :
    IsString m' p s := by
  induction s generalizing p with
  | nil => exact (heq p (Nat.le_refl p) (Nat.le_refl p)).trans h
  | cons c s ih =>
    rw [List.length_cons] at heq
    refine ⟨(heq p (Nat.le_refl p) (Nat.le_add_right p _)).trans h.1, h.2.1, ih h.2.2 ?_⟩
    intro x hlow hhigh
    exact heq x (by omega) (by omega)

/-- Another string in the place of the NUL is a longer string. -/
theorem IsString.append (h : IsString m p s) (heq : ∀ x, p ≤ x → x < p + s.length → m' x = m x)
    (ht : IsString m' (p + s.length) t) : IsString m' p (s ++ t) := by
  induction s generalizing p with
  | nil => exact ht
  | cons c s ih =>
    rw [List.length_cons] at heq ht
    refine ⟨(heq p (Nat.le_refl p) (by omega)).trans h.1, h.2.1, ih h.2.2 ?_ ?_⟩
    · intro x hlow hhigh
      exact heq x (by omega) (by omega)
    · rw [Nat.add_right_comm, Nat.add_assoc]
      exact ht

/-- What follows the first bytes of a string is a string. -/
theorem IsString.drop (h : IsString m p (s ++ t)) : IsString m (p + s.length) t := by
  induction s generalizing p with
  | nil => exact h
  | cons c s ih =>
    rw [List.length_cons, ← Nat.add_assoc, Nat.add_right_comm]
    exact ih h.2.2

theorem storeString_outside (m : Bytes) (hx : x < a ∨ a + s.length < x) :
    storeString m a s x = m x := by
  induction s generalizing m a with
  | nil =>
    rw [List.length_nil] at hx
    exact Function.update_of_ne (by omega) _ _
  | cons c s ih =>
    rw [List.length_cons] at hx
    show storeString (Function.update m a c) (a + 1) s x = m x
    rw [ih _ (by omega), Function.update_of_ne (by omega)]

theorem isString_storeString (m : Bytes) (a : ℕ) (hs : ∀ c ∈ s, c ≠ 0) :
    IsString (storeString m a s) a s := by
  induction s generalizing m a with
  | nil => exact Function.update_self a 0 m
  | cons c s ih =>
    rw [List.forall_mem_cons] at hs
    refine ⟨?_, hs.1, ih _ (a + 1) hs.2⟩
    show storeString (Function.update m a c) (a + 1) s a = c
    rw [storeString_outside _ (Or.inl (Nat.lt_succ_self a)), Function.update_self]

end ByteMemory
