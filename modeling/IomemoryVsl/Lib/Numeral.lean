import Mathlib.Data.Nat.Digits.Lemmas

/-!
# Printed numbers

A number as its digits, the leading one first, with zeros in front up to a width.  A number can be
read off its digits, the first digits of a number are those of a quotient of it, and fields that a
separator ends can be told apart.
-/

namespace Numeral

variable {b w k m n : ℕ}

/-- The digits of `n`, at least `w` of them. -/
def padded (b w n : ℕ) : List ℕ :=
  (b.digits n).reverse.leftpad w 0

theorem padded_eq (b w n : ℕ) :
    padded b w n = List.replicate (w - (b.digits n).length) 0 ++ (b.digits n).reverse := by
  unfold padded
  rw [List.leftpad, List.length_reverse]

@[simp]
theorem length_padded (b w n : ℕ) : (padded b w n).length = max w (b.digits n).length := by
  unfold padded
  rw [List.length_leftpad, List.length_reverse]

theorem length_padded_of_lt (hb : 1 < b) (hn : n < b ^ w) : (padded b w n).length = w := by
  rw [length_padded]
  exact max_eq_left ((Nat.digits_length_le_iff hb n).mpr hn)

theorem lt_of_mem_padded (hb : 1 < b) {d : ℕ} (hd : d ∈ padded b w n) : d < b := by
  rw [padded_eq, List.mem_append, List.mem_reverse] at hd
  rcases hd with hzero | hdigit
  · rw [List.eq_of_mem_replicate hzero]
    omega
  · exact Nat.digits_lt_base hb hdigit

/-- The number is the one that its digits denote. -/
theorem ofDigits_padded (b w n : ℕ) : Nat.ofDigits b (padded b w n).reverse = n := by
  rw [padded_eq, List.reverse_append, List.reverse_reverse, List.reverse_replicate,
    Nat.ofDigits_append_replicate_zero, Nat.ofDigits_digits]

theorem padded_inj : padded b w m = padded b w n ↔ m = n := by
  constructor
  · intro h
    rw [← ofDigits_padded b w m, h, ofDigits_padded]
  · rintro rfl
    rfl

theorem drop_digits (hb : 1 < b) (n i : ℕ) : (b.digits n).drop i = b.digits (n / b ^ i) := by
  induction i generalizing n with
  | zero => rw [List.drop_zero, pow_zero, Nat.div_one]
  | succ i ih =>
    rcases Nat.eq_zero_or_pos n with rfl | hpos
    · rw [Nat.zero_div, Nat.digits_zero, List.drop_nil]
    · rw [Nat.digits_def' hb hpos, List.drop_succ_cons, ih, Nat.div_div_eq_div_mul, pow_succ']

/-- The first digits of a number are all the digits of a quotient of it. -/
theorem take_padded (hb : 1 < b) (hk : k ≤ (padded b w n).length) :
    (padded b w n).take k = padded b k (n / b ^ ((padded b w n).length - k)) := by
  rw [length_padded] at hk ⊢
  rw [padded_eq, padded_eq, ← drop_digits hb, List.length_drop, List.take_append,
    List.take_replicate, List.length_replicate, List.reverse_drop]
  have hzeros : min k (w - (b.digits n).length) =
      k - ((b.digits n).length - (max w (b.digits n).length - k)) := by omega
  have hdigits : k - (w - (b.digits n).length) =
      (b.digits n).length - (max w (b.digits n).length - k) := by omega
  rw [hzeros, hdigits]

theorem ofDigits_take_padded (hb : 1 < b) (w n k : ℕ) :
    Nat.ofDigits b ((padded b w n).take k).reverse = n / b ^ ((padded b w n).length - k) := by
  rcases Nat.le_total k (padded b w n).length with hk | hk
  · rw [take_padded hb hk, ofDigits_padded]
  · rw [List.take_of_length_le hk, ofDigits_padded, Nat.sub_eq_zero_of_le hk, pow_zero, Nat.div_one]

/-! ## Fields -/

section Fields

variable {α : Type*} {sep : α} {s t s' t' : List α}

/-- A field ends at the first separator. -/
theorem field_inj (hs : sep ∉ s) (ht : sep ∉ t) (h : s ++ sep :: s' = t ++ sep :: t') :
    s = t ∧ s' = t' := by
  induction s generalizing t with
  | nil =>
    cases t with
    | nil => exact ⟨rfl, List.tail_eq_of_cons_eq h⟩
    | cons c t => exact absurd (List.head_eq_of_cons_eq h) (List.ne_of_not_mem_cons ht)
  | cons c s ih =>
    cases t with
    | nil => exact absurd (List.head_eq_of_cons_eq h).symm (List.ne_of_not_mem_cons hs)
    | cons d t =>
      obtain ⟨rfl, htail⟩ := List.cons_eq_cons.mp h
      obtain ⟨rfl, hrest⟩ := ih (List.not_mem_of_not_mem_cons hs)
        (List.not_mem_of_not_mem_cons ht) htail
      exact ⟨rfl, hrest⟩

theorem take_field (hk : s.length < k) :
    (s ++ sep :: s').take k = s ++ sep :: s'.take (k - s.length - 1) := by
  rw [List.take_append, List.take_of_length_le (Nat.le_of_lt hk), List.take_cons (by omega)]

/-- Two texts that begin with a field agree up to a place behind it if the fields do, and what
follows them. -/
theorem take_field_eq_iff (hs : sep ∉ s) (ht : sep ∉ t) (hks : s.length < k)
    (hkt : t.length < k) : (s ++ sep :: s').take k = (t ++ sep :: t').take k ↔
      s = t ∧ s'.take (k - s.length - 1) = t'.take (k - s.length - 1) := by
  rw [take_field hks, take_field hkt]
  constructor
  · intro h
    obtain ⟨rfl, hrest⟩ := field_inj hs ht h
    exact ⟨rfl, hrest⟩
  · rintro ⟨rfl, hrest⟩
    rw [hrest]

end Fields

end Numeral
