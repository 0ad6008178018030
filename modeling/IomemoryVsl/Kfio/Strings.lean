import IomemoryVsl.Lib.CString
import Mathlib.Data.List.TakeWhile
import Mathlib.Data.Nat.Digits.Defs
import Mathlib.Tactic.SplitIfs

/-!
# Strings (`kfio.c`)

The two functions on strings that are written out: `kfio_strncat` and `kfio_stoi`.
-/

namespace IomemoryVsl.Kfio

open ByteMemory

/-! ## Appending -/

/-- `while (*d != 0) d++` -/
def strncatEnd (m : Bytes) : ℕ → ℕ → Option ℕ
  | 0, _ => none
  | fuel + 1, d => if m d ≠ 0 then strncatEnd m fuel (d + 1) else some d

/-- The `do` loop, with the `break` in it. -/
def strncatLoop : ℕ → Bytes → ℕ → ℕ → Int32 → Option (Bytes × ℕ)
  | 0, _, _, _, _ => none
  | fuel + 1, m, d, s, size =>
      let c := m s
      let m := Function.update m d c
      let s := s + 1
      if c = 0 then some (m, d)
      else
        let d := d + 1
        let size := size - 1
        if size ≠ 0 then strncatLoop fuel m d s size else some (m, d)

/-- `kfio_strncat`; the answer is what it returns and the memory it leaves. -/
def kfioStrncat (fuel : ℕ) (m : Bytes) (dst src : ℕ) (size : Int32) : Option (ℕ × Bytes) :=
  if size ≠ 0 then do
    let d ← strncatEnd m fuel dst
    let (m, d) ← strncatLoop fuel m d src size
    some (dst, Function.update m d 0)
  else some (dst, m)

/-- What is taken of the string that is appended: all of it for a negative size. -/
def strncatTaken (s : List UInt8) (size : Int32) : List UInt8 :=
  if size < 0 then s else s.take (min size.toInt.toNat s.length)

/-- `strncat` of ISO C, for strings `d` at `dst` and `s` elsewhere: at most `n` characters of `s`
are appended, and always a NUL. -/
def isoStrncat (m : Bytes) (dst : ℕ) (d s : List UInt8) (n : ℕ) : Bytes :=
  storeString m (dst + d.length) (s.take n)

/-- An `int` passed for a `size_t`. -/
def passSize (size : Int32) : ℕ :=
  size.toInt64.toUInt64.toNat

variable {m : Bytes} {dst src d p : ℕ} {s t : List UInt8} {size : Int32} {fuel : ℕ}

theorem strncatEnd_eq (ht : IsString m p t) (hfuel : t.length < fuel) :
    strncatEnd m fuel p = some (p + t.length) := by
  induction t generalizing p fuel with
  | nil =>
    obtain ⟨n, rfl⟩ := Nat.exists_eq_add_one_of_ne_zero (Nat.ne_zero_of_lt hfuel)
    exact if_neg (not_not.mpr ht)
  | cons c t ih =>
    obtain ⟨n, rfl⟩ := Nat.exists_eq_add_one_of_ne_zero (Nat.ne_zero_of_lt hfuel)
    rw [List.length_cons] at hfuel ⊢
    have hchar : m p ≠ 0 := by
      rw [ht.1]
      exact ht.2.1
    unfold strncatEnd
    rw [if_pos hchar, ih ht.2.2 (by omega), Nat.add_right_comm, Nat.add_assoc]

theorem toUInt32_eq_zero (size : Int32) : size.toUInt32.toNat = 0 ↔ size = 0 := by
  constructor
  · intro hzero
    exact Int32.toBitVec.inj (BitVec.eq_of_toNat_eq hzero)
  · rintro rfl
    rfl

/-- A count that is not 0 goes down by one, also through the least `int`. -/
theorem toUInt32_pred (hsize : size ≠ 0) :
    (size - 1).toUInt32.toNat + 1 = size.toUInt32.toNat := by
  have hpos : size.toUInt32.toNat ≠ 0 := mt (toUInt32_eq_zero size).mp hsize
  show (size.toUInt32 - 1).toNat + 1 = size.toUInt32.toNat
  have hone : (1 : UInt32).toNat = 1 := rfl
  rw [UInt32.toNat_sub_of_le _ _ (UInt32.le_iff_toNat_le.mpr (by omega)), hone]
  omega

/-- What the loop has stored once the NUL is behind it. -/
theorem strncatLoop_eq (hs : IsString m src s) (hsize : size ≠ 0)
    (hapart : d + (s.take size.toUInt32.toNat).length < src ∨ src + s.length < d)
    (hfuel : s.length < fuel) :
    ∃ m' d', strncatLoop fuel m d src size = some (m', d') ∧
      Function.update m' d' 0 = storeString m d (s.take size.toUInt32.toNat) := by
  -- the induction is on what is left of `src`; the count is followed as an unsigned number
  induction s generalizing m d src size fuel with
  | nil =>
    obtain ⟨n, rfl⟩ := Nat.exists_eq_add_one_of_ne_zero (Nat.ne_zero_of_lt hfuel)
    have hnul : m src = 0 := hs
    unfold strncatLoop
    dsimp only
    rw [hnul, if_pos rfl, List.take_nil]
    exact ⟨_, _, rfl, Function.update_idem 0 0 m⟩
  | cons c s ih =>
    obtain ⟨n, rfl⟩ := Nat.exists_eq_add_one_of_ne_zero (Nat.ne_zero_of_lt hfuel)
    rw [← toUInt32_pred hsize, List.take_succ_cons, List.length_cons, List.length_cons] at hapart
    rw [List.length_cons] at hfuel
    unfold strncatLoop
    dsimp only
    rw [hs.1, if_neg hs.2.1, ← toUInt32_pred hsize, List.take_succ_cons]
    by_cases hlast : size - 1 = 0
    · rw [if_neg (not_not.mpr hlast), (toUInt32_eq_zero _).mpr hlast]
      exact ⟨_, _, rfl, rfl⟩
    · rw [if_pos hlast]
      -- what has been stored is not part of the string that is read
      have hrest : IsString (Function.update m d c) (src + 1) s := by
        apply hs.2.2.congr
        intro x hlow hhigh
        exact Function.update_of_ne (by omega) _ _
      exact ih hrest hlast (by omega) (by omega)

theorem toNat_toUInt32 (size : Int32) :
    (size.toUInt32.toNat : ℤ) = if size.toInt < 0 then size.toInt + 2 ^ 32 else size.toInt := by
  have hnat : size.toUInt32.toNat < 2 ^ 32 := size.toUInt32.toNat_lt
  have hint : size.toInt = if 2 * size.toUInt32.toNat < 2 ^ 32 then (size.toUInt32.toNat : ℤ)
      else size.toUInt32.toNat - (2 ^ 32 : ℕ) := BitVec.toInt_eq_toNat_cond _
  split_ifs at hint ⊢ <;> omega

theorem toNat_passSize (size : Int32) :
    (passSize size : ℤ) = if size.toInt < 0 then size.toInt + 2 ^ 64 else size.toInt := by
  have hnat : passSize size < 2 ^ 64 := size.toInt64.toUInt64.toNat_lt
  have hint : size.toInt64.toInt = if 2 * passSize size < 2 ^ 64 then (passSize size : ℤ)
      else passSize size - (2 ^ 64 : ℕ) := BitVec.toInt_eq_toNat_cond _
  rw [Int32.toInt_toInt64] at hint
  have hlow := size.le_toInt
  have hhigh := size.toInt_lt
  split_ifs at hint ⊢ <;> omega

/-- A count of characters that is the `int`, or exceeds every string when that is negative. -/
theorem take_eq_strncatTaken {n : ℕ} (hlen : s.length < 2 ^ 31)
    (hn : if size.toInt < 0 then 2 ^ 31 ≤ n else (n : ℤ) = size.toInt) :
    s.take n = strncatTaken s size := by
  unfold strncatTaken
  by_cases hneg : size.toInt < 0
  · rw [if_pos hneg] at hn
    rw [if_pos (Int32.lt_iff_toInt_lt.mpr hneg)]
    exact List.take_of_length_le (by omega)
  · rw [if_neg hneg] at hn
    rw [if_neg (mt Int32.lt_iff_toInt_lt.mp hneg), ← hn, Int.toNat_natCast]
    exact List.take_eq_take_min

theorem take_toUInt32 (hlen : s.length < 2 ^ 31) :
    s.take size.toUInt32.toNat = strncatTaken s size := by
  apply take_eq_strncatTaken hlen
  have hnat := toNat_toUInt32 size
  have hlow := size.le_toInt
  split_ifs at hnat ⊢ <;> omega

theorem take_passSize (hlen : s.length < 2 ^ 31) :
    s.take (passSize size) = strncatTaken s size := by
  apply take_eq_strncatTaken hlen
  have hnat := toNat_passSize size
  have hlow := size.le_toInt
  split_ifs at hnat ⊢ <;> omega

theorem strncatTaken_zero (s : List UInt8) : strncatTaken s 0 = [] := by
  unfold strncatTaken
  rw [if_neg (by decide), show (0 : Int32).toInt.toNat = 0 from rfl, Nat.zero_min, List.take_zero]

/-- The memory that is left is that of the standard function, and so are the strings in it. -/
theorem kfioStrncat_eq (hdst : IsString m dst t) (hsrc : IsString m src s)
    (hlen : s.length < 2 ^ 31)
    (hapart : dst + t.length + (strncatTaken s size).length < src ∨ src + s.length < dst)
    (hfuel : t.length + s.length < fuel) :
    kfioStrncat fuel m dst src size = some (dst, isoStrncat m dst t s (passSize size)) := by
  unfold kfioStrncat isoStrncat
  rw [take_passSize hlen]
  by_cases hsize : size = 0
  · subst hsize
    have hnul : storeString m (dst + t.length) [] = m := by
      show Function.update m (dst + t.length) 0 = m
      rw [← hdst.nul, Function.update_eq_self]
    rw [strncatTaken_zero, hnul]
    exact if_neg (not_not.mpr rfl)
  · have hend := strncatEnd_eq hdst (show t.length < fuel by omega)
    obtain ⟨m', d', hloop, hstored⟩ := strncatLoop_eq (d := dst + t.length) hsrc hsize
      (by rw [take_toUInt32 hlen]; omega) (show s.length < fuel by omega)
    rw [take_toUInt32 hlen] at hstored
    rw [if_pos hsize, hend, Option.bind_eq_bind, Option.bind_some, hloop]
    exact congrArg (fun m ↦ some (dst, m)) hstored

/-- What `kfio_strncat` leaves: the string at `dst` with as much of the other as was asked for,
every other byte as it was, and so what `strncat` leaves. -/
theorem kfioStrncat_appends (hdst : IsString m dst t) (hsrc : IsString m src s)
    (hlen : s.length < 2 ^ 31)
    (hapart : dst + t.length + (strncatTaken s size).length < src ∨ src + s.length < dst) :
    ∃ m', (∀ fuel > t.length + s.length, kfioStrncat fuel m dst src size = some (dst, m')) ∧
      IsString m' dst (t ++ strncatTaken s size) ∧
      (∀ x, x < dst + t.length ∨ dst + t.length + (strncatTaken s size).length < x →
        m' x = m x) ∧
      (∀ i ≤ s.length, m' (src + i) = m (src + i)) ∧
      m' = isoStrncat m dst t s (passSize size) := by
  have hframe : ∀ x, x < dst + t.length ∨ dst + t.length + (strncatTaken s size).length < x →
      isoStrncat m dst t s (passSize size) x = m x := by
    intro x hx
    unfold isoStrncat
    rw [take_passSize hlen]
    exact storeString_outside m hx
  refine ⟨_, fun fuel hfuel ↦ kfioStrncat_eq hdst hsrc hlen hapart hfuel, ?_, hframe, ?_, rfl⟩
  · apply hdst.append
    · intro x _ hhigh
      exact hframe x (Or.inl hhigh)
    · unfold isoStrncat
      rw [take_passSize hlen]
      apply isString_storeString
      intro c hc
      apply hsrc.ne_zero
      rw [← take_passSize hlen] at hc
      exact List.mem_of_mem_take hc
  · intro i hi
    exact hframe (src + i) (by omega)

/-- `"ab"` with room behind it, and `"cde"`. -/
def twoStrings : Bytes :=
  fun x ↦ [97, 98, 0, 7, 7, 7, 7, 7, 99, 100, 101, 0].getD x 0

theorem kfioStrncat_appends_twoStrings :
    ∃ m', (∀ fuel > 5, kfioStrncat fuel twoStrings 0 8 2 = some (0, m')) ∧
      IsString m' 0 [97, 98, 99, 100] ∧
      (∀ x, x < 2 ∨ 4 < x → m' x = twoStrings x) ∧
      (∀ i ≤ 3, m' (8 + i) = twoStrings (8 + i)) ∧
      m' = isoStrncat twoStrings 0 [97, 98] [99, 100, 101] 2 :=
  @kfioStrncat_appends twoStrings 0 8 [99, 100, 101] [97, 98] 2
    ⟨rfl, by decide, rfl, by decide, rfl⟩
    ⟨rfl, by decide, rfl, by decide, rfl, by decide, rfl⟩ (by decide) (Or.inl (by decide))

/-! ## Numbers -/

/-- Whether `char` is signed. -/
inductive CharSign where
  | signed
  | unsigned
deriving DecidableEq, Repr

/-- A `char` as an `int`. -/
def CharSign.toInt : CharSign → UInt8 → Int32
  | .signed, c => c.toInt8.toInt32
  | .unsigned, c => c.toUInt32.toInt32

/-- The loop of `kfio_stoi`, with the addresses that it reads; `'0'` is 48 and `'9'` is 57. -/
def stoiLoop (sign : CharSign) (m : Bytes) :
    ℕ → ℕ → Int32 → Int32 → Option (Int32 × Int32 × List ℕ)
  | 0, _, _, _ => none
  | fuel + 1, p, n, nchar =>
      let c := sign.toInt (m p)
      if c < 48 ∨ c > 57 then some (n, nchar, [p])
      else (stoiLoop sign m fuel (p + 1) (n * 10 + (c - 48)) (nchar + 1)).map
        fun (n, nchar, reads) ↦ (n, nchar, p :: reads)

/-- `kfio_stoi`: the value, `*nchar`, and the addresses that have been read. -/
def kfioStoi (sign : CharSign) (fuel : ℕ) (m : Bytes) (p : ℕ) : Option (Int32 × Int32 × List ℕ) :=
  stoiLoop sign m fuel p 0 0

def isDecimal (c : UInt8) : Bool :=
  48 ≤ c && c ≤ 57

/-- The longest prefix of digits. -/
def digitsOf (s : List UInt8) : List UInt8 :=
  s.takeWhile isDecimal

/-- The number that digits denote, the last of them being the units. -/
def decimal (digits : List UInt8) : ℕ :=
  Nat.ofDigits 10 (digits.reverse.map fun c ↦ c.toNat - 48)

theorem decimal_concat (digits : List UInt8) (c : UInt8) :
    decimal (digits ++ [c]) = decimal digits * 10 + (c.toNat - 48) := by
  unfold decimal
  rw [List.reverse_append, List.reverse_singleton, List.singleton_append, List.map_cons,
    Nat.ofDigits_cons, Nat.add_comm, Nat.mul_comm]

theorem decimal_zeros (zeros : ℕ) (digits : List UInt8) :
    decimal (List.replicate zeros 48 ++ digits) = decimal digits := by
  unfold decimal
  rw [List.reverse_append, List.reverse_replicate, List.map_append, List.map_replicate]
  exact Nat.ofDigits_append_replicate_zero _

/-- The bytes from 128 on are negative characters if those are signed. -/
theorem toInt_char (sign : CharSign) (c : UInt8) : (sign.toInt c).toInt = c.toNat ∨
    128 ≤ c.toNat ∧ (sign.toInt c).toInt = c.toNat - 256 := by
  have hbyte : c.toNat < 256 := c.toNat_lt
  cases sign with
  | signed =>
    have hint : (c.toInt8.toInt32).toInt = if 2 * c.toNat < 2 ^ 8 then (c.toNat : ℤ)
        else c.toNat - (2 ^ 8 : ℕ) := by
      rw [Int8.toInt_toInt32]
      exact BitVec.toInt_eq_toNat_cond _
    show (c.toInt8.toInt32).toInt = _ ∨ 128 ≤ c.toNat ∧ (c.toInt8.toInt32).toInt = _
    split_ifs at hint <;> omega
  | unsigned =>
    have hint : (c.toUInt32.toInt32).toInt = if 2 * c.toUInt32.toNat < 2 ^ 32 then
        (c.toUInt32.toNat : ℤ) else c.toUInt32.toNat - (2 ^ 32 : ℕ) :=
      BitVec.toInt_eq_toNat_cond _
    rw [UInt8.toNat_toUInt32, if_pos (by omega)] at hint
    exact Or.inl hint

theorem isDecimal_iff (c : UInt8) : isDecimal c = true ↔ 48 ≤ c.toNat ∧ c.toNat ≤ 57 := by
  unfold isDecimal
  rw [Bool.and_eq_true, decide_eq_true_iff, decide_eq_true_iff, UInt8.le_iff_toNat_le,
    UInt8.le_iff_toNat_le]
  rfl

/-- In either signedness only the digits are between `'0'` and `'9'`. -/
theorem toInt_isDecimal (sign : CharSign) (c : UInt8) :
    (sign.toInt c < 48 ∨ sign.toInt c > 57) ↔ ¬ isDecimal c = true := by
  have hchar := toInt_char sign c
  have hbyte : c.toNat < 256 := c.toNat_lt
  rw [isDecimal_iff, gt_iff_lt, Int32.lt_iff_toInt_lt, Int32.lt_iff_toInt_lt]
  have hlow : (48 : Int32).toInt = 48 := rfl
  have hhigh : (57 : Int32).toInt = 57 := rfl
  omega

theorem toInt_of_isDecimal (sign : CharSign) {c : UInt8} (hc : isDecimal c = true) :
    sign.toInt c - 48 = Int32.ofNat (c.toNat - 48) := by
  have hchar := toInt_char sign c
  rw [isDecimal_iff] at hc
  have hval : sign.toInt c = Int32.ofNat c.toNat := by
    apply Int32.toInt_inj.mp
    rw [Int32.toInt_ofNat_of_lt (by omega)]
    omega
  rw [hval, Int32.ofNat_sub _ _ hc.1]
  rfl

theorem digitsOf_nil : digitsOf [] = [] := rfl

/-- The loop carries the number that the digits so far denote, modulo `2 ^ 32`, and stops at the
first character that is no digit, at the latest at the NUL. -/
theorem stoiLoop_eq (sign : CharSign) (done : List UInt8) (hs : IsString m p s)
    (hfuel : s.length < fuel) (nchar : Int32) :
    stoiLoop sign m fuel p (Int32.ofNat (decimal done)) nchar =
      some (Int32.ofNat (decimal (done ++ digitsOf s)), nchar + Int32.ofNat (digitsOf s).length,
        List.range' p ((digitsOf s).length + 1)) := by
  -- the induction is on what is left of the string; `done` is what has been read
  induction s generalizing p fuel done nchar with
  | nil =>
    obtain ⟨n, rfl⟩ := Nat.exists_eq_add_one_of_ne_zero (Nat.ne_zero_of_lt hfuel)
    have hnul : m p = 0 := hs
    have hstop := (toInt_isDecimal sign 0).mpr (by decide)
    unfold stoiLoop
    dsimp only
    rw [hnul, if_pos hstop, digitsOf_nil, List.append_nil, List.length_nil]
    show _ = some (_, nchar + 0, [p])
    rw [Int32.add_zero]
  | cons c s ih =>
    obtain ⟨n, rfl⟩ := Nat.exists_eq_add_one_of_ne_zero (Nat.ne_zero_of_lt hfuel)
    unfold stoiLoop
    dsimp only
    rw [hs.1]
    by_cases hc : isDecimal c = true
    · have hdigits : digitsOf (c :: s) = c :: digitsOf s := List.takeWhile_cons_of_pos hc
      have hnext : Int32.ofNat (decimal done) * 10 + (sign.toInt c - 48) =
          Int32.ofNat (decimal (done ++ [c])) := by
        rw [toInt_of_isDecimal sign hc, decimal_concat, Int32.ofNat_add, Int32.ofNat_mul]
        rfl
      rw [if_neg (mt (toInt_isDecimal sign c).mp (not_not.mpr hc)), hnext,
        ih (done ++ [c]) hs.2.2 (Nat.lt_of_succ_lt_succ hfuel), hdigits, List.append_assoc,
        Option.map_some, List.length_cons, Int32.ofNat_add, Int32.add_assoc,
        Int32.add_comm 1, List.range'_succ (n := (digitsOf s).length + 1)]
      rfl
    · have hdigits : digitsOf (c :: s) = [] := List.takeWhile_cons_of_neg hc
      rw [if_pos ((toInt_isDecimal sign c).mpr hc), hdigits, List.append_nil, List.length_nil]
      show _ = some (_, nchar + 0, [p])
      rw [Int32.add_zero]

theorem kfioStoi_eq (sign : CharSign) (hs : IsString m p s) (hfuel : s.length < fuel) :
    kfioStoi sign fuel m p = some (Int32.ofNat (decimal (digitsOf s)),
      Int32.ofNat (digitsOf s).length, List.range' p ((digitsOf s).length + 1)) := by
  have hloop := stoiLoop_eq sign [] hs hfuel 0
  rw [List.nil_append, Int32.zero_add] at hloop
  exact hloop

/-- What stands in front of the digits or behind them does not add any. -/
theorem digitsOf_padded {rest : List UInt8} (zeros : ℕ) (s : List UInt8)
    (hrest : ∀ c ∈ rest.head?, ¬ isDecimal c = true) :
    digitsOf (List.replicate zeros 48 ++ digitsOf s ++ rest) =
      List.replicate zeros 48 ++ digitsOf s := by
  have hdigits : ∀ c ∈ List.replicate zeros 48 ++ digitsOf s, isDecimal c = true := by
    intro c hc
    rcases List.mem_append.mp hc with hzero | hdigit
    · rw [List.eq_of_mem_replicate hzero]
      rfl
    · exact List.mem_takeWhile_imp hdigit
  have hnone : rest.takeWhile isDecimal = [] := by
    cases rest with
    | nil => rfl
    | cons c rest => exact List.takeWhile_cons_of_neg (hrest c rfl)
  unfold digitsOf at hdigits ⊢
  rw [List.takeWhile_append_of_pos hdigits, hnone, List.append_nil]

/-- `kfio_stoi` reads the digits that a string starts with and no further than its NUL, counts them,
and returns their number as far as an `int` can say it; zeros in front and text behind do not
matter. -/
theorem kfioStoi_decimal (sign : CharSign) (hs : IsString m p s) (hlen : s.length < 2 ^ 31) :
    ∃ n nchar reads, (∀ fuel > s.length, kfioStoi sign fuel m p = some (n, nchar, reads)) ∧
      (∀ x ∈ reads, p ≤ x ∧ x ≤ p + s.length) ∧
      nchar.toInt = (digitsOf s).length ∧
      n.toInt = (decimal (digitsOf s) : ℤ).bmod (2 ^ 32) ∧
      (decimal (digitsOf s) ≤ 2 ^ 31 - 1 → n.toInt = decimal (digitsOf s)) ∧
      ∀ (sign' : CharSign) (m' : Bytes) (p' zeros : ℕ) (rest : List UInt8),
        (∀ c ∈ rest.head?, ¬ isDecimal c = true) →
        IsString m' p' (List.replicate zeros 48 ++ digitsOf s ++ rest) →
        ∀ fuel > (List.replicate zeros 48 ++ digitsOf s ++ rest).length,
          ∃ nchar' reads', kfioStoi sign' fuel m' p' = some (n, nchar', reads') := by
  have hprefix : (digitsOf s).length ≤ s.length := (List.takeWhile_prefix isDecimal).length_le
  refine ⟨_, _, _, fun fuel hfuel ↦ kfioStoi_eq sign hs hfuel, ?_, ?_, ?_, ?_, ?_⟩
  · intro x hx
    rw [List.mem_range'_1] at hx
    omega
  · exact Int32.toInt_ofNat_of_lt (by omega)
  · exact Int32.toInt_ofNat'
  · intro hfits
    exact Int32.toInt_ofNat_of_lt (by omega)
  · intro sign' m' p' zeros rest hrest hs' fuel hfuel
    have hpadded := kfioStoi_eq sign' hs' hfuel
    rw [digitsOf_padded zeros s hrest, decimal_zeros] at hpadded
    exact ⟨_, _, hpadded⟩

/-- `"042x"` -/
def numeral : Bytes :=
  fun x ↦ [48, 52, 50, 120, 0].getD x 0

theorem kfioStoi_decimal_numeral :
    ∃ n nchar reads, (∀ fuel > 4, kfioStoi .signed fuel numeral 0 = some (n, nchar, reads)) ∧
      (∀ x ∈ reads, 0 ≤ x ∧ x ≤ 4) ∧ nchar.toInt = 3 ∧ n.toInt = (42 : ℤ).bmod (2 ^ 32) := by
  obtain ⟨n, nchar, reads, hret, hreads, hnchar, hn, -⟩ :=
    @kfioStoi_decimal numeral 0 [48, 52, 50, 120] .signed
      ⟨rfl, by decide, rfl, by decide, rfl, by decide, rfl, by decide, rfl⟩ (by decide)
  exact ⟨n, nchar, reads, hret, hreads, hnchar, hn⟩

end IomemoryVsl.Kfio
