import IomemoryVsl.Lib.BlockSwap
import IomemoryVsl.Lib.BitField

/-!
# Fields on the card (`port/byteswap.h`)

What is on the card is little-endian, and the fields of a structure on it may be parts of a word.
They are read and written through a value of 64 bits in the order of the host.
-/

namespace IomemoryVsl.Port

open BlockSwap BitField

/-- `FUSION_BYTE_ORDER` -/
inductive FusionByteOrder where
  | littleEndian
  | bigEndian
deriving DecidableEq, Repr

def fusionBswap64 (val : BitVec 64) : BitVec 64 :=
  let tmp := val <<< 8 &&& 0xff00ff00ff00ff00#64 ||| val >>> 8 &&& 0x00ff00ff00ff00ff#64
  let tmp := tmp <<< 16 &&& 0xffff0000ffff0000#64 ||| tmp >>> 16 &&& 0x0000ffff0000ffff#64
  tmp <<< 32 &&& 0xffffffff00000000#64 ||| tmp >>> 32 &&& 0x00000000ffffffff#64

def fusionBswap32 (val : BitVec 32) : BitVec 32 :=
  let val := val <<< 8 &&& 0xff00ff00#32 ||| val >>> 8 &&& 0x00ff00ff#32
  val <<< 16 ||| val >>> 16

/-- The `int` that this is worked out in is cut to 16 bits on return. -/
def fusionBswap16 (val : BitVec 16) : BitVec 16 :=
  val <<< 8 ||| val >>> 8

section Order

variable (o : FusionByteOrder)

def le64toh (x : BitVec 64) : BitVec 64 :=
  match o with
  | .littleEndian => x
  | .bigEndian => fusionBswap64 x

def htole64 (x : BitVec 64) : BitVec 64 :=
  match o with
  | .littleEndian => x
  | .bigEndian => fusionBswap64 x

def le32toh (x : BitVec 32) : BitVec 32 :=
  match o with
  | .littleEndian => x
  | .bigEndian => fusionBswap32 x

def htole32 (x : BitVec 32) : BitVec 32 :=
  match o with
  | .littleEndian => x
  | .bigEndian => fusionBswap32 x

def le16toh (x : BitVec 16) : BitVec 16 :=
  match o with
  | .littleEndian => x
  | .bigEndian => fusionBswap16 x

def htole16 (x : BitVec 16) : BitVec 16 :=
  match o with
  | .littleEndian => x
  | .bigEndian => fusionBswap16 x

/-- The parameter `ww` of the macros. -/
inductive WordWidth where
  | w16
  | w32
  | w64
deriving DecidableEq, Repr

def WordWidth.bits : WordWidth → ℕ
  | .w16 => 16
  | .w32 => 32
  | .w64 => 64

variable {ww : WordWidth}

/-- `fusion_card_to_host16`, `fusion_card_to_host32` and `fusion_card_to_host64` -/
def fusionCardToHost (x : BitVec ww.bits) : BitVec ww.bits :=
  match ww, x with
  | .w16, x => le16toh o x
  | .w32, x => le32toh o x
  | .w64, x => le64toh o x

def hostToFusionCard (x : BitVec ww.bits) : BitVec ww.bits :=
  match ww, x with
  | .w16, x => htole16 o x
  | .w32, x => htole32 o x
  | .w64, x => htole64 o x

/-- `MD_GETTER (field, p, uint64_t, ww)` -/
def mdGetter (field : BitVec ww.bits) : BitVec 64 :=
  (fusionCardToHost o field).setWidth 64

/-- What `MD_SETTER_NOCHK` leaves in the field. -/
def mdSetterNochk (v : BitVec 64) : BitVec ww.bits :=
  hostToFusionCard o (v.setWidth ww.bits)

/-- `NMASK` -/
def nmask (n : ℕ) : BitVec 64 :=
  1#64 <<< n - 1#64

/-- What `MD_SETTER_BF` leaves in the field; its assertion on `bits` is compiled out. -/
def mdSetterBf (field : BitVec ww.bits) (v : BitVec 64) (off len : ℕ) : BitVec ww.bits :=
  let val := mdGetter o field
  let val := val &&& ~~~(nmask len <<< off)
  let val := val ||| v <<< off
  mdSetterNochk o val

/-- `MD_GETTER_BF`, where `t` is the cast to the type that is asked for. -/
def mdGetterBf {τ : Type} (t : BitVec 64 → τ) (field : BitVec ww.bits) (off len : ℕ) : τ :=
  t (mdGetter o field >>> off &&& nmask len)

end Order

/-! ## Byte swaps -/

theorem fusionBswap64_getLsbD (x : BitVec 64) (i : ℕ) (hi : i < 64) :
    (fusionBswap64 x).getLsbD i = x.getLsbD (partner 8 (partner 16 (partner 32 i))) := by
  have h32 : ∀ i < 64, partner 32 i < 64 := by decide
  have h16 : ∀ i < 64, partner 16 i < 64 := by decide
  unfold fusionBswap64
  dsimp only
  rw [show 0x00000000ffffffff#64 = ~~~0xffffffff00000000#64 from by decide,
    getLsbD_swap (k := 32) (by decide) _ hi,
    show 0x0000ffff0000ffff#64 = ~~~0xffff0000ffff0000#64 from by decide,
    getLsbD_swap (k := 16) (by decide) _ (h32 i hi),
    show 0x00ff00ff00ff00ff#64 = ~~~0xff00ff00ff00ff00#64 from by decide,
    getLsbD_swap (k := 8) (by decide) _ (h16 _ (h32 i hi))]

theorem fusionBswap32_getLsbD (x : BitVec 32) (i : ℕ) (hi : i < 32) :
    (fusionBswap32 x).getLsbD i = x.getLsbD (partner 8 (partner 16 i)) := by
  have h16 : ∀ i < 32, partner 16 i < 32 := by decide
  unfold fusionBswap32
  dsimp only
  rw [getLsbD_swapHalves (k := 16) _ rfl hi,
    show 0x00ff00ff#32 = ~~~0xff00ff00#32 from by decide,
    getLsbD_swap (k := 8) (by decide) _ (h16 i hi)]

theorem fusionBswap64_fusionBswap64 (x : BitVec 64) : fusionBswap64 (fusionBswap64 x) = x :=
  involutive_of_getLsbD fusionBswap64_getLsbD (by decide) (by decide) x

theorem fusionBswap32_fusionBswap32 (x : BitVec 32) : fusionBswap32 (fusionBswap32 x) = x :=
  involutive_of_getLsbD fusionBswap32_getLsbD (by decide) (by decide) x

theorem fusionBswap16_fusionBswap16 (x : BitVec 16) : fusionBswap16 (fusionBswap16 x) = x :=
  involutive_of_getLsbD (g := partner 8) (fun x _ hi ↦ getLsbD_swapHalves x rfl hi) (by decide)
    (by decide) x

theorem fusionBswap64_bytes (x : BitVec 64) : BytesReversed 8 x (fusionBswap64 x) :=
  bytesReversed_of_getLsbD (n := 8) rfl fusionBswap64_getLsbD (by decide) x

theorem fusionBswap32_bytes (x : BitVec 32) : BytesReversed 4 x (fusionBswap32 x) :=
  bytesReversed_of_getLsbD (n := 4) rfl fusionBswap32_getLsbD (by decide) x

theorem fusionBswap16_bytes (x : BitVec 16) : BytesReversed 2 x (fusionBswap16 x) :=
  bytesReversed_of_getLsbD (n := 2) (g := partner 8) rfl
    (fun x _ hi ↦ getLsbD_swapHalves x rfl hi) (by decide) x

/-- The swap of 16 bits in the `int` that both operands are promoted to. -/
theorem fusionBswap16_promoted (x : BitVec 16) :
    fusionBswap16 x = (x.setWidth 32 <<< 8 ||| x.setWidth 32 >>> 8).setWidth 16 := by
  unfold fusionBswap16
  apply BitVec.eq_of_getLsbD_eq
  intro i hi
  simp only [BitVec.getLsbD_or, BitVec.getLsbD_shiftLeft, BitVec.getLsbD_ushiftRight,
    BitVec.getLsbD_setWidth]
  by_cases hlow : i < 8
  · simp [hlow, hi, show 8 + i < 32 by omega]
  · simp [hlow, hi, show i < 32 by omega, show 8 + i < 32 by omega, show i - 8 < 32 by omega]

/-- Each half of a swapped word is the other half, swapped. -/
theorem fusionBswap64_halves (x : BitVec 64) : fusionBswap64 x =
    fusionBswap32 (x.setWidth 32) ++ fusionBswap32 ((x >>> 32).setWidth 32) := by
  have hlow : ∀ i < 32, partner 8 (partner 16 (partner 32 i)) = 32 + partner 8 (partner 16 i) ∧
      partner 8 (partner 16 i) < 32 := by decide
  have hhigh : ∀ i < 32, partner 8 (partner 16 (partner 32 (32 + i))) =
      partner 8 (partner 16 i) := by decide
  apply BitVec.eq_of_getLsbD_eq
  intro i hi
  rw [fusionBswap64_getLsbD x i hi, BitVec.getLsbD_append]
  by_cases hhalf : i < 32
  · have ⟨hplace, hin⟩ := hlow i hhalf
    rw [if_pos hhalf, fusionBswap32_getLsbD _ i hhalf, BitVec.getLsbD_setWidth,
      BitVec.getLsbD_ushiftRight, decide_eq_true hin, Bool.true_and, hplace]
  · obtain ⟨j, rfl⟩ := Nat.exists_eq_add_of_le (not_lt.mp hhalf)
    have hj : j < 32 := by omega
    rw [if_neg hhalf, Nat.add_sub_cancel_left, fusionBswap32_getLsbD _ j hj,
      BitVec.getLsbD_setWidth, decide_eq_true (hlow j hj).2, Bool.true_and, hhigh j hj]

variable {o : FusionByteOrder} {ww : WordWidth}

theorem hostToFusionCard_eq (o : FusionByteOrder) (x : BitVec ww.bits) :
    hostToFusionCard o x = fusionCardToHost o x := by
  cases o <;> cases ww <;> rfl

theorem fusionCardToHost_fusionCardToHost (o : FusionByteOrder) (x : BitVec ww.bits) :
    fusionCardToHost o (fusionCardToHost o x) = x := by
  cases o
  · cases ww <;> rfl
  · cases ww
    · exact fusionBswap16_fusionBswap16 x
    · exact fusionBswap32_fusionBswap32 x
    · exact fusionBswap64_fusionBswap64 x

theorem hostToFusionCard_fusionCardToHost (o : FusionByteOrder) (x : BitVec ww.bits) :
    hostToFusionCard o (fusionCardToHost o x) = x := by
  rw [hostToFusionCard_eq, fusionCardToHost_fusionCardToHost]

theorem fusionCardToHost_hostToFusionCard (o : FusionByteOrder) (x : BitVec ww.bits) :
    fusionCardToHost o (hostToFusionCard o x) = x := by
  rw [hostToFusionCard_eq, fusionCardToHost_fusionCardToHost]

/-- The swaps reverse the bytes of a word and undo themselves, the swap of 64 bits is made of two
swaps of 32, and in either order of the host what goes to the card and what comes from it
determine each other. -/
theorem byteswaps_reverse :
    (∀ x : BitVec 64, BytesReversed 8 x (fusionBswap64 x) ∧ fusionBswap64 (fusionBswap64 x) = x ∧
      fusionBswap64 x =
        fusionBswap32 (x.setWidth 32) ++ fusionBswap32 ((x >>> 32).setWidth 32)) ∧
    (∀ x : BitVec 32, BytesReversed 4 x (fusionBswap32 x) ∧
      fusionBswap32 (fusionBswap32 x) = x) ∧
    (∀ x : BitVec 16, BytesReversed 2 x (fusionBswap16 x) ∧
      fusionBswap16 (fusionBswap16 x) = x) ∧
    ∀ (o : FusionByteOrder) (ww : WordWidth),
      Function.Bijective (fusionCardToHost o : BitVec ww.bits → BitVec ww.bits) ∧
        Function.Bijective (hostToFusionCard o : BitVec ww.bits → BitVec ww.bits) ∧
        ∀ x : BitVec ww.bits, hostToFusionCard o (fusionCardToHost o x) = x ∧
          fusionCardToHost o (hostToFusionCard o x) = x := by
  refine ⟨fun x ↦ ?_, fun x ↦ ?_, fun x ↦ ?_, fun o ww ↦ ?_⟩
  · exact ⟨fusionBswap64_bytes x, fusionBswap64_fusionBswap64 x, fusionBswap64_halves x⟩
  · exact ⟨fusionBswap32_bytes x, fusionBswap32_fusionBswap32 x⟩
  · exact ⟨fusionBswap16_bytes x, fusionBswap16_fusionBswap16 x⟩
  · have hback := @hostToFusionCard_fusionCardToHost ww o
    have hforth := @fusionCardToHost_hostToFusionCard ww o
    exact ⟨Function.bijective_iff_has_inverse.mpr ⟨_, hback, hforth⟩,
      Function.bijective_iff_has_inverse.mpr ⟨_, hforth, hback⟩, fun x ↦ ⟨hback x, hforth x⟩⟩

/-! ## Parts of a word -/

/-- Bits of a field that the macros can be asked for. -/
structure MdBits (ww : WordWidth) where
  off : ℕ
  len : ℕ
  pos : 0 < len
  short : len < 64
  inside : off + len ≤ ww.bits

def MdBits.Disjoint (a b : MdBits ww) : Prop :=
  a.off + a.len ≤ b.off ∨ b.off + b.len ≤ a.off

instance (a b : MdBits ww) : Decidable (a.Disjoint b) :=
  inferInstanceAs (Decidable (_ ∨ _))

theorem bits_le (ww : WordWidth) : ww.bits ≤ 64 := by
  cases ww <;> decide

theorem mdGetter_getLsbD (field : BitVec ww.bits) (i : ℕ) :
    (mdGetter o field).getLsbD i = (fusionCardToHost o field).getLsbD i := by
  unfold mdGetter
  rw [BitVec.getLsbD_setWidth]
  by_cases hi : i < 64
  · rw [decide_eq_true hi, Bool.true_and]
  · rw [BitVec.getLsbD_of_ge _ i (le_trans (bits_le ww) (not_lt.mp hi)), Bool.and_false]

/-- What is set is found again in the order of the host, whichever way it is kept. -/
theorem mdSetterBf_getLsbD (field : BitVec ww.bits) {v : BitVec 64} (a : MdBits ww)
    (hv : v.toNat < 2 ^ a.len) (i : ℕ) (hi : i < ww.bits) :
    (fusionCardToHost o (mdSetterBf o field v a.off a.len)).getLsbD i =
      if a.off ≤ i ∧ i < a.off + a.len then v.getLsbD (i - a.off)
      else (fusionCardToHost o field).getLsbD i := by
  show (fusionCardToHost o (hostToFusionCard o
    ((write (mdGetter o field) v a.off a.len).setWidth ww.bits))).getLsbD i = _
  rw [fusionCardToHost_hostToFusionCard, BitVec.getLsbD_setWidth,
    decide_eq_true hi, Bool.true_and,
    getLsbD_write _ a.short hv a.off (Nat.lt_of_lt_of_le hi (bits_le ww)), mdGetter_getLsbD]

theorem mdGetterBf_getLsbD (field : BitVec ww.bits) (a : MdBits ww) (i : ℕ) :
    (mdGetterBf o id field a.off a.len).getLsbD i =
      (decide (i < a.len) && (fusionCardToHost o field).getLsbD (a.off + i)) := by
  show (read (mdGetter o field) a.off a.len).getLsbD i = _
  rw [getLsbD_read _ a.off a.short, mdGetter_getLsbD]

/-- Fields are equal when their bits are in the order of the host. -/
theorem field_ext {x y : BitVec ww.bits} (h : ∀ i < ww.bits,
    (fusionCardToHost o x).getLsbD i = (fusionCardToHost o y).getLsbD i) : x = y := by
  rw [← fusionCardToHost_fusionCardToHost o x, ← fusionCardToHost_fusionCardToHost o y]
  exact congrArg (fusionCardToHost o) (BitVec.eq_of_getLsbD_eq h)

theorem mdGetterBf_mdSetterBf (field : BitVec ww.bits) {v : BitVec 64} (a : MdBits ww)
    (hv : v.toNat < 2 ^ a.len) :
    mdGetterBf o id (mdSetterBf o field v a.off a.len) a.off a.len = v := by
  have hinside := a.inside
  apply BitVec.eq_of_getLsbD_eq
  intro i _
  rw [mdGetterBf_getLsbD]
  by_cases hlen : i < a.len
  · rw [mdSetterBf_getLsbD field a hv _ (by omega), if_pos (by omega), decide_eq_true hlen,
      Bool.true_and, Nat.add_sub_cancel_left]
  · rw [decide_eq_false hlen, Bool.false_and, getLsbD_of_lt_two_pow hv (not_lt.mp hlen)]

theorem mdGetterBf_mdSetterBf_of_disjoint (field : BitVec ww.bits) {v : BitVec 64} {a b : MdBits ww}
    (hv : v.toNat < 2 ^ a.len) (hab : a.Disjoint b) :
    mdGetterBf o id (mdSetterBf o field v a.off a.len) b.off b.len =
      mdGetterBf o id field b.off b.len := by
  have hinside := b.inside
  unfold MdBits.Disjoint at hab
  apply BitVec.eq_of_getLsbD_eq
  intro i _
  rw [mdGetterBf_getLsbD, mdGetterBf_getLsbD]
  by_cases hlen : i < b.len
  · rw [mdSetterBf_getLsbD field a hv _ (by omega), if_neg (by omega)]
  · rw [decide_eq_false hlen, Bool.false_and, Bool.false_and]

theorem mdSetterBf_comm (field : BitVec ww.bits) {v v' : BitVec 64} {a b : MdBits ww}
    (hv : v.toNat < 2 ^ a.len) (hv' : v'.toNat < 2 ^ b.len) (hab : a.Disjoint b) :
    mdSetterBf o (mdSetterBf o field v a.off a.len) v' b.off b.len =
      mdSetterBf o (mdSetterBf o field v' b.off b.len) v a.off a.len := by
  unfold MdBits.Disjoint at hab
  apply field_ext (o := o)
  intro i hi
  rw [mdSetterBf_getLsbD _ b hv' i hi, mdSetterBf_getLsbD _ a hv i hi,
    mdSetterBf_getLsbD _ a hv i hi, mdSetterBf_getLsbD _ b hv' i hi]
  split_ifs
  · omega
  · rfl
  · rfl
  · rfl

theorem mdSetterBf_mdSetterBf (field : BitVec ww.bits) {v v' : BitVec 64} (a : MdBits ww)
    (hv : v.toNat < 2 ^ a.len) (hv' : v'.toNat < 2 ^ a.len) :
    mdSetterBf o (mdSetterBf o field v a.off a.len) v' a.off a.len =
      mdSetterBf o field v' a.off a.len := by
  apply field_ext (o := o)
  intro i hi
  rw [mdSetterBf_getLsbD _ a hv' i hi, mdSetterBf_getLsbD _ a hv i hi,
    mdSetterBf_getLsbD _ a hv' i hi]
  split_ifs <;> rfl

/-- A value of no more bits than its field is read back as it was set, disjoint fields are read
before and after alike and can be set in either order, and the last of two values stays. -/
theorem md_bits_independent {τ : Type} (t : BitVec 64 → τ) (o : FusionByteOrder)
    (field : BitVec ww.bits) (a : MdBits ww) {bits : ℕ} (hbits : bits ≤ a.len) {v : BitVec 64}
    (hv : v.toNat < 2 ^ bits) :
    mdGetterBf o t (mdSetterBf o field v a.off a.len) a.off a.len = t v ∧
      (∀ b : MdBits ww, a.Disjoint b →
        mdGetterBf o t (mdSetterBf o field v a.off a.len) b.off b.len =
          mdGetterBf o t field b.off b.len) ∧
      (∀ b : MdBits ww, a.Disjoint b → ∀ bits' ≤ b.len, ∀ v' : BitVec 64, v'.toNat < 2 ^ bits' →
        mdSetterBf o (mdSetterBf o field v a.off a.len) v' b.off b.len =
          mdSetterBf o (mdSetterBf o field v' b.off b.len) v a.off a.len) ∧
      ∀ bits' ≤ a.len, ∀ u : BitVec 64, u.toNat < 2 ^ bits' →
        mdSetterBf o (mdSetterBf o field u a.off a.len) v a.off a.len =
          mdSetterBf o field v a.off a.len := by
  have hfit : ∀ {n len : ℕ} {x : BitVec 64}, n ≤ len → x.toNat < 2 ^ n → x.toNat < 2 ^ len :=
    fun hle hx ↦ Nat.lt_of_lt_of_le hx (Nat.pow_le_pow_right (by decide) hle)
  have hva := hfit hbits hv
  refine ⟨congrArg t (mdGetterBf_mdSetterBf field a hva), ?_, ?_, ?_⟩
  · intro b hab
    exact congrArg t (mdGetterBf_mdSetterBf_of_disjoint field hva hab)
  · intro b hab bits' hbits' v' hv'
    exact mdSetterBf_comm field hva (hfit hbits' hv') hab
  · intro bits' hbits' u hu
    exact mdSetterBf_mdSetterBf field a (hfit hbits' hu) hva

/-- Five bits in the middle of 16, on a host of the other order. -/
def middleBits : MdBits .w16 := ⟨6, 5, by decide, by decide, by decide⟩

def middleWord : BitVec WordWidth.w16.bits := 0xffff#16

theorem md_bits_independent_middle :
    mdGetterBf .bigEndian BitVec.toNat (mdSetterBf .bigEndian middleWord 19#64 6 5) 6 5 = 19 :=
  (md_bits_independent BitVec.toNat .bigEndian middleWord middleBits
    (show 5 ≤ middleBits.len from le_refl 5) (show (19#64).toNat < 2 ^ 5 by decide)).1

end IomemoryVsl.Port
