import Mathlib.Data.Nat.Bitwise
import IomemoryVsl.Kblock.Dequeue

/-!
# The size of the bounce buffer (`kblock.c`)

The expression `(bio_bcount + 7) & ~8` clears one bit of the count instead of rounding it up to a
multiple of eight.  What the transfers of a request need of the buffer is compared with it.
-/

namespace IomemoryVsl.Kblock

open Kscatter (ENOMEM)

/-- The bytes that a call moves to or from the block at `p` are among its first `size` ones. -/
def KblockCall.Inside (p size : UInt64) : KblockCall → Prop
  | .memcpy dst src len => dst = p ∨ src = p → len ≤ size
  | .sglMapBytes _ buffer len => buffer = p → len.toUInt64 ≤ size
  | _ => True

/-- The bounce buffer of a request is large enough for its bytes: for those that are copied in, for
those that the device is given, and for as many of them as are copied out. -/
structure BounceHolds (b : BioId) (bp : Bio) : Prop where
  size : bp.bioBcount.toInt ≤ (bounceSize bp).toNat
  allocated : ∀ data, .vmalloc (bounceSize bp) data ∈ (dequeueBounce bp data).2
  dequeue : ∀ env, ∀ c ∈ (dequeueBody b bp env).2.1, c.Inside env.vmalloc (bounceSize bp)
  device : ∀ env fbio, (dequeueBody b bp env).2.2 = .handedOut fbio → fbio.fbioSize ≤ bounceSize bp
  completor : ∀ data fbio bytesDone error, bytesDone ≤ bp.bioBcount.toUInt64 →
    ∀ c ∈ (freebsdBioCompletor fbio (dequeueBounce bp data).1 bytesDone error).2.1,
      c.Inside data (bounceSize bp)

/-! ## The expression -/

/-- Clearing the bit of 8 subtracts 8 where it is set. -/
theorem and_not_eight_toNat (x : BitVec 64) :
    (x &&& ~~~8#64).toNat + 8 * (x.toNat / 8 % 2) = x.toNat := by
  -- the number is the sum of the bit and of the others, which share no bit with it
  have hor : (x &&& ~~~8#64) ||| (x &&& 8#64) = x := by
    rw [← BitVec.and_or_distrib_left, BitVec.or_comm, BitVec.or_not_self, BitVec.and_allOnes]
  have hand : (x &&& ~~~8#64) &&& (x &&& 8#64) = 0#64 := by
    have hmask : ~~~8#64 &&& 8#64 = 0#64 := by decide
    calc (x &&& ~~~8#64) &&& (x &&& 8#64) = (x &&& x) &&& (~~~8#64 &&& 8#64) := by ac_rfl
      _ = 0#64 := by rw [hmask, BitVec.and_zero]
  have hbit : (x &&& 8#64).toNat = 8 * (x.toNat / 8 % 2) := by
    rw [BitVec.toNat_and, show (8#64).toNat = 2 ^ 3 from rfl, Nat.and_two_pow,
      Nat.testBit_eq_decide_div_mod_eq, show 2 ^ 3 = 8 from rfl]
    rcases Nat.mod_two_eq_zero_or_one (x.toNat / 8) with h | h <;> simp [h]
  calc (x &&& ~~~8#64).toNat + 8 * (x.toNat / 8 % 2)
      = (x &&& ~~~8#64).toNat + (x &&& 8#64).toNat := by rw [hbit]
    _ = ((x &&& ~~~8#64) + (x &&& 8#64)).toNat := (BitVec.toNat_add_of_and_eq_zero hand).symm
    _ = x.toNat := by rw [BitVec.add_eq_or_of_and_eq_zero _ _ hand, hor]

/-- A positive count as the unsigned number that the copies are given. -/
theorem toNat_bioBcount {bp : Bio} (hpos : 0 < bp.bioBcount) :
    (bp.bioBcount.toUInt64.toNat : ℤ) = bp.bioBcount.toInt := by
  have hle : 0 ≤ bp.bioBcount := Int64.le_of_lt hpos
  have hnonneg : 0 ≤ bp.bioBcount.toInt := Int64.le_iff_toInt_le.mp hle
  rw [Int64.toNat_toUInt64_of_le hle]
  exact Int.toNat_of_nonneg hnonneg

theorem bounceSize_toNat {bp : Bio} (hpos : 0 < bp.bioBcount) :
    (bounceSize bp).toNat + 8 * ((bp.bioBcount.toUInt64.toNat + 7) / 8 % 2) =
      bp.bioBcount.toUInt64.toNat + 7 := by
  have hlt : bp.bioBcount.toInt < 2 ^ 63 := bp.bioBcount.toInt_lt
  have hcount := toNat_bioBcount hpos
  have hsum : (bp.bioBcount.toUInt64.toBitVec + 7#64).toNat = bp.bioBcount.toUInt64.toNat + 7 := by
    rw [BitVec.toNat_add]
    show (bp.bioBcount.toUInt64.toNat + 7) % 2 ^ 64 = _
    omega
  rw [← hsum]
  exact and_not_eight_toNat _

/-- The counts from 1 to 8 above a multiple of 16 are rounded down. -/
theorem le_bounceSize_iff {bp : Bio} (hpos : 0 < bp.bioBcount) :
    bp.bioBcount.toUInt64 ≤ bounceSize bp ↔
      ¬ (1 ≤ bp.bioBcount.toInt % 16 ∧ bp.bioBcount.toInt % 16 ≤ 8) := by
  have hsize := bounceSize_toNat hpos
  have hcount := toNat_bioBcount hpos
  rw [UInt64.le_iff_toNat_le]
  omega

/-! ## The transfers -/

variable {p size : UInt64} {bp : Bio} {calls : List KblockCall}

theorem inside_append {calls' : List KblockCall} (h : ∀ c ∈ calls, c.Inside p size)
    (h' : ∀ c ∈ calls', c.Inside p size) : ∀ c ∈ calls ++ calls', c.Inside p size := by
  intro c hc
  rcases List.mem_append.mp hc with hc | hc
  · exact h c hc
  · exact h' c hc

theorem dequeueErrorExit_calls (f : Option FbioId) (error : Int32) :
    (dequeueErrorExit bp f error calls).2.1 = calls ++
      ((if bp.bioDriver1 ≠ bp.bioData then [.vfree bp.bioData (bounceSize bp)] else []) ++
        f.toList.map .bioFree) := by
  unfold dequeueErrorExit
  cases f <;> by_cases hne : bp.bioDriver1 ≠ bp.bioData <;> by_cases herr : error ≠ ENOMEM <;>
    simp [hne, herr]

theorem dequeueErrorExit_inside (f : Option FbioId) (error : Int32)
    (h : ∀ c ∈ calls, c.Inside p size) :
    ∀ c ∈ (dequeueErrorExit bp f error calls).2.1, c.Inside p size := by
  rw [dequeueErrorExit_calls]
  refine inside_append h (inside_append ?_ ?_)
  · split <;> simp [KblockCall.Inside]
  · cases f <;> simp [KblockCall.Inside]

/-- The mapping steps are given the bytes of the request and no more. -/
theorem dequeueMap_inside (fbio : Fbio) (env : DequeueEnv) (dir : Int32)
    (hle : bp.bioBcount.toUInt64 ≤ size) (h : ∀ c ∈ calls, c.Inside p size) :
    ∀ c ∈ (dequeueMap bp fbio env dir calls).2.1, c.Inside p size := by
  have hlen : bp.bioBcount.toUInt64.toUInt32.toUInt64 ≤ size := by
    rw [UInt64.le_iff_toNat_le] at hle ⊢
    rw [UInt32.toNat_toUInt64, UInt64.toNat_toUInt32]
    exact (Nat.mod_le _ _).trans hle
  have hbytes := inside_append h (List.forall_mem_singleton.mpr
    (show (KblockCall.sglMapBytes fbio.id bp.bioData bp.bioBcount.toUInt64.toUInt32).Inside p size
      from fun _ ↦ hlen))
  have hdma := inside_append hbytes (List.forall_mem_singleton.mpr
    (show (KblockCall.sglDmaMap fbio.id dir).Inside p size from trivial))
  unfold dequeueMap
  dsimp only
  by_cases hmap : env.mapBytes = 0
  · rw [if_pos hmap]
    by_cases hload : env.dmaMap > 0
    · rw [if_pos hload]
      exact hdma
    · rw [if_neg hload]
      exact dequeueErrorExit_inside _ _ hdma
  · rw [if_neg hmap]
    exact dequeueErrorExit_inside _ _ hbytes

theorem dequeueBounce_inside (hle : bp.bioBcount.toUInt64 ≤ size) (data : UInt64) :
    ∀ c ∈ (dequeueBounce bp data).2, c.Inside p size := by
  unfold dequeueBounce
  by_cases halign : bp.bioData &&& 7 ≠ 0 <;> by_cases hw : bp.bioCmd = .write <;>
    simp [halign, hw, KblockCall.Inside, hle]

theorem dequeueBody_inside (b : BioId) (env : DequeueEnv) (hle : bp.bioBcount.toUInt64 ≤ size) :
    ∀ c ∈ (dequeueBody b bp env).2.1, c.Inside p size := by
  have hbounce : ∀ c ∈ (dequeueBounce bp env.vmalloc).2, c.Inside p size :=
    dequeueBounce_inside hle env.vmalloc
  have hcount : (dequeueBounce bp env.vmalloc).1.bioBcount.toUInt64 ≤ size := by
    rw [dequeueBounce_bioBcount]
    exact hle
  unfold dequeueBody
  dsimp only
  cases env.bioAlloc with
  | none => exact dequeueErrorExit_inside _ _ hbounce
  | some id =>
      dsimp only
      split
      · exact hbounce
      · exact dequeueMap_inside _ _ _ hcount hbounce
      · exact dequeueMap_inside _ _ _ hcount hbounce
      · exact dequeueErrorExit_inside _ _ hbounce

theorem dequeueBody_fbioSize {b : BioId} {env : DequeueEnv} {fbio : Fbio}
    (h : (dequeueBody b bp env).2.2 = .handedOut fbio) : fbio.fbioSize = bp.bioBcount.toUInt64 := by
  unfold dequeueBody at h
  dsimp only at h
  rw [dequeueBounce_bioBcount] at h
  cases halloc : env.bioAlloc with
  | none =>
      rw [halloc] at h
      exact absurd h (dequeueErrorExit_ne_handedOut _ _ _ _ _)
  | some id =>
      rw [halloc] at h
      dsimp only at h
      split at h
      · rw [DequeueExit.handedOut.injEq] at h
        rw [← h]
      · rw [dequeueMap_handedOut h]
      · rw [dequeueMap_handedOut h]
      · exact absurd h (dequeueErrorExit_ne_handedOut _ _ _ _ _)

theorem freebsdBioCompletor_inside (fbio : Fbio) {bytesDone : UInt64} (error : Int32)
    (hle : bytesDone ≤ size) :
    ∀ c ∈ (freebsdBioCompletor fbio bp bytesDone error).2.1, c.Inside p size := by
  unfold freebsdBioCompletor
  by_cases hcmd : fbio.fbioCmd = .read ∨ fbio.fbioCmd = .write <;>
    by_cases hne : bp.bioDriver1 ≠ bp.bioData <;> by_cases hr : bp.bioCmd = .read <;>
      simp [hcmd, hne, hr, KblockCall.Inside, hle]

/-- The buffer is large enough for every transfer of an unaligned request, whatever the allocator
and the mapping steps answer, exactly if its count is not from 1 to 8 above a multiple of 16. -/
theorem bounceHolds_iff (b : BioId) (hunaligned : bp.bioData &&& 7 ≠ 0) (hpos : 0 < bp.bioBcount) :
    BounceHolds b bp ↔ ¬ (1 ≤ bp.bioBcount.toInt % 16 ∧ bp.bioBcount.toInt % 16 ≤ 8) := by
  have hcount := toNat_bioBcount hpos
  rw [← le_bounceSize_iff hpos]
  constructor
  · intro h
    have hsize := h.size
    rw [UInt64.le_iff_toNat_le]
    omega
  · intro hle
    have hnat := UInt64.le_iff_toNat_le.mp hle
    refine ⟨by omega, fun data ↦ ?_, fun env ↦ dequeueBody_inside b env hle, fun env fbio h ↦ ?_,
      fun data fbio bytesDone error hdone ↦
        freebsdBioCompletor_inside fbio error (UInt64.le_trans hdone hle)⟩
    · unfold dequeueBounce
      by_cases hw : bp.bioCmd = .write <;> simp [hunaligned, hw, bounceSize]
    · rw [dequeueBody_fbioSize h]
      exact hle

/-- A sector from an odd address. -/
def unalignedSector : Bio := ⟨.write, 0x1001, 512, 0, 0, 0⟩

theorem bounceHolds_unalignedSector : BounceHolds 0 unalignedSector :=
  (bounceHolds_iff 0 (by decide) (by decide)).mpr (by decide)

/-- A sector of 520 bytes gets a buffer of 519. -/
theorem not_bounceHolds_longSector : ¬ BounceHolds 0 ⟨.write, 0x1001, 520, 0, 0, 0⟩ :=
  fun h ↦ absurd h.size (by decide)

end IomemoryVsl.Kblock
