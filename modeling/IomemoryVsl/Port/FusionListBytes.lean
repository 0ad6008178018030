import Mathlib.Data.Set.Basic
import IomemoryVsl.Lib.ByteMemory
import IomemoryVsl.Port.FusionList

/-!
# List entries in memory

`struct fusion_list_entry` is two pointers of eight bytes, and an object of a cache holds them at
its start.  The list functions that the caches use are given here on bytes; as long as the entries
lie apart they do what the functions on a heap of entries do, and write nothing else.
-/

namespace IomemoryVsl.Port.Bytewise

open LinkedRing ByteMemory

/-- `sizeof(struct fusion_list_entry)`. -/
def entrySize : Nat := 16

/-- The entry that the memory shows at `e`, `next` before `prev`. -/
def entryAt (m : Bytes) (e : Addr) : FusionListEntry := ⟨loadLE m e 8, loadLE m (e + 8) 8⟩

def storeNext (m : Bytes) (e v : Addr) : Bytes := storeLE m e 8 v

def storePrev (m : Bytes) (e v : Addr) : Bytes := storeLE m (e + 8) 8 v

/-! ## The functions -/

def fusionInitList (m : Bytes) (e : Addr) : Bytes :=
  let m := storeNext m e e
  storePrev m e e

def fusionListAdd (m : Bytes) (e p n : Addr) : Bytes :=
  let m := storePrev m n e
  let m := storeNext m e n
  let m := storePrev m e p
  storeNext m p e

def fusionListAddHead (m : Bytes) (e l : Addr) : Bytes :=
  fusionListAdd m e l (entryAt m l).next

/-- `__fusion_list_del` -/
def fusionListDelRaw (m : Bytes) (e : Addr) : Bytes :=
  if (entryAt m e).next ≠ NULL ∧ (entryAt m e).prev ≠ NULL then
    let m := storePrev m (entryAt m e).next (entryAt m e).prev
    storeNext m (entryAt m e).prev (entryAt m e).next
  else m

def fusionListDel (m : Bytes) (e : Addr) : Bytes :=
  fusionInitList (fusionListDelRaw m e) e

def fusionListEmpty (m : Bytes) (e : Addr) : Bool :=
  (entryAt m e).next == e

def fusionListAddList (m : Bytes) (src dst : Addr) : Bytes :=
  if (entryAt m src).next = src then m
  else
    let newHead := (entryAt m src).next
    let oldHead := (entryAt m dst).next
    let m := storePrev m oldHead (entryAt m src).prev
    let m := storeNext m (entryAt m src).prev oldHead
    let m := storePrev m newHead dst
    let m := storeNext m dst newHead
    -- src->next = src->prev = src
    let m := storePrev m src src
    storeNext m src src

def fusionListPopHead (m : Bytes) (list : Addr) : Bytes × Addr :=
  if ¬ fusionListEmpty m list then
    let retval := (entryAt m list).next
    (fusionListDel m retval, retval)
  else (m, NULL)

/-! ## Entries that lie apart -/

/-- No two entries at `S` share a byte, and a pointer can hold the address of each. -/
structure Apart (S : Set Nat) : Prop where
  apart : ∀ p ∈ S, ∀ q ∈ S, p ≠ q → p + entrySize ≤ q ∨ q + entrySize ≤ p
  below : ∀ p ∈ S, p < 2 ^ 64

/-- At `S` the memory shows the entries of `h`, and since `m₀` only entries at `T` were written. -/
structure Shows (S T : Set Nat) (m₀ m : Bytes) (h : Heap) : Prop where
  entry : ∀ p ∈ S, entryAt m p = h p
  within : ∀ x, (∀ p ∈ T, x < p ∨ p + entrySize ≤ x) → m x = m₀ x

theorem Shows.refl (S T : Set Nat) (m : Bytes) : Shows S T m m (entryAt m) :=
  ⟨fun _ _ ↦ rfl, fun _ _ ↦ rfl⟩

variable {S T : Set Nat} {m₀ m : Bytes} {h : Heap} {a v e p n l : Nat}

theorem entryAt_storeNext_self (hv : v < 2 ^ 64) :
    entryAt (storeNext m a v) a = ⟨v, (entryAt m a).prev⟩ := by
  have hnext : loadLE (storeLE m a 8 v) a 8 = v := by
    rw [loadLE_storeLE]
    exact Nat.mod_eq_of_lt hv
  have hprev : loadLE (storeLE m a 8 v) (a + 8) 8 = loadLE m (a + 8) 8 :=
    loadLE_storeLE_of_disjoint (Or.inr (Nat.le_refl _))
  unfold entryAt Bytewise.storeNext
  rw [hnext, hprev]

theorem entryAt_storePrev_self (hv : v < 2 ^ 64) :
    entryAt (storePrev m a v) a = ⟨(entryAt m a).next, v⟩ := by
  have hnext : loadLE (storeLE m (a + 8) 8 v) a 8 = loadLE m a 8 :=
    loadLE_storeLE_of_disjoint (Or.inl (Nat.le_refl _))
  have hprev : loadLE (storeLE m (a + 8) 8 v) (a + 8) 8 = v := by
    rw [loadLE_storeLE]
    exact Nat.mod_eq_of_lt hv
  unfold entryAt Bytewise.storePrev
  rw [hnext, hprev]

/-- An entry none of whose bytes have changed. -/
theorem entryAt_congr {m m' : Bytes} {p : Nat}
    (heq : ∀ x, p ≤ x → x < p + entrySize → m' x = m x) : entryAt m' p = entryAt m p := by
  have hnext : loadLE m' p 8 = loadLE m p 8 :=
    loadLE_congr fun i hi ↦ heq _ (Nat.le_add_right p i) (by unfold entrySize; omega)
  have hprev : loadLE m' (p + 8) 8 = loadLE m (p + 8) 8 :=
    loadLE_congr fun i hi ↦ heq _ (by omega) (by unfold entrySize; omega)
  unfold entryAt
  rw [hnext, hprev]

theorem entryAt_zeros {m : Bytes} {p : Nat} (hzero : ∀ x, p ≤ x → x < p + entrySize → m x = 0) :
    entryAt m p = ⟨NULL, NULL⟩ := by
  have hload : ∀ a, p ≤ a → a + 8 ≤ p + entrySize → loadLE m a 8 = 0 := by
    intro a hlo hhi
    have hdigits : ∀ i < 8, m (a + i) = UInt8.ofNat (0 / 256 ^ i) := by
      intro i hi
      rw [Nat.zero_div]
      exact hzero _ (by omega) (by omega)
    exact loadLE_digits hdigits
  unfold entryAt
  rw [hload p (Nat.le_refl p) (by unfold entrySize; omega),
    hload (p + 8) (by omega) (by unfold entrySize; omega)]
  rfl

theorem entryAt_storeNext_of_apart (hap : p + entrySize ≤ a ∨ a + entrySize ≤ p) :
    entryAt (storeNext m a v) p = entryAt m p := by
  apply entryAt_congr
  intro x hlo hhi
  apply storeLE_outside
  unfold entrySize at hap hhi
  omega

theorem entryAt_storePrev_of_apart (hap : p + entrySize ≤ a ∨ a + entrySize ≤ p) :
    entryAt (storePrev m a v) p = entryAt m p := by
  apply entryAt_congr
  intro x hlo hhi
  apply storeLE_outside
  unfold entrySize at hap hhi
  omega

theorem Shows.storeNext (hs : Shows S T m₀ m h) (hS : Apart S) (hT : T ⊆ S) (ha : a ∈ T)
    (hv : v ∈ T) : Shows S T m₀ (storeNext m a v) (setNext h a v) where
  entry := by
    intro p hp
    by_cases hpa : p = a
    · subst hpa
      rw [entryAt_storeNext_self (hS.below v (hT hv)), hs.entry p hp]
      apply Node.ext
      · simp
      · simp
    · rw [entryAt_storeNext_of_apart (hS.apart p hp a (hT ha) hpa), hs.entry p hp]
      apply Node.ext
      · simp [hpa]
      · simp
  within := by
    intro x hx
    rw [← hs.within x hx]
    apply storeLE_outside
    have hout := hx a ha
    unfold entrySize at hout
    omega

theorem Shows.storePrev (hs : Shows S T m₀ m h) (hS : Apart S) (hT : T ⊆ S) (ha : a ∈ T)
    (hv : v ∈ T) : Shows S T m₀ (storePrev m a v) (setPrev h a v) where
  entry := by
    intro p hp
    by_cases hpa : p = a
    · subst hpa
      rw [entryAt_storePrev_self (hS.below v (hT hv)), hs.entry p hp]
      apply Node.ext
      · simp
      · simp
    · rw [entryAt_storePrev_of_apart (hS.apart p hp a (hT ha) hpa), hs.entry p hp]
      apply Node.ext
      · simp
      · simp [hpa]
  within := by
    intro x hx
    rw [← hs.within x hx]
    apply storeLE_outside
    have hout := hx a ha
    unfold entrySize at hout
    omega

/-! ## The functions on entries that lie apart -/

theorem Shows.initList (hs : Shows S T m₀ m h) (hS : Apart S) (hT : T ⊆ S) (he : e ∈ T) :
    Shows S T m₀ (fusionInitList m e) (Port.fusionInitList h e) :=
  (hs.storeNext hS hT he he).storePrev hS hT he he

theorem Shows.add (hs : Shows S T m₀ m h) (hS : Apart S) (hT : T ⊆ S) (he : e ∈ T) (hp : p ∈ T)
    (hn : n ∈ T) : Shows S T m₀ (fusionListAdd m e p n) (Port.fusionListAdd h e p n) := by
  have h1 := hs.storePrev hS hT hn he
  have h2 := h1.storeNext hS hT he hn
  have h3 := h2.storePrev hS hT he hp
  exact h3.storeNext hS hT hp he

theorem Shows.addHead (hs : Shows S T m₀ m h) (hS : Apart S) (hT : T ⊆ S) (he : e ∈ T)
    (hl : l ∈ T) (hn : (h l).next ∈ T) :
    Shows S T m₀ (fusionListAddHead m e l) (Port.fusionListAddHead h e l) := by
  have hread : entryAt m l = h l := hs.entry l (hT hl)
  unfold fusionListAddHead Port.fusionListAddHead
  rw [hread]
  exact hs.add hS hT he hl hn

theorem Shows.delRaw (hs : Shows S T m₀ m h) (hS : Apart S) (hT : T ⊆ S) (he : e ∈ T)
    (hn : (h e).next ∈ T) (hp : (h e).prev ∈ T) :
    Shows S T m₀ (fusionListDelRaw m e) (Port.fusionListDelRaw h e) := by
  have hread : entryAt m e = h e := hs.entry e (hT he)
  have h1 := hs.storePrev hS hT hn hp
  have hread1 : entryAt (Bytewise.storePrev m (h e).next (h e).prev) e =
      setPrev h (h e).next (h e).prev e := h1.entry e (hT he)
  have hkeep : (setPrev h (h e).next (h e).prev e).prev = (h e).prev := by
    rw [setPrev_prev]
    split_ifs <;> rfl
  unfold fusionListDelRaw Port.fusionListDelRaw
  rw [hread]
  split_ifs
  · dsimp only
    rw [hread1, hkeep, setPrev_next]
    exact h1.storeNext hS hT hp hn
  · exact hs

theorem Shows.del (hs : Shows S T m₀ m h) (hS : Apart S) (hT : T ⊆ S) (he : e ∈ T)
    (hn : (h e).next ∈ T) (hp : (h e).prev ∈ T) :
    Shows S T m₀ (fusionListDel m e) (Port.fusionListDel h e) :=
  (hs.delRaw hS hT he hn hp).initList hS hT he

theorem Shows.empty (hs : Shows S T m₀ m h) (hl : l ∈ S) :
    fusionListEmpty m l = Port.fusionListEmpty h l := by
  unfold fusionListEmpty Port.fusionListEmpty
  rw [hs.entry l hl]

theorem Shows.popHead (hs : Shows S T m₀ m h) (hS : Apart S) (hT : T ⊆ S) (hl : l ∈ T)
    (hx : (h l).next ∈ T) (hn : (h (h l).next).next ∈ T) (hp : (h (h l).next).prev ∈ T) :
    Shows S T m₀ (fusionListPopHead m l).1 (Port.fusionListPopHead h l).1 ∧
      (fusionListPopHead m l).2 = (Port.fusionListPopHead h l).2 := by
  unfold fusionListPopHead Port.fusionListPopHead
  rw [hs.empty (hT hl), hs.entry l (hT hl)]
  split_ifs
  · exact ⟨hs, rfl⟩
  · exact ⟨hs.del hS hT hx hn hp, rfl⟩

theorem Shows.addList {src dst : Nat} (hs : Shows S T m₀ m h) (hS : Apart S) (hT : T ⊆ S)
    (hsrc : src ∈ T) (hdst : dst ∈ T) (hsn : (h src).next ∈ T) (hsp : (h src).prev ∈ T)
    (hdn : (h dst).next ∈ T) :
    Shows S T m₀ (fusionListAddList m src dst) (Port.fusionListAddList h src dst) := by
  have h1 := hs.storePrev hS hT hdn hsp
  have hread1 : entryAt (Bytewise.storePrev m (h dst).next (h src).prev) src =
      setPrev h (h dst).next (h src).prev src := h1.entry src (hT hsrc)
  have hkeep : (setPrev h (h dst).next (h src).prev src).prev = (h src).prev := by
    rw [setPrev_prev]
    split_ifs <;> rfl
  unfold fusionListAddList Port.fusionListAddList
  rw [hs.entry src (hT hsrc), hs.entry dst (hT hdst)]
  split_ifs
  · exact hs
  · dsimp only
    rw [hread1, hkeep]
    have h2 := h1.storeNext hS hT hsp hdn
    have h3 := h2.storePrev hS hT hsn hdst
    have h4 := h3.storeNext hS hT hdst hsn
    have h5 := h4.storePrev hS hT hsrc hsrc
    exact h5.storeNext hS hT hsrc hsrc

-- from here on the functions are known by the lemmas above
attribute [irreducible] fusionInitList fusionListAddHead fusionListAddList fusionListPopHead

end IomemoryVsl.Port.Bytewise
