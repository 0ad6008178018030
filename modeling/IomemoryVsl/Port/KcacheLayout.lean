import IomemoryVsl.Kscatter.Sgl
import IomemoryVsl.Port.FusionListBytes
import IomemoryVsl.Port.KcacheInvariant

/-!
# Where the objects of a cache lie (`kcache.c`)

`kfio_create_cache` takes a size and an alignment, `__kfio_create_cache` passes the size on to UMA,
and the reserve keeps its list in the objects themselves.  The functions of `fio/port/kcache.h` run
here on the bytes of memory.
-/

namespace IomemoryVsl.Port.Bytewise

open LinkedRing ByteMemory Transition
open Kscatter (Fault kassert)

/-! ## The zone -/

/-- `sizeof(void *) - 1`. -/
def UMA_ALIGN_PTR : Nat := 7

/-- Memory that a zone cuts into items. -/
structure Slab where
  start : Nat
  count : Nat
deriving DecidableEq, Repr

/-- A `uma_zone_t`: what `uma_zcreate` was told, and all the slabs that the zone ever has. -/
structure UmaZone where
  size : Nat
  align : Nat
  slabs : List Slab
deriving DecidableEq, Repr

/-- From one item to the next: the size, rounded up to the alignment that the zone was given. -/
def UmaZone.stride (z : UmaZone) : Nat :=
  (z.size + z.align) / (z.align + 1) * (z.align + 1)

def Slab.items (slab : Slab) (stride : Nat) : List Nat :=
  (List.range slab.count).map fun i ↦ slab.start + i * stride

def UmaZone.items (z : UmaZone) : List Nat :=
  z.slabs.flatMap (Slab.items · z.stride)

/-! ## A cache and its users -/

/-- As `CacheState`, on bytes, with what `kfio_create_cache` stores.  `reservedList` is the address
of the list head in the cache structure. -/
structure CacheBytes where
  mem : Bytes
  p : Option UmaZone
  size : UInt32
  align : UInt32
  reservedCount : Int32
  reservedList : Nat
  live : List Nat
  held : List Nat
  reserves : List Reserve

/-- `__kfio_create_cache`, with the slabs that the new zone will have. -/
def kfioCreateCacheRaw (slabs : Option (List Slab)) (pcache : CacheBytes) (size _align : UInt32) :
    Int32 × CacheBytes :=
  match slabs with
  | some slabs => (0, { pcache with p := some ⟨size.toNat, UMA_ALIGN_PTR, slabs⟩ })
  | none => (-ENOMEM, { pcache with p := none })

/-- `kfio_create_cache`, for a cache structure whose `reserved_list` is at `l`. -/
def kfioCreateCache (slabs : Option (List Slab)) (mem : Bytes) (l : Nat) (size align : UInt32) :
    Except Fault (Int32 × CacheBytes) := do
  kassert (size ≠ 0)
  kassert (align ≠ 0)
  kassert (align % 8 = 0)
  kassert (align &&& (align - 1) = 0)
  let pcache : CacheBytes :=
    { mem := fusionInitList mem l
      p := none
      size := size
      align := align
      reservedCount := 0
      reservedList := l
      live := []
      held := []
      reserves := [] }
  return kfioCreateCacheRaw slabs pcache size align

/-- `kfio_cache_alloc` returning the item `p`, zeroed. -/
def kfioCacheAlloc (z : UmaZone) (b : CacheBytes) (p : Nat) : CacheBytes :=
  { b with mem := overwrite b.mem p z.size fun _ ↦ 0, live := p :: b.live }

def kfioCacheFree (b : CacheBytes) (p : Nat) : CacheBytes :=
  { b with live := b.live.erase p }

def cacheReleaseLoop (b : CacheBytes) : Nat → CacheBytes × Int32
  | 0 => (b, 0)
  | n + 1 =>
      if b.reservedCount = 0 then (b, -ENOMEM)
      else
        let (mem, le) := fusionListPopHead b.mem b.reservedList
        let b := { b with mem := mem, reservedCount := b.reservedCount - 1 }
        cacheReleaseLoop (kfioCacheFree b le) n

def fusionCacheRelease (b : CacheBytes) (n : Nat) : CacheBytes × Int32 :=
  cacheReleaseLoop b n

def fusionCachePrealloc (b : CacheBytes) : CacheBytes × Nat :=
  if b.reservedCount ≠ 0 then
    let (mem, retval) := fusionListPopHead b.mem b.reservedList
    ({ b with
        mem := mem
        reservedCount := b.reservedCount - 1
        held := retval :: b.held }, retval)
  else (b, NULL)

def fusionCacheAlloc (z : UmaZone) (b : CacheBytes) : Option Nat → CacheBytes
  | some p =>
      let b := kfioCacheAlloc z b p
      { b with held := p :: b.held }
  | none => b

def fusionCacheFree (b : CacheBytes) (p : Nat) (prealloc : Bool) : CacheBytes :=
  let b := { b with held := b.held.erase p }
  if prealloc then
    { b with
      mem := fusionListAddHead b.mem p b.reservedList
      reservedCount := b.reservedCount + 1 }
  else kfioCacheFree b p

/-! The steps of a running `fusion_cache_reserve`. -/

def cacheReserveEnter (b : CacheBytes) (head : Nat) (n : Nat) : CacheBytes :=
  { b with
    mem := fusionInitList b.mem head
    reserves := b.reserves ++ [⟨head, n, 0, .loop, [], []⟩] }

def cacheReserveAlloc (z : UmaZone) (b : CacheBytes) (k : Nat) (r : Reserve) :
    Option Nat → CacheBytes
  | some le =>
      let b := kfioCacheAlloc z b le
      { b with
        mem := fusionListAddHead b.mem le r.head
        reserves := b.reserves.set k { r with i := r.i + 1, allocated := le :: r.allocated } }
  | none =>
      -- goto error_exit
      let le := (entryAt b.mem r.head).next
      let next := (entryAt b.mem le).next
      { b with reserves := b.reserves.set k { r with pc := .exitTest le next } }

def cacheReserveCommit (b : CacheBytes) (k : Nat) (r : Reserve) : CacheBytes :=
  { b with
    mem := fusionListAddList b.mem r.head b.reservedList
    reservedCount := b.reservedCount + Int32.ofNat r.n
    reserves := b.reserves.eraseIdx k }

def cacheReserveExit (b : CacheBytes) (k : Nat) (r : Reserve) (le next : Nat) : CacheBytes :=
  if le = r.head then { b with reserves := b.reserves.eraseIdx k }
  else
    let b := kfioCacheFree b le
    { b with
      reserves := b.reserves.set k
        { r with pc := .exitAdvance next, returned := r.returned ++ [le] } }

def cacheReserveAdvance (b : CacheBytes) (k : Nat) (r : Reserve) (next : Nat) : CacheBytes :=
  { b with
    reserves := b.reserves.set k { r with pc := .exitTest next (entryAt b.mem next).next } }

/-! ## Every interleaving -/

inductive ObjectEvent where
  | reserve (head : Nat) (n : Nat)
  | reserveAlloc (k : Nat) (result : Option Nat)
  | reserveCommit (k : Nat)
  | reserveExit (k : Nat)
  | reserveAdvance (k : Nat)
  | release (n : Nat)
  | prealloc
  | alloc (result : Option Nat)
  | free (p : Nat) (prealloc : Bool)
  /-- the holder of an object writes it -/
  | write (p : Nat) (f : Nat → UInt8)
  /-- memory changes that is no object in use and no list head -/
  | other (f : Bytes)

def CacheBytes.heads (b : CacheBytes) : List Nat :=
  b.reservedList :: b.reserves.map Reserve.head

/-- Room for a list head outside the zone. -/
def UmaZone.Outside (z : UmaZone) (l : Nat) : Prop :=
  l ≠ NULL ∧ l + entrySize ≤ 2 ^ 64 ∧ ∀ p ∈ z.items, l + entrySize ≤ p ∨ p + z.size ≤ l

/-- Memory that a new list head may take. -/
def CacheBytes.Free (z : UmaZone) (b : CacheBytes) (l : Nat) : Prop :=
  z.Outside l ∧ ∀ l' ∈ b.heads, l + entrySize ≤ l' ∨ l' + entrySize ≤ l

/-- The byte at `x` is part of an object in use or of a list head. -/
def CacheBytes.Used (z : UmaZone) (b : CacheBytes) (x : Nat) : Prop :=
  (∃ p ∈ b.live, p ≤ x ∧ x < p + z.size) ∨ ∃ l ∈ b.heads, l ≤ x ∧ x < l + entrySize

instance (z : UmaZone) (l : Nat) : Decidable (z.Outside l) :=
  inferInstanceAs (Decidable (_ ∧ _ ∧ _))

instance (z : UmaZone) (b : CacheBytes) (l : Nat) : Decidable (b.Free z l) :=
  inferInstanceAs (Decidable (_ ∧ _))

instance (z : UmaZone) (b : CacheBytes) (x : Nat) : Decidable (b.Used z x) :=
  inferInstanceAs (Decidable (_ ∨ _))

/-- One step of some caller.  UMA hands out an item that is not in use. -/
def zoneStep (z : UmaZone) (b : CacheBytes) : ObjectEvent → Option CacheBytes
  | .reserve head n => if b.Free z head then some (cacheReserveEnter b head n) else none
  | .reserveAlloc k result =>
      b.reserves[k]?.bind fun r ↦
        if r.pc = .loop ∧ r.i < r.n ∧ ∀ p ∈ result, p ∈ z.items ∧ p ∉ b.live then
          some (cacheReserveAlloc z b k r result)
        else none
  | .reserveCommit k =>
      b.reserves[k]?.bind fun r ↦
        if r.pc = .loop ∧ ¬ r.i < r.n then some (cacheReserveCommit b k r) else none
  | .reserveExit k =>
      b.reserves[k]?.bind fun r ↦
        match r.pc with
        | .exitTest le next => some (cacheReserveExit b k r le next)
        | _ => none
  | .reserveAdvance k =>
      b.reserves[k]?.bind fun r ↦
        match r.pc with
        | .exitAdvance next => some (cacheReserveAdvance b k r next)
        | _ => none
  | .release n => some (fusionCacheRelease b n).1
  | .prealloc => some (fusionCachePrealloc b).1
  | .alloc result =>
      if ∀ p ∈ result, p ∈ z.items ∧ p ∉ b.live then some (fusionCacheAlloc z b result) else none
  | .free p prealloc => if p ∈ b.held then some (fusionCacheFree b p prealloc) else none
  | .write p f =>
      if p ∈ b.held then some { b with mem := overwrite b.mem p z.size f } else none
  | .other f => some { b with mem := fun x ↦ if b.Used z x then b.mem x else f x }

def objectStep (b : CacheBytes) (ev : ObjectEvent) : Option CacheBytes :=
  b.p.bind fun z ↦ zoneStep z b ev

/-! ## What is expected of the objects -/

/-- The object in a caller's hands that a step is about. -/
def ObjectEvent.subject : ObjectEvent → Option Nat
  | .free p _ | .write p _ => some p
  | _ => none

/-- A step leaves alone the objects that callers hold, and of the other objects in use all that lies
behind the list entry; the object that the step is about excepted. -/
def Untouched (size : Nat) (b b' : CacheBytes) (ev : ObjectEvent) : Prop :=
  ∀ q ∈ b.live, ev.subject ≠ some q → ∀ x, q ≤ x → x < q + size →
    q ∈ b.held ∨ q + entrySize ≤ x → b'.mem x = b.mem x

/-- Every object in a caller's hands is aligned, the list entry of an object lies inside the object,
the reserve list is well formed and made of objects that nobody holds, and no step alters an object
that it is not about. -/
structure ObjectsSound (size align : Nat) (b : CacheBytes) : Prop where
  aligned : ∀ p ∈ b.held, align ∣ p
  inside : ∀ p ∈ b.live, p + entrySize ≤ p + size
  reserved : ∃ reserved, Contents (entryAt b.mem) b.reservedList reserved ∧
    b.reservedCount = Int32.ofNat reserved.length ∧ (b.held ++ reserved).Nodup ∧
      ∀ p ∈ reserved, p ∈ b.live
  untouched : ∀ ev b', objectStep b ev = some b' → Untouched size b b' ev

/-- The checks of `kfio_create_cache`. -/
def Allowed (size align : UInt32) : Prop :=
  size ≠ 0 ∧ align ≠ 0 ∧ align % 8 = 0 ∧ align &&& (align - 1) = 0

instance (size align : UInt32) : Decidable (Allowed size align) :=
  inferInstanceAs (Decidable (_ ∧ _ ∧ _ ∧ _))

/-- The cache is created, and whatever its users do, the objects are as expected. -/
def LayoutSound (slabs : List Slab) (mem : Bytes) (l : Nat) (size align : UInt32) : Prop :=
  ∃ b₀, kfioCreateCache (some slabs) mem l size align = .ok (0, b₀) ∧
    ∀ es b, run objectStep b₀ es = some b → ObjectsSound size.toNat align.toNat b

/-- What UMA promises of the slabs of a zone: they start where the alignment that the zone was given
allows, have no byte in common, and lie in the address space. -/
structure UmaZone.Promised (z : UmaZone) : Prop where
  start : ∀ slab ∈ z.slabs, z.align + 1 ∣ slab.start ∧ 0 < slab.start
  below : ∀ slab ∈ z.slabs, slab.start + slab.count * z.stride ≤ 2 ^ 64
  apart : z.slabs.Pairwise fun slab slab' ↦
    slab.start + slab.count * z.stride ≤ slab'.start ∨
      slab'.start + slab'.count * z.stride ≤ slab.start

/-! ## The items of a zone -/

variable {z : UmaZone} {b b' : CacheBytes} {reserved : List Addr} {A : Seqs} {s : CacheState}

theorem UmaZone.le_stride (z : UmaZone) : z.size ≤ z.stride := by
  have hdiv := Nat.div_add_mod (z.size + z.align) (z.align + 1)
  have hmod : (z.size + z.align) % (z.align + 1) < z.align + 1 := Nat.mod_lt _ (Nat.succ_pos _)
  rw [Nat.mul_comm] at hdiv
  unfold UmaZone.stride
  omega

theorem UmaZone.mem_items {p : Nat} :
    p ∈ z.items ↔ ∃ slab ∈ z.slabs, ∃ i < slab.count, p = slab.start + i * z.stride := by
  unfold UmaZone.items Slab.items
  simp only [List.mem_flatMap, List.mem_map, List.mem_range, eq_comm]

/-- An item lies in its slab, from its start to the start of the next one. -/
theorem slab_item_below {slab : Slab} {i : Nat} (hi : i < slab.count) (stride : Nat) :
    slab.start + i * stride + stride ≤ slab.start + slab.count * stride := by
  have hmul : (i + 1) * stride ≤ slab.count * stride := Nat.mul_le_mul_right stride hi
  rw [Nat.succ_mul] at hmul
  omega

/-- Two items have no byte in common. -/
theorem UmaZone.Promised.items_apart (hz : z.Promised) {p q : Nat} (hp : p ∈ z.items)
    (hq : q ∈ z.items) (hpq : p ≠ q) : p + z.size ≤ q ∨ q + z.size ≤ p := by
  obtain ⟨slab, hslab, i, hi, rfl⟩ := UmaZone.mem_items.mp hp
  obtain ⟨slab', hslab', j, hj, rfl⟩ := UmaZone.mem_items.mp hq
  have hsize := z.le_stride
  by_cases heq : slab = slab'
  · subst heq
    rcases Nat.lt_trichotomy i j with hij | rfl | hij
    · have hmul : (i + 1) * z.stride ≤ j * z.stride := Nat.mul_le_mul_right _ hij
      rw [Nat.succ_mul] at hmul
      omega
    · exact absurd rfl hpq
    · have hmul : (j + 1) * z.stride ≤ i * z.stride := Nat.mul_le_mul_right _ hij
      rw [Nat.succ_mul] at hmul
      omega
  · have hsym : Std.Symm fun slab slab' : Slab ↦
        slab.start + slab.count * z.stride ≤ slab'.start ∨
          slab'.start + slab'.count * z.stride ≤ slab.start := ⟨fun _ _ hor ↦ hor.symm⟩
    have hi' := slab_item_below hi z.stride
    have hj' := slab_item_below hj z.stride
    rcases hz.apart.forall hslab hslab' heq with hlt | hlt
    · omega
    · omega

theorem UmaZone.Promised.item_bounds (hz : z.Promised) {p : Nat} (hp : p ∈ z.items) :
    0 < p ∧ p + z.size ≤ 2 ^ 64 := by
  obtain ⟨slab, hslab, i, hi, rfl⟩ := UmaZone.mem_items.mp hp
  have hstart := (hz.start slab hslab).2
  have hbelow := hz.below slab hslab
  have hitem := slab_item_below hi z.stride
  have hsize := z.le_stride
  omega

/-! ## The books on bytes -/

-- what these do to a heap is known by the lemmas of `KcacheInvariant`
attribute [local irreducible] Port.fusionListAddList Port.fusionListPopHead

/-- The cache as its users see it, entries for bytes; nothing is on record. -/
def CacheBytes.state (b : CacheBytes) : CacheState where
  heap := entryAt b.mem
  zone := b.p.isSome
  reservedCount := b.reservedCount
  reservedList := b.reservedList
  live := b.live
  held := b.held
  reserves := b.reserves
  frees := []
  results := []

/-- The books are those of `KcacheInvariant`, and list heads lie apart from the zone and from each
other.  The counter is right modulo 2^32. -/
structure LayoutInv (z : UmaZone) (b : CacheBytes) (reserved : List Addr) : Prop where
  zone : b.p = some z
  books : ∃ A, CacheInv b.state A reserved
  count : b.reservedCount = Int32.ofNat reserved.length
  items : ∀ p ∈ b.live, p ∈ z.items
  outside : ∀ l ∈ b.heads, z.Outside l
  apart : ∀ l ∈ b.heads, ∀ l' ∈ b.heads, l ≠ l' → l + entrySize ≤ l' ∨ l' + entrySize ≤ l

/-- Objects are large enough for a list entry, if there are any. -/
def UmaZone.Roomy (z : UmaZone) : Prop :=
  ∀ p ∈ z.items, p + entrySize ≤ p + z.size

/-- List heads and objects in use lie apart. -/
theorem UmaZone.Promised.nodes_apart (hz : z.Promised) (hroom : z.Roomy) {heads live : List Nat}
    (hitems : ∀ p ∈ live, p ∈ z.items) (hout : ∀ l ∈ heads, z.Outside l)
    (hapart : ∀ l ∈ heads, ∀ l' ∈ heads, l ≠ l' → l + entrySize ≤ l' ∨ l' + entrySize ≤ l) :
    Apart {a | a ∈ heads ∨ a ∈ live} where
  apart := by
    have hmixed : ∀ l ∈ heads, ∀ p ∈ live, l + entrySize ≤ p ∨ p + entrySize ≤ l := by
      intro l hl p hp
      rcases (hout l hl).2.2 p (hitems p hp) with hlt | hlt
      · exact Or.inl hlt
      · exact Or.inr ((hroom p (hitems p hp)).trans hlt)
    -- two heads, a head and an object either way round, two objects
    rintro p (hp | hp) q (hq | hq) hpq
    · exact hapart p hp q hq hpq
    · exact hmixed p hp q hq
    · exact (hmixed q hq p hp).symm
    · rcases hz.items_apart (hitems p hp) (hitems q hq) hpq with hlt | hlt
      · exact Or.inl ((hroom p (hitems p hp)).trans hlt)
      · exact Or.inr ((hroom q (hitems q hq)).trans hlt)
  below := by
    rintro p (hp | hp)
    · have hbound := (hout p hp).2.1
      unfold entrySize at hbound
      omega
    · have hsize := hroom p (hitems p hp)
      have hbound := (hz.item_bounds (hitems p hp)).2
      unfold entrySize at hsize
      omega

/-- Every entry that a list may use. -/
def CacheBytes.nodes (b : CacheBytes) : Set Nat := {a | a ∈ b.heads ∨ a ∈ b.live}

/-- The entries that a list may be using: none that a caller holds. -/
def CacheBytes.listed (b : CacheBytes) : Set Nat := {a | a ∈ b.heads ∨ a ∈ b.live ∧ a ∉ b.held}

theorem LayoutInv.nodes_apart (hinv : LayoutInv z b reserved) (hz : z.Promised)
    (hroom : z.Roomy) : Apart b.nodes :=
  hz.nodes_apart hroom hinv.items hinv.outside hinv.apart

theorem CacheBytes.listed_subset (b : CacheBytes) : b.listed ⊆ b.nodes :=
  fun _ ha ↦ ha.imp_right And.left

/-- The books of a heap that the bytes show. -/
theorem booksOfBytes (hi : CacheInv s A reserved) (hlist : b.reservedList = s.reservedList)
    (hlive : b.live = s.live) (hheld : b.held = s.held) (hreserves : b.reserves = s.reserves)
    (hshow : ∀ a, a ∈ s.heads ∨ a ∈ s.live → entryAt b.mem a = s.heap a) :
    CacheInv b.state A reserved := by
  have howned : ∀ l a, Owns A l a → entryAt b.mem a = s.heap a := by
    intro l a ha
    rcases hi.owns ha with hh | hr | ⟨r, hr, -, hp⟩
    · exact hshow a (Or.inl hh)
    · exact hshow a (Or.inr (hi.live_of_reserved hr))
    · exact hshow a (Or.inr (hi.live_of_pending hr hp))
  -- the rest of the books is not about memory
  have hheads : b.state.heads = s.heads := by
    show b.reservedList :: b.reserves.map Reserve.head = _
    rw [hlist, hreserves]
    rfl
  refine ⟨⟨⟨fun l xs hl ↦ ?_, hi.wf.nodup, hi.wf.disjoint⟩, hi.wf.null⟩, ?_, ?_, ?_, ?_, ?_, ?_, ?_,
    fun f hf ↦ absurd hf List.not_mem_nil, fun r hr ↦ absurd hr List.not_mem_nil⟩
  · exact (hi.wf.ring l xs hl).congr fun a ha ↦ howned l a ⟨xs, hl, ha⟩
  · show Roots A b.reservedList reserved b.reserves
    rw [hlist, hreserves]
    exact hi.roots
  · show (b.held ++ reserved ++ b.reserves.flatMap Reserve.pending).Perm b.live
    rw [hheld, hreserves, hlive]
    exact hi.places
  · show b.live.Nodup
    rw [hlive]
    exact hi.nodup
  · rw [hheads]
    exact hi.heads
  · rw [hheads]
    show ∀ l ∈ s.heads, l ≠ NULL ∧ l ∉ b.live
    rw [hlive]
    exact hi.apart
  · show NULL ∉ b.live
    rw [hlive]
    exact hi.null
  · show ∀ r ∈ b.reserves, r.Walks (entryAt b.mem) ∧ r.allocated = r.returned ++ r.pending
    rw [hreserves]
    intro r hr
    refine ⟨(hi.running r hr).1.congr fun _ a ha ↦ ?_, (hi.running r hr).2⟩
    exact hshow a (Or.inr (hi.live_of_pending hr ha))

/-- What is on a list is a list head, or an object that nobody holds. -/
theorem listed_of_owns (hi : CacheInv b.state A reserved) {l a : Addr} (ha : Owns A l a) :
    a ∈ b.listed := by
  have hnot : a ∉ b.held := fun hheld ↦ hi.held_not_owns hheld l ha
  rcases hi.owns ha with hh | hr | ⟨r, hr, -, hp⟩
  · exact Or.inl hh
  · exact Or.inr ⟨hi.live_of_reserved hr, hnot⟩
  · exact Or.inr ⟨hi.live_of_pending hr hp, hnot⟩

/-- A step that keeps the zone, adds no list head and takes no new item. -/
theorem LayoutInv.lift (hinv : LayoutInv z b reserved) {reserved' : List Addr} {T : Set Nat}
    {mem : Bytes} {count : Int32} {live held : List Nat} {reserves : List Reserve}
    (hshow : Shows b.nodes T b.mem mem s.heap) (hi : CacheInv s A reserved')
    (hlist : b.reservedList = s.reservedList) (hlive : live = s.live) (hheld : held = s.held)
    (hreserves : reserves = s.reserves) (hcount : count = Int32.ofNat reserved'.length)
    (hsub : ∀ p ∈ live, p ∈ b.live)
    (hheads : ∀ l ∈ b.reservedList :: reserves.map Reserve.head, l ∈ b.heads) :
    LayoutInv z
      { b with
        mem := mem
        reservedCount := count
        live := live
        held := held
        reserves := reserves } reserved' where
  zone := hinv.zone
  books := by
    refine ⟨A, booksOfBytes hi hlist hlive hheld hreserves ?_⟩
    rintro a (ha | ha)
    · apply hshow.entry a
      apply Or.inl
      apply hheads
      rw [hlist, hreserves]
      exact ha
    · rw [← hlive] at ha
      exact hshow.entry a (Or.inr (hsub a ha))
  count := hcount
  items p hp := hinv.items p (hsub p hp)
  outside l hl := hinv.outside l (hheads l hl)
  apart l hl l' hl' := hinv.apart l (hheads l hl) l' (hheads l' hl')

/-- A step that leaves memory alone as well. -/
theorem LayoutInv.lift_same (hinv : LayoutInv z b reserved) {reserved' : List Addr}
    {count : Int32} {live held : List Nat} {reserves : List Reserve} (hi : CacheInv s A reserved')
    (hheap : s.heap = entryAt b.mem) (hlist : b.reservedList = s.reservedList)
    (hlive : live = s.live) (hheld : held = s.held) (hreserves : reserves = s.reserves)
    (hcount : count = Int32.ofNat reserved'.length) (hsub : ∀ p ∈ live, p ∈ b.live)
    (hheads : ∀ l ∈ b.reservedList :: reserves.map Reserve.head, l ∈ b.heads) :
    LayoutInv z
      { b with reservedCount := count, live := live, held := held, reserves := reserves }
      reserved' := by
  have hshow : Shows b.nodes ∅ b.mem b.mem s.heap := by
    rw [hheap]
    exact Shows.refl _ _ _
  exact hinv.lift hshow hi hlist hlive hheld hreserves hcount hsub hheads

/-- A step that writes no more than entries of list heads, of objects that nobody holds and of the
object that it is about. -/
theorem LayoutInv.untouched (hinv : LayoutInv z b reserved) (hz : z.Promised) (hroom : z.Roomy)
    {ev : ObjectEvent} {T : Set Nat}
    (hT : ∀ p ∈ T, z.Outside p ∨ p ∈ z.items ∧ (p ∉ b.held ∨ ev.subject = some p))
    (hw : ∀ x, (∀ p ∈ T, x < p ∨ p + entrySize ≤ x) → b'.mem x = b.mem x) :
    Untouched z.size b b' ev := by
  intro q hq hsub x hlo hhi hbehind
  have hitem := hinv.items q hq
  apply hw
  intro p hp
  rcases hT p hp with hout | ⟨hpitem, hcase⟩
  · rcases hout.2.2 q hitem with hlt | hlt
    · exact Or.inr (hlt.trans hlo)
    · exact Or.inl (hhi.trans_le hlt)
  · by_cases hpq : p = q
    -- the entry at the start of the object itself, which nobody holds then
    · subst hpq
      rcases hcase with hnot | hsubject
      · exact Or.inr (hbehind.resolve_left hnot)
      · exact absurd hsubject hsub
    · rcases hz.items_apart hpitem hitem hpq with hlt | hlt
      · exact Or.inr ((hroom p hpitem).trans (hlt.trans hlo))
      · exact Or.inl (hhi.trans_le hlt)

theorem LayoutInv.listed_cases (hinv : LayoutInv z b reserved) (ev : ObjectEvent) {p : Nat}
    (hp : p ∈ b.listed) : z.Outside p ∨ p ∈ z.items ∧ (p ∉ b.held ∨ ev.subject = some p) := by
  rcases hp with hp | ⟨hlive, hheld⟩
  · exact Or.inl (hinv.outside p hp)
  · exact Or.inr ⟨hinv.items p hlive, Or.inl hheld⟩

/-- A step that writes nothing. -/
theorem untouched_of_mem_eq {ev : ObjectEvent} {size : Nat} (heq : b'.mem = b.mem) :
    Untouched size b b' ev := by
  intro q _ _ x _ _ _
  rw [heq]

theorem mem_heads_set {k : Nat} {r r' : Reserve} (hk : b.reserves[k]? = some r) {l : Nat}
    (hl : l ∈ b.reservedList :: (b.reserves.set k r').map Reserve.head)
    (hhead : r'.head = r.head) : l ∈ b.heads := by
  rcases List.mem_cons.mp hl with rfl | hl
  · exact List.mem_cons_self
  · obtain ⟨q, hq, rfl⟩ := List.mem_map.mp hl
    rcases List.mem_or_eq_of_mem_set hq with hq | rfl
    · exact List.mem_cons_of_mem _ (List.mem_map_of_mem hq)
    · rw [hhead]
      exact List.mem_cons_of_mem _ (List.mem_map_of_mem (List.mem_of_getElem? hk))

theorem mem_heads_erase {k l : Nat}
    (hl : l ∈ b.reservedList :: (b.reserves.eraseIdx k).map Reserve.head) : l ∈ b.heads := by
  rcases List.mem_cons.mp hl with rfl | hl
  · exact List.mem_cons_self
  · obtain ⟨q, hq, rfl⟩ := List.mem_map.mp hl
    exact List.mem_cons_of_mem _ (List.mem_map_of_mem (List.mem_of_mem_eraseIdx hq))

/-! ### Whole objects are written -/

theorem LayoutInv.unused (hinv : LayoutInv z b reserved) (hz : z.Promised) (hroom : z.Roomy)
    {p : Nat} (hitem : p ∈ z.items) (hfresh : p ∉ b.live) : b.state.Unused p := by
  refine ⟨Nat.ne_of_gt (hz.item_bounds hitem).1, hfresh, ?_⟩
  intro hhead
  have hout := (hinv.outside p hhead).2.2 p hitem
  have hsize := hroom p hitem
  unfold entrySize at hout hsize
  omega

/-- Writing an item does not show in the entry of a list head or of another item. -/
theorem entryAt_overwrite_item (hz : z.Promised) (hroom : z.Roomy) {p a : Nat} (hp : p ∈ z.items)
    (ha : z.Outside a ∨ a ∈ z.items) (hap : a ≠ p) (m : Bytes) (f : Nat → UInt8) :
    entryAt (overwrite m p z.size f) a = entryAt m a := by
  apply entryAt_congr
  intro x hlo hhi
  apply overwrite_outside
  rcases ha with hout | hitem
  · rcases hout.2.2 p hp with hlt | hlt
    · exact Or.inl (hhi.trans_le hlt)
    · exact Or.inr (hlt.trans hlo)
  · rcases hz.items_apart hitem hp hap with hlt | hlt
    · exact Or.inl (hhi.trans_le ((hroom a hitem).trans hlt))
    · exact Or.inr (hlt.trans hlo)

theorem LayoutInv.alloc (hinv : LayoutInv z b reserved) (hz : z.Promised) (hroom : z.Roomy)
    {p : Nat} (hitem : p ∈ z.items) (hfresh : p ∉ b.live) :
    LayoutInv z { kfioCacheAlloc z b p with held := p :: b.held } reserved := by
  obtain ⟨A, hi⟩ := hinv.books
  have hitems : ∀ q ∈ p :: b.live, q ∈ z.items := by
    intro q hq
    rcases List.mem_cons.mp hq with rfl | hq
    · exact hitem
    · exact hinv.items q hq
  have hbooks := booksOfBytes (b := { kfioCacheAlloc z b p with held := p :: b.held })
    (hi.alloc (hinv.unused hz hroom hitem hfresh)) rfl rfl rfl rfl (by
      intro a ha
      show entryAt (overwrite b.mem p z.size fun _ ↦ 0) a =
        Function.update (entryAt b.mem) p ⟨NULL, NULL⟩ a
      by_cases hap : a = p
      -- the item is zeroed as a whole, the entry at its start with it
      · subst hap
        rw [Function.update_self]
        apply entryAt_zeros
        intro x hlo hhi
        have hin : x - a < z.size := by
          have hsize := hroom a hitem
          omega
        have hx := overwrite_inside (a := a) b.mem (fun _ ↦ 0) hin
        rwa [Nat.add_sub_cancel' hlo] at hx
      · rw [Function.update_of_ne hap]
        exact entryAt_overwrite_item hz hroom hitem
          (ha.imp (hinv.outside a) (hitems a)) hap b.mem _)
  exact ⟨hinv.zone, ⟨A, hbooks⟩, hinv.count, hitems, hinv.outside, hinv.apart⟩

/-- Zeroing a new item leaves the objects in use alone. -/
theorem LayoutInv.alloc_mem (hinv : LayoutInv z b reserved) (hz : z.Promised) {p q x : Nat}
    (hitem : p ∈ z.items) (hq : q ∈ b.live) (hqp : q ≠ p) (hlo : q ≤ x) (hhi : x < q + z.size)
    (f : Nat → UInt8) : overwrite b.mem p z.size f x = b.mem x := by
  apply overwrite_outside
  rcases hz.items_apart hitem (hinv.items q hq) (Ne.symm hqp) with hlt | hlt
  · exact Or.inr (hlt.trans hlo)
  · exact Or.inl (hhi.trans_le hlt)

theorem LayoutInv.write (hinv : LayoutInv z b reserved) (hz : z.Promised) (hroom : z.Roomy)
    {p : Nat} (hp : p ∈ b.held) (f : Nat → UInt8) :
    LayoutInv z { b with mem := overwrite b.mem p z.size f } reserved := by
  obtain ⟨A, hi⟩ := hinv.books
  have hitem := hinv.items p (hi.live_of_held hp)
  have hbooks := booksOfBytes (b := { b with mem := overwrite b.mem p z.size f })
    (hi.write (entryAt (overwrite b.mem p z.size f) p) (Or.inl hp)) rfl rfl rfl rfl (by
      intro a ha
      show entryAt (overwrite b.mem p z.size f) a = Function.update (entryAt b.mem) p _ a
      by_cases hap : a = p
      · rw [hap, Function.update_self]
      · rw [Function.update_of_ne hap]
        exact entryAt_overwrite_item hz hroom hitem
          (ha.imp (hinv.outside a) (hinv.items a)) hap b.mem f)
  exact ⟨hinv.zone, ⟨A, hbooks⟩, hinv.count, hinv.items, hinv.outside, hinv.apart⟩

/-- Memory that is not in use may change under the cache. -/
theorem LayoutInv.other (hinv : LayoutInv z b reserved) (hroom : z.Roomy) (f : Bytes) :
    LayoutInv z { b with mem := fun x ↦ if b.Used z x then b.mem x else f x } reserved := by
  obtain ⟨A, hi⟩ := hinv.books
  have hbooks := booksOfBytes
    (b := { b with mem := fun x ↦ if b.Used z x then b.mem x else f x }) hi rfl rfl rfl rfl (by
      intro a ha
      apply entryAt_congr
      intro x hlo hhi
      apply if_pos
      rcases ha with ha | ha
      · exact Or.inr ⟨a, ha, hlo, hhi⟩
      · exact Or.inl ⟨a, ha, hlo, hhi.trans_le (hroom a (hinv.items a ha))⟩)
  exact ⟨hinv.zone, ⟨A, hbooks⟩, hinv.count, hinv.items, hinv.outside, hinv.apart⟩

/-! ### Entries are written -/

/-- The entries that a list function may write when it is given the object `p`. -/
def CacheBytes.listedOr (b : CacheBytes) (p : Nat) : Set Nat := {a | a = p ∨ a ∈ b.listed}

theorem LayoutInv.shows_addHead (hinv : LayoutInv z b reserved) (hz : z.Promised)
    (hroom : z.Roomy) (hi : CacheInv b.state A reserved) {p l : Nat} {xs : List Addr}
    (hp : p ∈ b.live) (hl : A l = some xs) :
    Shows b.nodes (b.listedOr p) b.mem (fusionListAddHead b.mem p l)
      (Port.fusionListAddHead b.state.heap p l) := by
  have hsub : b.listedOr p ⊆ b.nodes := by
    rintro a (rfl | ha)
    · exact Or.inr hp
    · exact b.listed_subset ha
  exact (Shows.refl b.nodes (b.listedOr p) b.mem).addHead (hinv.nodes_apart hz hroom) hsub
    (Or.inl rfl) (Or.inr (listed_of_owns hi (owns_root hl)))
    (Or.inr (listed_of_owns hi (hi.wf.next_owns (owns_root hl))))

theorem LayoutInv.shows_popHead (hinv : LayoutInv z b reserved) (hz : z.Promised)
    (hroom : z.Roomy) (hi : CacheInv b.state A reserved) :
    Shows b.nodes b.listed b.mem (fusionListPopHead b.mem b.reservedList).1
        (Port.fusionListPopHead b.state.heap b.reservedList).1 ∧
      (fusionListPopHead b.mem b.reservedList).2 =
        (Port.fusionListPopHead b.state.heap b.reservedList).2 := by
  have hroot := owns_root hi.root_reserved
  have hnext := hi.wf.next_owns hroot
  exact (Shows.refl b.nodes b.listed b.mem).popHead (hinv.nodes_apart hz hroom) b.listed_subset
    (listed_of_owns hi hroot) (listed_of_owns hi hnext)
    (listed_of_owns hi (hi.wf.next_owns hnext)) (listed_of_owns hi (hi.wf.prev_owns hnext))

theorem LayoutInv.shows_addList (hinv : LayoutInv z b reserved) (hz : z.Promised)
    (hroom : z.Roomy) (hi : CacheInv b.state A reserved) {l : Nat} {xs : List Addr}
    (hl : A l = some xs) :
    Shows b.nodes b.listed b.mem (fusionListAddList b.mem l b.reservedList)
      (Port.fusionListAddList b.state.heap l b.reservedList) := by
  have hroot := owns_root hl
  have hlist := owns_root hi.root_reserved
  exact (Shows.refl b.nodes b.listed b.mem).addList (hinv.nodes_apart hz hroom) b.listed_subset
    (listed_of_owns hi hroot) (listed_of_owns hi hlist) (listed_of_owns hi (hi.wf.next_owns hroot))
    (listed_of_owns hi (hi.wf.prev_owns hroot)) (listed_of_owns hi (hi.wf.next_owns hlist))

/-! ### One lemma for each thing a step does -/

/-- What every step is shown to do. -/
def Advances (z : UmaZone) (b b' : CacheBytes) (ev : ObjectEvent) : Prop :=
  (∃ reserved', LayoutInv z b' reserved') ∧ Untouched z.size b b' ev

theorem count_ofNat_add (m n : Nat) : Int32.ofNat m + Int32.ofNat n = Int32.ofNat (n + m) := by
  rw [Nat.add_comm, Int32.ofNat_add]

theorem count_ofNat_pred (m : Nat) : Int32.ofNat (m + 1) - 1 = Int32.ofNat m := by
  rw [Int32.ofNat_add]
  exact Int32.add_sub_cancel _ _

theorem LayoutInv.enter (hinv : LayoutInv z b reserved) (hz : z.Promised) (hroom : z.Roomy)
    {head : Nat} (n : Nat) (hfree : b.Free z head) :
    Advances z b (cacheReserveEnter b head n) (.reserve head n) := by
  obtain ⟨A, hi⟩ := hinv.books
  obtain ⟨hout, hapart⟩ := hfree
  have hunused : b.state.Unused head := by
    refine ⟨hout.1, ?_, ?_⟩
    · intro hlive
      have hitem := hinv.items head hlive
      have hor := hout.2.2 head hitem
      have hsize := hroom head hitem
      unfold entrySize at hor hsize
      omega
    · intro hhead
      have hor := hapart head hhead
      unfold entrySize at hor
      omega
  have hheads : ∀ l, l ∈ (cacheReserveEnter b head n).heads ↔ l ∈ b.heads ∨ l = head := by
    intro l
    simp [CacheBytes.heads, cacheReserveEnter, or_assoc]
  have hout' : ∀ l ∈ (cacheReserveEnter b head n).heads, z.Outside l := by
    intro l hl
    rcases (hheads l).mp hl with hl | rfl
    · exact hinv.outside l hl
    · exact hout
  have hapart' : ∀ l ∈ (cacheReserveEnter b head n).heads,
      ∀ l' ∈ (cacheReserveEnter b head n).heads,
        l ≠ l' → l + entrySize ≤ l' ∨ l' + entrySize ≤ l := by
    intro l hl l' hl' hne
    rcases (hheads l).mp hl with hold | rfl
    · rcases (hheads l').mp hl' with hold' | rfl
      · exact hinv.apart l hold l' hold' hne
      · exact (hapart l hold).symm
    · rcases (hheads l').mp hl' with hold' | rfl
      · exact hapart l' hold'
      · exact absurd rfl hne
  have hnode : head ∈ {a | a ∈ (cacheReserveEnter b head n).heads ∨ a ∈ b.live} :=
    Or.inl ((hheads head).mpr (Or.inr rfl))
  have hshow := (Shows.refl _ {head} b.mem).initList
    (hz.nodes_apart hroom hinv.items hout' hapart') (Set.singleton_subset_iff.mpr hnode)
    (Set.mem_singleton head)
  have hbooks := booksOfBytes (b := cacheReserveEnter b head n) (hi.enter n hunused) rfl rfl rfl rfl
    hshow.entry
  refine ⟨⟨reserved, hinv.zone, ⟨_, hbooks⟩, hinv.count, hinv.items, hout', hapart'⟩, ?_⟩
  refine hinv.untouched hz hroom ?_ hshow.within
  intro p hp
  rw [Set.mem_singleton_iff.mp hp]
  exact Or.inl hout

/-- A reserve got an object. -/
theorem LayoutInv.push (hinv : LayoutInv z b reserved) (hz : z.Promised) (hroom : z.Roomy)
    {k : Nat} {r : Reserve} {p : Nat} (hk : b.reserves[k]? = some r) (hpc : r.pc = .loop)
    (hlt : r.i < r.n) (hitem : p ∈ z.items) (hfresh : p ∉ b.live) :
    Advances z b (cacheReserveAlloc z b k r (some p)) (.reserveAlloc k (some p)) := by
  -- the object is in the caller's hands before it is on the private list
  have hnew := hinv.alloc hz hroom hitem hfresh
  obtain ⟨A, hi⟩ := hnew.books
  have hmem : r ∈ b.reserves := List.mem_of_getElem? hk
  have hheld : p ∈ p :: b.held := List.mem_cons_self
  have hshow := hnew.shows_addHead hz hroom hi (hi.live_of_held hheld) (hi.root_loop hmem hpc)
  have hpush := hi.push hk hpc hlt hheld
  have hlift : LayoutInv z (cacheReserveAlloc z b k r (some p)) reserved :=
    hnew.lift hshow hpush rfl rfl (List.erase_cons_head p b.held).symm rfl hinv.count
      (fun _ hq ↦ hq) fun _ hl ↦ mem_heads_set hk hl rfl
  refine ⟨⟨reserved, hlift⟩, ?_⟩
  intro q hq _ x hlo hhi hbehind
  have hqp : q ≠ p := by
    rintro rfl
    exact hfresh hq
  have hT : ∀ a ∈ CacheBytes.listedOr { kfioCacheAlloc z b p with held := p :: b.held } p,
      z.Outside a ∨
        a ∈ z.items ∧ (a ∉ p :: b.held ∨ (ObjectEvent.free p true).subject = some a) := by
    rintro a (rfl | ha)
    · exact Or.inr ⟨hitem, Or.inr rfl⟩
    · exact hnew.listed_cases _ ha
  have huntouched : Untouched z.size { kfioCacheAlloc z b p with held := p :: b.held }
      (cacheReserveAlloc z b k r (some p)) (.free p true) :=
    hnew.untouched hz hroom hT hshow.within
  have hsame := huntouched q (List.mem_cons_of_mem p hq) (by
    intro heq
    exact hqp (Option.some.inj heq).symm) x hlo hhi (hbehind.imp_left (List.mem_cons_of_mem p))
  rw [hsame]
  exact hinv.alloc_mem hz hitem hq hqp hlo hhi fun _ ↦ 0

/-- A reserve got no object. -/
theorem LayoutInv.fail (hinv : LayoutInv z b reserved) {k : Nat} {r : Reserve}
    (hk : b.reserves[k]? = some r) (hpc : r.pc = .loop) :
    Advances z b (cacheReserveAlloc z b k r none) (.reserveAlloc k none) := by
  obtain ⟨A, hi⟩ := hinv.books
  have hlift : LayoutInv z (cacheReserveAlloc z b k r none) reserved :=
    hinv.lift_same (hi.fail hk hpc) rfl rfl rfl rfl rfl hinv.count (fun _ hq ↦ hq)
      fun _ hl ↦ mem_heads_set hk hl rfl
  exact ⟨⟨reserved, hlift⟩, untouched_of_mem_eq rfl⟩

theorem LayoutInv.commit (hinv : LayoutInv z b reserved) (hz : z.Promised) (hroom : z.Roomy)
    {k : Nat} {r : Reserve} (hk : b.reserves[k]? = some r) (hpc : r.pc = .loop)
    (hge : ¬ r.i < r.n) : Advances z b (cacheReserveCommit b k r) (.reserveCommit k) := by
  obtain ⟨A, hi⟩ := hinv.books
  have hmem : r ∈ b.reserves := List.mem_of_getElem? hk
  obtain ⟨hn, A', hcommit⟩ := hi.commit hk hpc hge
  have hshow := hinv.shows_addList hz hroom hi (hi.root_loop hmem hpc)
  have hcount : b.reservedCount + Int32.ofNat r.n =
      Int32.ofNat (r.allocated ++ reserved).length := by
    rw [hinv.count, List.length_append, hn, count_ofNat_add]
  have hlift : LayoutInv z (cacheReserveCommit b k r) (r.allocated ++ reserved) :=
    hinv.lift hshow hcommit rfl rfl rfl rfl hcount (fun _ hq ↦ hq) fun _ hl ↦ mem_heads_erase hl
  exact ⟨⟨_, hlift⟩, hinv.untouched hz hroom (fun p hp ↦ hinv.listed_cases _ hp) hshow.within⟩

theorem LayoutInv.exit (hinv : LayoutInv z b reserved) {k : Nat} {r : Reserve} {le next : Nat}
    (hk : b.reserves[k]? = some r) (hpc : r.pc = .exitTest le next) :
    Advances z b (cacheReserveExit b k r le next) (.reserveExit k) := by
  obtain ⟨A, hi⟩ := hinv.books
  by_cases hle : le = r.head
  · subst hle
    obtain ⟨A', hfinish⟩ := hi.finish hk hpc
    unfold Port.cacheReserveExit at hfinish
    unfold cacheReserveExit
    rw [if_pos rfl] at hfinish ⊢
    exact ⟨⟨reserved, hinv.lift_same hfinish rfl rfl rfl rfl rfl hinv.count
      (fun _ hq ↦ hq) fun _ hl ↦ mem_heads_erase hl⟩, untouched_of_mem_eq rfl⟩
  · obtain ⟨A', hgive⟩ := hi.giveBack hk hpc hle
    unfold Port.cacheReserveExit at hgive
    unfold cacheReserveExit
    rw [if_neg hle] at hgive ⊢
    exact ⟨⟨reserved, hinv.lift_same hgive rfl rfl rfl rfl rfl hinv.count
      (fun _ hq ↦ List.mem_of_mem_erase hq) fun _ hl ↦ mem_heads_set hk hl rfl⟩,
      untouched_of_mem_eq rfl⟩

theorem LayoutInv.advance (hinv : LayoutInv z b reserved) {k : Nat} {r : Reserve} {next : Nat}
    (hk : b.reserves[k]? = some r) (hpc : r.pc = .exitAdvance next) :
    Advances z b (cacheReserveAdvance b k r next) (.reserveAdvance k) := by
  obtain ⟨A, hi⟩ := hinv.books
  obtain ⟨A', hadvance⟩ := hi.advance hk hpc
  exact ⟨⟨reserved, hinv.lift_same hadvance rfl rfl rfl rfl rfl hinv.count
    (fun _ hq ↦ hq) fun _ hl ↦ mem_heads_set hk hl rfl⟩, untouched_of_mem_eq rfl⟩

/-- A counter that is not zero counts something. -/
theorem LayoutInv.reserved_ne_nil (hinv : LayoutInv z b reserved) (hcount : b.reservedCount ≠ 0) :
    ∃ x xs, reserved = x :: xs := by
  cases reserved with
  | nil => exact absurd hinv.count hcount
  | cons x xs => exact ⟨x, xs, rfl⟩

/-- The object that comes off the reserve list. -/
def popped (b : CacheBytes) : CacheBytes :=
  { b with
    mem := (fusionListPopHead b.mem b.reservedList).1
    reservedCount := b.reservedCount - 1 }

theorem LayoutInv.pop {x : Nat} {xs : List Nat} (hinv : LayoutInv z b (x :: xs))
    (hz : z.Promised) (hroom : z.Roomy) :
    (fusionListPopHead b.mem b.reservedList).2 = x ∧
      LayoutInv z { popped b with held := x :: b.held } xs ∧
      LayoutInv z (kfioCacheFree (popped b) x) xs ∧
      ∀ y, (∀ p ∈ b.listed, y < p ∨ p + entrySize ≤ y) → (popped b).mem y = b.mem y := by
  obtain ⟨A, hi⟩ := hinv.books
  obtain ⟨hret, A', hpop⟩ := hi.pop (b.reservedCount - 1)
  obtain ⟨A'', hfree⟩ := hi.popFree (b.reservedCount - 1)
  obtain ⟨hshow, hsame⟩ := hinv.shows_popHead hz hroom hi
  have hcount : b.reservedCount - 1 = Int32.ofNat xs.length := by
    rw [hinv.count, List.length_cons, count_ofNat_pred]
  refine ⟨hsame.trans hret, ?_, ?_, hshow.within⟩
  · exact hinv.lift hshow hpop rfl rfl rfl rfl hcount (fun _ hq ↦ hq) fun _ hl ↦ hl
  · exact hinv.lift hshow hfree rfl rfl rfl rfl hcount (fun _ hq ↦ List.mem_of_mem_erase hq)
      fun _ hl ↦ hl

/-- The rounds of a release; entries that were not on a list before stay as they are. -/
theorem LayoutInv.release (n : Nat) (hinv : LayoutInv z b reserved) (hz : z.Promised)
    (hroom : z.Roomy) :
    (∃ reserved', LayoutInv z (cacheReleaseLoop b n).1 reserved') ∧
      ∀ y, (∀ p ∈ b.listed, y < p ∨ p + entrySize ≤ y) →
        (cacheReleaseLoop b n).1.mem y = b.mem y := by
  induction n generalizing b reserved with
  | zero => exact ⟨⟨reserved, hinv⟩, fun _ _ ↦ rfl⟩
  | succ n ih =>
      unfold cacheReleaseLoop
      by_cases hzero : b.reservedCount = 0
      · rw [if_pos hzero]
        exact ⟨⟨reserved, hinv⟩, fun _ _ ↦ rfl⟩
      · obtain ⟨x, xs, rfl⟩ := hinv.reserved_ne_nil hzero
        obtain ⟨hret, -, hfree, hmem⟩ := hinv.pop hz hroom
        rw [if_neg hzero]
        dsimp only
        rw [hret]
        obtain ⟨hrest, hsame⟩ := ih hfree
        refine ⟨hrest, fun y hy ↦ ?_⟩
        -- what is listed now was listed before
        have hlisted : (kfioCacheFree (popped b) x).listed ⊆ b.listed := by
          rintro p (hp | ⟨hlive, hheld⟩)
          · exact Or.inl hp
          · exact Or.inr ⟨List.mem_of_mem_erase hlive, hheld⟩
        exact (hsame y fun p hp ↦ hy p (hlisted hp)).trans (hmem y hy)

theorem LayoutInv.prealloc (hinv : LayoutInv z b reserved) (hz : z.Promised) (hroom : z.Roomy) :
    Advances z b (fusionCachePrealloc b).1 .prealloc := by
  unfold fusionCachePrealloc
  by_cases hzero : b.reservedCount = 0
  · rw [if_neg (not_not.mpr hzero)]
    exact ⟨⟨reserved, hinv⟩, untouched_of_mem_eq rfl⟩
  · obtain ⟨x, xs, rfl⟩ := hinv.reserved_ne_nil hzero
    obtain ⟨hret, hpop, -, hmem⟩ := hinv.pop hz hroom
    rw [if_pos hzero]
    dsimp only
    rw [hret]
    exact ⟨⟨xs, hpop⟩, hinv.untouched hz hroom (fun p hp ↦ hinv.listed_cases _ hp) hmem⟩

/-- The holder of an object gives it up. -/
theorem LayoutInv.free (hinv : LayoutInv z b reserved) (hz : z.Promised) (hroom : z.Roomy)
    {p : Nat} (hp : p ∈ b.held) (prealloc : Bool) :
    Advances z b (fusionCacheFree b p prealloc) (.free p prealloc) := by
  obtain ⟨A, hi⟩ := hinv.books
  cases prealloc with
  | false =>
      have hlift : LayoutInv z (fusionCacheFree b p false) reserved :=
        hinv.lift_same (hi.free hp) rfl rfl rfl rfl rfl hinv.count
          (fun _ hq ↦ List.mem_of_mem_erase hq) fun _ hl ↦ hl
      exact ⟨⟨reserved, hlift⟩, untouched_of_mem_eq rfl⟩
  | true =>
      have hlive := hi.live_of_held hp
      have hshow := hinv.shows_addHead hz hroom hi hlive hi.root_reserved
      have hcount : b.reservedCount + 1 = Int32.ofNat (p :: reserved).length := by
        rw [hinv.count, List.length_cons, Int32.ofNat_add]
        rfl
      have hlift : LayoutInv z (fusionCacheFree b p true) (p :: reserved) :=
        hinv.lift hshow (hi.putBack hp (b.reservedCount + 1)) rfl rfl rfl rfl hcount
          (fun _ hq ↦ hq) fun _ hl ↦ hl
      refine ⟨⟨_, hlift⟩, hinv.untouched hz hroom ?_ hshow.within⟩
      rintro a (rfl | ha)
      · exact Or.inr ⟨hinv.items a hlive, Or.inr rfl⟩
      · exact hinv.listed_cases _ ha

/-! ## Every step, and every run -/

theorem zoneStep_advances (hinv : LayoutInv z b reserved) (hz : z.Promised) (hroom : z.Roomy)
    {ev : ObjectEvent} (hstep : zoneStep z b ev = some b') : Advances z b b' ev := by
  cases ev with
  | reserve head n =>
      simp only [zoneStep, Option.ite_none_right_eq_some, Option.some.injEq] at hstep
      obtain ⟨hfree, rfl⟩ := hstep
      exact hinv.enter hz hroom n hfree
  | reserveAlloc k result =>
      simp only [zoneStep, Option.bind_eq_some_iff, Option.ite_none_right_eq_some,
        Option.some.injEq] at hstep
      obtain ⟨r, hk, ⟨hpc, hlt, hp⟩, rfl⟩ := hstep
      cases result with
      | none => exact hinv.fail hk hpc
      | some p => exact hinv.push hz hroom hk hpc hlt (hp p rfl).1 (hp p rfl).2
  | reserveCommit k =>
      simp only [zoneStep, Option.bind_eq_some_iff, Option.ite_none_right_eq_some,
        Option.some.injEq] at hstep
      obtain ⟨r, hk, ⟨hpc, hge⟩, rfl⟩ := hstep
      exact hinv.commit hz hroom hk hpc hge
  | reserveExit k =>
      simp only [zoneStep, Option.bind_eq_some_iff] at hstep
      obtain ⟨r, hk, hstep⟩ := hstep
      split at hstep
      · rename_i le next hpc
        cases hstep
        exact hinv.exit hk hpc
      · cases hstep
  | reserveAdvance k =>
      simp only [zoneStep, Option.bind_eq_some_iff] at hstep
      obtain ⟨r, hk, hstep⟩ := hstep
      split at hstep
      · rename_i next hpc
        cases hstep
        exact hinv.advance hk hpc
      · cases hstep
  | release n =>
      cases hstep
      obtain ⟨hrest, hmem⟩ := hinv.release n hz hroom
      exact ⟨hrest, hinv.untouched hz hroom (fun p hp ↦ hinv.listed_cases _ hp) hmem⟩
  | prealloc =>
      cases hstep
      exact hinv.prealloc hz hroom
  | alloc result =>
      simp only [zoneStep, Option.ite_none_right_eq_some, Option.some.injEq] at hstep
      obtain ⟨hp, rfl⟩ := hstep
      cases result with
      | none => exact ⟨⟨reserved, hinv⟩, untouched_of_mem_eq rfl⟩
      | some p =>
          obtain ⟨hitem, hfresh⟩ := hp p rfl
          refine ⟨⟨reserved, hinv.alloc hz hroom hitem hfresh⟩, ?_⟩
          intro q hq _ x hlo hhi _
          -- the new object is none of the live ones, so their bytes are as they were
          have hqp : q ≠ p := by
            rintro rfl
            exact hfresh hq
          exact hinv.alloc_mem hz hitem hq hqp hlo hhi fun _ ↦ 0
  | free p prealloc =>
      simp only [zoneStep, Option.ite_none_right_eq_some, Option.some.injEq] at hstep
      obtain ⟨hp, rfl⟩ := hstep
      exact hinv.free hz hroom hp prealloc
  | write p f =>
      simp only [zoneStep, Option.ite_none_right_eq_some, Option.some.injEq] at hstep
      obtain ⟨hp, rfl⟩ := hstep
      refine ⟨⟨reserved, hinv.write hz hroom hp f⟩, ?_⟩
      intro q hq hsub x hlo hhi _
      obtain ⟨A, hi⟩ := hinv.books
      have hqp : q ≠ p := by
        rintro rfl
        exact hsub rfl
      exact hinv.alloc_mem hz (hinv.items p (hi.live_of_held hp)) hq hqp hlo hhi f
  | other f =>
      cases hstep
      refine ⟨⟨reserved, hinv.other hroom f⟩, ?_⟩
      intro q hq _ x hlo hhi _
      exact if_pos (Or.inl ⟨q, hq, hlo, hhi⟩)

theorem objectStep_eq (hinv : LayoutInv z b reserved) (ev : ObjectEvent) :
    objectStep b ev = zoneStep z b ev := by
  unfold objectStep
  rw [hinv.zone]
  rfl

theorem objectStep_run {es : List ObjectEvent} (hinv : LayoutInv z b reserved) (hz : z.Promised)
    (hroom : z.Roomy) (hrun : run objectStep b es = some b') :
    ∃ reserved', LayoutInv z b' reserved' := by
  refine run_invariant (I := fun c ↦ ∃ reserved', LayoutInv z c reserved') ?_ ⟨reserved, hinv⟩ hrun
  rintro c ev c' ⟨r, hc⟩ hstep
  rw [objectStep_eq hc] at hstep
  exact (zoneStep_advances hc hz hroom hstep).1

/-! ## Which sizes and alignments are right -/

/-- The zone that `__kfio_create_cache` asks for. -/
def zoneOf (slabs : List Slab) (size : UInt32) : UmaZone := ⟨size.toNat, UMA_ALIGN_PTR, slabs⟩

/-- The arguments pass the checks, UMA lays the zone out as it promises, and the cache structure is
no part of it. -/
structure Admissible (slabs : List Slab) (l : Nat) (size align : UInt32) : Prop where
  allowed : Allowed size align
  promised : (zoneOf slabs size).Promised
  outside : (zoneOf slabs size).Outside l

variable {slabs : List Slab} {mem : Bytes} {l : Nat} {size align : UInt32}

/-- A new cache. -/
def created (slabs : List Slab) (mem : Bytes) (l : Nat) (size align : UInt32) : CacheBytes where
  mem := fusionInitList mem l
  p := some (zoneOf slabs size)
  size := size
  align := align
  reservedCount := 0
  reservedList := l
  live := []
  held := []
  reserves := []

theorem kfioCreateCache_allowed (h : Allowed size align) :
    kfioCreateCache (some slabs) mem l size align = .ok (0, created slabs mem l size align) := by
  obtain ⟨hsize, halign, hmod, hpow⟩ := h
  unfold kfioCreateCache
  rw [kassert, if_pos hsize, kassert, if_pos halign, kassert, if_pos hmod, kassert, if_pos hpow]
  rfl

theorem created_inv (h : Admissible slabs l size align) :
    LayoutInv (zoneOf slabs size) (created slabs mem l size align) [] := by
  obtain ⟨-, A, reserved, hi, hc⟩ := kfioCreateCache_balanced (entryAt mem) h.outside.1
  have hnil : reserved = [] := by
    have hlen : ((0 : Int32).toInt : Int) = reserved.length := hc
    rw [show (0 : Int32).toInt = 0 from by decide] at hlen
    exact List.length_eq_zero_iff.mp (by omega)
  rw [hnil] at hi
  have hout : ∀ a ∈ [l], (zoneOf slabs size).Outside a := by
    intro a ha
    rw [List.mem_singleton.mp ha]
    exact h.outside
  have hapart : ∀ a ∈ [l], ∀ a' ∈ [l], a ≠ a' → a + entrySize ≤ a' ∨ a' + entrySize ≤ a := by
    intro a ha a' ha' hne
    exact absurd ((List.mem_singleton.mp ha).trans (List.mem_singleton.mp ha').symm) hne
  have hnodes : Apart {l} := by
    refine ⟨fun p hp q hq hne ↦ ?_, fun p hp ↦ ?_⟩
    · exact hapart p (List.mem_singleton.mpr hp) q (List.mem_singleton.mpr hq) hne
    · have hbound := h.outside.2.1
      rw [Set.mem_singleton_iff.mp hp]
      unfold entrySize at hbound
      omega
  have hshow := (Shows.refl {l} {l} mem).initList hnodes (Set.Subset.refl _) (Set.mem_singleton l)
  refine ⟨rfl, ⟨A, booksOfBytes hi rfl rfl rfl rfl ?_⟩, rfl, ?_, hout, hapart⟩
  · rintro a (ha | ha)
    · exact hshow.entry a (List.mem_singleton.mp ha)
    · exact absurd ha List.not_mem_nil
  · intro p hp
    exact absurd hp List.not_mem_nil

/-- Each item of the zone can be the first to be handed out. -/
theorem LayoutSound.item (h : LayoutSound slabs mem l size align) (hallowed : Allowed size align)
    {p : Nat} (hp : p ∈ (zoneOf slabs size).items) :
    align.toNat ∣ p ∧ entrySize ≤ size.toNat := by
  obtain ⟨b₀, hcreate, hruns⟩ := h
  rw [kfioCreateCache_allowed hallowed] at hcreate
  cases hcreate
  have hstep : objectStep (created slabs mem l size align) (.alloc (some p)) =
      some (fusionCacheAlloc (zoneOf slabs size) (created slabs mem l size align) (some p)) := by
    show (if _ then _ else _) = _
    rw [if_pos]
    intro q hq
    rw [Option.mem_some_iff.mp hq.symm]
    exact ⟨hp, List.not_mem_nil⟩
  have hsound := hruns [.alloc (some p)] _ (run_cons_eq_some.mpr ⟨_, hstep, rfl⟩)
  have hinside := hsound.inside p List.mem_cons_self
  exact ⟨hsound.aligned p List.mem_cons_self, by omega⟩

/-- The first two items of a slab tell where all of them lie. -/
def SlabFits (slab : Slab) (stride size align : Nat) : Prop :=
  0 < slab.count → entrySize ≤ size ∧ align ∣ slab.start ∧ (1 < slab.count → align ∣ stride)

theorem items_of_slabFits
    (h : ∀ slab ∈ slabs, SlabFits slab (zoneOf slabs size).stride size.toNat align.toNat) {p : Nat}
    (hp : p ∈ (zoneOf slabs size).items) : align.toNat ∣ p ∧ entrySize ≤ size.toNat := by
  obtain ⟨slab, hslab, i, hi, rfl⟩ := UmaZone.mem_items.mp hp
  obtain ⟨hsize, hstart, hstride⟩ := h slab hslab (Nat.zero_lt_of_lt hi)
  refine ⟨?_, hsize⟩
  cases i with
  | zero =>
      rw [Nat.zero_mul]
      exact hstart
  | succ i =>
      have hmany : 1 < slab.count := Nat.lt_of_le_of_lt (Nat.succ_le_succ (Nat.zero_le i)) hi
      exact Nat.dvd_add hstart (Nat.dvd_mul_left_of_dvd (hstride hmany) _)

theorem LayoutInv.sound {b : CacheBytes} (hz : (zoneOf slabs size).Promised)
    (hfit : ∀ p ∈ (zoneOf slabs size).items, align.toNat ∣ p ∧ entrySize ≤ size.toNat)
    {reserved : List Addr} (hinv : LayoutInv (zoneOf slabs size) b reserved) :
    ObjectsSound size.toNat align.toNat b := by
  obtain ⟨A, hi⟩ := hinv.books
  have hroom : (zoneOf slabs size).Roomy := fun p hp ↦ Nat.add_le_add_left (hfit p hp).2 p
  refine ⟨?_, ?_, ⟨reserved, hi.contents, hinv.count, ?_, fun p hp ↦ hi.live_of_reserved hp⟩, ?_⟩
  · intro p hp
    exact (hfit p (hinv.items p (hi.live_of_held hp))).1
  · intro p hp
    exact hroom p (hinv.items p hp)
  · exact (List.nodup_append.mp hi.placesNodup).1
  · intro ev b' hstep
    rw [objectStep_eq hinv] at hstep
    exact (zoneStep_advances hinv hz hroom hstep).2

/-- Whatever the users of a cache do, its objects are as expected exactly if they are large enough
for a list entry and the alignment that was asked for happens to divide where a slab starts and,
when it has a second item, the distance to that one: the alignment itself goes nowhere. -/
theorem layoutSound_iff (h : Admissible slabs l size align) (mem : Bytes) :
    LayoutSound slabs mem l size align ↔
      ∀ slab ∈ slabs, SlabFits slab (zoneOf slabs size).stride size.toNat align.toNat := by
  constructor
  -- any item of the slab may be the first to be handed out
  · intro hsound slab hslab hpos
    have hitem : ∀ i < slab.count, align.toNat ∣ slab.start + i * (zoneOf slabs size).stride ∧
        entrySize ≤ size.toNat := by
      intro i hi
      exact hsound.item h.allowed (UmaZone.mem_items.mpr ⟨slab, hslab, i, hi, rfl⟩)
    obtain ⟨hfirst, hsize⟩ := hitem 0 hpos
    rw [Nat.zero_mul, Nat.add_zero] at hfirst
    refine ⟨hsize, hfirst, fun hmany ↦ ?_⟩
    have hsecond := (hitem 1 hmany).1
    rw [Nat.one_mul] at hsecond
    exact (Nat.dvd_add_right hfirst).mp hsecond
  -- entries fit into items, so the books are kept over the run
  · intro hfits
    refine ⟨_, kfioCreateCache_allowed h.allowed, ?_⟩
    intro es b hrun
    have hfit : ∀ p ∈ (zoneOf slabs size).items, align.toNat ∣ p ∧ entrySize ≤ size.toNat :=
      fun p hp ↦ items_of_slabFits hfits hp
    obtain ⟨reserved, hinv⟩ := objectStep_run (created_inv h) h.promised
      (fun p hp ↦ Nat.add_le_add_left (hfit p hp).2 p) hrun
    exact hinv.sound h.promised hfit

/-- One slab of items of 64 bytes. -/
theorem layoutSound_cacheLine :
    LayoutSound [⟨0x2000, 3⟩] (fun _ ↦ 0) 0x100 64 64 := by
  have hpromised : (zoneOf [⟨0x2000, 3⟩] 64).Promised := by
    refine ⟨?_, ?_, List.pairwise_singleton _ _⟩ <;> decide
  refine (layoutSound_iff ⟨by decide, hpromised, by decide⟩ _).mpr ?_
  intro slab hslab _
  rw [List.mem_singleton.mp hslab]
  decide

/-- The second of two objects of 24 bytes is not aligned to 16, and an object of one pointer has no
room for two. -/
theorem not_layoutSound_small :
    (Admissible [⟨0x1000, 2⟩] 0x100 24 16 ∧ ¬ LayoutSound [⟨0x1000, 2⟩] (fun _ ↦ 0) 0x100 24 16) ∧
      Admissible [⟨0x1000, 2⟩] 0x100 8 8 ∧ ¬ LayoutSound [⟨0x1000, 2⟩] (fun _ ↦ 0) 0x100 8 8 := by
  have hpromised : ∀ size : UInt32, size = 24 ∨ size = 8 →
      (zoneOf [⟨0x1000, 2⟩] size).Promised := by
    rintro size (rfl | rfl) <;> refine ⟨?_, ?_, List.pairwise_singleton _ _⟩ <;> decide
  refine ⟨⟨⟨by decide, hpromised 24 (Or.inl rfl), by decide⟩, ?_⟩,
    ⟨by decide, hpromised 8 (Or.inr rfl), by decide⟩, ?_⟩
  · intro h
    have hitem : 0x1018 ∈ (zoneOf [⟨0x1000, 2⟩] 24).items := by decide
    exact absurd (h.item (by decide) hitem).1 (by decide)
  · intro h
    have hitem : 0x1000 ∈ (zoneOf [⟨0x1000, 2⟩] 8).items := by decide
    exact absurd (h.item (by decide) hitem).2 (by decide)

end IomemoryVsl.Port.Bytewise
