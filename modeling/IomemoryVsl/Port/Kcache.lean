import IomemoryVsl.Lib.Run
import IomemoryVsl.Lib.Slots
import IomemoryVsl.Port.FusionListRefines

/-!
# `fio/port/kcache.h` — object caches with a reserve

An object of a cache doubles as a list entry while it is on the reserve list, or on the list that a
running `fusion_cache_reserve` builds on its own stack.  The functions run over the heap of those
entries.  What `cache->lock` protects is one step; the allocation loop of a reserve and the loop
that returns its objects take a step each time they allocate, free or advance.
-/

namespace IomemoryVsl.Port

open LinkedRing Transition

def ENOMEM : Int32 := 12

/-! ## State -/

/-- Where a running `fusion_cache_reserve` is. -/
inductive ReservePc where
  /-- at the test `i < n` -/
  | loop
  /-- in `error_exit`, at the test `le != &alloc_list` -/
  | exitTest (le next : Addr)
  /-- in `error_exit`, with `le` just freed -/
  | exitAdvance (next : Addr)
deriving DecidableEq, Repr

/-- A running `fusion_cache_reserve`, its `alloc_list` at `head`.  The objects it got from
`kfio_cache_alloc` (latest first) and those it gave back are recorded on the side. -/
structure Reserve where
  head : Addr
  n : Nat
  i : Nat
  pc : ReservePc
  allocated : List Addr
  returned : List Addr
deriving DecidableEq, Repr

/-- The objects a running reserve still has to place. -/
def Reserve.pending (r : Reserve) : List Addr :=
  r.allocated.drop r.returned.length

structure ReserveResult where
  n : Nat
  retval : Int32
  allocated : List Addr
  returned : List Addr
deriving DecidableEq, Repr

/-- A cache and everything that uses it.  `live` are the objects obtained from `kfio_cache_alloc`
and not given back, `held` those in the hands of callers, and `frees` logs every `kfio_cache_free`
with whether its argument was live. -/
structure CacheState where
  heap : Heap
  zone : Bool
  reservedCount : Int32
  reservedList : Addr
  live : List Addr
  held : List Addr
  reserves : List Reserve
  frees : List (Addr × Bool)
  results : List ReserveResult

/-- `kfio_create_cache`, for a cache structure whose `reserved_list` is at `l`. -/
def kfioCreateCache (h : Heap) (l : Addr) : CacheState where
  heap := fusionInitList h l
  zone := true
  reservedCount := 0
  reservedList := l
  live := []
  held := []
  reserves := []
  frees := []
  results := []

/-! ## The functions -/

/-- `kfio_cache_alloc` returning `p`, which the zone hands out zeroed (`M_ZERO`). -/
def kfioCacheAlloc (s : CacheState) (p : Addr) : CacheState :=
  { s with heap := Function.update s.heap p ⟨NULL, NULL⟩, live := p :: s.live }

def kfioCacheFree (s : CacheState) (p : Addr) : CacheState :=
  { s with live := s.live.erase p, frees := s.frees ++ [(p, decide (p ∈ s.live))] }

def kfioCacheDestroy (s : CacheState) : CacheState :=
  { s with zone := false }

/-- The loop of `fusion_cache_release`, `n` rounds before its end. -/
def cacheReleaseLoop (s : CacheState) : Nat → CacheState × Int32
  | 0 => (s, 0)
  | n + 1 =>
      if s.reservedCount = 0 then (s, -ENOMEM)
      else
        -- the lock is held over all the rounds
        let (heap, le) := fusionListPopHead s.heap s.reservedList
        let s := { s with heap := heap, reservedCount := s.reservedCount - 1 }
        cacheReleaseLoop (kfioCacheFree s le) n

def fusionCacheRelease (s : CacheState) (n : Nat) : CacheState × Int32 :=
  cacheReleaseLoop s n

/-- A reserved object, which the caller then holds, or `NULL`. -/
def fusionCachePrealloc (s : CacheState) : CacheState × Addr :=
  if s.reservedCount ≠ 0 then
    let (heap, retval) := fusionListPopHead s.heap s.reservedList
    ({ s with
        heap := heap
        reservedCount := s.reservedCount - 1
        held := retval :: s.held }, retval)
  else (s, NULL)

/-- `fusion_cache_alloc`, with what `kfio_cache_alloc` returned. -/
def fusionCacheAlloc (s : CacheState) : Option Addr → CacheState
  | some p =>
      let s := kfioCacheAlloc s p
      { s with held := p :: s.held }
  | none => s

/-- The caller gives up the object `p` that it holds. -/
def fusionCacheFree (s : CacheState) (p : Addr) (prealloc : Bool) : CacheState :=
  let s := { s with held := s.held.erase p }
  if prealloc then
    { s with
      heap := fusionListAddHead s.heap p s.reservedList
      reservedCount := s.reservedCount + 1 }
  else kfioCacheFree s p

/-- The loop of `fusion_cache_destroy`, `none` when `fuel` rounds are not enough. -/
def cacheDestroyLoop : Nat → CacheState → Addr → Addr → Option CacheState
  | 0, _, _, _ => none
  | fuel + 1, s, e, n =>
      if e = s.reservedList then some s
      else
        let s := { s with heap := fusionListDel s.heap e }
        let s := kfioCacheFree s e
        -- `n` was loaded before `e` was freed
        cacheDestroyLoop fuel s n (s.heap n).next

def fusionCacheDestroy (fuel : Nat) (s : CacheState) : Option CacheState :=
  let e := (s.heap s.reservedList).next
  let n := (s.heap e).next
  (cacheDestroyLoop fuel s e n).map kfioCacheDestroy

/-! ## The steps of a running reserve -/

/-- The entry of `fusion_cache_reserve`. -/
def cacheReserveEnter (s : CacheState) (head : Addr) (n : Nat) : CacheState :=
  { s with
    heap := fusionInitList s.heap head
    reserves := s.reserves ++ [⟨head, n, 0, .loop, [], []⟩] }

/-- One round of the allocation loop of the reserve `r` in slot `k`. -/
def cacheReserveAlloc (s : CacheState) (k : Nat) (r : Reserve) : Option Addr → CacheState
  | some le =>
      let s := kfioCacheAlloc s le
      { s with
        heap := fusionListAddHead s.heap le r.head
        reserves := s.reserves.set k { r with i := r.i + 1, allocated := le :: r.allocated } }
  | none =>
      -- goto error_exit
      let le := (s.heap r.head).next
      let next := (s.heap le).next
      { s with reserves := s.reserves.set k { r with pc := .exitTest le next } }

/-- The critical section and the return of a reserve that got all its objects. -/
def cacheReserveCommit (s : CacheState) (k : Nat) (r : Reserve) : CacheState :=
  { s with
    heap := fusionListAddList s.heap r.head s.reservedList
    reservedCount := s.reservedCount + Int32.ofNat r.n
    reserves := s.reserves.eraseIdx k
    results := s.results ++ [⟨r.n, 0, r.allocated, r.returned⟩] }

/-- The test of the loop at `error_exit`, and the free in its body or the return after it. -/
def cacheReserveExit (s : CacheState) (k : Nat) (r : Reserve) (le next : Addr) : CacheState :=
  if le = r.head then
    { s with
      reserves := s.reserves.eraseIdx k
      results := s.results ++ [⟨r.n, -ENOMEM, r.allocated, r.returned⟩] }
  else
    let s := kfioCacheFree s le
    { s with
      reserves := s.reserves.set k
        { r with pc := .exitAdvance next, returned := r.returned ++ [le] } }

/-- `le = next, next = le->next`. -/
def cacheReserveAdvance (s : CacheState) (k : Nat) (r : Reserve) (next : Addr) : CacheState :=
  { s with
    reserves := s.reserves.set k { r with pc := .exitTest next (s.heap next).next } }

/-! ## Every interleaving -/

inductive CacheEvent where
  | reserve (head : Addr) (n : Nat)
  | reserveAlloc (k : Nat) (result : Option Addr)
  | reserveCommit (k : Nat)
  | reserveExit (k : Nat)
  | reserveAdvance (k : Nat)
  | release (n : Nat)
  | prealloc
  | alloc (result : Option Addr)
  | free (p : Addr) (prealloc : Bool)
  | write (p : Addr) (v : FusionListEntry)

/-- The lists that are in scope. -/
def CacheState.heads (s : CacheState) : List Addr :=
  s.reservedList :: s.reserves.map Reserve.head

/-- Memory that neither the cache nor a running reserve is using. -/
def CacheState.Unused (s : CacheState) (p : Addr) : Prop :=
  p ≠ NULL ∧ p ∉ s.live ∧ p ∉ s.heads

instance (s : CacheState) (p : Addr) : Decidable (s.Unused p) :=
  inferInstanceAs (Decidable (_ ∧ _))

/-- One step of some caller.  The allocator returns memory that nothing uses, a caller frees only an
object it holds, and memory is written by whoever owns it: the holder of an object, or anyone else
outside the cache. -/
def cacheStep (s : CacheState) : CacheEvent → Option CacheState
  | .reserve head n => if s.Unused head then some (cacheReserveEnter s head n) else none
  | .reserveAlloc k result =>
      s.reserves[k]?.bind fun r ↦
        if r.pc = .loop ∧ r.i < r.n ∧ ∀ p ∈ result, s.Unused p then
          some (cacheReserveAlloc s k r result)
        else none
  | .reserveCommit k =>
      s.reserves[k]?.bind fun r ↦
        if r.pc = .loop ∧ ¬ r.i < r.n then some (cacheReserveCommit s k r) else none
  | .reserveExit k =>
      s.reserves[k]?.bind fun r ↦
        match r.pc with
        | .exitTest le next => some (cacheReserveExit s k r le next)
        | _ => none
  | .reserveAdvance k =>
      s.reserves[k]?.bind fun r ↦
        match r.pc with
        | .exitAdvance next => some (cacheReserveAdvance s k r next)
        | _ => none
  | .release n => some (fusionCacheRelease s n).1
  | .prealloc => some (fusionCachePrealloc s).1
  | .alloc result =>
      if ∀ p ∈ result, s.Unused p then some (fusionCacheAlloc s result) else none
  | .free p prealloc => if p ∈ s.held then some (fusionCacheFree s p prealloc) else none
  | .write p v =>
      if p ∈ s.held ∨ s.Unused p then some { s with heap := Function.update s.heap p v } else none

/-! ## What a state must account for -/

/-- The list with head `l` is well formed and consists of `xs`. -/
def Contents (h : Heap) (l : Addr) (xs : List Addr) : Prop :=
  IsRing h (l :: xs) ∧ (l :: xs).Nodup

/-- Following `next` from the first of `c` meets the rest of `c` in order. -/
def NextChain (h : Heap) (c : List Addr) : Prop :=
  List.IsChain (fun a b ↦ (h a).next = b) c

/-- The private list of a reserve is in memory what the side record says: a ring while objects are
added, and afterwards a chain that the loop variables walk. -/
def Reserve.InMemory (h : Heap) (r : Reserve) : Prop :=
  match r.pc with
  | .loop => Contents h r.head r.pending ∧ r.returned = [] ∧ r.allocated.length = r.i ∧ r.i ≤ r.n
  | .exitTest le next =>
      NextChain h (r.pending ++ [r.head]) ∧ le = r.pending.headD r.head ∧
        (r.pending ≠ [] → next = r.pending.tail.headD r.head)
  | .exitAdvance next => NextChain h (r.pending ++ [r.head]) ∧ next = r.pending.headD r.head

/-- What `fusion_cache_reserve` promises when it returns. -/
def ReserveResult.Sound (r : ReserveResult) : Prop :=
  r.retval = 0 ∧ r.allocated.length = r.n ∧ r.returned = [] ∨
    r.retval = -ENOMEM ∧ r.returned = r.allocated

/-- The books of a cache balance: the counter is the length of the reserve list, and every live
object is held, reserved or pending in a running reserve, once. -/
structure CacheSound (s : CacheState) (reserved : List Addr) : Prop where
  contents : Contents s.heap s.reservedList reserved
  count : s.reservedCount.toInt = reserved.length
  places : (s.held ++ reserved ++ s.reserves.flatMap Reserve.pending).Perm s.live
  nodup : s.live.Nodup
  running : ∀ r ∈ s.reserves, r.InMemory s.heap ∧ r.allocated = r.returned ++ r.pending
  frees : ∀ f ∈ s.frees, f.2 = true
  results : ∀ r ∈ s.results, r.Sound

end IomemoryVsl.Port
