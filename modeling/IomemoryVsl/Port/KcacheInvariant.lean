import IomemoryVsl.Port.Kcache

/-!
# The books of an object cache balance

Over any run of the users of a cache: what the lists in memory contain, what the counter says, and
where each live object is.
-/

namespace IomemoryVsl.Port

open LinkedRing Transition

/-! ## The invariant -/

/-- `Reserve.InMemory` without the ring, which is on record in the family of lists. -/
def Reserve.Walks (h : Heap) (r : Reserve) : Prop :=
  match r.pc with
  | .loop => r.returned = [] ∧ r.allocated.length = r.i ∧ r.i ≤ r.n
  | .exitTest le next =>
      NextChain h (r.pending ++ [r.head]) ∧ le = r.pending.headD r.head ∧
        (r.pending ≠ [] → next = r.pending.tail.headD r.head)
  | .exitAdvance next => NextChain h (r.pending ++ [r.head]) ∧ next = r.pending.headD r.head

/-- The lists in memory: the reserve list, and one for each reserve that still allocates. -/
def Roots (A : Seqs) (l : Addr) (reserved : List Addr) (reserves : List Reserve) : Prop :=
  ∀ a xs, A a = some xs ↔
    a = l ∧ xs = reserved ∨ ∃ r ∈ reserves, r.pc = .loop ∧ r.head = a ∧ r.allocated = xs

structure CacheInv (s : CacheState) (A : Seqs) (reserved : List Addr) : Prop where
  wf : WellFormed s.heap A
  roots : Roots A s.reservedList reserved s.reserves
  places : (s.held ++ reserved ++ s.reserves.flatMap Reserve.pending).Perm s.live
  nodup : s.live.Nodup
  heads : s.heads.Nodup
  apart : ∀ l ∈ s.heads, l ≠ NULL ∧ l ∉ s.live
  null : NULL ∉ s.live
  running : ∀ r ∈ s.reserves, r.Walks s.heap ∧ r.allocated = r.returned ++ r.pending
  frees : ∀ f ∈ s.frees, f.2 = true
  results : ∀ r ∈ s.results, r.Sound

variable {s : CacheState} {A : Seqs} {reserved : List Addr} {h h' : Heap}

theorem nextChain_congr {c : List Addr} {l : Addr} (hc : NextChain h (c ++ [l]))
    (heq : ∀ a ∈ c, h' a = h a) : NextChain h' (c ++ [l]) := by
  unfold NextChain at hc ⊢
  induction c with
  | nil => exact List.IsChain.singleton l
  | cons a c ih =>
      have hhead : (h' a).next = (h a).next := by rw [heq a List.mem_cons_self]
      cases c with
      | nil =>
          rw [List.cons_append, List.nil_append, List.isChain_cons_cons] at hc ⊢
          rw [hhead]
          exact ⟨hc.1, List.IsChain.singleton l⟩
      | cons b c =>
          rw [List.cons_append, List.cons_append, List.isChain_cons_cons] at hc ⊢
          rw [hhead]
          refine ⟨hc.1, ih hc.2 ?_⟩
          intro x hx
          exact heq x (List.mem_cons_of_mem a hx)

/-- The loop variables of a reserve only read the objects it still has to place. -/
theorem Reserve.Walks.congr {r : Reserve} (hw : r.Walks h)
    (heq : r.pc ≠ .loop → ∀ a ∈ r.pending, h' a = h a) : r.Walks h' := by
  unfold Reserve.Walks at hw ⊢
  cases hpc : r.pc with
  | loop =>
      rw [hpc] at hw
      exact hw
  | exitTest le next =>
      rw [hpc] at hw
      have hne : r.pc ≠ .loop := by
        rw [hpc]
        exact fun heq ↦ by cases heq
      exact ⟨nextChain_congr hw.1 (heq hne), hw.2⟩
  | exitAdvance next =>
      rw [hpc] at hw
      have hne : r.pc ≠ .loop := by
        rw [hpc]
        exact fun heq ↦ by cases heq
      exact ⟨nextChain_congr hw.1 (heq hne), hw.2⟩

theorem Reserve.Walks.loop {r : Reserve} (hw : r.Walks h) (hpc : r.pc = .loop) :
    r.returned = [] ∧ r.allocated.length = r.i ∧ r.i ≤ r.n := by
  unfold Reserve.Walks at hw
  rw [hpc] at hw
  exact hw

theorem Reserve.pending_of_returned_nil {r : Reserve} (hr : r.returned = []) :
    r.pending = r.allocated := by
  unfold Reserve.pending
  rw [hr]
  rfl

/-! ### Who owns what -/

theorem CacheInv.placesNodup (hi : CacheInv s A reserved) :
    (s.held ++ reserved ++ s.reserves.flatMap Reserve.pending).Nodup :=
  hi.places.nodup_iff.mpr hi.nodup

theorem CacheInv.owns (hi : CacheInv s A reserved) {l a : Addr} (h : Owns A l a) :
    a ∈ s.heads ∨ a ∈ reserved ∨ ∃ r ∈ s.reserves, r.pc = .loop ∧ a ∈ r.pending := by
  obtain ⟨xs, hl, ha⟩ := h
  rcases (hi.roots l xs).mp hl with ⟨rfl, rfl⟩ | ⟨r, hr, hpc, rfl, rfl⟩
  · rcases List.mem_cons.mp ha with rfl | ha
    · exact Or.inl List.mem_cons_self
    · exact Or.inr (Or.inl ha)
  · rcases List.mem_cons.mp ha with rfl | ha
    · exact Or.inl (List.mem_cons_of_mem _ (List.mem_map_of_mem hr))
    · -- while it allocates, a reserve has given nothing back
      refine Or.inr (Or.inr ⟨r, hr, hpc, ?_⟩)
      rw [Reserve.pending_of_returned_nil ((hi.running r hr).1.loop hpc).1]
      exact ha

theorem CacheInv.live_of_reserved (hi : CacheInv s A reserved) {a : Addr} (ha : a ∈ reserved) :
    a ∈ s.live := by
  apply hi.places.subset
  simp [ha]

theorem CacheInv.live_of_pending (hi : CacheInv s A reserved) {r : Reserve} {a : Addr}
    (hr : r ∈ s.reserves) (ha : a ∈ r.pending) : a ∈ s.live := by
  apply hi.places.subset
  rw [List.mem_append, List.mem_flatMap]
  exact Or.inr ⟨r, hr, ha⟩

theorem CacheInv.live_of_held (hi : CacheInv s A reserved) {a : Addr} (ha : a ∈ s.held) :
    a ∈ s.live := by
  apply hi.places.subset
  simp [ha]

theorem CacheInv.unused_not_owns (hi : CacheInv s A reserved) {p : Addr} (hp : s.Unused p)
    (l : Addr) : ¬ Owns A l p := by
  intro h
  rcases hi.owns h with hh | hr | ⟨r, hr, -, hpr⟩
  · exact hp.2.2 hh
  · exact hp.2.1 (hi.live_of_reserved hr)
  · exact hp.2.1 (hi.live_of_pending hr hpr)

theorem CacheInv.held_not_owns (hi : CacheInv s A reserved) {p : Addr} (hp : p ∈ s.held)
    (l : Addr) : ¬ Owns A l p := by
  intro h
  have hnd := hi.placesNodup
  rw [List.append_assoc, List.nodup_append'] at hnd
  rcases hi.owns h with hh | hr | ⟨r, hr, -, hpr⟩
  · exact (hi.apart p hh).2 (hi.live_of_held hp)
  · exact hnd.2.2 hp (List.mem_append_left _ hr)
  · exact hnd.2.2 hp (List.mem_append_right _ (List.mem_flatMap.mpr ⟨r, hr, hpr⟩))

theorem CacheInv.pending_not_held (hi : CacheInv s A reserved) {r : Reserve} {a : Addr}
    (hr : r ∈ s.reserves) (ha : a ∈ r.pending) : a ∉ s.held := by
  intro hh
  have hnd := hi.placesNodup
  rw [List.append_assoc, List.nodup_append'] at hnd
  exact hnd.2.2 hh (List.mem_append_right _ (List.mem_flatMap.mpr ⟨r, hr, ha⟩))

/-- The objects of a reserve that is giving them back are on no list any more. -/
theorem CacheInv.pending_not_owns (hi : CacheInv s A reserved) {r : Reserve} {a : Addr}
    (hr : r ∈ s.reserves) (hpc : r.pc ≠ .loop) (ha : a ∈ r.pending) (l : Addr) :
    ¬ Owns A l a := by
  intro h
  have hnd := hi.placesNodup
  rw [List.nodup_append'] at hnd
  rcases hi.owns h with hh | hres | ⟨q, hq, hqpc, haq⟩
  · exact (hi.apart a hh).2 (hi.live_of_pending hr ha)
  · exact hnd.2.2 (List.mem_append_right _ hres) (List.mem_flatMap.mpr ⟨r, hr, ha⟩)
  · -- `q` allocates and `r` does not, so they are two reserves and share no object
    obtain ⟨us, vs, hsplit⟩ := List.append_of_mem hr
    have hmem : q ∈ us ++ vs := by
      rw [hsplit] at hq
      rcases List.mem_append.mp hq with hu | hv
      · exact List.mem_append_left vs hu
      · rcases List.mem_cons.mp hv with rfl | hv
        · exact absurd hqpc hpc
        · exact List.mem_append_right us hv
    exact Slots.disjoint_of_nodup hnd.2.1 hsplit hmem ha haq

/-- A heap that agrees wherever a reserve is still walking. -/
theorem CacheInv.walks_of_keep (hi : CacheInv s A reserved)
    (hkeep : ∀ a ∈ s.live, a ∉ s.held → (∀ l, ¬ Owns A l a) → h' a = s.heap a) :
    ∀ r ∈ s.reserves, r.Walks h' ∧ r.allocated = r.returned ++ r.pending := by
  intro r hr
  refine ⟨(hi.running r hr).1.congr ?_, (hi.running r hr).2⟩
  intro hpc a ha
  exact hkeep a (hi.live_of_pending hr ha) (hi.pending_not_held hr ha)
    (hi.pending_not_owns hr hpc ha)

theorem CacheInv.root_reserved (hi : CacheInv s A reserved) : A s.reservedList = some reserved :=
  (hi.roots _ _).mpr (Or.inl ⟨rfl, rfl⟩)

theorem CacheInv.root_loop (hi : CacheInv s A reserved) {r : Reserve} (hr : r ∈ s.reserves)
    (hpc : r.pc = .loop) : A r.head = some r.allocated :=
  (hi.roots _ _).mpr (Or.inr ⟨r, hr, hpc, rfl, rfl⟩)

/-! ### Changing the family of lists -/

/-- What a reserve contributes to the lists in memory. -/
def Reserve.ring (r : Reserve) : Option (List Addr) :=
  if r.pc = .loop then some r.allocated else none

theorem Reserve.ring_eq_some {r : Reserve} {xs : List Addr} :
    r.ring = some xs ↔ r.pc = .loop ∧ r.allocated = xs := by
  unfold Reserve.ring
  split_ifs with hpc
  · simp [hpc]
  · simp [hpc]

theorem Roots.cacheList {l : Addr} {reserves : List Reserve} (hr : Roots A l reserved reserves)
    (hnd : (l :: reserves.map Reserve.head).Nodup) (xs : List Addr) :
    Roots (Function.update A l (some xs)) l xs reserves := by
  intro a ys
  by_cases hal : a = l
  · subst hal
    rw [Function.update_self, Option.some.injEq]
    constructor
    · rintro rfl
      exact Or.inl ⟨rfl, rfl⟩
    · rintro (⟨-, rfl⟩ | ⟨r, hmem, -, rfl, -⟩)
      · rfl
      · exact absurd (List.mem_map_of_mem hmem) (List.nodup_cons.mp hnd).1
  · rw [Function.update_of_ne hal, hr a ys]
    simp [hal]

/-- Other reserves have other heads. -/
theorem head_ne_of_nodup {l : Addr} {us vs : List Reserve} {r q : Reserve}
    (hnd : (l :: (us ++ r :: vs).map Reserve.head).Nodup) (hq : q ∈ us ++ vs) :
    q.head ≠ r.head := by
  intro heq
  have h1 := (List.nodup_cons.mp hnd).2
  rw [List.map_append, List.map_cons, List.nodup_middle, List.nodup_cons] at h1
  apply h1.1
  rw [← heq, ← List.map_append]
  exact List.mem_map_of_mem hq

theorem Roots.set {l : Addr} {us vs : List Reserve} {r r' : Reserve}
    (hr : Roots A l reserved (us ++ r :: vs))
    (hnd : (l :: (us ++ r :: vs).map Reserve.head).Nodup) (hhead : r'.head = r.head) :
    Roots (Function.update A r.head r'.ring) l reserved (us ++ r' :: vs) := by
  have hl : l ≠ r.head := by
    rintro rfl
    exact (List.nodup_cons.mp hnd).1 (List.mem_map_of_mem (by simp))
  intro a xs
  by_cases ha : a = r.head
  · subst ha
    rw [Function.update_self, Reserve.ring_eq_some]
    constructor
    · rintro ⟨hpc, hxs⟩
      exact Or.inr ⟨r', by simp, hpc, hhead, hxs⟩
    · rintro (⟨heq, -⟩ | ⟨q, hq, hpc, hqh, hxs⟩)
      · exact absurd heq.symm hl
      · have hqr : q = r' := by
          by_contra hne
          have hmem : q ∈ us ++ vs := by
            simp only [List.mem_append, List.mem_cons] at hq ⊢
            tauto
          exact head_ne_of_nodup hnd hmem hqh
        subst hqr
        exact ⟨hpc, hxs⟩
  · rw [Function.update_of_ne ha, hr a xs]
    -- away from the head of the slot, what is in the slot does not matter
    have hiff : ∀ q0 : Reserve, q0.head = r.head →
        ((∃ q ∈ us ++ q0 :: vs, q.pc = .loop ∧ q.head = a ∧ q.allocated = xs) ↔
          ∃ q ∈ us ++ vs, q.pc = .loop ∧ q.head = a ∧ q.allocated = xs) := by
      intro q0 hq0
      constructor
      · rintro ⟨q, hq, hpc, hqa, hxs⟩
        refine ⟨q, ?_, hpc, hqa, hxs⟩
        simp only [List.mem_append, List.mem_cons] at hq ⊢
        rcases hq with hu | rfl | hv
        · exact Or.inl hu
        · exact absurd (hqa.symm.trans hq0) ha
        · exact Or.inr hv
      · rintro ⟨q, hq, hrest⟩
        refine ⟨q, ?_, hrest⟩
        simp only [List.mem_append, List.mem_cons] at hq ⊢
        tauto
    rw [hiff r rfl, hiff r' hhead]

theorem Roots.erase {l : Addr} {us vs : List Reserve} {r : Reserve}
    (hr : Roots A l reserved (us ++ r :: vs))
    (hnd : (l :: (us ++ r :: vs).map Reserve.head).Nodup) :
    Roots (Function.update A r.head none) l reserved (us ++ vs) := by
  -- a reserve that has stopped allocating contributes no list, so it may as well be gone
  let r' : Reserve := { r with pc := .exitAdvance NULL }
  have hset : Roots (Function.update A r.head r'.ring) l reserved (us ++ r' :: vs) :=
    hr.set hnd rfl
  intro a xs
  refine (hset a xs).trans ?_
  refine or_congr_right ?_
  constructor
  · rintro ⟨q, hq, hpc, hrest⟩
    refine ⟨q, ?_, hpc, hrest⟩
    simp only [List.mem_append, List.mem_cons] at hq ⊢
    rcases hq with hu | rfl | hv
    · exact Or.inl hu
    · cases hpc
    · exact Or.inr hv
  · rintro ⟨q, hq, hrest⟩
    refine ⟨q, ?_, hrest⟩
    simp only [List.mem_append, List.mem_cons] at hq ⊢
    tauto

/-! ### One lemma for each thing a step does -/

/-- The owner of an object, or of memory outside the cache, writes it. -/
theorem CacheInv.write (hi : CacheInv s A reserved) {p : Addr} (v : FusionListEntry)
    (hp : p ∈ s.held ∨ s.Unused p) :
    CacheInv { s with heap := Function.update s.heap p v } A reserved where
  wf := hi.wf.poke fun l ↦ hp.elim (fun hh ↦ hi.held_not_owns hh l) fun hu ↦ hi.unused_not_owns hu l
  roots := hi.roots
  places := hi.places
  nodup := hi.nodup
  heads := hi.heads
  apart := hi.apart
  null := hi.null
  running := by
    apply hi.walks_of_keep
    intro a ha hheld _
    apply Function.update_of_ne
    rintro rfl
    rcases hp with hh | hu
    · exact hheld hh
    · exact hu.2.1 ha
  frees := hi.frees
  results := hi.results

/-- A new object, zeroed, in the hands of the caller that asked for it. -/
theorem CacheInv.alloc (hi : CacheInv s A reserved) {p : Addr} (hp : s.Unused p) :
    CacheInv { kfioCacheAlloc s p with held := p :: s.held } A reserved where
  wf := (hi.write _ (Or.inr hp)).wf
  roots := hi.roots
  places := hi.places.cons p
  nodup := List.nodup_cons.mpr ⟨hp.2.1, hi.nodup⟩
  heads := hi.heads
  apart l hl := by
    refine ⟨(hi.apart l hl).1, ?_⟩
    intro hmem
    rcases List.mem_cons.mp hmem with rfl | hmem
    · exact hp.2.2 hl
    · exact (hi.apart l hl).2 hmem
  null hmem := by
    rcases List.mem_cons.mp hmem with heq | hmem
    · exact hp.1 heq.symm
    · exact hi.null hmem
  running := (hi.write _ (Or.inr hp)).running
  frees := hi.frees
  results := hi.results

/-- Giving a held object to `kfio_cache_free`. -/
theorem CacheInv.free (hi : CacheInv s A reserved) {p : Addr} (hp : p ∈ s.held) :
    CacheInv { kfioCacheFree s p with held := s.held.erase p } A reserved where
  wf := hi.wf
  roots := hi.roots
  places := by
    have hpl := hi.places
    rw [List.append_assoc] at hpl ⊢
    have herase := hpl.erase p
    rw [List.erase_append_left _ hp] at herase
    exact herase
  nodup := hi.nodup.erase p
  heads := hi.heads
  apart l hl := ⟨(hi.apart l hl).1, fun hmem ↦ (hi.apart l hl).2 (List.mem_of_mem_erase hmem)⟩
  null hmem := hi.null (List.mem_of_mem_erase hmem)
  running := hi.running
  frees f hf := by
    rcases List.mem_append.mp hf with hf | hf
    · exact hi.frees f hf
    · rw [List.mem_singleton] at hf
      subst hf
      exact decide_eq_true (hi.live_of_held hp)
  results := hi.results

/-- A held object becomes the head of the reserve list. -/
theorem CacheInv.putBack (hi : CacheInv s A reserved) {p : Addr} (hp : p ∈ s.held) (c : Int32) :
    CacheInv
      { s with
        held := s.held.erase p
        heap := fusionListAddHead s.heap p s.reservedList
        reservedCount := c }
      (Function.update A s.reservedList (some (p :: reserved))) (p :: reserved) where
  wf := by
    -- a live object is not null, and the one that is put back is on no list yet
    have hne : p ≠ NULL := by
      rintro rfl
      exact hi.null (hi.live_of_held hp)
    exact (hi.wf.addHead hne (hi.held_not_owns hp) hi.root_reserved).1
  roots := hi.roots.cacheList hi.heads _
  places := by
    refine List.Perm.trans ?_ hi.places
    refine List.Perm.append_right _ ?_
    refine List.perm_middle.trans ?_
    rw [← List.cons_append]
    exact (List.perm_cons_erase hp).symm.append_right _
  nodup := hi.nodup
  heads := hi.heads
  apart := hi.apart
  null := hi.null
  running := by
    apply hi.walks_of_keep
    intro a ha hheld hnot
    apply fusionListAddHead_of_not_owns hi.wf hi.root_reserved (hnot _)
    rintro rfl
    exact hheld hp
  frees := hi.frees
  results := hi.results

/-- The head of the reserve list goes to the caller that popped it. -/
theorem CacheInv.pop {x : Addr} {xs : List Addr} (hi : CacheInv s A (x :: xs)) (c : Int32) :
    (fusionListPopHead s.heap s.reservedList).2 = x ∧
      ∃ A', CacheInv
        { s with
          heap := (fusionListPopHead s.heap s.reservedList).1
          reservedCount := c
          held := x :: s.held } A' xs := by
  obtain ⟨hret, hw, -⟩ := fusionListPopHead_cons hi.wf hi.root_reserved
  have hlive : x ∈ s.live := hi.live_of_reserved List.mem_cons_self
  have hxnone : Function.update A s.reservedList (some xs) x = none := by
    have hx : x ≠ s.reservedList := by
      rintro rfl
      exact (hi.apart _ List.mem_cons_self).2 hlive
    rw [Function.update_of_ne hx]
    rcases hA : A x with _ | ys
    · rfl
    · -- a root of the family is a list head, and no list head is an object
      exfalso
      rcases (hi.roots x ys).mp hA with ⟨heq, -⟩ | ⟨r, hr, -, rfl, -⟩
      · exact hx heq
      · exact (hi.apart _ (List.mem_cons_of_mem _ (List.mem_map_of_mem hr))).2 hlive
  refine ⟨hret, Function.update A s.reservedList (some xs), ?_, ?_, ?_, hi.nodup, hi.heads,
    hi.apart, hi.null, ?_, hi.frees, hi.results⟩
  · -- the popped entry is left pointing to itself, and is forgotten as a list of its own
    have hdrop := hw.drop x
    rw [Function.update_idem, ← hxnone, Function.update_eq_self] at hdrop
    exact hdrop
  · exact hi.roots.cacheList hi.heads xs
  · refine List.Perm.trans ?_ hi.places
    refine List.Perm.append_right _ ?_
    exact List.perm_middle.symm
  · -- what a reserve walks is not on the reserve list, so the deletion does not write it
    apply hi.walks_of_keep
    intro a _ _ hnot
    have hx : Owns A s.reservedList x := owns_mem hi.root_reserved List.mem_cons_self
    have hempty : ¬ fusionListEmpty s.heap s.reservedList = true := by
      rw [fusionListEmpty_iff hi.wf hi.root_reserved]
      exact List.cons_ne_nil x xs
    unfold fusionListPopHead at hret ⊢
    rw [if_pos hempty] at hret ⊢
    change (s.heap s.reservedList).next = x at hret
    change fusionListDel s.heap (s.heap s.reservedList).next a = s.heap a
    rw [hret]
    exact fusionListDel_of_not_owns hi.wf hx (hnot _)

/-- A reserve starts with an empty list on its stack. -/
theorem CacheInv.enter (hi : CacheInv s A reserved) {head : Addr} (n : Nat)
    (hh : s.Unused head) :
    CacheInv (cacheReserveEnter s head n) (Function.update A head (some [])) reserved where
  wf := (hi.wf.initList hh.1 (hi.unused_not_owns hh)).1
  roots a xs := by
    have hroots := hi.roots a xs
    by_cases ha : a = head
    · subst ha
      rw [Function.update_self, Option.some.injEq]
      constructor
      · rintro rfl
        exact Or.inr ⟨⟨a, n, 0, .loop, [], []⟩, by simp [cacheReserveEnter], rfl, rfl, rfl⟩
      · rintro (⟨heq, -⟩ | ⟨r, hr, hpc, rfl, rfl⟩)
        · have hmem : a ∈ s.heads := by
            rw [heq]
            exact List.mem_cons_self
          exact absurd hmem hh.2.2
        · rcases List.mem_append.mp hr with hr | hr
          · exact absurd (List.mem_cons_of_mem _ (List.mem_map_of_mem hr)) hh.2.2
          · rw [List.mem_singleton] at hr
            rw [hr]
    · rw [Function.update_of_ne ha, hroots]
      refine or_congr_right ?_
      constructor
      · rintro ⟨r, hr, hrest⟩
        exact ⟨r, List.mem_append_left _ hr, hrest⟩
      · rintro ⟨r, hr, hpc, hra, hxs⟩
        rcases List.mem_append.mp hr with hr | hr
        · exact ⟨r, hr, hpc, hra, hxs⟩
        · rw [List.mem_singleton] at hr
          subst hr
          exact absurd hra.symm ha
  places := by
    -- the new reserve has nothing to place yet
    have hnew : (s.reserves ++ [(⟨head, n, 0, .loop, [], []⟩ : Reserve)]).flatMap
        Reserve.pending = s.reserves.flatMap Reserve.pending := by
      rw [List.flatMap_append]
      exact List.append_nil _
    change (s.held ++ reserved ++ List.flatMap Reserve.pending (s.reserves ++ _)).Perm s.live
    rw [hnew]
    exact hi.places
  nodup := hi.nodup
  heads := by
    have hnd := hi.heads
    unfold CacheState.heads cacheReserveEnter
    rw [List.map_append, ← List.cons_append, List.nodup_append']
    -- the head is unused, so it is none of those that are there
    refine ⟨hnd, List.nodup_singleton head, ?_⟩
    intro a ha hb
    have hah : a = head := List.mem_singleton.mp hb
    rw [hah] at ha
    exact hh.2.2 ha
  apart l hl := by
    unfold CacheState.heads cacheReserveEnter at hl
    rw [List.map_append, ← List.cons_append, List.mem_append] at hl
    rcases hl with hl | hl
    · exact hi.apart l hl
    · rw [List.map_cons, List.map_nil, List.mem_singleton] at hl
      subst hl
      exact ⟨hh.1, hh.2.1⟩
  null := hi.null
  running r hr := by
    rcases List.mem_append.mp hr with hr | hr
    · refine hi.walks_of_keep ?_ r hr
      intro a ha _ _
      apply fusionListInit_of_ne
      rintro rfl
      exact hh.2.1 ha
    · rw [List.mem_singleton] at hr
      subst hr
      exact ⟨⟨rfl, rfl, Nat.zero_le n⟩, rfl⟩
  frees := hi.frees
  results := hi.results

/-! ### Steps of one reserve -/

/-- A reserve in its slot moves on: what it held and what it had to place are shared out anew, and
the other reserves see no change. -/
theorem CacheInv.setSlot (hi : CacheInv s A reserved) {k : Nat} {r : Reserve} (r' : Reserve)
    (heap : Heap) (held : List Addr) (hk : s.reserves[k]? = some r) (hhead : r'.head = r.head)
    (hwf : WellFormed heap (Function.update A r.head r'.ring))
    (hplaces : (held ++ r'.pending).Perm (s.held ++ r.pending))
    (hkeep : ∀ a ∈ s.live, a ∉ s.held → (∀ l, ¬ Owns A l a) → heap a = s.heap a)
    (hwalk : r'.Walks heap ∧ r'.allocated = r'.returned ++ r'.pending) :
    CacheInv { s with heap := heap, held := held, reserves := s.reserves.set k r' }
      (Function.update A r.head r'.ring) reserved := by
  obtain ⟨us, vs, hsplit, hset, -⟩ := Slots.exists_split hk
  have hheads : (us ++ r' :: vs).map Reserve.head = s.reserves.map Reserve.head := by
    rw [hsplit, List.map_append, List.map_append, List.map_cons, List.map_cons, hhead]
  have hnd := hi.heads
  have hroots := hi.roots
  unfold CacheState.heads at hnd
  rw [hsplit] at hnd hroots
  have hsame : CacheState.heads { s with heap := heap, held := held, reserves := us ++ r' :: vs } =
      s.heads := by
    unfold CacheState.heads
    rw [hheads]
  rw [hset r']
  refine ⟨hwf, hroots.set hnd hhead, ?_, hi.nodup, ?_, ?_, hi.null, ?_, hi.frees, hi.results⟩
  · have hpl := hi.places
    rw [hsplit] at hpl
    -- both are statements about how often an object occurs
    rw [List.perm_iff_count] at hplaces hpl ⊢
    intro a
    have h1 := hplaces a
    have h2 := hpl a
    simp only [List.count_append, List.flatMap_append, List.flatMap_cons] at h1 h2 ⊢
    omega
  · rw [hsame]
    exact hi.heads
  · intro l hl
    rw [hsame] at hl
    exact hi.apart l hl
  · intro q hq
    change q ∈ us ++ r' :: vs at hq
    rcases List.mem_append.mp hq with hu | hv
    · exact hi.walks_of_keep hkeep q (by rw [hsplit]; exact List.mem_append_left _ hu)
    · rcases List.mem_cons.mp hv with rfl | hv
      · exact hwalk
      · refine hi.walks_of_keep hkeep q ?_
        rw [hsplit]
        exact List.mem_append_right _ (List.mem_cons_of_mem _ hv)

/-- A reserve returns; what it still had to place is on the reserve list. -/
theorem CacheInv.eraseSlot (hi : CacheInv s A reserved) {k : Nat} {r : Reserve} {heap : Heap}
    (xs : List Addr) {c : Int32} {res : ReserveResult} (hk : s.reserves[k]? = some r)
    (hwf : WellFormed heap
      (Function.update (Function.update A s.reservedList (some xs)) r.head none))
    (hplaces : xs.Perm (reserved ++ r.pending))
    (hkeep : ∀ q ∈ s.reserves, q.pc ≠ .loop → ∀ a ∈ q.pending, heap a = s.heap a)
    (hres : res.Sound) :
    CacheInv
      { s with
        heap := heap
        reservedCount := c
        reserves := s.reserves.eraseIdx k
        results := s.results ++ [res] }
      (Function.update (Function.update A s.reservedList (some xs)) r.head none) xs := by
  obtain ⟨us, vs, hsplit, -, herase⟩ := Slots.exists_split hk
  have hnd := hi.heads
  have hroots := hi.roots
  unfold CacheState.heads at hnd
  rw [hsplit] at hnd hroots
  have hsub : ∀ q, q ∈ us ++ vs → q ∈ s.reserves := by
    intro q hq
    rw [hsplit]
    simp only [List.mem_append, List.mem_cons] at hq ⊢
    tauto
  rw [herase]
  refine ⟨hwf, (hroots.cacheList hnd xs).erase hnd, ?_, hi.nodup, ?_, ?_, hi.null, ?_, hi.frees,
    ?_⟩
  · have hpl := hi.places
    rw [hsplit] at hpl
    rw [List.perm_iff_count] at hplaces hpl ⊢
    intro a
    have h1 := hplaces a
    have h2 := hpl a
    simp only [List.count_append, List.flatMap_append, List.flatMap_cons] at h1 h2 ⊢
    omega
  · refine List.Nodup.sublist ?_ hnd
    change (s.reservedList :: (us ++ vs).map Reserve.head).Sublist _
    rw [List.map_append, List.map_append]
    exact ((List.sublist_cons_self _ _).map _).append_left _ |>.cons_cons _
  · intro l hl
    apply hi.apart l
    rcases List.mem_cons.mp hl with rfl | hl
    · exact List.mem_cons_self
    · obtain ⟨q, hq, rfl⟩ := List.mem_map.mp hl
      exact List.mem_cons_of_mem _ (List.mem_map_of_mem (hsub q hq))
  · intro q hq
    have hmem := hsub q hq
    refine ⟨(hi.running q hmem).1.congr (hkeep q hmem), (hi.running q hmem).2⟩
  · intro q hq
    rcases List.mem_append.mp hq with hq | hq
    · exact hi.results q hq
    · rw [List.mem_singleton] at hq
      subst hq
      exact hres

/-- An object that has just been allocated goes on the private list. -/
theorem CacheInv.push (hi : CacheInv s A reserved) {k : Nat} {r : Reserve} {p : Addr}
    (hk : s.reserves[k]? = some r) (hpc : r.pc = .loop) (hlt : r.i < r.n) (hp : p ∈ s.held) :
    CacheInv
      { s with
        heap := fusionListAddHead s.heap p r.head
        held := s.held.erase p
        reserves := s.reserves.set k { r with i := r.i + 1, allocated := p :: r.allocated } }
      (Function.update A r.head (some (p :: r.allocated))) reserved := by
  have hmem : r ∈ s.reserves := List.mem_of_getElem? hk
  have hroot := hi.root_loop hmem hpc
  obtain ⟨hret, hlen, hle⟩ := (hi.running r hmem).1.loop hpc
  have hne : p ≠ NULL := by
    rintro rfl
    exact hi.null (hi.live_of_held hp)
  let r' : Reserve := { r with i := r.i + 1, allocated := p :: r.allocated }
  have hring : r'.ring = some (p :: r.allocated) := if_pos hpc
  have hpend : r'.pending = p :: r.pending := by
    rw [Reserve.pending_of_returned_nil hret]
    exact Reserve.pending_of_returned_nil (r := r') hret
  have hslot := hi.setSlot r' (fusionListAddHead s.heap p r.head) (s.held.erase p) hk rfl
  rw [hring] at hslot
  apply hslot
  · exact (hi.wf.addHead hne (hi.held_not_owns hp) hroot).1
  · rw [hpend]
    refine List.perm_middle.trans ?_
    rw [← List.cons_append]
    exact (List.perm_cons_erase hp).symm.append_right _
  · intro a _ hheld hnot
    apply fusionListAddHead_of_not_owns hi.wf hroot (hnot _)
    rintro rfl
    exact hheld hp
  · constructor
    · unfold Reserve.Walks
      rw [show r'.pc = .loop from hpc]
      refine ⟨hret, ?_, hlt⟩
      exact congrArg Nat.succ hlen
    · rw [hpend, show r'.returned = [] from hret, Reserve.pending_of_returned_nil hret]
      rfl

/-- A failed allocation sends the reserve to `error_exit`, at the first object of its list. -/
theorem CacheInv.fail (hi : CacheInv s A reserved) {k : Nat} {r : Reserve}
    (hk : s.reserves[k]? = some r) (hpc : r.pc = .loop) :
    CacheInv (cacheReserveAlloc s k r none) (Function.update A r.head none) reserved := by
  have hmem : r ∈ s.reserves := List.mem_of_getElem? hk
  have hroot := hi.root_loop hmem hpc
  obtain ⟨hret, -, -⟩ := (hi.running r hmem).1.loop hpc
  have hpend := Reserve.pending_of_returned_nil hret
  have hring := hi.wf.ring r.head _ hroot
  have hle : (s.heap r.head).next = r.allocated.headD r.head := hring.next_eq
  -- the ring of the head, followed along `next`, is the chain of the objects back to the head
  have hchain : NextChain s.heap (r.allocated ++ [r.head]) := by
    rw [isRing_cons] at hring
    have htail : List.IsChain (Linked s.heap) (r.allocated ++ [r.head]) := by
      rw [List.isChain_cons] at hring
      exact hring.2
    exact htail.imp fun a b hab ↦ hab.1
  let r' : Reserve :=
    { r with pc := .exitTest (s.heap r.head).next (s.heap (s.heap r.head).next).next }
  have hslot := hi.setSlot r' s.heap s.held hk rfl
  apply hslot
  · exact hi.wf.drop r.head
  · exact List.Perm.refl _
  · intro a _ _ _
    rfl
  · refine ⟨?_, (hi.running r hmem).2⟩
    change NextChain s.heap (r.pending ++ [r.head]) ∧
      (s.heap r.head).next = r.pending.headD r.head ∧
      (r.pending ≠ [] →
        (s.heap (s.heap r.head).next).next = r.pending.tail.headD r.head)
    rw [hpend]
    refine ⟨hchain, hle, ?_⟩
    intro hne
    rw [hle]
    rcases hal : r.allocated with _ | ⟨x, xs⟩
    · exact absurd hal hne
    · have hring := hi.wf.ring r.head _ hroot
      rw [hal] at hring
      exact hring.next_second

/-- The reserve got all its objects and moves them to the reserve list. -/
theorem CacheInv.commit (hi : CacheInv s A reserved) {k : Nat} {r : Reserve}
    (hk : s.reserves[k]? = some r) (hpc : r.pc = .loop) (hge : ¬ r.i < r.n) :
    r.allocated.length = r.n ∧
      ∃ A', CacheInv (cacheReserveCommit s k r) A' (r.allocated ++ reserved) := by
  have hmem : r ∈ s.reserves := List.mem_of_getElem? hk
  have hroot := hi.root_loop hmem hpc
  obtain ⟨hret, hlen, hle⟩ := (hi.running r hmem).1.loop hpc
  have hpend := Reserve.pending_of_returned_nil hret
  have hn : r.allocated.length = r.n := by omega
  have hne : r.head ≠ s.reservedList := by
    intro heq
    apply (List.nodup_cons.mp hi.heads).1
    rw [← heq]
    exact List.mem_map_of_mem hmem
  refine ⟨hn, _, hi.eraseSlot _ hk ?_ ?_ ?_ ?_⟩
  · obtain ⟨hw, -⟩ := fusionListAddList_refines hi.wf hne hroot hi.root_reserved
    -- the private head, empty now, goes out of scope
    have hdrop := hw.drop r.head
    rw [Function.update_comm (Ne.symm hne), Function.update_idem, Function.update_comm hne]
      at hdrop
    exact hdrop
  · rw [hpend]
    exact List.perm_append_comm
  · intro q hq hqpc a ha
    exact fusionListAddList_of_not_owns hi.wf hne hroot hi.root_reserved
      (hi.pending_not_owns hq hqpc ha _) (hi.pending_not_owns hq hqpc ha _)
  · exact Or.inl ⟨rfl, hn, hret⟩

theorem CacheInv.exitTest (hi : CacheInv s A reserved) {r : Reserve} {le next : Addr}
    (hmem : r ∈ s.reserves) (hpc : r.pc = .exitTest le next) :
    NextChain s.heap (r.pending ++ [r.head]) ∧ le = r.pending.headD r.head ∧
      (r.pending ≠ [] → next = r.pending.tail.headD r.head) := by
  have hw := (hi.running r hmem).1
  unfold Reserve.Walks at hw
  rw [hpc] at hw
  exact hw

/-- The loop at `error_exit` is back at the head: everything has been returned. -/
theorem CacheInv.finish (hi : CacheInv s A reserved) {k : Nat} {r : Reserve} {next : Addr}
    (hk : s.reserves[k]? = some r) (hpc : r.pc = .exitTest r.head next) :
    ∃ A', CacheInv (cacheReserveExit s k r r.head next) A' reserved := by
  have hmem : r ∈ s.reserves := List.mem_of_getElem? hk
  obtain ⟨-, hle, -⟩ := hi.exitTest hmem hpc
  have hpend : r.pending = [] := by
    rcases hp : r.pending with _ | ⟨x, xs⟩
    · rfl
    · -- the head of a list is not an object
      exfalso
      have hx : x ∈ r.pending := by
        rw [hp]
        exact List.mem_cons_self
      rw [hp, List.headD_cons] at hle
      rw [← hle] at hx
      exact (hi.apart _ (List.mem_cons_of_mem _ (List.mem_map_of_mem hmem))).2
        (hi.live_of_pending hmem hx)
  have hall := (hi.running r hmem).2
  rw [hpend, List.append_nil] at hall
  unfold cacheReserveExit
  rw [if_pos rfl]
  refine ⟨_, hi.eraseSlot reserved hk ?_ ?_ ?_ ?_⟩
  · rw [← hi.root_reserved, Function.update_eq_self]
    exact hi.wf.drop r.head
  · rw [hpend, List.append_nil]
  · intro q _ _ a _
    rfl
  · exact Or.inr ⟨rfl, hall.symm⟩

/-- One object is given back, and the loop is ready to step to the one after it. -/
theorem CacheInv.giveBack (hi : CacheInv s A reserved) {k : Nat} {r : Reserve} {le next : Addr}
    (hk : s.reserves[k]? = some r) (hpc : r.pc = .exitTest le next) (hne : le ≠ r.head) :
    ∃ A', CacheInv (cacheReserveExit s k r le next) A' reserved := by
  have hmem : r ∈ s.reserves := List.mem_of_getElem? hk
  obtain ⟨hchain, hle, hnext⟩ := hi.exitTest hmem hpc
  obtain ⟨rest, hpend⟩ : ∃ rest, r.pending = le :: rest := by
    rcases hp : r.pending with _ | ⟨x, xs⟩
    · rw [hp] at hle
      exact absurd hle hne
    · rw [hp, List.headD_cons] at hle
      exact ⟨xs, by rw [hle]⟩
  let r' : Reserve := { r with pc := .exitAdvance next, returned := r.returned ++ [le] }
  have hpend' : r'.pending = rest := by
    change r.allocated.drop (r.returned ++ [le]).length = rest
    rw [List.length_append, List.length_singleton, ← List.tail_drop]
    change r.pending.tail = rest
    rw [hpend]
    rfl
  have hslot := hi.setSlot r' s.heap (le :: s.held) hk rfl
  have hinv : CacheInv { s with held := le :: s.held, reserves := s.reserves.set k r' }
      (Function.update A r.head r'.ring) reserved := by
    apply hslot
    · exact hi.wf.drop r.head
    · rw [hpend', hpend]
      exact List.perm_middle.symm
    · intro a _ _ _
      rfl
    · constructor
      · change NextChain s.heap (r'.pending ++ [r.head]) ∧ next = r'.pending.headD r.head
        rw [hpend']
        rw [hpend] at hchain hnext
        refine ⟨?_, hnext (List.cons_ne_nil le rest)⟩
        unfold NextChain at hchain ⊢
        rw [List.cons_append, List.isChain_cons] at hchain
        exact hchain.2
      · rw [hpend', (hi.running r hmem).2, hpend]
        change r.returned ++ le :: rest = r.returned ++ [le] ++ rest
        rw [List.append_assoc, List.singleton_append]
  -- the reserve holds the object for the moment between the list and `kfio_cache_free`
  have hfree := hinv.free (p := le) List.mem_cons_self
  rw [List.erase_cons_head] at hfree
  unfold cacheReserveExit
  rw [if_neg hne]
  exact ⟨_, hfree⟩

/-- `le = next, next = le->next` reads an object that has not been freed, or the head. -/
theorem CacheInv.advance (hi : CacheInv s A reserved) {k : Nat} {r : Reserve} {next : Addr}
    (hk : s.reserves[k]? = some r) (hpc : r.pc = .exitAdvance next) :
    ∃ A', CacheInv (cacheReserveAdvance s k r next) A' reserved := by
  have hmem : r ∈ s.reserves := List.mem_of_getElem? hk
  have hw := (hi.running r hmem).1
  unfold Reserve.Walks at hw
  rw [hpc] at hw
  let r' : Reserve := { r with pc := .exitTest next (s.heap next).next }
  refine ⟨_, hi.setSlot r' s.heap s.held hk rfl (hi.wf.drop r.head) (List.Perm.refl _) ?_ ?_⟩
  · intro a _ _ _
    rfl
  · refine ⟨⟨hw.1, hw.2, ?_⟩, (hi.running r hmem).2⟩
    intro hne
    have hchain := hw.1
    change (s.heap next).next = r.pending.tail.headD r.head
    rw [hw.2]
    rcases hp : r.pending with _ | ⟨x, xs⟩
    · exact absurd hp hne
    · rw [hp, List.cons_append] at hchain
      cases xs with
      | nil => exact (List.isChain_cons_cons.mp hchain).1
      | cons y ys => exact (List.isChain_cons_cons.mp hchain).1

/-! ### The counter -/

theorem bmod_of_small {m : Nat} (hm : m < 2 ^ 31) : (m : Int).bmod (2 ^ 32) = m := by
  rw [Int.bmod_eq_of_le]
  · omega
  · omega

theorem count_pred {c : Int32} {m : Nat} (hc : c.toInt = (m + 1 : Nat)) : (c - 1).toInt = m := by
  have hlt := Int32.toInt_lt c
  rw [Int32.toInt_sub, hc, show (1 : Int32).toInt = 1 from by decide]
  have hm : ((m + 1 : Nat) : Int) - 1 = (m : Nat) := by omega
  rw [hm]
  apply bmod_of_small
  omega

theorem count_add {c : Int32} {m n : Nat} (hc : c.toInt = m) (hlt : m + n < 2 ^ 31) :
    (c + Int32.ofNat n).toInt = (n + m : Nat) := by
  have hn : (Int32.ofNat n).toInt = n := by
    rw [Int32.toInt_ofNat']
    apply bmod_of_small
    omega
  rw [Int32.toInt_add, hc, hn]
  have hsum : (m : Int) + (n : Int) = ((n + m : Nat) : Int) := by omega
  rw [hsum]
  apply bmod_of_small
  omega

theorem count_zero_iff {c : Int32} {m : Nat} (hc : c.toInt = m) : c = 0 ↔ m = 0 := by
  constructor
  · rintro rfl
    have h0 : (0 : Int32).toInt = 0 := by decide
    omega
  · rintro rfl
    apply Int32.toInt_inj.mp
    rw [hc]
    decide

/-! ### Release, prealloc and destroy -/

/-- Popping the head and freeing it, in one critical section. -/
theorem CacheInv.popFree {x : Addr} {xs : List Addr} (hi : CacheInv s A (x :: xs)) (c : Int32) :
    ∃ A', CacheInv
      (kfioCacheFree
        { s with heap := (fusionListPopHead s.heap s.reservedList).1, reservedCount := c } x)
      A' xs := by
  obtain ⟨-, A', hpop⟩ := hi.pop c
  have hfree := hpop.free (p := x) List.mem_cons_self
  rw [List.erase_cons_head] at hfree
  exact ⟨A', hfree⟩

theorem cacheReleaseLoop_reservedList (s : CacheState) (n : Nat) :
    (cacheReleaseLoop s n).1.reservedList = s.reservedList := by
  induction n generalizing s with
  | zero => rfl
  | succ n ih =>
      unfold cacheReleaseLoop
      split_ifs
      · rfl
      · exact ih _

theorem cacheReleaseLoop_spec (n : Nat) (hi : CacheInv s A reserved)
    (hc : s.reservedCount.toInt = reserved.length) :
    (∃ A', CacheInv (cacheReleaseLoop s n).1 A' (reserved.drop n)) ∧
      (cacheReleaseLoop s n).1.reservedCount.toInt = (reserved.drop n).length ∧
      (cacheReleaseLoop s n).1.frees = s.frees ++ (reserved.take n).map (·, true) ∧
      (cacheReleaseLoop s n).2 = if n ≤ reserved.length then 0 else -ENOMEM := by
  induction n generalizing s A reserved with
  | zero =>
      refine ⟨⟨A, hi⟩, hc, ?_, rfl⟩
      exact (List.append_nil _).symm
  | succ n ih =>
      unfold cacheReleaseLoop
      have hzero := count_zero_iff hc
      cases reserved with
      | nil =>
          rw [if_pos (hzero.mpr rfl)]
          refine ⟨⟨A, hi⟩, hc, ?_, rfl⟩
          exact (List.append_nil _).symm
      | cons x xs =>
          rw [if_neg (fun h0 ↦ absurd (hzero.mp h0) (Nat.succ_ne_zero _))]
          -- the counter is not zero, so there is an object to pop
          obtain ⟨hret, -⟩ := hi.pop (s.reservedCount - 1)
          obtain ⟨A', hnext⟩ := hi.popFree (s.reservedCount - 1)
          have hlive : x ∈ s.live := hi.live_of_reserved List.mem_cons_self
          dsimp only
          rw [hret]
          obtain ⟨hinv, hcount, hfrees, hval⟩ := ih hnext (count_pred hc)
          refine ⟨hinv, hcount, ?_, ?_⟩
          · rw [hfrees]
            change s.frees ++ [(x, decide (x ∈ s.live))] ++ _ = _
            rw [decide_eq_true hlive, List.append_assoc]
            rfl
          · rw [hval]
            simp only [List.length_cons, Nat.succ_le_succ_iff]

theorem fusionCachePrealloc_spec (hi : CacheInv s A reserved)
    (hc : s.reservedCount.toInt = reserved.length) :
    ∃ A', CacheInv (fusionCachePrealloc s).1 A' reserved.tail ∧
      (fusionCachePrealloc s).1.reservedCount.toInt = reserved.tail.length := by
  have hzero := count_zero_iff hc
  unfold fusionCachePrealloc
  cases reserved with
  | nil =>
      rw [if_neg (not_not_intro (hzero.mpr rfl))]
      exact ⟨A, hi, hc⟩
  | cons x xs =>
      rw [if_pos (fun h0 ↦ absurd (hzero.mp h0) (Nat.succ_ne_zero _))]
      obtain ⟨hret, A', hpop⟩ := hi.pop (s.reservedCount - 1)
      dsimp only
      rw [hret]
      exact ⟨A', hpop, count_pred hc⟩

/-- The loop of destroy, at the first object of what is left of the list. -/
theorem cacheDestroyLoop_spec (fuel : Nat) {e n : Addr} (hi : CacheInv s A reserved)
    (he : e = reserved.headD s.reservedList)
    (hn : reserved ≠ [] → n = reserved.tail.headD s.reservedList)
    (hfuel : reserved.length < fuel) :
    ∃ s' A', cacheDestroyLoop fuel s e n = some s' ∧ CacheInv s' A' [] ∧
      s'.frees = s.frees ++ reserved.map (·, true) ∧ s'.held = s.held ∧
      s'.reserves = s.reserves := by
  induction fuel generalizing s A reserved e n with
  | zero => exact absurd hfuel (Nat.not_lt_zero _)
  | succ fuel ih =>
      unfold cacheDestroyLoop
      cases reserved with
      | nil =>
          have hel : e = s.reservedList := he
          rw [if_pos hel]
          refine ⟨s, A, rfl, hi, ?_, rfl, rfl⟩
          exact (List.append_nil _).symm
      | cons x xs =>
          have hex : e = x := he
          subst hex
          have hlive : e ∈ s.live := hi.live_of_reserved List.mem_cons_self
          have hel : e ≠ s.reservedList := by
            rintro rfl
            exact (hi.apart _ List.mem_cons_self).2 hlive
          have hnx : n = xs.headD s.reservedList := hn (List.cons_ne_nil e xs)
          -- deleting the object at the head of the list is what popping it does
          have hpop : (fusionListPopHead s.heap s.reservedList).1 = fusionListDel s.heap e := by
            have hnext : (s.heap s.reservedList).next = e :=
              (hi.wf.ring _ _ hi.root_reserved).next_eq
            have hempty : ¬ fusionListEmpty s.heap s.reservedList = true := by
              rw [fusionListEmpty_iff hi.wf hi.root_reserved]
              exact List.cons_ne_nil e xs
            unfold fusionListPopHead
            rw [if_pos hempty, hnext]
          obtain ⟨A', hnext⟩ := hi.popFree s.reservedCount
          rw [hpop] at hnext
          rw [if_neg hel]
          have hlen : xs.length < fuel := by
            rw [List.length_cons] at hfuel
            omega
          -- after the deletion `n` is the first entry, and the one after it is read from `n`
          have hnext2 : xs ≠ [] →
              (fusionListDel s.heap e n).next = xs.tail.headD s.reservedList := by
            intro hne
            have hring := hnext.wf.ring _ _ hnext.root_reserved
            cases xs with
            | nil => exact absurd rfl hne
            | cons y ys =>
                rw [hnx]
                exact hring.next_second
          obtain ⟨s', B, hloop, hinv, hfrees, hheld, hres⟩ := ih hnext hnx hnext2 hlen
          refine ⟨s', B, hloop, hinv, ?_, hheld, hres⟩
          rw [hfrees]
          change s.frees ++ [(e, decide (e ∈ s.live))] ++ _ = _
          rw [decide_eq_true hlive, List.append_assoc]
          rfl

theorem fusionCacheDestroy_spec (hi : CacheInv s A reserved) (hres : s.reserves = [])
    {fuel : Nat} (hfuel : reserved.length < fuel) :
    ∃ s', fusionCacheDestroy fuel s = some s' ∧
      s'.frees = s.frees ++ reserved.map (·, true) ∧ s'.live.Perm s.held := by
  have hring := hi.wf.ring _ _ hi.root_reserved
  have he : (s.heap s.reservedList).next = reserved.headD s.reservedList := hring.next_eq
  have hn : reserved ≠ [] →
      (s.heap (s.heap s.reservedList).next).next = reserved.tail.headD s.reservedList := by
    intro hne
    rw [he]
    cases reserved with
    | nil => exact absurd rfl hne
    | cons x xs => exact hring.next_second
  obtain ⟨s', B, hloop, hinv, hfrees, hheld, hrs⟩ := cacheDestroyLoop_spec fuel hi he hn hfuel
  refine ⟨kfioCacheDestroy s', ?_, hfrees, ?_⟩
  · unfold fusionCacheDestroy
    dsimp only
    rw [hloop]
    rfl
  · have hpl := hinv.places
    rw [hrs, hres, hheld] at hpl
    simp only [List.append_nil, List.flatMap_nil] at hpl
    exact hpl.symm

/-! ### Every step -/

/-- The steps of a reserve other than the critical section at its end. -/
def CacheEvent.Uncommitted : CacheEvent → Prop
  | .reserve _ _ | .reserveAlloc _ _ | .reserveExit _ | .reserveAdvance _ => True
  | _ => False

/-- Until it commits, a reserve leaves the reserve list and the counter alone. -/
theorem cacheStep_uncommitted {e : CacheEvent} {s' : CacheState} (hi : CacheInv s A reserved)
    (he : e.Uncommitted) (hstep : cacheStep s e = some s') :
    (∃ A', CacheInv s' A' reserved) ∧ s'.reservedCount = s.reservedCount ∧
      s'.reservedList = s.reservedList := by
  cases e with
  | reserve head n =>
      simp only [cacheStep, Option.ite_none_right_eq_some, Option.some.injEq] at hstep
      obtain ⟨hh, rfl⟩ := hstep
      exact ⟨⟨_, hi.enter n hh⟩, rfl, rfl⟩
  | reserveAlloc k result =>
      simp only [cacheStep, Option.bind_eq_some_iff, Option.ite_none_right_eq_some,
        Option.some.injEq] at hstep
      obtain ⟨r, hk, ⟨hpc, hlt, hp⟩, rfl⟩ := hstep
      cases result with
      | none => exact ⟨⟨_, hi.fail hk hpc⟩, rfl, rfl⟩
      | some p =>
          -- the object is in the caller's hands before it is on the private list
          have halloc := hi.alloc (hp p rfl)
          have hpush := halloc.push hk hpc hlt List.mem_cons_self
          rw [List.erase_cons_head] at hpush
          exact ⟨⟨_, hpush⟩, rfl, rfl⟩
  | reserveExit k =>
      simp only [cacheStep, Option.bind_eq_some_iff] at hstep
      obtain ⟨r, hk, hstep⟩ := hstep
      split at hstep
      · rename_i le next hpc
        rw [Option.some.injEq] at hstep
        subst hstep
        have hfields : (cacheReserveExit s k r le next).reservedCount = s.reservedCount ∧
            (cacheReserveExit s k r le next).reservedList = s.reservedList := by
          unfold cacheReserveExit
          split_ifs <;> exact ⟨rfl, rfl⟩
        by_cases hle : le = r.head
        · subst hle
          exact ⟨hi.finish hk hpc, hfields⟩
        · exact ⟨hi.giveBack hk hpc hle, hfields⟩
      · cases hstep
  | reserveAdvance k =>
      simp only [cacheStep, Option.bind_eq_some_iff] at hstep
      obtain ⟨r, hk, hstep⟩ := hstep
      split at hstep
      · rename_i next hpc
        rw [Option.some.injEq] at hstep
        subst hstep
        exact ⟨hi.advance hk hpc, rfl, rfl⟩
      · cases hstep
  | _ => exact he.elim

/-- Fewer than 2^31 objects are on the reserve list, so the counter cannot overflow. -/
def ReservedBelow (s : CacheState) : Prop :=
  ∀ xs, Contents s.heap s.reservedList xs → xs.length < 2 ^ 31

/-- The invariant of a run: the lists and the counter. -/
def CacheBalanced (l : Addr) (s : CacheState) : Prop :=
  s.reservedList = l ∧
    ∃ A reserved, CacheInv s A reserved ∧ s.reservedCount.toInt = reserved.length

theorem CacheInv.contents (hi : CacheInv s A reserved) :
    Contents s.heap s.reservedList reserved :=
  ⟨hi.wf.ring _ _ hi.root_reserved, hi.wf.nodup _ _ hi.root_reserved⟩

theorem cacheStep_balanced {l : Addr} {e : CacheEvent} {s' : CacheState}
    (hb : CacheBalanced l s) (hstep : cacheStep s e = some s') (hbelow : ReservedBelow s') :
    CacheBalanced l s' := by
  obtain ⟨hl, A, reserved, hi, hc⟩ := hb
  by_cases he : e.Uncommitted
  · obtain ⟨⟨A', hi'⟩, hcount, hl'⟩ := cacheStep_uncommitted hi he hstep
    refine ⟨hl'.trans hl, A', reserved, hi', ?_⟩
    rw [hcount]
    exact hc
  · -- only these change the counter, and the objects that are reserved with it
    cases e with
    | reserveCommit k =>
        simp only [cacheStep, Option.bind_eq_some_iff, Option.ite_none_right_eq_some,
          Option.some.injEq] at hstep
        obtain ⟨r, hk, ⟨hpc, hge⟩, rfl⟩ := hstep
        obtain ⟨hn, A', hi'⟩ := hi.commit hk hpc hge
        have hlt := hbelow _ hi'.contents
        rw [List.length_append, hn] at hlt
        refine ⟨hl, A', _, hi', ?_⟩
        rw [List.length_append, hn]
        exact count_add hc (by omega)
    | release n =>
        rw [cacheStep, Option.some.injEq] at hstep
        subst hstep
        obtain ⟨⟨A', hi'⟩, hcount, -, -⟩ := cacheReleaseLoop_spec n hi hc
        exact ⟨(cacheReleaseLoop_reservedList s n).trans hl, A', _, hi', hcount⟩
    | prealloc =>
        rw [cacheStep, Option.some.injEq] at hstep
        subst hstep
        obtain ⟨A', hi', hcount⟩ := fusionCachePrealloc_spec hi hc
        refine ⟨?_, A', _, hi', hcount⟩
        unfold fusionCachePrealloc
        split_ifs <;> exact hl
    | alloc result =>
        simp only [cacheStep, Option.ite_none_right_eq_some, Option.some.injEq] at hstep
        obtain ⟨hp, rfl⟩ := hstep
        cases result with
        | none => exact ⟨hl, A, reserved, hi, hc⟩
        | some p => exact ⟨hl, A, reserved, hi.alloc (hp p rfl), hc⟩
    | free p prealloc =>
        simp only [cacheStep, Option.ite_none_right_eq_some, Option.some.injEq] at hstep
        obtain ⟨hp, rfl⟩ := hstep
        cases prealloc with
        | false => exact ⟨hl, A, reserved, hi.free hp, hc⟩
        | true =>
            have hi' := hi.putBack hp (s.reservedCount + 1)
            have hlt := hbelow _ hi'.contents
            rw [List.length_cons] at hlt
            refine ⟨hl, _, _, hi', ?_⟩
            rw [List.length_cons, Nat.add_comm]
            exact count_add hc hlt
    | write p v =>
        simp only [cacheStep, Option.ite_none_right_eq_some, Option.some.injEq] at hstep
        obtain ⟨hp, rfl⟩ := hstep
        exact ⟨hl, A, reserved, hi.write v hp, hc⟩
    | _ => exact absurd trivial he

theorem CacheInv.sound (hi : CacheInv s A reserved)
    (hc : s.reservedCount.toInt = reserved.length) : CacheSound s reserved where
  contents := hi.contents
  count := hc
  places := hi.places
  nodup := hi.nodup
  running r hr := by
    obtain ⟨hw, hall⟩ := hi.running r hr
    refine ⟨?_, hall⟩
    unfold Reserve.InMemory
    unfold Reserve.Walks at hw
    cases hpc : r.pc with
    | loop =>
        rw [hpc] at hw
        have hroot := hi.root_loop hr hpc
        rw [← Reserve.pending_of_returned_nil hw.1] at hroot
        exact ⟨⟨hi.wf.ring _ _ hroot, hi.wf.nodup _ _ hroot⟩, hw⟩
    | exitTest le next =>
        rw [hpc] at hw
        exact hw
    | exitAdvance next =>
        rw [hpc] at hw
        exact hw
  frees := hi.frees
  results := hi.results

theorem kfioCreateCache_balanced (h : Heap) {l : Addr} (hl : l ≠ NULL) :
    CacheBalanced l (kfioCreateCache h l) := by
  have hempty : WellFormed h (fun _ ↦ none) := by
    refine ⟨⟨?_, ?_, ?_⟩, ?_⟩
    · intro a xs ha
      cases ha
    · intro a xs ha
      cases ha
    · rintro a b c ⟨xs, ha, -⟩
      cases ha
    · rintro a ⟨xs, ha, -⟩
      cases ha
  have hfree : ∀ a, ¬ Owns (fun _ ↦ none) a l := by
    rintro a ⟨xs, ha, -⟩
    cases ha
  refine ⟨rfl, Function.update (fun _ ↦ none) l (some []), [], ?_, rfl⟩
  refine ⟨(hempty.initList hl hfree).1, ?_, List.Perm.refl _, List.nodup_nil, ?_, ?_, ?_, ?_, ?_,
    ?_⟩
  · intro a xs
    by_cases ha : a = l
    · subst ha
      simp [kfioCreateCache, eq_comm]
    · rw [Function.update_of_ne ha]
      simp [kfioCreateCache, ha]
  · exact List.nodup_singleton l
  · intro a ha
    rw [List.mem_singleton.mp ha]
    exact ⟨hl, List.not_mem_nil⟩
  · exact List.not_mem_nil
  · intro r hr
    cases hr
  · intro f hf
    cases hf
  · intro r hr
    cases hr

/-- The books of a cache balance after every interleaving of its users, as long as fewer than 2^31
objects are reserved at a time: a reserve that has not committed changes neither the reserve list
nor the counter, a release frees the objects it finds and reports whether they were enough, and a
destroy, once no reserve is running, frees each reserved object. -/
theorem fusionCache_accounts (h : Heap) (l : Addr) (es : List CacheEvent) (s : CacheState)
    (hl : l ≠ NULL) (hrun : run cacheStep (kfioCreateCache h l) es = some s)
    (hbelow : Throughout cacheStep ReservedBelow (kfioCreateCache h l) es) :
    s.reservedList = l ∧ ∃ reserved, CacheSound s reserved ∧
      (∀ e s', e.Uncommitted → cacheStep s e = some s' →
        Contents s'.heap s'.reservedList reserved ∧ s'.reservedCount = s.reservedCount) ∧
      (∀ n, (fusionCacheRelease s n).1.frees = s.frees ++ (reserved.take n).map (·, true) ∧
        (fusionCacheRelease s n).2 = if n ≤ reserved.length then 0 else -ENOMEM) ∧
      (s.reserves = [] → ∀ fuel, reserved.length < fuel →
        ∃ s', fusionCacheDestroy fuel s = some s' ∧
          s'.frees = s.frees ++ reserved.map (·, true) ∧ s'.live.Perm s.held) := by
  have hbal : CacheBalanced l s :=
    run_invariant_along (fun t e t' hb hp ht ↦ cacheStep_balanced hb ht (hp t' ht))
      (kfioCreateCache_balanced h hl) hbelow.along hrun
  obtain ⟨hsl, A, reserved, hi, hc⟩ := hbal
  refine ⟨hsl, reserved, hi.sound hc, ?_, ?_, ?_⟩
  · intro e s' he hstep
    obtain ⟨⟨A', hi'⟩, hcount, -⟩ := cacheStep_uncommitted hi he hstep
    exact ⟨hi'.contents, hcount⟩
  · intro n
    obtain ⟨-, -, hfrees, hval⟩ := cacheReleaseLoop_spec n hi hc
    exact ⟨hfrees, hval⟩
  · intro hres fuel hfuel
    exact fusionCacheDestroy_spec hi hres hfuel

/-! A reserve of one object, a second one that fails after its first object and gives it back, and
a release of more than there is. -/

def sampleCacheEvents : List CacheEvent :=
  [.reserve 10 1, .reserveAlloc 0 (some 100), .reserveCommit 0, .reserve 20 2,
    .reserveAlloc 0 (some 101), .reserveAlloc 0 none, .reserveExit 0, .reserveAdvance 0,
    .reserveExit 0]

instance (m : Memory Addr) (a b : Addr) : Decidable (Linked m a b) :=
  inferInstanceAs (Decidable (_ ∧ _))

/-- A walk of the reserve list, and a test that it met the whole list. -/
def walkReserved (s : CacheState) : List Addr :=
  let a := (s.heap s.reservedList).next
  if a = s.reservedList then [] else [a]

def reservedTest (s : CacheState) : Bool :=
  decide (List.IsChain (Linked s.heap) (s.reservedList :: (walkReserved s ++ [s.reservedList])) ∧
    (s.reservedList :: walkReserved s).Nodup)

theorem reservedBelow_of_test {s : CacheState} (ht : reservedTest s = true) : ReservedBelow s := by
  obtain ⟨hchain, hnd⟩ := of_decide_eq_true ht
  intro xs hxs
  rw [hxs.1.unique (isRing_cons.mpr hchain) hxs.2 hnd]
  unfold walkReserved
  dsimp only
  split_ifs
  · exact Nat.two_pow_pos 31
  · rw [List.length_singleton]
    omega

theorem fusionCache_accounts_sample :
    ∃ s, run cacheStep (kfioCreateCache (fun _ ↦ ⟨NULL, NULL⟩) 1) sampleCacheEvents = some s ∧
      s.results = [⟨1, 0, [100], []⟩, ⟨2, -ENOMEM, [101], [101]⟩] ∧
      ∃ reserved, CacheSound s reserved ∧
        (fusionCacheRelease s 2).1.frees = s.frees ++ (reserved.take 2).map (·, true) := by
  let s₀ := kfioCreateCache (fun _ ↦ ⟨NULL, NULL⟩) 1
  have hbelow : Throughout cacheStep ReservedBelow s₀ sampleCacheEvents := by
    refine (throughout_of_check (J := reservedTest) ?_).mono fun t ht ↦ reservedBelow_of_test ht
    decide
  have hresults : (run cacheStep s₀ sampleCacheEvents).map CacheState.results =
      some [⟨1, 0, [100], []⟩, ⟨2, -ENOMEM, [101], [101]⟩] := by decide
  obtain ⟨s, hs, hres⟩ := Option.map_eq_some_iff.mp hresults
  obtain ⟨-, reserved, hsound, -, hrelease, -⟩ :=
    fusionCache_accounts _ 1 sampleCacheEvents s (by decide) hs hbelow
  exact ⟨s, hs, hres, reserved, hsound, (hrelease 2).1⟩

end IomemoryVsl.Port
