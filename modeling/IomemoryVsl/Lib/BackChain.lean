import IomemoryVsl.Lib.Chain

/-!
# Chains with a pointer back

An element of such a chain stores the pointer to the next element, and points back at the place that
stores the pointer to itself: the head of the chain, or the element before it.  Taking an element
out needs no more than the element, wherever it is.
-/

namespace BackChain

variable {κ α : Type*}

/-- A place that stores a pointer to an element; any other address is `wild`. -/
inductive Slot (κ α : Type*) where
  | first (k : κ)
  | next (a : α)
  | wild (address : ℕ)
deriving DecidableEq, Repr

@[ext]
structure Memory (κ α : Type*) where
  get : Slot κ α → Option α
  back : α → Slot κ α

/-! ## Writing -/

section Write

variable [DecidableEq κ] [DecidableEq α]

def Memory.set (m : Memory κ α) (s : Slot κ α) (p : Option α) : Memory κ α :=
  { m with get := Function.update m.get s p }

def Memory.setBack (m : Memory κ α) (a : α) (s : Slot κ α) : Memory κ α :=
  { m with back := Function.update m.back a s }

/-- The place `s` points at `p`, which points back at `s` if it is an element. -/
def link (m : Memory κ α) (s : Slot κ α) : Option α → Memory κ α
  | none => m.set s none
  | some b => (m.set s (some b)).setBack b s

variable {m : Memory κ α} {s t : Slot κ α} {p : Option α} {a b : α}

theorem link_get_self (m : Memory κ α) (s : Slot κ α) (p : Option α) : (link m s p).get s = p := by
  cases p with
  | none => exact Function.update_self ..
  | some b => exact Function.update_self ..

theorem link_get_of_ne (m : Memory κ α) (p : Option α) (h : t ≠ s) :
    (link m s p).get t = m.get t := by
  cases p with
  | none => exact Function.update_of_ne h ..
  | some b => exact Function.update_of_ne h ..

theorem link_back_self (m : Memory κ α) (s : Slot κ α) (b : α) :
    (link m s (some b)).back b = s :=
  Function.update_self ..

theorem link_back_of_ne (m : Memory κ α) (s : Slot κ α) (h : p ≠ some a) :
    (link m s p).back a = m.back a := by
  cases p with
  | none => rfl
  | some b =>
      have hab : a ≠ b := by
        intro hab
        exact h (by rw [hab])
      exact Function.update_of_ne hab ..

end Write

/-! ## One chain -/

/-- From the place `s` one follows the pointers through `l`, and each element points back. -/
def Linked (m : Memory κ α) : Slot κ α → List α → Prop
  | s, [] => m.get s = none
  | s, a :: l => m.get s = some a ∧ m.back a = s ∧ Linked m (.next a) l

/-- The places that store the pointers of a chain. -/
def places (s : Slot κ α) (l : List α) : List (Slot κ α) :=
  s :: l.map .next

variable {m m' m'' : Memory κ α} {s t : Slot κ α} {l us vs : List α} {a b : α}

/-- The two memories agree on all of a chain. -/
structure SameOn (m m' : Memory κ α) (s : Slot κ α) (l : List α) : Prop where
  get : ∀ t ∈ places s l, m'.get t = m.get t
  back : ∀ a ∈ l, m'.back a = m.back a

theorem SameOn.refl (m : Memory κ α) (s : Slot κ α) (l : List α) : SameOn m m s l :=
  ⟨fun _ _ ↦ rfl, fun _ _ ↦ rfl⟩

theorem SameOn.trans (h : SameOn m m' s l) (h' : SameOn m' m'' s l) : SameOn m m'' s l :=
  ⟨fun t ht ↦ (h'.get t ht).trans (h.get t ht), fun a ha ↦ (h'.back a ha).trans (h.back a ha)⟩

theorem Linked.congr (h : Linked m s l) (hsame : SameOn m m' s l) : Linked m' s l := by
  induction l generalizing s with
  | nil =>
      show m'.get s = none
      rw [hsame.get s List.mem_cons_self]
      exact h
  | cons a l ih =>
      refine ⟨?_, ?_, ih h.2.2 ⟨?_, ?_⟩⟩
      · rw [hsame.get s List.mem_cons_self]
        exact h.1
      · rw [hsame.back a List.mem_cons_self]
        exact h.2.1
      · intro t ht
        exact hsame.get t (List.mem_cons_of_mem _ ht)
      · intro b hb
        exact hsame.back b (List.mem_cons_of_mem _ hb)

theorem Linked.get (h : Linked m s l) : m.get s = l.head? := by
  cases l with
  | nil => exact h
  | cons a l => exact h.1

theorem Linked.chain (h : Linked m s l) :
    NullChain.Chain (fun a ↦ m.get (.next a)) (m.get s) l := by
  induction l generalizing s with
  | nil => exact h
  | cons a l ih => exact ⟨h.1, ih h.2.2⟩

theorem Linked.nodup (h : Linked m s l) : l.Nodup := h.chain.nodup

theorem Linked.suffix (h : Linked m s (us ++ a :: vs)) : Linked m (.next a) vs := by
  induction us generalizing s with
  | nil => exact h.2.2
  | cons u us ih => exact ih h.2.2

/-- An element points back at one of the places before it. -/
theorem Linked.back_mem (h : Linked m s (us ++ a :: vs)) : m.back a ∈ places s us := by
  induction us generalizing s with
  | nil =>
      rw [h.2.1]
      exact List.mem_cons_self
  | cons u us ih => exact List.mem_cons_of_mem _ (ih h.2.2)

theorem next_notMem_map : Slot.next a ∉ (l.map .next : List (Slot κ α)) ↔ a ∉ l := by
  rw [List.mem_map]
  constructor
  · intro h ha
    exact h ⟨a, ha, rfl⟩
  · rintro h ⟨b, hb, heq⟩
    cases heq
    exact h hb

theorem first_notMem_map (k : κ) (l : List α) : Slot.first k ∉ (l.map .next : List (Slot κ α)) := by
  rw [List.mem_map]
  rintro ⟨b, -, heq⟩
  cases heq

section Unlink

variable [DecidableEq κ] [DecidableEq α]

/-- A link between other places and other elements. -/
theorem sameOn_link (m : Memory κ α) {p : Option α} (ht : t ∉ places s l)
    (hp : ∀ b ∈ p, b ∉ l) : SameOn m (link m t p) s l where
  get u hu := by
    apply link_get_of_ne
    rintro rfl
    exact ht hu
  back c hc := by
    apply link_back_of_ne
    intro heq
    exact hp c heq hc

/-- A chain whose pointer is copied to another place goes on from there. -/
theorem Linked.relink (h : Linked m t l) (hs : s ∉ l.map .next) :
    Linked (link m s (m.get t)) s l := by
  cases l with
  | nil =>
      show (link m s (m.get t)).get s = none
      rw [link_get_self]
      exact h
  | cons b l =>
      rw [h.1]
      refine ⟨link_get_self _ _ _, link_back_self _ _ _, h.2.2.congr (sameOn_link m hs ?_)⟩
      intro c hc
      cases hc
      exact (List.nodup_cons.mp h.nodup).1

/-- Storing the element's successor where its predecessor points takes it out. -/
theorem Linked.unlink (h : Linked m s (us ++ a :: vs)) (hs : s ∉ (us ++ a :: vs).map .next) :
    Linked (link m (m.back a) (m.get (.next a))) s (us ++ vs) := by
  -- on the elements before `a`; the place behind each of them starts a chain of its own
  induction us generalizing s with
  | nil =>
      have hs' : s ∉ vs.map .next := fun hmem ↦ hs (List.mem_cons_of_mem _ hmem)
      rw [h.2.1]
      exact h.2.2.relink hs'
  | cons u us ih =>
      have hnd := List.nodup_cons.mp h.nodup
      refine ⟨?_, ?_, ih h.2.2 (next_notMem_map.mpr hnd.1)⟩
      · have hne : s ≠ m.back a := by
          intro heq
          have hmem := Linked.back_mem h.2.2
          rw [← heq] at hmem
          apply hs
          simp only [List.cons_append, List.map_cons, List.map_append]
          rcases List.mem_cons.mp hmem with hsu | hsus
          · rw [hsu]
            exact List.mem_cons_self
          · exact List.mem_cons_of_mem _ (List.mem_append_left _ hsus)
        rw [link_get_of_ne _ _ hne]
        exact h.1
      · have hne : m.get (.next a) ≠ some u := by
          intro heq
          rw [(Linked.suffix h.2.2).get] at heq
          exact hnd.1 (List.mem_append_right _ (List.mem_cons_of_mem _ (List.mem_of_head? heq)))
        rw [link_back_of_ne _ _ hne]
        exact h.2.1

end Unlink

/-! ## Families of chains -/

/-- The memory holds a chain for each of the heads, and no two of them share an element. -/
structure Chains (m : Memory κ α) (A : κ → Option (List α)) : Prop where
  linked : ∀ k l, A k = some l → Linked m (.first k) l
  separate : ∀ j k l l' a, A j = some l → A k = some l' → a ∈ l → a ∈ l' → j = k

/-- The element is on one of the chains. -/
def Held (A : κ → Option (List α)) (a : α) : Prop :=
  ∃ k l, A k = some l ∧ a ∈ l

variable {A : κ → Option (List α)}

theorem Chains.congr (h : Chains m A)
    (hsame : ∀ k l, A k = some l → SameOn m m' (.first k) l) : Chains m' A where
  linked k l hk := (h.linked k l hk).congr (hsame k l hk)
  separate := h.separate

/-- The places of a chain, by the chain they belong to. -/
theorem mem_places_first {i : κ} {t : Slot κ α} :
    t ∈ places (.first i) l ↔ t = .first i ∨ ∃ b ∈ l, t = .next b := by
  unfold places
  simp [eq_comm]

theorem Chains.disjoint (h : Chains m A) {i : κ} {l' : List α} (hk : A k = some l)
    (hi : A i = some l') (hik : i ≠ k) (ha : a ∈ l) : a ∉ l' :=
  fun hmem ↦ hik (h.separate i k l' l a hi hk hmem ha)

section Write

variable [DecidableEq κ] {k : κ}

/-- A chain that only takes in what is on no other one. -/
theorem Chains.separate_update (h : Chains m A) {l' : List α}
    (hl' : ∀ b ∈ l', (∃ l, A k = some l ∧ b ∈ l) ∨ ¬ Held A b) :
    ∀ i j x y b, Function.update A k (some l') i = some x →
      Function.update A k (some l') j = some y → b ∈ x → b ∈ y → i = j := by
  have hother : ∀ j y b, A j = some y → b ∈ l' → b ∈ y → k = j := by
    intro j y b hj hbl hby
    rcases hl' b hbl with ⟨l, hk, hmem⟩ | hnot
    · exact h.separate k j l y b hk hj hmem hby
    · exact absurd ⟨j, y, hj, hby⟩ hnot
  intro i j x y b hi hj hbx hby
  by_cases hik : i = k
  · rw [hik, Function.update_self, Option.some.injEq] at hi
    subst hi
    by_cases hjk : j = k
    · rw [hik, hjk]
    · rw [Function.update_of_ne hjk] at hj
      rw [hik]
      exact hother j y b hj hbx hby
  · rw [Function.update_of_ne hik] at hi
    by_cases hjk : j = k
    · rw [hjk, Function.update_self, Option.some.injEq] at hj
      subst hj
      rw [hjk]
      exact (hother i x b hi hby hbx).symm
    · rw [Function.update_of_ne hjk] at hj
      exact h.separate i j x y b hi hj hbx hby

variable [DecidableEq α]

/-- What is written to an element that is on none of the chains. -/
theorem sameOn_write (m : Memory κ α) (ha : ¬ Held A a) (p : Option α) (s : Slot κ α)
    (hk : A k = some l) : SameOn m ((m.set (.next a) p).setBack a s) (.first k) l where
  get t ht := by
    apply Function.update_of_ne
    rintro rfl
    rcases mem_places_first.mp ht with heq | ⟨b, hb, heq⟩
    · cases heq
    · cases heq
      exact ha ⟨k, l, hk, hb⟩
  back b hb := by
    apply Function.update_of_ne
    rintro rfl
    exact ha ⟨k, l, hk, hb⟩

/-- A new first element of the chain `k`. -/
def pushed (m : Memory κ α) (k : κ) (a : α) : Memory κ α :=
  link (link m (.next a) (m.get (.first k))) (.first k) (some a)

theorem Chains.sameOn_pushed (h : Chains m A) (hk : A k = some l) (ha : ¬ Held A a) {i : κ}
    {l' : List α} (hi : A i = some l') (hik : i ≠ k) : SameOn m (pushed m k a) (.first i) l' := by
  have hal' : a ∉ l' := fun hmem ↦ ha ⟨i, l', hi, hmem⟩
  refine (sameOn_link m ?_ ?_).trans (sameOn_link _ ?_ ?_)
  · rw [mem_places_first]
    rintro (heq | ⟨b, hb, heq⟩)
    · cases heq
    · cases heq
      exact hal' hb
  · intro b hb
    rw [(h.linked k l hk).get] at hb
    exact h.disjoint hk hi hik (List.mem_of_head? hb)
  · rw [mem_places_first]
    rintro (heq | ⟨b, hb, heq⟩)
    · cases heq
      exact hik rfl
    · cases heq
  · intro b hb
    cases hb
    exact hal'

theorem Chains.push (h : Chains m A) (hk : A k = some l) (ha : ¬ Held A a) :
    Chains (pushed m k a) (Function.update A k (some (a :: l))) where
  linked i l' hi := by
    by_cases hik : i = k
    · subst hik
      rw [Function.update_self, Option.some.injEq] at hi
      subst hi
      have hal : a ∉ l := fun hmem ↦ ha ⟨i, l, hk, hmem⟩
      have hrest := (h.linked i l hk).relink (next_notMem_map.mpr hal)
      refine ⟨link_get_self _ _ _, link_back_self _ _ _, hrest.congr (sameOn_link _ ?_ ?_)⟩
      · intro hmem
        rcases List.mem_cons.mp hmem with heq | hmem
        · cases heq
        · exact first_notMem_map i l hmem
      · intro b hb
        cases hb
        exact hal
    · rw [Function.update_of_ne hik] at hi
      exact (h.linked i l' hi).congr (h.sameOn_pushed hk ha hi hik)
  separate := by
    refine h.separate_update ?_
    intro b hb
    rcases List.mem_cons.mp hb with heq | hmem
    · rw [heq]
      exact Or.inr ha
    · exact Or.inl ⟨l, hk, hmem⟩

/-- The element is taken out of its chain, whichever that is. -/
def unlinked (m : Memory κ α) (a : α) : Memory κ α :=
  link m (m.back a) (m.get (.next a))

theorem Chains.sameOn_unlinked (h : Chains m A) (hk : A k = some l) (ha : a ∈ l) {i : κ}
    {l' : List α} (hi : A i = some l') (hik : i ≠ k) : SameOn m (unlinked m a) (.first i) l' := by
  have hlinked := h.linked k l hk
  obtain ⟨us, vs, rfl⟩ := List.append_of_mem ha
  have hback := mem_places_first.mp hlinked.back_mem
  refine sameOn_link m ?_ ?_
  · rw [mem_places_first]
    rintro (heq | ⟨b, hb, heq⟩)
    · rw [heq] at hback
      rcases hback with hfirst | ⟨c, -, hnext⟩
      · cases hfirst
        exact hik rfl
      · cases hnext
    · rw [heq] at hback
      rcases hback with hfirst | ⟨c, hc, hnext⟩
      · cases hfirst
      · cases hnext
        exact h.disjoint hk hi hik (List.mem_append_left _ hc) hb
  · intro b hb
    rw [hlinked.suffix.get] at hb
    exact h.disjoint hk hi hik
      (List.mem_append_right _ (List.mem_cons_of_mem _ (List.mem_of_head? hb)))

theorem erase_middle (hnd : (us ++ a :: vs).Nodup) : (us ++ a :: vs).erase a = us ++ vs := by
  have hus : a ∉ us := by
    intro hmem
    exact (List.nodup_append.mp hnd).2.2 a hmem a List.mem_cons_self rfl
  rw [List.erase_append_right _ hus, List.erase_cons_head]

theorem Chains.erase (h : Chains m A) (hk : A k = some l) (ha : a ∈ l) :
    Chains (unlinked m a) (Function.update A k (some (l.erase a))) where
  linked i l' hi := by
    by_cases hik : i = k
    · subst hik
      have hlinked := h.linked i l hk
      obtain ⟨us, vs, rfl⟩ := List.append_of_mem ha
      rw [Function.update_self, Option.some.injEq, erase_middle hlinked.nodup] at hi
      subst hi
      exact hlinked.unlink (first_notMem_map i _)
    · rw [Function.update_of_ne hik] at hi
      exact (h.linked i l' hi).congr (h.sameOn_unlinked hk ha hi hik)
  separate := by
    refine h.separate_update ?_
    intro b hb
    exact Or.inl ⟨l, hk, List.mem_of_mem_erase hb⟩

/-- An element that has been taken out is on no chain any more. -/
theorem Chains.not_held_erase (h : Chains m A) (hk : A k = some l) :
    a ∈ l → ¬ Held (Function.update A k (some (l.erase a))) a := by
  rintro ha ⟨i, l', hi, hmem⟩
  by_cases hik : i = k
  · rw [hik, Function.update_self, Option.some.injEq] at hi
    subst hi
    exact (h.linked k l hk).nodup.not_mem_erase hmem
  · rw [Function.update_of_ne hik] at hi
    exact hik (h.separate i k l' l a hi hk hmem ha)

/-- Without being told which chain an element is on, one may erase it from all of them. -/
theorem Chains.map_erase (h : Chains m A) (hk : A k = some l) (ha : a ∈ l) :
    (fun i ↦ (A i).map (·.erase a)) = Function.update A k (some (l.erase a)) := by
  funext i
  by_cases hik : i = k
  · rw [hik, Function.update_self, hk]
    rfl
  · rw [Function.update_of_ne hik]
    cases hi : A i with
    | none => rfl
    | some l' =>
        have hnot : a ∉ l' := h.disjoint hk hi hik ha
        rw [Option.map_some, List.erase_of_not_mem hnot]

end Write

end BackChain
