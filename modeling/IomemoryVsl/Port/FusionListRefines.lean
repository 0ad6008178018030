import IomemoryVsl.Port.FusionList

/-!
# The list functions refine operations on sequences

Each function keeps every list well formed, does to the contents what its operation on sequences
does, and leaves the lists it does not touch alone; so does any number of calls.
-/

namespace IomemoryVsl.Port

open LinkedRing

/-- The lists outside `T` keep their contents and their entries. -/
def Keeps (h h' : Heap) (A A' : Seqs) (T : Addr → Prop) : Prop :=
  ∀ l xs, A l = some xs → ¬ T l → A' l = some xs ∧ ∀ a ∈ l :: xs, h' a = h a

/-! ## What the building blocks do to a family of lists -/

variable {h h' h'' : Heap} {A A' A'' : Seqs}

theorem Keeps.trans {T T' S : Addr → Prop} (h1 : Keeps h h' A A' T) (h2 : Keeps h' h'' A' A'' T')
    (hS : ∀ l, T l ∨ T' l → S l) : Keeps h h'' A A'' S := by
  intro l xs hl hT
  have hT1 : ¬ T l := fun ht ↦ hT (hS l (Or.inl ht))
  have hT2 : ¬ T' l := fun ht ↦ hT (hS l (Or.inr ht))
  obtain ⟨hl1, hk1⟩ := h1 l xs hl hT1
  obtain ⟨hl2, hk2⟩ := h2 l xs hl1 hT2
  refine ⟨hl2, ?_⟩
  intro a ha
  rw [hk2 a ha, hk1 a ha]

theorem WellFormed.ne_null (hwf : WellFormed h A) {l a : Addr} (ha : Owns A l a) : a ≠ NULL := by
  rintro rfl
  exact hwf.null l ha

theorem WellFormed.update (hwf : WellFormed h A) {l : Addr} {xs : List Addr}
    (hr : Rings h' (Function.update A l (some xs))) (hn : NULL ∉ l :: xs) :
    WellFormed h' (Function.update A l (some xs)) := by
  refine ⟨hr, ?_⟩
  intro r hown
  rcases owns_update hown with ⟨-, hmem⟩ | ⟨-, hold⟩
  · exact hn hmem
  · exact hwf.null r hold

theorem WellFormed.notMem (hwf : WellFormed h A) {l : Addr} {xs : List Addr}
    (hl : A l = some xs) : NULL ∉ l :: xs :=
  fun hmem ↦ hwf.null l ⟨xs, hl, hmem⟩

/-- Dropping the list of an entry that is on no list. -/
theorem WellFormed.forget (hwf : WellFormed h A) {e : Addr} (he : OnNoList A e) :
    WellFormed h (erase A e) ∧ Keeps h h A (erase A e) (Owns A · e) := by
  constructor
  · constructor
    · rcases he with he | he
      · rw [hwf.erase_root he]
        exact hwf.drop e
      · rw [erase_of_not_owned he]
        exact hwf.toRings
    · intro l hown
      exact hwf.null l (owns_of_erase hown)
  · intro l xs hl hT
    have hmem : e ∉ l :: xs := fun hm ↦ hT ⟨xs, hl, hm⟩
    exact ⟨erase_of_notMem hl hmem, fun a _ ↦ rfl⟩

theorem WellFormed.delRaw (hwf : WellFormed h A) {e : Addr} (he : Element A e) :
    WellFormed (fusionListDelRaw h e) (erase A e) ∧
      Keeps h (fusionListDelRaw h e) A (erase A e) (Owns A · e) := by
  obtain ⟨r, hr⟩ := he.owns
  -- no pointer on a ring is null, so the test of the source succeeds
  have hn : (h e).next ≠ NULL := hwf.ne_null (hwf.next_owns hr)
  have hp : (h e).prev ≠ NULL := hwf.ne_null (hwf.prev_owns hr)
  rw [fusionListDelRaw_eq hn hp]
  constructor
  · refine ⟨hwf.unlink he, ?_⟩
    intro l hown
    exact hwf.null l (owns_of_erase hown)
  · intro l xs hl hT
    have hmem : e ∉ l :: xs := fun hm ↦ hT ⟨xs, hl, hm⟩
    refine ⟨erase_of_notMem hl hmem, ?_⟩
    intro a ha
    have hlr : l ≠ r := by
      rintro rfl
      exact hT hr
    exact hwf.unlink_of_ne hr ⟨xs, hl, ha⟩ hlr

theorem WellFormed.initList (hwf : WellFormed h A) {e : Addr} (hne : e ≠ NULL)
    (he : ∀ l, ¬ Owns A l e) :
    WellFormed (fusionInitList h e) (Function.update A e (some [])) ∧
      Keeps h (fusionInitList h e) A (Function.update A e (some [])) fun _ ↦ False := by
  rw [fusionInitList_eq]
  constructor
  · apply hwf.update
    · apply hwf.init
      intro r hr
      exact absurd hr (he r)
    · rw [List.mem_singleton]
      exact Ne.symm hne
  · intro l xs hl _
    -- nobody owns `e`, so it is neither the head of a list nor on one
    have hle : l ≠ e := by
      rintro rfl
      exact he l (owns_root hl)
    rw [Function.update_of_ne hle]
    refine ⟨hl, ?_⟩
    intro a ha
    have hae : a ≠ e := by
      rintro rfl
      exact he l ⟨xs, hl, ha⟩
    exact link_of_ne h hae hae

/-- An entry on no list goes between the last entry of `us` and the first of `vs`, where `us ++ vs`
is the list. -/
theorem WellFormed.add (hwf : WellFormed h A) {e l : Addr} (us vs : List Addr) (hne : e ≠ NULL)
    (he : ∀ r, ¬ Owns A r e) (hl : A l = some (us ++ vs)) :
    WellFormed (fusionListAdd h e (us.getLastD l) (vs.headD l))
        (Function.update A l (some (us ++ e :: vs))) ∧
      Keeps h (fusionListAdd h e (us.getLastD l) (vs.headD l)) A
        (Function.update A l (some (us ++ e :: vs))) (· = l) := by
  have hfree : ∀ a ∈ [e], ∀ r, ¬ Owns A r a := by
    intro a ha
    rw [List.mem_singleton] at ha
    subst ha
    exact he
  have hnot : ∀ x ∈ l :: (us ++ vs), x ≠ e := by
    rintro x hx rfl
    exact he l ⟨_, hl, hx⟩
  have hlast : us.getLastD l ≠ e := by
    apply hnot
    rw [← List.cons_append]
    exact List.mem_append_left vs List.getLastD_mem_cons
  have hhead : vs.headD l ≠ e := by
    apply hnot
    cases vs with
    | nil => exact List.mem_cons_self
    | cons v vs => simp
  have hjoin := hwf.join hl rfl (List.IsChain.singleton e) (List.nodup_singleton e) hfree
  have hkeep := fun r a hr ha ↦ hwf.join_of_ne (r := r) (a := a) hl rfl hfree ha hr
  -- the source writes the second of the two links first
  have heq : link (link h (us.getLastD l) e) (List.getLastD [] e) (vs.headD l) =
      fusionListAdd h e (us.getLastD l) (vs.headD l) := by
    rw [fusionListAdd_eq]
    exact link_comm h hlast (Ne.symm hhead)
  have hseq : us ++ [e] ++ vs = us ++ e :: vs := by simp
  rw [heq, hseq] at hjoin
  constructor
  · apply hwf.update hjoin
    have hnull := hwf.notMem hl
    simp only [List.mem_cons, List.mem_append, not_or] at hnull ⊢
    exact ⟨hnull.1, hnull.2.1, Ne.symm hne, hnull.2.2⟩
  · intro r xs hr hrl
    rw [Function.update_of_ne hrl]
    refine ⟨hr, ?_⟩
    intro a ha
    rw [← heq]
    exact hkeep r a hrl ⟨xs, hr, ha⟩

theorem WellFormed.addHead (hwf : WellFormed h A) {e l : Addr} {xs : List Addr} (hne : e ≠ NULL)
    (he : ∀ r, ¬ Owns A r e) (hl : A l = some xs) :
    WellFormed (fusionListAddHead h e l) (Function.update A l (some (e :: xs))) ∧
      Keeps h (fusionListAddHead h e l) A (Function.update A l (some (e :: xs))) (· = l) := by
  unfold fusionListAddHead
  rw [(hwf.ring l xs hl).next_eq]
  exact hwf.add [] xs hne he hl

theorem WellFormed.addTail (hwf : WellFormed h A) {e l : Addr} {xs : List Addr} (hne : e ≠ NULL)
    (he : ∀ r, ¬ Owns A r e) (hl : A l = some xs) :
    WellFormed (fusionListAddTail h e l) (Function.update A l (some (xs ++ [e]))) ∧
      Keeps h (fusionListAddTail h e l) A (Function.update A l (some (xs ++ [e]))) (· = l) := by
  unfold fusionListAddTail
  rw [(hwf.ring l xs hl).prev_eq]
  refine hwf.add xs [] hne he ?_
  rw [List.append_nil]
  exact hl

/-- What a list that has been emptied leaves of the ownership. -/
theorem owns_emptied {s r a : Addr} (hr : Owns (Function.update A s (some [])) r a) :
    a = s ∧ r = s ∨ r ≠ s ∧ Owns A r a := by
  rcases owns_update hr with ⟨rfl, ha⟩ | hold
  · exact Or.inl ⟨List.mem_singleton.mp ha, rfl⟩
  · exact Or.inr hold

/-- Emptying the list `s` leaves its entries linked to each other and on no list. -/
theorem WellFormed.emptied (hwf : WellFormed h A) {s x : Addr} {xs : List Addr}
    (hs : A s = some (x :: xs)) :
    Rings (link h s s) (Function.update A s (some [])) ∧
      List.IsChain (Linked (link h s s)) (x :: xs) ∧
      ∀ a ∈ x :: xs, ∀ r, ¬ Owns (Function.update A s (some [])) r a := by
  have hown : ∀ a ∈ s :: x :: xs, Owns A s a := fun a ha ↦ ⟨_, hs, ha⟩
  have hxs : ∀ a ∈ x :: xs, a ≠ s := by
    rintro a ha rfl
    exact (List.nodup_cons.mp (hwf.nodup a _ hs)).1 ha
  have hk : ∀ a, a ≠ s → link h s s a = h a := fun a ha ↦ link_of_ne h ha ha
  refine ⟨?_, ?_, ?_⟩
  · refine hwf.set (isRing_singleton.mpr (linked_link h s s)) (List.nodup_singleton s) ?_ ?_
    · intro a ha r hr
      rw [List.mem_singleton] at ha
      subst ha
      exact hwf.disjoint r a a hr (hown a List.mem_cons_self)
    · intro r a hrs hr
      apply hk
      rintro rfl
      exact hrs (hwf.disjoint r a a hr (hown a List.mem_cons_self))
  · refine isChain_congr (List.isChain_cons_cons.mp (hwf.ring s _ hs).isChain).2 ?_
    intro a ha
    exact hk a (hxs a ha)
  · intro a ha r hr
    rcases owns_emptied hr with ⟨rfl, -⟩ | ⟨hrs, hold⟩
    · exact hxs a ha rfl
    · exact hrs (hwf.disjoint r s a hold (hown a (List.mem_cons_of_mem s ha)))

/-- The entries `x :: xs` of the list `s` go between the last entry of `us` and the first of `vs`,
where `us ++ vs` is the list `d`, and `s` is left empty. -/
theorem WellFormed.splice (hwf : WellFormed h A) {s d x : Addr} {xs : List Addr}
    (us vs : List Addr) (hsd : s ≠ d) (hs : A s = some (x :: xs))
    (hd : A d = some (us ++ vs)) :
    let h' := link (link (link h (us.getLastD d) x) (xs.getLastD x) (vs.headD d)) s s
    let A' := Function.update (Function.update A s (some [])) d (some (us ++ x :: xs ++ vs))
    WellFormed h' A' ∧ Keeps h h' A A' fun l ↦ l = s ∨ l = d := by
  intro h' A'
  have hsnd := hwf.nodup s _ hs
  have hown : ∀ a ∈ s :: x :: xs, Owns A s a := fun a ha ↦ ⟨_, hs, ha⟩
  have hdown : ∀ a ∈ d :: (us ++ vs), Owns A d a := fun a ha ↦ ⟨_, hd, ha⟩
  have hne : ∀ a ∈ d :: (us ++ vs), a ≠ s := by
    rintro a ha rfl
    exact hsd (hwf.disjoint a d a (hown a List.mem_cons_self) (hdown a ha))
  have hxs : ∀ a ∈ x :: xs, a ≠ s := by
    rintro a ha rfl
    exact (List.nodup_cons.mp hsnd).1 ha
  -- first empty the list `s`, so that its entries are on no list
  let k := link h s s
  let B := Function.update A s (some [])
  obtain ⟨hB, hchain, hfree⟩ := hwf.emptied hs
  have hBd : B d = some (us ++ vs) := by
    change Function.update A s (some []) d = _
    rw [Function.update_of_ne (Ne.symm hsd)]
    exact hd
  have hjoin := hB.join hBd rfl hchain (List.nodup_cons.mp hsnd).2 hfree
  have hlastmem : us.getLastD d ∈ d :: (us ++ vs) := by
    rw [← List.cons_append]
    exact List.mem_append_left vs List.getLastD_mem_cons
  have hheadmem : vs.headD d ∈ d :: (us ++ vs) := by
    cases vs with
    | nil => exact List.mem_cons_self
    | cons v vs => simp
  -- the write that empties `s` commutes with the two links at the seams
  have heq : link (link k (us.getLastD d) x) (xs.getLastD x) (vs.headD d) = h' := by
    change link (link (link h s s) _ _) _ _ = link (link (link h _ _) _ _) s s
    rw [link_comm h (Ne.symm (hne _ hlastmem)) (Ne.symm (hxs x List.mem_cons_self)),
      link_comm _ (Ne.symm (hxs _ List.getLastD_mem_cons)) (Ne.symm (hne _ hheadmem))]
  rw [heq] at hjoin
  constructor
  · refine ⟨hjoin, ?_⟩
    intro r hr
    rcases owns_update hr with ⟨-, hmem⟩ | ⟨-, hold⟩
    · have hdn := hwf.notMem hd
      have hsn := hwf.notMem hs
      simp only [List.mem_cons, List.mem_append, not_or] at hmem hdn hsn
      tauto
    · rcases owns_emptied hold with ⟨hs0, -⟩ | ⟨-, hA⟩
      · exact hwf.ne_null (hown s List.mem_cons_self) hs0.symm
      · exact hwf.null r hA
  · intro r ys hr hT
    rw [not_or] at hT
    change Function.update (Function.update A s (some [])) d _ r = _ ∧ _
    rw [Function.update_of_ne hT.2, Function.update_of_ne hT.1]
    refine ⟨hr, ?_⟩
    intro a ha
    have hBr : Owns B r a := by
      refine ⟨ys, ?_, ha⟩
      change Function.update A s (some []) r = _
      rw [Function.update_of_ne hT.1]
      exact hr
    rw [← heq, hB.join_of_ne hBd rfl hfree hBr hT.2]
    have has : a ≠ s := by
      rintro rfl
      exact hT.1 (hwf.disjoint r a a ⟨ys, hr, ha⟩ (hown a List.mem_cons_self))
    exact link_of_ne h has has

/-! ## Each operation refines its operation on sequences -/

theorem seqOf_eq {l : Addr} {xs : List Addr} (hl : A l = some xs) : seqOf A l = xs := by
  unfold seqOf
  rw [hl]
  rfl

theorem OnNoList.notMem (hwf : WellFormed h A) {e l : Addr} {xs : List Addr} (he : OnNoList A e)
    (hl : A l = some xs) (hne : e ≠ l) : e ∉ l :: xs := by
  intro hmem
  have hown : Owns A l e := ⟨xs, hl, hmem⟩
  rcases he with he | he
  · exact hne (hwf.disjoint e l e (owns_root he) hown)
  · exact he l hown

/-- Moving the entries of an empty list changes nothing. -/
theorem update_empty {s d : Addr} {ys : List Addr} (hs : A s = some [])
    (hd : A d = some ys) :
    Function.update (Function.update A s (some [])) d (some ys) = A := by
  rw [← hs, Function.update_eq_self, ← hd, Function.update_eq_self]

theorem Keeps.refl (T : Addr → Prop) : Keeps h h A A T :=
  fun _ _ hl _ ↦ ⟨hl, fun _ _ ↦ rfl⟩

theorem fusionListEmpty_iff (hwf : WellFormed h A) {l : Addr} {xs : List Addr}
    (hl : A l = some xs) : fusionListEmpty h l = true ↔ xs = [] := by
  unfold fusionListEmpty
  rw [beq_iff_eq, (hwf.ring l xs hl).next_eq]
  cases xs with
  | nil => simp
  | cons x xs =>
      have hx : x ≠ l := by
        rintro rfl
        exact (List.nodup_cons.mp (hwf.nodup _ _ hl)).1 List.mem_cons_self
      simp [hx]

theorem fusionListDel_refines (hwf : WellFormed h A) {e : Addr} (he : Element A e) :
    WellFormed (fusionListDel h e) (Function.update (erase A e) e (some [])) ∧
      Keeps h (fusionListDel h e) A (Function.update (erase A e) e (some [])) (Owns A · e) := by
  obtain ⟨r, hr⟩ := he.owns
  obtain ⟨hw, hk⟩ := hwf.delRaw he
  -- the element still points into its old list until it is initialised again
  obtain ⟨hw', hk'⟩ := hw.initList (hwf.ne_null hr) fun l ↦ hwf.not_owns_erase l e
  refine ⟨hw', hk.trans hk' ?_⟩
  intro l hT
  exact hT.resolve_right id

theorem fusionListMoveHead_refines (hwf : WellFormed h A) {e l : Addr} {xs : List Addr}
    (hne : e ≠ l) (he : Element A e) (hl : A l = some xs) :
    let A' := Function.update (erase A e) l (some (e :: xs.erase e))
    WellFormed (fusionListMoveHead h e l) A' ∧
      Keeps h (fusionListMoveHead h e l) A A' fun r ↦ r = l ∨ Owns A r e := by
  obtain ⟨r, hr⟩ := he.owns
  obtain ⟨hw, hk⟩ := hwf.delRaw he
  have hle := erase_of_ne hl (Ne.symm hne)
  obtain ⟨hw', hk'⟩ := hw.addHead (hwf.ne_null hr) (fun r ↦ hwf.not_owns_erase r e) hle
  refine ⟨hw', hk.trans hk' ?_⟩
  intro r hT
  exact hT.symm

theorem fusionListMoveTail_refines (hwf : WellFormed h A) {e l : Addr} {xs : List Addr}
    (hne : e ≠ l) (he : Element A e) (hl : A l = some xs) :
    let A' := Function.update (erase A e) l (some (xs.erase e ++ [e]))
    WellFormed (fusionListMoveTail h e l) A' ∧
      Keeps h (fusionListMoveTail h e l) A A' fun r ↦ r = l ∨ Owns A r e := by
  obtain ⟨r, hr⟩ := he.owns
  obtain ⟨hw, hk⟩ := hwf.delRaw he
  have hle := erase_of_ne hl (Ne.symm hne)
  obtain ⟨hw', hk'⟩ := hw.addTail (hwf.ne_null hr) (fun r ↦ hwf.not_owns_erase r e) hle
  refine ⟨hw', hk.trans hk' ?_⟩
  intro r hT
  exact hT.symm

theorem fusionListPopHead_nil (hwf : WellFormed h A) {l : Addr} (hl : A l = some []) :
    fusionListPopHead h l = (h, NULL) := by
  have hempty := (fusionListEmpty_iff hwf hl).mpr rfl
  unfold fusionListPopHead
  rw [if_neg (not_not_intro hempty)]

theorem fusionListPopHead_cons (hwf : WellFormed h A) {l x : Addr} {xs : List Addr}
    (hl : A l = some (x :: xs)) :
    let A' := Function.update (Function.update A l (some xs)) x (some [])
    (fusionListPopHead h l).2 = x ∧ WellFormed (fusionListPopHead h l).1 A' ∧
      Keeps h (fusionListPopHead h l).1 A A' (· = l) := by
  intro A'
  have hempty : ¬ fusionListEmpty h l = true := by
    rw [fusionListEmpty_iff hwf hl]
    exact List.cons_ne_nil x xs
  have hnext : (h l).next = x := (hwf.ring l _ hl).next_eq
  have hx : x ∈ x :: xs := List.mem_cons_self
  -- deleting the first entry leaves the others, and `x` unlinked
  have hA : Function.update (erase A x) x (some []) = A' := by
    rw [hwf.erase_mem hl hx, List.erase_cons_head]
  obtain ⟨hw, hk⟩ := fusionListDel_refines hwf (Or.inr ⟨l, x :: xs, hl, hx⟩)
  rw [hA] at hw hk
  unfold fusionListPopHead
  rw [if_pos hempty, hnext]
  refine ⟨rfl, hw, ?_⟩
  intro r ys hr hrl
  apply hk r ys hr
  intro hown
  exact hrl (hwf.disjoint r l x hown (owns_mem hl hx))

theorem fusionListAddList_refines (hwf : WellFormed h A) {src dst : Addr} {xs ys : List Addr}
    (hne : src ≠ dst) (hs : A src = some xs) (hd : A dst = some ys) :
    let A' := Function.update (Function.update A src (some [])) dst (some (xs ++ ys))
    WellFormed (fusionListAddList h src dst) A' ∧
      Keeps h (fusionListAddList h src dst) A A' fun l ↦ l = src ∨ l = dst := by
  intro A'
  have hsr := hwf.ring src xs hs
  have hdr := hwf.ring dst ys hd
  cases xs with
  | nil =>
      have hnext : (h src).next = src := hsr.next_eq
      have hA : A' = A := update_empty hs hd
      unfold fusionListAddList
      rw [if_pos hnext, hA]
      exact ⟨hwf, Keeps.refl _⟩
  | cons x xs =>
      have hx : (h src).next = x := hsr.next_eq
      have hown : ∀ a ∈ src :: x :: xs, ∀ b ∈ dst :: ys, a ≠ b := by
        rintro a ha b hb rfl
        exact hne (hwf.disjoint src dst a ⟨_, hs, ha⟩ ⟨_, hd, hb⟩)
      have hdn : (h dst).next ∈ dst :: ys := hdr.next_mem List.mem_cons_self
      have hsp : (h src).prev ∈ src :: x :: xs := hsr.prev_mem List.mem_cons_self
      have hxne : x ≠ src := by
        rintro rfl
        exact (List.nodup_cons.mp (hwf.nodup _ _ hs)).1 List.mem_cons_self
      -- the two rings share no entry, so none of the source's writes undoes another
      have heq : fusionListAddList h src dst = _ := fusionListAddList_eq
        (by rw [hx]; exact hxne)
        (Ne.symm (hown src List.mem_cons_self _ hdn))
        (hown _ hsp dst List.mem_cons_self)
        (by rw [hx]; exact Ne.symm (hown x (by simp) _ hdn))
      rw [hx, hsr.prev_eq, hdr.next_eq, List.getLastD_cons] at heq
      rw [heq]
      exact hwf.splice [] ys hne hs hd

theorem fusionListSplice_refines (hwf : WellFormed h A) {list head : Addr} {xs ys : List Addr}
    (hne : list ≠ head) (hs : A list = some xs) (hd : A head = some ys) :
    let A' := Function.update (Function.update A list (some [])) head (some (xs ++ ys))
    WellFormed (fusionListSplice h list head) A' ∧
      Keeps h (fusionListSplice h list head) A A' fun l ↦ l = list ∨ l = head := by
  intro A'
  have hempty := fusionListEmpty_iff hwf hs
  unfold fusionListSplice
  cases xs with
  | nil =>
      have hA : A' = A := update_empty hs hd
      rw [if_neg (not_not_intro (hempty.mpr rfl)), hA]
      exact ⟨hwf, Keeps.refl _⟩
  | cons x xs =>
      have hnot : ¬ fusionListEmpty h list = true := by
        rw [hempty]
        exact List.cons_ne_nil x xs
      rw [if_pos hnot, fusionInitList_eq, fusionListSpliceRaw_eq, (hwf.ring list _ hs).next_eq,
        (hwf.ring list _ hs).prev_eq, (hwf.ring head _ hd).next_eq, List.getLastD_cons]
      exact hwf.splice [] ys hne hs hd

theorem fusionListSpliceTail_refines (hwf : WellFormed h A) {list head : Addr}
    {xs ys : List Addr} (hne : list ≠ head) (hs : A list = some xs) (hd : A head = some ys) :
    let A' := Function.update (Function.update A list (some [])) head (some (ys ++ xs))
    WellFormed (fusionListSpliceTail h list head) A' ∧
      Keeps h (fusionListSpliceTail h list head) A A' fun l ↦ l = list ∨ l = head := by
  intro A'
  have hempty := fusionListEmpty_iff hwf hs
  unfold fusionListSpliceTail
  cases xs with
  | nil =>
      have hA : A' = A := by
        apply update_empty hs
        rw [List.append_nil]
        exact hd
      rw [if_neg (not_not_intro (hempty.mpr rfl)), hA]
      exact ⟨hwf, Keeps.refl _⟩
  | cons x xs =>
      have hnot : ¬ fusionListEmpty h list = true := by
        rw [hempty]
        exact List.cons_ne_nil x xs
      -- the seam is between the last entry and the head itself
      have hd' : A head = some (ys ++ []) := by
        rw [List.append_nil]
        exact hd
      rw [if_pos hnot, fusionInitList_eq, fusionListSpliceRaw_eq, (hwf.ring list _ hs).next_eq,
        (hwf.ring list _ hs).prev_eq, (hwf.ring head _ hd).prev_eq, List.getLastD_cons]
      have hsplice := hwf.splice ys [] hne hs hd'
      rw [List.append_nil] at hsplice
      exact hsplice

/-- One call within its contract does to the heap what it does to the sequences, returns the same
entry, and leaves the other lists alone. -/
theorem fusionListApply_refines (hwf : WellFormed h A) {op : FusionListOp} (hc : Contract A op) :
    WellFormed (fusionListApply h op).1 (seqApply A op).1 ∧
      (fusionListApply h op).2 = (seqApply A op).2 ∧
      Keeps h (fusionListApply h op).1 A (seqApply A op).1 (Touches A · op) := by
  cases op with
  | initList e =>
      obtain ⟨hne, he⟩ := hc
      obtain ⟨hw, hk⟩ := hwf.forget he
      obtain ⟨hw', hk'⟩ := hw.initList hne fun l ↦ hwf.not_owns_erase l e
      exact ⟨hw', rfl, hk.trans hk' fun l hT ↦ hT.resolve_right id⟩
  | addHead e l =>
      obtain ⟨hne, hel, he, hl⟩ := hc
      obtain ⟨xs, hl⟩ := Option.isSome_iff_exists.mp hl
      obtain ⟨hw, hk⟩ := hwf.forget he
      -- what the entry was before is forgotten; the list it goes to was not that
      have hle := erase_of_notMem hl (he.notMem hwf hl hel)
      obtain ⟨hw', hk'⟩ := hw.addHead hne (fun r ↦ hwf.not_owns_erase r e) hle
      simp only [fusionListApply, seqApply, seqOf_eq hl]
      exact ⟨hw', trivial, hk.trans hk' fun r hT ↦ hT.symm⟩
  | addTail e l =>
      obtain ⟨hne, hel, he, hl⟩ := hc
      obtain ⟨xs, hl⟩ := Option.isSome_iff_exists.mp hl
      obtain ⟨hw, hk⟩ := hwf.forget he
      have hle := erase_of_notMem hl (he.notMem hwf hl hel)
      obtain ⟨hw', hk'⟩ := hw.addTail hne (fun r ↦ hwf.not_owns_erase r e) hle
      simp only [fusionListApply, seqApply, seqOf_eq hl]
      exact ⟨hw', trivial, hk.trans hk' fun r hT ↦ hT.symm⟩
  | del e =>
      obtain ⟨hw, hk⟩ := fusionListDel_refines hwf hc
      exact ⟨hw, rfl, hk⟩
  | moveHead e l =>
      obtain ⟨hne, he, hl⟩ := hc
      obtain ⟨xs, hl⟩ := Option.isSome_iff_exists.mp hl
      simp only [fusionListApply, seqApply, seqOf_eq hl]
      obtain ⟨hw, hk⟩ := fusionListMoveHead_refines hwf hne he hl
      exact ⟨hw, trivial, hk⟩
  | moveTail e l =>
      obtain ⟨hne, he, hl⟩ := hc
      obtain ⟨xs, hl⟩ := Option.isSome_iff_exists.mp hl
      simp only [fusionListApply, seqApply, seqOf_eq hl]
      obtain ⟨hw, hk⟩ := fusionListMoveTail_refines hwf hne he hl
      exact ⟨hw, trivial, hk⟩
  | popHead list =>
      obtain ⟨xs, hl⟩ := Option.isSome_iff_exists.mp hc
      simp only [fusionListApply, seqApply, seqOf_eq hl]
      cases xs with
      | nil =>
          rw [fusionListPopHead_nil hwf hl]
          exact ⟨hwf, rfl, Keeps.refl _⟩
      | cons x xs =>
          obtain ⟨hret, hw, hk⟩ := fusionListPopHead_cons hwf hl
          exact ⟨hw, congrArg some hret, hk⟩
  | addList src dst =>
      obtain ⟨hne, hs, hd⟩ := hc
      obtain ⟨xs, hs⟩ := Option.isSome_iff_exists.mp hs
      obtain ⟨ys, hd⟩ := Option.isSome_iff_exists.mp hd
      simp only [fusionListApply, seqApply, seqOf_eq hs, seqOf_eq hd]
      obtain ⟨hw, hk⟩ := fusionListAddList_refines hwf hne hs hd
      exact ⟨hw, trivial, hk⟩
  | splice list head =>
      obtain ⟨hne, hs, hd⟩ := hc
      obtain ⟨xs, hs⟩ := Option.isSome_iff_exists.mp hs
      obtain ⟨ys, hd⟩ := Option.isSome_iff_exists.mp hd
      simp only [fusionListApply, seqApply, seqOf_eq hs, seqOf_eq hd]
      obtain ⟨hw, hk⟩ := fusionListSplice_refines hwf hne hs hd
      exact ⟨hw, trivial, hk⟩
  | spliceTail list head =>
      obtain ⟨hne, hs, hd⟩ := hc
      obtain ⟨xs, hs⟩ := Option.isSome_iff_exists.mp hs
      obtain ⟨ys, hd⟩ := Option.isSome_iff_exists.mp hd
      simp only [fusionListApply, seqApply, seqOf_eq hs, seqOf_eq hd]
      obtain ⟨hw, hk⟩ := fusionListSpliceTail_refines hwf hne hs hd
      exact ⟨hw, trivial, hk⟩

/-! ## Addresses that no list holds -/

theorem fusionListInit_of_ne {e a : Addr} (hae : a ≠ e) : fusionInitList h e a = h a :=
  link_of_ne h hae hae

theorem fusionListAddHead_of_not_owns (hwf : WellFormed h A) {e l a : Addr} {xs : List Addr}
    (hl : A l = some xs) (ha : ¬ Owns A l a) (hae : a ≠ e) : fusionListAddHead h e l a = h a := by
  have hroot := owns_root hl
  unfold fusionListAddHead
  rw [fusionListAdd_eq, link_of_ne, link_of_ne]
  · exact hae
  · rintro rfl
    exact ha (hwf.next_owns hroot)
  · rintro rfl
    exact ha hroot
  · exact hae

theorem fusionListDel_of_not_owns (hwf : WellFormed h A) {e l a : Addr} (he : Owns A l e)
    (ha : ¬ Owns A l a) : fusionListDel h e a = h a := by
  have hn := hwf.next_owns he
  have hp := hwf.prev_owns he
  have hae : a ≠ e := by
    rintro rfl
    exact ha he
  unfold fusionListDel
  rw [fusionListInit_of_ne hae, fusionListDelRaw_eq (hwf.ne_null hn) (hwf.ne_null hp), link_of_ne]
  · rintro rfl
    exact ha hp
  · rintro rfl
    exact ha hn

theorem fusionListAddList_of_not_owns (hwf : WellFormed h A) {src dst a : Addr}
    {xs ys : List Addr} (hne : src ≠ dst) (hs : A src = some xs) (hd : A dst = some ys)
    (hsa : ¬ Owns A src a) (hda : ¬ Owns A dst a) : fusionListAddList h src dst a = h a := by
  have hsr := owns_root hs
  have hdr := owns_root hd
  by_cases hempty : (h src).next = src
  · unfold fusionListAddList
    rw [if_pos hempty]
  · have hnot : ∀ x y, Owns A src x → Owns A dst y → x ≠ y := by
      rintro x y hx hy rfl
      exact hne (hwf.disjoint src dst x hx hy)
    have hsn := hwf.next_owns hsr
    have hsp := hwf.prev_owns hsr
    have hdn := hwf.next_owns hdr
    have hout : ∀ x, Owns A src x ∨ Owns A dst x → a ≠ x := by
      rintro x (hx | hx) rfl
      · exact hsa hx
      · exact hda hx
    rw [fusionListAddList_eq hempty (Ne.symm (hnot _ _ hsr hdn)) (hnot _ _ hsp hdr)
      (Ne.symm (hnot _ _ hsn hdn)), link_of_ne, link_of_ne, link_of_ne]
    · exact hout _ (Or.inr hdr)
    · exact hout _ (Or.inl hsn)
    · exact hout _ (Or.inl hsp)
    · exact hout _ (Or.inr hdn)
    · exact hout _ (Or.inl hsr)
    · exact hout _ (Or.inl hsr)

/-- Writing an entry that no list holds disturbs no list. -/
theorem WellFormed.poke (hwf : WellFormed h A) {a : Addr} {v : FusionListEntry}
    (ha : ∀ l, ¬ Owns A l a) : WellFormed (Function.update h a v) A := by
  refine ⟨⟨?_, hwf.nodup, hwf.disjoint⟩, hwf.null⟩
  intro l xs hl
  apply (hwf.ring l xs hl).congr
  intro b hb
  apply Function.update_of_ne
  rintro rfl
  exact ha l ⟨xs, hl, hb⟩

/-- A head that goes out of scope. -/
theorem WellFormed.drop (hwf : WellFormed h A) (l : Addr) :
    WellFormed h (Function.update A l none) := by
  refine ⟨hwf.toRings.drop l, ?_⟩
  rintro r ⟨xs, hr, hmem⟩
  by_cases hrl : r = l
  · subst hrl
    rw [Function.update_self] at hr
    cases hr
  · rw [Function.update_of_ne hrl] at hr
    exact hwf.null r ⟨xs, hr, hmem⟩

/-! ## Any number of calls -/

open Transition

/-- A list that no call of a sequence touches keeps its contents and its entries. -/
theorem replay_keeps {ops : List FusionListOp} (hwf : WellFormed h A)
    (hc : Admitted seqApply Contract A ops) {l : Addr} {xs : List Addr} (hl : A l = some xs)
    (ht : Admitted seqApply (fun B op ↦ ¬ Touches B l op) A ops) :
    (replay seqApply A ops).1 l = some xs ∧
      ∀ a ∈ l :: xs, (replay fusionListApply h ops).1 a = h a := by
  induction ops generalizing h A with
  | nil => exact ⟨hl, fun a _ ↦ rfl⟩
  | cons op ops ih =>
      obtain ⟨hw, -, hk⟩ := fusionListApply_refines hwf hc.1
      obtain ⟨hl', hk'⟩ := hk l xs hl ht.1
      obtain ⟨hlast, hsame⟩ := ih hw hc.2 hl' ht.2
      refine ⟨hlast, ?_⟩
      intro a ha
      exact (hsame a ha).trans (hk' a ha)

/-- Every sequence of list calls, each within its contract, does to the heap what the same
operations do to sequences. -/
theorem fusionList_refines_sequences (h : Heap) (A : Seqs) (ops : List FusionListOp)
    (hwf : WellFormed h A) (hc : Admitted seqApply Contract A ops) :
    WellFormed (replay fusionListApply h ops).1 (replay seqApply A ops).1 ∧
      (replay fusionListApply h ops).2 = (replay seqApply A ops).2 ∧
      ∀ l xs, A l = some xs → Admitted seqApply (fun B op ↦ ¬ Touches B l op) A ops →
        (replay seqApply A ops).1 l = some xs ∧
          ∀ a ∈ l :: xs, (replay fusionListApply h ops).1 a = h a := by
  have hstep : ∀ k B op, WellFormed k B → Contract B op →
      WellFormed (fusionListApply k op).1 (seqApply B op).1 ∧
        (fusionListApply k op).2 = (seqApply B op).2 := by
    intro k B op hk hop
    obtain ⟨hw, hans, -⟩ := fusionListApply_refines hk hop
    exact ⟨hw, hans⟩
  have hsim := replay_refines hstep hwf hc
  refine ⟨hsim.1, hsim.2, ?_⟩
  intro l xs hl ht
  exact replay_keeps hwf hc hl ht

/-! Two lists, `1: [2, 3]` and `4: []`, and the unlinked entry `5`. -/

def sampleHeap : Heap
  | 1 => ⟨2, 3⟩
  | 2 => ⟨3, 1⟩
  | 3 => ⟨1, 2⟩
  | 4 => ⟨4, 4⟩
  | 5 => ⟨5, 5⟩
  | _ => ⟨0, 0⟩

def sampleSeqs : Seqs
  | 1 => some [2, 3]
  | 4 => some []
  | 5 => some []
  | _ => none

theorem sampleSeqs_cases {l : Addr} {xs : List Addr} (hl : sampleSeqs l = some xs) :
    l = 1 ∧ xs = [2, 3] ∨ l = 4 ∧ xs = [] ∨ l = 5 ∧ xs = [] := by
  unfold sampleSeqs at hl
  split at hl <;> simp_all

theorem sampleHeap_wellFormed : WellFormed sampleHeap sampleSeqs where
  ring l xs hl := by
    rcases sampleSeqs_cases hl with ⟨rfl, rfl⟩ | ⟨rfl, rfl⟩ | ⟨rfl, rfl⟩
    · rw [isRing_cons]
      simp [Linked, sampleHeap]
    · exact isRing_singleton.mpr ⟨rfl, rfl⟩
    · exact isRing_singleton.mpr ⟨rfl, rfl⟩
  nodup l xs hl := by
    rcases sampleSeqs_cases hl with ⟨rfl, rfl⟩ | ⟨rfl, rfl⟩ | ⟨rfl, rfl⟩ <;> decide
  disjoint l r a ha hr := by
    obtain ⟨xs, hl, ha⟩ := ha
    obtain ⟨ys, hr, hb⟩ := hr
    rcases sampleSeqs_cases hl with ⟨rfl, rfl⟩ | ⟨rfl, rfl⟩ | ⟨rfl, rfl⟩ <;>
      rcases sampleSeqs_cases hr with ⟨rfl, rfl⟩ | ⟨rfl, rfl⟩ | ⟨rfl, rfl⟩ <;>
      simp_all
  null l hown := by
    obtain ⟨xs, hl, ha⟩ := hown
    rcases sampleSeqs_cases hl with ⟨rfl, rfl⟩ | ⟨rfl, rfl⟩ | ⟨rfl, rfl⟩ <;>
      simp [NULL] at ha

/-- Moving the tail to the head of its own list, adding the unlinked entry, moving both lists into
one, popping it and moving an entry to the emptied list. -/
theorem fusionList_refines_sequences_sample :
    let ops := [.moveHead 3 1, .addTail 5 4, .splice 1 4, .popHead 4, .moveTail 2 1]
    WellFormed (replay fusionListApply sampleHeap ops).1 (replay seqApply sampleSeqs ops).1 ∧
      (replay fusionListApply sampleHeap ops).2 = [none, none, none, some 3, none] ∧
      (replay seqApply sampleSeqs ops).1 1 = some [2] ∧
      (replay seqApply sampleSeqs ops).1 4 = some [5] := by
  intro ops
  have hc : Admitted seqApply Contract sampleSeqs ops := by
    refine ⟨⟨by decide, Or.inr ⟨1, [2, 3], rfl, by decide⟩, rfl⟩,
      ⟨by decide, by decide, Or.inl (by decide), by decide⟩, ⟨by decide, by decide, by decide⟩,
      rfl, ⟨by decide, Or.inr ⟨4, [2, 5], by decide, by decide⟩, by decide⟩, trivial⟩
  have hrun := fusionList_refines_sequences sampleHeap sampleSeqs ops sampleHeap_wellFormed hc
  exact ⟨hrun.1, hrun.2.1, by decide, by decide⟩

end IomemoryVsl.Port
