import IomemoryVsl.Port.AtomicList

/-!
# Every interleaving of an atomic list

The invariant says where each entry is: in one of the chains, in a half-finished add, or with an
owner who may write it.  An add that reads the head, stores it in its entry and then finds the same
head again has its entry linked to what is the head at that moment, no matter what was spliced and
added in between, because nobody else may write the entry.
-/

namespace IomemoryVsl.Port

open Transition NullChain

variable {τ η ε : Type*}

def AddPc.entry : AddPc ε → Option ε
  | .idle => none
  | .load e | .store e _ | .cmpxchg e _ => some e

/-- Where the chain of a private head starts. -/
def DrainPc.start (head : Option ε) : DrainPc ε → Option ε
  | .drained => none
  | .exchanged chain => chain
  | .spliced => head
  | .fetch pos => pos
  | .body pos _ => some pos

def AtomicList.start (s : AtomicList τ η ε) : Option η → Option ε
  | none => s.list
  | some h => (s.drains h).start (s.heads h)

theorem not_held_nil (e : ε) : ¬ Held (fun _ : Option η ↦ ([] : List ε)) e := by
  rintro ⟨k, hk⟩
  cases hk

section Adders

variable [DecidableEq τ]

theorem adders_setAdder_self (s : AtomicList τ η ε) (t : τ) (pc : AddPc ε) :
    (s.setAdder t pc).adders t = pc := by
  unfold AtomicList.setAdder
  exact Function.update_self ..

theorem adders_setAdder_of_ne (s : AtomicList τ η ε) {t u : τ} (hu : u ≠ t) (pc : AddPc ε) :
    (s.setAdder t pc).adders u = s.adders u := by
  unfold AtomicList.setAdder
  exact Function.update_of_ne hu ..

end Adders

variable [DecidableEq η]

theorem start_storeList (s : AtomicList τ η ε) (p : Option ε) (o : ListObs η ε) :
    (s.storeList p o).start = Function.update s.start none p := by
  funext k
  cases k with
  | none =>
      rw [Function.update_self]
      rfl
  | some h =>
      rw [Function.update_of_ne (by intro hn; cases hn)]
      rfl

theorem start_setDrain (s : AtomicList τ η ε) (h : η) (d : DrainPc ε) :
    (s.setDrain h d).start = Function.update s.start (some h) (d.start (s.heads h)) := by
  funext k
  cases k with
  | none =>
      rw [Function.update_of_ne (by intro hn; cases hn)]
      rfl
  | some h' =>
      by_cases hh : h' = h
      · subst hh
        rw [Function.update_self]
        show (Function.update s.drains h' d h').start (s.heads h') = _
        rw [Function.update_self]
      · have hne : some h' ≠ some h := fun hn ↦ hh (Option.some.inj hn)
        rw [Function.update_of_ne hne]
        show (Function.update s.drains h d h').start (s.heads h') = _
        rw [Function.update_of_ne hh]
        rfl

theorem drains_setDrain_self (s : AtomicList τ η ε) (h : η) (d : DrainPc ε) :
    (s.setDrain h d).drains h = d := by
  unfold AtomicList.setDrain
  exact Function.update_self ..

theorem drains_setDrain_of_ne (s : AtomicList τ η ε) {h h' : η} (hh : h' ≠ h) (d : DrainPc ε) :
    (s.setDrain h d).drains h' = s.drains h' := by
  unfold AtomicList.setDrain
  exact Function.update_of_ne hh ..

/-- Only after the splice is the pointer of a private head looked at. -/
theorem start_storeHead (s : AtomicList τ η ε) {h : η} (hd : s.drains h ≠ .spliced)
    (p : Option ε) : (s.storeHead h p).start = s.start := by
  funext k
  cases k with
  | none => rfl
  | some h' =>
      show (s.drains h').start (Function.update s.heads h p h') = (s.drains h').start (s.heads h')
      by_cases hh : h' = h
      · subst hh
        cases hc : s.drains h' with
        | spliced => exact absurd hc hd
        | _ => rfl
      · rw [Function.update_of_ne hh]

variable [DecidableEq ε]

structure AtomicListInv (s : AtomicList τ η ε) (A : Option η → List ε) : Prop where
  chains : Chains s.next s.start A
  abstract : run chainsStep (fun _ ↦ []) s.trace = some A
  linked : ∀ t e cur, s.adders t = .cmpxchg e cur → s.next e = cur
  fetched : ∀ h pos n, s.drains h = .body pos n → s.next pos = n
  adding : ∀ t e, (s.adders t).entry = some e → s.owned e = false ∧ ¬ Held A e
  single : ∀ t u e, (s.adders t).entry = some e → (s.adders u).entry = some e → t = u
  free : ∀ e, s.owned e = true → ¬ Held A e
  taken : ∀ e, s.owned e = false → Held A e ∨ ∃ t, (s.adders t).entry = some e
  counts : ∀ e, Held A e ∧ adds s.trace e = consumes s.trace e + 1 ∨
    ¬ Held A e ∧ adds s.trace e = consumes s.trace e

variable {s : AtomicList τ η ε} {A : Option η → List ε}

theorem initial_atomicListInv (next : ε → Option ε) :
    AtomicListInv (AtomicList.initial next : AtomicList τ η ε) fun _ ↦ [] where
  chains := {
    chain k := by cases k <;> rfl
    separate j k a ha := by cases ha }
  abstract := rfl
  linked t e cur h := by cases h
  fetched h pos n hd := by cases hd
  adding t e h := by cases h
  single t u e h := by cases h
  free e _ := not_held_nil e
  taken e h := by cases h
  counts e := Or.inr ⟨not_held_nil e, rfl⟩

/-- The entry at which the loop stands heads the chain of its head. -/
theorem AtomicListInv.body_eq (hi : AtomicListInv s A) {h : η} {pos : ε} {n : Option ε}
    (hd : s.drains h = .body pos n) : ∃ l, A (some h) = pos :: l := by
  have hc := hi.chains.chain (some h)
  have hstart : s.start (some h) = some pos := by
    unfold AtomicList.start
    dsimp only
    rw [hd]
    rfl
  rw [hstart, chain_some] at hc
  obtain ⟨l, hl, -⟩ := hc
  exact ⟨l, hl⟩

theorem AtomicListInv.drained_eq (hi : AtomicListInv s A) {h : η}
    (hd : s.drains h = .drained) : A (some h) = [] := by
  have hc := hi.chains.chain (some h)
  have hstart : s.start (some h) = none := by
    unfold AtomicList.start
    dsimp only
    rw [hd]
    rfl
  rw [hstart, chain_none] at hc
  exact hc

theorem AtomicListInv.empty_iff (hi : AtomicListInv s A) :
    fusionAtomicListEmpty s = true ↔ A none = [] := by
  have hc : Chain s.next s.list (A none) := hi.chains.chain none
  unfold fusionAtomicListEmpty
  rw [Option.isNone_iff_eq_none]
  constructor
  · intro hnone
    rw [hnone, chain_none] at hc
    exact hc
  · intro hnil
    rw [hnil] at hc
    exact hc

/-! ## Steps that leave the chains alone -/

/-- An entry outside of the chains is written, by whoever adds or owns it. -/
theorem AtomicListInv.storeNext (hi : AtomicListInv s A) {e : ε} {p : Option ε}
    (hout : ¬ Held A e) (hadd : ∀ t cur, s.adders t ≠ .cmpxchg e cur) :
    AtomicListInv (s.storeNext e p) A where
  chains := hi.chains.write hout
  abstract := hi.abstract
  linked t e' cur h := by
    have hne : e' ≠ e := by
      intro hne
      subst hne
      exact hadd t cur h
    exact (Function.update_of_ne hne ..).trans (hi.linked t e' cur h)
  fetched h pos n hd := by
    have hne : pos ≠ e := by
      intro hne
      subst hne
      obtain ⟨l, hl⟩ := hi.body_eq hd
      exact hout ⟨some h, hl ▸ List.mem_cons_self⟩
    exact (Function.update_of_ne hne ..).trans (hi.fetched h pos n hd)
  adding := hi.adding
  single := hi.single
  free := hi.free
  taken := hi.taken
  counts := hi.counts

section Adders

variable [DecidableEq τ]

/-- A thread moves on with the entry it adds. -/
theorem AtomicListInv.setAdder (hi : AtomicListInv s A) {t : τ} {pc : AddPc ε}
    (hentry : pc.entry = (s.adders t).entry)
    (hlinked : ∀ e cur, pc = .cmpxchg e cur → s.next e = cur) :
    AtomicListInv (s.setAdder t pc) A := by
  have hentries : ∀ u, ((s.setAdder t pc).adders u).entry = (s.adders u).entry := by
    intro u
    by_cases hu : u = t
    · subst hu
      rw [adders_setAdder_self, hentry]
    · rw [adders_setAdder_of_ne s hu]
  exact {
    chains := hi.chains
    abstract := hi.abstract
    linked := by
      intro u e cur h
      by_cases hu : u = t
      · subst hu
        rw [adders_setAdder_self] at h
        exact hlinked e cur h
      · rw [adders_setAdder_of_ne s hu] at h
        exact hi.linked u e cur h
    fetched := hi.fetched
    adding := by
      intro u e h
      rw [hentries] at h
      exact hi.adding u e h
    single := by
      intro u v e h h'
      rw [hentries] at h h'
      exact hi.single u v e h h'
    free := hi.free
    taken := by
      intro e he
      rcases hi.taken e he with hheld | ⟨u, hu⟩
      · exact Or.inl hheld
      · exact Or.inr ⟨u, (hentries u).trans hu⟩
    counts := hi.counts }

/-- A call of add takes the entry from its owner. -/
theorem AtomicListInv.callAdd (hi : AtomicListInv s A) {t : τ} {e : ε}
    (hidle : s.adders t = .idle) (howned : s.owned e = true) :
    AtomicListInv ((s.take e).setAdder t (.load e)) A := by
  -- nobody else is adding the entry, since it has an owner
  have hnot : ∀ u, (s.adders u).entry ≠ some e := by
    intro u hu
    rw [(hi.adding u e hu).1] at howned
    cases howned
  exact {
    chains := hi.chains
    abstract := hi.abstract
    linked := by
      intro u e' cur h
      by_cases hu : u = t
      · subst hu
        rw [adders_setAdder_self] at h
        cases h
      · rw [adders_setAdder_of_ne _ hu] at h
        exact hi.linked u e' cur h
    fetched := hi.fetched
    adding := by
      intro u e' h
      by_cases hu : u = t
      · subst hu
        rw [adders_setAdder_self] at h
        cases h
        exact ⟨Function.update_self .., hi.free e howned⟩
      · rw [adders_setAdder_of_ne _ hu] at h
        have hne : e' ≠ e := by
          intro hne
          subst hne
          exact hnot u h
        obtain ⟨hfalse, hout⟩ := hi.adding u e' h
        exact ⟨(Function.update_of_ne hne ..).trans hfalse, hout⟩
    single := by
      intro u v e' h h'
      by_cases hu : u = t
      · by_cases hv : v = t
        · rw [hu, hv]
        · subst hu
          rw [adders_setAdder_self] at h
          rw [adders_setAdder_of_ne _ hv] at h'
          cases h
          exact absurd h' (hnot v)
      · rw [adders_setAdder_of_ne _ hu] at h
        by_cases hv : v = t
        · subst hv
          rw [adders_setAdder_self] at h'
          cases h'
          exact absurd h (hnot u)
        · rw [adders_setAdder_of_ne _ hv] at h'
          exact hi.single u v e' h h'
    free := by
      intro e' h
      have hne : e' ≠ e := by
        intro hne
        subst hne
        have hfalse : Function.update s.owned e' false e' = true := h
        rw [Function.update_self] at hfalse
        cases hfalse
      exact hi.free e' ((Function.update_of_ne hne ..).symm.trans h)
    taken := by
      intro e' h
      by_cases hne : e' = e
      · subst hne
        refine Or.inr ⟨t, ?_⟩
        rw [adders_setAdder_self]
        rfl
      · rcases hi.taken e' ((Function.update_of_ne hne ..).symm.trans h) with hheld | ⟨u, hu⟩
        · exact Or.inl hheld
        · -- the caller was not adding another entry
          have hut : u ≠ t := by
            intro hut
            subst hut
            rw [hidle] at hu
            cases hu
          refine Or.inr ⟨u, ?_⟩
          rw [adders_setAdder_of_ne _ hut]
          exact hu
    counts := hi.counts }

/-- The compare and exchange succeeds.  That the head is the one that was loaded is all that is
needed: the entry was linked to it and has not been written since. -/
theorem AtomicListInv.added (hi : AtomicListInv s A) {t : τ} {e : ε}
    (hpc : s.adders t = .cmpxchg e s.list) :
    AtomicListInv ((s.storeList (some e) (.added e)).setAdder t .idle) (push A none e) := by
  have hentry : (s.adders t).entry = some e := by
    rw [hpc]
    rfl
  obtain ⟨howned, hout⟩ := hi.adding t e hentry
  -- the thread is done, and nobody else was adding the entry
  have hother : ∀ u e', u ≠ t → (s.adders u).entry = some e' → e' ≠ e := by
    intro u e' hu h hne
    subst hne
    exact hu (hi.single u t e' h hentry)
  have hback : ∀ u e', (((s.storeList (some e) (.added e)).setAdder t .idle).adders u).entry =
      some e' → u ≠ t ∧ (s.adders u).entry = some e' := by
    intro u e' h
    by_cases hu : u = t
    · subst hu
      rw [adders_setAdder_self] at h
      cases h
    · rw [adders_setAdder_of_ne _ hu] at h
      exact ⟨hu, h⟩
  exact {
    chains := by
      -- `linked` gives `e->next = list->next`, which is all that a push needs
      show Chains s.next (s.storeList (some e) (.added e)).start _
      rw [start_storeList]
      exact hi.chains.push hout (hi.linked t e s.list hpc)
    abstract := run_concat hi.abstract (.added e)
    linked := by
      intro u e' cur h
      have hu : u ≠ t := by
        intro hu
        subst hu
        rw [adders_setAdder_self] at h
        cases h
      rw [adders_setAdder_of_ne _ hu] at h
      exact hi.linked u e' cur h
    fetched := hi.fetched
    adding := by
      intro u e' h
      obtain ⟨hu, h⟩ := hback u e' h
      obtain ⟨hfalse, hout'⟩ := hi.adding u e' h
      refine ⟨hfalse, ?_⟩
      intro hheld
      rcases held_push.mp hheld with he | hheld
      · exact hother u e' hu h he
      · exact hout' hheld
    single := by
      intro u v e' h h'
      exact hi.single u v e' (hback u e' h).2 (hback v e' h').2
    free := by
      intro e' h hheld
      rcases held_push.mp hheld with he | hheld
      · subst he
        have htrue : s.owned e' = true := h
        rw [howned] at htrue
        cases htrue
      · exact hi.free e' h hheld
    taken := by
      intro e' h
      rcases hi.taken e' h with hheld | ⟨u, hu⟩
      · exact Or.inl (held_push.mpr (Or.inr hheld))
      · by_cases hut : u = t
        · -- what the thread was adding is now in the shared list
          subst hut
          have he : e' = e := Option.some.inj (hu.symm.trans hentry)
          exact Or.inl (held_push.mpr (Or.inl he))
        · refine Or.inr ⟨u, ?_⟩
          rw [adders_setAdder_of_ne _ hut]
          exact hu
    counts := by
      intro e'
      have hadds : adds (s.trace ++ [.added e]) e' = adds s.trace e' + if e = e' then 1 else 0 := by
        rw [adds_append, adds_added]
      have hconsumes : consumes (s.trace ++ [.added e]) e' = consumes s.trace e' := by
        rw [consumes_append]
        rfl
      show Held (push A none e) e' ∧
          adds (s.trace ++ [.added e]) e' = consumes (s.trace ++ [.added e]) e' + 1 ∨
        ¬ Held (push A none e) e' ∧
          adds (s.trace ++ [.added e]) e' = consumes (s.trace ++ [.added e]) e'
      rw [held_push, hadds, hconsumes]
      rcases hi.counts e' with ⟨hheld, hc⟩ | ⟨hheld, hc⟩
      · have hne : e ≠ e' := by
          intro hne
          subst hne
          exact hout hheld
        rw [if_neg hne]
        exact Or.inl ⟨Or.inr hheld, hc⟩
      · by_cases hne : e = e'
        · rw [if_pos hne, hc]
          exact Or.inl ⟨Or.inl hne.symm, rfl⟩
        · rw [if_neg hne]
          refine Or.inr ⟨?_, hc⟩
          rintro (he | hheld')
          · exact hne he.symm
          · exact hheld hheld' }

end Adders

/-! ## The steps of a private head -/

theorem AtomicListInv.fetched_setDrain (hi : AtomicListInv s A) {h : η} {d : DrainPc ε}
    (hd : ∀ pos n, d = .body pos n → s.next pos = n) {h' : η} {pos : ε} {n : Option ε}
    (hbody : (s.setDrain h d).drains h' = .body pos n) : s.next pos = n := by
  by_cases hh : h' = h
  · subst hh
    rw [drains_setDrain_self] at hbody
    exact hd pos n hbody
  · rw [drains_setDrain_of_ne s hh] at hbody
    exact hi.fetched h' pos n hbody

/-- The user of a head moves on without touching its chain. -/
theorem AtomicListInv.setDrain (hi : AtomicListInv s A) {h : η} {d : DrainPc ε}
    (hstart : d.start (s.heads h) = s.start (some h))
    (hd : ∀ pos n, d = .body pos n → s.next pos = n) : AtomicListInv (s.setDrain h d) A where
  chains := by
    show Chains s.next (s.setDrain h d).start A
    rw [start_setDrain, hstart, Function.update_eq_self]
    exact hi.chains
  abstract := hi.abstract
  linked := hi.linked
  fetched h' pos n hbody := hi.fetched_setDrain hd hbody
  adding := hi.adding
  single := hi.single
  free := hi.free
  taken := hi.taken
  counts := hi.counts

theorem AtomicListInv.storeHead (hi : AtomicListInv s A) {h : η} (p : Option ε)
    (hd : s.drains h ≠ .spliced) : AtomicListInv (s.storeHead h p) A where
  chains := by
    show Chains s.next (s.storeHead h p).start A
    rw [start_storeHead s hd]
    exact hi.chains
  abstract := hi.abstract
  linked := hi.linked
  fetched := hi.fetched
  adding := hi.adding
  single := hi.single
  free := hi.free
  taken := hi.taken
  counts := hi.counts

theorem AtomicListInv.spliced (hi : AtomicListInv s A) {h : η} (hd : s.drains h = .drained) :
    AtomicListInv ((s.storeList none (.spliced h)).setDrain h (.exchanged s.list))
      (move A none (some h)) := by
  have hne : (none : Option η) ≠ some h := by
    intro hn
    cases hn
  -- the head has consumed its last chain, so nothing is dropped when the new one arrives
  have hempty := hi.drained_eq hd
  exact {
    chains := by
      show Chains s.next ((s.storeList none (.spliced h)).setDrain h (.exchanged s.list)).start _
      rw [start_setDrain, start_storeList, Function.update_comm hne]
      exact hi.chains.move hne hempty
    abstract := (run_concat hi.abstract (.spliced h)).trans (if_pos hempty)
    linked := hi.linked
    fetched := by
      intro h' pos n hbody
      apply hi.fetched_setDrain _ hbody
      intro pos n hn
      cases hn
    adding := by
      intro t e ht
      rw [held_move hne hempty]
      exact hi.adding t e ht
    single := hi.single
    free := by
      intro e he
      rw [held_move hne hempty]
      exact hi.free e he
    taken := by
      intro e he
      rw [held_move hne hempty]
      exact hi.taken e he
    counts := by
      intro e
      have hadds : adds (s.trace ++ [.spliced h]) e = adds s.trace e := by
        rw [adds_append]
        rfl
      have hconsumes : consumes (s.trace ++ [.spliced h]) e = consumes s.trace e := by
        rw [consumes_append]
        rfl
      show Held (move A none (some h)) e ∧
          adds (s.trace ++ [.spliced h]) e = consumes (s.trace ++ [.spliced h]) e + 1 ∨
        ¬ Held (move A none (some h)) e ∧
          adds (s.trace ++ [.spliced h]) e = consumes (s.trace ++ [.spliced h]) e
      rw [held_move hne hempty, hadds, hconsumes]
      exact hi.counts e }

/-- The body of the loop gives the first entry of the chain back, and the loop goes on with what it
read from the entry before. -/
theorem AtomicListInv.consumed (hi : AtomicListInv s A) {h : η} {pos : ε} {n : Option ε}
    (hd : s.drains h = .body pos n) :
    AtomicListInv ((s.giveBack h pos).setDrain h (.fetch n)) (pop A (some h)) := by
  obtain ⟨l, hl⟩ := hi.body_eq hd
  have hheld : Held A pos := ⟨some h, by rw [hl]; exact List.mem_cons_self⟩
  -- until it is given back nobody writes the entry, so `n` is still what follows it
  have hnext := hi.fetched h pos n hd
  exact {
    chains := by
      show Chains s.next ((s.giveBack h pos).setDrain h (.fetch n)).start _
      rw [start_setDrain, ← hnext]
      exact hi.chains.pop hl
    abstract := (run_concat hi.abstract (.consumed h pos)).trans (if_pos (by rw [hl]; rfl))
    linked := hi.linked
    fetched := by
      intro h' pos' n' hbody
      apply hi.fetched_setDrain _ hbody
      intro pos' n' hn
      cases hn
    adding := by
      intro t e ht
      obtain ⟨hfalse, hout⟩ := hi.adding t e ht
      have hne : e ≠ pos := by
        intro hne
        subst hne
        exact hout hheld
      rw [hi.chains.held_pop hl]
      exact ⟨(Function.update_of_ne hne ..).trans hfalse, fun hh ↦ hout hh.2⟩
    single := hi.single
    free := by
      intro e he
      rw [hi.chains.held_pop hl]
      rintro ⟨hne, hh⟩
      exact hi.free e ((Function.update_of_ne hne ..).symm.trans he) hh
    taken := by
      intro e he
      have hne : e ≠ pos := by
        intro hne
        subst hne
        have hfalse : Function.update s.owned e true e = false := he
        rw [Function.update_self] at hfalse
        cases hfalse
      rw [hi.chains.held_pop hl]
      rcases hi.taken e ((Function.update_of_ne hne ..).symm.trans he) with hh | ⟨t, ht⟩
      · exact Or.inl ⟨hne, hh⟩
      · exact Or.inr ⟨t, ht⟩
    counts := by
      intro e
      have hadds : adds (s.trace ++ [.consumed h pos]) e = adds s.trace e := by
        rw [adds_append]
        rfl
      have hconsumes : consumes (s.trace ++ [.consumed h pos]) e =
          consumes s.trace e + if pos = e then 1 else 0 := by
        rw [consumes_append, consumes_consumed]
      show Held (pop A (some h)) e ∧
          adds (s.trace ++ [.consumed h pos]) e = consumes (s.trace ++ [.consumed h pos]) e + 1 ∨
        ¬ Held (pop A (some h)) e ∧
          adds (s.trace ++ [.consumed h pos]) e = consumes (s.trace ++ [.consumed h pos]) e
      rw [hi.chains.held_pop hl, hadds, hconsumes]
      by_cases he : pos = e
      · subst he
        rw [if_pos rfl]
        rcases hi.counts pos with ⟨-, hc⟩ | ⟨hnot, -⟩
        · exact Or.inr ⟨fun hh ↦ hh.1 rfl, hc⟩
        · exact absurd hheld hnot
      · rw [if_neg he]
        rcases hi.counts e with ⟨hh, hc⟩ | ⟨hnot, hc⟩
        · exact Or.inl ⟨⟨Ne.symm he, hh⟩, hc⟩
        · exact Or.inr ⟨fun hh ↦ hnot hh.2, hc⟩ }

/-! ## Every run -/

variable {s' : AtomicList τ η ε}

theorem fusionAtomicListSplice_inv {h : η} (hi : AtomicListInv s A)
    (hstep : fusionAtomicListSplice s h = some s') : ∃ B, AtomicListInv s' B := by
  unfold fusionAtomicListSplice at hstep
  split at hstep
  · rename_i hd
    cases hstep
    exact ⟨_, hi.spliced hd⟩
  · rename_i chain hd
    cases hstep
    have hhead := hi.storeHead chain (h := h) (by
      intro hn
      rw [hd] at hn
      cases hn)
    refine ⟨A, hhead.setDrain ?_ ?_⟩
    · show Function.update s.heads h chain h = (s.drains h).start _
      rw [Function.update_self, hd]
      rfl
    · intro pos n hn
      cases hn
  · cases hstep

theorem fusionAtomicListForEach_inv {h : η} (hi : AtomicListInv s A)
    (hstep : fusionAtomicListForEach s h = some s') : ∃ B, AtomicListInv s' B := by
  have hstart : s.start (some h) = (s.drains h).start (s.heads h) := rfl
  unfold fusionAtomicListForEach at hstep
  split at hstep
  · rename_i hd
    cases hstep
    refine ⟨A, hi.setDrain ?_ ?_⟩
    · rw [hstart, hd]
      rfl
    · intro pos n hn
      cases hn
  · rename_i hd
    cases hstep
    refine ⟨A, hi.setDrain ?_ ?_⟩
    · rw [hstart, hd]
      rfl
    · intro pos n hn
      cases hn
  · rename_i pos hd
    cases hstep
    refine ⟨A, hi.setDrain ?_ ?_⟩
    · rw [hstart, hd]
      rfl
    · intro pos' n hn
      cases hn
      rfl
  · rename_i pos n hd
    cases hstep
    exact ⟨_, hi.consumed hd⟩
  · cases hstep

variable [DecidableEq τ]

theorem fusionAtomicListAdd_inv {t : τ} (hi : AtomicListInv s A)
    (hstep : fusionAtomicListAdd s t = some s') : ∃ B, AtomicListInv s' B := by
  unfold fusionAtomicListAdd at hstep
  split at hstep
  · cases hstep
  · rename_i entry hpc
    cases hstep
    refine ⟨A, hi.setAdder ?_ ?_⟩
    · rw [hpc]
      rfl
    · intro e cur h
      cases h
  · rename_i entry cur hpc
    cases hstep
    have hentry : (s.adders t).entry = some entry := by
      rw [hpc]
      rfl
    -- nobody else is adding the entry that is written
    have hstore := hi.storeNext (p := cur) (hi.adding t entry hentry).2 (by
      intro u cur' hu
      have hut := hi.single u t entry (by rw [hu]; rfl) hentry
      rw [hut, hpc] at hu
      cases hu)
    refine ⟨A, hstore.setAdder ?_ ?_⟩
    · exact hentry.symm
    · intro e cur' h
      cases h
      exact Function.update_self ..
  · rename_i entry cur hpc
    by_cases hcur : s.list = cur
    · -- equal heads suffice, even if the list changed in between
      subst hcur
      rw [if_pos rfl] at hstep
      cases hstep
      exact ⟨_, hi.added hpc⟩
    · rw [if_neg hcur] at hstep
      cases hstep
      refine ⟨A, hi.setAdder ?_ ?_⟩
      · rw [hpc]
        rfl
      · intro e cur h
        cases h

theorem atomicListInv_step (s : AtomicList τ η ε) (e : ListEvent τ η ε) (s' : AtomicList τ η ε)
    (hi : ∃ A, AtomicListInv s A) (hstep : atomicListStep s e = some s') :
    ∃ A, AtomicListInv s' A := by
  obtain ⟨A, hi⟩ := hi
  cases e with
  | write entry p =>
      simp only [atomicListStep, Option.ite_none_right_eq_some, Option.some.injEq] at hstep
      obtain ⟨howned, rfl⟩ := hstep
      refine ⟨A, hi.storeNext (hi.free entry howned) ?_⟩
      -- an entry that is being added has no owner
      intro t cur ht
      rw [(hi.adding t entry (by rw [ht]; rfl)).1] at howned
      cases howned
  | callAdd t entry =>
      simp only [atomicListStep] at hstep
      split at hstep
      · rename_i hidle
        rw [Option.ite_none_right_eq_some, Option.some.injEq] at hstep
        obtain ⟨howned, rfl⟩ := hstep
        exact ⟨A, hi.callAdd hidle howned⟩
      · cases hstep
  | add t => exact fusionAtomicListAdd_inv hi hstep
  | splice h => exact fusionAtomicListSplice_inv hi hstep
  | forEach h => exact fusionAtomicListForEach_inv hi hstep

variable {next₀ : ε → Option ε} {es : List (ListEvent τ η ε)}

theorem atomicList_reachable (hr : run atomicListStep (AtomicList.initial next₀) es = some s) :
    ∃ A, AtomicListInv s A :=
  run_invariant atomicListInv_step ⟨_, initial_atomicListInv next₀⟩ hr

/-- The shared list and the spliced lists are null-terminated chains without repetition, an entry
is in exactly one of them from its add until it is consumed and in none otherwise, and each lists
its entries in the reverse order of their adds.  An add that has returned did add its entry: an
entry that has been given up and that no thread is adding any more is in one of the chains. -/
theorem atomicList_chains (hr : run atomicListStep (AtomicList.initial next₀) es = some s) :
    ∃ A : Option η → List ε,
      run chainsStep (fun _ ↦ []) s.trace = some A ∧
      (∀ k, Chain s.next (s.start k) (A k) ∧ (A k).Nodup) ∧
      (∀ e, (adds s.trace e = consumes s.trace e + 1 ∧ ∃! k, e ∈ A k) ∨
        adds s.trace e = consumes s.trace e ∧ ∀ k, e ∉ A k) ∧
      (∀ e, s.owned e = false → (∀ t, (s.adders t).entry ≠ some e) → ∃! k, e ∈ A k) ∧
      A none = (addedSinceSplice [] s.trace).reverse ∧
      ∀ os h ps, s.trace = os ++ .spliced h :: ps → .spliced h ∉ ps →
        (addedSinceSplice [] os).reverse = consumedThrough h ps ++ A (some h) := by
  obtain ⟨A, hi⟩ := atomicList_reachable hr
  refine ⟨A, hi.abstract, ?_, ?_, ?_, ?_, ?_⟩
  · intro k
    exact ⟨hi.chains.chain k, (hi.chains.chain k).nodup⟩
  · intro e
    rcases hi.counts e with ⟨hheld, hc⟩ | ⟨hheld, hc⟩
    · exact Or.inl ⟨hc, hi.chains.existsUnique hheld⟩
    · exact Or.inr ⟨hc, fun k hk ↦ hheld ⟨k, hk⟩⟩
  · intro e howned hnot
    rcases hi.taken e howned with hheld | ⟨t, ht⟩
    · exact hi.chains.existsUnique hheld
    · exact absurd ht (hnot t)
  · exact shared_eq_addedSinceSplice hi.abstract rfl
  · intro os h ps htrace hps
    have habs := hi.abstract
    rw [htrace, run_append, Option.bind_eq_some_iff] at habs
    obtain ⟨B, hB, hrest⟩ := habs
    obtain ⟨C, hC, hrest⟩ := run_cons_eq_some.mp hrest
    simp only [chainsStep, Option.ite_none_right_eq_some, Option.some.injEq] at hC
    obtain ⟨-, rfl⟩ := hC
    -- the splice moves the shared list of that moment
    rw [← spliced_eq_consumed_append hrest hps, ← shared_eq_addedSinceSplice hB rfl]
    unfold move
    rw [Function.update_of_ne (by intro hn; cases hn), Function.update_self]

/-- The head that the add of 2 has loaded is spliced, consumed and added again before its compare
and exchange, which makes the first one of 3 fail. -/
def readdedHead : List (ListEvent Nat Nat Nat) :=
  [.callAdd 0 1, .add 0, .add 0, .add 0, .callAdd 1 2, .add 1, .add 1,
    .splice 0, .splice 0, .forEach 0, .forEach 0, .forEach 0, .forEach 0, .write 1 (some 7),
    .callAdd 0 1, .add 0, .add 0, .add 0, .callAdd 0 3, .add 0, .add 0, .add 1,
    .add 0, .add 0, .add 0, .add 0]

theorem atomicList_chains_readdedHead :
    ∃ (s : AtomicList Nat Nat Nat) (A : Option Nat → List Nat),
      run atomicListStep (AtomicList.initial fun _ ↦ none) readdedHead = some s ∧
      run chainsStep (fun _ ↦ []) s.trace = some A ∧ Chain s.next s.list [3, 2, 1] ∧
      (∃! k, 3 ∈ A k) ∧ adds s.trace 1 = 2 ∧ consumes s.trace 1 = 1 := by
  have hsome : (run atomicListStep (AtomicList.initial fun _ ↦ none) readdedHead).isSome = true :=
    rfl
  have hr := (Option.some_get hsome).symm
  have htrace : ((run atomicListStep (AtomicList.initial fun _ ↦ none) readdedHead).get
      hsome).trace = [.added 1, .spliced 0, .consumed 0 1, .added 1, .added 2, .added 3] := rfl
  have howned : ((run atomicListStep (AtomicList.initial fun _ ↦ none) readdedHead).get
      hsome).owned 3 = false := rfl
  have hadders : ∀ t, (((run atomicListStep (AtomicList.initial fun _ ↦ none) readdedHead).get
      hsome).adders t).entry = none := by
    rintro (_ | _ | t) <;> rfl
  obtain ⟨A, habs, hchain, -, hreturned, hshared, -⟩ := atomicList_chains hr
  have hlist : A none = [3, 2, 1] := by
    rw [hshared, htrace]
    rfl
  refine ⟨_, A, hr, habs, ?_, ?_, ?_, ?_⟩
  · rw [← hlist]
    exact (hchain none).1
  · apply hreturned 3 howned
    intro t ht
    rw [hadders] at ht
    cases ht
  · rw [htrace]
    rfl
  · rw [htrace]
    rfl

end IomemoryVsl.Port
