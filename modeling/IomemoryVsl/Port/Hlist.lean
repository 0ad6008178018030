import IomemoryVsl.Lib.BackChain
import IomemoryVsl.Lib.Run
import IomemoryVsl.Port.FusionList

/-!
# `fio/port/list.h` — lists with one pointer in the head

The functions on `fusion_hlist_t`, pointer write by pointer write.  An entry points back at the
pointer that points at it, and an entry that is deleted is left with poisoned pointers.
-/

namespace IomemoryVsl.Port.Hlist

open BackChain Transition

/-- Heads and entries, by their addresses. -/
abbrev HlistHeap := Memory Addr Addr

def nextPoison : Addr := 0xC001C0DE

def pprevPoison : Addr := 0xCAFEC0DE

/-! ## The functions -/

def fusionInitHlist (h : HlistHeap) (head : Addr) : HlistHeap :=
  h.set (.first head) none

def fusionInitHlistEntry (h : HlistHeap) (node : Addr) : HlistHeap :=
  let h := h.set (.next node) none
  h.setBack node (.wild NULL)

def fusionHlistAddHead (h : HlistHeap) (node head : Addr) : HlistHeap :=
  let first := h.get (.first head)
  let h := h.set (.next node) first
  let h :=
    match first with
    | some f => h.setBack f (.next node)
    | none => h
  let h := h.set (.first head) (some node)
  h.setBack node (.first head)

/-- `fusion_hlist_del`, or `none` when it writes through a pointer that points nowhere. -/
def fusionHlistDel (h : HlistHeap) (node : Addr) : Option HlistHeap :=
  let next := h.get (.next node)
  let pprev := h.back node
  match pprev with
  | .wild _ => none
  | pprev =>
      let h := h.set pprev next
      let h :=
        match next with
        | some n => h.setBack n pprev
        | none => h
      let h := h.set (.next node) (some nextPoison)
      some (h.setBack node (.wild pprevPoison))

/-- `fusion_hlist_for_each_safe` from the entry `pos` on, and the entries that it visits; `none`
when it reads an entry at the poisoned address. -/
def fusionHlistForEachSafe (body : HlistHeap → Addr → Option HlistHeap) :
    Nat → HlistHeap → Option Addr → Option (List Addr × HlistHeap)
  | 0, _, _ => none
  | _ + 1, h, none => some ([], h)
  | fuel + 1, h, some pos =>
      if pos = nextPoison then none
      else
        -- read before the body may delete the entry
        let next := h.get (.next pos)
        (body h pos).bind fun h ↦
          (fusionHlistForEachSafe body fuel h next).map fun r ↦ (pos :: r.1, r.2)

/-- A loop body that deletes some of the entries when they are visited. -/
def deleteSome (doomed : Addr → Bool) (h : HlistHeap) (pos : Addr) : Option HlistHeap :=
  if doomed pos then fusionHlistDel h pos else some h

/-! ## Every pointer write is part of a link -/

theorem fusionHlistAddHead_eq (h : HlistHeap) (node head : Addr) :
    fusionHlistAddHead h node head = pushed h head node := by
  unfold fusionHlistAddHead pushed
  cases h.get (.first head) <;> rfl

theorem fusionHlistDel_eq {h : HlistHeap} {node : Addr} (hback : ∀ w, h.back node ≠ .wild w) :
    fusionHlistDel h node =
      some (((unlinked h node).set (.next node) (some nextPoison)).setBack node
        (.wild pprevPoison)) := by
  unfold fusionHlistDel unlinked
  dsimp only
  cases hpprev : h.back node with
  | wild w => exact absurd hpprev (hback w)
  | first k => cases h.get (.next node) <;> rfl
  | next a => cases h.get (.next node) <;> rfl

/-! ## The sequences -/

abbrev HlistSeqs := Addr → Option (List Addr)

/-- Disjoint lists, none of which has an entry at the poisoned address. -/
structure WellFormed (h : HlistHeap) (A : HlistSeqs) : Prop extends Chains h A where
  mapped : ¬ Held A nextPoison

inductive HlistOp where
  | addHead (node head : Addr)
  | del (node : Addr)
deriving DecidableEq, Repr

/-- What an operation does to the heap, and whether it only writes where it may. -/
def hlistApply (h : HlistHeap) : HlistOp → HlistHeap × Bool
  | .addHead node head => (fusionHlistAddHead h node head, true)
  | .del node =>
      match fusionHlistDel h node with
      | some h => (h, true)
      | none => (h, false)

/-- The same operations on sequences; a deletion is not told which list it is about. -/
def seqApply (A : HlistSeqs) : HlistOp → HlistSeqs × Bool
  | .addHead node head => (Function.update A head (some (node :: (A head).getD [])), true)
  | .del node => (fun l ↦ (A l).map (·.erase node), true)

/-- An entry is added when it is on no list, and deleted when it is on some list. -/
def Contract (A : HlistSeqs) : HlistOp → Prop
  | .addHead node head => node ≠ nextPoison ∧ ¬ Held A node ∧ (A head).isSome
  | .del node => Held A node

/-- The operation is about the list with head `l`. -/
def Touches (A : HlistSeqs) (l : Addr) : HlistOp → Prop
  | .addHead _ head => l = head
  | .del node => ∃ xs, A l = some xs ∧ node ∈ xs

/-! ## One call -/

variable {h : HlistHeap} {A : HlistSeqs}

/-- The lists that an operation is not about keep their contents and their pointers. -/
def Keeps (h h' : HlistHeap) (A A' : HlistSeqs) (T : Addr → Prop) : Prop :=
  ∀ l xs, A l = some xs → ¬ T l → A' l = some xs ∧ SameOn h h' (.first l) xs

/-- An initialised head is an empty list beside the others. -/
theorem WellFormed.initHlist (hwf : WellFormed h A) {head : Addr} (hnew : A head = none) :
    WellFormed (fusionInitHlist h head) (Function.update A head (some [])) ∧
      Keeps h (fusionInitHlist h head) A (Function.update A head (some [])) fun _ ↦ False := by
  have hsame : ∀ l xs, A l = some xs → SameOn h (fusionInitHlist h head) (.first l) xs := by
    intro l xs hl
    refine sameOn_link (p := none) h ?_ ?_
    · rw [mem_places_first]
      rintro (heq | ⟨b, -, heq⟩)
      · cases heq
        rw [hnew] at hl
        cases hl
      · cases heq
    · intro b hb
      cases hb
  have hother : ∀ l xs, A l = some xs → l ≠ head := by
    rintro l xs hl rfl
    rw [hnew] at hl
    cases hl
  refine ⟨⟨⟨?_, hwf.separate_update fun b hb ↦ absurd hb List.not_mem_nil⟩, ?_⟩, ?_⟩
  · intro l xs hl
    by_cases hlh : l = head
    · rw [hlh, Function.update_self, Option.some.injEq] at hl
      subst hl
      rw [hlh]
      exact Function.update_self _ _ _
    · rw [Function.update_of_ne hlh] at hl
      exact (hwf.linked l xs hl).congr (hsame l xs hl)
  · rintro ⟨l, xs, hl, hmem⟩
    by_cases hlh : l = head
    · rw [hlh, Function.update_self, Option.some.injEq] at hl
      subst hl
      cases hmem
    · rw [Function.update_of_ne hlh] at hl
      exact hwf.mapped ⟨l, xs, hl, hmem⟩
  · intro l xs hl _
    refine ⟨?_, hsame l xs hl⟩
    rw [Function.update_of_ne (hother l xs hl), hl]

/-- An entry on no list may be initialised at any time. -/
theorem WellFormed.initHlistEntry (hwf : WellFormed h A) {node : Addr} (hfree : ¬ Held A node) :
    WellFormed (fusionInitHlistEntry h node) A ∧
      Keeps h (fusionInitHlistEntry h node) A A fun _ ↦ False := by
  have hsame : ∀ l xs, A l = some xs → SameOn h (fusionInitHlistEntry h node) (.first l) xs :=
    fun l xs hl ↦ sameOn_write h hfree none (.wild NULL) hl
  exact ⟨⟨hwf.congr hsame, hwf.mapped⟩, fun l xs hl _ ↦ ⟨hl, hsame l xs hl⟩⟩

theorem WellFormed.addHead (hwf : WellFormed h A) {node head : Addr}
    (hc : Contract A (.addHead node head)) :
    WellFormed (fusionHlistAddHead h node head) (seqApply A (.addHead node head)).1 ∧
      Keeps h (fusionHlistAddHead h node head) A (seqApply A (.addHead node head)).1
        (Touches A · (.addHead node head)) := by
  obtain ⟨hmapped, hheld, hsome⟩ := hc
  obtain ⟨xs, hxs⟩ := Option.isSome_iff_exists.mp hsome
  have hseq : (seqApply A (.addHead node head)).1 =
      Function.update A head (some (node :: xs)) := by
    simp only [seqApply, hxs, Option.getD_some]
  rw [hseq, fusionHlistAddHead_eq]
  refine ⟨⟨hwf.push hxs hheld, ?_⟩, ?_⟩
  · rintro ⟨l, ys, hl, hmem⟩
    by_cases hlh : l = head
    · rw [hlh, Function.update_self, Option.some.injEq] at hl
      subst hl
      rcases List.mem_cons.mp hmem with heq | hmem
      · exact hmapped heq.symm
      · exact hwf.mapped ⟨head, xs, hxs, hmem⟩
    · rw [Function.update_of_ne hlh] at hl
      exact hwf.mapped ⟨l, ys, hl, hmem⟩
  · intro l ys hl hnot
    exact ⟨by rw [Function.update_of_ne hnot]; exact hl, hwf.sameOn_pushed hxs hheld hl hnot⟩

/-- The pointer back of an entry on a list is a place that a pointer is stored in. -/
theorem WellFormed.back_ne_wild (hwf : WellFormed h A) {node l : Addr} {xs : List Addr}
    (hl : A l = some xs) (hmem : node ∈ xs) (w : Nat) : h.back node ≠ .wild w := by
  obtain ⟨us, vs, rfl⟩ := List.append_of_mem hmem
  intro hwild
  rcases mem_places_first.mp (hwf.linked l _ hl).back_mem with heq | ⟨b, -, heq⟩
  · rw [hwild] at heq
    cases heq
  · rw [hwild] at heq
    cases heq

theorem WellFormed.del (hwf : WellFormed h A) {node l : Addr} {xs : List Addr}
    (hl : A l = some xs) (hmem : node ∈ xs) :
    ∃ h', fusionHlistDel h node = some h' ∧
      WellFormed h' (Function.update A l (some (xs.erase node))) ∧
      Keeps h h' A (Function.update A l (some (xs.erase node))) (· = l) := by
  refine ⟨_, fusionHlistDel_eq (hwf.back_ne_wild hl hmem), ⟨?_, ?_⟩, ?_⟩
  · refine (hwf.erase hl hmem).congr ?_
    intro k ys hk
    exact sameOn_write _ (hwf.not_held_erase hl hmem) _ _ hk
  · rintro ⟨k, ys, hk, hpoison⟩
    by_cases hkl : k = l
    · rw [hkl, Function.update_self, Option.some.injEq] at hk
      subst hk
      exact hwf.mapped ⟨l, xs, hl, List.mem_of_mem_erase hpoison⟩
    · rw [Function.update_of_ne hkl] at hk
      exact hwf.mapped ⟨k, ys, hk, hpoison⟩
  · intro k ys hk hne
    have hk' : Function.update A l (some (xs.erase node)) k = some ys := by
      rw [Function.update_of_ne hne]
      exact hk
    refine ⟨hk', (hwf.sameOn_unlinked hl hmem hk hne).trans ?_⟩
    exact sameOn_write _ (hwf.not_held_erase hl hmem) _ _ hk'

theorem hlistApply_refines (hwf : WellFormed h A) {op : HlistOp} (hc : Contract A op) :
    WellFormed (hlistApply h op).1 (seqApply A op).1 ∧
      (hlistApply h op).2 = (seqApply A op).2 ∧
      Keeps h (hlistApply h op).1 A (seqApply A op).1 (Touches A · op) := by
  cases op with
  | addHead node head =>
      obtain ⟨hw, hk⟩ := hwf.addHead hc
      exact ⟨hw, rfl, hk⟩
  | del node =>
      obtain ⟨l, xs, hl, hmem⟩ := hc
      obtain ⟨h', hdel, hw, hk⟩ := hwf.del hl hmem
      have hseq : (seqApply A (.del node)).1 = Function.update A l (some (xs.erase node)) :=
        hwf.map_erase hl hmem
      have happly : hlistApply h (.del node) = (h', true) := by
        simp only [hlistApply, hdel]
      rw [hseq, happly]
      refine ⟨hw, rfl, ?_⟩
      intro k ys hkys hnot
      refine hk k ys hkys ?_
      rintro rfl
      exact hnot ⟨xs, hl, hmem⟩

/-! ## Going through a list while deleting from it -/

theorem Keeps.trans {h' h'' : HlistHeap} {A' A'' : HlistSeqs} {T : Addr → Prop}
    (hk : Keeps h h' A A' T) (hk' : Keeps h' h'' A' A'' T) : Keeps h h'' A A'' T := by
  intro l xs hl hnot
  obtain ⟨hl', hsame⟩ := hk l xs hl hnot
  obtain ⟨hl'', hsame'⟩ := hk' l xs hl' hnot
  exact ⟨hl'', hsame.trans hsame'⟩

/-- The loop at the entries `rest`, with the entries `us` already visited and not deleted. -/
theorem forEachSafe_spec (doomed : Addr → Bool) {l : Addr} (us rest : List Addr) {fuel : Nat}
    (hwf : WellFormed h A) (hl : A l = some (us ++ rest)) (hfuel : rest.length < fuel) :
    ∃ k, fusionHlistForEachSafe (deleteSome doomed) fuel h rest.head? = some (rest, k) ∧
      WellFormed k (Function.update A l (some (us ++ rest.filter (!doomed ·)))) ∧
      Keeps h k A (Function.update A l (some (us ++ rest.filter (!doomed ·)))) (· = l) := by
  induction rest generalizing us h A fuel with
  | nil =>
      have hsame : Function.update A l (some (us ++ [].filter (!doomed ·))) = A := by
        rw [List.filter_nil, ← hl, Function.update_eq_self]
      obtain ⟨fuel, rfl⟩ := Nat.exists_eq_add_of_lt hfuel
      refine ⟨h, ?_, ?_, ?_⟩
      · rw [List.length_nil, Nat.zero_add]
        rfl
      · rw [hsame]
        exact hwf
      · rw [hsame]
        intro k ys hk _
        exact ⟨hk, SameOn.refl _ _ _⟩
  | cons pos rest ih =>
      obtain ⟨fuel, rfl⟩ : ∃ n, fuel = n + 1 := ⟨fuel - 1, by omega⟩
      have hmapped : pos ≠ nextPoison := by
        rintro rfl
        exact hwf.mapped ⟨l, _, hl, by simp⟩
      have hlinked := hwf.linked l _ hl
      -- what is read before the body is the rest of the list, whatever the body deletes
      have hnext : h.get (.next pos) = rest.head? := hlinked.suffix.get
      have hstep : fusionHlistForEachSafe (deleteSome doomed) (fuel + 1) h (some pos) =
          (deleteSome doomed h pos).bind fun h' ↦
            (fusionHlistForEachSafe (deleteSome doomed) fuel h' rest.head?).map
              fun r ↦ (pos :: r.1, r.2) := by
        rw [fusionHlistForEachSafe, if_neg hmapped, hnext]
      rw [List.length_cons] at hfuel
      rw [List.head?_cons, hstep]
      unfold deleteSome
      cases hdoomed : doomed pos with
      | true =>
          have hmem : pos ∈ us ++ pos :: rest := by simp
          obtain ⟨h', hdel, hw, hk⟩ := hwf.del hl hmem
          rw [erase_middle hlinked.nodup] at hw hk
          obtain ⟨k, hloop, hwk, hkk⟩ := ih us hw (Function.update_self ..)
            (show rest.length < fuel by omega)
          rw [Function.update_idem] at hwk hkk
          refine ⟨k, ?_, ?_, ?_⟩
          · unfold deleteSome at hloop
            rw [if_pos rfl, hdel, Option.bind_some, hloop]
            rfl
          · rw [List.filter_cons, hdoomed]
            exact hwk
          · rw [List.filter_cons, hdoomed]
            exact hk.trans hkk
      | false =>
          have hl' : A l = some ((us ++ [pos]) ++ rest) := by
            rw [hl, List.append_assoc]
            rfl
          obtain ⟨k, hloop, hwk, hkk⟩ := ih (us ++ [pos]) hwf hl' (show rest.length < fuel by omega)
          rw [List.append_assoc] at hwk hkk
          refine ⟨k, ?_, ?_, ?_⟩
          · unfold deleteSome at hloop
            rw [if_neg Bool.false_ne_true, Option.bind_some, hloop]
            rfl
          · rw [List.filter_cons, hdoomed]
            exact hwk
          · rw [List.filter_cons, hdoomed]
            exact hkk

/-! ## Any number of calls -/

theorem seqApply_answers (A : HlistSeqs) (ops : List HlistOp) :
    ∀ ok ∈ (replay seqApply A ops).2, ok = true := by
  induction ops generalizing A with
  | nil => exact List.forall_mem_nil _
  | cons op ops ih =>
      refine List.forall_mem_cons.mpr ⟨?_, ih _⟩
      cases op <;> rfl

theorem replay_keeps {ops : List HlistOp} (hwf : WellFormed h A)
    (hc : Admitted seqApply Contract A ops) {l : Addr} {xs : List Addr} (hl : A l = some xs)
    (ht : Admitted seqApply (fun B op ↦ ¬ Touches B l op) A ops) :
    (replay seqApply A ops).1 l = some xs ∧
      SameOn h (replay hlistApply h ops).1 (.first l) xs := by
  induction ops generalizing h A with
  | nil => exact ⟨hl, SameOn.refl _ _ _⟩
  | cons op ops ih =>
      obtain ⟨hw, -, hk⟩ := hlistApply_refines hwf hc.1
      obtain ⟨hl', hsame⟩ := hk l xs hl ht.1
      obtain ⟨hlast, hrest⟩ := ih hw hc.2 hl' ht.2
      exact ⟨hlast, hsame.trans hrest⟩

/-- Every sequence of additions and deletions keeps the lists well formed, does to their contents
what it does to sequences, writes nowhere else, and leaves the lists that it is not about as they
are.  In any state that it leads to, going through a list visits every entry once and in order,
whichever of the entries are deleted when they are visited. -/
theorem fusionHlist_refines_sequences (h : HlistHeap) (A : HlistSeqs) (ops : List HlistOp)
    (hwf : WellFormed h A) (hc : Admitted seqApply Contract A ops) :
    WellFormed (replay hlistApply h ops).1 (replay seqApply A ops).1 ∧
      (∀ ok ∈ (replay hlistApply h ops).2, ok = true) ∧
      (∀ l xs, A l = some xs → Admitted seqApply (fun B op ↦ ¬ Touches B l op) A ops →
        (replay seqApply A ops).1 l = some xs ∧
          SameOn h (replay hlistApply h ops).1 (.first l) xs) ∧
      ∀ l xs (doomed : Addr → Bool) fuel, (replay seqApply A ops).1 l = some xs →
        xs.length < fuel →
        ∃ k, fusionHlistForEachSafe (deleteSome doomed) fuel (replay hlistApply h ops).1
            ((replay hlistApply h ops).1.get (.first l)) = some (xs, k) ∧
          WellFormed k (Function.update (replay seqApply A ops).1 l
            (some (xs.filter (!doomed ·)))) ∧
          Keeps (replay hlistApply h ops).1 k (replay seqApply A ops).1
            (Function.update (replay seqApply A ops).1 l (some (xs.filter (!doomed ·))))
            (· = l) := by
  have hstep : ∀ k B op, WellFormed k B → Contract B op →
      WellFormed (hlistApply k op).1 (seqApply B op).1 ∧
        (hlistApply k op).2 = (seqApply B op).2 := by
    intro k B op hk hop
    obtain ⟨hw, hans, -⟩ := hlistApply_refines hk hop
    exact ⟨hw, hans⟩
  obtain ⟨hw, hans⟩ := replay_refines hstep hwf hc
  refine ⟨hw, ?_, ?_, ?_⟩
  · rw [hans]
    exact seqApply_answers A ops
  · intro l xs hl ht
    exact replay_keeps hwf hc hl ht
  · intro l xs doomed fuel hl hfuel
    rw [(hw.linked l xs hl).get]
    exact forEachSafe_spec doomed [] xs hw hl hfuel

/-! Two lists, `1: [2, 3]` and `4: []`, and the entry `5` on neither. -/

def sampleHlist : HlistHeap where
  get
    | .first 1 => some 2
    | .next 2 => some 3
    | _ => none
  back
    | 2 => .first 1
    | 3 => .next 2
    | _ => .wild NULL

def sampleHlistSeqs : HlistSeqs
  | 1 => some [2, 3]
  | 4 => some []
  | _ => none

theorem sampleHlistSeqs_cases {l : Addr} {xs : List Addr} (hl : sampleHlistSeqs l = some xs) :
    l = 1 ∧ xs = [2, 3] ∨ l = 4 ∧ xs = [] := by
  unfold sampleHlistSeqs at hl
  split at hl <;> simp_all

theorem sampleHlist_wellFormed : WellFormed sampleHlist sampleHlistSeqs where
  linked l xs hl := by
    rcases sampleHlistSeqs_cases hl with ⟨rfl, rfl⟩ | ⟨rfl, rfl⟩
    · exact ⟨rfl, rfl, rfl, rfl, rfl⟩
    · rfl
  separate l r xs ys a hl hr ha hb := by
    rcases sampleHlistSeqs_cases hl with ⟨rfl, rfl⟩ | ⟨rfl, rfl⟩ <;>
      rcases sampleHlistSeqs_cases hr with ⟨rfl, rfl⟩ | ⟨rfl, rfl⟩ <;>
      simp_all
  mapped := by
    rintro ⟨l, xs, hl, hmem⟩
    rcases sampleHlistSeqs_cases hl with ⟨rfl, rfl⟩ | ⟨rfl, rfl⟩ <;> simp [nextPoison] at hmem

/-- The first entry of one list is moved to the other, where the second is then deleted. -/
theorem fusionHlist_refines_sequences_sample :
    let ops := [.addHead 5 4, .del 2, .addHead 2 4]
    WellFormed (replay hlistApply sampleHlist ops).1 (replay seqApply sampleHlistSeqs ops).1 ∧
      (replay seqApply sampleHlistSeqs ops).1 1 = some [3] ∧
      ∃ k, fusionHlistForEachSafe (deleteSome (· == 5)) 3 (replay hlistApply sampleHlist ops).1
          ((replay hlistApply sampleHlist ops).1.get (.first 4)) = some ([2, 5], k) := by
  intro ops
  have hheld : ∀ a, Held sampleHlistSeqs a → a = 2 ∨ a = 3 := by
    rintro a ⟨l, xs, hl, hmem⟩
    rcases sampleHlistSeqs_cases hl with ⟨-, rfl⟩ | ⟨-, rfl⟩
    · simpa using hmem
    · cases hmem
  have hc : Admitted seqApply Contract sampleHlistSeqs ops := by
    refine ⟨⟨by decide, ?_, rfl⟩, ⟨1, [2, 3], rfl, by decide⟩, ⟨by decide, ?_, rfl⟩, trivial⟩
    · intro h
      rcases hheld 5 h with heq | heq <;> cases heq
    · rintro ⟨l, xs, hl, hmem⟩
      obtain ⟨ys, hys, rfl⟩ := Option.map_eq_some_iff.mp hl
      by_cases h4 : l = 4
      · subst h4
        cases hys
        exact absurd hmem (by decide)
      · have hys' : Function.update sampleHlistSeqs 4 (some [5]) l = some ys := hys
        rw [Function.update_of_ne h4] at hys'
        rcases sampleHlistSeqs_cases hys' with ⟨-, rfl⟩ | ⟨-, rfl⟩ <;>
          exact absurd hmem (by decide)
  obtain ⟨hw, -, -, hloop⟩ :=
    fusionHlist_refines_sequences sampleHlist sampleHlistSeqs ops sampleHlist_wellFormed hc
  obtain ⟨k, hk, -⟩ := hloop 4 [2, 5] (· == 5) 3 rfl (by decide)
  exact ⟨hw, rfl, k, hk⟩

end IomemoryVsl.Port.Hlist
