import IomemoryVsl.Lib.Chain
import IomemoryVsl.Lib.Run

/-!
# Atomic lists (`port/atomic_list.h`)

A singly linked list to which entries are added without a lock, by compare and exchange, and which
is emptied as a whole by exchanging its head with null.  Every load, store and atomic operation is a
step of its own, in any interleaving.  A thread is one call of `fusion_atomic_list_add` after the
other, and a private head is one splice after the other, each followed by the loop that consumes the
chain; the body of that loop hands the entry back to whoever may add it again.
-/

namespace IomemoryVsl.Port

open Transition NullChain

variable {τ η ε : Type*}

/-- Where a thread is in `fusion_atomic_list_add`. -/
inductive AddPc (ε : Type*) where
  | idle
  | load (entry : ε)
  | store (entry : ε) (cur : Option ε)
  | cmpxchg (entry : ε) (cur : Option ε)

/-- Where the user of a private head is. -/
inductive DrainPc (ε : Type*) where
  /-- the previous chain has been consumed -/
  | drained
  /-- `kfio_xchg` has returned the chain, and `head->next` is not stored yet -/
  | exchanged (chain : Option ε)
  | spliced
  /-- in the loop, before `n = pos ? pos->next : NULL` -/
  | fetch (pos : Option ε)
  | body (pos : ε) (n : Option ε)

inductive ListObs (η ε : Type*) where
  /-- a compare and exchange that succeeded -/
  | added (entry : ε)
  | spliced (head : η)
  | consumed (head : η) (entry : ε)
  deriving DecidableEq

structure AtomicList (τ η ε : Type*) where
  next : ε → Option ε
  /-- `list->next` -/
  list : Option ε
  /-- the entry belongs to someone who may write and add it -/
  owned : ε → Bool
  adders : τ → AddPc ε
  /-- `head->next` of the private heads -/
  heads : η → Option ε
  drains : η → DrainPc ε
  trace : List (ListObs η ε)

inductive ListEvent (τ η ε : Type*) where
  /-- the owner of an entry stores what it likes in it -/
  | write (entry : ε) (p : Option ε)
  | callAdd (t : τ) (entry : ε)
  | add (t : τ)
  | splice (head : η)
  | forEach (head : η)

/-- After `fusion_atomic_list_init`, whatever the entries hold. -/
def AtomicList.initial (next : ε → Option ε) : AtomicList τ η ε where
  next := next
  list := none
  owned := fun _ ↦ true
  adders := fun _ ↦ .idle
  heads := fun _ ↦ none
  drains := fun _ ↦ .drained
  trace := []

section Functions

variable [DecidableEq τ] [DecidableEq η] [DecidableEq ε] (s : AtomicList τ η ε)

def AtomicList.setAdder (t : τ) (pc : AddPc ε) : AtomicList τ η ε :=
  { s with adders := Function.update s.adders t pc }

def AtomicList.setDrain (h : η) (d : DrainPc ε) : AtomicList τ η ε :=
  { s with drains := Function.update s.drains h d }

def AtomicList.storeNext (e : ε) (p : Option ε) : AtomicList τ η ε :=
  { s with next := Function.update s.next e p }

def AtomicList.storeHead (h : η) (p : Option ε) : AtomicList τ η ε :=
  { s with heads := Function.update s.heads h p }

/-- An atomic operation stores `p` in `list->next`, observed as `o`. -/
def AtomicList.storeList (p : Option ε) (o : ListObs η ε) : AtomicList τ η ε :=
  { s with list := p, trace := s.trace ++ [o] }

def AtomicList.take (e : ε) : AtomicList τ η ε :=
  { s with owned := Function.update s.owned e false }

def AtomicList.giveBack (h : η) (e : ε) : AtomicList τ η ε :=
  { s with owned := Function.update s.owned e true, trace := s.trace ++ [.consumed h e] }

def fusionAtomicListEmpty : Bool :=
  s.list.isNone

/-- The next step of the thread `t` in `fusion_atomic_list_add`. -/
def fusionAtomicListAdd (t : τ) : Option (AtomicList τ η ε) :=
  match s.adders t with
  | .idle => none
  -- `cur` may be out of date from here on
  | .load entry => some (s.setAdder t (.store entry s.list))
  | .store entry cur => some ((s.storeNext entry cur).setAdder t (.cmpxchg entry cur))
  | .cmpxchg entry cur =>
      if s.list = cur then some ((s.storeList (some entry) (.added entry)).setAdder t .idle)
      -- the head is loaded again
      else some (s.setAdder t (.load entry))

/-- The next step of `fusion_atomic_list_splice` into the head `h`. -/
def fusionAtomicListSplice (h : η) : Option (AtomicList τ η ε) :=
  match s.drains h with
  | .drained => some ((s.storeList none (.spliced h)).setDrain h (.exchanged s.list))
  | .exchanged chain => some ((s.storeHead h chain).setDrain h .spliced)
  | _ => none

/-- The next step of `fusion_atomic_list_for_each` over the head `h`. -/
def fusionAtomicListForEach (h : η) : Option (AtomicList τ η ε) :=
  match s.drains h with
  | .spliced => some (s.setDrain h (.fetch (s.heads h)))
  | .fetch none => some (s.setDrain h .drained)
  | .fetch (some pos) => some (s.setDrain h (.body pos (s.next pos)))
  -- `n` was loaded before, so the body may give the entry away
  | .body pos n => some ((s.giveBack h pos).setDrain h (.fetch n))
  | _ => none

def atomicListStep : ListEvent τ η ε → Option (AtomicList τ η ε)
  | .write entry p => if s.owned entry = true then some (s.storeNext entry p) else none
  -- the owner gives the entry up for as long as it takes to be consumed
  | .callAdd t entry =>
      match s.adders t with
      | .idle =>
          if s.owned entry = true then some ((s.take entry).setAdder t (.load entry)) else none
      | _ => none
  | .add t => fusionAtomicListAdd s t
  | .splice h => fusionAtomicListSplice s h
  | .forEach h => fusionAtomicListForEach s h

end Functions

/-! ## What the list is for -/

def ListObs.addedEntry : ListObs η ε → Option ε
  | .added e => some e
  | _ => none

def ListObs.consumedEntry : ListObs η ε → Option ε
  | .consumed _ e => some e
  | _ => none

section Counts

variable [DecidableEq ε]

def adds (os : List (ListObs η ε)) (e : ε) : Nat :=
  (os.filterMap ListObs.addedEntry).count e

def consumes (os : List (ListObs η ε)) (e : ε) : Nat :=
  (os.filterMap ListObs.consumedEntry).count e

theorem adds_append (os ps : List (ListObs η ε)) (e : ε) :
    adds (os ++ ps) e = adds os e + adds ps e := by
  unfold adds
  rw [List.filterMap_append, List.count_append]

theorem consumes_append (os ps : List (ListObs η ε)) (e : ε) :
    consumes (os ++ ps) e = consumes os e + consumes ps e := by
  unfold consumes
  rw [List.filterMap_append, List.count_append]

theorem adds_added (e e' : ε) :
    adds [(.added e : ListObs η ε)] e' = if e = e' then 1 else 0 := by
  show [e].count e' = _
  rw [List.count_singleton]
  simp only [beq_iff_eq]

theorem consumes_consumed (h : η) (e e' : ε) :
    consumes [.consumed h e] e' = if e = e' then 1 else 0 := by
  show [e].count e' = _
  rw [List.count_singleton]
  simp only [beq_iff_eq]

end Counts

section Abstract

variable [DecidableEq η] [DecidableEq ε]

/-- The shared list is `none`, the list of a private head `h` is `some h`.  Adding puts an entry in
front, splicing moves the whole list, and consuming takes entries from the front. -/
def chainsStep (A : Option η → List ε) : ListObs η ε → Option (Option η → List ε)
  | .added e => some (push A none e)
  | .spliced h => if A (some h) = [] then some (move A none (some h)) else none
  | .consumed h e => if (A (some h)).head? = some e then some (pop A (some h)) else none

/-- The entries added since the last splice, in the order of their compare and exchange. -/
def addedSinceSplice (since : List ε) : List (ListObs η ε) → List ε
  | [] => since
  | .added e :: os => addedSinceSplice (since ++ [e]) os
  | .spliced _ :: os => addedSinceSplice [] os
  | .consumed _ _ :: os => addedSinceSplice since os

/-- The entries consumed through the head `h`. -/
def consumedThrough (h : η) : List (ListObs η ε) → List ε
  | [] => []
  | .consumed h' e :: os => if h' = h then e :: consumedThrough h os else consumedThrough h os
  | _ :: os => consumedThrough h os

theorem shared_eq_addedSinceSplice {A B : Option η → List ε} {since : List ε}
    {os : List (ListObs η ε)} (hr : run chainsStep A os = some B) (hA : A none = since.reverse) :
    B none = (addedSinceSplice since os).reverse := by
  -- on the trace, with what was added since the last splice as the accumulator
  induction os generalizing A since with
  | nil =>
      cases hr
      exact hA
  | cons o os ih =>
      obtain ⟨C, hC, hr⟩ := run_cons_eq_some.mp hr
      cases o with
      | added e =>
          cases hC
          apply ih hr
          unfold push
          rw [Function.update_self, hA, List.reverse_append]
          rfl
      | spliced h =>
          simp only [chainsStep, Option.ite_none_right_eq_some, Option.some.injEq] at hC
          obtain ⟨-, rfl⟩ := hC
          apply ih hr
          unfold move
          rw [Function.update_self]
          rfl
      | consumed h e =>
          simp only [chainsStep, Option.ite_none_right_eq_some, Option.some.injEq] at hC
          obtain ⟨-, rfl⟩ := hC
          apply ih hr
          unfold pop
          rw [Function.update_of_ne (by intro hn; cases hn)]
          exact hA

theorem spliced_eq_consumed_append {A B : Option η → List ε} {h : η} {os : List (ListObs η ε)}
    (hr : run chainsStep A os = some B) (hos : .spliced h ∉ os) :
    A (some h) = consumedThrough h os ++ B (some h) := by
  induction os generalizing A with
  | nil =>
      cases hr
      rfl
  | cons o os ih =>
      obtain ⟨C, hC, hr⟩ := run_cons_eq_some.mp hr
      have hrest := ih hr fun hm ↦ hos (List.mem_cons_of_mem _ hm)
      cases o with
      | added e =>
          cases hC
          unfold push at hrest
          rw [Function.update_of_ne (by intro hn; cases hn)] at hrest
          exact hrest
      | spliced h' =>
          simp only [chainsStep, Option.ite_none_right_eq_some, Option.some.injEq] at hC
          obtain ⟨-, rfl⟩ := hC
          have hh : some h ≠ some h' := by
            intro hh
            cases hh
            exact hos List.mem_cons_self
          unfold move at hrest
          rw [Function.update_of_ne (by intro hn; cases hn), Function.update_of_ne hh] at hrest
          exact hrest
      | consumed h' e =>
          simp only [chainsStep, Option.ite_none_right_eq_some, Option.some.injEq] at hC
          obtain ⟨hhead, rfl⟩ := hC
          unfold consumedThrough
          unfold pop at hrest
          by_cases hh : h' = h
          · subst hh
            rw [Function.update_self] at hrest
            rw [if_pos rfl, List.cons_append, ← hrest]
            exact (List.cons_head?_tail hhead).symm
          · have hne : some h ≠ some h' := fun hn ↦ hh (Option.some.inj hn).symm
            rw [Function.update_of_ne hne] at hrest
            rw [if_neg hh]
            exact hrest

end Abstract

end IomemoryVsl.Port
