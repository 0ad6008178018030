import IomemoryVsl.Lib.LinkedRing
import IomemoryVsl.Lib.Run

/-!
# `fio/port/list.h` — circular doubly linked lists

The list functions of the porting layer, pointer write by pointer write, on a heap that maps an
address to a `struct fusion_list_entry`, and the mathematical sequences they stand for.  A list head
and an unlinked element look alike in memory (both point to themselves), so a family of sequences
gives every initialised entry that is on no list a sequence of its own, empty for an unlinked one.
-/

namespace IomemoryVsl.Port

open LinkedRing

abbrev Addr := Nat

def NULL : Addr := 0

abbrev FusionListEntry := Node Addr

abbrev Heap := Memory Addr

/-! ## The functions -/

def fusionInitList (h : Heap) (e : Addr) : Heap :=
  let h := setNext h e e
  setPrev h e e

def fusionListAdd (h : Heap) (e p n : Addr) : Heap :=
  let h := setPrev h n e
  let h := setNext h e n
  let h := setPrev h e p
  setNext h p e

def fusionListAddHead (h : Heap) (e l : Addr) : Heap :=
  fusionListAdd h e l (h l).next

def fusionListAddTail (h : Heap) (e l : Addr) : Heap :=
  fusionListAdd h e (h l).prev l

/-- `__fusion_list_del`: the element keeps its own pointers. -/
def fusionListDelRaw (h : Heap) (e : Addr) : Heap :=
  if (h e).next ≠ NULL ∧ (h e).prev ≠ NULL then
    let h := setPrev h (h e).next (h e).prev
    -- `e` is read again, after a write that is to `e` itself when it is unlinked
    setNext h (h e).prev (h e).next
  else h

def fusionListDel (h : Heap) (e : Addr) : Heap :=
  fusionInitList (fusionListDelRaw h e) e

def fusionListMoveHead (h : Heap) (e l : Addr) : Heap :=
  fusionListAddHead (fusionListDelRaw h e) e l

def fusionListMoveTail (h : Heap) (e l : Addr) : Heap :=
  fusionListAddTail (fusionListDelRaw h e) e l

def fusionListEmpty (h : Heap) (e : Addr) : Bool :=
  (h e).next == e

def fusionListAddList (h : Heap) (src dst : Addr) : Heap :=
  if (h src).next = src then h
  else
    let newHead := (h src).next
    let oldHead := (h dst).next
    -- the last entry of `src` goes before the first of `dst`
    let h := setPrev h oldHead (h src).prev
    let h := setNext h (h src).prev oldHead
    let h := setPrev h newHead dst
    let h := setNext h dst newHead
    -- src->next = src->prev = src
    let h := setPrev h src src
    setNext h src src

def fusionListPopHead (h : Heap) (list : Addr) : Heap × Addr :=
  if ¬ fusionListEmpty h list then
    let retval := (h list).next
    (fusionListDel h retval, retval)
  else (h, NULL)

/-- `__fusion_list_splice`: `list` itself keeps its own pointers. -/
def fusionListSpliceRaw (h : Heap) (list prv nxt : Addr) : Heap :=
  let first := (h list).next
  let last := (h list).prev
  let h := setPrev h first prv
  let h := setNext h prv first
  let h := setNext h last nxt
  setPrev h nxt last

def fusionListSplice (h : Heap) (list head : Addr) : Heap :=
  if ¬ fusionListEmpty h list then
    fusionInitList (fusionListSpliceRaw h list head (h head).next) list
  else h

def fusionListSpliceTail (h : Heap) (list head : Addr) : Heap :=
  if ¬ fusionListEmpty h list then
    fusionInitList (fusionListSpliceRaw h list (h head).prev head) list
  else h

/-! ## Every pointer write is part of a link -/

theorem fusionInitList_eq (h : Heap) (e : Addr) : fusionInitList h e = link h e e := rfl

theorem fusionListAdd_eq (h : Heap) (e p n : Addr) :
    fusionListAdd h e p n = link (link h e n) p e := by
  unfold fusionListAdd link
  dsimp only
  rw [setNext_setPrev h e n, setNext_setPrev _ p e]

theorem fusionListDelRaw_eq {h : Heap} {e : Addr} (hn : (h e).next ≠ NULL)
    (hp : (h e).prev ≠ NULL) : fusionListDelRaw h e = link h (h e).prev (h e).next := by
  -- the first write stores in `e`, if at all, what is there already
  have hkeep : (setPrev h (h e).next (h e).prev e).prev = (h e).prev := by
    rw [setPrev_prev]
    split_ifs <;> rfl
  unfold fusionListDelRaw link
  rw [if_pos ⟨hn, hp⟩]
  simp only [hkeep, setPrev_next]
  rw [setNext_setPrev]

theorem fusionListSpliceRaw_eq (h : Heap) (list prv nxt : Addr) :
    fusionListSpliceRaw h list prv nxt = link (link h prv (h list).next) (h list).prev nxt := by
  unfold fusionListSpliceRaw link
  dsimp only
  rw [setNext_setPrev h prv]

/-- When the old head of `dst` is not `src` itself, moving a list is a splice. -/
theorem fusionListAddList_eq {h : Heap} {src dst : Addr} (hne : (h src).next ≠ src)
    (hold : (h dst).next ≠ src) (hlast : (h src).prev ≠ dst)
    (hhead : (h dst).next ≠ (h src).next) :
    fusionListAddList h src dst =
      link (link (link h dst (h src).next) (h src).prev (h dst).next) src src := by
  have hkeep : (setPrev h (h dst).next (h src).prev src).prev = (h src).prev := by
    rw [setPrev_prev, if_neg (Ne.symm hold)]
  have hinit : ∀ k : Heap, setNext (setPrev k src src) src src = link k src src := by
    intro k
    rw [setNext_setPrev]
    rfl
  unfold fusionListAddList
  rw [if_neg hne]
  simp only [hkeep, hinit]
  rw [link_comm h (Ne.symm hlast) (Ne.symm hhead)]
  unfold link
  rw [setNext_setPrev h, setNext_setPrev (setPrev _ _ _) dst]

/-! ## The sequences -/

abbrev Seqs := Addr → Option (List Addr)

/-- The contents of the list with head `l`. -/
def seqOf (A : Seqs) (l : Addr) : List Addr :=
  (A l).getD []

/-- Disjoint circular lists, none of them through the null pointer. -/
structure WellFormed (h : Heap) (A : Seqs) : Prop extends Rings h A where
  null : ∀ l, ¬ Owns A l NULL

/-- An entry that no list holds: unlinked, or not initialised at all. -/
def OnNoList (A : Seqs) (e : Addr) : Prop :=
  A e = some [] ∨ ∀ l, ¬ Owns A l e

inductive FusionListOp where
  | initList (e : Addr)
  | addHead (e l : Addr)
  | addTail (e l : Addr)
  | del (e : Addr)
  | moveHead (e l : Addr)
  | moveTail (e l : Addr)
  | popHead (list : Addr)
  | addList (src dst : Addr)
  | splice (list head : Addr)
  | spliceTail (list head : Addr)
deriving DecidableEq, Repr

/-- What an operation does to the heap, and the entry it returns if it returns one. -/
def fusionListApply (h : Heap) : FusionListOp → Heap × Option Addr
  | .initList e => (fusionInitList h e, none)
  | .addHead e l => (fusionListAddHead h e l, none)
  | .addTail e l => (fusionListAddTail h e l, none)
  | .del e => (fusionListDel h e, none)
  | .moveHead e l => (fusionListMoveHead h e l, none)
  | .moveTail e l => (fusionListMoveTail h e l, none)
  | .popHead list => ((fusionListPopHead h list).1, some (fusionListPopHead h list).2)
  | .addList src dst => (fusionListAddList h src dst, none)
  | .splice list head => (fusionListSplice h list head, none)
  | .spliceTail list head => (fusionListSpliceTail h list head, none)

/-- The same operations on sequences. -/
def seqApply (A : Seqs) : FusionListOp → Seqs × Option Addr
  | .initList e => (Function.update (erase A e) e (some []), none)
  | .addHead e l => (Function.update (erase A e) l (some (e :: seqOf A l)), none)
  | .addTail e l => (Function.update (erase A e) l (some (seqOf A l ++ [e])), none)
  | .del e => (Function.update (erase A e) e (some []), none)
  | .moveHead e l => (Function.update (erase A e) l (some (e :: (seqOf A l).erase e)), none)
  | .moveTail e l => (Function.update (erase A e) l (some ((seqOf A l).erase e ++ [e])), none)
  | .popHead list =>
      match seqOf A list with
      | [] => (A, some NULL)
      -- the entry that comes off is a list of its own again, as after `del`
      | x :: xs => (Function.update (Function.update A list (some xs)) x (some []), some x)
  | .addList src dst =>
      (Function.update (Function.update A src (some [])) dst (some (seqOf A src ++ seqOf A dst)),
        none)
  | .splice list head =>
      (Function.update (Function.update A list (some [])) head
        (some (seqOf A list ++ seqOf A head)), none)
  | .spliceTail list head =>
      (Function.update (Function.update A list (some [])) head
        (some (seqOf A head ++ seqOf A list)), none)

/-- How the header says each function is to be used. -/
def Contract (A : Seqs) : FusionListOp → Prop
  | .initList e => e ≠ NULL ∧ OnNoList A e
  | .addHead e l | .addTail e l => e ≠ NULL ∧ e ≠ l ∧ OnNoList A e ∧ (A l).isSome
  | .del e => Element A e
  | .moveHead e l | .moveTail e l => e ≠ l ∧ Element A e ∧ (A l).isSome
  | .popHead list => (A list).isSome
  | .addList src dst => src ≠ dst ∧ (A src).isSome ∧ (A dst).isSome
  | .splice list head | .spliceTail list head =>
      list ≠ head ∧ (A list).isSome ∧ (A head).isSome

/-- The operation names the list with head `l`, or an entry on it. -/
def Touches (A : Seqs) (l : Addr) : FusionListOp → Prop
  | .initList e | .del e => Owns A l e
  | .addHead e l' | .addTail e l' | .moveHead e l' | .moveTail e l' => l = l' ∨ Owns A l e
  | .popHead list => l = list
  | .addList src dst => l = src ∨ l = dst
  | .splice list head | .spliceTail list head => l = list ∨ l = head

end IomemoryVsl.Port
