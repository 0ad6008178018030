import IomemoryVsl.Port.FusionListRefines

/-!
# Walking a list whose elements leave it (`fio/port/list.h`)

The safe loops load the successor of an element before the body runs on it.  The body may unlink the
element, put it on another list or free it; the loop is run with a record of the links that it
reads.
-/

namespace IomemoryVsl.Port

open LinkedRing

/-! ## The loops -/

/-- What a body may do with the element that it is given. -/
inductive BodyOp where
  /-- `__fusion_list_del` -/
  | unlink
  | call (op : FusionListOp)
  /-- the memory of the element is given back and holds anything afterwards -/
  | free (v : FusionListEntry)
deriving DecidableEq, Repr

def bodyApply (h : Heap) (e : Addr) : BodyOp → Heap
  | .unlink => fusionListDelRaw h e
  | .call op => (fusionListApply h op).1
  | .free v => Function.update h e v

def runBody (h : Heap) (e : Addr) (ops : List BodyOp) : Heap :=
  ops.foldl (bodyApply · e) h

/-- A body sees the element and the heap. -/
abbrev Body := Addr → Heap → List BodyOp

inductive WalkEvent where
  /-- the loop reads the `next` of this entry -/
  | read (a : Addr)
  | body (e : Addr)
deriving DecidableEq, Repr

/-- The loop from its test on.  The cursor is the address that `linkOf` maps to that of a list
entry, and `entryOf` goes the other way; `none` when `fuel` turns are not enough. -/
def safeLoop (entryOf linkOf : Addr → Addr) (body : Body) (list : Addr) :
    Nat → Heap → Addr → Addr → Option (Heap × List WalkEvent)
  | 0, _, _, _ => none
  | fuel + 1, h, entry, nextEntry =>
      if linkOf entry = list then some (h, [])
      else
        let e := linkOf entry
        let h := runBody h e (body e h)
        -- entry = next_entry, next_entry = next_entry->next
        let entry := nextEntry
        let nextEntry := entryOf (h (linkOf entry)).next
        (safeLoop entryOf linkOf body list fuel h entry nextEntry).map fun (h, events) ↦
          (h, .body e :: .read (linkOf entry) :: events)

/-- A whole loop, with the heap it leaves behind and its reads and bodies in order. -/
def safeWalk (entryOf linkOf : Addr → Addr) (body : Body) (list : Addr) (fuel : Nat) (h : Heap) :
    Option (Heap × List WalkEvent) :=
  let entry := entryOf (h list).next
  let nextEntry := entryOf (h (linkOf entry)).next
  (safeLoop entryOf linkOf body list fuel h entry nextEntry).map fun (h, events) ↦
    (h, .read list :: .read (linkOf entry) :: events)

def fusionListForEachSafe (body : Body) (list : Addr) (fuel : Nat) (h : Heap) :
    Option (Heap × List WalkEvent) :=
  safeWalk id id body list fuel h

/-- `container_of(entry, type, field)`, with the offset of the field; for the head of a list it is
no object at all. -/
def containerOf (field entry : Addr) : Addr := (entry + (2 ^ 64 - field)) % 2 ^ 64

/-- `&entry->field`. -/
def fieldOf (field entry : Addr) : Addr := (entry + field) % 2 ^ 64

def fusionListForEachEntrySafe (field : Addr) (body : Body) (list : Addr) (fuel : Nat) (h : Heap) :
    Option (Heap × List WalkEvent) :=
  safeWalk (containerOf field) (fieldOf field) body list fuel h

/-! ## What a body may do -/

/-- The entry that a call is about, when it is about one. -/
def FusionListOp.subject : FusionListOp → Option Addr
  | .initList e | .addHead e _ | .addTail e _ | .del e | .moveHead e _ | .moveTail e _ => some e
  | _ => none

/-- Where an element is while the body runs on it. -/
inductive Place where
  /-- still on the list that is walked -/
  | walked
  /-- off that list, and perhaps on another one -/
  | off
  | freed
deriving DecidableEq, Repr

/-- One thing that a body may do with the element `e`; the sequences are those of the other lists.
On the list that is walked, an element may be unlinked, moved to another list or freed as it stands;
once off it, it is used as the header says. -/
inductive ElementStep (e : Addr) : Place × Seqs → BodyOp → Place × Seqs → Prop where
  | unlink (B : Seqs) : ElementStep e (.walked, B) .unlink (.off, B)
  | del (B : Seqs) :
      ElementStep e (.walked, B) (.call (.del e)) (.off, (seqApply B (.initList e)).1)
  | moveHead {B : Seqs} {l : Addr} (hl : (B l).isSome) :
      ElementStep e (.walked, B) (.call (.moveHead e l)) (.off, (seqApply B (.addHead e l)).1)
  | moveTail {B : Seqs} {l : Addr} (hl : (B l).isSome) :
      ElementStep e (.walked, B) (.call (.moveTail e l)) (.off, (seqApply B (.addTail e l)).1)
  | free (B : Seqs) (v : FusionListEntry) : ElementStep e (.walked, B) (.free v) (.freed, B)
  | callOff {B : Seqs} {op : FusionListOp} (hsub : op.subject = some e) (hc : Contract B op) :
      ElementStep e (.off, B) (.call op) (.off, (seqApply B op).1)
  | freeOff {B : Seqs} (he : OnNoList B e) (v : FusionListEntry) :
      ElementStep e (.off, B) (.free v) (.freed, erase B e)

inductive ElementSteps (e : Addr) : Place × Seqs → List BodyOp → Place × Seqs → Prop where
  | nil (s : Place × Seqs) : ElementSteps e s [] s
  | cons {s t u : Place × Seqs} {op : BodyOp} {ops : List BodyOp} (hstep : ElementStep e s op t)
      (hsteps : ElementSteps e t ops u) : ElementSteps e s (op :: ops) u

/-- The body does with each of the elements, when its turn comes, what a body may do. -/
inductive BodyAllowed (body : Body) : Heap → Seqs → List Addr → Prop where
  | nil (h : Heap) (B : Seqs) : BodyAllowed body h B []
  | cons {h : Heap} {B B' : Seqs} {e : Addr} {rest : List Addr} {place : Place}
      (hsteps : ElementSteps e (.walked, B) (body e h) (place, B'))
      (hrest : BodyAllowed body (runBody h e (body e h)) B' rest) :
      BodyAllowed body h B (e :: rest)

/-- The events of a loop over these elements: behind each body, the next entry is read. -/
def walkEvents (list : Addr) : List Addr → List WalkEvent
  | [] => []
  | x :: xs => .body x :: .read (xs.headD list) :: walkEvents list xs

def bodiesOf : List WalkEvent → List Addr
  | [] => []
  | .body e :: events => e :: bodiesOf events
  | .read _ :: events => bodiesOf events

/-- No link of an entry is read once a body has been run on it. -/
def NoLateRead (events : List WalkEvent) : Prop :=
  events.Pairwise fun earlier later ↦ ∀ a, earlier = .body a → later ≠ .read a

/-! ## The elements not yet visited -/

/-- Each element points to the next one, the last one to the head. -/
def Leads (h : Heap) (l : Addr) : List Addr → Prop
  | [] => True
  | x :: xs => (h x).next = xs.headD l ∧ Leads h l xs

/-- Each element but the first points back to the one before it. -/
def Backs (h : Heap) : List Addr → Prop
  | [] => True
  | x :: xs => (∀ y ∈ xs.head?, (h y).prev = x) ∧ Backs h xs

variable {h h' : Heap} {A B : Seqs} {l e a : Addr} {rest : List Addr}

theorem Leads.congr (hlead : Leads h l rest) (hsame : ∀ a ∈ rest, (h' a).next = (h a).next) :
    Leads h' l rest := by
  induction rest with
  | nil => trivial
  | cons x xs ih =>
      refine ⟨?_, ih hlead.2 fun a ha ↦ hsame a (List.mem_cons_of_mem x ha)⟩
      rw [hsame x List.mem_cons_self]
      exact hlead.1

theorem Backs.congr (hback : Backs h rest) (hsame : ∀ a ∈ rest.tail, (h' a).prev = (h a).prev) :
    Backs h' rest := by
  induction rest with
  | nil => trivial
  | cons x xs ih =>
      refine ⟨?_, ih hback.2 fun a ha ↦ hsame a (List.mem_of_mem_tail ha)⟩
      intro y hy
      rw [hsame y (List.mem_of_mem_head? hy)]
      exact hback.1 y hy

theorem leads_of_chain (hchain : List.IsChain (Linked h) (rest ++ [l])) : Leads h l rest := by
  induction rest with
  | nil => trivial
  | cons x xs ih =>
      rw [List.cons_append] at hchain
      refine ⟨?_, ih hchain.tail⟩
      cases xs with
      | nil => exact (List.isChain_cons_cons.mp hchain).1.1
      | cons y ys => exact (List.isChain_cons_cons.mp hchain).1.1

theorem backs_of_chain (hchain : List.IsChain (Linked h) rest) : Backs h rest := by
  induction rest with
  | nil => trivial
  | cons x xs ih =>
      refine ⟨?_, ih hchain.tail⟩
      intro y hy
      cases xs with
      | nil => cases hy
      | cons z zs =>
          rw [List.head?_cons, Option.mem_some_iff] at hy
          rw [← hy]
          exact (List.isChain_cons_cons.mp hchain).1.2

/-- Between two bodies: the elements not yet visited still lead to the head, the first of them
points back to something that is neither one of them nor on another list, and the other lists are
well formed and apart. -/
structure WalkInv (h : Heap) (l : Addr) (rest : List Addr) (B : Seqs) : Prop where
  wf : WellFormed h B
  apart : ∀ a ∈ l :: rest, ∀ r, ¬ Owns B r a
  nodup : (l :: rest).Nodup
  nonnull : ∀ a ∈ l :: rest, a ≠ NULL
  leads : Leads h l rest
  backs : Backs h rest
  first : ∀ x ∈ rest.head?, (h x).prev ≠ NULL ∧ (h x).prev ∉ rest ∧ ∀ r, ¬ Owns B r (h x).prev

/-- While the body runs on `e`, with `rest` still to come. -/
def BodyInv (h : Heap) (l e : Addr) (rest : List Addr) : Place × Seqs → Prop
  | (.walked, B) => WalkInv h l (e :: rest) B
  | (.off, B) =>
      WalkInv h l rest B ∧ e ∉ l :: rest ∧ e ≠ NULL ∧ ∀ x ∈ rest.head?, (h x).prev ≠ e
  | (.freed, B) => WalkInv h l rest B

/-! ## Calls that are about one entry -/

/-- A call about `e` leaves alone every other entry that no list holds. -/
theorem fusionListApply_of_not_owns (hwf : WellFormed h B) {op : FusionListOp}
    (hsub : op.subject = some e) (hc : Contract B op) (ha : ∀ r, ¬ Owns B r a) (hae : a ≠ e) :
    (fusionListApply h op).1 a = h a := by
  -- unlinking `e` from its list, and adding it to one
  have hdel : Element B e → fusionListDelRaw h e a = h a := by
    intro he
    obtain ⟨r, hr⟩ := he.owns
    have hn := hwf.next_owns hr
    have hp := hwf.prev_owns hr
    rw [fusionListDelRaw_eq (hwf.ne_null hn) (hwf.ne_null hp), link_of_ne]
    · rintro rfl
      exact ha r hp
    · rintro rfl
      exact ha r hn
  have hadd : ∀ (k : Heap) (C : Seqs) (m : Addr), WellFormed k C → (C m).isSome →
      (∀ r, ¬ Owns C r a) →
        fusionListAddHead k e m a = k a ∧ fusionListAddTail k e m a = k a := by
    intro k C m hk hm hout
    obtain ⟨xs, hm⟩ := Option.isSome_iff_exists.mp hm
    have hroot := owns_root hm
    refine ⟨fusionListAddHead_of_not_owns hk hm (hout m) hae, ?_⟩
    unfold fusionListAddTail
    rw [fusionListAdd_eq, link_of_ne, link_of_ne]
    · exact hae
    · rintro rfl
      exact hout _ hroot
    · rintro rfl
      exact hout _ (hk.prev_owns hroot)
    · exact hae
  have herase : ∀ r, ¬ Owns (erase B e) r a := fun r hr ↦ ha r (owns_of_erase hr)
  have hkept : ∀ m, m ≠ e → (B m).isSome → (erase B e m).isSome := by
    intro m hne hm
    obtain ⟨xs, hm⟩ := Option.isSome_iff_exists.mp hm
    rw [erase_of_ne hm hne]
    rfl
  cases op with
  | initList x => cases hsub; exact fusionListInit_of_ne hae
  | addHead x m => cases hsub; exact (hadd h B m hwf hc.2.2.2 ha).1
  | addTail x m => cases hsub; exact (hadd h B m hwf hc.2.2.2 ha).2
  | del x =>
      cases hsub
      show fusionInitList (fusionListDelRaw h e) e a = h a
      rw [fusionListInit_of_ne hae, hdel hc]
  | moveHead x m =>
      cases hsub
      obtain ⟨hne, he, hm⟩ := hc
      have hm' := hkept m (Ne.symm hne) hm
      exact (hadd _ _ m (hwf.delRaw he).1 hm' herase).1.trans (hdel he)
  | moveTail x m =>
      cases hsub
      obtain ⟨hne, he, hm⟩ := hc
      have hm' := hkept m (Ne.symm hne) hm
      exact (hadd _ _ m (hwf.delRaw he).1 hm' herase).2.trans (hdel he)
  | popHead list => cases hsub
  | addList src dst => cases hsub
  | splice list head => cases hsub
  | spliceTail list head => cases hsub

/-- Such a call gives no entry but `e` to a list. -/
theorem owns_seqApply {op : FusionListOp} (hsub : op.subject = some e) (hc : Contract B op)
    {r : Addr} (hown : Owns (seqApply B op).1 r a) : a = e ∨ ∃ r', Owns B r' a := by
  have hput : ∀ (m : Addr) (ys : List Addr), (B m).isSome → (∀ y ∈ ys, y = e ∨ y ∈ seqOf B m) →
      Owns (Function.update (erase B e) m (some ys)) r a → a = e ∨ ∃ r', Owns B r' a := by
    intro m ys hm hys hput
    obtain ⟨xs, hm⟩ := Option.isSome_iff_exists.mp hm
    rcases owns_update hput with ⟨-, hmem⟩ | ⟨-, hold⟩
    · rcases List.mem_cons.mp hmem with rfl | hmem
      · exact Or.inr ⟨a, owns_root hm⟩
      · rcases hys a hmem with he | hin
        · exact Or.inl he
        · rw [seqOf_eq hm] at hin
          exact Or.inr ⟨m, owns_mem hm hin⟩
    · exact Or.inr ⟨r, owns_of_erase hold⟩
  have hinit : Owns (Function.update (erase B e) e (some [])) r a → a = e ∨ ∃ r', Owns B r' a := by
    intro hown
    rcases owns_update hown with ⟨-, hmem⟩ | ⟨-, hold⟩
    · exact Or.inl (List.mem_singleton.mp hmem)
    · exact Or.inr ⟨r, owns_of_erase hold⟩
  cases op with
  | initList x => cases hsub; exact hinit hown
  | addHead x m => cases hsub; exact hput m _ hc.2.2.2 (by simp) hown
  | addTail x m =>
      cases hsub
      exact hput m _ hc.2.2.2 (by simp [or_comm]) hown
  | del x => cases hsub; exact hinit hown
  | moveHead x m =>
      cases hsub
      refine hput m _ hc.2.2 ?_ hown
      intro y hy
      exact (List.mem_cons.mp hy).imp_right List.mem_of_mem_erase
  | moveTail x m =>
      cases hsub
      refine hput m _ hc.2.2 ?_ hown
      intro y hy
      rcases List.mem_append.mp hy with hy | hy
      · exact Or.inr (List.mem_of_mem_erase hy)
      · exact Or.inl (List.mem_singleton.mp hy)
  | popHead list => cases hsub
  | addList src dst => cases hsub
  | splice list head => cases hsub
  | spliceTail list head => cases hsub

/-! ## One body -/

/-- What is written elsewhere leaves the elements not yet visited as they were. -/
theorem WalkInv.frame (hinv : WalkInv h l rest B) {B' : Seqs} (hwf : WellFormed h' B')
    (hsame : ∀ a ∈ rest, h' a = h a) (hout : ∀ a ∈ l :: rest, ∀ r, ¬ Owns B' r a)
    (hfirst : ∀ x ∈ rest.head?, ∀ r, ¬ Owns B' r (h x).prev) : WalkInv h' l rest B' where
  wf := hwf
  apart := hout
  nodup := hinv.nodup
  nonnull := hinv.nonnull
  leads := hinv.leads.congr fun a ha ↦ congrArg Node.next (hsame a ha)
  backs := hinv.backs.congr fun a ha ↦ congrArg Node.prev (hsame a (List.mem_of_mem_tail ha))
  first := by
    intro x hx
    obtain ⟨hnull, hrest, -⟩ := hinv.first x hx
    rw [hsame x (List.mem_of_mem_head? hx)]
    exact ⟨hnull, hrest, hfirst x hx⟩

/-- An element that the body has left on the list. -/
theorem WalkInv.leave (hinv : WalkInv h l (e :: rest) B) : WalkInv h l rest B := by
  have hsub : ∀ a ∈ l :: rest, a ∈ l :: e :: rest := by
    intro a ha
    rcases List.mem_cons.mp ha with rfl | ha
    · exact List.mem_cons_self
    · exact List.mem_cons_of_mem _ (List.mem_cons_of_mem e ha)
  have he : e ∈ l :: e :: rest := List.mem_cons_of_mem l List.mem_cons_self
  obtain ⟨hl, hnd⟩ := List.nodup_cons.mp hinv.nodup
  obtain ⟨herest, hnd⟩ := List.nodup_cons.mp hnd
  refine ⟨hinv.wf, fun a ha ↦ hinv.apart a (hsub a ha), ?_, fun a ha ↦ hinv.nonnull a (hsub a ha),
    hinv.leads.2, hinv.backs.2, ?_⟩
  · exact List.nodup_cons.mpr ⟨fun hmem ↦ hl (List.mem_cons_of_mem e hmem), hnd⟩
  · intro x hx
    rw [hinv.backs.1 x hx]
    exact ⟨hinv.nonnull e he, herest, hinv.apart e he⟩

theorem WalkInv.notMem (hinv : WalkInv h l (e :: rest) B) : e ∉ l :: rest := by
  obtain ⟨hl, hnd⟩ := List.nodup_cons.mp hinv.nodup
  intro hmem
  rcases List.mem_cons.mp hmem with rfl | hmem
  · exact hl List.mem_cons_self
  · exact (List.nodup_cons.mp hnd).1 hmem

/-- `__fusion_list_del` writes the entry before the element and the one behind it: the first is no
longer of interest, the second now points back past the element. -/
theorem WalkInv.unlink (hinv : WalkInv h l (e :: rest) B) :
    BodyInv (fusionListDelRaw h e) l e rest (.off, B) := by
  have hleave := hinv.leave
  have hnot := hinv.notMem
  have he : e ∈ l :: e :: rest := List.mem_cons_of_mem l List.mem_cons_self
  obtain ⟨hpnull, hprest, hpout⟩ := hinv.first e rfl
  have hnext : (h e).next = rest.headD l := hinv.leads.1
  have hnmem : (h e).next ∈ l :: rest := by
    rw [hnext]
    cases rest with
    | nil => exact List.mem_cons_self
    | cons x xs => exact List.mem_cons_of_mem l List.mem_cons_self
  rw [fusionListDelRaw_eq (hleave.nonnull _ hnmem) hpnull]
  have howned : ∀ r a, Owns B r a → link h (h e).prev (h e).next a = h a := by
    intro r a ha
    apply link_of_ne
    · rintro rfl
      exact hpout r ha
    · rintro rfl
      exact hleave.apart _ hnmem r ha
  have hprev : ∀ x ∈ rest.head?, (link h (h e).prev (h e).next x).prev = (h e).prev := by
    intro x hx
    rw [link_prev, hnext, if_pos]
    cases rest with
    | nil => cases hx
    | cons y ys => exact (Option.mem_some_iff.mp hx).symm
  -- the entry before `e` is neither on another list nor still to come, so only a `prev` changes
  refine ⟨⟨?_, hleave.apart, hleave.nodup, hleave.nonnull, ?_, ?_, ?_⟩, hnot, hinv.nonnull e he, ?_⟩
  · refine ⟨⟨fun r xs hr ↦ ?_, hinv.wf.nodup, hinv.wf.disjoint⟩, hinv.wf.null⟩
    exact (hinv.wf.ring r xs hr).congr fun a ha ↦ howned r a ⟨xs, hr, ha⟩
  · refine hleave.leads.congr fun a ha ↦ ?_
    rw [link_next, if_neg]
    rintro rfl
    exact hprest (List.mem_cons_of_mem e ha)
  · refine hleave.backs.congr fun a ha ↦ ?_
    rw [link_prev, hnext, if_neg]
    rintro rfl
    cases rest with
    | nil => cases ha
    | cons y ys =>
        exact (List.nodup_cons.mp (List.nodup_cons.mp hleave.nodup).2).1 ha
  · intro x hx
    rw [hprev x hx]
    exact ⟨hpnull, fun hmem ↦ hprest (List.mem_cons_of_mem e hmem), hpout⟩
  · intro x hx
    rw [hprev x hx]
    intro heq
    rw [heq] at hprest
    exact hprest List.mem_cons_self

/-- Any use of an element that is off the list. -/
theorem BodyInv.call (hinv : BodyInv h l e rest (.off, B)) {op : FusionListOp}
    (hsub : op.subject = some e) (hc : Contract B op) :
    BodyInv (fusionListApply h op).1 l e rest (.off, (seqApply B op).1) := by
  obtain ⟨hwalk, hnot, hnull, hback⟩ := hinv
  have hsame : ∀ a ∈ rest, (fusionListApply h op).1 a = h a := by
    intro a ha
    apply fusionListApply_of_not_owns hwalk.wf hsub hc
    · exact hwalk.apart a (List.mem_cons_of_mem l ha)
    · rintro rfl
      exact hnot (List.mem_cons_of_mem l ha)
  refine ⟨hwalk.frame (fusionListApply_refines hwalk.wf hc).1 hsame ?_ ?_, hnot, hnull, ?_⟩
  · intro a ha r hown
    rcases owns_seqApply hsub hc hown with rfl | ⟨r', hr'⟩
    · exact hnot ha
    · exact hwalk.apart a ha r' hr'
  · intro x hx r hown
    rcases owns_seqApply hsub hc hown with heq | ⟨r', hr'⟩
    · exact hback x hx heq
    · exact (hwalk.first x hx).2.2 r' hr'
  · intro x hx
    rw [hsame x (List.mem_of_mem_head? hx)]
    exact hback x hx

/-- One thing that the body does. -/
theorem BodyInv.step {s t : Place × Seqs} {op : BodyOp} (hinv : BodyInv h l e rest s)
    (hstep : ElementStep e s op t) : BodyInv (bodyApply h e op) l e rest t := by
  have hfresh : ∀ {C : Seqs}, WalkInv h l (e :: rest) C → e ≠ NULL ∧ OnNoList C e := by
    intro C hwalk
    have he : e ∈ l :: e :: rest := List.mem_cons_of_mem l List.mem_cons_self
    exact ⟨hwalk.nonnull e he, Or.inr (hwalk.apart e he)⟩
  have hroot : ∀ {C : Seqs} {m : Addr}, WalkInv h l (e :: rest) C → (C m).isSome → e ≠ m := by
    rintro C m hwalk hm rfl
    obtain ⟨ys, hm⟩ := Option.isSome_iff_exists.mp hm
    exact hwalk.apart e (List.mem_cons_of_mem l List.mem_cons_self) e (owns_root hm)
  cases hstep with
  | unlink C => exact WalkInv.unlink hinv
  | del C =>
      -- an unlinking and an initialisation
      have hsub : (FusionListOp.initList e).subject = some e := rfl
      exact (WalkInv.unlink hinv).call hsub (hfresh hinv)
  -- moves are an unlinking and an addition
  | @moveHead C m hm =>
      have hsub : (FusionListOp.addHead e m).subject = some e := rfl
      exact (WalkInv.unlink hinv).call hsub ⟨(hfresh hinv).1, hroot hinv hm, (hfresh hinv).2, hm⟩
  | @moveTail C m hm =>
      have hsub : (FusionListOp.addTail e m).subject = some e := rfl
      exact (WalkInv.unlink hinv).call hsub ⟨(hfresh hinv).1, hroot hinv hm, (hfresh hinv).2, hm⟩
  -- its neighbours still point at the element, which does no harm to a loop that is past it
  | free C v =>
      have hleave := WalkInv.leave hinv
      have hnot := WalkInv.notMem hinv
      have he := WalkInv.apart hinv e (List.mem_cons_of_mem l List.mem_cons_self)
      refine hleave.frame (hleave.wf.poke he) ?_ hleave.apart fun x hx ↦ (hleave.first x hx).2.2
      intro a ha
      apply Function.update_of_ne
      rintro rfl
      exact hnot (List.mem_cons_of_mem l ha)
  | callOff hsub hc => exact BodyInv.call hinv hsub hc
  | freeOff he v =>
      obtain ⟨hwalk, hnot, -, -⟩ := hinv
      have hforget := (hwalk.wf.forget he).1
      refine hwalk.frame (hforget.poke fun r ↦ hwalk.wf.not_owns_erase r e) ?_
        (fun a ha r hr ↦ hwalk.apart a ha r (owns_of_erase hr))
        fun x hx r hr ↦ (hwalk.first x hx).2.2 r (owns_of_erase hr)
      intro a ha
      apply Function.update_of_ne
      rintro rfl
      exact hnot (List.mem_cons_of_mem l ha)

theorem BodyInv.run {s t : Place × Seqs} {ops : List BodyOp} (hinv : BodyInv h l e rest s)
    (hsteps : ElementSteps e s ops t) : BodyInv (runBody h e ops) l e rest t := by
  induction hsteps generalizing h with
  | nil s => exact hinv
  | cons hstep _ ih => exact ih (hinv.step hstep)

/-- Wherever the element has gone, the rest is ready for the next turn. -/
theorem BodyInv.walk {place : Place} (hinv : BodyInv h l e rest (place, B)) :
    WalkInv h l rest B := by
  cases place with
  | walked => exact WalkInv.leave hinv
  | off => exact hinv.1
  | freed => exact hinv

/-! ## The whole loop -/

/-- The loop from its test on, with the cursor on the first element not yet visited and the saved
address on the one behind it. -/
theorem safeLoop_walks {entryOf linkOf : Addr → Addr} {body : Body}
    (hlink : ∀ a ∈ l :: rest, linkOf (entryOf a) = a) (hinv : WalkInv h l rest B)
    (hbody : BodyAllowed body h B rest) {fuel : Nat} (hfuel : rest.length < fuel)
    {entry nextEntry : Addr} (hentry : linkOf entry = rest.headD l)
    (hnext : ∀ x xs, rest = x :: xs → linkOf nextEntry = xs.headD l) :
    ∃ h', safeLoop entryOf linkOf body l fuel h entry nextEntry = some (h', walkEvents l rest) := by
  induction rest generalizing h B fuel entry nextEntry with
  | nil =>
      obtain ⟨fuel, rfl⟩ := Nat.exists_eq_succ_of_ne_zero (Nat.ne_zero_of_lt hfuel)
      refine ⟨h, ?_⟩
      unfold safeLoop
      rw [if_pos (show linkOf entry = l from hentry)]
      rfl
  | cons x xs ih =>
      obtain ⟨fuel, rfl⟩ := Nat.exists_eq_succ_of_ne_zero (Nat.ne_zero_of_lt hfuel)
      have hx : linkOf entry = x := hentry
      have hxl : x ≠ l := by
        rintro rfl
        exact hinv.notMem List.mem_cons_self
      have hcursor := hnext x xs rfl
      cases hbody with
      | cons hsteps hrest =>
          have hwalk : WalkInv (runBody h x (body x h)) l xs _ :=
            BodyInv.walk (BodyInv.run (show BodyInv h l x xs (.walked, B) from hinv) hsteps)
          have hlink' : ∀ a ∈ l :: xs, linkOf (entryOf a) = a := by
            intro a ha
            rcases List.mem_cons.mp ha with rfl | ha
            · exact hlink a List.mem_cons_self
            · exact hlink a (List.mem_cons_of_mem l (List.mem_cons_of_mem x ha))
          -- behind the last element it is the head that is read, and what is there is not used
          have hsaved : ∀ y ys, xs = y :: ys →
              linkOf (entryOf (runBody h x (body x h) (linkOf nextEntry)).next) = ys.headD l := by
            rintro y ys rfl
            rw [hcursor, List.headD_cons, hwalk.leads.1]
            apply hlink'
            cases ys with
            | nil => exact List.mem_cons_self
            | cons z zs => exact List.mem_cons_of_mem l (List.mem_cons_of_mem y List.mem_cons_self)
          obtain ⟨h', hloop⟩ := ih hlink' hwalk hrest (Nat.lt_of_succ_lt_succ hfuel) hcursor hsaved
          refine ⟨h', ?_⟩
          unfold safeLoop
          rw [if_neg (hx ▸ hxl)]
          rw [hcursor] at hloop
          simp only [hx, hcursor, hloop, Option.map_some]
          rfl

theorem safeWalk_walks {entryOf linkOf : Addr → Addr} {body : Body} {xs : List Addr}
    (hwf : WellFormed h A) (hl : A l = some xs) (hlink : ∀ a ∈ l :: xs, linkOf (entryOf a) = a)
    (hbody : BodyAllowed body h (Function.update A l none) xs) {fuel : Nat}
    (hfuel : xs.length < fuel) :
    ∃ h', safeWalk entryOf linkOf body l fuel h =
      some (h', .read l :: .read (xs.headD l) :: walkEvents l xs) := by
  have hring := hwf.ring l xs hl
  have hnodup := hwf.nodup l xs hl
  have hout : ∀ a, Owns A l a → ∀ r, ¬ Owns (Function.update A l none) r a := by
    rintro a ha r ⟨ys, hr, hmem⟩
    by_cases hrl : r = l
    · rw [hrl, Function.update_self] at hr
      cases hr
    · rw [Function.update_of_ne hrl] at hr
      exact hrl (hwf.disjoint r l a ⟨ys, hr, hmem⟩ ha)
  have hchain := List.IsChain.tail (isRing_cons.mp hring)
  have hfirst : (h l).next = xs.headD l := by
    rw [hring.next_eq]
  have hinv : WalkInv h l xs (Function.update A l none) := by
    refine ⟨hwf.drop l, fun a ha ↦ hout a ⟨xs, hl, ha⟩, hnodup, ?_, leads_of_chain hchain,
      backs_of_chain (List.isChain_append.mp hchain).1, ?_⟩
    · rintro a ha
      exact hwf.ne_null ⟨xs, hl, ha⟩
    · intro x hx
      have hprev : (h x).prev = l := by
        cases xs with
        | nil => cases hx
        | cons y ys =>
            rw [← Option.mem_some_iff.mp hx]
            exact (List.isChain_cons_cons.mp (isRing_cons.mp hring)).1.2
      rw [hprev]
      exact ⟨hwf.ne_null (owns_root hl), (List.nodup_cons.mp hnodup).1, hout l (owns_root hl)⟩
  have hcursor : linkOf (entryOf (h l).next) = xs.headD l := by
    rw [hfirst]
    apply hlink
    cases xs with
    | nil => exact List.mem_cons_self
    | cons x ys => exact List.mem_cons_of_mem l List.mem_cons_self
  have hsaved : ∀ y ys, xs = y :: ys →
      linkOf (entryOf (h (linkOf (entryOf (h l).next))).next) = ys.headD l := by
    rintro y ys rfl
    rw [hcursor, List.headD_cons, hinv.leads.1]
    apply hlink
    cases ys with
    | nil => exact List.mem_cons_self
    | cons z zs => exact List.mem_cons_of_mem l (List.mem_cons_of_mem y List.mem_cons_self)
  obtain ⟨h', hloop⟩ := safeLoop_walks hlink hinv hbody hfuel hcursor hsaved
  refine ⟨h', ?_⟩
  rw [hcursor] at hloop
  unfold safeWalk
  simp only [hcursor, hloop, Option.map_some]

theorem bodiesOf_walkEvents (l : Addr) (xs : List Addr) : bodiesOf (walkEvents l xs) = xs := by
  induction xs with
  | nil => rfl
  | cons x xs ih => exact congrArg (x :: ·) ih

theorem mem_of_read_mem_walkEvents {xs : List Addr} (hread : .read a ∈ walkEvents l xs) :
    a ∈ l :: xs := by
  induction xs with
  | nil => cases hread
  | cons x xs ih =>
      have hmem : a = xs.headD l ∨ .read a ∈ walkEvents l xs := by
        simpa [walkEvents] using hread
      have hin : a ∈ l :: xs := by
        rcases hmem with rfl | hmem
        · cases xs with
          | nil => exact List.mem_cons_self
          | cons y ys => exact List.mem_cons_of_mem l List.mem_cons_self
        · exact ih hmem
      simp only [List.mem_cons] at hin ⊢
      exact hin.imp_right Or.inr

theorem noLateRead_walkEvents {xs : List Addr} (hnodup : (l :: xs).Nodup) :
    NoLateRead (walkEvents l xs) := by
  induction xs with
  | nil => exact List.Pairwise.nil
  | cons x xs ih =>
      obtain ⟨hl, hnd⟩ := List.nodup_cons.mp hnodup
      obtain ⟨hx, hnd⟩ := List.nodup_cons.mp hnd
      have hxl : x ∉ l :: xs := by
        intro hmem
        rcases List.mem_cons.mp hmem with rfl | hmem
        · exact hl List.mem_cons_self
        · exact hx hmem
      have hrest := ih (List.nodup_cons.mpr ⟨fun hmem ↦ hl (List.mem_cons_of_mem x hmem), hnd⟩)
      refine List.Pairwise.cons ?_ (List.Pairwise.cons ?_ hrest)
      · -- what is read from here on is an entry behind `x`, or the head
        rintro later hlater a heq rfl
        cases heq
        rcases List.mem_cons.mp hlater with hread | hread
        · apply hxl
          cases hread
          cases xs with
          | nil => exact List.mem_cons_self
          | cons y ys => exact List.mem_cons_of_mem l List.mem_cons_self
        · exact hxl (mem_of_read_mem_walkEvents hread)
      · intro later _ a heq
        cases heq

/-- What a walk over the elements `xs` has done: it has ended at the head, the body was run on each
of them in order, and no element was looked at afterwards. -/
def VisitsEach (walk : Option (Heap × List WalkEvent)) (xs : List Addr) : Prop :=
  ∃ h events, walk = some (h, events) ∧ bodiesOf events = xs ∧ NoLateRead events

theorem safeWalk_visitsEach {entryOf linkOf : Addr → Addr} {body : Body} {xs : List Addr}
    (hwf : WellFormed h A) (hl : A l = some xs) (hlink : ∀ a ∈ l :: xs, linkOf (entryOf a) = a)
    (hbody : BodyAllowed body h (Function.update A l none) xs) {fuel : Nat}
    (hfuel : xs.length < fuel) : VisitsEach (safeWalk entryOf linkOf body l fuel h) xs := by
  obtain ⟨h', hwalk⟩ := safeWalk_walks hwf hl hlink hbody hfuel
  refine ⟨h', _, hwalk, bodiesOf_walkEvents l xs, ?_⟩
  have hread : ∀ (b : Addr) (later : WalkEvent) (a : Addr), WalkEvent.read b = .body a →
      later ≠ .read a := by
    intro b later a heq
    cases heq
  exact List.Pairwise.cons (fun later _ ↦ hread l later) (List.Pairwise.cons
    (fun later _ ↦ hread _ later) (noLateRead_walkEvents (hwf.nodup l xs hl)))

theorem fieldOf_containerOf {field entry : Nat} (hfield : field < 2 ^ 64)
    (hentry : entry < 2 ^ 64) : fieldOf field (containerOf field entry) = entry := by
  show ((entry + (2 ^ 64 - field)) % 2 ^ 64 + field) % 2 ^ 64 = entry
  omega

/-- On every well-formed list and for every body that does with an element what the header allows,
both loops run the body on each element that was there, in order, and read no element after that. -/
theorem fusionListForEachSafe_visitsEach {body : Body} {xs : List Addr} {field : Addr}
    (hwf : WellFormed h A) (hl : A l = some xs)
    (hbody : BodyAllowed body h (Function.update A l none) xs) (hfield : field < 2 ^ 64)
    (haddr : ∀ a ∈ l :: xs, a < 2 ^ 64) {fuel : Nat} (hfuel : xs.length < fuel) :
    VisitsEach (fusionListForEachSafe body l fuel h) xs ∧
      VisitsEach (fusionListForEachEntrySafe field body l fuel h) xs :=
  ⟨safeWalk_visitsEach hwf hl (fun _ _ ↦ rfl) hbody hfuel,
    safeWalk_visitsEach hwf hl (fun a ha ↦ fieldOf_containerOf hfield (haddr a ha)) hbody hfuel⟩

/-! The two loops of `fio/port/kcache.h`, whatever the freed memory holds afterwards. -/

/-- `error_exit` of `fusion_cache_reserve`. -/
def reserveExitBody (v : Addr → FusionListEntry) : Body := fun e _ ↦ [.free (v e)]

/-- The loop of `fusion_cache_destroy`. -/
def cacheDestroyBody (v : Addr → FusionListEntry) : Body := fun e _ ↦ [.call (.del e), .free (v e)]

theorem bodyAllowed_reserveExit (v : Addr → FusionListEntry) (h : Heap) (B : Seqs)
    (xs : List Addr) : BodyAllowed (reserveExitBody v) h B xs := by
  induction xs generalizing h B with
  | nil => exact .nil h B
  | cons x xs ih => exact .cons (.cons (.free B (v x)) (.nil _)) (ih _ _)

theorem bodyAllowed_cacheDestroy (v : Addr → FusionListEntry) (h : Heap) (B : Seqs)
    (xs : List Addr) : BodyAllowed (cacheDestroyBody v) h B xs := by
  induction xs generalizing h B with
  | nil => exact .nil h B
  | cons x xs ih =>
      have hdel : OnNoList (seqApply B (.initList x)).1 x := Or.inl (Function.update_self ..)
      exact .cons (.cons (.del B) (.cons (.freeOff hdel (v x)) (.nil _))) (ih _ _)

/-- The first element goes to the other list, the second one is freed where it stands. -/
def moveThenFree : Body
  | 2, _ => [.call (.moveTail 2 4), .call (.del 2), .call (.addHead 2 4)]
  | _, _ => [.free ⟨0xdead, 0xbeef⟩]

theorem fusionListForEachSafe_visitsEach_sample :
    VisitsEach (fusionListForEachSafe moveThenFree 1 3 sampleHeap) [2, 3] ∧
      VisitsEach (fusionListForEachEntrySafe 16 moveThenFree 1 3 sampleHeap) [2, 3] := by
  have hmove : ElementSteps 2 (.walked, Function.update sampleSeqs 1 none)
      (moveThenFree 2 sampleHeap) _ :=
    .cons (.moveTail (show (Function.update sampleSeqs 1 none 4).isSome from by decide))
      (.cons (.callOff rfl (show Element _ 2 from Or.inr ⟨4, [2], by decide, by decide⟩))
        (.cons (.callOff rfl (show Contract _ (.addHead 2 4) from
          ⟨by decide, by decide, Or.inl (by decide), by decide⟩)) (.nil _)))
  have hbody : BodyAllowed moveThenFree sampleHeap (Function.update sampleSeqs 1 none) [2, 3] :=
    .cons hmove (.cons (.cons (.free _ _) (.nil _)) (.nil _ _))
  exact fusionListForEachSafe_visitsEach sampleHeap_wellFormed rfl hbody (by decide) (by decide)
    (by decide)

end IomemoryVsl.Port
