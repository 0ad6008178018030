import Mathlib.Logic.Function.Basic
import IomemoryVsl.Lib.Owned
import IomemoryVsl.Lib.Run

/-!
# Starting kernel threads (`kfio.c`)

`fusion_create_kthread` puts the function and its argument into memory of their own and gives the
address to a new thread, which copies them to its stack and frees the memory before it calls the
function.  Any number of calls are in progress at once, and `malloc` hands out an address again as
soon as it is free.
-/

namespace IomemoryVsl.Kfio

open Transition

abbrev Address := ℕ

/-- `struct fusion_thread_args` -/
structure FusionThreadArgs where
  func : UInt64
  args : UInt64
deriving DecidableEq, Repr

/-- How far a call has come: first in `fusion_create_kthread`, then in the wrapper. -/
inductive KthreadPc where
  | malloc
  | storeFunc (params : Address)
  | storeArgs (params : Address)
  | create (params : Address)
  /-- `kthread_create` has failed, and nobody looks at that -/
  | notCreated (params : Address)
  | copyFunc (data : Address)
  | copyArgs (data : Address) (func : UInt64)
  | free (data : Address) (params : FusionThreadArgs)
  | call (params : FusionThreadArgs)
  | exited
deriving DecidableEq, Repr

/-- One call of `fusion_create_kthread`, with its two arguments and the thread that comes of it. -/
structure KthreadCall where
  func : UInt64
  data : UInt64
  pc : KthreadPc
deriving DecidableEq, Repr

/-- `called` are the functions that threads have called, each with its argument; `faults` counts the
accesses to memory that is not allocated. -/
structure KthreadState where
  heap : Address → Option FusionThreadArgs
  calls : List KthreadCall
  called : List FusionThreadArgs
  faults : ℕ

/-! ## The steps -/

/-- A write to `*params`. -/
def KthreadState.store (s : KthreadState) (p : Address)
    (f : FusionThreadArgs → FusionThreadArgs) : KthreadState :=
  match s.heap p with
  | none => { s with faults := s.faults + 1 }
  | some a => { s with heap := Function.update s.heap p (some (f a)) }

/-- `free(data, M_TEMP)` -/
def KthreadState.release (s : KthreadState) (p : Address) : KthreadState :=
  match s.heap p with
  | none => { s with faults := s.faults + 1 }
  | some _ => { s with heap := Function.update s.heap p none }

def KthreadState.setCall (s : KthreadState) (k : ℕ) (c : KthreadCall) (pc : KthreadPc) :
    KthreadState :=
  { s with calls := s.calls.set k { c with pc := pc } }

inductive KthreadEvent where
  /-- a call of `fusion_create_kthread` -/
  | begin (func data : UInt64)
  /-- `malloc` returns `p`, with what it finds there -/
  | malloc (k : ℕ) (p : Address) (junk : FusionThreadArgs)
  /-- `kthread_create` succeeds or not -/
  | create (k : ℕ) (success : Bool)
  /-- any other step of a call -/
  | advance (k : ℕ)
deriving DecidableEq, Repr

/-- A step that depends on nothing but the state. -/
def advanceCall (s : KthreadState) (k : ℕ) (c : KthreadCall) : Option KthreadState :=
  match c.pc with
  | .storeFunc p =>
      some ((s.store p fun a ↦ { a with func := c.func }).setCall k c (.storeArgs p))
  | .storeArgs p => some ((s.store p fun a ↦ { a with args := c.data }).setCall k c (.create p))
  | .copyFunc p =>
      match s.heap p with
      | none => some { s with faults := s.faults + 1 }
      | some a => some (s.setCall k c (.copyArgs p a.func))
  | .copyArgs p func =>
      match s.heap p with
      | none => some { s with faults := s.faults + 1 }
      | some a => some (s.setCall k c (.free p ⟨func, a.args⟩))
  | .free p params => some ((s.release p).setCall k c (.call params))
  | .call params => some { s.setCall k c .exited with called := params :: s.called }
  | .malloc | .create _ | .notCreated _ | .exited => none

def kthreadStep (s : KthreadState) : KthreadEvent → Option KthreadState
  | .begin func data => some { s with calls := s.calls ++ [⟨func, data, .malloc⟩] }
  | .malloc k p junk =>
      s.calls[k]?.bind fun c ↦
        if c.pc = .malloc ∧ s.heap p = none then
          some ({ s with heap := Function.update s.heap p (some junk) }.setCall k c (.storeFunc p))
        else none
  | .create k success =>
      s.calls[k]?.bind fun c ↦
        match c.pc with
        | .create p => some (s.setCall k c (if success then .copyFunc p else .notCreated p))
        | _ => none
  | .advance k => s.calls[k]?.bind (advanceCall s k)

def noKthreads : KthreadState := ⟨fun _ ↦ none, [], [], 0⟩

/-! ## Who owns what -/

def KthreadCall.want (c : KthreadCall) : FusionThreadArgs := ⟨c.func, c.data⟩

/-- The memory that a call answers for. -/
def KthreadCall.owned (c : KthreadCall) : List Address :=
  match c.pc with
  | .storeFunc p | .storeArgs p | .create p | .notCreated p | .copyFunc p | .copyArgs p _
  | .free p _ => [p]
  | .malloc | .call _ | .exited => []

/-- What a call relies on. -/
def KthreadCall.Ready (heap : Address → Option FusionThreadArgs) (c : KthreadCall) : Prop :=
  match c.pc with
  | .malloc | .exited => True
  | .storeFunc p => heap p ≠ none
  | .storeArgs p => ∃ a, heap p = some a ∧ a.func = c.func
  | .create p | .notCreated p | .copyFunc p => heap p = some c.want
  | .copyArgs p func => heap p = some c.want ∧ func = c.func
  | .free p params => heap p = some c.want ∧ params = c.want
  | .call params => params = c.want

def KthreadCall.Exited (c : KthreadCall) : Prop := c.pc = .exited

instance : DecidablePred KthreadCall.Exited := fun c ↦ inferInstanceAs (Decidable (c.pc = .exited))

theorem ready_local : Owned.Local KthreadCall.owned KthreadCall.Ready where
  held := by
    rintro heap ⟨func, data, pc⟩ hready p hp
    cases pc with
    | malloc => cases hp
    | call params => cases hp
    | exited => cases hp
    | storeFunc q =>
        rw [List.mem_singleton.mp hp]
        exact hready
    | storeArgs q =>
        obtain ⟨a, ha, -⟩ := hready
        rw [List.mem_singleton.mp hp, ha]
        exact Option.some_ne_none a
    | create q | notCreated q | copyFunc q =>
        rw [List.mem_singleton.mp hp, show heap q = _ from hready]
        exact Option.some_ne_none _
    | copyArgs q f | free q params =>
        rw [List.mem_singleton.mp hp, hready.1]
        exact Option.some_ne_none _
  congr := by
    rintro heap heap' ⟨func, data, pc⟩ hsame hready
    cases pc with
    | malloc | exited => exact trivial
    | call params => exact hready
    | storeFunc q | storeArgs q | create q | notCreated q | copyFunc q | copyArgs q f
    | free q params =>
        have hq : heap' q = heap q := hsame q (List.mem_singleton_self q)
        simp only [KthreadCall.Ready, hq] at hready ⊢
        exact hready

variable {s t : KthreadState} {k : ℕ} {c : KthreadCall}

/-- The functions that have been called, over the calls whose thread has come to its end. -/
def KthreadState.completed (s : KthreadState) : List FusionThreadArgs :=
  (s.calls.filter (fun c ↦ decide c.Exited)).map KthreadCall.want

/-- The memory is accounted for, every function called is one that a thread was made for, and no
memory is touched that is not allocated. -/
structure KthreadInv (s : KthreadState) : Prop where
  account : Owned.Account KthreadCall.owned KthreadCall.Ready s.heap s.calls
  called : s.called.Perm s.completed
  clean : s.faults = 0

theorem noKthreads_inv : KthreadInv noKthreads where
  account := Owned.account_nil
  called := List.Perm.nil
  clean := rfl

theorem store_held {p : Address} {a : FusionThreadArgs} (h : s.heap p = some a)
    (f : FusionThreadArgs → FusionThreadArgs) :
    s.store p f = { s with heap := Function.update s.heap p (some (f a)) } := by
  unfold KthreadState.store
  rw [h]

theorem release_held {p : Address} {a : FusionThreadArgs} (h : s.heap p = some a) :
    s.release p = { s with heap := Function.update s.heap p none } := by
  unfold KthreadState.release
  rw [h]

/-- A call that goes on without having come to its end. -/
theorem completed_set (hget : s.calls[k]? = some c) (hc : ¬ c.Exited) {y : KthreadCall}
    (hy : ¬ y.Exited) (heap : Address → Option FusionThreadArgs) :
    KthreadState.completed { s with heap := heap, calls := s.calls.set k y } = s.completed := by
  obtain ⟨us, vs, hl, hset, -⟩ := Slots.exists_split hget
  unfold KthreadState.completed
  dsimp only
  rw [hset y, hl]
  simp [List.filter_append, hc, hy]

/-- The step of one call that keeps its memory or takes the first piece of it. -/
theorem KthreadInv.step (h : KthreadInv s) (hget : s.calls[k]? = some c) (hc : ¬ c.Exited)
    {pc : KthreadPc} (hpc : pc ≠ .exited) {heap : Address → Option FusionThreadArgs}
    (hnew : ∀ p ∈ KthreadCall.owned { c with pc := pc }, p ∈ c.owned ∨ s.heap p = none)
    (hfreed : ∀ p ∈ c.owned, p ∉ KthreadCall.owned { c with pc := pc } → heap p = none)
    (hframe : ∀ p, p ∉ c.owned → p ∉ KthreadCall.owned { c with pc := pc } → heap p = s.heap p)
    (hready : KthreadCall.Ready heap { c with pc := pc }) :
    KthreadInv ({ s with heap := heap }.setCall k c pc) where
  account := by
    refine h.account.set ready_local hget ?_ hnew hfreed hframe hready
    unfold KthreadCall.owned
    cases pc <;> simp
  called := by
    have hsame := completed_set hget hc (y := { c with pc := pc }) hpc heap
    show s.called.Perm (KthreadState.completed { s with heap := heap, calls := _ })
    rw [hsame]
    exact h.called
  clean := h.clean

/-- A write by the owner to the memory that it keeps. -/
theorem KthreadInv.write (h : KthreadInv s) (hget : s.calls[k]? = some c) {p : Address}
    {pc : KthreadPc} (hown : c.owned = [p])
    (hkeep : KthreadCall.owned { c with pc := pc } = [p]) {a : FusionThreadArgs}
    (hready : KthreadCall.Ready (Function.update s.heap p (some a)) { c with pc := pc }) :
    KthreadInv ({ s with heap := Function.update s.heap p (some a) }.setCall k c pc) := by
  have hc : ¬ c.Exited := by
    intro hexited
    rw [KthreadCall.owned, show c.pc = .exited from hexited] at hown
    cases hown
  have hpc : pc ≠ .exited := by
    rintro rfl
    cases hkeep
  refine h.step hget hc hpc ?_ ?_ ?_ hready
  · intro q hq
    rw [hkeep] at hq
    rw [hown]
    exact Or.inl hq
  · intro q hq hnot
    rw [hown] at hq
    rw [hkeep] at hnot
    exact absurd hq hnot
  · intro q hq _
    rw [hown, List.mem_singleton] at hq
    exact Function.update_of_ne hq _ _

/-- A step of the owner that leaves the memory alone. -/
theorem KthreadInv.move (h : KthreadInv s) (hget : s.calls[k]? = some c) {pc : KthreadPc}
    (hc : ¬ c.Exited) (hpc : pc ≠ .exited)
    (hkeep : KthreadCall.owned { c with pc := pc } = c.owned)
    (hready : KthreadCall.Ready s.heap { c with pc := pc }) : KthreadInv (s.setCall k c pc) := by
  have hsame : ∀ p, p ∉ c.owned → p ∉ KthreadCall.owned { c with pc := pc } → s.heap p = s.heap p :=
    fun _ _ _ ↦ rfl
  refine h.step hget hc hpc ?_ ?_ hsame hready
  · intro p hp
    rw [hkeep] at hp
    exact Or.inl hp
  · intro p hp hnot
    rw [hkeep] at hnot
    exact absurd hp hnot

theorem advanceCall_inv (h : KthreadInv s) (hget : s.calls[k]? = some c)
    (hstep : advanceCall s k c = some t) : KthreadInv t := by
  have hready := h.account.ready c (List.mem_of_getElem? hget)
  obtain ⟨func, data, pc⟩ := c
  cases pc with
  | malloc => cases hstep
  | create p => cases hstep
  | notCreated p => cases hstep
  | exited => cases hstep
  | storeFunc p =>
      obtain ⟨a, ha⟩ := Option.ne_none_iff_exists'.mp (show s.heap p ≠ none from hready)
      simp only [advanceCall, store_held ha, Option.some.injEq] at hstep
      subst hstep
      exact h.write hget rfl rfl ⟨_, Function.update_self .., rfl⟩
  | storeArgs p =>
      obtain ⟨a, ha, hfunc⟩ := hready
      simp only [advanceCall, store_held ha, Option.some.injEq] at hstep
      subst hstep
      refine h.write hget rfl rfl ?_
      show Function.update s.heap p _ p = some ⟨func, data⟩
      rw [Function.update_self, hfunc]
  | copyFunc p =>
      have ha : s.heap p = some ⟨func, data⟩ := hready
      simp only [advanceCall, ha, Option.some.injEq] at hstep
      subst hstep
      exact h.move hget (by simp [KthreadCall.Exited]) (by simp) rfl ⟨ha, rfl⟩
  | copyArgs p f =>
      have ha : s.heap p = some ⟨func, data⟩ := hready.1
      have hf : f = func := hready.2
      simp only [advanceCall, ha, hf, Option.some.injEq] at hstep
      subst hstep
      exact h.move hget (by simp [KthreadCall.Exited]) (by simp) rfl ⟨ha, rfl⟩
  | free p params =>
      have ha : s.heap p = some ⟨func, data⟩ := hready.1
      have hparams : params = ⟨func, data⟩ := hready.2
      simp only [advanceCall, release_held ha, Option.some.injEq] at hstep
      subst hstep
      refine h.step hget (by simp [KthreadCall.Exited]) (by simp) ?_ ?_ ?_ hparams
      · intro q hq
        cases hq
      · intro q hq _
        rw [List.mem_singleton.mp hq]
        exact Function.update_self ..
      · intro q hq _
        exact Function.update_of_ne (fun heq ↦ hq (List.mem_singleton.mpr heq)) _ _
  | call params =>
      have hparams : params = ⟨func, data⟩ := hready
      simp only [advanceCall, Option.some.injEq] at hstep
      subst hstep
      refine ⟨?_, ?_, h.clean⟩
      · exact h.account.set ready_local hget List.nodup_nil (fun _ hp ↦ by cases hp)
          (fun _ hp ↦ by cases hp) (fun _ _ _ ↦ rfl) trivial
      · -- the function called is the one of the call that comes to its end
        obtain ⟨us, vs, hl, hset, -⟩ := Slots.exists_split hget
        have hbefore := h.called
        unfold KthreadState.completed at hbefore ⊢
        simp only [KthreadState.setCall, hset]
        rw [hl] at hbefore
        simp only [List.filter_append, List.filter_cons, KthreadCall.Exited, decide_true,
          decide_false, reduceCtorEq, if_true, Bool.false_eq_true, if_false, List.map_append,
          List.map_cons] at hbefore ⊢
        rw [hparams]
        exact (List.Perm.cons _ hbefore).trans List.perm_middle.symm

theorem kthreadStep_inv (s : KthreadState) (e : KthreadEvent) (s' : KthreadState)
    (h : KthreadInv s) (hstep : kthreadStep s e = some s') : KthreadInv s' := by
  cases e with
  | begin func data =>
      cases hstep
      refine ⟨h.account.append rfl trivial, ?_, h.clean⟩
      have hbefore := h.called
      unfold KthreadState.completed at hbefore ⊢
      simpa [List.filter_append, KthreadCall.Exited] using hbefore
  | malloc k p junk =>
      obtain ⟨c, hget, hstep⟩ := Option.bind_eq_some_iff.mp hstep
      simp only [Option.ite_none_right_eq_some, Option.some.injEq] at hstep
      obtain ⟨⟨hpc, hfree⟩, rfl⟩ := hstep
      have hown : c.owned = [] := by rw [KthreadCall.owned, hpc]
      refine h.step hget (by simp [KthreadCall.Exited, hpc]) (by simp) ?_ ?_ ?_ ?_
      · intro q hq
        rw [List.mem_singleton.mp hq]
        exact Or.inr hfree
      · intro q hq
        rw [hown] at hq
        cases hq
      · intro q _ hq
        exact Function.update_of_ne (fun heq ↦ hq (List.mem_singleton.mpr heq)) _ _
      · show Function.update s.heap p (some junk) p ≠ none
        rw [Function.update_self]
        exact Option.some_ne_none junk
  | create k success =>
      obtain ⟨c, hget, hstep⟩ := Option.bind_eq_some_iff.mp hstep
      have hready := h.account.ready c (List.mem_of_getElem? hget)
      obtain ⟨func, data, pc⟩ := c
      cases pc with
      | create p =>
          cases hstep
          refine h.move hget (by simp [KthreadCall.Exited]) ?_ ?_ ?_
          · cases success <;> simp
          · cases success <;> rfl
          · cases success
            · exact hready
            · exact hready
      | _ => cases hstep
  | advance k =>
      obtain ⟨c, hget, hstep⟩ := Option.bind_eq_some_iff.mp hstep
      exact advanceCall_inv h hget hstep

/-! ## How far a thread has to go -/

/-- The call has a thread of its own. -/
def KthreadCall.Started (c : KthreadCall) : Prop :=
  match c.pc with
  | .copyFunc _ | .copyArgs _ _ | .free _ _ | .call _ | .exited => True
  | .malloc | .storeFunc _ | .storeArgs _ | .create _ | .notCreated _ => False

/-- The call waits neither for `malloc` nor for `kthread_create`, and has not ended. -/
def KthreadCall.Running (c : KthreadCall) : Prop :=
  match c.pc with
  | .storeFunc _ | .storeArgs _ | .copyFunc _ | .copyArgs _ _ | .free _ _ | .call _ => True
  | .malloc | .create _ | .notCreated _ | .exited => False

/-- The steps that a thread has still to make. -/
def KthreadCall.stepsLeft (c : KthreadCall) : ℕ :=
  match c.pc with
  | .copyFunc _ => 4
  | .copyArgs _ _ => 3
  | .free _ _ => 2
  | .call _ => 1
  | .malloc | .storeFunc _ | .storeArgs _ | .create _ | .notCreated _ | .exited => 0

/-- The call whose step an event is. -/
def KthreadEvent.call : KthreadEvent → Option ℕ
  | .begin _ _ => none
  | .malloc k _ _ | .create k _ | .advance k => some k

theorem KthreadCall.Started.exited (hstarted : c.Started) (hnone : c.stepsLeft = 0) :
    c.Exited := by
  obtain ⟨func, data, pc⟩ := c
  cases pc with
  | exited => rfl
  | malloc | storeFunc p | storeArgs p | create p | notCreated p => exact hstarted.elim
  | copyFunc p | copyArgs p f | free p params | call params => cases hnone

theorem advanceCall_running (hrunning : c.Running) : ∃ t, advanceCall s k c = some t := by
  obtain ⟨func, data, pc⟩ := c
  cases pc with
  | malloc | create p | notCreated p | exited => exact hrunning.elim
  | storeFunc p | storeArgs p | free p params | call params => exact ⟨_, rfl⟩
  | copyFunc p | copyArgs p f =>
      unfold advanceCall
      dsimp only
      split <;> exact ⟨_, rfl⟩

theorem store_calls (s : KthreadState) (p : Address) (f : FusionThreadArgs → FusionThreadArgs) :
    (s.store p f).calls = s.calls := by
  unfold KthreadState.store
  split <;> rfl

theorem release_calls (s : KthreadState) (p : Address) : (s.release p).calls = s.calls := by
  unfold KthreadState.release
  split <;> rfl

/-- A step of a call leaves the others as they are. -/
theorem advanceCall_others {j : ℕ} (hj : j ≠ k) (hstep : advanceCall s j c = some t) :
    t.calls[k]? = s.calls[k]? := by
  obtain ⟨func, data, pc⟩ := c
  cases pc with
  | malloc | create p | notCreated p | exited => cases hstep
  | storeFunc p | storeArgs p =>
      cases hstep
      unfold KthreadState.setCall
      rw [store_calls, List.getElem?_set_ne hj]
  | copyFunc p | copyArgs p f =>
      unfold advanceCall at hstep
      dsimp only at hstep
      split at hstep
      · cases hstep
        rfl
      · cases hstep
        exact List.getElem?_set_ne hj
  | free p params =>
      cases hstep
      unfold KthreadState.setCall
      rw [release_calls, List.getElem?_set_ne hj]
  | call params =>
      cases hstep
      exact List.getElem?_set_ne hj

theorem kthreadStep_others {e : KthreadEvent} (hget : s.calls[k]? = some c)
    (hother : e.call ≠ some k) (hstep : kthreadStep s e = some t) : t.calls[k]? = some c := by
  cases e with
  | begin func data =>
      cases hstep
      exact (List.getElem?_append_left (List.getElem?_eq_some_iff.mp hget).1).trans hget
  | malloc j p junk =>
      have hj : j ≠ k := fun heq ↦ hother (congrArg some heq)
      obtain ⟨c', -, hstep⟩ := Option.bind_eq_some_iff.mp hstep
      simp only [Option.ite_none_right_eq_some, Option.some.injEq] at hstep
      obtain ⟨-, rfl⟩ := hstep
      exact (List.getElem?_set_ne hj).trans hget
  | create j success =>
      have hj : j ≠ k := fun heq ↦ hother (congrArg some heq)
      obtain ⟨c', -, hstep⟩ := Option.bind_eq_some_iff.mp hstep
      split at hstep
      · cases hstep
        exact (List.getElem?_set_ne hj).trans hget
      · cases hstep
  | advance j =>
      have hj : j ≠ k := fun heq ↦ hother (congrArg some heq)
      obtain ⟨c', -, hstep⟩ := Option.bind_eq_some_iff.mp hstep
      exact (advanceCall_others hj hstep).trans hget

/-- A thread's own step brings it one step nearer to its end. -/
theorem kthreadStep_own (h : KthreadInv s) {e : KthreadEvent} (hget : s.calls[k]? = some c)
    (hstarted : c.Started) (hown : e.call = some k) (hstep : kthreadStep s e = some t) :
    e = .advance k ∧ ∃ c', t.calls[k]? = some c' ∧ c'.want = c.want ∧ c'.Started ∧
      c'.stepsLeft + 1 = c.stepsLeft := by
  have hlt : k < s.calls.length := (List.getElem?_eq_some_iff.mp hget).1
  have hready := h.account.ready c (List.mem_of_getElem? hget)
  obtain ⟨func, data, pc⟩ := c
  cases e with
  | begin f d => cases hown
  | malloc j p junk =>
      cases hown
      simp only [kthreadStep, hget, Option.bind_some, Option.ite_none_right_eq_some] at hstep
      obtain ⟨⟨rfl, -⟩, -⟩ := hstep
      exact hstarted.elim
  | create j success =>
      cases hown
      simp only [kthreadStep, hget, Option.bind_some] at hstep
      split at hstep
      · exact hstarted.elim
      · cases hstep
  | advance j =>
      cases hown
      simp only [kthreadStep, hget, Option.bind_some] at hstep
      refine ⟨rfl, ?_⟩
      cases pc with
      | malloc | storeFunc p | storeArgs p | create p | notCreated p => exact hstarted.elim
      | exited => cases hstep
      | copyFunc p =>
          have ha : s.heap p = some ⟨func, data⟩ := hready
          simp only [advanceCall, ha, Option.some.injEq] at hstep
          subst hstep
          exact ⟨_, List.getElem?_set_self hlt, rfl, trivial, rfl⟩
      | copyArgs p f =>
          have ha : s.heap p = some ⟨func, data⟩ := hready.1
          simp only [advanceCall, ha, Option.some.injEq] at hstep
          subst hstep
          exact ⟨_, List.getElem?_set_self hlt, rfl, trivial, rfl⟩
      | free p params =>
          cases hstep
          refine ⟨_, List.getElem?_set_self ?_, rfl, trivial, rfl⟩
          rw [release_calls]
          exact hlt
      | call params =>
          cases hstep
          exact ⟨_, List.getElem?_set_self hlt, rfl, trivial, rfl⟩

/-- The steps of a thread are its own, whatever the others do in between. -/
theorem kthreadRun_stepsLeft (h : KthreadInv s) {gs : List KthreadEvent}
    (hget : s.calls[k]? = some c) (hstarted : c.Started) (hrun : run kthreadStep s gs = some t) :
    ∃ c', t.calls[k]? = some c' ∧ c'.want = c.want ∧ c'.Started ∧
      c'.stepsLeft + gs.count (.advance k) = c.stepsLeft := by
  induction gs generalizing s c with
  | nil =>
      cases hrun
      exact ⟨c, hget, rfl, hstarted, rfl⟩
  | cons e gs ih =>
      obtain ⟨u, hu, hrest⟩ := run_cons_eq_some.mp hrun
      have hinv := kthreadStep_inv s e u h hu
      by_cases hown : e.call = some k
      · obtain ⟨rfl, c₁, hget₁, hwant₁, hstarted₁, hleft₁⟩ :=
          kthreadStep_own h hget hstarted hown hu
        obtain ⟨c', hget', hwant, hstarted', hleft⟩ := ih hinv hget₁ hstarted₁ hrest
        refine ⟨c', hget', hwant.trans hwant₁, hstarted', ?_⟩
        rw [List.count_cons_self]
        omega
      · obtain ⟨c', hget', hwant, hstarted', hleft⟩ :=
          ih hinv (kthreadStep_others hget hown hu) hstarted hrest
        have hne : e ≠ .advance k := by
          rintro rfl
          exact hown rfl
        refine ⟨c', hget', hwant, hstarted', ?_⟩
        rw [List.count_cons_of_ne hne]
        exact hleft

/-! ## Over whole runs -/

/-- What the callers of `fusion_create_kthread` rely on. -/
structure HandedOff (s : KthreadState) : Prop where
  /-- no memory is read, written or freed that is not allocated -/
  clean : s.faults = 0
  /-- a thread is about to call the function that it was made for -/
  own : ∀ c ∈ s.calls, ∀ params, c.pc = .call params → params = c.want
  /-- so many threads have come to their end, so many calls of functions -/
  called : s.called.Perm s.completed
  /-- what is allocated belongs to one call, in the creator or the thread -/
  memory : ∀ p, s.heap p ≠ none ↔ p ∈ s.calls.flatMap KthreadCall.owned
  exclusive : (s.calls.flatMap KthreadCall.owned).Nodup

theorem KthreadInv.handedOff (h : KthreadInv s) : HandedOff s where
  clean := h.clean
  own := by
    intro c hc params hpc
    have hready := h.account.ready c hc
    rw [KthreadCall.Ready, hpc] at hready
    exact hready
  called := h.called
  memory := h.account.allocated_iff ready_local
  exclusive := h.account.nodup

/-- When every call has come to its end or has failed to make its thread, the memory that is left is
that of the failures. -/
theorem KthreadInv.settled (h : KthreadInv s)
    (hend : ∀ c ∈ s.calls, c.Exited ∨ ∃ p, c.pc = .notCreated p) (p : Address) :
    s.heap p ≠ none ↔ ∃ c ∈ s.calls, c.pc = .notCreated p := by
  rw [h.account.allocated_iff ready_local, List.mem_flatMap]
  constructor
  · rintro ⟨c, hc, hp⟩
    refine ⟨c, hc, ?_⟩
    unfold KthreadCall.owned at hp
    rcases hend c hc with hexited | ⟨q, hq⟩
    · rw [show c.pc = .exited from hexited] at hp
      cases hp
    · rw [hq] at hp ⊢
      rw [List.mem_singleton.mp hp]
  · rintro ⟨c, hc, hpc⟩
    refine ⟨c, hc, ?_⟩
    rw [KthreadCall.owned, hpc]
    exact List.mem_singleton_self p

/-- What the thread of a call is sure of. -/
structure Progresses (s : KthreadState) : Prop where
  /-- nothing that the others do can hold it up -/
  enabled : ∀ k c, s.calls[k]? = some c → c.Running → ∃ t, kthreadStep s (.advance k) = some t
  /-- its steps bring it to its end, whatever the others do in between -/
  counted : ∀ k c, s.calls[k]? = some c → c.Started →
    ∀ gs t, run kthreadStep s gs = some t →
      ∃ c', t.calls[k]? = some c' ∧ c'.want = c.want ∧
        c'.stepsLeft + gs.count (.advance k) = c.stepsLeft ∧ (c'.stepsLeft = 0 → c'.Exited)
  /-- and at its end it has called its function -/
  called : ∀ c ∈ s.calls, c.Exited → c.want ∈ s.called

theorem KthreadInv.progresses (h : KthreadInv s) : Progresses s where
  enabled := by
    intro k c hget hrunning
    obtain ⟨t, ht⟩ := @advanceCall_running s k c hrunning
    refine ⟨t, ?_⟩
    rw [kthreadStep, hget]
    exact ht
  counted := by
    intro k c hget hstarted gs t hrun
    obtain ⟨c', hget', hwant, hstarted', hleft⟩ := kthreadRun_stepsLeft h hget hstarted hrun
    exact ⟨c', hget', hwant, hleft, hstarted'.exited⟩
  called := by
    intro c hc hexited
    apply h.called.mem_iff.mpr
    exact List.mem_map_of_mem (List.mem_filter.mpr ⟨hc, decide_eq_true hexited⟩)

/-- In every interleaving of the creators and their threads, with memory handed out again as soon as
it is free: each thread calls its own function with its own argument, once, the arguments are freed
once and not used afterwards, and what is never freed is the memory of the threads that could not be
made.  Nothing holds a thread up: after four steps of its own it has called its function. -/
theorem kthreads_handed_off (es : List KthreadEvent) :
    Throughout kthreadStep
      (fun s ↦ HandedOff s ∧ Progresses s ∧
        ((∀ c ∈ s.calls, c.Exited ∨ ∃ p, c.pc = .notCreated p) →
          ∀ p, s.heap p ≠ none ↔ ∃ c ∈ s.calls, c.pc = .notCreated p))
      noKthreads es := by
  intro fs s _ hr
  have hinv : KthreadInv s := run_invariant kthreadStep_inv noKthreads_inv hr
  exact ⟨hinv.handedOff, hinv.progresses, hinv.settled⟩

/-! Two calls; the memory of the first is handed out to the second as soon as it is free, and the
second comes to its end first. -/

def firstCreated : List KthreadEvent :=
  [.begin 1 10, .begin 2 20, .malloc 0 7 ⟨0, 0⟩, .advance 0, .advance 0, .create 0 true]

def secondOvertakes : List KthreadEvent :=
  [.advance 0, .advance 0, .advance 0, .malloc 1 7 ⟨1, 10⟩, .advance 1, .advance 1,
    .create 1 true, .advance 1, .advance 1, .advance 1, .advance 1, .advance 0]

theorem kthreads_handed_off_overtaken :
    ∃ s t, run kthreadStep noKthreads firstCreated = some s ∧
      run kthreadStep s secondOvertakes = some t ∧ t.heap 7 = none ∧ t.faults = 0 ∧
      ⟨1, 10⟩ ∈ t.called := by
  have hcreated : (run kthreadStep noKthreads firstCreated).map KthreadState.calls =
      some [⟨1, 10, .copyFunc 7⟩, ⟨2, 20, .malloc⟩] := by decide
  have hended : (run kthreadStep noKthreads (firstCreated ++ secondOvertakes)).map
      (fun t ↦ t.heap 7) = some none := by decide
  obtain ⟨s, hs, hcalls⟩ := Option.map_eq_some_iff.mp hcreated
  obtain ⟨t, ht, hfree⟩ := Option.map_eq_some_iff.mp hended
  have hrest : run kthreadStep s secondOvertakes = some t := by
    rw [run_append, hs] at ht
    exact ht
  obtain ⟨-, hstarted, -⟩ := (kthreads_handed_off firstCreated).last hs
  obtain ⟨hhanded, hdone, -⟩ := (kthreads_handed_off (firstCreated ++ secondOvertakes)).last ht
  -- the first thread makes its four steps, with those of the second in between
  obtain ⟨c', hget, hwant, hleft, hexits⟩ := hstarted.counted 0 ⟨1, 10, .copyFunc 7⟩
    (by rw [hcalls]; rfl) trivial secondOvertakes t hrest
  have hcalled := hdone.called c' (List.mem_of_getElem? hget)
    (hexits (Nat.add_right_cancel hleft))
  rw [hwant] at hcalled
  exact ⟨s, t, hs, hrest, hfree, hhanded.clean, hcalled⟩

end IomemoryVsl.Kfio
