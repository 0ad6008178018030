import IomemoryVsl.Lib.SharedCell
import Mathlib.Data.BitVec

/-!
# Atomic integers (`port/arch/ia64_atomic.h`, `x86_atomic.h`, `ppc_atomic.h`)

The functions exist in three builds.  With the HP compiler for Itanium adding is a loop around
`cmpxchg4`, on registers of 64 bits; with a compiler that has the `__sync` builtins they are one
builtin each; on x86 with an older compiler they are inline assembly.

The cell is the `int` in a `fusion_atomic_t`, by its 32 bits; its arithmetic wraps around.
-/

namespace IomemoryVsl.Port

open SharedCell
open Monitor (Obs Follows Replays Outcome)

/-- The calls; `val` is an `int32_t`. -/
inductive AtomicCall where
  | set (val : BitVec 32)
  | read
  | add (val : BitVec 32)
  | inc
  | incr
  | addReturn (val : BitVec 32)
  | dec
  | decr
  | sub (val : BitVec 32)
  | subReturn (val : BitVec 32)
  | exchange (val : BitVec 32)
deriving DecidableEq, Repr

/-- What a call returns: `none` of a `void` function. -/
abbrev AtomicAnswer := Option (BitVec 32)

/-- An atomic integer and the registers of the loops. -/
abbrev AtomicMethod := Method (BitVec 32) (BitVec 64) AtomicAnswer

/-! ## Itanium, with the HP compiler -/

section Hpc

/-- `_Asm_zxt(_XSZ_4, x)` -/
def zxt4 (x : BitVec 32) : BitVec 64 :=
  x.setWidth 64

/-- `(int32_t)x` -/
def truncInt32 (x : BitVec 64) : BitVec 32 :=
  x.setWidth 32

/-- `_Asm_cmpxchg(_SZ_W, ...)`: the register `ar.ccv` is compared with the cell, zero-extended. -/
def cmpxchg4 (ccv new : BitVec 64) (p : BitVec 32) : BitVec 64 × BitVec 32 :=
  (zxt4 p, if zxt4 p = ccv then truncInt32 new else p)

/-- `_Asm_fetchadd(_FASZ_W, ...)` -/
def fetchadd4 (inc p : BitVec 32) : BitVec 64 × BitVec 32 :=
  (zxt4 p, p + inc)

/-- `_Asm_xchg(_SZ_W, ...)` -/
def xchg4 (val p : BitVec 32) : BitVec 64 × BitVec 32 :=
  (zxt4 p, val)

/-- `do { old = zxt(*p); ccv = old; ret = cmpxchg(p, next(old)); } while (ret != old);` -/
def cmpxchgLoop {ρ : Type*} (next : BitVec 64 → BitVec 64) (answer : BitVec 64 → ρ) :
    Retry (BitVec 32) (BitVec 64) ρ where
  load := zxt4
  swap old p := cmpxchg4 old (next old) p
  answer := answer
  swap_finds _ _ := rfl
  swap_keeps _ _ hne := if_neg hne

/-- `val`, converted to `uint64_t` -/
def asUint64 (val : BitVec 32) : BitVec 64 :=
  val.signExtend 64

def hpcMethod : AtomicCall → AtomicMethod
  | .set val => .once fun _ ↦ (val, none)
  | .read => .once fun p ↦ (p, some p)
  | .add val => .retry (cmpxchgLoop (fun old ↦ old + asUint64 val) fun _ ↦ none)
  | .inc => .once fun p ↦ ((fetchadd4 1 p).2, none)
  | .incr => .once fun p ↦ ((fetchadd4 1 p).2, some (truncInt32 (fetchadd4 1 p).1 + 1))
  | .addReturn val =>
      .retry (cmpxchgLoop (fun old ↦ old + asUint64 val) fun old ↦ some (truncInt32 old + val))
  | .dec => .once fun p ↦ ((fetchadd4 (-1) p).2, none)
  | .decr => .once fun p ↦ ((fetchadd4 (-1) p).2, some (truncInt32 (fetchadd4 (-1) p).1 - 1))
  | .sub val => .retry (cmpxchgLoop (fun old ↦ old - asUint64 val) fun _ ↦ none)
  | .subReturn val =>
      .retry (cmpxchgLoop (fun old ↦ old - asUint64 val) fun old ↦ some (truncInt32 old - val))
  | .exchange val => .once fun p ↦ ((xchg4 val p).2, some (truncInt32 (xchg4 val p).1))

end Hpc

/-! ## The `__sync` builtins -/

section Sync

/-- `__sync_add_and_fetch`: the cell afterwards, and the answer -/
def syncAddAndFetch (val p : BitVec 32) : BitVec 32 × BitVec 32 :=
  (p + val, p + val)

def syncSubAndFetch (val p : BitVec 32) : BitVec 32 × BitVec 32 :=
  (p - val, p - val)

/-- `__sync_lock_test_and_set`, which exchanges -/
def syncLockTestAndSet (val p : BitVec 32) : BitVec 32 × BitVec 32 :=
  (val, p)

def syncMethod : AtomicCall → AtomicMethod
  | .set val => .once fun _ ↦ (val, none)
  | .read => .once fun p ↦ (p, some p)
  | .add val => .once fun p ↦ ((syncAddAndFetch val p).1, none)
  | .inc => .once fun p ↦ ((syncAddAndFetch 1 p).1, none)
  | .incr => .once fun p ↦ ((syncAddAndFetch 1 p).1, some (syncAddAndFetch 1 p).2)
  | .addReturn val => .once fun p ↦ ((syncAddAndFetch val p).1, some (syncAddAndFetch val p).2)
  | .dec => .once fun p ↦ ((syncSubAndFetch 1 p).1, none)
  | .decr => .once fun p ↦ ((syncSubAndFetch 1 p).1, some (syncSubAndFetch 1 p).2)
  | .sub val => .once fun p ↦ ((syncSubAndFetch val p).1, none)
  | .subReturn val => .once fun p ↦ ((syncSubAndFetch val p).1, some (syncSubAndFetch val p).2)
  | .exchange val =>
      .once fun p ↦ ((syncLockTestAndSet val p).1, some (syncLockTestAndSet val p).2)

end Sync

/-! ## Inline assembly for x86 -/

section Asm

/-- `lock; xaddl`: the register takes the old value, the cell the sum. -/
def xaddl (reg p : BitVec 32) : BitVec 32 × BitVec 32 :=
  (p, p + reg)

def asmAddReturn (val : BitVec 32) : AtomicMethod :=
  let i := val
  .once fun p ↦ ((xaddl val p).2, some ((xaddl val p).1 + i))

def asmMethod : AtomicCall → AtomicMethod
  | .set val => .once fun _ ↦ (val, none)
  | .read => .once fun p ↦ (p, some p)
  | .add val => .once fun p ↦ (p + val, none)
  | .inc => .once fun p ↦ (p + 1, none)
  | .incr => asmAddReturn 1
  | .addReturn val => asmAddReturn val
  | .dec => .once fun p ↦ (p - 1, none)
  | .decr => asmAddReturn (-1)
  | .sub val => .once fun p ↦ (p - val, none)
  | .subReturn val => asmAddReturn (-val)
  | .exchange val => .once fun p ↦ (val, some p)

end Asm

inductive AtomicBuild where
  | hpc
  | sync
  | asm
deriving DecidableEq, Repr

def AtomicBuild.method : AtomicBuild → AtomicCall → AtomicMethod
  | .hpc => hpcMethod
  | .sync => syncMethod
  | .asm => asmMethod

/-! ## What they compute -/

/-- The counter that the functions stand for: its value after a call, and the answer. -/
def AtomicCall.effect : AtomicCall → BitVec 32 → BitVec 32 × AtomicAnswer
  | .set val, _ => (val, none)
  | .read, p => (p, some p)
  | .add val, p => (p + val, none)
  | .inc, p => (p + 1, none)
  | .incr, p => (p + 1, some (p + 1))
  | .addReturn val, p => (p + val, some (p + val))
  | .dec, p => (p - 1, none)
  | .decr, p => (p - 1, some (p - 1))
  | .sub val, p => (p - val, none)
  | .subReturn val, p => (p - val, some (p - val))
  | .exchange val, p => (val, some p)

@[simp]
theorem truncInt32_zxt4 (x : BitVec 32) : truncInt32 (zxt4 x) = x := by
  unfold truncInt32 zxt4
  rw [BitVec.setWidth_setWidth_of_le x (by decide), BitVec.setWidth_eq]

theorem truncInt32_add (x y : BitVec 64) : truncInt32 (x + y) = truncInt32 x + truncInt32 y :=
  BitVec.setWidth_add x y (by decide)

@[simp]
theorem truncInt32_asUint64 (val : BitVec 32) : truncInt32 (asUint64 val) = val := by
  apply BitVec.eq_of_getLsbD_eq
  intro i hi
  unfold truncInt32 asUint64
  rw [BitVec.getLsbD_setWidth, BitVec.getLsbD_signExtend]
  simp [hi, show i < 64 by omega]

/-- Adding in a register of 64 bits and storing the low 32 is adding in the cell. -/
theorem truncInt32_zxt4_add (p val : BitVec 32) :
    truncInt32 (zxt4 p + asUint64 val) = p + val := by
  rw [truncInt32_add, truncInt32_zxt4, truncInt32_asUint64]

theorem truncInt32_zxt4_sub (p val : BitVec 32) :
    truncInt32 (zxt4 p - asUint64 val) = p - val := by
  have hsum := truncInt32_add (zxt4 p - asUint64 val) (asUint64 val)
  rw [sub_add_cancel, truncInt32_zxt4, truncInt32_asUint64] at hsum
  exact eq_sub_of_add_eq hsum.symm

/-- A loop that nobody disturbs stores what it computed. -/
theorem cmpxchgLoop_effect {ρ : Type*} (next : BitVec 64 → BitVec 64) (answer : BitVec 64 → ρ)
    (p : BitVec 32) : (Method.retry (cmpxchgLoop next answer)).effect p =
      (truncInt32 (next (zxt4 p)), answer (zxt4 p)) := by
  simp [Method.effect, cmpxchgLoop, cmpxchg4]

/-- The three builds compute the same. -/
theorem method_effect (b : AtomicBuild) (c : AtomicCall) (p : BitVec 32) :
    (b.method c).effect p = c.effect p := by
  cases b with
  | hpc =>
      cases c with
      | add val =>
          show (Method.retry _).effect p = _
          rw [cmpxchgLoop_effect, truncInt32_zxt4_add]
          rfl
      | addReturn val =>
          show (Method.retry _).effect p = _
          rw [cmpxchgLoop_effect, truncInt32_zxt4_add, truncInt32_zxt4]
          rfl
      | sub val =>
          show (Method.retry _).effect p = _
          rw [cmpxchgLoop_effect, truncInt32_zxt4_sub]
          rfl
      | subReturn val =>
          show (Method.retry _).effect p = _
          rw [cmpxchgLoop_effect, truncInt32_zxt4_sub, truncInt32_zxt4]
          rfl
      | dec => exact Prod.ext (sub_eq_add_neg p 1).symm rfl
      | decr =>
          refine Prod.ext (sub_eq_add_neg p 1).symm ?_
          show some (truncInt32 (zxt4 p) - 1) = some (p - 1)
          rw [truncInt32_zxt4]
      | incr =>
          refine Prod.ext rfl ?_
          show some (truncInt32 (zxt4 p) + 1) = some (p + 1)
          rw [truncInt32_zxt4]
      | exchange val =>
          refine Prod.ext rfl ?_
          show some (truncInt32 (zxt4 p)) = some p
          rw [truncInt32_zxt4]
      | _ => rfl
  | sync => cases c <;> rfl
  | asm =>
      cases c with
      | decr =>
          show (p + -1, some (p + -1)) = (p - 1, some (p - 1))
          rw [sub_eq_add_neg]
      | subReturn val =>
          show (p + -val, some (p + -val)) = (p - val, some (p - val))
          rw [sub_eq_add_neg]
      | _ => rfl

/-- The effects of calls in a row, on one thread. -/
def AtomicCall.sequential (c : AtomicCall) (p : BitVec 32) : Outcome (BitVec 32) AtomicAnswer :=
  .update (c.effect p).1 (c.effect p).2

theorem sequential_method (b : AtomicBuild) :
    SharedCell.sequential b.method = AtomicCall.sequential := by
  funext c p
  unfold SharedCell.sequential AtomicCall.sequential
  rw [method_effect]

/-! ## Any number of threads -/

section Threads

variable {τ : Type*} [DecidableEq τ]

/-- One atomic integer and the threads that call it. -/
abbrev AtomicState (τ : Type*) := State τ AtomicCall (BitVec 32) (BitVec 64) AtomicAnswer

variable (b : AtomicBuild) {v₀ : BitVec 32} {es : List (Event τ AtomicCall)} {s : AtomicState τ}

/-- Whatever the interleaving, every call takes effect once, between its invocation and its return,
and the effects in their order are those of one thread on a counter. -/
theorem atomics_linearizable (hr : Transition.run (step b.method) (initial v₀) es = some s) :
    (∀ t, Follows t .idle s.trace (s.pcs t).status) ∧
      Replays AtomicCall.sequential v₀ s.trace s.value := by
  have hi := inv_of_run hr
  have hreplays := hi.replays
  rw [sequential_method] at hreplays
  exact ⟨hi.follows, hreplays⟩

/-- Two threads add: the swap of the first fails on the value that the second has left. -/
def contended : List (Event (Fin 2) AtomicCall) :=
  [.invoke 0 (.addReturn 5), .next 0, .invoke 1 (.sub 3), .next 1, .next 1, .next 0, .next 0,
    .next 0, .next 0]

theorem atomics_linearizable_contended : ∃ s : AtomicState (Fin 2),
    Transition.run (step AtomicBuild.hpc.method) (initial 7) contended = some s ∧ s.value = 9 ∧
      s.lost 0 = 1 ∧ Replays AtomicCall.sequential 7 s.trace s.value :=
  ⟨_, rfl, rfl, rfl, (atomics_linearizable .hpc (show Transition.run _ _ contended = _ from rfl)).2⟩

/-- A thread goes round its loop again only on behalf of another thread: it never loses more rounds
than calls of the others have taken effect, in the whole run or from any moment on at which it has
not loaded a value that is already gone, and left alone it returns. -/
theorem atomics_progress (hr : Transition.run (step b.method) (initial v₀) es = some s) (t : τ) :
    s.lost t ≤ effectsBut t s.trace ∧ Finishes b.method t 4 s ∧
      (¬ (s.pcs t).Stale b.method s.value →
        ∀ fs s', Transition.run (step b.method) s fs = some s' →
          ∃ os, s'.trace = s.trace ++ os ∧ s'.lost t ≤ s.lost t + effectsBut t os) := by
  have hi := inv_of_run hr
  refine ⟨?_, hi.finishes t, ?_⟩
  · obtain ⟨os, hos, hlost⟩ := lost_of_run (t := t) id hr
    rw [hos]
    exact hlost.trans_eq (Nat.zero_add _)
  · intro hfresh fs s' hrest
    exact lost_of_run hfresh hrest

/-- The second thread adds while the first has the old value; then the first finds out. -/
theorem atomics_progress_contended : ∃ s s' : AtomicState (Fin 2),
    Transition.run (step AtomicBuild.hpc.method) (initial 7) (contended.take 2) = some s ∧
      Transition.run (step AtomicBuild.hpc.method) s ((contended.drop 2).take 4) = some s' ∧
      Finishes hpcMethod 0 4 s ∧ s.lost 0 = 0 ∧ s'.lost 0 = 1 ∧
      ∃ os, s'.trace = s.trace ++ os ∧ s'.lost 0 ≤ s.lost 0 + effectsBut 0 os := by
  have hr : Transition.run (step AtomicBuild.hpc.method) (initial 7) (contended.take 2) = some _ :=
    rfl
  obtain ⟨-, hfinishes, hlost⟩ := atomics_progress .hpc hr (0 : Fin 2)
  refine ⟨_, _, hr, rfl, hfinishes, rfl, rfl, hlost ?_ ((contended.drop 2).take 4) _ rfl⟩
  rintro ⟨l, hl, hne⟩
  cases hl
  exact hne rfl

/-! ## Counting -/

/-- The call adds something, or nothing. -/
def AtomicCall.Adds : AtomicCall → Prop
  | .set _ | .exchange _ => False
  | _ => True

def AtomicCall.delta : AtomicCall → BitVec 32
  | .add val | .addReturn val => val
  | .sub val | .subReturn val => -val
  | .inc | .incr => 1
  | .dec | .decr => -1
  | .set _ | .exchange _ | .read => 0

theorem effect_add (c : AtomicCall) (p : BitVec 32) (hc : c.Adds) :
    (c.effect p).1 = p + c.delta := by
  cases c with
  | set val => exact hc.elim
  | exchange val => exact hc.elim
  | read => exact (add_zero p).symm
  | dec => exact sub_eq_add_neg p 1
  | decr => exact sub_eq_add_neg p 1
  | sub val => exact sub_eq_add_neg p val
  | subReturn val => exact sub_eq_add_neg p val
  | _ => rfl

/-- As long as nobody sets or exchanges the value, no update is lost: the value is the sum of all
that has been added, and every answer is what the calls up to it add up to. -/
theorem counter_exact (hr : Transition.run (step b.method) (initial v₀) es = some s)
    (hcalls : ∀ t c, .invoke t c ∈ es → c.Adds) :
    s.value = v₀ + total AtomicCall.delta s.trace ∧
      ∀ t c p a r os ps, s.trace = os ++ .lin t c p a r :: ps →
        r = (c.effect (v₀ + total AtomicCall.delta os)).2 := by
  have hadd : ∀ t c, .invoke t c ∈ es → ∀ p, ((b.method c).effect p).1 = p + c.delta := by
    intro t c hmem p
    rw [method_effect]
    exact effect_add c p (hcalls t c hmem)
  obtain ⟨hvalue, hanswers⟩ := counted_of_run hr hadd
  refine ⟨hvalue, ?_⟩
  intro t c p a r os ps htrace
  obtain ⟨hp, hanswer⟩ := hanswers t c p a r os ps htrace
  rw [hanswer, method_effect, hp]

theorem counter_exact_contended : ∃ s : AtomicState (Fin 2),
    Transition.run (step AtomicBuild.hpc.method) (initial 7) contended = some s ∧
      total AtomicCall.delta s.trace = 2 ∧ s.value = 7 + total AtomicCall.delta s.trace :=
  ⟨_, rfl, rfl, (counter_exact .hpc (show Transition.run _ _ contended = _ from rfl) (by
    intro t c hmem
    simp only [contended, List.mem_cons, Event.invoke.injEq, reduceCtorEq, List.not_mem_nil,
      or_false, false_or] at hmem
    rcases hmem with ⟨-, rfl⟩ | ⟨-, rfl⟩ <;> trivial)).1⟩

/-! ## The event numbers of `ktr_log_freebsd` (`ktr-os.c`) -/

/-- `static fusion_atomic_t eventnum = {0}` -/
def eventnum : BitVec 32 :=
  0

/-- `(u_long) fusion_atomic_incr(&eventnum)`, of the calls in the order of their effects. -/
def eventNumbers : List (Obs τ AtomicCall (BitVec 32) AtomicAnswer) → List (BitVec 64)
  | [] => []
  | .lin _ .incr _ _ (some r) :: os => asUint64 r :: eventNumbers os
  | _ :: os => eventNumbers os

/-- The numbers of `n` events after the counter has reached `p`. -/
def numbersFrom (p : BitVec 32) (n : ℕ) : List (BitVec 64) :=
  (List.range n).map fun i ↦ asUint64 (p + BitVec.ofNat 32 (i + 1))

theorem numbersFrom_succ (p : BitVec 32) (n : ℕ) :
    numbersFrom p (n + 1) = asUint64 (p + 1) :: numbersFrom (p + 1) n := by
  unfold numbersFrom
  rw [List.range_succ_eq_map, List.map_cons, List.map_map]
  congr 1
  apply List.map_congr_left
  intro i _
  have hnext : BitVec.ofNat 32 (i + 1 + 1) = 1 + BitVec.ofNat 32 (i + 1) := by
    rw [Nat.add_comm (i + 1) 1, BitVec.ofNat_add]
    rfl
  show asUint64 (p + BitVec.ofNat 32 (i + 1 + 1)) = asUint64 (p + 1 + BitVec.ofNat 32 (i + 1))
  rw [hnext, add_assoc]

omit [DecidableEq τ] in
theorem eventNumbers_eq {os : List (Obs τ AtomicCall (BitVec 32) AtomicAnswer)} {p q : BitVec 32}
    (h : Replays AtomicCall.sequential p os q)
    (hcalls : ∀ t c x a r, .lin t c x a r ∈ os → c = .incr) :
    ∃ n, eventNumbers os = numbersFrom p n := by
  induction os generalizing p with
  | nil => exact ⟨0, rfl⟩
  | cons o os ih =>
      have hrest : ∀ t c x a r, .lin t c x a r ∈ os → c = .incr :=
        fun t c x a r hmem ↦ hcalls t c x a r (List.mem_cons_of_mem _ hmem)
      cases o with
      | inv t c => exact ih h hrest
      | ret t c r => exact ih h hrest
      | lin t c x a r =>
          obtain ⟨-, hallows, htail⟩ := h
          have hincr := hcalls t c x a r List.mem_cons_self
          subst hincr
          simp only [AtomicCall.sequential, AtomicCall.effect, Outcome.Allows, reduceCtorEq,
            false_and, false_or, Outcome.update.injEq] at hallows
          obtain ⟨ha, hr⟩ := hallows
          subst ha hr
          obtain ⟨n, hn⟩ := ih htail hrest
          refine ⟨n + 1, ?_⟩
          rw [numbersFrom_succ, ← hn]
          rfl

theorem asUint64_injective : Function.Injective asUint64 := by
  intro x y h
  have htrunc := congrArg truncInt32 h
  rw [truncInt32_asUint64, truncInt32_asUint64] at htrunc
  exact htrunc

theorem numbersFrom_nodup (p : BitVec 32) {n : ℕ} (hn : n ≤ 2 ^ 32) : (numbersFrom p n).Nodup := by
  refine List.Nodup.map_on ?_ List.nodup_range
  intro i hi j hj h
  rw [List.mem_range] at hi hj
  have hsum := add_left_cancel (asUint64_injective h)
  have hnat := congrArg BitVec.toNat hsum
  simp only [BitVec.toNat_ofNat] at hnat
  omega

/-- Threads that log take their events' numbers one after the other from 1 on, so that two events
have the same number only when there are more of them than an `int` can count. -/
theorem event_numbers_distinct
    (hr : Transition.run (step b.method) (initial eventnum) es = some s)
    (hcalls : ∀ t c, .invoke t c ∈ es → c = .incr) :
    ∃ n, eventNumbers s.trace = numbersFrom eventnum n ∧
      (n ≤ 2 ^ 32 → (eventNumbers s.trace).Nodup) := by
  have hreplays := (inv_of_run hr).replays
  rw [sequential_method] at hreplays
  have hincr : ∀ t c x a r, .lin t c x a r ∈ s.trace → c = .incr := fun t c x a r hmem ↦
    hcalls t c (effect_of_run hr hmem)
  obtain ⟨n, hn⟩ := eventNumbers_eq hreplays hincr
  refine ⟨n, hn, ?_⟩
  intro hle
  rw [hn]
  exact numbersFrom_nodup eventnum hle

/-- Three events of two threads. -/
def logged : List (Event (Fin 2) AtomicCall) :=
  [.invoke 0 .incr, .invoke 1 .incr, .next 1, .next 0, .next 1, .invoke 1 .incr, .next 1]

theorem event_numbers_distinct_logged : ∃ s : AtomicState (Fin 2),
    Transition.run (step AtomicBuild.hpc.method) (initial eventnum) logged = some s ∧
      eventNumbers s.trace = [1, 2, 3] ∧ ∃ n, eventNumbers s.trace = numbersFrom eventnum n ∧
        (n ≤ 2 ^ 32 → (eventNumbers s.trace).Nodup) :=
  ⟨_, rfl, rfl, event_numbers_distinct .hpc (show Transition.run _ _ logged = _ from rfl) (by
    intro t c hmem
    simp only [logged, List.mem_cons, Event.invoke.injEq, reduceCtorEq, List.not_mem_nil,
      or_false, false_or] at hmem
    rcases hmem with ⟨-, rfl⟩ | ⟨-, rfl⟩ | ⟨-, rfl⟩ <;> rfl)⟩

end Threads

end IomemoryVsl.Port
