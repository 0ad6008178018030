import IomemoryVsl.Lib.Monitor
import IomemoryVsl.Lib.Run
import Mathlib.Algebra.Group.Basic

/-!
# Calls on one shared cell

Threads call methods of a cell of memory.  A method is one atomic instruction, or a loop that loads
the cell and swaps in what it computed from the loaded value, provided that the cell still holds
it.  Between the steps of one thread any other thread may run.

Two things hold in every interleaving.  Calls are linearizable: each takes effect once, between its
invocation and its return, and the effects in their order are a sequential run of the methods.  And
a loop goes round again only on behalf of another call: the rounds that a thread loses between two
moments are never more than the effects of the other threads in between.
-/

namespace SharedCell

open Monitor (Obs Status Follows Replays Outcome)

variable {τ γ σ κ ρ : Type*}

/-- A loop around a compare-and-swap: `κ` is what a register holds of a cell, and the swap tells
what it found. -/
structure Retry (σ κ ρ : Type*) where
  load : σ → κ
  /-- what the swap finds in the cell and what it leaves there, when it expects a value -/
  swap : κ → σ → κ × σ
  answer : κ → ρ
  swap_finds : ∀ old v, (swap old v).1 = load v
  swap_keeps : ∀ old v, load v ≠ old → (swap old v).2 = v

inductive Method (σ κ ρ : Type*) where
  | once (f : σ → σ × ρ)
  | retry (l : Retry σ κ ρ)

/-- The method without interference: what it leaves in the cell, and its answer. -/
def Method.effect : Method σ κ ρ → σ → σ × ρ
  | .once f, v => f v
  | .retry l, v => ((l.swap (l.load v) v).2, l.answer (l.load v))

inductive Pc (γ κ ρ : Type*) where
  | idle
  | ready (c : γ)
  | loaded (c : γ) (old : κ)
  | done (c : γ) (r : ρ)

structure State (τ γ σ κ ρ : Type*) where
  value : σ
  pcs : τ → Pc γ κ ρ
  trace : List (Obs τ γ σ ρ)
  /-- the rounds of its loops that each thread has lost -/
  lost : τ → ℕ

inductive Event (τ γ : Type*) where
  | invoke (t : τ) (c : γ)
  /-- the thread takes its next step -/
  | next (t : τ)

def initial (v : σ) : State τ γ σ κ ρ :=
  ⟨v, fun _ ↦ .idle, [], fun _ ↦ 0⟩

section Step

variable [DecidableEq τ]

/-- The thread `t` goes on to `pc`, observed as `os`. -/
def State.goto (s : State τ γ σ κ ρ) (t : τ) (pc : Pc γ κ ρ) (os : List (Obs τ γ σ ρ)) :
    State τ γ σ κ ρ :=
  { s with pcs := Function.update s.pcs t pc, trace := s.trace ++ os }

/-- The call `c` of the thread `t` takes effect. -/
def State.commit (s : State τ γ σ κ ρ) (t : τ) (c : γ) (v : σ) (r : ρ) : State τ γ σ κ ρ :=
  { s.goto t (.done c r) [.lin t c s.value v r] with value := v }

/-- The thread `t` goes round its loop again. -/
def State.retry (s : State τ γ σ κ ρ) (t : τ) (c : γ) (v : σ) : State τ γ σ κ ρ :=
  { s.goto t (.ready c) [] with value := v, lost := Function.update s.lost t (s.lost t + 1) }

variable [DecidableEq κ] (method : γ → Method σ κ ρ)

/-- The step of a thread inside the call `c`, from its start or from the load of `old`. -/
def State.advance (s : State τ γ σ κ ρ) (t : τ) (c : γ) : Option κ → Option (State τ γ σ κ ρ)
  | none =>
      match method c with
      | .once f => some (s.commit t c (f s.value).1 (f s.value).2)
      | .retry l => some (s.goto t (.loaded c (l.load s.value)) [])
  | some old =>
      match method c with
      | .once _ => none
      | .retry l =>
          if (l.swap old s.value).1 = old then
            some (s.commit t c (l.swap old s.value).2 (l.answer old))
          else some (s.retry t c (l.swap old s.value).2)

def step (s : State τ γ σ κ ρ) : Event τ γ → Option (State τ γ σ κ ρ)
  | .invoke t c =>
      match s.pcs t with
      | .idle => some (s.goto t (.ready c) [.inv t c])
      | _ => none
  | .next t =>
      match s.pcs t with
      | .idle => none
      | .ready c => s.advance method t c none
      | .loaded c old => s.advance method t c (some old)
      | .done c r => some (s.goto t .idle [.ret t c r])

end Step

/-! ## What a step can do -/

def Pc.status : Pc γ κ ρ → Status γ ρ
  | .idle => .idle
  | .ready c | .loaded c _ => .called c
  | .done c r => .linearized c r

/-- The sequential meaning of a call. -/
def sequential (method : γ → Method σ κ ρ) (c : γ) (v : σ) : Outcome σ ρ :=
  .update ((method c).effect v).1 ((method c).effect v).2

section Moves

variable [DecidableEq τ] [DecidableEq κ] {method : γ → Method σ κ ρ} {s s' : State τ γ σ κ ρ}

inductive Moves (method : γ → Method σ κ ρ) (s : State τ γ σ κ ρ) :
    Event τ γ → State τ γ σ κ ρ → Prop where
  | invoke {t c} (hpc : s.pcs t = .idle) :
      Moves method s (.invoke t c) (s.goto t (.ready c) [.inv t c])
  | load {t c l} (hpc : s.pcs t = .ready c) (hm : method c = .retry l) :
      Moves method s (.next t) (s.goto t (.loaded c (l.load s.value)) [])
  /-- whether by an instruction or by a swap, a call takes effect on the value that is there -/
  | commit {t c} (hpc : (s.pcs t).status = .called c) :
      Moves method s (.next t)
        (s.commit t c ((method c).effect s.value).1 ((method c).effect s.value).2)
  | retry {t c l old} (hpc : s.pcs t = .loaded c old) (hm : method c = .retry l)
      (hne : l.load s.value ≠ old) : Moves method s (.next t) (s.retry t c s.value)
  | ret {t c r} (hpc : s.pcs t = .done c r) :
      Moves method s (.next t) (s.goto t .idle [.ret t c r])

theorem step_moves {e : Event τ γ} (h : step method s e = some s') : Moves method s e s' := by
  cases e with
  | invoke t c =>
      simp only [step] at h
      split at h
      · rename_i hpc
        cases h
        exact .invoke hpc
      · cases h
  | next t =>
      simp only [step] at h
      split at h
      · cases h
      · rename_i c hpc
        have hstatus : (s.pcs t).status = .called c := by rw [hpc]; rfl
        have hcommit : Moves method s (.next t) _ := .commit hstatus
        simp only [State.advance] at h
        cases hm : method c with
        | once f =>
            rw [hm] at h hcommit
            cases h
            exact hcommit
        | retry l =>
            rw [hm] at h
            cases h
            exact .load hpc hm
      · rename_i c old hpc
        have hstatus : (s.pcs t).status = .called c := by rw [hpc]; rfl
        have hcommit : Moves method s (.next t) _ := .commit hstatus
        simp only [State.advance] at h
        cases hm : method c with
        | once f =>
            rw [hm] at h
            cases h
        | retry l =>
            rw [hm] at h hcommit
            have hfound := l.swap_finds old s.value
            by_cases heq : (l.swap old s.value).1 = old
            · -- the cell holds what was loaded, so the swap is the whole call
              have hold : l.load s.value = old := hfound.symm.trans heq
              simp only [if_pos heq] at h
              cases h
              simp only [Method.effect, hold] at hcommit
              exact hcommit
            · have hne : l.load s.value ≠ old := by
                rw [← hfound]
                exact heq
              simp only [if_neg heq, l.swap_keeps old s.value hne] at h
              cases h
              exact .retry hpc hm hne
      · rename_i c r hpc
        cases h
        exact .ret hpc

end Moves

/-! ## The invariant -/

section Invariant

structure Inv (method : γ → Method σ κ ρ) (v₀ : σ) (s : State τ γ σ κ ρ) : Prop where
  follows : ∀ t, Follows t .idle s.trace (s.pcs t).status
  replays : Replays (sequential method) v₀ s.trace s.value
  loops : ∀ t c old, s.pcs t = .loaded c old → ∃ l, method c = .retry l

variable {method : γ → Method σ κ ρ} {v₀ : σ} {s s' : State τ γ σ κ ρ}

theorem initial_inv (v : σ) : Inv method v (initial v : State τ γ σ κ ρ) where
  follows t := .nil _
  replays := rfl
  loops t c old h := by cases h

variable [DecidableEq τ]

theorem goto_pcs_self (s : State τ γ σ κ ρ) (t : τ) (pc : Pc γ κ ρ) (os : List (Obs τ γ σ ρ)) :
    (s.goto t pc os).pcs t = pc :=
  Function.update_self ..

theorem goto_pcs_of_ne (s : State τ γ σ κ ρ) {t u : τ} (hu : u ≠ t) (pc : Pc γ κ ρ)
    (os : List (Obs τ γ σ ρ)) : (s.goto t pc os).pcs u = s.pcs u :=
  Function.update_of_ne hu ..

theorem commit_pcs_self (s : State τ γ σ κ ρ) (t : τ) (c : γ) (v : σ) (r : ρ) :
    (s.commit t c v r).pcs t = .done c r :=
  goto_pcs_self s t (.done c r) [.lin t c s.value v r]

theorem commit_pcs_of_ne (s : State τ γ σ κ ρ) {t u : τ} (hu : u ≠ t) (c : γ) (v : σ) (r : ρ) :
    (s.commit t c v r).pcs u = s.pcs u :=
  goto_pcs_of_ne s hu (.done c r) [.lin t c s.value v r]

theorem Inv.follows_goto (hi : Inv method v₀ s) {t : τ} {pc : Pc γ κ ρ} {os : List (Obs τ γ σ ρ)}
    (hos : ∀ o ∈ os, o.By t) (ht : Follows t (s.pcs t).status os pc.status) (u : τ) :
    Follows u .idle (s.goto t pc os).trace ((s.goto t pc os).pcs u).status := by
  show Follows u .idle (s.trace ++ os) _
  by_cases hu : u = t
  · subst hu
    rw [goto_pcs_self]
    exact (hi.follows u).append ht
  · rw [goto_pcs_of_ne s hu]
    exact (hi.follows u).append (Monitor.follows_of_others (Ne.symm hu) hos)

/-- A thread goes on without touching the cell. -/
theorem Inv.move (hi : Inv method v₀ s) {t : τ} {pc : Pc γ κ ρ} {os : List (Obs τ γ σ ρ)}
    (hos : ∀ o ∈ os, o.By t) (ht : Follows t (s.pcs t).status os pc.status)
    (hrep : Replays (sequential method) s.value os s.value)
    (hloop : ∀ c old, pc = .loaded c old → ∃ l, method c = .retry l) :
    Inv method v₀ (s.goto t pc os) where
  follows := hi.follows_goto hos ht
  replays := hi.replays.append hrep
  loops u c old h := by
    by_cases hu : u = t
    · subst hu
      rw [goto_pcs_self] at h
      exact hloop c old h
    · rw [goto_pcs_of_ne s hu] at h
      exact hi.loops u c old h

/-- A call takes effect. -/
theorem Inv.commit (hi : Inv method v₀ s) {t : τ} {c : γ} (hpc : (s.pcs t).status = .called c) :
    Inv method v₀
      (s.commit t c ((method c).effect s.value).1 ((method c).effect s.value).2) where
  follows := by
    refine hi.follows_goto ?_ ?_
    · intro o ho
      rw [List.mem_singleton.mp ho]
      rfl
    · rw [hpc]
      exact .lin (.nil _)
  replays := hi.replays.append ⟨rfl, Or.inr (Or.inr rfl), rfl⟩
  loops u d old h := by
    by_cases hu : u = t
    · subst hu
      have hdone := goto_pcs_self s u (.done c ((method c).effect s.value).2)
        [.lin u c s.value ((method c).effect s.value).1 ((method c).effect s.value).2]
      rw [show (s.commit u c _ _).pcs u = _ from hdone] at h
      cases h
    · rw [commit_pcs_of_ne s hu] at h
      exact hi.loops u d old h

theorem Inv.retry (hi : Inv method v₀ s) {t : τ} {c : γ} {old : κ} (hpc : s.pcs t = .loaded c old) :
    Inv method v₀ (s.retry t c s.value) := by
  have hmoved : Inv method v₀ (s.goto t (.ready c) []) := by
    refine hi.move ?_ ?_ rfl ?_
    · intro o ho
      cases ho
    · rw [hpc]
      exact .nil _
    · intro d old' h
      cases h
  exact ⟨hmoved.follows, hmoved.replays, hmoved.loops⟩

/-- Every step of every thread keeps the invariant. -/
theorem inv_step [DecidableEq κ] (s : State τ γ σ κ ρ) (e : Event τ γ) (s' : State τ γ σ κ ρ)
    (hi : Inv method v₀ s) (h : step method s e = some s') : Inv method v₀ s' := by
  cases step_moves h with
  | invoke hpc =>
      refine hi.move ?_ ?_ rfl ?_
      · intro o ho
        rw [List.mem_singleton.mp ho]
        rfl
      · rw [hpc]
        exact .inv (.nil _)
      · intro d old h
        cases h
  | @load t c l hpc hm =>
      refine hi.move ?_ ?_ rfl ?_
      · intro o ho
        cases ho
      · rw [hpc]
        exact .nil _
      · intro d old h
        cases h
        exact ⟨l, hm⟩
  | commit hpc => exact hi.commit hpc
  | retry hpc hm hne => exact hi.retry hpc
  | ret hpc =>
      refine hi.move ?_ ?_ rfl ?_
      · intro o ho
        rw [List.mem_singleton.mp ho]
        rfl
      · rw [hpc]
        exact .ret (.nil _)
      · intro d old h
        cases h

/-- The invariant of every run. -/
theorem inv_of_run [DecidableEq κ] {es : List (Event τ γ)}
    (hr : Transition.run (step method) (initial v₀) es = some s) : Inv method v₀ s :=
  Transition.run_invariant inv_step (initial_inv v₀) hr

/-- Only an invocation is observed as one. -/
theorem invoked_of_step [DecidableEq κ] {e : Event τ γ} (h : step method s e = some s') {t : τ}
    {c : γ} (hmem : .inv t c ∈ s'.trace) : .inv t c ∈ s.trace ∨ e = .invoke t c := by
  cases step_moves h with
  | invoke hpc => simpa [State.goto, eq_comm] using hmem
  | load hpc hm => exact Or.inl (by simpa [State.goto] using hmem)
  | commit hpc => exact Or.inl (by simpa [State.commit, State.goto] using hmem)
  | retry hpc hm hne => exact Or.inl (by simpa [State.retry, State.goto] using hmem)
  | ret hpc => exact Or.inl (by simpa [State.goto] using hmem)

theorem invoked_of_run [DecidableEq κ] {es : List (Event τ γ)}
    (hr : Transition.run (step method) s es = some s') {t : τ} {c : γ}
    (hmem : .inv t c ∈ s'.trace) : .inv t c ∈ s.trace ∨ .invoke t c ∈ es := by
  induction es generalizing s with
  | nil =>
      cases hr
      exact Or.inl hmem
  | cons e es ih =>
      obtain ⟨u, hu, hrest⟩ := Transition.run_cons_eq_some.mp hr
      rcases ih hrest with hold | hnew
      · refine (invoked_of_step hu hold).imp_right ?_
        intro he
        rw [he]
        exact List.mem_cons_self
      · exact Or.inr (List.mem_cons_of_mem e hnew)

/-- The call of an effect was invoked in the run. -/
theorem effect_of_run [DecidableEq κ] {es : List (Event τ γ)}
    (hr : Transition.run (step method) (initial v₀) es = some s) {t : τ} {c : γ} {b a : σ} {r : ρ}
    (hmem : .lin t c b a r ∈ s.trace) : .invoke t c ∈ es := by
  rcases ((inv_of_run hr).follows t).invoked hmem with hidle | hinv
  · cases hidle
  · rcases invoked_of_run hr hinv with hold | hnew
    · cases hold
    · exact hnew

end Invariant

/-! ## Lost rounds -/

section Lost

/-- The thread works with a loaded value that the cell does not hold any more. -/
def Pc.Stale (method : γ → Method σ κ ρ) (v : σ) : Pc γ κ ρ → Prop
  | .loaded c old => ∃ l, method c = .retry l ∧ l.load v ≠ old
  | _ => False

variable [DecidableEq τ]

def otherEffect (t : τ) : Obs τ γ σ ρ → Bool
  | .lin u _ _ _ _ => u ≠ t
  | _ => false

/-- How many effects of threads other than `t` a trace has. -/
def effectsBut (t : τ) (os : List (Obs τ γ σ ρ)) : ℕ :=
  os.countP (otherEffect t)

theorem effectsBut_append (t : τ) (os ps : List (Obs τ γ σ ρ)) :
    effectsBut t (os ++ ps) = effectsBut t os + effectsBut t ps :=
  List.countP_append

theorem effectsBut_le_append (t : τ) (os ps : List (Obs τ γ σ ρ)) :
    effectsBut t os ≤ effectsBut t (os ++ ps) := by
  rw [effectsBut_append]
  omega

theorem effectsBut_lin {t u : τ} (hu : u ≠ t) (c : γ) (b a : σ) (r : ρ) :
    effectsBut u [Obs.lin t c b a r] = 1 := by
  have hother : otherEffect u (Obs.lin t c b a r) = true := decide_eq_true hu.symm
  show List.countP (otherEffect u) [Obs.lin t c b a r] = 1
  rw [List.countP_cons_of_pos hother]
  rfl

/-- The rounds that the thread has lost are paid for by the effects of the others, both counted from
where it had lost `n` rounds and there had been `m` effects; a loaded value that is stale has been
paid for before its round is lost. -/
structure Paid (method : γ → Method σ κ ρ) (t : τ) (m n : ℕ) (s : State τ γ σ κ ρ) : Prop where
  lost : s.lost t + m ≤ n + effectsBut t s.trace
  stale : (s.pcs t).Stale method s.value → s.lost t + m < n + effectsBut t s.trace

variable {method : γ → Method σ κ ρ} {v₀ : σ} {s s' : State τ γ σ κ ρ} {t : τ} {m n : ℕ}

/-- The counting starts with a thread that has no stale value. -/
theorem paid_first (hfresh : ¬ (s.pcs t).Stale method s.value) :
    Paid method t (effectsBut t s.trace) (s.lost t) s where
  lost := Nat.le_refl _
  stale h := absurd h hfresh

/-- A thread goes on without touching the cell. -/
theorem Paid.move (hp : Paid method t m n s) {u : τ} {pc : Pc γ κ ρ} {os : List (Obs τ γ σ ρ)}
    (hfresh : ¬ pc.Stale method s.value) : Paid method t m n (s.goto u pc os) where
  lost := hp.lost.trans (Nat.add_le_add_left (effectsBut_le_append t s.trace os) n)
  stale h := by
    have hmono := Nat.add_le_add_left (effectsBut_le_append t s.trace os) n
    by_cases hu : t = u
    · subst hu
      rw [goto_pcs_self] at h
      exact absurd h hfresh
    · rw [goto_pcs_of_ne s hu] at h
      exact (hp.stale h).trans_le hmono

/-- A call takes effect; every other thread may have lost its round by it. -/
theorem Paid.commit (hp : Paid method t m n s) (u : τ) (c : γ) (v : σ) (r : ρ) :
    Paid method t m n (s.commit u c v r) where
  lost := hp.lost.trans (Nat.add_le_add_left (effectsBut_le_append t s.trace _) n)
  stale h := by
    by_cases hu : t = u
    · subst hu
      rw [commit_pcs_self] at h
      exact h.elim
    · have hone := effectsBut_lin hu c s.value v r
      have hlost := hp.lost
      show s.lost t + m < n + effectsBut t (s.trace ++ [_])
      rw [effectsBut_append, hone]
      omega

/-- A lost round is paid for by the effect that made the loaded value stale. -/
theorem Paid.retry (hp : Paid method t m n s) {u : τ} {c : γ} {l : Retry σ κ ρ} {old : κ}
    (hpc : s.pcs u = .loaded c old) (hm : method c = .retry l) (hne : l.load s.value ≠ old) :
    Paid method t m n (s.retry u c s.value) := by
  have hmoved : Paid method t m n (s.goto u (.ready c) []) := hp.move id
  by_cases hu : t = u
  · subst hu
    have hstale : (s.pcs t).Stale method s.value := by
      rw [hpc]
      exact ⟨l, hm, hne⟩
    have hlt := hp.stale hstale
    constructor
    · show Function.update s.lost t (s.lost t + 1) t + m ≤ n + effectsBut t (s.trace ++ [])
      rw [Function.update_self, List.append_nil]
      omega
    · intro h
      rw [show (s.retry t c s.value).pcs t = _ from goto_pcs_self s t (.ready c) []] at h
      exact h.elim
  · have hsame : (s.retry u c s.value).lost t = s.lost t := Function.update_of_ne hu ..
    refine ⟨?_, ?_⟩
    · rw [hsame]
      exact hmoved.lost
    · rw [hsame]
      exact hmoved.stale

theorem paid_step [DecidableEq κ] (s : State τ γ σ κ ρ) (e : Event τ γ) (s' : State τ γ σ κ ρ)
    (hp : Paid method t m n s) (h : step method s e = some s') : Paid method t m n s' := by
  cases step_moves h with
  | invoke hpc => exact hp.move id
  | @load u c l hpc hm =>
      refine hp.move ?_
      -- what has just been loaded is what the cell holds
      rintro ⟨l', hl', hne⟩
      rw [hm] at hl'
      cases hl'
      exact hne rfl
  | commit hpc => exact hp.commit ..
  | retry hpc hm hne => exact hp.retry hpc hm hne
  | ret hpc => exact hp.move id

theorem trace_of_step [DecidableEq κ] {e : Event τ γ} (h : step method s e = some s') :
    ∃ os, s'.trace = s.trace ++ os := by
  cases step_moves h <;> exact ⟨_, rfl⟩

/-- A run adds to the trace. -/
theorem trace_of_run [DecidableEq κ] {es : List (Event τ γ)}
    (hr : Transition.run (step method) s es = some s') : ∃ os, s'.trace = s.trace ++ os := by
  refine Transition.run_invariant (I := fun u ↦ ∃ os, u.trace = s.trace ++ os) ?_
    ⟨[], (List.append_nil _).symm⟩ hr
  rintro u e w ⟨os, hos⟩ hstep
  obtain ⟨ps, hps⟩ := trace_of_step hstep
  exact ⟨os ++ ps, by rw [hps, hos, List.append_assoc]⟩

/-- From a moment when it has no stale value, a thread loses no more rounds than calls of others
take effect from then on. -/
theorem lost_of_run [DecidableEq κ] {es : List (Event τ γ)}
    (hfresh : ¬ (s.pcs t).Stale method s.value)
    (hr : Transition.run (step method) s es = some s') :
    ∃ os, s'.trace = s.trace ++ os ∧ s'.lost t ≤ s.lost t + effectsBut t os := by
  obtain ⟨os, hos⟩ := trace_of_run hr
  have hlost := (Transition.run_invariant paid_step (paid_first hfresh) hr).lost
  rw [hos, effectsBut_append] at hlost
  exact ⟨os, hos, by omega⟩

end Lost

/-! ## A thread that runs alone -/

section Alone

variable [DecidableEq τ] [DecidableEq κ] {method : γ → Method σ κ ρ} {v₀ : σ}
  {s s' : State τ γ σ κ ρ} {t : τ}

/-- Within `n` steps of its own, and no others, the thread has returned. -/
def Finishes (method : γ → Method σ κ ρ) (t : τ) (n : ℕ) (s : State τ γ σ κ ρ) : Prop :=
  ∃ k ≤ n, ∃ s', Transition.run (step method) s (List.replicate k (.next t)) = some s' ∧
    s'.pcs t = .idle

theorem finishes_idle (n : ℕ) (h : s.pcs t = .idle) : Finishes method t n s :=
  ⟨0, Nat.zero_le n, s, rfl, h⟩

theorem finishes_step {n : ℕ} (h : step method s (.next t) = some s')
    (hrest : Finishes method t n s') : Finishes method t (n + 1) s := by
  obtain ⟨k, hk, s'', hrun, hidle⟩ := hrest
  refine ⟨k + 1, Nat.succ_le_succ hk, s'', ?_, hidle⟩
  rw [List.replicate_succ]
  exact Transition.run_cons_eq_some.mpr ⟨s', h, hrun⟩

theorem finishes_done {c : γ} {r : ρ} (h : s.pcs t = .done c r) : Finishes method t 1 s := by
  refine finishes_step ?_ (finishes_idle 0 (goto_pcs_self s t .idle [.ret t c r]))
  simp only [step, h]

theorem finishes_commit {c : γ} {v : σ} {r : ρ}
    (h : step method s (.next t) = some (s.commit t c v r)) : Finishes method t 2 s :=
  finishes_step h (finishes_done (commit_pcs_self s t c v r))

theorem finishes_fresh {c : γ} {l : Retry σ κ ρ} (h : s.pcs t = .loaded c (l.load s.value))
    (hm : method c = .retry l) : Finishes method t 2 s := by
  have hswap : step method s (.next t) =
      some (s.commit t c (l.swap (l.load s.value) s.value).2 (l.answer (l.load s.value))) := by
    simp only [step, h, State.advance, hm]
    rw [if_pos (l.swap_finds (l.load s.value) s.value)]
  exact finishes_commit hswap

theorem finishes_ready {c : γ} (h : s.pcs t = .ready c) : Finishes method t 3 s := by
  cases hm : method c with
  | once f =>
      have hinstr : step method s (.next t) =
          some (s.commit t c (f s.value).1 (f s.value).2) := by
        simp only [step, h, State.advance, hm]
      obtain ⟨k, hk, hrest⟩ := finishes_commit hinstr
      exact ⟨k, by omega, hrest⟩
  | retry l =>
      have hload : step method s (.next t) = some (s.goto t (.loaded c (l.load s.value)) []) := by
        simp only [step, h, State.advance, hm]
      exact finishes_step hload (finishes_fresh (goto_pcs_self s t _ []) hm)

/-- A loop that nobody disturbs, from its call to its return. -/
theorem run_alone {c : γ} {l : Retry σ κ ρ} (hpc : s.pcs t = .idle) (hm : method c = .retry l) :
    ∃ s', Transition.run (step method) s [.invoke t c, .next t, .next t, .next t] = some s' ∧
      s'.pcs = s.pcs ∧
      s'.trace = s.trace ++ [.inv t c] ++ [.lin t c s.value ((method c).effect s.value).1
        ((method c).effect s.value).2] ++ [.ret t c ((method c).effect s.value).2] := by
  set s₁ := s.goto t (.ready c) [.inv t c] with hs₁
  set s₂ := s₁.goto t (.loaded c (l.load s.value)) [] with hs₂
  set s₃ := s₂.commit t c (l.swap (l.load s.value) s.value).2 (l.answer (l.load s.value)) with hs₃
  have h₁ : step method s (.invoke t c) = some s₁ := by simp only [step, hpc, hs₁]
  have h₂ : step method s₁ (.next t) = some s₂ := by
    have hready : s₁.pcs t = .ready c := goto_pcs_self ..
    simp only [step, hready, State.advance, hm, hs₂]
    rfl
  have h₃ : step method s₂ (.next t) = some s₃ := by
    have hloaded : s₂.pcs t = .loaded c (l.load s.value) := goto_pcs_self ..
    simp only [step, hloaded, State.advance, hm]
    exact if_pos (l.swap_finds (l.load s.value) s.value)
  have hdone : s₃.pcs t = .done c (l.answer (l.load s.value)) := commit_pcs_self ..
  refine ⟨s₃.goto t .idle [.ret t c (l.answer (l.load s.value))], ?_, ?_, ?_⟩
  · rw [Transition.run_cons, h₁, Option.bind_some, Transition.run_cons, h₂, Option.bind_some,
      Transition.run_cons, h₃, Option.bind_some, Transition.run_cons]
    simp only [step, hdone]
    rfl
  · funext u
    by_cases hu : u = t
    · subst hu
      rw [goto_pcs_self, hpc]
    · rw [goto_pcs_of_ne s₃ hu, hs₃, commit_pcs_of_ne s₂ hu, hs₂, goto_pcs_of_ne s₁ hu, hs₁,
        goto_pcs_of_ne s hu]
  · rw [hm]
    show s.trace ++ [.inv t c] ++ [] ++ [_] ++ [_] = _
    rw [List.append_nil]
    rfl

/-- A thread that is left alone returns after at most four steps, wherever it is. -/
theorem Inv.finishes (hi : Inv method v₀ s) (t : τ) : Finishes method t 4 s := by
  cases hpc : s.pcs t with
  | idle => exact finishes_idle 4 hpc
  | ready c =>
      obtain ⟨k, hk, hrest⟩ : Finishes method t 3 s := finishes_ready hpc
      exact ⟨k, by omega, hrest⟩
  | done c r =>
      obtain ⟨k, hk, hrest⟩ : Finishes method t 1 s := finishes_done hpc
      exact ⟨k, by omega, hrest⟩
  | loaded c old =>
      obtain ⟨l, hm⟩ := hi.loops t c old hpc
      have hfound := l.swap_finds old s.value
      by_cases hfresh : l.load s.value = old
      · subst hfresh
        obtain ⟨k, hk, hrest⟩ := finishes_fresh hpc hm
        exact ⟨k, by omega, hrest⟩
      · -- at most one round is lost, since nobody else moves
        have hne : ¬ (l.swap old s.value).1 = old := by
          rw [hfound]
          exact hfresh
        have hretry : step method s (.next t) = some (s.retry t c (l.swap old s.value).2) := by
          simp only [step, hpc, State.advance, hm]
          rw [if_neg hne]
        exact finishes_step hretry (finishes_ready (goto_pcs_self s t (.ready c) []))

end Alone

/-! ## Calls that add -/

section Adding

variable {method : γ → Method σ κ ρ} {v₀ : σ} {s : State τ γ σ κ ρ}

/-- What a trace adds to the cell when the effect of a call `c` is to add `delta c`. -/
def total [AddMonoid σ] (delta : γ → σ) : List (Obs τ γ σ ρ) → σ
  | [] => 0
  | .lin _ c _ _ _ :: os => delta c + total delta os
  | _ :: os => total delta os

theorem replays_total [AddMonoid σ] {delta : γ → σ} {v w : σ} {os : List (Obs τ γ σ ρ)}
    (h : Replays (sequential method) v os w)
    (hadd : ∀ t c b a r, .lin t c b a r ∈ os → ((method c).effect b).1 = b + delta c) :
    w = v + total delta os := by
  induction os generalizing v with
  | nil =>
      have hvw : v = w := h
      rw [hvw]
      exact (add_zero w).symm
  | cons o os ih =>
      have hrest : ∀ t c b a r, .lin t c b a r ∈ os → ((method c).effect b).1 = b + delta c :=
        fun t c b a r hmem ↦ hadd t c b a r (List.mem_cons_of_mem _ hmem)
      cases o with
      | inv t c => exact ih h hrest
      | ret t c r => exact ih h hrest
      | lin t c b a r =>
          obtain ⟨hb, hallows, htail⟩ := h
          have hhead := hadd t c b a r List.mem_cons_self
          have ha : a = v + delta c := by
            rw [← hb, ← hhead, hb]
            simp only [sequential, Outcome.Allows, reduceCtorEq, false_and, false_or,
              Outcome.update.injEq] at hallows
            exact hallows.1.symm
          calc w = a + total delta os := ih htail hrest
            _ = v + delta c + total delta os := by rw [ha]
            _ = v + (delta c + total delta os) := add_assoc ..

/-- In a run of calls that add, every call finds the sum of the effects before it. -/
theorem counted_of_run [DecidableEq τ] [DecidableEq κ] [AddMonoid σ] {es : List (Event τ γ)}
    (hr : Transition.run (step method) (initial v₀) es = some s) {delta : γ → σ}
    (hadd : ∀ t c, .invoke t c ∈ es → ∀ v, ((method c).effect v).1 = v + delta c) :
    s.value = v₀ + total delta s.trace ∧
      ∀ t c b a r os ps, s.trace = os ++ .lin t c b a r :: ps →
        b = v₀ + total delta os ∧ r = ((method c).effect b).2 := by
  have hi := inv_of_run hr
  have heffects : ∀ t c b a r, .lin t c b a r ∈ s.trace →
      ((method c).effect b).1 = b + delta c := fun t c b a r hmem ↦
    hadd t c (effect_of_run hr hmem) b
  refine ⟨replays_total hi.replays heffects, ?_⟩
  intro t c b a r os ps htrace
  have hrep := hi.replays
  rw [htrace] at hrep
  obtain ⟨u, hos, hb, hallows, -⟩ := hrep.split
  rw [hb]
  constructor
  · apply replays_total hos
    intro t' c' b' a' r' hmem
    apply heffects t' c' b' a' r'
    rw [htrace]
    exact List.mem_append_left _ hmem
  · simp only [sequential, Outcome.Allows, reduceCtorEq, false_and, false_or,
      Outcome.update.injEq] at hallows
    exact hallows.2.symm

end Adding

/-! ## A flag in the cell that one thread at a time owns

Some calls take the flag, which they win by finding it clear; some drop it.  Whoever has won it
and has not dropped it since holds it.  Threads that drop the flag only while they hold it exclude
each other.
-/

section Ownership

/-- Which calls take the flag and which drop it, and what a call that has won it answers. -/
structure TryLock (γ ρ : Type*) where
  take : γ → Prop
  drop : γ → Prop
  won : ρ → Prop

/-- Whether the thread `t` holds the flag after a trace, given whether it did before. -/
def TryLock.HoldsAfter (F : TryLock γ ρ) (t : τ) : Prop → List (Obs τ γ σ ρ) → Prop
  | h, [] => h
  | h, .inv u c :: os => F.HoldsAfter t (h ∧ ¬ (u = t ∧ F.drop c)) os
  | h, .lin _ _ _ _ _ :: os => F.HoldsAfter t h os
  | h, .ret u c r :: os => F.HoldsAfter t (h ∨ u = t ∧ F.take c ∧ F.won r) os

/-- The thread has won the flag and has not gone on to drop it. -/
def TryLock.Holds (F : TryLock γ ρ) (t : τ) (os : List (Obs τ γ σ ρ)) : Prop :=
  F.HoldsAfter t False os

/-- The flag is dropped by a thread that holds it only. -/
def TryLock.Disciplined (F : TryLock γ ρ) (s : State τ γ σ κ ρ) (e : Event τ γ) : Prop :=
  ∀ t c, e = .invoke t c → F.drop c → F.Holds t s.trace

/-- The calls treat the property `set` of the cell as a flag. -/
structure Flag (method : γ → Method σ κ ρ) extends TryLock γ ρ where
  set : σ → Prop
  takes : ∀ c v, take c → set ((method c).effect v).1
  wins : ∀ c v, take c → (won ((method c).effect v).2 ↔ ¬ set v)
  others : ∀ c v, ¬ take c → ¬ drop c → set v → set ((method c).effect v).1

variable {method : γ → Method σ κ ρ} (F : Flag method)

theorem TryLock.holdsAfter_append (F : TryLock γ ρ) (t : τ) (h : Prop)
    (os ps : List (Obs τ γ σ ρ)) :
    F.HoldsAfter t h (os ++ ps) = F.HoldsAfter t (F.HoldsAfter t h os) ps := by
  induction os generalizing h with
  | nil => rfl
  | cons o os ih =>
      cases o with
      | inv u c => exact ih _
      | lin u c b a r => exact ih _
      | ret u c r => exact ih _

theorem TryLock.holds_inv (F : TryLock γ ρ) (t u : τ) (c : γ) (os : List (Obs τ γ σ ρ)) :
    F.Holds t (os ++ [.inv u c]) ↔ F.Holds t os ∧ ¬ (u = t ∧ F.drop c) := by
  unfold TryLock.Holds
  rw [F.holdsAfter_append]
  exact Iff.rfl

theorem TryLock.holds_lin (F : TryLock γ ρ) (t u : τ) (c : γ) (b a : σ) (r : ρ)
    (os : List (Obs τ γ σ ρ)) :
    F.Holds t (os ++ [.lin u c b a r]) ↔ F.Holds t os := by
  unfold TryLock.Holds
  rw [F.holdsAfter_append]
  exact Iff.rfl

theorem TryLock.holds_ret (F : TryLock γ ρ) (t u : τ) (c : γ) (r : ρ) (os : List (Obs τ γ σ ρ)) :
    F.Holds t (os ++ [.ret u c r]) ↔ F.Holds t os ∨ u = t ∧ F.take c ∧ F.won r := by
  unfold TryLock.Holds
  rw [F.holdsAfter_append]
  exact Iff.rfl

/-- The call of a thread carries the flag: it has won it and not returned, or is about to drop
it. -/
def Flag.Carries : Status γ ρ → Prop
  | .idle => False
  | .called c => F.drop c
  | .linearized c r => F.take c ∧ F.won r

/-- The thread owns the flag, whether it knows it yet or not. -/
def Flag.Owns (s : State τ γ σ κ ρ) (t : τ) : Prop :=
  F.Holds t s.trace ∨ F.Carries (s.pcs t).status

structure Flag.Inv (s : State τ γ σ κ ρ) : Prop where
  unique : ∀ t u, F.Owns s t → F.Owns s u → t = u
  isSet : ∀ t, F.Owns s t → F.set s.value
  /-- whoever drops the flag does not count as its holder any more -/
  dropping : ∀ t c, (s.pcs t).status = .called c → F.drop c → ¬ F.Holds t s.trace

theorem Flag.initial_inv (v : σ) : F.Inv (initial v : State τ γ σ κ ρ) where
  unique t u ht hu := by
    rcases ht with h | h <;> exact h.elim
  isSet t ht := by
    rcases ht with h | h <;> exact h.elim
  dropping t c h hd := by cases h

variable {s s' : State τ γ σ κ ρ}

/-- A step after which nobody owns the flag that did not before, and which does not touch it. -/
theorem Flag.Inv.of_owns (hi : F.Inv s) (howns : ∀ u, F.Owns s' u → F.Owns s u)
    (hset : F.set s.value → F.set s'.value)
    (hdrop : ∀ u c, (s'.pcs u).status = .called c → F.drop c → ¬ F.Holds u s'.trace) :
    F.Inv s' where
  unique t u ht hu := hi.unique t u (howns t ht) (howns u hu)
  isSet t ht := hset (hi.isSet t (howns t ht))
  dropping := hdrop

variable [DecidableEq τ]

theorem Flag.Inv.invoke (hi : F.Inv s) {t : τ} {c : γ} (hpc : s.pcs t = .idle)
    (hdisc : F.drop c → F.Holds t s.trace) : F.Inv (s.goto t (.ready c) [.inv t c]) := by
  have hholds : ∀ u, F.Holds u (s.goto t (.ready c) [.inv t c]).trace →
      F.Holds u s.trace ∧ ¬ (t = u ∧ F.drop c) := fun u h ↦ (F.holds_inv u t c s.trace).mp h
  refine hi.of_owns F ?_ id ?_
  · intro u hu
    by_cases hut : u = t
    · subst hut
      rcases hu with h | h
      · exact Or.inl (hholds u h).1
      · rw [goto_pcs_self] at h
        exact Or.inl (hdisc h)
    · rcases hu with h | h
      · exact Or.inl (hholds u h).1
      · rw [goto_pcs_of_ne s hut] at h
        exact Or.inr h
  · intro u d hcalled hd hh
    by_cases hut : u = t
    · subst hut
      rw [goto_pcs_self] at hcalled
      cases hcalled
      exact (hholds u hh).2 ⟨rfl, hd⟩
    · rw [goto_pcs_of_ne s hut] at hcalled
      exact hi.dropping u d hcalled hd (hholds u hh).1

/-- A thread goes on inside its call. -/
theorem Flag.Inv.move (hi : F.Inv s) {t : τ} {pc : Pc γ κ ρ}
    (hstatus : pc.status = (s.pcs t).status) : F.Inv (s.goto t pc []) := by
  have htrace : (s.goto t pc []).trace = s.trace := List.append_nil _
  have hsame : ∀ u, ((s.goto t pc []).pcs u).status = (s.pcs u).status := by
    intro u
    by_cases hut : u = t
    · subst hut
      rw [goto_pcs_self]
      exact hstatus
    · rw [goto_pcs_of_ne s hut]
  refine hi.of_owns F ?_ id ?_
  · intro u hu
    unfold Flag.Owns at hu ⊢
    rw [htrace, hsame] at hu
    exact hu
  · intro u d hcalled hd
    rw [htrace]
    rw [hsame] at hcalled
    exact hi.dropping u d hcalled hd

theorem Flag.Inv.ret (hi : F.Inv s) {t : τ} {c : γ} {r : ρ} (hpc : s.pcs t = .done c r) :
    F.Inv (s.goto t .idle [.ret t c r]) := by
  have hholds : ∀ u, F.Holds u (s.goto t .idle [.ret t c r]).trace →
      F.Holds u s.trace ∨ t = u ∧ F.take c ∧ F.won r := fun u h ↦
    (F.holds_ret u t c r s.trace).mp h
  refine hi.of_owns F ?_ id ?_
  · intro u hu
    rcases hu with h | h
    · rcases hholds u h with hold | ⟨rfl, hwon⟩
      · exact Or.inl hold
      · right
        rw [hpc]
        exact hwon
    · by_cases hut : u = t
      · subst hut
        rw [goto_pcs_self] at h
        exact h.elim
      · rw [goto_pcs_of_ne s hut] at h
        exact Or.inr h
  · intro u d hcalled hd hh
    by_cases hut : u = t
    · subst hut
      rw [goto_pcs_self] at hcalled
      cases hcalled
    · rw [goto_pcs_of_ne s hut] at hcalled
      rcases hholds u hh with hold | ⟨rfl, -⟩
      · exact hi.dropping u d hcalled hd hold
      · exact hut rfl

theorem Flag.Inv.commit (hi : F.Inv s) {t : τ} {c : γ} (hpc : (s.pcs t).status = .called c) :
    F.Inv (s.commit t c ((method c).effect s.value).1 ((method c).effect s.value).2) := by
  set a := ((method c).effect s.value).1 with ha
  set r := ((method c).effect s.value).2 with hr
  have hholds : ∀ u, F.Holds u (s.commit t c a r).trace ↔ F.Holds u s.trace := fun u ↦
    F.holds_lin u t c s.value a r s.trace
  have hdropping : ∀ u d, ((s.commit t c a r).pcs u).status = .called d → F.drop d →
      ¬ F.Holds u (s.commit t c a r).trace := by
    intro u d hcalled hd
    rw [hholds]
    by_cases hut : u = t
    · subst hut
      rw [commit_pcs_self] at hcalled
      cases hcalled
    · rw [commit_pcs_of_ne s hut] at hcalled
      exact hi.dropping u d hcalled hd
  have hother : ∀ u, u ≠ t → F.Owns (s.commit t c a r) u → F.Owns s u := by
    intro u hut hu
    unfold Flag.Owns at hu ⊢
    rw [hholds, commit_pcs_of_ne s hut] at hu
    exact hu
  by_cases htake : F.take c
  · by_cases hset : F.set s.value
    · -- found set: the call has not won, and nobody's share changes
      refine hi.of_owns F ?_ (fun _ ↦ F.takes c s.value htake) hdropping
      intro u hu
      by_cases hut : u = t
      · subst hut
        rcases hu with h | h
        · exact Or.inl ((hholds u).mp h)
        · rw [commit_pcs_self] at h
          exact absurd hset ((F.wins c s.value htake).mp h.2)
      · exact hother u hut hu
    · -- found clear: nobody owned the flag, and now `t` does
      have hnobody : ∀ u, ¬ F.Owns s u := fun u hu ↦ hset (hi.isSet u hu)
      have honly : ∀ u, F.Owns (s.commit t c a r) u → u = t := by
        intro u hu
        by_contra hut
        exact hnobody u (hother u hut hu)
      refine ⟨?_, fun u _ ↦ F.takes c s.value htake, hdropping⟩
      intro u w hu hw
      rw [honly u hu, honly w hw]
  · by_cases hdrop : F.drop c
    · -- only `t` owned the flag, and it has let it go
      have hown : F.Owns s t := by
        right
        rw [hpc]
        exact hdrop
      have hnobody : ∀ u, ¬ F.Owns (s.commit t c a r) u := by
        intro u hu
        by_cases hut : u = t
        · subst hut
          rcases hu with h | h
          · exact hi.dropping u c hpc hdrop ((hholds u).mp h)
          · rw [commit_pcs_self] at h
            exact htake h.1
        · exact hut (hi.unique u t (hother u hut hu) hown)
      exact ⟨fun u _ hu ↦ absurd hu (hnobody u), fun u hu ↦ absurd hu (hnobody u), hdropping⟩
    · refine hi.of_owns F ?_ (F.others c s.value htake hdrop) hdropping
      intro u hu
      by_cases hut : u = t
      · subst hut
        rcases hu with h | h
        · exact Or.inl ((hholds u).mp h)
        · rw [commit_pcs_self] at h
          exact absurd h.1 htake
      · exact hother u hut hu

/-- The invariant of every disciplined run. -/
theorem Flag.inv_step [DecidableEq κ] (s : State τ γ σ κ ρ) (e : Event τ γ)
    (s' : State τ γ σ κ ρ) (hi : F.Inv s) (hd : F.Disciplined s e)
    (h : step method s e = some s') : F.Inv s' := by
  cases step_moves h with
  | invoke hpc => exact hi.invoke F hpc (hd _ _ rfl)
  | load hpc hm =>
      refine hi.move F ?_
      rw [hpc]
      rfl
  | commit hpc => exact hi.commit F hpc
  | @retry t c l old hpc hm hne =>
      have hmoved : F.Inv (s.goto t (.ready c) []) := by
        refine hi.move F ?_
        rw [hpc]
        rfl
      exact ⟨hmoved.unique, hmoved.isSet, hmoved.dropping⟩
  | ret hpc => exact hi.ret F hpc

/-- Threads that drop the flag only while they hold it exclude each other. -/
theorem Flag.exclusive [DecidableEq κ] {v₀ : σ} {es : List (Event τ γ)}
    (hd : Transition.Along (step method) F.Disciplined (initial v₀) es)
    (hr : Transition.run (step method) (initial v₀) es = some s) {t u : τ}
    (ht : F.Holds t s.trace) : F.set s.value ∧ (F.Holds u s.trace → t = u) := by
  have hi := Transition.run_invariant_along F.inv_step (F.initial_inv v₀) hd hr
  exact ⟨hi.isSet t (Or.inl ht), fun hu ↦ hi.unique t u (Or.inl ht) (Or.inl hu)⟩

end Ownership

end SharedCell
