import Mathlib.Logic.Function.Basic
import Mathlib.Data.List.Basic

/-!
# Monitors

A value guarded by one lock, with one condition variable.  A call takes the lock and decides in its
critical section, from the value alone, to sleep, to return with the lock held, to return without a
change, or to store a new value and wake every sleeper.  Storing, waking and unlocking are steps of
their own, in any interleaving of any number of threads.

Two things hold of every such system.  No wake-up is lost: whoever sleeps while the lock is free
would decide to sleep again.  And calls are linearizable: each takes effect once, between its
invocation and its return, and the effects in their order are a sequential run of the decisions.
-/

namespace Monitor

variable {τ γ σ ρ : Type*}

/-- What a critical section decides to do. -/
inductive Outcome (σ ρ : Type*) where
  | sleep
  /-- return with the lock held -/
  | keep (r : ρ)
  | leave (r : ρ)
  /-- store, broadcast, unlock and return -/
  | update (v : σ) (r : ρ)

inductive Pc (γ σ ρ : Type*) where
  | idle
  | acquire (c : γ)
  | test (c : γ)
  | store (c : γ) (v : σ) (r : ρ)
  | broadcast (c : γ) (r : ρ)
  | unlock (c : γ) (r : ρ)
  /-- decided to sleep, the lock not yet released -/
  | sleeping (c : γ)
  | asleep (c : γ)
  /-- woken, and about to take the lock again -/
  | woken (c : γ)
  /-- returned with the lock held -/
  | waited (c : γ) (r : ρ)

/-- What can be observed: a call, its effect on the value, and its return. -/
inductive Obs (τ γ σ ρ : Type*) where
  | inv (t : τ) (c : γ)
  | lin (t : τ) (c : γ) (before after : σ) (r : ρ)
  | ret (t : τ) (c : γ) (r : ρ)

structure State (τ γ σ ρ : Type*) where
  value : σ
  lock : Option τ
  pcs : τ → Pc γ σ ρ
  trace : List (Obs τ γ σ ρ)

inductive Event (τ γ : Type*) where
  | invoke (t : τ) (c : γ)
  | acquire (t : τ)
  | test (t : τ)
  | store (t : τ)
  | broadcast (t : τ)
  | unlock (t : τ)
  | sleep (t : τ)
  | wake (t : τ)

def initial (v : σ) : State τ γ σ ρ :=
  ⟨v, none, fun _ ↦ .idle, []⟩

/-- The effect of a broadcast on another thread. -/
def Pc.wake : Pc γ σ ρ → Pc γ σ ρ
  | .asleep c => .woken c
  | pc => pc

section Step

variable [DecidableEq τ] (critical : γ → σ → Outcome σ ρ)

/-- The thread `t` goes on to `pc`, observed as `os`. -/
def State.goto (s : State τ γ σ ρ) (t : τ) (pc : Pc γ σ ρ) (os : List (Obs τ γ σ ρ)) :
    State τ γ σ ρ :=
  { s with pcs := Function.update s.pcs t pc, trace := s.trace ++ os }

/-- What the test in the critical section of the call `c` leads to. -/
def State.decide (s : State τ γ σ ρ) (t : τ) (c : γ) : State τ γ σ ρ :=
  match critical c s.value with
  | .sleep => s.goto t (.sleeping c) []
  | .keep r => s.goto t (.waited c r) [.lin t c s.value s.value r, .ret t c r]
  | .leave r => s.goto t (.unlock c r) [.lin t c s.value s.value r]
  | .update v r => s.goto t (.store c v r) []

def step (s : State τ γ σ ρ) : Event τ γ → Option (State τ γ σ ρ)
  | .invoke t c =>
      match s.pcs t with
      | .idle => some (s.goto t (.acquire c) [.inv t c])
      | _ => none
  | .acquire t =>
      match s.lock, s.pcs t with
      | none, .acquire c | none, .woken c => some { s.goto t (.test c) [] with lock := some t }
      | _, _ => none
  | .test t =>
      match s.pcs t with
      | .test c => some (s.decide critical t c)
      | _ => none
  | .store t =>
      match s.pcs t with
      | .store c v r =>
          some { s.goto t (.broadcast c r) [.lin t c s.value v r] with value := v }
      | _ => none
  | .broadcast t =>
      match s.pcs t with
      | .broadcast c r =>
          some { s with pcs := Function.update (fun u ↦ (s.pcs u).wake) t (.unlock c r) }
      | _ => none
  | .unlock t =>
      match s.pcs t with
      | .unlock c r => some { s.goto t .idle [.ret t c r] with lock := none }
      | .waited _ _ => some { s.goto t .idle [] with lock := none }
      | _ => none
  | .sleep t =>
      match s.pcs t with
      -- the wait on the condition variable releases the lock
      | .sleeping c => some { s.goto t (.asleep c) [] with lock := none }
      | _ => none
  | .wake t =>
      match s.pcs t with
      -- a sleeper may also wake without a broadcast
      | .asleep c => some (s.goto t (.woken c) [])
      | _ => none

end Step

/-! ## What a trace says -/

/-- How far a thread is with its call, as far as can be observed. -/
inductive Status (γ ρ : Type*) where
  | idle
  | called (c : γ)
  | linearized (c : γ) (r : ρ)

def Pc.status : Pc γ σ ρ → Status γ ρ
  | .idle | .waited _ _ => .idle
  | .acquire c | .test c | .store c _ _ | .sleeping c | .asleep c | .woken c => .called c
  | .broadcast c r | .unlock c r => .linearized c r

/-- The observations of the thread `t` lead from one status to another: a call is invoked by an idle
thread, takes effect once, and returns the result of its effect. -/
inductive Follows (t : τ) : Status γ ρ → List (Obs τ γ σ ρ) → Status γ ρ → Prop where
  | nil (a) : Follows t a [] a
  | inv {c a os} : Follows t (.called c) os a → Follows t .idle (.inv t c :: os) a
  | lin {c b v r a os} :
      Follows t (.linearized c r) os a → Follows t (.called c) (.lin t c b v r :: os) a
  | ret {c r a os} : Follows t .idle os a → Follows t (.linearized c r) (.ret t c r :: os) a
  | invOther {u c a b os} : u ≠ t → Follows t a os b → Follows t a (.inv u c :: os) b
  | linOther {u c x v r a b os} : u ≠ t → Follows t a os b → Follows t a (.lin u c x v r :: os) b
  | retOther {u c r a b os} : u ≠ t → Follows t a os b → Follows t a (.ret u c r :: os) b

theorem Follows.append {t : τ} {a b c : Status γ ρ} {os ps : List (Obs τ γ σ ρ)}
    (h : Follows t a os b) (h' : Follows t b ps c) : Follows t a (os ++ ps) c := by
  induction h with
  | nil a => exact h'
  | inv _ ih => exact .inv (ih h')
  | lin _ ih => exact .lin (ih h')
  | ret _ ih => exact .ret (ih h')
  | invOther hne _ ih => exact .invOther hne (ih h')
  | linOther hne _ ih => exact .linOther hne (ih h')
  | retOther hne _ ih => exact .retOther hne (ih h')

/-- The decision allows the value to become `a` and the call to return `r`. -/
def Outcome.Allows (o : Outcome σ ρ) (v a : σ) (r : ρ) : Prop :=
  o = .keep r ∧ a = v ∨ o = .leave r ∧ a = v ∨ o = .update a r

/-- The effects in a trace, in their order, are a sequential run from `v` to `w`. -/
def Replays (critical : γ → σ → Outcome σ ρ) : σ → List (Obs τ γ σ ρ) → σ → Prop
  | v, [], w => v = w
  | v, .lin _ c b a r :: os, w =>
      b = v ∧ (critical c v).Allows v a r ∧ Replays critical a os w
  | v, .inv _ _ :: os, w => Replays critical v os w
  | v, .ret _ _ _ :: os, w => Replays critical v os w

variable {critical : γ → σ → Outcome σ ρ}

theorem Replays.append {v u w : σ} {os ps : List (Obs τ γ σ ρ)} (h : Replays critical v os u)
    (h' : Replays critical u ps w) : Replays critical v (os ++ ps) w := by
  induction os generalizing v with
  | nil =>
      have hvu : v = u := h
      rw [hvu]
      exact h'
  | cons o os ih =>
      cases o with
      | inv t c => exact ih h
      | lin t c b a r => exact ⟨h.1, h.2.1, ih h.2.2⟩
      | ret t c r => exact ih h

theorem Replays.split {v w : σ} {os ps : List (Obs τ γ σ ρ)} (h : Replays critical v (os ++ ps) w) :
    ∃ u, Replays critical v os u ∧ Replays critical u ps w := by
  induction os generalizing v with
  | nil => exact ⟨v, rfl, h⟩
  | cons o os ih =>
      cases o with
      | inv t c => exact ih h
      | lin t c b a r =>
          obtain ⟨u, hu, hrest⟩ := ih h.2.2
          exact ⟨u, ⟨h.1, h.2.1, hu⟩, hrest⟩
      | ret t c r => exact ih h

/-- The effect of a call somewhere in a trace is what its critical section decided there. -/
theorem Replays.allows {v w b a : σ} {t : τ} {c : γ} {r : ρ} {os : List (Obs τ γ σ ρ)}
    (h : Replays critical v os w) (hmem : .lin t c b a r ∈ os) : (critical c b).Allows b a r := by
  obtain ⟨ps, qs, rfl⟩ := List.append_of_mem hmem
  obtain ⟨u, -, hrest⟩ := h.split
  rw [hrest.1]
  exact hrest.2.1

/-- A value that was outside of a set and is inside later was brought in by some call. -/
theorem Replays.crossing {S : σ → Prop} {v w : σ} {os : List (Obs τ γ σ ρ)}
    (h : Replays critical v os w) (hv : ¬ S v) (hw : S w) :
    ∃ t c b a r, Obs.lin t c b a r ∈ os ∧ ¬ S b ∧ S a := by
  induction os generalizing v with
  | nil =>
      have hvw : v = w := h
      rw [hvw] at hv
      exact absurd hw hv
  | cons o os ih =>
      cases o with
      | inv t c =>
          obtain ⟨u, d, b, a, r, hmem, hrest⟩ := ih h hv
          exact ⟨u, d, b, a, r, List.mem_cons_of_mem _ hmem, hrest⟩
      | ret t c q =>
          obtain ⟨u, d, b, a, r, hmem, hrest⟩ := ih h hv
          exact ⟨u, d, b, a, r, List.mem_cons_of_mem _ hmem, hrest⟩
      | lin t c b a r =>
          by_cases ha : S a
          · refine ⟨t, c, b, a, r, List.mem_cons_self, ?_, ha⟩
            rw [h.1]
            exact hv
          · obtain ⟨u, d, x, y, q, hmem, hrest⟩ := ih h.2.2 ha
            exact ⟨u, d, x, y, q, List.mem_cons_of_mem _ hmem, hrest⟩

/-- Two effects of which the first leaves the value outside of a set and the second finds it inside
have a third between them that brings it in. -/
theorem Replays.between {S : σ → Prop} {v w b a b' a' : σ} {t t' : τ} {c c' : γ} {r r' : ρ}
    {os ps qs : List (Obs τ γ σ ρ)}
    (h : Replays critical v (os ++ .lin t c b a r :: (ps ++ .lin t' c' b' a' r' :: qs)) w)
    (ha : ¬ S a) (hb : S b') : ∃ u d x y q, Obs.lin u d x y q ∈ ps ∧ ¬ S x ∧ S y := by
  obtain ⟨u, -, hrest⟩ := h.split
  obtain ⟨u', hps, hlast⟩ := hrest.2.2.split
  apply hps.crossing ha
  rw [← hlast.1]
  exact hb

/-! ## The invariant -/

/-- The decision makes the call return `r` with the lock released. -/
def Outcome.Releases (o : Outcome σ ρ) (r : ρ) : Prop :=
  o = .leave r ∨ ∃ v, o = .update v r

/-- The thread is inside the lock. -/
def Pc.Holds : Pc γ σ ρ → Prop
  | .test _ | .store _ _ _ | .broadcast _ _ | .unlock _ _ | .sleeping _ | .waited _ _ => True
  | _ => False

/-- What a thread inside the lock knows about the value. -/
def Pc.Knows (critical : γ → σ → Outcome σ ρ) (v : σ) : Pc γ σ ρ → Prop
  | .store c w r => critical c v = .update w r
  -- the value may have changed since
  | .broadcast c r | .unlock c r => ∃ w, (critical c w).Releases r
  | .sleeping c => critical c v = .sleep
  | .waited c r => critical c v = .keep r
  | _ => True

structure Inv (critical : γ → σ → Outcome σ ρ) (v₀ : σ) (s : State τ γ σ ρ) : Prop where
  lock : ∀ t, (s.pcs t).Holds ↔ s.lock = some t
  knows : ∀ t, (s.pcs t).Knows critical s.value
  asleep : ∀ t c, s.pcs t = .asleep c →
    critical c s.value = .sleep ∨ ∃ u d r, s.pcs u = .broadcast d r
  follows : ∀ t, Follows t .idle s.trace (s.pcs t).status
  replays : Replays critical v₀ s.trace s.value

variable {v₀ : σ} {s s' : State τ γ σ ρ}

theorem knows_of_not_holds {pc : Pc γ σ ρ} {v : σ} (h : ¬ pc.Holds) : pc.Knows critical v := by
  cases pc with
  | store c w r => exact absurd trivial h
  | broadcast c r => exact absurd trivial h
  | unlock c r => exact absurd trivial h
  | sleeping c => exact absurd trivial h
  | waited c r => exact absurd trivial h
  | _ => trivial

theorem initial_inv (v : σ) : Inv critical v (initial v : State τ γ σ ρ) where
  lock t := by
    constructor
    · intro h
      exact h.elim
    · intro h
      cases h
  knows t := trivial
  asleep t c h := by cases h
  follows t := .nil _
  replays := rfl

/-- The observations that one thread makes do not concern the others. -/
def Obs.By (t : τ) : Obs τ γ σ ρ → Prop
  | .inv u _ | .lin u _ _ _ _ | .ret u _ _ => u = t

theorem follows_of_others {t u : τ} (hne : u ≠ t) {a : Status γ ρ} {os : List (Obs τ γ σ ρ)}
    (h : ∀ o ∈ os, o.By u) : Follows t a os a := by
  induction os with
  | nil => exact .nil a
  | cons o os ih =>
      have hrest := ih fun o ho ↦ h o (List.mem_cons_of_mem _ ho)
      have hby := h o List.mem_cons_self
      cases o with
      | inv x c =>
          have hx : x = u := hby
          subst hx
          exact .invOther hne hrest
      | lin x c b v r =>
          have hx : x = u := hby
          subst hx
          exact .linOther hne hrest
      | ret x c r =>
          have hx : x = u := hby
          subst hx
          exact .retOther hne hrest

/-- Nobody else is inside the lock. -/
theorem Inv.not_holds_of_ne (hi : Inv critical v₀ s) {t u : τ} (ht : (s.pcs t).Holds)
    (hu : u ≠ t) : ¬ (s.pcs u).Holds := by
  intro hh
  have h1 := (hi.lock t).mp ht
  have h2 := (hi.lock u).mp hh
  rw [h1] at h2
  exact hu (Option.some.inj h2).symm

section Steps

variable [DecidableEq τ]

theorem goto_pcs_self (s : State τ γ σ ρ) (t : τ) (pc : Pc γ σ ρ) (os : List (Obs τ γ σ ρ)) :
    (s.goto t pc os).pcs t = pc := by
  unfold State.goto
  exact Function.update_self ..

theorem goto_pcs_of_ne (s : State τ γ σ ρ) {t u : τ} (hu : u ≠ t) (pc : Pc γ σ ρ)
    (os : List (Obs τ γ σ ρ)) : (s.goto t pc os).pcs u = s.pcs u := by
  unfold State.goto
  exact Function.update_of_ne hu ..

/-- The trace after one thread has moved on. -/
theorem Inv.follows_goto (hi : Inv critical v₀ s) {t : τ} {old pc : Pc γ σ ρ}
    {os : List (Obs τ γ σ ρ)} (hpc : s.pcs t = old) (hby : ∀ o ∈ os, o.By t)
    (hself : Follows t old.status os pc.status) (u : τ) :
    Follows u .idle (s.goto t pc os).trace ((s.goto t pc os).pcs u).status := by
  have hf := hi.follows u
  by_cases hu : u = t
  · subst hu
    rw [goto_pcs_self]
    rw [hpc] at hf
    exact hf.append hself
  · rw [goto_pcs_of_ne s hu]
    exact hf.append (follows_of_others (Ne.symm hu) hby)

/-- A sleeper that another thread's move leaves asleep. -/
theorem Inv.asleep_goto (hi : Inv critical v₀ s) {t u : τ} {old pc : Pc γ σ ρ} {c : γ}
    {os : List (Obs τ γ σ ρ)} (hpc : s.pcs t = old) (hold : ∀ d r, old ≠ .broadcast d r)
    (hnew : pc = .asleep c → critical c s.value = .sleep)
    (h : (s.goto t pc os).pcs u = .asleep c) :
    critical c s.value = .sleep ∨ ∃ x d r, (s.goto t pc os).pcs x = .broadcast d r := by
  by_cases hu : u = t
  · subst hu
    rw [goto_pcs_self] at h
    exact Or.inl (hnew h)
  · rw [goto_pcs_of_ne s hu] at h
    rcases hi.asleep u c h with hs | ⟨x, d, r, hx⟩
    · exact Or.inl hs
    · -- whoever is about to broadcast is another thread, and still is
      have hxt : x ≠ t := by
        intro hxt
        rw [hxt, hpc] at hx
        exact hold d r hx
      exact Or.inr ⟨x, d, r, (goto_pcs_of_ne s hxt pc os).trans hx⟩

/-- A thread that neither takes nor releases the lock, and neither stores nor broadcasts. -/
theorem Inv.move (hi : Inv critical v₀ s) {t : τ} {old pc : Pc γ σ ρ} {os : List (Obs τ γ σ ρ)}
    (hpc : s.pcs t = old) (hholds : pc.Holds ↔ old.Holds) (hknows : pc.Knows critical s.value)
    (hold : ∀ d r, old ≠ .broadcast d r) (hnew : ∀ c, pc ≠ .asleep c)
    (hby : ∀ o ∈ os, o.By t) (hself : Follows t old.status os pc.status)
    (hreplay : Replays critical s.value os s.value) : Inv critical v₀ (s.goto t pc os) where
  lock u := by
    by_cases hu : u = t
    · subst hu
      rw [goto_pcs_self, hholds, ← hpc]
      exact hi.lock u
    · rw [goto_pcs_of_ne s hu]
      exact hi.lock u
  knows u := by
    by_cases hu : u = t
    · subst hu
      rw [goto_pcs_self]
      exact hknows
    · rw [goto_pcs_of_ne s hu]
      exact hi.knows u
  asleep u c h := hi.asleep_goto hpc hold (fun h' ↦ absurd h' (hnew c)) h
  follows := hi.follows_goto hpc hby hself
  replays := hi.replays.append hreplay

/-- The thread inside leaves the lock. -/
theorem Inv.release (hi : Inv critical v₀ s) {t : τ} {old pc : Pc γ σ ρ}
    {os : List (Obs τ γ σ ρ)} (hpc : s.pcs t = old) (ht : old.Holds) (hout : ¬ pc.Holds)
    (hold : ∀ d r, old ≠ .broadcast d r)
    (hnew : ∀ c, pc = .asleep c → critical c s.value = .sleep)
    (hby : ∀ o ∈ os, o.By t) (hself : Follows t old.status os pc.status)
    (hreplay : Replays critical s.value os s.value) :
    Inv critical v₀ { s.goto t pc os with lock := none } where
  lock u := by
    show ((s.goto t pc os).pcs u).Holds ↔ none = some u
    -- the thread that leaves was the only one inside
    have hfree : ¬ ((s.goto t pc os).pcs u).Holds := by
      by_cases hu : u = t
      · subst hu
        rw [goto_pcs_self]
        exact hout
      · rw [goto_pcs_of_ne s hu]
        exact hi.not_holds_of_ne (hpc ▸ ht) hu
    constructor
    · intro hh
      exact absurd hh hfree
    · intro h
      cases h
  knows u := by
    show ((s.goto t pc os).pcs u).Knows critical s.value
    by_cases hu : u = t
    · subst hu
      rw [goto_pcs_self]
      exact knows_of_not_holds hout
    · rw [goto_pcs_of_ne s hu]
      exact hi.knows u
  asleep u c h := by
    have h' : (s.goto t pc os).pcs u = .asleep c := h
    exact hi.asleep_goto hpc hold (hnew c) h'
  follows := hi.follows_goto hpc hby hself
  replays := hi.replays.append hreplay

theorem Inv.acquire (hi : Inv critical v₀ s) {t : τ} {old : Pc γ σ ρ} {c : γ}
    (hlock : s.lock = none) (hpc : s.pcs t = old) (hold : old.status = .called c) :
    Inv critical v₀ { s.goto t (.test c) [] with lock := some t } where
  lock u := by
    show ((s.goto t (.test c) []).pcs u).Holds ↔ some t = some u
    by_cases hu : u = t
    · subst hu
      rw [goto_pcs_self]
      exact ⟨fun _ ↦ rfl, fun _ ↦ trivial⟩
    · rw [goto_pcs_of_ne s hu, hi.lock u, hlock]
      constructor
      · intro h
        cases h
      · intro h
        exact absurd (Option.some.inj h).symm hu
  knows u := by
    show ((s.goto t (.test c) []).pcs u).Knows critical s.value
    by_cases hu : u = t
    · subst hu
      rw [goto_pcs_self]
      trivial
    · rw [goto_pcs_of_ne s hu]
      exact hi.knows u
  asleep u d h := by
    have hu : u ≠ t := by
      intro hu
      subst hu
      rw [show (State.pcs _ u) = .test c from goto_pcs_self s u (.test c) []] at h
      cases h
    have hu' : s.pcs u = .asleep d := (goto_pcs_of_ne s hu (.test c) []).symm.trans h
    rcases hi.asleep u d hu' with hs | ⟨x, e, r, hx⟩
    · exact Or.inl hs
    · -- with the lock free nobody is about to broadcast
      have hh : (s.pcs x).Holds := by
        rw [hx]
        trivial
      rw [(hi.lock x).mp hh] at hlock
      cases hlock
  follows := by
    apply hi.follows_goto hpc
    · intro o ho
      cases ho
    · rw [hold]
      exact .nil _
  replays := hi.replays.append rfl

theorem Inv.store (hi : Inv critical v₀ s) {t : τ} {c : γ} {v : σ} {r : ρ}
    (hpc : s.pcs t = .store c v r) :
    Inv critical v₀ { s.goto t (.broadcast c r) [.lin t c s.value v r] with value := v } where
  lock u := by
    show ((s.goto t (.broadcast c r) [.lin t c s.value v r]).pcs u).Holds ↔ s.lock = some u
    by_cases hu : u = t
    · subst hu
      rw [goto_pcs_self, ← hi.lock u, hpc]
      exact Iff.rfl
    · rw [goto_pcs_of_ne s hu]
      exact hi.lock u
  knows u := by
    show ((s.goto t (.broadcast c r) [.lin t c s.value v r]).pcs u).Knows critical v
    by_cases hu : u = t
    · subst hu
      have hk := hi.knows u
      rw [hpc] at hk
      rw [goto_pcs_self]
      exact ⟨s.value, Or.inr ⟨v, hk⟩⟩
    · rw [goto_pcs_of_ne s hu]
      apply knows_of_not_holds
      apply hi.not_holds_of_ne _ hu
      rw [hpc]
      trivial
  -- every sleeper may now be wrong about the value, but a broadcast is due
  asleep _ _ _ := Or.inr ⟨t, c, r, goto_pcs_self s t (.broadcast c r) [.lin t c s.value v r]⟩
  follows := by
    apply hi.follows_goto hpc
    · intro o ho
      rw [List.mem_singleton.mp ho]
      rfl
    · exact .lin (.nil _)
  replays := by
    refine hi.replays.append ⟨rfl, ?_, rfl⟩
    have hk := hi.knows t
    rw [hpc] at hk
    exact Or.inr (Or.inr hk)

theorem Pc.wake_holds (pc : Pc γ σ ρ) : pc.wake.Holds ↔ pc.Holds := by
  cases pc <;> exact Iff.rfl

theorem Pc.wake_status (pc : Pc γ σ ρ) : pc.wake.status = pc.status := by
  cases pc <;> rfl

theorem Pc.wake_knows {pc : Pc γ σ ρ} {v : σ} (h : pc.Knows critical v) :
    pc.wake.Knows critical v := by
  cases pc <;> exact h

theorem Pc.wake_ne_asleep (pc : Pc γ σ ρ) (c : γ) : pc.wake ≠ .asleep c := by
  intro h
  cases pc <;> cases h

theorem Inv.broadcast (hi : Inv critical v₀ s) {t : τ} {c : γ} {r : ρ}
    (hpc : s.pcs t = .broadcast c r) :
    Inv critical v₀ { s with pcs := Function.update (fun u ↦ (s.pcs u).wake) t (.unlock c r) } where
  lock u := by
    dsimp only
    by_cases hu : u = t
    · subst hu
      rw [Function.update_self, ← hi.lock u, hpc]
      exact Iff.rfl
    · rw [Function.update_of_ne hu, Pc.wake_holds]
      exact hi.lock u
  knows u := by
    dsimp only
    have hk := hi.knows u
    by_cases hu : u = t
    · subst hu
      rw [Function.update_self]
      rw [hpc] at hk
      exact hk
    · rw [Function.update_of_ne hu]
      exact Pc.wake_knows hk
  -- nobody is left asleep
  asleep u d h := by
    dsimp only at h
    by_cases hu : u = t
    · subst hu
      rw [Function.update_self] at h
      cases h
    · rw [Function.update_of_ne hu] at h
      exact absurd h (Pc.wake_ne_asleep _ d)
  follows u := by
    dsimp only
    have hf := hi.follows u
    by_cases hu : u = t
    · subst hu
      rw [Function.update_self]
      rw [hpc] at hf
      exact hf
    · rw [Function.update_of_ne hu, Pc.wake_status]
      exact hf
  replays := hi.replays

/-- The test moves on inside the lock, with an effect exactly if the value is to stay. -/
theorem Inv.decide (hi : Inv critical v₀ s) {t : τ} {c : γ} (hpc : s.pcs t = .test c) :
    Inv critical v₀ (s.decide critical t c) := by
  have hold : ∀ d r, Pc.test c ≠ (.broadcast d r : Pc γ σ ρ) := by
    intro d r h
    cases h
  unfold State.decide
  -- the value is unchanged in each case; an update is only announced here and stored later
  cases hout : critical c s.value with
  | sleep =>
      refine hi.move hpc Iff.rfl hout hold ?_ ?_ ?_ ?_
      · intro d h
        cases h
      · intro o ho
        cases ho
      · exact .nil _
      · rfl
  | keep r =>
      refine hi.move hpc Iff.rfl hout hold ?_ ?_ ?_ ?_
      · intro d h
        cases h
      · intro o ho
        simp only [List.mem_cons, List.not_mem_nil, or_false] at ho
        rcases ho with rfl | rfl <;> rfl
      · exact .lin (.ret (.nil _))
      · exact ⟨rfl, Or.inl ⟨hout, rfl⟩, rfl⟩
  | leave r =>
      refine hi.move hpc Iff.rfl ⟨s.value, Or.inl hout⟩ hold ?_ ?_ ?_ ?_
      · intro d h
        cases h
      · intro o ho
        rw [List.mem_singleton.mp ho]
        rfl
      · exact .lin (.nil _)
      · exact ⟨rfl, Or.inr (Or.inl ⟨hout, rfl⟩), rfl⟩
  | update v r =>
      refine hi.move hpc Iff.rfl hout hold ?_ ?_ ?_ ?_
      · intro d h
        cases h
      · intro o ho
        cases ho
      · exact .nil _
      · rfl

/-- All that a step can do. -/
inductive Moves (critical : γ → σ → Outcome σ ρ) (s : State τ γ σ ρ) : State τ γ σ ρ → Prop where
  | invoke {t c} (hpc : s.pcs t = .idle) : Moves critical s (s.goto t (.acquire c) [.inv t c])
  | acquire {t c} {old : Pc γ σ ρ} (hlock : s.lock = none) (hpc : s.pcs t = old)
      (hold : old.status = .called c) :
      Moves critical s { s.goto t (.test c) [] with lock := some t }
  | test {t c} (hpc : s.pcs t = .test c) : Moves critical s (s.decide critical t c)
  | store {t c v r} (hpc : s.pcs t = .store c v r) :
      Moves critical s { s.goto t (.broadcast c r) [.lin t c s.value v r] with value := v }
  | broadcast {t c r} (hpc : s.pcs t = .broadcast c r) :
      Moves critical s
        { s with pcs := Function.update (fun u ↦ (s.pcs u).wake) t (.unlock c r) }
  | unlock {t c r} (hpc : s.pcs t = .unlock c r) :
      Moves critical s { s.goto t .idle [.ret t c r] with lock := none }
  | unlockWaited {t c r} (hpc : s.pcs t = .waited c r) :
      Moves critical s { s.goto t .idle [] with lock := none }
  | sleep {t c} (hpc : s.pcs t = .sleeping c) :
      Moves critical s { s.goto t (.asleep c) [] with lock := none }
  | wake {t c} (hpc : s.pcs t = .asleep c) : Moves critical s (s.goto t (.woken c) [])

theorem step_moves {e : Event τ γ} (h : step critical s e = some s') :
    Moves critical s s' := by
  -- an event that the place of its thread does not allow is no step at all
  cases e with
  | invoke t c =>
      simp only [step] at h
      split at h
      · rename_i hpc
        cases h
        exact .invoke hpc
      · cases h
  | acquire t =>
      simp only [step] at h
      split at h
      · rename_i c hlock hpc
        cases h
        exact .acquire hlock hpc rfl
      · rename_i c hlock hpc
        cases h
        exact .acquire hlock hpc rfl
      · cases h
  | test t =>
      simp only [step] at h
      split at h
      · rename_i c hpc
        cases h
        exact .test hpc
      · cases h
  | store t =>
      simp only [step] at h
      split at h
      · rename_i c v r hpc
        cases h
        exact .store hpc
      · cases h
  | broadcast t =>
      simp only [step] at h
      split at h
      · rename_i c r hpc
        cases h
        exact .broadcast hpc
      · cases h
  | unlock t =>
      simp only [step] at h
      split at h
      · rename_i c r hpc
        cases h
        exact .unlock hpc
      · rename_i c r hpc
        cases h
        exact .unlockWaited hpc
      · cases h
  | sleep t =>
      simp only [step] at h
      split at h
      · rename_i c hpc
        cases h
        exact .sleep hpc
      · cases h
  | wake t =>
      simp only [step] at h
      split at h
      · rename_i c hpc
        cases h
        exact .wake hpc
      · cases h

/-- Every step of every thread keeps the invariant. -/
theorem inv_step (s : State τ γ σ ρ) (e : Event τ γ) (s' : State τ γ σ ρ)
    (hi : Inv critical v₀ s) (hstep : step critical s e = some s') : Inv critical v₀ s' := by
  cases step_moves hstep with
  | invoke hpc =>
      refine hi.move hpc Iff.rfl trivial ?_ ?_ ?_ ?_ ?_
      · intro d r h
        cases h
      · intro d h
        cases h
      · intro o ho
        rw [List.mem_singleton.mp ho]
        rfl
      · exact .inv (.nil _)
      · rfl
  | acquire hlock hpc hold => exact hi.acquire hlock hpc hold
  | test hpc => exact hi.decide hpc
  | store hpc => exact hi.store hpc
  | broadcast hpc => exact hi.broadcast hpc
  | unlock hpc =>
      refine hi.release hpc trivial id ?_ ?_ ?_ ?_ ?_
      · intro d q h
        cases h
      · intro d h
        cases h
      · intro o ho
        rw [List.mem_singleton.mp ho]
        rfl
      · exact .ret (.nil _)
      · rfl
  | unlockWaited hpc =>
      -- the call has returned already
      refine hi.release hpc trivial id ?_ ?_ ?_ ?_ ?_
      · intro d q h
        cases h
      · intro d h
        cases h
      · intro o ho
        cases ho
      · exact .nil _
      · rfl
  | @sleep u c hpc =>
      -- the lock has been held since the test, so the test still says to sleep
      have hk := hi.knows u
      rw [hpc] at hk
      refine hi.release hpc trivial id ?_ ?_ ?_ ?_ ?_
      · intro d q h
        cases h
      · intro d h
        cases h
        exact hk
      · intro o ho
        cases ho
      · exact .nil _
      · rfl
  | wake hpc =>
      refine hi.move hpc Iff.rfl trivial ?_ ?_ ?_ ?_ ?_
      · intro d r h
        cases h
      · intro d h
        cases h
      · intro o ho
        cases ho
      · exact .nil _
      · rfl

/-- A call returns with the lock held, or its critical section let it go. -/
theorem Inv.ret_of_step {e : Event τ γ} {os : List (Obs τ γ σ ρ)} {t : τ} {c : γ} {r : ρ}
    (hi : Inv critical v₀ s) (hstep : step critical s e = some s')
    (htrace : s'.trace = s.trace ++ os) (hmem : .ret t c r ∈ os) :
    s'.pcs t = .waited c r ∨ ∃ v, (critical c v).Releases r := by
  -- only a test that keeps the lock and an unlock observe a return
  cases step_moves hstep with
  | invoke _ =>
      rw [← List.append_cancel_left htrace, List.mem_singleton] at hmem
      cases hmem
  | acquire _ _ _ =>
      rw [← List.append_cancel_left htrace] at hmem
      cases hmem
  | @test u d hpc =>
      unfold State.decide at htrace ⊢
      cases hout : critical d s.value with
      | sleep =>
          rw [hout] at htrace
          rw [← List.append_cancel_left htrace] at hmem
          cases hmem
      | keep q =>
          rw [hout] at htrace
          rw [← List.append_cancel_left htrace] at hmem
          simp only [List.mem_cons, reduceCtorEq, List.not_mem_nil, or_false, false_or] at hmem
          cases hmem
          exact Or.inl (goto_pcs_self s t _ _)
      | leave q =>
          rw [hout] at htrace
          rw [← List.append_cancel_left htrace, List.mem_singleton] at hmem
          cases hmem
      | update v q =>
          rw [hout] at htrace
          rw [← List.append_cancel_left htrace] at hmem
          cases hmem
  | store _ =>
      rw [← List.append_cancel_left htrace, List.mem_singleton] at hmem
      cases hmem
  | broadcast _ =>
      rw [List.self_eq_append_right.mp htrace] at hmem
      cases hmem
  | unlock hpc =>
      rw [← List.append_cancel_left htrace, List.mem_singleton] at hmem
      cases hmem
      have hk := hi.knows t
      rw [hpc] at hk
      exact Or.inr hk
  | unlockWaited _ =>
      rw [← List.append_cancel_left htrace] at hmem
      cases hmem
  | sleep _ =>
      rw [← List.append_cancel_left htrace] at hmem
      cases hmem
  | wake _ =>
      rw [← List.append_cancel_left htrace] at hmem
      cases hmem

end Steps

/-! ## No wake-up is lost -/

/-- While the lock is free, whoever sleeps would decide to sleep again. -/
theorem Inv.asleep_of_free (hi : Inv critical v₀ s) (hlock : s.lock = none) {t : τ} {c : γ}
    (hpc : s.pcs t = .asleep c) : critical c s.value = .sleep := by
  rcases hi.asleep t c hpc with hs | ⟨u, d, r, hu⟩
  · exact hs
  · have hh : (s.pcs u).Holds := by
      rw [hu]
      trivial
    rw [(hi.lock u).mp hh] at hlock
    cases hlock

/-- A call that has returned with the lock held finds the value that let it return. -/
theorem Inv.waited (hi : Inv critical v₀ s) {t : τ} {c : γ} {r : ρ}
    (hpc : s.pcs t = .waited c r) : s.lock = some t ∧ critical c s.value = .keep r := by
  constructor
  · apply (hi.lock t).mp
    rw [hpc]
    trivial
  · have hk := hi.knows t
    rw [hpc] at hk
    exact hk

/-! ## Values that no call leaves -/

/-- A call whose effect is in a trace was invoked in it, or was running when the trace began. -/
theorem Follows.invoked {t : τ} {a b : Status γ ρ} {os : List (Obs τ γ σ ρ)}
    (h : Follows t a os b) {c : γ} {x y : σ} {r : ρ} (hmem : .lin t c x y r ∈ os) :
    a = .called c ∨ .inv t c ∈ os := by
  induction h with
  | nil a => cases hmem
  | @inv d _ os _ ih =>
      have hrest : Obs.lin t c x y r ∈ os := by simpa using hmem
      rcases ih hrest with hcalled | hinv
      · cases hcalled
        exact Or.inr List.mem_cons_self
      · exact Or.inr (List.mem_cons_of_mem _ hinv)
  | @lin d _ _ _ _ os _ ih =>
      rcases List.mem_cons.mp hmem with heq | hrest
      · cases heq
        exact Or.inl rfl
      · rcases ih hrest with hcalled | hinv
        · cases hcalled
        · exact Or.inr (List.mem_cons_of_mem _ hinv)
  | @ret _ _ _ os _ ih =>
      have hrest : Obs.lin t c x y r ∈ os := by simpa using hmem
      rcases ih hrest with hcalled | hinv
      · cases hcalled
      · exact Or.inr (List.mem_cons_of_mem _ hinv)
  | @invOther _ _ _ _ os _ _ ih =>
      have hrest : Obs.lin t c x y r ∈ os := by simpa using hmem
      exact (ih hrest).imp_right (List.mem_cons_of_mem _)
  | @linOther _ _ _ _ _ _ _ os hne _ ih =>
      rcases List.mem_cons.mp hmem with heq | hrest
      · cases heq
        exact absurd rfl hne
      · exact (ih hrest).imp_right (List.mem_cons_of_mem _)
  | @retOther _ _ _ _ _ os _ _ ih =>
      have hrest : Obs.lin t c x y r ∈ os := by simpa using hmem
      exact (ih hrest).imp_right (List.mem_cons_of_mem _)

/-- When the calls of `C` lead from values in `S` to values in `S` only, their effects do not leave
`S`. -/
theorem Replays.stays {C : γ → Prop} {S : σ → Prop}
    (hkeep : ∀ c v w r, C c → S v → critical c v = .update w r → S w) {v w : σ}
    {os : List (Obs τ γ σ ρ)} (h : Replays critical v os w)
    (hcalls : ∀ t c b a r, .lin t c b a r ∈ os → C c) (hv : S v) : S w := by
  induction os generalizing v with
  | nil =>
      have hvw : v = w := h
      rw [← hvw]
      exact hv
  | cons o os ih =>
      have hrest : ∀ t c b a r, .lin t c b a r ∈ os → C c :=
        fun t c b a r hmem ↦ hcalls t c b a r (List.mem_cons_of_mem _ hmem)
      cases o with
      | inv t c => exact ih h hrest hv
      | ret t c r => exact ih h hrest hv
      | lin t c b a r =>
          refine ih h.2.2 hrest ?_
          rcases h.2.1 with ⟨-, ha⟩ | ⟨-, ha⟩ | hout
          · rw [ha]
            exact hv
          · rw [ha]
            exact hv
          · exact hkeep c v a r (hcalls t c b a r List.mem_cons_self) hv hout

theorem Inv.stays {C : γ → Prop} {S : σ → Prop}
    (hkeep : ∀ c v w r, C c → S v → critical c v = .update w r → S w) (hi : Inv critical v₀ s)
    (hcalls : ∀ t c, .inv t c ∈ s.trace → C c) (hv : S v₀) : S s.value := by
  refine hi.replays.stays hkeep ?_ hv
  intro t c b a r hmem
  rcases (hi.follows t).invoked hmem with hcalled | hinv
  · cases hcalled
  · exact hcalls t c hinv

/-- Only an invocation is observed as one. -/
theorem invoked_of_step [DecidableEq τ] {e : Event τ γ} (h : step critical s e = some s') {t : τ}
    {c : γ} (hmem : .inv t c ∈ s'.trace) : .inv t c ∈ s.trace ∨ e = .invoke t c := by
  cases e with
  | invoke u d =>
      simp only [step] at h
      split at h
      · cases h
        simpa [State.goto, eq_comm] using hmem
      · cases h
  | test u =>
      simp only [step] at h
      split at h
      · cases h
        unfold State.decide at hmem
        split at hmem <;> exact Or.inl (by simpa [State.goto] using hmem)
      · cases h
  | _ =>
      simp only [step] at h
      split at h <;> cases h <;> exact Or.inl (by simpa [State.goto] using hmem)

end Monitor
