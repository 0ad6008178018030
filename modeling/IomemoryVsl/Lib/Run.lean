import Mathlib.Data.List.Basic
import Mathlib.Data.List.Infix

/-!
# Runs of a guarded step function

A system is a step function `step : σ → ε → Option σ` whose answer `none` says that the event is
not enabled in the state.  A run is a list of events that were enabled one after the other.
-/

namespace Transition

variable {σ ε : Type*}

/-- The state after the events `es`, if each of them was enabled when its turn came. -/
def run (step : σ → ε → Option σ) (s : σ) (es : List ε) : Option σ :=
  es.foldlM step s

variable {step : σ → ε → Option σ}

@[simp]
theorem run_nil (s : σ) : run step s [] = some s := rfl

theorem run_cons (s : σ) (e : ε) (es : List ε) :
    run step s (e :: es) = (step s e).bind fun s' ↦ run step s' es := rfl

theorem run_cons_eq_some {s s' : σ} {e : ε} {es : List ε} :
    run step s (e :: es) = some s' ↔ ∃ t, step s e = some t ∧ run step t es = some s' := by
  rw [run_cons, Option.bind_eq_some_iff]

theorem run_append (s : σ) (es fs : List ε) :
    run step s (es ++ fs) = (run step s es).bind fun s' ↦ run step s' fs := by
  unfold run
  rw [List.foldlM_append]
  rfl

/-- Events that change nothing. -/
theorem run_fixed {s : σ} {es : List ε} (h : ∀ e ∈ es, step s e = some s) :
    run step s es = some s := by
  induction es with
  | nil => rfl
  | cons e es ih =>
    rw [List.forall_mem_cons] at h
    rw [run_cons, h.1]
    exact ih h.2

theorem run_concat {s t : σ} {es : List ε} (hr : run step s es = some t) (e : ε) :
    run step s (es ++ [e]) = step t e := by
  rw [run_append, hr]
  show (step t e).bind some = step t e
  exact Option.bind_fun_some (step t e)

/-- `P` holds of every state and the event taken from it along the events `es`. -/
def Along (step : σ → ε → Option σ) (P : σ → ε → Prop) : σ → List ε → Prop
  | _, [] => True
  | s, e :: es => P s e ∧ ∀ s', step s e = some s' → Along step P s' es

theorem along_cons_of_some {P : σ → ε → Prop} {s t : σ} {e : ε} (hs : step s e = some t)
    (es : List ε) : Along step P s (e :: es) ↔ P s e ∧ Along step P t es := by
  show (P s e ∧ ∀ s', step s e = some s' → Along step P s' es) ↔ _
  simp only [hs, Option.some.injEq, forall_eq']

theorem along_of_forall {P : σ → ε → Prop} {s : σ} {es : List ε} (h : ∀ t, ∀ e ∈ es, P t e) :
    Along step P s es := by
  induction es generalizing s with
  | nil => exact trivial
  | cons e es ih =>
      refine ⟨h s e List.mem_cons_self, ?_⟩
      intro s' _
      exact ih fun t f hf ↦ h t f (List.mem_cons_of_mem e hf)

/-- `I` holds of every state that the events `es` go through, the first and the last included. -/
def Throughout (step : σ → ε → Option σ) (I : σ → Prop) (s : σ) (es : List ε) : Prop :=
  ∀ fs s', fs <+: es → run step s fs = some s' → I s'

theorem Throughout.first {I : σ → Prop} {s : σ} {es : List ε} (h : Throughout step I s es) :
    I s :=
  h [] s List.nil_prefix rfl

theorem Throughout.last {I : σ → Prop} {s s' : σ} {es : List ε} (h : Throughout step I s es)
    (hr : run step s es = some s') : I s' :=
  h es s' (List.prefix_refl es) hr

/-- A property of every state of a run is refuted by what the last of them shows. -/
theorem not_throughout_of_last {β : Type*} {I : σ → Prop} {s : σ} {es : List ε} {f : σ → β} {b : β}
    (hlast : (run step s es).map f = some b) (hnot : ∀ t, f t = b → ¬ I t) :
    ¬ Throughout step I s es := by
  intro h
  obtain ⟨t, ht, hf⟩ := Option.map_eq_some_iff.mp hlast
  exact hnot t hf (h.last ht)

theorem Throughout.tail {I : σ → Prop} {s t : σ} {e : ε} {es : List ε}
    (h : Throughout step I s (e :: es)) (hs : step s e = some t) : Throughout step I t es := by
  intro fs s' hf hr
  refine h (e :: fs) s' (List.cons_prefix_cons.mpr ⟨rfl, hf⟩) ?_
  rw [run_cons, hs]
  exact hr

/-- The states of one run, tested one after the other. -/
def check (step : σ → ε → Option σ) (J : σ → Bool) (s : σ) : List ε → Bool
  | [] => J s
  | e :: es => J s && (step s e).all fun t ↦ check step J t es

theorem throughout_of_check {J : σ → Bool} {s : σ} {es : List ε}
    (h : check step J s es = true) : Throughout step (J · = true) s es := by
  induction es generalizing s with
  | nil =>
      intro fs s' hf hr
      rw [List.prefix_nil] at hf
      subst hf
      cases hr
      exact h
  | cons e es ih =>
      rw [check, Bool.and_eq_true] at h
      intro fs s' hf hr
      cases fs with
      | nil =>
          cases hr
          exact h.1
      | cons f fs =>
          obtain ⟨rfl, hfs⟩ := List.cons_prefix_cons.mp hf
          obtain ⟨t, ht, hr⟩ := run_cons_eq_some.mp hr
          rw [ht] at h
          exact ih h.2 fs s' hfs hr

theorem Throughout.mono {I J : σ → Prop} {s : σ} {es : List ε} (h : Throughout step I s es)
    (hij : ∀ t, I t → J t) : Throughout step J s es :=
  fun fs s' hf hr ↦ hij s' (h fs s' hf hr)

/-- What holds of every state of a run holds of the state that each step leads to. -/
theorem Throughout.along {I : σ → Prop} {s : σ} {es : List ε} (h : Throughout step I s es) :
    Along step (fun t e ↦ ∀ t', step t e = some t' → I t') s es := by
  induction es generalizing s with
  | nil => exact trivial
  | cons e es ih =>
      refine ⟨?_, ?_⟩
      · intro t ht
        exact (h.tail ht).first
      · intro t ht
        exact ih (h.tail ht)

/-- The induction rule of a run whose steps all meet a side condition. -/
theorem run_invariant_along {I : σ → Prop} {P : σ → ε → Prop}
    (hstep : ∀ s e s', I s → P s e → step s e = some s' → I s')
    {s s' : σ} {es : List ε} (hi : I s) (hp : Along step P s es)
    (hr : run step s es = some s') : I s' := by
  induction es generalizing s with
  | nil => cases hr; exact hi
  | cons e es ih =>
      obtain ⟨t, ht, hr⟩ := run_cons_eq_some.mp hr
      exact ih (hstep s e t hi hp.1 ht) (hp.2 t ht) hr

/-- The induction rule of a run. -/
theorem run_invariant {I : σ → Prop} (hstep : ∀ s e s', I s → step s e = some s' → I s')
    {s s' : σ} {es : List ε} (hi : I s) (hr : run step s es = some s') : I s' := by
  induction es generalizing s with
  | nil => cases hr; exact hi
  | cons e es ih =>
      obtain ⟨t, ht, hr⟩ := run_cons_eq_some.mp hr
      exact ih (hstep s e t hi ht) hr

/-- A side condition carries over along a run when an invariant makes it imply the other. -/
theorem Along.imp {I : σ → Prop} {P Q : σ → ε → Prop}
    (hstep : ∀ s e s', I s → P s e → step s e = some s' → I s')
    (hpq : ∀ s e, I s → P s e → Q s e) {s : σ} {es : List ε} (hi : I s)
    (hp : Along step P s es) : Along step Q s es := by
  induction es generalizing s with
  | nil => exact trivial
  | cons e es ih =>
      refine ⟨hpq s e hi hp.1, ?_⟩
      intro t ht
      exact ih (hstep s e t hi hp.1 ht) (hp.2 t ht)

/-- A property of states fails in a run exactly when the run takes one of the steps that break it:
any other step keeps the invariant behind the property, and a breaking step is always possible and
leads to a state without it. -/
theorem throughout_iff_along {I J : σ → Prop} {Bad : σ → ε → Prop} (hij : ∀ s, I s → J s)
    (hgood : ∀ s e s', I s → ¬ Bad s e → step s e = some s' → I s')
    (hbad : ∀ s e, I s → Bad s e → ∃ t, step s e = some t ∧ ¬ J t) {s : σ} (es : List ε)
    (hi : I s) :
    Throughout step J s es ↔ Along step (fun t e ↦ ¬ Bad t e) s es := by
  -- on the events: a breaking step refutes `J` in the state right after it, and up to the first
  -- one the invariant carries `J`
  induction es generalizing s with
  | nil =>
      constructor
      · intro _
        exact trivial
      · intro _ fs t hf hr
        rw [List.prefix_nil] at hf
        subst hf
        cases hr
        exact hij s hi
  | cons e es ih =>
      constructor
      · intro h
        have hnot : ¬ Bad s e := by
          intro hb
          obtain ⟨t, ht, hlost⟩ := hbad s e hi hb
          exact hlost (h.tail ht).first
        refine ⟨hnot, ?_⟩
        intro t ht
        exact (ih (hgood s e t hi hnot ht)).mp (h.tail ht)
      · rintro ⟨hnot, hrest⟩ fs t hf hr
        cases fs with
        | nil =>
            cases hr
            exact hij s hi
        | cons f fs =>
            obtain ⟨rfl, hfs⟩ := List.cons_prefix_cons.mp hf
            obtain ⟨u, hu, hr⟩ := run_cons_eq_some.mp hr
            exact (ih (hgood s f u hi hnot hu)).mpr (hrest u hu) fs t hfs hr

/-! ## Total operations that answer -/

section Replay

variable {τ β : Type*}

/-- The state after the operations `es`, and what each of them answered. -/
def replay (f : σ → ε → σ × β) : σ → List ε → σ × List β
  | s, [] => (s, [])
  | s, e :: es => ((replay f (f s e).1 es).1, (f s e).2 :: (replay f (f s e).1 es).2)

/-- Every one of the operations `es` is used within its contract `P`. -/
def Admitted (f : σ → ε → σ × β) (P : σ → ε → Prop) : σ → List ε → Prop
  | _, [] => True
  | s, e :: es => P s e ∧ Admitted f P (f s e).1 es

/-- Refinement by a forward simulation: operations that agree step by step, on related states and
within the contract, agree over every sequence. -/
theorem replay_refines {f : σ → ε → σ × β} {g : τ → ε → τ × β} {R : σ → τ → Prop}
    {P : τ → ε → Prop}
    (hstep : ∀ s t e, R s t → P t e → R (f s e).1 (g t e).1 ∧ (f s e).2 = (g t e).2)
    {s : σ} {t : τ} {es : List ε} (hr : R s t) (hp : Admitted g P t es) :
    R (replay f s es).1 (replay g t es).1 ∧ (replay f s es).2 = (replay g t es).2 := by
  induction es generalizing s t with
  | nil => exact ⟨hr, rfl⟩
  | cons e es ih =>
      -- the contract is the abstract machine's, so it is followed along the abstract states
      obtain ⟨hnext, hans⟩ := hstep s t e hr hp.1
      obtain ⟨hrest, hrans⟩ := ih hnext hp.2
      refine ⟨hrest, ?_⟩
      simp only [replay]
      rw [hans, hrans]

end Replay

end Transition
