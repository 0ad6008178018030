import Mathlib.Data.Set.Basic
import IomemoryVsl.Lib.Monitor
import IomemoryVsl.Lib.Run

/-!
# State variables (`state.c`, `port/state.h`)

A state variable is a `uint32_t` with a lock and a condition variable.  Each function of the source
takes the lock, decides from the state alone what to do, and releases the lock; `critical` is what
each of them does in between, and the monitor of `Lib.Monitor` puts the lock, the store, the
broadcast and the sleep around it.
-/

namespace IomemoryVsl.Port

open Transition Monitor

structure FioStateArc where
  statesFromMask : UInt32
  stateTo : Int16
  arcNum : Int16
  deriving DecidableEq

def stateArcNotfound : Int16 := -1

def fioStateSame : Int16 := -1

def stateM1 (a : UInt32) : UInt32 := 1 <<< a

/-- What a call gives back. -/
inductive FioReturn where
  | void
  | state (oldState : UInt32)
  /-- the return value of a transition, and what was stored in `*old_state` -/
  | moved (retval : Int32) (oldState : Option UInt32)
  | arc (arcNum : Int32)
  deriving DecidableEq

/-- `__fio_set_state_locked`, on the way to the return of `r` -/
def fioSetStateLocked (state new : UInt32) (r : FioReturn) : Outcome UInt32 FioReturn :=
  if state ≠ new then .update new r
  -- neither stored nor broadcast
  else .leave r

def fioStateInOneOf (curState : UInt32) : List UInt32 → Bool
  | [] => false
  | state :: ap => if curState = state then true else fioStateInOneOf curState ap

def fioSetState (state new : UInt32) : Outcome UInt32 FioReturn :=
  fioSetStateLocked state new (.state state)

def fioTransitionStateVa (state : UInt32) (wantsOld : Bool) (new : UInt32) (ap : List UInt32) :
    Outcome UInt32 FioReturn :=
  let oldState := if wantsOld then some state else none
  if ap.length = 0 then
    if state = new then .leave (.moved 0 oldState)
    else fioSetStateLocked state new (.moved 1 oldState)
  else if fioStateInOneOf state ap ≠ true then .leave (.moved 0 oldState)
  -- `new` may be among the states in `ap`, and then the state stays
  else fioSetStateLocked state new (.moved 1 oldState)

def fioWaitOnState (state waitOn : UInt32) : Outcome UInt32 FioReturn :=
  if state ≠ waitOn then .sleep else .keep .void

def fioWaitOnStates (state : UInt32) (ap : List UInt32) : Outcome UInt32 FioReturn :=
  -- the unlock is left to the caller, who uses `fio_unlock_state`
  if fioStateInOneOf state ap then .keep .void else .sleep

def fioStateUp (state : UInt32) : Outcome UInt32 FioReturn :=
  fioSetStateLocked state (state + 1) .void

def fioStateDown (state : UInt32) : Outcome UInt32 FioReturn :=
  fioSetStateLocked state (state - 1) .void

/-- The loop of `fio_state_transition`. -/
def findArc (stateMask : UInt32) : List FioStateArc → Option FioStateArc
  | [] => none
  | arc :: arcs =>
      -- the table ends with this number
      if arc.arcNum = stateArcNotfound then none
      else if stateMask &&& arc.statesFromMask ≠ 0 then some arc
      else findArc stateMask arcs

def fioStateTransition (state : UInt32) (arcs : List FioStateArc)
    (arcAction : Option (Int32 → Int32)) : Outcome UInt32 FioReturn :=
  -- the handler runs under the lock, and only its return value is used
  let finish (arcNum : Int16) : FioReturn :=
    match arcAction with
    | some action => .arc (action arcNum.toInt32)
    | none => .arc arcNum.toInt32
  match findArc (stateM1 state) arcs with
  | none => .leave (finish stateArcNotfound)
  | some arc =>
      -- -1 stands for no change; any other negative number is stored sign-extended
      if arc.stateTo ≠ fioStateSame then
        fioSetStateLocked state arc.stateTo.toInt32.toUInt32 (finish arc.arcNum)
      else .leave (finish arc.arcNum)

inductive FioCall where
  | setState (new : UInt32)
  | transitionVa (wantsOld : Bool) (new : UInt32) (ap : List UInt32)
  | up
  | down
  | arcTransition (arcs : List FioStateArc) (arcAction : Option (Int32 → Int32))
  | waitOnState (waitOn : UInt32)
  | waitOnStates (ap : List UInt32)

/-- `fio_transition_state` does not ask for the old state. -/
def FioCall.transition (new : UInt32) (ap : List UInt32) : FioCall :=
  .transitionVa false new ap

def critical : FioCall → UInt32 → Outcome UInt32 FioReturn
  | .setState new, state => fioSetState state new
  | .transitionVa wantsOld new ap, state => fioTransitionStateVa state wantsOld new ap
  | .up, state => fioStateUp state
  | .down, state => fioStateDown state
  | .arcTransition arcs arcAction, state => fioStateTransition state arcs arcAction
  | .waitOnState waitOn, state => fioWaitOnState state waitOn
  | .waitOnStates ap, state => fioWaitOnStates state ap

/-- A state variable with the threads that use it, after `fio_init_state`. -/
abbrev FioState (τ : Type*) := Monitor.State τ FioCall UInt32 FioReturn

/-! ## What the critical sections decide -/

theorem fioStateInOneOf_iff (state : UInt32) (ap : List UInt32) :
    fioStateInOneOf state ap = true ↔ state ∈ ap := by
  induction ap with
  | nil => simp [fioStateInOneOf]
  | cons x ap ih =>
      unfold fioStateInOneOf
      by_cases h : state = x
      · rw [if_pos h, h]
        exact ⟨fun _ ↦ List.mem_cons_self, fun _ ↦ rfl⟩
      · rw [if_neg h, ih, List.mem_cons]
        exact ⟨Or.inr, fun hm ↦ hm.resolve_left h⟩

/-- Whatever the branch, the state is the new one afterwards. -/
theorem fioSetStateLocked_allows {state new after : UInt32} {r r' : FioReturn}
    (h : (fioSetStateLocked state new r).Allows state after r') : r' = r ∧ after = new := by
  unfold fioSetStateLocked at h
  by_cases hne : state ≠ new
  · rw [if_pos hne] at h
    rcases h with ⟨h, -⟩ | ⟨h, -⟩ | h
    · cases h
    · cases h
    · cases h
      exact ⟨rfl, rfl⟩
  · rw [if_neg hne] at h
    rcases h with ⟨h, -⟩ | ⟨h, hafter⟩ | h
    · cases h
    · cases h
      rw [hafter]
      exact ⟨rfl, not_ne_iff.mp hne⟩
    · cases h

theorem leave_allows {state after : UInt32} {r r' : FioReturn}
    (h : (Outcome.leave r : Outcome UInt32 FioReturn).Allows state after r') :
    r' = r ∧ after = state := by
  rcases h with ⟨h, -⟩ | ⟨h, hafter⟩ | h
  · cases h
  · cases h
    exact ⟨rfl, hafter⟩
  · cases h

/-- The states from which a transition with the list `ap` is allowed. -/
def allowedFrom (new : UInt32) (ap : List UInt32) : Set UInt32 :=
  { state | ap ≠ [] ∧ state ∈ ap ∨ ap = [] ∧ state ≠ new }

/-- A transition returns 1 and leaves the new state behind, or returns 0 and changes nothing, and
the old state is the one it found. -/
def Transitions (wantsOld : Bool) (new : UInt32) (ap : List UInt32) (before after : UInt32)
    (r : FioReturn) : Prop :=
  (r = .moved 1 (if wantsOld then some before else none) ∧ before ∈ allowedFrom new ap ∧
      after = new) ∨
    (r = .moved 0 (if wantsOld then some before else none) ∧ before ∉ allowedFrom new ap ∧
      after = before)

theorem transitions_of_allows {wantsOld : Bool} {new before after : UInt32} {ap : List UInt32}
    {r : FioReturn} (h : (fioTransitionStateVa before wantsOld new ap).Allows before after r) :
    Transitions wantsOld new ap before after r := by
  unfold fioTransitionStateVa at h
  by_cases hnil : ap.length = 0
  · have hap : ap = [] := List.length_eq_zero_iff.mp hnil
    rw [if_pos hnil] at h
    by_cases hnew : before = new
    · rw [if_pos hnew] at h
      obtain ⟨hr, hafter⟩ := leave_allows h
      refine Or.inr ⟨hr, ?_, hafter⟩
      rintro (⟨hne, -⟩ | ⟨-, hne⟩)
      · exact hne hap
      · exact hne hnew
    · rw [if_neg hnew] at h
      obtain ⟨hr, hafter⟩ := fioSetStateLocked_allows h
      exact Or.inl ⟨hr, Or.inr ⟨hap, hnew⟩, hafter⟩
  · have hap : ap ≠ [] := fun hap ↦ hnil (List.length_eq_zero_iff.mpr hap)
    rw [if_neg hnil] at h
    by_cases hone : fioStateInOneOf before ap ≠ true
    · rw [if_pos hone] at h
      obtain ⟨hr, hafter⟩ := leave_allows h
      refine Or.inr ⟨hr, ?_, hafter⟩
      rintro (⟨-, hmem⟩ | ⟨hnil', -⟩)
      · exact hone ((fioStateInOneOf_iff before ap).mpr hmem)
      · exact hap hnil'
    · rw [if_neg hone] at h
      obtain ⟨hr, hafter⟩ := fioSetStateLocked_allows h
      have hmem := (fioStateInOneOf_iff before ap).mp (not_ne_iff.mp hone)
      exact Or.inl ⟨hr, Or.inl ⟨hap, hmem⟩, hafter⟩

/-- A successful transition found an allowed state and left the new one. -/
theorem Transitions.success {wantsOld : Bool} {new before after : UInt32} {ap : List UInt32}
    {o : Option UInt32} (h : Transitions wantsOld new ap before after (.moved 1 o)) :
    before ∈ allowedFrom new ap ∧ after = new := by
  rcases h with ⟨-, hfrom, hafter⟩ | ⟨hr, -, -⟩
  · exact ⟨hfrom, hafter⟩
  · injection hr with hone
    exact absurd hone (by decide)

/-! ## Waiting -/

/-- The call waits for the state. -/
def FioCall.WaitsFor : FioCall → UInt32 → Prop
  | .waitOnState waitOn, state => state = waitOn
  | .waitOnStates ap, state => state ∈ ap
  | _, _ => False

def FioCall.isWait : FioCall → Bool
  | .waitOnState _ | .waitOnStates _ => true
  | _ => false

/-- What a wait decides. -/
theorem wait_cases {c : FioCall} (state : UInt32) (hwait : c.isWait = true) :
    critical c state = .keep .void ∧ c.WaitsFor state ∨
      critical c state = .sleep ∧ ¬ c.WaitsFor state := by
  cases c with
  | waitOnState waitOn =>
      show fioWaitOnState state waitOn = _ ∧ _ ∨ fioWaitOnState state waitOn = _ ∧ _
      unfold fioWaitOnState
      by_cases hne : state ≠ waitOn
      · rw [if_pos hne]
        exact Or.inr ⟨rfl, hne⟩
      · rw [if_neg hne]
        exact Or.inl ⟨rfl, not_ne_iff.mp hne⟩
  | waitOnStates ap =>
      show fioWaitOnStates state ap = _ ∧ _ ∨ fioWaitOnStates state ap = _ ∧ _
      unfold fioWaitOnStates
      by_cases hone : fioStateInOneOf state ap = true
      · rw [if_pos hone]
        exact Or.inl ⟨rfl, (fioStateInOneOf_iff state ap).mp hone⟩
      · rw [if_neg hone]
        refine Or.inr ⟨rfl, ?_⟩
        intro hmem
        exact hone ((fioStateInOneOf_iff state ap).mpr hmem)
  | _ => cases hwait

theorem FioCall.WaitsFor.isWait {c : FioCall} {state : UInt32} (h : c.WaitsFor state) :
    c.isWait = true := by
  cases c with
  | waitOnState waitOn => rfl
  | waitOnStates ap => rfl
  | _ => exact h.elim

/-- A wait that sleeps does not want the state. -/
theorem not_waitsFor_of_sleep {c : FioCall} {state : UInt32} (h : critical c state = .sleep) :
    ¬ c.WaitsFor state := by
  intro hwants
  rcases wait_cases state hwants.isWait with ⟨hkeep, -⟩ | ⟨-, hnot⟩
  · rw [h] at hkeep
    cases hkeep
  · exact hnot hwants

/-- A wait that returns with the lock held wants the state. -/
theorem waitsFor_of_keep {c : FioCall} {state : UInt32} {r : FioReturn}
    (hwait : c.isWait = true) (h : critical c state = .keep r) : c.WaitsFor state := by
  rcases wait_cases state hwait with ⟨-, hwants⟩ | ⟨hsleep, -⟩
  · exact hwants
  · rw [h] at hsleep
    cases hsleep

theorem not_releases_of_isWait {c : FioCall} {state : UInt32} {r : FioReturn}
    (hwait : c.isWait = true) : ¬ (critical c state).Releases r := by
  rcases wait_cases state hwait with ⟨h, -⟩ | ⟨h, -⟩
  · rw [h]
    rintro (h' | ⟨v, h'⟩) <;> cases h'
  · rw [h]
    rintro (h' | ⟨v, h'⟩) <;> cases h'

/-! ## Every run -/

variable {τ : Type*} [DecidableEq τ] {v₀ : UInt32} {s : FioState τ}
  {es : List (Event τ FioCall)}

theorem reachable_inv (hr : run (step critical) (initial v₀) es = some s) : Inv critical v₀ s :=
  run_invariant inv_step (initial_inv v₀) hr

/-- No wake-up is lost, and a wait returns with the lock held and in a state it asked for. -/
theorem fio_state_no_lost_wakeup (hr : run (step critical) (initial v₀) es = some s) :
    (s.lock = none → ∀ t c v, s.pcs t = .asleep c → c.WaitsFor v → v ≠ s.value) ∧
      (∀ e s' os t c r, step critical s e = some s' → s'.trace = s.trace ++ os →
        .ret t c r ∈ os → c.isWait = true → s'.lock = some t ∧ c.WaitsFor s'.value) ∧
      ∀ t c r, s.pcs t = .waited c r → c.isWait = true →
        s.lock = some t ∧ c.WaitsFor s.value := by
  have hi := reachable_inv hr
  -- whoever has returned from a wait still sees the value that let it return
  have hwaited : ∀ s' : FioState τ, Inv critical v₀ s' → ∀ t c r, s'.pcs t = .waited c r →
      c.isWait = true → s'.lock = some t ∧ c.WaitsFor s'.value := by
    intro s' hi' t c r hpc hwait
    obtain ⟨hlock, hkeep⟩ := hi'.waited hpc
    exact ⟨hlock, waitsFor_of_keep hwait hkeep⟩
  refine ⟨?_, ?_, hwaited s hi⟩
  · intro hlock t c v hpc hwants hv
    subst hv
    exact not_waitsFor_of_sleep (hi.asleep_of_free hlock hpc) hwants
  · intro e s' os t c r hstep htrace hmem hwait
    rcases hi.ret_of_step hstep htrace hmem with hpc | ⟨v, hv⟩
    · exact hwaited s' (inv_step s e s' hi hstep) t c r hpc hwait
    · exact absurd hv (not_releases_of_isWait hwait)

/-- A waiter is woken by a store that is not the one it waits for. -/
def wokenInVain : List (Event Nat FioCall) :=
  [.invoke 0 (.waitOnState 3), .acquire 0, .test 0, .sleep 0,
    .invoke 1 (.setState 2), .acquire 1, .test 1, .store 1, .broadcast 1, .unlock 1,
    .acquire 0, .test 0, .sleep 0]

theorem fio_state_no_lost_wakeup_in_vain :
    ∃ s : FioState Nat, run (step critical) (initial 1) wokenInVain = some s ∧
      s.pcs 0 = .asleep (.waitOnState 3) ∧
      ∀ v, FioCall.WaitsFor (.waitOnState 3) v → v ≠ s.value := by
  have hsome : (run (step critical) (initial 1) wokenInVain).isSome = true := rfl
  have hr := (Option.some_get hsome).symm
  have hasleep : ((run (step critical) (initial 1) wokenInVain).get hsome).pcs 0 =
      .asleep (.waitOnState 3) := rfl
  refine ⟨_, hr, hasleep, ?_⟩
  intro v hv
  exact (fio_state_no_lost_wakeup hr).1 rfl 0 _ v hasleep hv

/-- Transitions and stores are linearizable at their critical sections, and of the transitions that
leave a set of states for the same new state one succeeds, until something brings the set back. -/
theorem fio_transition_state_linearizable
    (hr : run (step critical) (initial v₀) es = some s) :
    (∀ t, Follows t .idle s.trace (s.pcs t).status) ∧ Replays critical v₀ s.trace s.value ∧
      (∀ t wantsOld new ap before after r,
        .lin t (.transitionVa wantsOld new ap) before after r ∈ s.trace →
          Transitions wantsOld new ap before after r) ∧
      (∀ t new before after r, .lin t (.setState new) before after r ∈ s.trace →
        r = .state before ∧ after = new) ∧
      ∀ (S : Set UInt32) (new : UInt32) (os ps qs) (t t' w w' ap ap' b a b' a' o o'),
        s.trace = os ++ .lin t (.transitionVa w new ap) b a (.moved 1 o) ::
          (ps ++ .lin t' (.transitionVa w' new ap') b' a' (.moved 1 o') :: qs) →
        new ∉ S → allowedFrom new ap ⊆ S → allowedFrom new ap' ⊆ S →
          ∃ u c x y r, .lin u c x y r ∈ ps ∧ x ∉ S ∧ y ∈ S := by
  have hi := reachable_inv hr
  have htransition : ∀ t wantsOld new ap before after r,
      .lin t (.transitionVa wantsOld new ap) before after r ∈ s.trace →
        Transitions wantsOld new ap before after r := by
    intro t wantsOld new ap before after r hmem
    exact transitions_of_allows (hi.replays.allows hmem)
  refine ⟨hi.follows, hi.replays, htransition, ?_, ?_⟩
  · intro t new before after r hmem
    exact fioSetStateLocked_allows (hi.replays.allows hmem)
  · intro S new os ps qs t t' w w' ap ap' b a b' a' o o' htrace hnew hap hap'
    have hfirst := htransition t w new ap b a (.moved 1 o) (by rw [htrace]; simp)
    have hsecond := htransition t' w' new ap' b' a' (.moved 1 o') (by rw [htrace]; simp)
    have hreplays := hi.replays
    rw [htrace] at hreplays
    -- the first leaves the set, and the second finds the state in it
    apply hreplays.between
    · rw [hfirst.success.2]
      exact hnew
    · exact hap' hsecond.success.1

/-- Two transitions to the same state, of which the first to be invoked is the second to get the
lock. -/
def racingTransitions : List (Event Nat FioCall) :=
  [.invoke 0 (.transition 2 [1, 3]), .invoke 1 (.transitionVa true 2 [1]),
    .acquire 1, .test 1, .store 1, .broadcast 1, .unlock 1, .acquire 0, .test 0, .unlock 0]

theorem fio_transition_state_linearizable_race :
    ∃ s : FioState Nat, run (step critical) (initial 1) racingTransitions = some s ∧
      .lin 1 (.transitionVa true 2 [1]) 1 2 (.moved 1 (some 1)) ∈ s.trace ∧
      Transitions true 2 [1] 1 2 (.moved 1 (some 1)) ∧
      .lin 0 (.transition 2 [1, 3]) 2 2 (.moved 0 none) ∈ s.trace ∧
      Transitions false 2 [1, 3] 2 2 (.moved 0 none) := by
  have hsome : (run (step critical) (initial 1) racingTransitions).isSome = true := rfl
  have hr := (Option.some_get hsome).symm
  have htrace : ((run (step critical) (initial 1) racingTransitions).get hsome).trace =
      [.inv 0 (.transition 2 [1, 3]), .inv 1 (.transitionVa true 2 [1]),
        .lin 1 (.transitionVa true 2 [1]) 1 2 (.moved 1 (some 1)),
        .ret 1 (.transitionVa true 2 [1]) (.moved 1 (some 1)),
        .lin 0 (.transition 2 [1, 3]) 2 2 (.moved 0 none),
        .ret 0 (.transition 2 [1, 3]) (.moved 0 none)] := rfl
  have hwinner : .lin 1 (.transitionVa true 2 [1]) 1 2 (.moved 1 (some 1)) ∈
      ((run (step critical) (initial 1) racingTransitions).get hsome).trace := by
    rw [htrace]
    simp
  have hloser : .lin 0 (.transition 2 [1, 3]) 2 2 (.moved 0 none) ∈
      ((run (step critical) (initial 1) racingTransitions).get hsome).trace := by
    rw [htrace]
    simp
  obtain ⟨-, -, htransition, -, -⟩ := fio_transition_state_linearizable hr
  exact ⟨_, hr, hwinner, htransition _ _ _ _ _ _ _ hwinner, hloser,
    htransition _ _ _ _ _ _ _ hloser⟩

end IomemoryVsl.Port
