import IomemoryVsl.Port.State
import Mathlib.Data.List.TakeWhile
import Mathlib.Data.Nat.Bitwise

/-!
# Transitions by arc tables (`state.c`, `port/state.h`)

What calls of `fio_state_transition` alone can make of a state variable: the tables decide from
which states they lead anywhere, and to which.
-/

namespace IomemoryVsl.Port

open Transition Monitor

def fioStateInvalid : UInt32 := 0

/-- `STATE_MASK_ANY`, every bit but that of `FIO_STATE_INVALID`. -/
def stateMaskAny : UInt32 := (~~~(0 : UInt64)).toUInt32 ^^^ 1

/-- The arcs of a table, up to the one that ends it. -/
def tableArcs (arcs : List FioStateArc) : List FioStateArc :=
  arcs.takeWhile fun arc ↦ arc.arcNum ≠ stateArcNotfound

/-- The arc leads nowhere, or to a state in 1..31. -/
def FioStateArc.StaysInRange (arc : FioStateArc) : Prop :=
  arc.stateTo = fioStateSame ∨ 1 ≤ arc.stateTo ∧ arc.stateTo ≤ 31

/-- The call goes through one of the tables. -/
def FioCall.Over (tables : Set (List FioStateArc)) (c : FioCall) : Prop :=
  ∃ arcs ∈ tables, ∃ arcAction, c = .arcTransition arcs arcAction

/-! ## What one call stores -/

theorem findArc_mem {stateMask : UInt32} {arcs : List FioStateArc} {arc : FioStateArc}
    (h : findArc stateMask arcs = some arc) :
    arc ∈ tableArcs arcs ∧ stateMask &&& arc.statesFromMask ≠ 0 := by
  unfold tableArcs
  induction arcs with
  | nil => cases h
  | cons a arcs ih =>
      rw [findArc] at h
      by_cases hend : a.arcNum = stateArcNotfound
      · rw [if_pos hend] at h
        cases h
      · rw [if_neg hend] at h
        rw [List.takeWhile_cons, if_pos (decide_eq_true hend)]
        by_cases hmask : stateMask &&& a.statesFromMask ≠ 0
        · rw [if_pos hmask, Option.some.injEq] at h
          subst h
          exact ⟨List.mem_cons_self, hmask⟩
        · rw [if_neg hmask] at h
          exact ⟨List.mem_cons_of_mem _ (ih h).1, (ih h).2⟩

/-- A call stores a state only as the target of an arc that leads out of the current one. -/
theorem fioStateTransition_update {state new : UInt32} {arcs : List FioStateArc}
    {arcAction : Option (Int32 → Int32)} {r : FioReturn}
    (h : fioStateTransition state arcs arcAction = .update new r) :
    ∃ arc ∈ tableArcs arcs, stateM1 state &&& arc.statesFromMask ≠ 0 ∧
      arc.stateTo ≠ fioStateSame ∧ new = arc.stateTo.toInt32.toUInt32 := by
  unfold fioStateTransition at h
  dsimp only at h
  cases hfind : findArc (stateM1 state) arcs with
  | none => rw [hfind] at h; cases h
  | some arc =>
      obtain ⟨hmem, hmask⟩ := findArc_mem hfind
      rw [hfind] at h
      dsimp only at h
      by_cases hsame : arc.stateTo ≠ fioStateSame
      · rw [if_pos hsame] at h
        unfold fioSetStateLocked at h
        by_cases hne : state ≠ arc.stateTo.toInt32.toUInt32
        · rw [if_pos hne] at h
          cases h
          exact ⟨arc, hmem, hmask, hsame, rfl⟩
        · rw [if_neg hne] at h
          cases h
      · rw [if_neg hsame] at h
        cases h

/-- A target in 1..31 is stored as it stands. -/
theorem toUInt32_inRange {target : Int16} (hlo : 1 ≤ target) (hhi : target ≤ 31) :
    1 ≤ target.toInt32.toUInt32 ∧ target.toInt32.toUInt32 ≤ 31 := by
  have hlo' : 1 ≤ target.toInt := Int16.le_iff_toInt_le.mp hlo
  have hhi' : target.toInt ≤ 31 := Int16.le_iff_toInt_le.mp hhi
  have hpos : 0 ≤ target.toInt32 := by
    rw [Int32.le_iff_toInt_le, Int16.toInt_toInt32]
    show 0 ≤ target.toInt
    omega
  have hnat : target.toInt32.toUInt32.toNat = target.toInt.toNat := by
    rw [Int32.toNat_toUInt32_of_le hpos]
    show target.toInt32.toInt.toNat = _
    rw [Int16.toInt_toInt32]
  rw [UInt32.le_iff_toNat_le, UInt32.le_iff_toNat_le, hnat]
  show 1 ≤ target.toInt.toNat ∧ target.toInt.toNat ≤ 31
  omega

/-- No mask within `STATE_MASK_ANY` covers `FIO_STATE_INVALID`. -/
theorem invalid_not_covered {mask : UInt32} (hmask : mask &&& stateMaskAny = mask) :
    stateM1 fioStateInvalid &&& mask = 0 := by
  have hzero : stateMaskAny &&& stateM1 fioStateInvalid = 0 := by decide
  rw [UInt32.and_comm, ← hmask, UInt32.and_assoc, hzero, UInt32.and_zero]

/-! ## Every run -/

variable {τ : Type*} [DecidableEq τ] {v₀ : UInt32} {s : FioState τ}
  {es : List (Event τ FioCall)}

/-- What the trace of a run shows as invoked is an event of the run. -/
theorem invoked_of_run {s₀ : FioState τ} (hr : run (step critical) s₀ es = some s) {t : τ}
    {c : FioCall} (hmem : .inv t c ∈ s.trace) : .inv t c ∈ s₀.trace ∨ .invoke t c ∈ es := by
  induction es generalizing s₀ with
  | nil => cases hr; exact Or.inl hmem
  | cons e es ih =>
      obtain ⟨s₁, hstep, hrest⟩ := run_cons_eq_some.mp hr
      rcases ih hrest with htrace | hevent
      · rcases invoked_of_step hstep htrace with hbefore | hinvoke
        · exact Or.inl hbefore
        · exact Or.inr (hinvoke ▸ List.mem_cons_self)
      · exact Or.inr (List.mem_cons_of_mem _ hevent)

/-- The states that a run of calls over the tables reaches, when no arc leads out of `S`. -/
theorem tables_stay {tables : Set (List FioStateArc)} {S : UInt32 → Prop}
    (hkeep : ∀ arcs ∈ tables, ∀ arc ∈ tableArcs arcs, ∀ state, S state →
      stateM1 state &&& arc.statesFromMask ≠ 0 → arc.stateTo ≠ fioStateSame →
        S arc.stateTo.toInt32.toUInt32)
    (hcalls : ∀ t c, .invoke t c ∈ es → c.Over tables)
    (hr : run (step critical) (initial v₀) es = some s) (hv : S v₀) : S s.value := by
  refine (reachable_inv hr).stays (C := FioCall.Over tables) ?_ ?_ hv
  · rintro c state new r ⟨arcs, harcs, arcAction, rfl⟩ hstate hupdate
    obtain ⟨arc, harc, hmask, hsame, rfl⟩ := fioStateTransition_update hupdate
    exact hkeep arcs harcs arc harc state hstate hmask hsame
  · intro t c hinv
    rcases invoked_of_run hr hinv with hnone | hevent
    · cases hnone
    · exact hcalls t c hevent

/-- Calls over tables whose targets are in 1..31 keep the state there, whatever their masks are and
however the calls interleave; calls over tables whose masks leave out `FIO_STATE_INVALID` never take
a state variable out of it. -/
theorem fio_state_transition_confined (tables : Set (List FioStateArc))
    (hcalls : ∀ t c, .invoke t c ∈ es → c.Over tables)
    (hr : run (step critical) (initial v₀) es = some s) :
    ((∀ arcs ∈ tables, ∀ arc ∈ tableArcs arcs, arc.StaysInRange) → 1 ≤ v₀ → v₀ ≤ 31 →
        s.value ≠ fioStateInvalid ∧ 1 ≤ s.value ∧ s.value ≤ 31) ∧
      ((∀ arcs ∈ tables, ∀ arc ∈ tableArcs arcs,
          arc.statesFromMask &&& stateMaskAny = arc.statesFromMask) →
        v₀ = fioStateInvalid → s.value = fioStateInvalid) := by
  constructor
  · intro htables hlo hhi
    have hrange : 1 ≤ s.value ∧ s.value ≤ 31 := by
      refine tables_stay (S := fun v ↦ 1 ≤ v ∧ v ≤ 31) ?_ hcalls hr ⟨hlo, hhi⟩
      intro arcs harcs arc harc state _ _ hsame
      obtain ⟨hfrom, hto⟩ := (htables arcs harcs arc harc).resolve_left hsame
      exact toUInt32_inRange hfrom hto
    refine ⟨?_, hrange⟩
    intro hinvalid
    rw [hinvalid] at hrange
    exact absurd hrange.1 (by decide)
  · intro htables hinvalid
    refine tables_stay (S := fun v ↦ v = fioStateInvalid) ?_ hcalls hr hinvalid
    intro arcs harcs arc harc state hstate hmask
    rw [hstate] at hmask
    exact absurd (invalid_not_covered (htables arcs harcs arc harc)) hmask

/-! Two threads walk a state variable from 1 to 2 and on to 31. -/

def sampleArcs : List FioStateArc := [⟨stateM1 1, 2, 0⟩, ⟨stateM1 2, 31, 1⟩, ⟨0, 0, -1⟩]

def sampleTransitions : List (Event Nat FioCall) :=
  [.invoke 0 (.arcTransition sampleArcs none), .invoke 1 (.arcTransition sampleArcs none),
    .acquire 1, .test 1, .store 1, .broadcast 1, .unlock 1,
    .acquire 0, .test 0, .store 0, .broadcast 0, .unlock 0]

theorem fio_state_transition_confined_sample :
    ∃ s : FioState Nat, run (step critical) (initial 1) sampleTransitions = some s ∧
      s.value = 31 ∧ s.value ≠ fioStateInvalid ∧ 1 ≤ s.value ∧ s.value ≤ 31 := by
  have hsome : (run (step critical) (initial 1) sampleTransitions).isSome = true := rfl
  have hr := (Option.some_get hsome).symm
  refine ⟨_, hr, rfl, (fio_state_transition_confined {sampleArcs} ?_ hr).1 ?_ ?_ ?_⟩
  · intro t c hmem
    refine ⟨sampleArcs, rfl, none, ?_⟩
    simp [sampleTransitions] at hmem
    rcases hmem with ⟨-, hc⟩ | ⟨-, hc⟩ <;> exact hc
  · rintro arcs rfl arc harc
    have hmem : arc ∈ [(⟨stateM1 1, 2, 0⟩ : FioStateArc), ⟨stateM1 2, 31, 1⟩] := harc
    simp only [List.mem_cons, List.not_mem_nil, or_false] at hmem
    rcases hmem with rfl | rfl
    · exact Or.inr ⟨by decide, by decide⟩
    · exact Or.inr ⟨by decide, by decide⟩
  · decide
  · decide

/-! ## Which arc fires -/

/-- The mask of the arc has the bit of the state; no mask has a bit from 32 on. -/
def FioStateArc.LeavesFrom (arc : FioStateArc) (state : ℕ) : Prop :=
  arc.statesFromMask.toNat.testBit state = true

instance (arc : FioStateArc) (state : ℕ) : Decidable (arc.LeavesFrom state) :=
  inferInstanceAs (Decidable (_ = true))

def firstArc (arcs : List FioStateArc) (state : ℕ) : Option FioStateArc :=
  (tableArcs arcs).find? fun arc ↦ arc.LeavesFrom state

/-- The state that an arc leads to. -/
def FioStateArc.target (arc : FioStateArc) (state : UInt32) : UInt32 :=
  if arc.stateTo = fioStateSame then state else arc.stateTo.toInt32.toUInt32

/-- A transition takes the first arc whose mask contains the state; without one it keeps the state,
and the number is `STATE_ARC_NOTFOUND` before the handler sees it. -/
def FiresFirstArc (state : UInt32) (arcs : List FioStateArc) : Prop :=
  ∀ arcAction after r, (fioStateTransition state arcs arcAction).Allows state after r ↔
    after = (firstArc arcs state.toNat).elim state (·.target state) ∧
      r = .arc (arcAction.getD id
        ((firstArc arcs state.toNat).elim stateArcNotfound FioStateArc.arcNum).toInt32)

theorem arcNum_of_mem_tableArcs {arc : FioStateArc} {arcs : List FioStateArc}
    (h : arc ∈ tableArcs arcs) : arc.arcNum ≠ stateArcNotfound := by
  unfold tableArcs at h
  have hend := List.mem_takeWhile_imp h
  exact of_decide_eq_true hend

theorem testBit_of_ge {mask : UInt32} {state : ℕ} (h : 32 ≤ state) :
    mask.toNat.testBit state = false := by
  apply Nat.testBit_lt_two_pow
  calc mask.toNat < 2 ^ 32 := mask.toNat_lt
    _ ≤ 2 ^ state := Nat.pow_le_pow_right (by decide) h

/-- The shift takes the state modulo the width of the mask. -/
theorem stateM1_and_ne_zero (state mask : UInt32) :
    stateM1 state &&& mask ≠ 0 ↔ mask.toNat.testBit (state.toNat % 32) = true := by
  have hbit : (stateM1 state &&& mask).toNat = 2 ^ (state.toNat % 32) &&& mask.toNat := by
    have hlt : 2 ^ (state.toNat % 32) < 2 ^ 32 :=
      Nat.pow_lt_pow_right (by decide) (Nat.mod_lt _ (by decide))
    rw [stateM1, UInt32.toNat_and, UInt32.toNat_shiftLeft, UInt32.toNat_one, Nat.one_shiftLeft,
      Nat.mod_eq_of_lt hlt]
  rw [ne_eq, ← UInt32.toNat_inj, hbit, UInt32.toNat_zero, Nat.and_comm, Nat.and_two_pow]
  cases mask.toNat.testBit (state.toNat % 32) <;> simp

theorem findArc_eq (state : UInt32) (arcs : List FioStateArc) :
    findArc (stateM1 state) arcs = firstArc arcs (state.toNat % 32) := by
  unfold firstArc tableArcs
  induction arcs with
  | nil => rfl
  | cons arc arcs ih =>
      rw [findArc]
      by_cases hend : arc.arcNum = stateArcNotfound
      · rw [if_pos hend, List.takeWhile_cons, if_neg (by simp [hend])]
        rfl
      · rw [if_neg hend, List.takeWhile_cons, if_pos (decide_eq_true hend)]
        by_cases hbit : arc.LeavesFrom (state.toNat % 32)
        · rw [if_pos ((stateM1_and_ne_zero _ _).mpr hbit)]
          simp only [List.find?_cons, decide_eq_true hbit]
        · rw [if_neg (fun h ↦ hbit ((stateM1_and_ne_zero _ _).mp h)), ih]
          simp only [List.find?_cons, decide_eq_false hbit]

theorem allows_leave_iff {state after : UInt32} {r r' : FioReturn} :
    (Outcome.leave r : Outcome UInt32 FioReturn).Allows state after r' ↔
      after = state ∧ r' = r := by
  constructor
  · intro h
    exact (leave_allows h).symm
  · rintro ⟨rfl, rfl⟩
    exact Or.inr (Or.inl ⟨rfl, rfl⟩)

theorem allows_fioSetStateLocked_iff {state new after : UInt32} {r r' : FioReturn} :
    (fioSetStateLocked state new r).Allows state after r' ↔ after = new ∧ r' = r := by
  constructor
  · intro h
    exact (fioSetStateLocked_allows h).symm
  · rintro ⟨rfl, rfl⟩
    unfold fioSetStateLocked
    by_cases hne : state ≠ after
    · rw [if_pos hne]
      exact Or.inr (Or.inr rfl)
    · rw [if_neg hne]
      exact Or.inr (Or.inl ⟨rfl, (not_ne_iff.mp hne).symm⟩)

/-- What a transition does, from the arc that its loop finds. -/
theorem fioStateTransition_allows_iff {state after : UInt32} {arcs : List FioStateArc}
    {arcAction : Option (Int32 → Int32)} {r : FioReturn} :
    (fioStateTransition state arcs arcAction).Allows state after r ↔
      after = (findArc (stateM1 state) arcs).elim state (·.target state) ∧
        r = .arc (arcAction.getD id
          ((findArc (stateM1 state) arcs).elim stateArcNotfound FioStateArc.arcNum).toInt32) := by
  unfold fioStateTransition
  cases arcAction <;> cases findArc (stateM1 state) arcs with
  | none => exact allows_leave_iff
  | some arc =>
      dsimp only [Option.elim_some, FioStateArc.target]
      by_cases hsame : arc.stateTo ≠ fioStateSame
      · rw [if_pos hsame, if_neg hsame]
        exact allows_fioSetStateLocked_iff
      · rw [if_neg hsame, if_pos (not_ne_iff.mp hsame)]
        exact allows_leave_iff

/-- A transition fires the first arc that the state is in the mask of, and no other one, exactly if
the state has a bit of its own or no mask has the bit that it shares. -/
theorem fio_state_transition_first_arc_iff (state : UInt32) (arcs : List FioStateArc) :
    FiresFirstArc state arcs ↔
      state < 32 ∨ ∀ arc ∈ tableArcs arcs, ¬ arc.LeavesFrom (state.toNat % 32) := by
  unfold FiresFirstArc
  simp only [fioStateTransition_allows_iff, findArc_eq]
  by_cases hlow : state < 32
  · have hmod : state.toNat % 32 = state.toNat := Nat.mod_eq_of_lt (UInt32.lt_iff_toNat_lt.mp hlow)
    rw [hmod]
    exact ⟨fun _ ↦ Or.inl hlow, fun _ _ _ _ ↦ Iff.rfl⟩
  · have hhigh : 32 ≤ state.toNat := by
      have hnot : ¬ state.toNat < 32 := fun h ↦ hlow (UInt32.lt_iff_toNat_lt.mpr h)
      omega
    have hnone : firstArc arcs state.toNat = none := by
      rw [firstArc, List.find?_eq_none]
      intro arc _ hbit
      have hleaves : arc.statesFromMask.toNat.testBit state.toNat = true := of_decide_eq_true hbit
      rw [testBit_of_ge hhigh] at hleaves
      cases hleaves
    rw [hnone]
    constructor
    · intro h
      refine Or.inr fun arc harc hbit ↦ ?_
      -- an arc that fires gives its number away
      cases hfind : firstArc arcs (state.toNat % 32) with
      | none =>
          rw [firstArc, List.find?_eq_none] at hfind
          exact hfind arc harc (decide_eq_true hbit)
      | some fired =>
          have hnum := arcNum_of_mem_tableArcs (List.mem_of_find?_eq_some hfind)
          have hret := ((h none _ _).mp (by rw [hfind]; exact ⟨rfl, rfl⟩)).2
          have hcast : fired.arcNum.toInt32.toInt16 = stateArcNotfound.toInt32.toInt16 :=
            congrArg Int32.toInt16 (FioReturn.arc.inj hret)
          rw [Int16.toInt16_toInt32, Int16.toInt16_toInt32] at hcast
          exact hnum hcast
    · rintro (h | h)
      · exact absurd h hlow
      · have hfind : firstArc arcs (state.toNat % 32) = none := by
          rw [firstArc, List.find?_eq_none]
          exact fun arc harc hbit ↦ h arc harc (of_decide_eq_true hbit)
        rw [hfind]
        exact fun _ _ _ ↦ Iff.rfl

/-- The state 33 takes the arc that leads out of the state 1. -/
theorem fio_state_transition_wraps :
    ¬ FiresFirstArc 33 sampleArcs := by
  intro h
  have hfires : (fioStateTransition 33 sampleArcs none).Allows 33 2 (.arc 0) :=
    Or.inr (Or.inr rfl)
  exact absurd ((h none 2 (.arc 0)).mp hfires).1 (by decide)

end IomemoryVsl.Port
