import Mathlib.Data.List.Basic
import IomemoryVsl.Lib.Run
import IomemoryVsl.Lib.Slots

/-!
# Polling the control device (`cdev.c`)

`freebsd_char_poll` tests for an event and, if there is none, records the caller with `selrecord` so
that it is woken later.  An event source sets the event and then calls `kfio_poll_wake`.  The test
and the recording are two steps with no lock in common with the source, and a source that does both
its steps between them wakes nobody.
-/

namespace IomemoryVsl.Cdev

open Transition

def ENXIO : Int32 := 6
def POLLIN : Int32 := 0x0001
def POLLPRI : Int32 := 0x0002

abbrev Thread := Nat

/-- Where a thread is in its call of `freebsd_char_poll`. -/
inductive PollPc where
  /-- about to test `is_nand_device_event_set` -/
  | test
  /-- past a test that found no event, about to call `selrecord` -/
  | record
  /-- recorded, and told to sleep by the return of 0 -/
  | asleep
  /-- woken by `selwakeup` -/
  | woken
  | returned (revents : Int32)
deriving DecidableEq, Repr

structure Poller where
  td : Thread
  events : Int32
  pc : PollPc
deriving DecidableEq, Repr

/-- The device, the threads that poll it and the sources of its events.  `nandDev` says that
`si_drv1` is set, `sel` are the threads recorded in the poll structure, and `pending` counts the
sources that have set the event and not yet woken. -/
structure PollState where
  nandDev : Bool
  eventSet : Bool
  sel : List Thread
  pollers : List Poller
  pending : Nat
deriving DecidableEq, Repr

/-! ## The functions -/

/-- The entry of `freebsd_char_poll`, up to the test. -/
def charPollEnter (nandDev : Bool) (events : Int32) : PollPc :=
  if nandDev = false then .returned ENXIO
  -- the only events that an alert stands for
  else if 0 = events &&& (POLLIN ||| POLLPRI) then .returned 0
  else .test

def charPollTest (eventSet : Bool) (events : Int32) : PollPc :=
  if eventSet then .returned ((POLLIN ||| POLLPRI) &&& events) else .record

/-- `selrecord(td, sel)`, and the return of 0. -/
def selrecord (s : PollState) (k : Nat) (p : Poller) : PollState :=
  { s with sel := p.td :: s.sel, pollers := s.pollers.set k { p with pc := .asleep } }

/-- `selwakeup` on one poller. -/
def Poller.wake (sel : List Thread) (p : Poller) : Poller :=
  if p.td ∈ sel ∧ p.pc = .asleep then { p with pc := .woken } else p

/-- `kfio_poll_wake`: `selwakeup` wakes the threads recorded so far. -/
def kfioPollWake (s : PollState) : PollState :=
  { s with sel := [], pollers := s.pollers.map (Poller.wake s.sel) }

inductive PollEvent where
  | enter (td : Thread) (events : Int32)
  | test (k : Nat)
  | record (k : Nat)
  | leave (k : Nat)
  | setEvent
  | wake
  | clearEvent
deriving DecidableEq, Repr

/-- One step of a poller, of a source, or of whoever fetches the event with an ioctl. -/
def pollStep (s : PollState) : PollEvent → Option PollState
  | .enter td events =>
      if td ∉ s.pollers.map Poller.td then
        some { s with pollers := s.pollers ++ [⟨td, events, charPollEnter s.nandDev events⟩] }
      else none
  | .test k =>
      s.pollers[k]?.bind fun p ↦
        if p.pc = .test then
          some { s with
            pollers := s.pollers.set k { p with pc := charPollTest s.eventSet p.events } }
        else none
  | .record k => s.pollers[k]?.bind fun p ↦ if p.pc = .record then some (selrecord s k p) else none
  | .leave k =>
      s.pollers[k]?.bind fun p ↦
        match p.pc with
        | .woken | .returned _ => some { s with pollers := s.pollers.eraseIdx k }
        | _ => none
  | .setEvent => some { s with eventSet := true, pending := s.pending + 1 }
  | .wake =>
      if 0 < s.pending then some { kfioPollWake s with pending := s.pending - 1 } else none
  | .clearEvent => some { s with eventSet := false }

/-- A device that nobody polls and that has no event. -/
def quietDevice : PollState :=
  ⟨true, false, [], [], 0⟩

/-! ## Lost wake-ups -/

/-- The event is set, every source has finished its `kfio_poll_wake`, and a recorded thread sleeps
without having been woken. -/
def WakeupLost (s : PollState) : Prop :=
  s.eventSet = true ∧ s.pending = 0 ∧ ∃ p ∈ s.pollers, p.pc = .asleep

/-- A thread is about to record itself although the event has been set and announced since its
test. -/
def LateRecord (s : PollState) : PollEvent → Prop
  | .record k => s.eventSet = true ∧ s.pending = 0 ∧ ∃ p, s.pollers[k]? = some p ∧ p.pc = .record
  | _ => False

/-- A source calls `kfio_poll_wake` while a thread is between its test and its `selrecord`. -/
def WakeInWindow (s : PollState) : PollEvent → Prop
  | .wake => ∃ p ∈ s.pollers, p.pc = .record
  | _ => False

/-- Every sleeper is on record, and none of them has missed its wake-up. -/
structure PollInv (s : PollState) : Prop where
  recorded : ∀ p ∈ s.pollers, p.pc = .asleep → p.td ∈ s.sel
  notLost : ¬ WakeupLost s

variable {s s' : PollState}

/-! ## Where a call goes from its entry and from its test -/

theorem charPollEnter_cases (nandDev : Bool) (events : Int32) :
    charPollEnter nandDev events = .test ∨
      ∃ revents, charPollEnter nandDev events = .returned revents := by
  unfold charPollEnter
  by_cases hdev : nandDev = false
  · rw [if_pos hdev]
    exact Or.inr ⟨_, rfl⟩
  · rw [if_neg hdev]
    by_cases hev : 0 = events &&& (POLLIN ||| POLLPRI)
    · rw [if_pos hev]
      exact Or.inr ⟨0, rfl⟩
    · rw [if_neg hev]
      exact Or.inl rfl

theorem charPollTest_cases (eventSet : Bool) (events : Int32) :
    eventSet = false ∧ charPollTest eventSet events = .record ∨
      ∃ revents, charPollTest eventSet events = .returned revents := by
  cases eventSet with
  | false => exact Or.inl ⟨rfl, rfl⟩
  | true => exact Or.inr ⟨(POLLIN ||| POLLPRI) &&& events, rfl⟩

/-- A thread that has just entered is at its test or has returned. -/
theorem enter_cases {td : Thread} {events : Int32}
    (hstep : pollStep s (.enter td events) = some s') :
    ∃ p : Poller, s' = { s with pollers := s.pollers ++ [p] } ∧
      p.pc ≠ .asleep ∧ p.pc ≠ .record := by
  simp only [pollStep, Option.ite_none_right_eq_some, Option.some.injEq] at hstep
  obtain ⟨-, rfl⟩ := hstep
  refine ⟨_, rfl, ?_⟩
  dsimp only
  rcases charPollEnter_cases s.nandDev events with h | ⟨revents, h⟩
  · rw [h]
    decide
  · rw [h]
    exact ⟨fun heq ↦ PollPc.noConfusion heq, fun heq ↦ PollPc.noConfusion heq⟩

theorem leave_eq {k : Nat} (hstep : pollStep s (.leave k) = some s') :
    s' = { s with pollers := s.pollers.eraseIdx k } := by
  simp only [pollStep, Option.bind_eq_some_iff] at hstep
  obtain ⟨p, -, hstep⟩ := hstep
  split at hstep
  · exact (Option.some.inj hstep).symm
  · exact (Option.some.inj hstep).symm
  · cases hstep

/-! ## Steps that keep every wake-up -/

/-- After a wake-up nobody on record sleeps. -/
theorem not_asleep_of_wake {sel : List Thread} {p : Poller} (h : p.pc = .asleep → p.td ∈ sel) :
    (p.wake sel).pc ≠ .asleep := by
  unfold Poller.wake
  by_cases hpc : p.pc = .asleep
  · rw [if_pos ⟨h hpc, hpc⟩]
    exact fun heq ↦ PollPc.noConfusion heq
  · rw [if_neg (fun hand ↦ hpc hand.2)]
    exact hpc

/-- A step that adds no sleeper, forgets none, and raises no event unless it is pending. -/
theorem PollInv.of_fewer (hi : PollInv s)
    (hsub : ∀ p ∈ s'.pollers, p.pc = .asleep → p ∈ s.pollers) (hsel : s'.sel = s.sel)
    (hev : s'.eventSet = true → s'.pending = 0 → s.eventSet = true ∧ s.pending = 0) :
    PollInv s' := by
  constructor
  · intro p hp hpc
    rw [hsel]
    exact hi.recorded p (hsub p hp hpc) hpc
  · rintro ⟨he, hp0, p, hp, hpc⟩
    obtain ⟨he', hp0'⟩ := hev he hp0
    exact hi.notLost ⟨he', hp0', p, hsub p hp hpc, hpc⟩

theorem pollInv_step (s : PollState) (e : PollEvent) (s' : PollState) (hi : PollInv s)
    (hlate : ¬ LateRecord s e) (hstep : pollStep s e = some s') : PollInv s' := by
  cases e with
  | enter td events =>
      obtain ⟨p, rfl, hasleep, -⟩ := enter_cases hstep
      refine hi.of_fewer ?_ rfl fun he hp ↦ ⟨he, hp⟩
      intro q hq hpc
      rcases List.mem_append.mp hq with hq | hq
      · exact hq
      · rw [List.mem_singleton.mp hq] at hpc
        exact absurd hpc hasleep
  | test k =>
      simp only [pollStep, Option.bind_eq_some_iff, Option.ite_none_right_eq_some,
        Option.some.injEq] at hstep
      obtain ⟨p, -, -, rfl⟩ := hstep
      refine hi.of_fewer ?_ rfl fun he hp ↦ ⟨he, hp⟩
      intro q hq hpc
      rcases List.mem_or_eq_of_mem_set hq with hq | hq
      · exact hq
      · -- the thread goes on to `selrecord` or returns
        exfalso
        rw [hq] at hpc
        rcases charPollTest_cases s.eventSet p.events with ⟨-, h⟩ | ⟨revents, h⟩
        · rw [h] at hpc
          cases hpc
        · rw [h] at hpc
          cases hpc
  | record k =>
      simp only [pollStep, Option.bind_eq_some_iff, Option.ite_none_right_eq_some,
        Option.some.injEq] at hstep
      obtain ⟨p, hk, hpc, rfl⟩ := hstep
      constructor
      · intro q hq hqpc
        rcases List.mem_or_eq_of_mem_set hq with hq | hq
        · exact List.mem_cons_of_mem _ (hi.recorded q hq hqpc)
        · rw [hq]
          exact List.mem_cons_self
      · -- the only step that can lose a wake-up, and it is not late
        rintro ⟨he, hp0, -⟩
        exact hlate ⟨he, hp0, p, hk, hpc⟩
  | leave k =>
      rw [leave_eq hstep]
      refine hi.of_fewer ?_ rfl fun he hp ↦ ⟨he, hp⟩
      intro q hq _
      exact List.mem_of_mem_eraseIdx hq
  | setEvent =>
      rw [pollStep, Option.some.injEq] at hstep
      subst hstep
      -- the source that has set the event has yet to announce it
      refine hi.of_fewer (fun p hp _ ↦ hp) rfl ?_
      intro _ hp0
      exact absurd hp0 (Nat.succ_ne_zero s.pending)
  | wake =>
      simp only [pollStep, Option.ite_none_right_eq_some, Option.some.injEq] at hstep
      obtain ⟨-, rfl⟩ := hstep
      have hnone : ∀ q ∈ s.pollers.map (Poller.wake s.sel), q.pc ≠ .asleep := by
        intro q hq
        obtain ⟨p, hp, rfl⟩ := List.mem_map.mp hq
        exact not_asleep_of_wake (hi.recorded p hp)
      constructor
      · intro q hq hpc
        exact absurd hpc (hnone q hq)
      · rintro ⟨-, -, q, hq, hpc⟩
        exact hnone q hq hpc
  | clearEvent =>
      rw [pollStep, Option.some.injEq] at hstep
      subst hstep
      refine hi.of_fewer (fun p hp _ ↦ hp) rfl ?_
      intro he
      cases he

/-- A late `selrecord` puts its thread to sleep past its wake-up. -/
theorem lateRecord_lost {e : PollEvent} (hlate : LateRecord s e) :
    ∃ t, pollStep s e = some t ∧ WakeupLost t := by
  cases e with
  | record k =>
      obtain ⟨he, hp0, p, hk, hpc⟩ := hlate
      refine ⟨selrecord s k p, ?_, he, hp0, { p with pc := .asleep }, ?_, rfl⟩
      · rw [pollStep, hk, Option.bind_some, if_pos hpc]
      · obtain ⟨us, vs, -, hset, -⟩ := Slots.exists_split hk
        unfold selrecord
        dsimp only
        rw [hset]
        exact List.mem_append_right _ List.mem_cons_self
  | _ => exact hlate.elim

/-- An event that a thread has missed in its test is still to be announced. -/
def Announced (s : PollState) : Prop :=
  ∀ p ∈ s.pollers, p.pc = .record → s.eventSet = true → 0 < s.pending

theorem announced_step (s : PollState) (e : PollEvent) (s' : PollState) (hi : Announced s)
    (hwake : ¬ WakeInWindow s e) (hstep : pollStep s e = some s') : Announced s' := by
  cases e with
  | enter td events =>
      obtain ⟨p, rfl, -, hrecord⟩ := enter_cases hstep
      intro q hq hpc
      rcases List.mem_append.mp hq with hq | hq
      · exact hi q hq hpc
      · rw [List.mem_singleton.mp hq] at hpc
        exact absurd hpc hrecord
  | test k =>
      simp only [pollStep, Option.bind_eq_some_iff, Option.ite_none_right_eq_some,
        Option.some.injEq] at hstep
      obtain ⟨p, -, -, rfl⟩ := hstep
      intro q hq hpc he
      rcases List.mem_or_eq_of_mem_set hq with hq | hq
      · exact hi q hq hpc he
      · -- a test that leads to the recording has found no event
        exfalso
        rw [hq] at hpc
        rcases charPollTest_cases s.eventSet p.events with ⟨hnone, -⟩ | ⟨revents, h⟩
        · have hset : s.eventSet = true := he
          rw [hnone] at hset
          cases hset
        · rw [h] at hpc
          cases hpc
  | record k =>
      simp only [pollStep, Option.bind_eq_some_iff, Option.ite_none_right_eq_some,
        Option.some.injEq] at hstep
      obtain ⟨p, -, -, rfl⟩ := hstep
      intro q hq hpc
      rcases List.mem_or_eq_of_mem_set hq with hq | hq
      · exact hi q hq hpc
      · rw [hq] at hpc
        cases hpc
  | leave k =>
      rw [leave_eq hstep]
      intro q hq hpc
      exact hi q (List.mem_of_mem_eraseIdx hq) hpc
  | setEvent =>
      rw [pollStep, Option.some.injEq] at hstep
      subst hstep
      intro _ _ _ _
      exact Nat.succ_pos s.pending
  | wake =>
      simp only [pollStep, Option.ite_none_right_eq_some, Option.some.injEq] at hstep
      obtain ⟨-, rfl⟩ := hstep
      intro q hq hpc
      -- a thread in the window would be there before the wake-up too
      exfalso
      obtain ⟨p, hp, rfl⟩ := List.mem_map.mp hq
      apply hwake
      refine ⟨p, hp, ?_⟩
      unfold Poller.wake at hpc
      split at hpc
      · cases hpc
      · exact hpc
  | clearEvent =>
      rw [pollStep, Option.some.injEq] at hstep
      subst hstep
      intro _ _ _ he
      cases he

theorem Announced.not_lateRecord {e : PollEvent} (hi : Announced s) : ¬ LateRecord s e := by
  cases e with
  | record k =>
      rintro ⟨he, hp0, p, hk, hpc⟩
      have hpos := hi p (List.mem_of_getElem? hk) hpc he
      omega
  | _ => exact id

theorem quietDevice_inv : PollInv quietDevice ∧ Announced quietDevice := by
  refine ⟨⟨?_, ?_⟩, ?_⟩
  · intro p hp
    cases hp
  · rintro ⟨he, -, -⟩
    cases he
  · intro p hp
    cases hp

/-- In a run of any number of pollers and sources, no wake-up is ever lost if and only if no thread
calls `selrecord` when the event has been set and announced since its test; it is enough that no
source calls `kfio_poll_wake` while a thread is between its test and its `selrecord`. -/
theorem poll_wakeup_not_lost (es : List PollEvent) :
    (Throughout pollStep (fun s ↦ ¬ WakeupLost s) quietDevice es ↔
        Along pollStep (fun s e ↦ ¬ LateRecord s e) quietDevice es) ∧
      (Along pollStep (fun s e ↦ ¬ WakeInWindow s e) quietDevice es →
        Throughout pollStep (fun s ↦ ¬ WakeupLost s) quietDevice es) := by
  have hiff := throughout_iff_along (fun t ht ↦ ht.notLost) pollInv_step
    (fun t e _ hlate ↦ (lateRecord_lost hlate).imp fun u hu ↦ ⟨hu.1, not_not_intro hu.2⟩) es
    quietDevice_inv.1
  refine ⟨hiff, ?_⟩
  intro hwindow
  apply hiff.mpr
  exact Along.imp announced_step (fun t e ht _ ↦ ht.not_lateRecord) quietDevice_inv.2 hwindow

/-- One poller and one source, which sets the event and wakes between the test and `selrecord`. -/
theorem poll_wakeup_lost :
    ¬ ∀ es s, run pollStep quietDevice es = some s → ¬ WakeupLost s := by
  intro hall
  refine hall [.enter 1 POLLIN, .test 0, .setEvent, .wake, .record 0]
    ⟨true, true, [1], [⟨1, POLLIN, .asleep⟩], 0⟩ (by decide) ?_
  exact ⟨rfl, rfl, _, List.mem_cons_self, rfl⟩

end IomemoryVsl.Cdev
