import IomemoryVsl.Kblock.Bio
import IomemoryVsl.Lib.Run

/-!
# Loading and unloading (`main.c`)

`freebsd_modevent` with the initialisation and the cleanup of the driver.  What the `init` functions
of the subsystems return is up to the environment; one that returns zero has initialised its
subsystem.
-/

namespace IomemoryVsl.Main

open Kblock Transition

def EOPNOTSUPP : Int32 := 45

/-- What the driver initialises, named after the argument-less `init_fio_…` functions and
`dbgs_create_flags_dir`. -/
inductive Subsystem where
  | fioDev
  | fioIodrive
  | fioObj
  | fioBlk
  | flagsDir
deriving DecidableEq, Repr

/-- What the functions called during one load return. -/
structure LoadEnv where
  checkstructs : Int32
  initFioDev : Int32
  initFioIodrive : Int32
  initFioObj : Int32
  initFioBlk : Int32
  createFlagsDir : Int32
deriving DecidableEq, Repr

/-- What was initialised before an unload, since the one before it, and what the unload cleaned. -/
structure UnloadRecord where
  inits : List Subsystem
  cleanups : List Subsystem
deriving DecidableEq, Repr

/-- The globals of the module; `inits` and `unloads` record what the subsystems see. -/
structure ModState where
  fusionInitFailed : Int32
  iodriveLoadEbMap : Int32
  autoAttach : Int32
  inits : List Subsystem
  unloads : List UnloadRecord
  /-- the last event was a load that failed, so the kernel unloads next -/
  loadFailed : Bool
deriving DecidableEq, Repr

/-! ## The functions -/

/-- A call of the init function of `x` that returns `rc`. -/
def initSubsystem (x : Subsystem) (rc : Int32) (s : ModState) : ModState :=
  if rc = 0 then { s with inits := s.inits ++ [x] } else s

/-- The label `bail` of `fio_do_init`. -/
def fioDoInitBail (rc : Int32) : Int32 :=
  if rc < 0 then -rc else rc

def fioDoInit (env : LoadEnv) (s : ModState) : Int32 × ModState :=
  let s := initSubsystem .fioIodrive env.initFioIodrive s
  if env.initFioIodrive ≠ 0 then (fioDoInitBail env.initFioIodrive, s)
  else
    let s := initSubsystem .fioObj env.initFioObj s
    -- what has been initialised so far stays
    if env.initFioObj ≠ 0 then (fioDoInitBail env.initFioObj, s)
    else
      let s := initSubsystem .fioBlk env.initFioBlk s
      if env.initFioBlk ≠ 0 then (fioDoInitBail env.initFioBlk, s)
      else (0, s)

/-- If the LEB map isn't loaded then don't bother trying to auto attach. -/
def adjustAutoAttach (s : ModState) : ModState :=
  if s.iodriveLoadEbMap = 0 then { s with autoAttach := 0 } else s

def initFioDriver (env : LoadEnv) (s : ModState) : Int32 × ModState :=
  let s := adjustAutoAttach s
  if env.checkstructs ≠ 0 then Prod.mk ENXIO s
  else
    let s := initSubsystem .fioDev env.initFioDev s
    if env.initFioDev ≠ 0 then Prod.mk ENXIO s
    else
      let (rc, s) := fioDoInit env s
      if rc ≠ 0 then (rc, s)
      else (env.createFlagsDir, initSubsystem .flagsDir env.createFlagsDir s)

/-- The order in which `cleanup_fio_driver` cleans up. -/
def cleanupFioDriver : List Subsystem :=
  [.flagsDir, .fioBlk, .fioObj, .fioIodrive, .fioDev]

inductive ModEvent where
  | load (env : LoadEnv)
  | unload
  | other (event : Int32)
deriving DecidableEq, Repr

def freebsdModevent (s : ModState) : ModEvent → Int32 × ModState
  | .load env =>
      let (result, s) := initFioDriver env s
      -- set here and never cleared
      (result, if result ≠ 0 then { s with fusionInitFailed := 1 } else s)
  | .unload =>
      let cleanups := if s.fusionInitFailed = 0 then cleanupFioDriver else []
      (0, { s with inits := [], unloads := s.unloads ++ [⟨s.inits, cleanups⟩] })
  | .other _ => (EOPNOTSUPP, s)

/-- The kernel delivers an event; a load that fails is followed by an unload. -/
def modStep (s : ModState) (e : ModEvent) : Option ModState :=
  match e with
  | .load env =>
      if s.loadFailed then none
      else
        let (result, s) := freebsdModevent s (.load env)
        some { s with loadFailed := result ≠ 0 }
  | .unload => some { (freebsdModevent s .unload).2 with loadFailed := false }
  | .other event =>
      if s.loadFailed then none else some (freebsdModevent s (.other event)).2

/-- The module before its first event. -/
def unloadedModule (iodriveLoadEbMap autoAttach : Int32) : ModState :=
  ⟨0, iodriveLoadEbMap, autoAttach, [], [], false⟩

/-! ## What an unload leaves behind -/

/-- What was initialised has been cleaned up once, and nothing else has. -/
def UnloadRecord.Clean (r : UnloadRecord) : Prop :=
  ∀ x, r.cleanups.count x = if x ∈ r.inits then 1 else 0

/-- No unload so far has left anything behind, or cleaned up what was not there. -/
def CleanUnloads (s : ModState) : Prop :=
  ∀ r ∈ s.unloads, r.Clean

/-- The flag that guards the cleanup tells how the subsystems are: all of them are initialised and
it is clear, or none is and it is set. -/
def FlagAccurate (s : ModState) : Prop :=
  s.fusionInitFailed = 0 ∧ (∀ x, x ∈ s.inits) ∨ s.fusionInitFailed ≠ 0 ∧ s.inits = []

/-- An unload at which the flag is wrong about the subsystems. -/
def MisleadingUnload (s : ModState) (e : ModEvent) : Prop :=
  e = .unload ∧ ¬ FlagAccurate s

theorem count_cleanupFioDriver (x : Subsystem) : cleanupFioDriver.count x = 1 := by
  cases x <;> decide

/-- The cleanup is of all or of nothing, so it is right if all or nothing is initialised. -/
theorem clean_iff_flagAccurate (s : ModState) :
    UnloadRecord.Clean ⟨s.inits, if s.fusionInitFailed = 0 then cleanupFioDriver else []⟩ ↔
      FlagAccurate s := by
  unfold UnloadRecord.Clean FlagAccurate
  dsimp only
  by_cases hflag : s.fusionInitFailed = 0
  · rw [if_pos hflag]
    constructor
    · intro hclean
      refine Or.inl ⟨hflag, ?_⟩
      intro x
      have hx := hclean x
      rw [count_cleanupFioDriver] at hx
      by_contra hnot
      rw [if_neg hnot] at hx
      cases hx
    · intro hacc x
      have hall : ∀ x, x ∈ s.inits := hacc.elim (·.2) fun h ↦ absurd hflag h.1
      rw [count_cleanupFioDriver, if_pos (hall x)]
  · rw [if_neg hflag]
    constructor
    · intro hclean
      refine Or.inr ⟨hflag, ?_⟩
      rw [List.eq_nil_iff_forall_not_mem]
      intro x hx
      have hcount := hclean x
      rw [if_pos hx, List.count_nil] at hcount
      cases hcount
    · intro hacc x
      have hnil : s.inits = [] := hacc.elim (fun h ↦ absurd h.1 hflag) (·.2)
      rw [hnil]
      rfl

/-! ## What a load does -/

def LoadEnv.Succeeds (env : LoadEnv) : Prop :=
  env.checkstructs = 0 ∧ env.initFioDev = 0 ∧ env.initFioIodrive = 0 ∧ env.initFioObj = 0 ∧
    env.initFioBlk = 0 ∧ env.createFlagsDir = 0

/-- The load fails before anything is initialised. -/
def LoadEnv.FailsEarly (env : LoadEnv) : Prop :=
  env.checkstructs ≠ 0 ∨ env.initFioDev ≠ 0

theorem initSubsystem_zero (x : Subsystem) (s : ModState) :
    initSubsystem x 0 s = { s with inits := s.inits ++ [x] } := rfl

theorem initSubsystem_fail {rc : Int32} (h : rc ≠ 0) (x : Subsystem) (s : ModState) :
    initSubsystem x rc s = s :=
  if_neg h

theorem adjustAutoAttach_inits (s : ModState) : (adjustAutoAttach s).inits = s.inits := by
  unfold adjustAutoAttach
  split <;> rfl

theorem adjustAutoAttach_unloads (s : ModState) : (adjustAutoAttach s).unloads = s.unloads := by
  unfold adjustAutoAttach
  split <;> rfl

theorem adjustAutoAttach_flag (s : ModState) :
    (adjustAutoAttach s).fusionInitFailed = s.fusionInitFailed := by
  unfold adjustAutoAttach
  split <;> rfl

theorem fioDoInitBail_ne_zero {rc : Int32} (h : rc ≠ 0) : fioDoInitBail rc ≠ 0 := by
  unfold fioDoInitBail
  split_ifs
  · intro hneg
    have hzero := congrArg (- ·) hneg
    exact h (by simpa using hzero)
  · exact h

/-- The steps of `fio_do_init` that succeed, up to the first one that does not. -/
theorem fioDoInit_spec (env : LoadEnv) :
    ∃ rc xs, (∀ s, fioDoInit env s = (rc, { s with inits := s.inits ++ xs })) ∧
      (rc = 0 ↔ env.initFioIodrive = 0 ∧ env.initFioObj = 0 ∧ env.initFioBlk = 0) ∧
      (rc = 0 → xs = [.fioIodrive, .fioObj, .fioBlk]) := by
  unfold fioDoInit
  by_cases hio : env.initFioIodrive = 0
  · by_cases hobj : env.initFioObj = 0
    · by_cases hblk : env.initFioBlk = 0
      · exact ⟨0, [.fioIodrive, .fioObj, .fioBlk],
          by simp [hio, hobj, hblk, initSubsystem_zero], by simp [hio, hobj, hblk], fun _ ↦ rfl⟩
      · have hbail := fioDoInitBail_ne_zero hblk
        exact ⟨_, [.fioIodrive, .fioObj],
          by simp [hio, hobj, hblk, initSubsystem_zero, initSubsystem_fail], by simp [hblk, hbail],
          fun h ↦ absurd h hbail⟩
    · have hbail := fioDoInitBail_ne_zero hobj
      exact ⟨_, [.fioIodrive], by simp [hio, hobj, initSubsystem_zero, initSubsystem_fail],
        by simp [hobj, hbail], fun h ↦ absurd h hbail⟩
  · have hbail := fioDoInitBail_ne_zero hio
    exact ⟨_, [], by simp [hio, initSubsystem_fail], by simp [hio, hbail], fun h ↦ absurd h hbail⟩

/-- What a load initialises depends on what the init functions return, and on nothing else. -/
theorem initFioDriver_spec (env : LoadEnv) :
    ∃ rc xs, (∀ s, initFioDriver env s =
        (rc, { adjustAutoAttach s with inits := s.inits ++ xs })) ∧
      (rc = 0 ↔ env.Succeeds) ∧ (rc = 0 → ∀ x, x ∈ xs) ∧ (xs = [] ↔ env.FailsEarly) := by
  have henxio : ENXIO ≠ 0 := by decide
  unfold initFioDriver LoadEnv.Succeeds LoadEnv.FailsEarly
  by_cases hcheck : env.checkstructs = 0
  · by_cases hdev : env.initFioDev = 0
    · obtain ⟨rc, xs, hinit, hrc, hall⟩ := fioDoInit_spec env
      by_cases hzero : rc = 0
      · by_cases hdir : env.createFlagsDir = 0
        · refine ⟨0, .fioDev :: xs ++ [.flagsDir], ?_, ?_, ?_, ?_⟩
          · simp [hcheck, hdev, hinit, hzero, hdir, initSubsystem_zero, adjustAutoAttach_inits]
          · simp [hcheck, hdev, hrc.mp hzero, hdir]
          · intro _ x
            rw [hall hzero]
            cases x <;> decide
          · simp [hcheck, hdev]
        · refine ⟨env.createFlagsDir, .fioDev :: xs, ?_, ?_, ?_, ?_⟩
          · simp [hcheck, hdev, hinit, hzero, initSubsystem_zero, initSubsystem_fail hdir,
              adjustAutoAttach_inits]
          · simp [hdir]
          · intro h
            exact absurd h hdir
          · simp [hcheck, hdev]
      · refine ⟨rc, .fioDev :: xs, ?_, ?_, ?_, ?_⟩
        · simp [hcheck, hdev, hinit, hzero, initSubsystem_zero, adjustAutoAttach_inits]
        · refine iff_of_false hzero ?_
          rintro ⟨-, -, hio, hobj, hblk, -⟩
          exact hzero (hrc.mpr ⟨hio, hobj, hblk⟩)
        · intro h
          exact absurd h hzero
        · simp [hcheck, hdev]
    · refine Exists.intro ENXIO ⟨[], ?_, by simp [hdev, henxio], ?_, by simp [hdev]⟩
      · intro s
        simp [hcheck, hdev, initSubsystem_fail hdev, ← adjustAutoAttach_inits s]
      · intro h
        exact absurd h henxio
  · refine Exists.intro ENXIO ⟨[], ?_, by simp [hcheck, henxio], ?_, by simp [hcheck]⟩
    · intro s
      simp [hcheck, ← adjustAutoAttach_inits s]
    · intro h
      exact absurd h henxio

/-- A load as the kernel sees it. -/
theorem modStep_load {s t : ModState} {env : LoadEnv} (hstep : modStep s (.load env) = some t) :
    t.unloads = s.unloads ∧ (t.loadFailed = false ↔ env.Succeeds) ∧
      (t.fusionInitFailed = 0 ↔ env.Succeeds ∧ s.fusionInitFailed = 0) ∧
      (env.Succeeds → ∀ x, x ∈ t.inits) ∧
      (s.inits = [] → (t.inits = [] ↔ env.FailsEarly)) := by
  obtain ⟨rc, xs, hinit, hrc, hall, hnone⟩ := initFioDriver_spec env
  simp only [modStep, freebsdModevent, hinit, Option.ite_none_left_eq_some,
    Option.some.injEq] at hstep
  obtain ⟨-, rfl⟩ := hstep
  rw [← hrc]
  by_cases hzero : rc = 0
  · have hne : xs ≠ [] := List.ne_nil_of_mem (hall hzero .fioDev)
    refine ⟨?_, ?_, ?_, ?_, ?_⟩
    · simp [hzero, adjustAutoAttach_unloads]
    · simp [hzero]
    · simp [hzero, adjustAutoAttach_flag]
    · intro _ x
      simp [hzero, hall hzero x]
    · intro hnil
      rw [← hnone]
      simp [hzero, hnil]
  · refine ⟨?_, ?_, ?_, ?_, ?_⟩
    · simp [hzero, adjustAutoAttach_unloads]
    · simp [hzero]
    · simp [hzero]
    · intro h
      exact absurd h hzero
    · intro hnil
      rw [← hnone]
      simp [hzero, hnil]

theorem cleanUnloads_step (s : ModState) (e : ModEvent) (s' : ModState) (hi : CleanUnloads s)
    (hgood : ¬ MisleadingUnload s e) (hstep : modStep s e = some s') : CleanUnloads s' := by
  unfold CleanUnloads at hi ⊢
  cases e with
  | load env =>
      rw [(modStep_load hstep).1]
      exact hi
  | unload =>
      cases hstep
      have hacc : FlagAccurate s := not_not.mp fun hnot ↦ hgood ⟨rfl, hnot⟩
      intro r hr
      rcases List.mem_append.mp hr with hold | hnew
      · exact hi r hold
      · rw [List.mem_singleton.mp hnew]
        exact (clean_iff_flagAccurate s).mpr hacc
  | other event =>
      simp only [modStep, Option.ite_none_left_eq_some, Option.some.injEq] at hstep
      obtain ⟨-, rfl⟩ := hstep
      exact hi

theorem misleadingUnload_unclean {s : ModState} {e : ModEvent} (hbad : MisleadingUnload s e) :
    ∃ t, modStep s e = some t ∧ ¬ CleanUnloads t := by
  obtain ⟨rfl, hwrong⟩ := hbad
  refine ⟨_, rfl, ?_⟩
  intro hclean
  apply hwrong
  apply (clean_iff_flagAccurate s).mp
  exact hclean _ (List.mem_append_right _ (List.mem_singleton.mpr rfl))

/-! ## Loads that are each followed by an unload -/

def loadCycles (envs : List LoadEnv) : List ModEvent :=
  envs.flatMap fun env ↦ [.load env, .unload]

theorem unloadedModule_clean (lebMap autoAttach : Int32) :
    CleanUnloads (unloadedModule lebMap autoAttach) := by
  intro r hr
  cases hr

/-- Whether the flag is right after a load into a state in which nothing is initialised. -/
theorem load_flagAccurate {s t : ModState} {env : LoadEnv} (hinits : s.inits = [])
    (hstep : modStep s (.load env) = some t) :
    FlagAccurate t ↔ env.FailsEarly ∨ env.Succeeds ∧ s.fusionInitFailed = 0 := by
  obtain ⟨-, -, hflag, hall, hnone⟩ := modStep_load hstep
  have hnot : env.FailsEarly → ¬ env.Succeeds := by
    rintro (hcheck | hdev) ⟨hcheck', hdev', -⟩
    · exact hcheck hcheck'
    · exact hdev hdev'
  unfold FlagAccurate
  rw [hnone hinits, Ne, hflag]
  constructor
  · rintro (⟨hok, -⟩ | ⟨-, hearly⟩)
    · exact Or.inr hok
    · exact Or.inl hearly
  · rintro (hearly | hok)
    · exact Or.inr ⟨fun h ↦ hnot hearly h.1, hearly⟩
    · exact Or.inl ⟨hok, hall hok.1⟩

/-- A run of loads that are each followed by an unload, after the loads `past`: the flag is right at
every unload exactly when every load fails early, or succeeds and so have all the others. -/
theorem along_loadCycles (envs past : List LoadEnv) {s : ModState} (hinits : s.inits = [])
    (hloaded : s.loadFailed = false)
    (hflag : s.fusionInitFailed = 0 ↔ ∀ env ∈ past, env.Succeeds) :
    Along modStep (fun t e ↦ ¬ MisleadingUnload t e) s (loadCycles envs) ↔
      ∀ before env after, envs = before ++ env :: after →
        env.FailsEarly ∨ env.Succeeds ∧ ∀ earlier ∈ past ++ before, earlier.Succeeds := by
  induction envs generalizing past s with
  | nil => simp [loadCycles, Along]
  | cons env envs ih =>
      obtain ⟨t, ht⟩ : ∃ t, modStep s (.load env) = some t := by
        simp [modStep, hloaded]
      obtain ⟨-, -, hflagt, -, -⟩ := modStep_load ht
      have hpast : t.fusionInitFailed = 0 ↔ ∀ e ∈ past ++ [env], e.Succeeds := by
        rw [hflagt, hflag, List.forall_mem_append, List.forall_mem_singleton, and_comm]
      -- the unload leaves nothing initialised for the flag to be wrong about
      have hrest := ih (past ++ [env])
        (s := { (freebsdModevent t .unload).2 with loadFailed := false }) rfl rfl hpast
      have hload : ¬ MisleadingUnload s (.load env) := by
        rintro ⟨heq, -⟩
        cases heq
      have hunload : ¬ MisleadingUnload t .unload ↔
          env.FailsEarly ∨ env.Succeeds ∧ ∀ e ∈ past, e.Succeeds := by
        rw [← hflag, ← load_flagAccurate hinits ht]
        unfold MisleadingUnload
        simp
      show (¬ MisleadingUnload s (.load env) ∧ ∀ t, modStep s (.load env) = some t →
        ¬ MisleadingUnload t .unload ∧ ∀ u, modStep t .unload = some u →
          Along modStep (fun t e ↦ ¬ MisleadingUnload t e) u (loadCycles envs)) ↔ _
      rw [ht]
      simp only [hload, not_false_eq_true, true_and, Option.some.injEq, forall_eq', modStep,
        hunload, hrest]
      constructor
      · rintro ⟨hfirst, hothers⟩ before e after heq
        cases before with
        | nil =>
            cases heq
            rwa [List.append_nil]
        | cons b before =>
            cases heq
            have hlater := hothers before e after rfl
            rwa [List.append_assoc] at hlater
      · intro h
        constructor
        · have hfirst := h [] env envs rfl
          rwa [List.append_nil] at hfirst
        · intro before e after heq
          have hlater := h (env :: before) e after (by rw [heq]; rfl)
          rwa [List.append_assoc]

/-- At every unload, what is initialised has been cleaned up once and nothing else has, exactly
when the flag is right about the subsystems at every unload.  When each load is followed by an
unload this means that every load fails before it has initialised anything, or succeeds and so have
all the loads before it. -/
theorem unloads_clean (lebMap autoAttach : Int32) (es : List ModEvent) :
    (Throughout modStep CleanUnloads (unloadedModule lebMap autoAttach) es ↔
        Along modStep (fun t e ↦ ¬ MisleadingUnload t e) (unloadedModule lebMap autoAttach) es) ∧
      ∀ envs, es = loadCycles envs →
        (Throughout modStep CleanUnloads (unloadedModule lebMap autoAttach) es ↔
          ∀ before env after, envs = before ++ env :: after →
            env.FailsEarly ∨ env.Succeeds ∧ ∀ earlier ∈ before, earlier.Succeeds) := by
  have hiff := throughout_iff_along (fun _ h ↦ h) cleanUnloads_step
    (fun _ _ _ hbad ↦ misleadingUnload_unclean hbad) es (unloadedModule_clean lebMap autoAttach)
  refine ⟨hiff, ?_⟩
  rintro envs rfl
  rw [hiff]
  exact along_loadCycles envs [] rfl rfl (iff_of_true rfl (List.forall_mem_nil _))

/-! A load whose third subsystem does not come up; and one that succeeds after a load that failed.
-/

def objFailsEnv : LoadEnv := ⟨0, 0, 0, 5, 0, 0⟩

def checkFailsEnv : LoadEnv := ⟨1, 0, 0, 0, 0, 0⟩

def succeedsEnv : LoadEnv := ⟨0, 0, 0, 0, 0, 0⟩

theorem unloads_leave_behind :
    (run modStep (unloadedModule 1 1) (loadCycles [objFailsEnv])).map ModState.unloads =
        some [⟨[.fioDev, .fioIodrive], []⟩] ∧
      ¬ Throughout modStep CleanUnloads (unloadedModule 1 1) (loadCycles [objFailsEnv]) ∧
      ¬ Throughout modStep CleanUnloads (unloadedModule 1 1)
        (loadCycles [checkFailsEnv, succeedsEnv]) := by
  have hfirst : (run modStep (unloadedModule 1 1) (loadCycles [objFailsEnv])).map
      ModState.unloads = some [⟨[.fioDev, .fioIodrive], []⟩] := by decide
  have hsecond : (run modStep (unloadedModule 1 1)
      (loadCycles [checkFailsEnv, succeedsEnv])).map ModState.unloads =
      some [⟨[], []⟩, ⟨[.fioDev, .fioIodrive, .fioObj, .fioBlk, .flagsDir], []⟩] := by decide
  refine ⟨hfirst, not_throughout_of_last hfirst ?_, not_throughout_of_last hsecond ?_⟩
  · intro t ht hclean
    have hrecord := hclean ⟨[.fioDev, .fioIodrive], []⟩ (by rw [ht]; simp)
    exact absurd (hrecord .fioDev) (by decide)
  · intro t ht hclean
    have hrecord := hclean ⟨[.fioDev, .fioIodrive, .fioObj, .fioBlk, .flagsDir], []⟩
      (by rw [ht]; simp)
    exact absurd (hrecord .fioDev) (by decide)

end IomemoryVsl.Main
