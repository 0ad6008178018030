import IomemoryVsl.Kmem.DmaCoherent
import IomemoryVsl.Lib.Owned
import IomemoryVsl.Lib.Run

/-!
# The users of coherent memory (`kmem.c`)

Memory is allocated and freed through any number of handles at once, and the calls into busdma that
`kfio_dma_alloc_coherent` and `kfio_dma_free_coherent` make for one come between those for another.
busdma hands out a tag or memory again as soon as it has been given back.
-/

namespace IomemoryVsl.Kmem

open Transition

/-- A user of coherent memory: its handle, the address that it got (0 for none), and the calls into
busdma of its last allocation and the free after it, those made and those still to make.  The handle
is the user's own, so nobody sees that its fields are set between these calls. -/
structure CoherentUser where
  handle : FusionDma
  vaddr : UInt64
  made : List DmaCall
  todo : List DmaCall
deriving DecidableEq, Repr

/-- `held` is what busdma has given out; `faults` counts what is given back to it that it has not
given out, and assertions that fail. -/
structure CoherentState where
  held : DmaResource → Option Unit
  users : List CoherentUser
  faults : ℕ

/-- What busdma may answer to an allocation. -/
abbrev PromisedEnv := { env : CoherentEnv // env.Promised }

inductive CoherentEvent where
  /-- a new handle, with whatever its memory contains -/
  | handle (dmaHandle : FusionDma)
  /-- a call of `kfio_dma_alloc_coherent`, with what busdma is going to answer -/
  | alloc (k : ℕ) (env : PromisedEnv) (size : UInt32)
  /-- a call of `kfio_dma_free_coherent` -/
  | free (k : ℕ)
  /-- the next call into busdma -/
  | busdma (k : ℕ)

/-! ## The steps -/

/-- What somebody holds after a call, who held `rs` before it. -/
def DmaCall.after (rs : List DmaResource) (c : DmaCall) : List DmaResource :=
  rs.filter (· ∉ c.releases) ++ c.takes

def CoherentState.perform (s : CoherentState) (c : DmaCall) : CoherentState :=
  { s with
    held := fun r ↦ if r ∈ c.takes then some () else if r ∈ c.releases then none else s.held r
    faults := s.faults + c.releases.countP fun r ↦ s.held r = none }

def CoherentState.setUser (s : CoherentState) (k : ℕ) (u : CoherentUser) : CoherentState :=
  { s with users := s.users.set k u }

def coherentStep (s : CoherentState) : CoherentEvent → Option CoherentState
  | .handle dmaHandle => some { s with users := s.users ++ [⟨dmaHandle, 0, [], []⟩] }
  | .alloc k env size =>
      s.users[k]?.bind fun u ↦
        if u.todo = [] ∧ u.vaddr = 0 then
          match kfioDmaAllocCoherent env.1 size u.handle with
          | .error _ => some { s with faults := s.faults + 1 }
          | .ok (vaddr, handle, calls) => some (s.setUser k ⟨handle, vaddr, [], calls⟩)
        else none
  | .free k =>
      s.users[k]?.bind fun u ↦
        if u.todo = [] ∧ u.vaddr ≠ 0 then
          some (s.setUser k ⟨(kfioDmaFreeCoherent u.vaddr u.handle).1, 0, u.made,
            (kfioDmaFreeCoherent u.vaddr u.handle).2⟩)
        else none
  | .busdma k =>
      s.users[k]?.bind fun u ↦
        match u.todo with
        | [] => none
        | c :: todo =>
            -- nothing is given out that is out already
            if ∀ r ∈ c.takes, s.held r = none then
              some ((s.perform c).setUser k { u with made := u.made ++ [c], todo := todo })
            else none

def noCoherentUsers : CoherentState := ⟨fun _ ↦ none, [], 0⟩

/-! ## What a user holds -/

/-- What a user has taken and not given back. -/
def CoherentUser.own (u : CoherentUser) : List DmaResource := u.made.foldl DmaCall.after []

/-- A load that returns 0 and has told only the callback that it failed. -/
def DmaCall.unheeded : DmaCall → Bool
  | .load _ _ _ _ rc (some cb) => rc = 0 ∧ cb.error ≠ 0
  | _ => false

/-- What a user holds once the calls still to make are made. -/
def CoherentUser.settled (u : CoherentUser) : List DmaResource :=
  if u.vaddr = 0 then []
  else [.tag u.handle.tag, .memory u.handle.tag u.vaddr u.handle.map] ++
    if (u.made ++ u.todo).any DmaCall.unheeded then [] else [.loaded u.handle.tag u.handle.map]

/-- The user's memory is loaded, and the handle has the address that the device is to use. -/
def CoherentUser.Served (u : CoherentUser) : Prop :=
  u.own = [.tag u.handle.tag, .memory u.handle.tag u.vaddr u.handle.map,
    .loaded u.handle.tag u.handle.map] ∧
  ∃ size seg, .load u.handle.tag u.handle.map u.vaddr size 0 (some ⟨[seg], 1, 0⟩) ∈ u.made ∧
    u.handle.physAddr = seg.dsAddr

/-- The tag under which busdma has given something out. -/
def DmaResource.root : DmaResource → Option Kscatter.DmaTag
  | .tag t => t
  | .memory t _ _ => t
  | .loaded t _ => t

/-- Everything held is held under a tag that is held too. -/
def Rooted (rs : List DmaResource) : Prop := ∀ r ∈ rs, .tag r.root ∈ rs

/-- A call that gives back only what is under the caller's own tags and keeps no memory without
its tag. -/
def Anchored (rs : List DmaResource) (c : DmaCall) : Prop :=
  (∀ r ∈ c.releases, .tag r.root ∈ rs) ∧ Rooted (c.after rs)

/-- What a user holds, call by call. -/
def heldStep (rs : List DmaResource) (c : DmaCall) : Option (List DmaResource) := some (c.after rs)

/-- What is known of a user at any time, from the calls that it has still to make. -/
structure CoherentUser.Sound (u : CoherentUser) : Prop where
  rooted : Rooted u.own
  anchored : Along heldStep Anchored u.own u.todo
  settles : run heldStep u.own u.todo = some u.settled
  /-- what is given back is held, up to a load whose failure goes unheeded -/
  honest : (∀ c ∈ u.made, c.unheeded = false) →
    Along heldStep (fun rs c ↦ c.releases ⊆ rs) u.own u.todo
  /-- such a load is the last call of an allocation that returns its memory all the same -/
  last : ∀ c ∈ u.todo.dropLast, c.unheeded = false
  returned : (∃ c ∈ u.todo, c.unheeded = true) → u.vaddr ≠ 0
  loaded : u.vaddr ≠ 0 → (∀ c ∈ u.made ++ u.todo, c.unheeded = false) →
    ∃ size seg, .load u.handle.tag u.handle.map u.vaddr size 0 (some ⟨[seg], 1, 0⟩) ∈
      u.made ++ u.todo ∧ u.handle.physAddr = seg.dsAddr

variable {s t : CoherentState} {k : ℕ} {u : CoherentUser} {rs : List DmaResource} {c : DmaCall}
  {cs : List DmaCall}

@[simp]
theorem along_heldStep_cons {P : List DmaResource → DmaCall → Prop} :
    Along heldStep P rs (c :: cs) ↔ P rs c ∧ Along heldStep P (c.after rs) cs := by
  constructor
  · rintro ⟨hp, hrest⟩
    exact ⟨hp, hrest _ rfl⟩
  · rintro ⟨hp, hrest⟩
    refine ⟨hp, ?_⟩
    rintro rs' ⟨⟩
    exact hrest

@[simp]
theorem along_heldStep_nil {P : List DmaResource → DmaCall → Prop} :
    Along heldStep P rs [] ↔ True := Iff.rfl

@[simp]
theorem run_heldStep_cons : run heldStep rs (c :: cs) = run heldStep (c.after rs) cs := rfl

theorem mem_after {r : DmaResource} :
    r ∈ c.after rs ↔ (r ∈ rs ∧ r ∉ c.releases) ∨ r ∈ c.takes := by
  unfold DmaCall.after
  rw [List.mem_append, List.mem_filter, decide_eq_true_eq]

theorem takes_nodup (c : DmaCall) : c.takes.Nodup := by
  unfold DmaCall.takes
  split
  all_goals first | exact List.nodup_nil | split <;> simp

/-- busdma has not loaded the map. -/
theorem takes_unheeded (h : c.unheeded = true) : c.takes = [] := by
  cases c with
  | load tag map vaddr size rc callback =>
      cases callback with
      | none => cases h
      | some cb =>
          simp only [DmaCall.unheeded, decide_eq_true_eq] at h
          simp [DmaCall.takes, h.2]
  | _ => cases h

theorem any_unheeded_eq_false (h : ∀ c ∈ cs, c.unheeded = false) :
    cs.any DmaCall.unheeded = false := by
  rw [List.any_eq_false]
  intro c hc
  rw [h c hc]
  exact Bool.false_ne_true

/-! ## One user -/

theorem own_made :
    CoherentUser.own { u with made := u.made ++ [c], todo := cs } = c.after u.own := by
  unfold CoherentUser.own
  rw [List.foldl_append]
  rfl

/-- A handle that nothing has been done with. -/
theorem sound_handle (dmaHandle : FusionDma) : CoherentUser.Sound ⟨dmaHandle, 0, [], []⟩ where
  rooted _ hr := absurd hr List.not_mem_nil
  anchored := trivial
  settles := rfl
  honest _ := trivial
  last _ hc := absurd hc List.not_mem_nil
  returned := by simp
  loaded hne := absurd rfl hne

/-- A call into busdma takes its user from one sound state to the next. -/
theorem CoherentUser.Sound.made (h : u.Sound) (htodo : u.todo = c :: cs) :
    CoherentUser.Sound { u with made := u.made ++ [c], todo := cs } := by
  have hcalls : u.made ++ [c] ++ cs = u.made ++ u.todo := by
    rw [htodo]
    simp
  have hanchored := h.anchored
  rw [htodo, along_heldStep_cons] at hanchored
  refine ⟨?_, ?_, ?_, ?_, ?_, ?_, ?_⟩
  · rw [own_made]
    exact hanchored.1.2
  · rw [own_made]
    exact hanchored.2
  · have hsettles := h.settles
    rw [htodo, run_heldStep_cons] at hsettles
    unfold CoherentUser.settled at hsettles ⊢
    rw [own_made, hsettles, hcalls]
  · intro hmade
    rw [own_made]
    have hhonest := h.honest ?_
    · rw [htodo, along_heldStep_cons] at hhonest
      exact hhonest.2
    · intro d hd
      exact hmade d (List.mem_append_left _ hd)
  · intro d hd
    refine h.last d ?_
    rw [htodo]
    cases cs with
    | nil => cases hd
    | cons e cs => exact List.mem_cons_of_mem c hd
  · rintro ⟨d, hd, hbad⟩
    refine h.returned ⟨d, ?_, hbad⟩
    rw [htodo]
    exact List.mem_cons_of_mem c hd
  · dsimp only
    rw [hcalls]
    exact h.loaded

/-- Calls that give back all they have taken, in an allocation that returns nothing. -/
theorem sound_refused {calls : List DmaCall} (handle : FusionDma)
    (hanchored : Along heldStep Anchored [] calls) (hrun : run heldStep [] calls = some [])
    (hheld : Along heldStep (fun rs c ↦ c.releases ⊆ rs) [] calls)
    (hheeded : ∀ c ∈ calls, c.unheeded = false) : CoherentUser.Sound ⟨handle, 0, [], calls⟩ where
  rooted _ hr := absurd hr List.not_mem_nil
  anchored := hanchored
  settles := hrun
  honest _ := hheld
  last c hc := hheeded c (List.dropLast_subset calls hc)
  returned := by
    rintro ⟨c, hc, hbad⟩
    rw [hheeded c hc] at hbad
    cases hbad
  loaded hne := absurd rfl hne

section Allocation

variable (size : UInt32) (tag : Kscatter.DmaTag) (map : Kscatter.DmaMap) (vaddr : UInt64)

theorem sound_noTag (handle : FusionDma) {tagRc : Int32} (htag : tagRc ≠ 0) :
    CoherentUser.Sound ⟨handle, 0, [], [.tagCreate size tagRc tag]⟩ := by
  apply sound_refused <;>
    simp [Anchored, Rooted, DmaCall.after, DmaCall.takes, DmaCall.releases, DmaCall.unheeded, htag]

theorem sound_noMemory (handle : FusionDma) {memRc : Int32} (hmem : memRc ≠ 0) :
    CoherentUser.Sound ⟨handle, 0, [], [.tagCreate size 0 tag,
      .memAlloc (some tag) memRc vaddr map, .tagDestroy (some tag)]⟩ := by
  apply sound_refused <;>
    simp [Anchored, Rooted, DmaCall.after, DmaCall.takes, DmaCall.releases, DmaCall.unheeded, hmem,
      DmaResource.root]

theorem sound_notLoaded (handle : FusionDma) {loadRc : Int32} (hload : loadRc ≠ 0)
    (callback : Option DmaCallback) :
    CoherentUser.Sound ⟨handle, 0, [], [.tagCreate size 0 tag, .memAlloc (some tag) 0 vaddr map,
      .load (some tag) (some map) vaddr size loadRc callback,
      .memFree (some tag) vaddr (some map), .tagDestroy (some tag)]⟩ := by
  apply sound_refused <;>
    cases callback <;>
    simp [Anchored, Rooted, DmaCall.after, DmaCall.takes, DmaCall.releases, DmaCall.unheeded, hload,
      DmaResource.root]

section Returned

variable {vaddr} (hvaddr : vaddr ≠ 0)

include hvaddr

theorem sound_loaded (seg : Kscatter.BusDmaSegment) :
    CoherentUser.Sound ⟨⟨seg.dsAddr, some tag, some map⟩, vaddr, [], [.tagCreate size 0 tag,
      .memAlloc (some tag) 0 vaddr map,
      .load (some tag) (some map) vaddr size 0 (some ⟨[seg], 1, 0⟩)]⟩ where
  rooted _ hr := absurd hr List.not_mem_nil
  anchored := by
    simp [CoherentUser.own, Anchored, Rooted, DmaCall.after, DmaCall.takes, DmaCall.releases,
      DmaResource.root]
  settles := by
    simp [CoherentUser.own, CoherentUser.settled, DmaCall.after, DmaCall.takes, DmaCall.releases,
      DmaCall.unheeded, hvaddr]
  honest _ := by simp [DmaCall.releases]
  last := by simp [DmaCall.unheeded]
  returned _ := hvaddr
  loaded _ _ := ⟨size, seg, by simp, rfl⟩

theorem sound_unheeded (physAddr : UInt64) {cb : DmaCallback} (herr : cb.error ≠ 0) :
    CoherentUser.Sound ⟨⟨physAddr, some tag, some map⟩, vaddr, [], [.tagCreate size 0 tag,
      .memAlloc (some tag) 0 vaddr map, .load (some tag) (some map) vaddr size 0 (some cb)]⟩ where
  rooted _ hr := absurd hr List.not_mem_nil
  anchored := by
    simp [CoherentUser.own, Anchored, Rooted, DmaCall.after, DmaCall.takes, DmaCall.releases,
      DmaResource.root, herr]
  settles := by
    simp [CoherentUser.own, CoherentUser.settled, DmaCall.after, DmaCall.takes, DmaCall.releases,
      DmaCall.unheeded, hvaddr, herr]
  honest _ := by simp [DmaCall.releases]
  last := by simp [DmaCall.unheeded]
  returned _ := hvaddr
  loaded _ hheeded := by
    have hload := hheeded (.load (some tag) (some map) vaddr size 0 (some cb)) (by simp)
    simp [DmaCall.unheeded, herr] at hload

end Returned

end Allocation

/-- An allocation never fails an assertion, and leaves its user sound whatever busdma answers. -/
theorem kfioDmaAllocCoherent_sound (env : PromisedEnv) (size : UInt32) (handle : FusionDma) :
    ∃ vaddr handle' calls, kfioDmaAllocCoherent env.1 size handle = .ok (vaddr, handle', calls) ∧
      CoherentUser.Sound ⟨handle', vaddr, [], calls⟩ := by
  obtain ⟨env, hdoc⟩ := env
  dsimp only
  by_cases htag : env.tagRc = 0
  · by_cases hmem : env.memRc = 0
    · have hvaddr := hdoc.vaddr hmem
      by_cases hload : env.loadRc = 0
      · obtain ⟨cb, hcb⟩ := Option.ne_none_iff_exists'.mp (hdoc.called hload)
        by_cases herr : cb.error = 0
        · obtain ⟨seg, hsegs, hnseg⟩ := hdoc.single cb hcb herr
          refine ⟨_, _, _, kfioDmaAllocCoherent_loadReturns size handle _ htag hmem hload
            (by rw [hcb]; exact kfioMapDmaCallback_single herr hsegs hnseg), ?_⟩
          have hsingle : cb = ⟨[seg], 1, 0⟩ := by rw [← hsegs, ← hnseg, ← herr]
          rw [hcb, htag, hmem, hload, hsingle]
          exact sound_loaded size env.tag env.map hvaddr seg
        · refine ⟨_, _, _, kfioDmaAllocCoherent_loadReturns size handle _ htag hmem hload
            (by rw [hcb]; exact kfioMapDmaCallback_error herr), ?_⟩
          rw [hcb, htag, hmem, hload]
          exact sound_unheeded size env.tag env.map hvaddr handle.physAddr herr
      · refine ⟨_, _, _, kfioDmaAllocCoherent_loadFails hdoc size handle htag hmem hload, ?_⟩
        rw [htag, hmem]
        exact sound_notLoaded size env.tag env.map env.vaddr _ hload env.callback
    · refine ⟨0, { handle with tag := some env.tag }, [.tagCreate size 0 env.tag,
        .memAlloc (some env.tag) env.memRc env.vaddr env.map, .tagDestroy (some env.tag)], ?_, ?_⟩
      · simp [kfioDmaAllocCoherent, freeHandle, htag, hmem]
      · exact sound_noMemory size env.tag env.map env.vaddr _ hmem
  · refine ⟨0, handle, [.tagCreate size env.tagRc env.tag], ?_, ?_⟩
    · simp [kfioDmaAllocCoherent, htag]
    · exact sound_noTag size env.tag handle htag

/-- What a user holds between its calls of the two functions. -/
theorem CoherentUser.Sound.own_eq (h : u.Sound) (hquiet : u.todo = []) : u.own = u.settled := by
  have hsettles := h.settles
  rw [hquiet, run_nil, Option.some.injEq] at hsettles
  exact hsettles

/-- A free takes back everything, loaded or not. -/
theorem kfioDmaFreeCoherent_sound (h : u.Sound) (hquiet : u.todo = []) (hvaddr : u.vaddr ≠ 0) :
    CoherentUser.Sound ⟨(kfioDmaFreeCoherent u.vaddr u.handle).1, 0, u.made,
      (kfioDmaFreeCoherent u.vaddr u.handle).2⟩ := by
  have hown := h.own_eq hquiet
  unfold CoherentUser.settled at hown
  rw [if_neg hvaddr, hquiet, List.append_nil] at hown
  obtain ⟨⟨physAddr, tag, map⟩, vaddr, made, todo⟩ := u
  have hsame : CoherentUser.own ⟨(kfioDmaFreeCoherent vaddr ⟨physAddr, tag, map⟩).1, 0, made,
      (kfioDmaFreeCoherent vaddr ⟨physAddr, tag, map⟩).2⟩ =
      CoherentUser.own ⟨⟨physAddr, tag, map⟩, vaddr, made, todo⟩ := rfl
  dsimp only at hown hvaddr ⊢
  refine ⟨?_, ?_, ?_, ?_, ?_, ?_, fun hne ↦ absurd rfl hne⟩
  · rw [hsame]
    exact h.rooted
  · rw [hsame, hown]
    split <;>
      simp [kfioDmaFreeCoherent, Anchored, Rooted, DmaCall.after, DmaCall.takes, DmaCall.releases,
        DmaResource.root]
  · rw [hsame, hown]
    split <;>
      simp [kfioDmaFreeCoherent, DmaCall.after, DmaCall.takes, DmaCall.releases,
        CoherentUser.settled]
  · intro hheeded
    -- the memory was loaded, so all three calls give back something held
    rw [hsame, hown, any_unheeded_eq_false hheeded]
    simp [kfioDmaFreeCoherent, DmaCall.after, DmaCall.takes, DmaCall.releases]
  · simp [kfioDmaFreeCoherent, DmaCall.unheeded]
  · simp [kfioDmaFreeCoherent, DmaCall.unheeded]

/-! ## What a step does -/

theorem alloc_cases {env : PromisedEnv} {size : UInt32}
    (hstep : coherentStep s (.alloc k env size) = some t) :
    ∃ u vaddr handle calls, s.users[k]? = some u ∧ u.todo = [] ∧ u.vaddr = 0 ∧
      CoherentUser.Sound ⟨handle, vaddr, [], calls⟩ ∧
      t = s.setUser k ⟨handle, vaddr, [], calls⟩ := by
  obtain ⟨u, hget, hstep⟩ := Option.bind_eq_some_iff.mp hstep
  simp only [Option.ite_none_right_eq_some] at hstep
  obtain ⟨⟨hquiet, hvaddr⟩, hstep⟩ := hstep
  obtain ⟨vaddr, handle, calls, halloc, hsound⟩ := kfioDmaAllocCoherent_sound env size u.handle
  rw [halloc] at hstep
  cases hstep
  exact ⟨u, vaddr, handle, calls, hget, hquiet, hvaddr, hsound, rfl⟩

theorem free_cases (hstep : coherentStep s (.free k) = some t) :
    ∃ u, s.users[k]? = some u ∧ u.todo = [] ∧ u.vaddr ≠ 0 ∧
      t = s.setUser k ⟨(kfioDmaFreeCoherent u.vaddr u.handle).1, 0, u.made,
        (kfioDmaFreeCoherent u.vaddr u.handle).2⟩ := by
  obtain ⟨u, hget, hstep⟩ := Option.bind_eq_some_iff.mp hstep
  simp only [Option.ite_none_right_eq_some, Option.some.injEq] at hstep
  obtain ⟨⟨hquiet, hvaddr⟩, rfl⟩ := hstep
  exact ⟨u, hget, hquiet, hvaddr, rfl⟩

theorem busdma_cases (hstep : coherentStep s (.busdma k) = some t) :
    ∃ u c cs, s.users[k]? = some u ∧ u.todo = c :: cs ∧ (∀ r ∈ c.takes, s.held r = none) ∧
      t = (s.perform c).setUser k { u with made := u.made ++ [c], todo := cs } := by
  obtain ⟨u, hget, hstep⟩ := Option.bind_eq_some_iff.mp hstep
  split at hstep
  · cases hstep
  · next c cs htodo =>
    simp only [Option.ite_none_right_eq_some, Option.some.injEq] at hstep
    obtain ⟨hfresh, rfl⟩ := hstep
    exact ⟨u, c, cs, hget, htodo, hfresh, rfl⟩

/-! ## All the users -/

/-- What a user relies on. -/
def CoherentUser.Ready (held : DmaResource → Option Unit) (u : CoherentUser) : Prop :=
  (∀ r ∈ u.own, held r ≠ none) ∧ u.Sound

theorem coherent_local : Owned.Local CoherentUser.own CoherentUser.Ready where
  held hready := hready.1
  congr := by
    rintro held held' u hsame ⟨hheld, hsound⟩
    refine ⟨?_, hsound⟩
    intro r hr
    rw [hsame r hr]
    exact hheld r hr

/-- Each thing that busdma has given out is held by one user. -/
def CoherentInv (s : CoherentState) : Prop :=
  Owned.Account CoherentUser.own CoherentUser.Ready s.held s.users

theorem noCoherentUsers_inv : CoherentInv noCoherentUsers := Owned.account_nil

/-- A user that goes on without a call into busdma, and without losing what it holds. -/
theorem CoherentInv.setUser (h : CoherentInv s) (hget : s.users[k]? = some u) {u' : CoherentUser}
    (hown : u'.own = u.own) (hsound : u'.Sound) : CoherentInv (s.setUser k u') := by
  have hready := h.ready u (List.mem_of_getElem? hget)
  have hnodup : u.own.Nodup := (List.nodup_flatMap.mp h.nodup).1 u (List.mem_of_getElem? hget)
  refine h.set coherent_local hget ?_ ?_ ?_ ?_ ⟨?_, hsound⟩
  · rw [hown]
    exact hnodup
  · intro r hr
    rw [hown] at hr
    exact Or.inl hr
  · intro r hr hnot
    rw [hown] at hnot
    exact absurd hr hnot
  · intro r _ _
    rfl
  · rw [hown]
    exact hready.1

/-- Nobody else holds what a user gives back, even if it does not hold it itself: that would be
under its own tag. -/
theorem CoherentInv.not_held (h : CoherentInv s) (hget : s.users[k]? = some u) {r : DmaResource}
    (hroot : .tag r.root ∈ u.own) (hr : r ∉ u.own) : s.held r = none := by
  by_contra hheld
  obtain ⟨v, hv, hown⟩ := List.mem_flatMap.mp (h.allocated r hheld)
  have hvroot := (h.ready v hv).2.rooted r hown
  rw [h.owner_eq (List.mem_of_getElem? hget) hv hroot hvroot] at hr
  exact hr hown

theorem CoherentInv.perform (h : CoherentInv s) (hget : s.users[k]? = some u)
    (htodo : u.todo = c :: cs) (hfresh : ∀ r ∈ c.takes, s.held r = none) :
    CoherentInv ((s.perform c).setUser k { u with made := u.made ++ [c], todo := cs }) := by
  have hmem := List.mem_of_getElem? hget
  obtain ⟨hheld, hsound⟩ := h.ready u hmem
  have hanchored : Anchored u.own c := by
    have halong := hsound.anchored
    rw [htodo, along_heldStep_cons] at halong
    exact halong.1
  have hapart : ∀ r ∈ u.own, r ∉ c.takes := fun r hr htakes ↦ hheld r hr (hfresh r htakes)
  refine h.set coherent_local hget ?_ ?_ ?_ ?_ ⟨?_, hsound.made htodo⟩
  · have hnodup : u.own.Nodup := (List.nodup_flatMap.mp h.nodup).1 u hmem
    rw [own_made, DmaCall.after, List.nodup_append]
    refine ⟨hnodup.filter _, takes_nodup c, ?_⟩
    rintro r hr _ htakes rfl
    exact hapart r (List.mem_of_mem_filter hr) htakes
  · intro r hr
    rw [own_made, mem_after] at hr
    rcases hr with ⟨hold, -⟩ | htakes
    · exact Or.inl hold
    · exact Or.inr (hfresh r htakes)
  · intro r hr hnot
    rw [own_made, mem_after] at hnot
    have hreleased : r ∈ c.releases := by
      by_contra hkept
      exact hnot (Or.inl ⟨hr, hkept⟩)
    show (if r ∈ c.takes then some () else if r ∈ c.releases then none else s.held r) = none
    rw [if_neg (hapart r hr), if_pos hreleased]
  · intro r hr hnot
    rw [own_made, mem_after] at hnot
    rw [not_or] at hnot
    show (if r ∈ c.takes then some () else if r ∈ c.releases then none else s.held r) = s.held r
    rw [if_neg hnot.2]
    split
    · next hreleased => exact (h.not_held hget (hanchored.1 r hreleased) hr).symm
    · rfl
  · intro r hr
    rw [own_made, mem_after] at hr
    show (if r ∈ c.takes then some () else if r ∈ c.releases then none else s.held r) ≠ none
    rcases hr with ⟨hold, hkept⟩ | htakes
    · rw [if_neg (hapart r hold), if_neg hkept]
      exact hheld r hold
    · rw [if_pos htakes]
      exact Option.some_ne_none ()

theorem coherentStep_inv (s : CoherentState) (e : CoherentEvent) (s' : CoherentState)
    (h : CoherentInv s) (hstep : coherentStep s e = some s') : CoherentInv s' := by
  cases e with
  | handle dmaHandle =>
      cases hstep
      exact h.append rfl ⟨fun _ hr ↦ absurd hr List.not_mem_nil, sound_handle dmaHandle⟩
  | alloc k env size =>
      obtain ⟨u, vaddr, handle, calls, hget, hquiet, hvaddr, hsound, rfl⟩ := alloc_cases hstep
      refine h.setUser hget ?_ hsound
      rw [(h.ready u (List.mem_of_getElem? hget)).2.own_eq hquiet, CoherentUser.settled,
        if_pos hvaddr]
      rfl
  | free k =>
      obtain ⟨u, hget, hquiet, hvaddr, rfl⟩ := free_cases hstep
      have hsound := (h.ready u (List.mem_of_getElem? hget)).2
      exact h.setUser hget rfl (kfioDmaFreeCoherent_sound hsound hquiet hvaddr)
  | busdma k =>
      obtain ⟨u, c, cs, hget, htodo, hfresh, rfl⟩ := busdma_cases hstep
      exact h.perform hget htodo hfresh

/-! ## Over whole runs -/

/-- What busdma has given out is with the users: with each only what it took, and nothing with those
that have no memory. -/
structure Accounted (s : CoherentState) : Prop where
  held : ∀ r, s.held r ≠ none ↔ r ∈ s.users.flatMap CoherentUser.own
  exclusive : (s.users.flatMap CoherentUser.own).Nodup
  settled : ∀ u ∈ s.users, u.todo = [] → u.own = u.settled
  clean : (∀ u ∈ s.users, u.todo = [] ∧ u.vaddr = 0) → ∀ r, s.held r = none

theorem CoherentInv.accounted (h : CoherentInv s) : Accounted s where
  held := h.allocated_iff coherent_local
  exclusive := h.nodup
  settled u hu hquiet := (h.ready u hu).2.own_eq hquiet
  clean := by
    intro hidle r
    by_contra hheld
    obtain ⟨u, hu, hr⟩ := List.mem_flatMap.mp (h.allocated r hheld)
    obtain ⟨hquiet, hvaddr⟩ := hidle u hu
    rw [(h.ready u hu).2.own_eq hquiet, CoherentUser.settled, if_pos hvaddr] at hr
    cases hr

/-- In every interleaving of any number of allocations and frees, whatever busdma answers, each tag,
each piece of memory and each loaded map that it has given out is with one user, that has memory or
is in the middle of a call; when nobody has, everything has been given back. -/
theorem coherent_accounted (es : List CoherentEvent) :
    Throughout coherentStep Accounted noCoherentUsers es := by
  intro fs s _ hr
  have hinv : CoherentInv s := run_invariant coherentStep_inv noCoherentUsers_inv hr
  exact hinv.accounted

/-- All who have memory can give its address to the device, busdma was given back only what it had
given out, and no assertion has failed. -/
structure AllServed (s : CoherentState) : Prop where
  faultless : s.faults = 0
  served : ∀ u ∈ s.users, u.todo = [] → u.vaddr ≠ 0 → u.Served

/-- The next call of a user is a load that tells its failure to the callback alone. -/
def LoadsUnheeded (s : CoherentState) (e : CoherentEvent) : Prop :=
  ∃ k u c cs, e = .busdma k ∧ s.users[k]? = some u ∧ u.todo = c :: cs ∧ c.unheeded = true

/-- So far every load that failed has been heeded. -/
structure ServedInv (s : CoherentState) : Prop where
  inv : CoherentInv s
  faultless : s.faults = 0
  heeded : ∀ u ∈ s.users, ∀ c ∈ u.made, c.unheeded = false

theorem ServedInv.allServed (h : ServedInv s) : AllServed s where
  faultless := h.faultless
  served := by
    intro u hu hquiet hvaddr
    have hsound := (h.inv.ready u hu).2
    have hheeded := h.heeded u hu
    refine ⟨?_, ?_⟩
    · rw [hsound.own_eq hquiet, CoherentUser.settled, if_neg hvaddr, hquiet, List.append_nil,
        any_unheeded_eq_false hheeded]
      rfl
    · have hloaded := hsound.loaded hvaddr
      rw [hquiet, List.append_nil] at hloaded
      exact hloaded hheeded

/-- What is given back is held, so busdma finds nothing wrong. -/
theorem perform_faults (hheld : ∀ r ∈ u.own, s.held r ≠ none) (hgiven : c.releases ⊆ u.own) :
    (s.perform c).faults = s.faults := by
  have hnone : c.releases.countP (fun r ↦ s.held r = none) = 0 := by
    rw [List.countP_eq_zero]
    intro r hr
    rw [decide_eq_true_eq]
    exact hheld r (hgiven hr)
  show s.faults + _ = s.faults
  rw [hnone, Nat.add_zero]

theorem coherentStep_served (s : CoherentState) (e : CoherentEvent) (s' : CoherentState)
    (h : ServedInv s) (hgood : ¬ LoadsUnheeded s e) (hstep : coherentStep s e = some s') :
    ServedInv s' := by
  have hinv := coherentStep_inv s e s' h.inv hstep
  cases e with
  | handle dmaHandle =>
      cases hstep
      refine ⟨hinv, h.faultless, ?_⟩
      intro u hu c hc
      rcases List.mem_append.mp hu with hold | hnew
      · exact h.heeded u hold c hc
      · rw [List.mem_singleton.mp hnew] at hc
        cases hc
  | alloc k env size =>
      obtain ⟨u, vaddr, handle, calls, -, -, -, -, rfl⟩ := alloc_cases hstep
      refine ⟨hinv, h.faultless, ?_⟩
      intro v hv c hc
      rcases List.mem_or_eq_of_mem_set hv with hold | rfl
      · exact h.heeded v hold c hc
      · cases hc
  | free k =>
      obtain ⟨u, hget, -, -, rfl⟩ := free_cases hstep
      refine ⟨hinv, h.faultless, ?_⟩
      intro v hv c hc
      rcases List.mem_or_eq_of_mem_set hv with hold | rfl
      · exact h.heeded v hold c hc
      · exact h.heeded u (List.mem_of_getElem? hget) c hc
  | busdma k =>
      obtain ⟨u, c, cs, hget, htodo, hfresh, rfl⟩ := busdma_cases hstep
      have hu := List.mem_of_getElem? hget
      obtain ⟨hheld, hsound⟩ := h.inv.ready u hu
      have hheeded : c.unheeded = false := by
        by_contra hbad
        exact hgood ⟨k, u, c, cs, rfl, hget, htodo, (Bool.not_eq_false _).mp hbad⟩
      have hhonest := hsound.honest (h.heeded u hu)
      rw [htodo, along_heldStep_cons] at hhonest
      refine ⟨hinv, (perform_faults hheld hhonest.1).trans h.faultless, ?_⟩
      intro v hv d hd
      rcases List.mem_or_eq_of_mem_set hv with hold | rfl
      · exact h.heeded v hold d hd
      · rcases List.mem_append.mp hd with hmade | hlast
        · exact h.heeded u hu d hmade
        · rw [List.mem_singleton.mp hlast]
          exact hheeded

/-- A call that takes nothing is always possible, and the load whose failure goes unheeded is the
last of its allocation. -/
theorem loadsUnheeded_unserved (s : CoherentState) (e : CoherentEvent) (h : ServedInv s)
    (hbad : LoadsUnheeded s e) : ∃ t, coherentStep s e = some t ∧ ¬ AllServed t := by
  obtain ⟨k, u, c, cs, rfl, hget, htodo, hunheeded⟩ := hbad
  have hu := List.mem_of_getElem? hget
  have hsound := (h.inv.ready u hu).2
  have hmem : c ∈ u.todo := by
    rw [htodo]
    exact List.mem_cons_self
  have hvaddr : u.vaddr ≠ 0 := hsound.returned ⟨c, hmem, hunheeded⟩
  have hlast : cs = [] := by
    cases cs with
    | nil => rfl
    | cons d ds =>
        have hheeded := hsound.last c (by rw [htodo]; exact List.mem_cons_self)
        rw [hunheeded] at hheeded
        cases hheeded
  subst hlast
  refine ⟨(s.perform c).setUser k { u with made := u.made ++ [c], todo := [] }, ?_, ?_⟩
  · simp [coherentStep, hget, htodo, takes_unheeded hunheeded]
  · intro hall
    have hlt : k < s.users.length := (List.getElem?_eq_some_iff.mp hget).1
    have hserved := hall.served _ (List.mem_set hlt _) rfl hvaddr
    have hown := (hsound.made htodo).own_eq rfl
    have hany : (u.made ++ [c] ++ []).any DmaCall.unheeded = true := by simp [hunheeded]
    rw [hserved.1, CoherentUser.settled, if_neg hvaddr, hany] at hown
    simp at hown

/-- In every run all who have memory can give its address to the device, and busdma is given back
only what it has given out, if and only if no load tells its failure to the callback alone: the
callback ignores it, and the memory is returned with the address that the handle had before. -/
theorem coherent_served_iff (es : List CoherentEvent) :
    Throughout coherentStep AllServed noCoherentUsers es ↔
      Along coherentStep (fun s e ↦ ¬ LoadsUnheeded s e) noCoherentUsers es := by
  refine throughout_iff_along (fun _ h ↦ ServedInv.allServed h) coherentStep_served
    loadsUnheeded_unserved es ⟨noCoherentUsers_inv, rfl, ?_⟩
  intro u hu
  cases hu

/-! Two users; the first frees its page, and the second gets the same tag and memory. -/

example :
    (run coherentStep noCoherentUsers
        [.handle ⟨0, none, none⟩, .handle ⟨0xdead, none, none⟩,
          .alloc 0 ⟨onePageEnv, onePageEnv_promised⟩ 4096, .busdma 0, .busdma 0,
          .alloc 1 ⟨onePageEnv, onePageEnv_promised⟩ 4096, .busdma 0, .free 0, .busdma 0, .busdma 0,
          .busdma 0, .busdma 1, .busdma 1, .busdma 1]).map
      (fun s ↦ (s.users.map fun u ↦ (u.vaddr, u.handle.physAddr), s.faults)) =
      some ([(0, 0), (0x7000, 0x20000)], 0) := by decide

end IomemoryVsl.Kmem
