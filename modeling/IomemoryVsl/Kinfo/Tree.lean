import IomemoryVsl.Kinfo.Node
import IomemoryVsl.Lib.Forest
import IomemoryVsl.Lib.Run

/-!
# The tree of nodes and the tree of oids (`kinfo.c`)

Each node of the library has a private pointer to an entry of the port, which points at the sysctl
oid of the node.  The kernel has its own tree of oids, and takes a whole subtree of it at once.
-/

namespace IomemoryVsl.Kinfo

open Kblock Kscatter Transition Forest

/-- Pointers, no two of which are the same over a run. -/
abbrev EntryPtr := Nat
abbrev OidPtr := Nat

inductive TreeFault where
  /-- an entry that is not allocated, or has no oid, was followed -/
  | badEntry (entry : EntryPtr)
  /-- `SYSCTL_CHILDREN` of an oid that is not registered -/
  | childrenOf (oid : OidPtr)
  /-- `sysctl_remove_oid` of an oid that is not registered -/
  | removalOf (oid : OidPtr)
deriving DecidableEq, Repr

structure InfoTree (ι : Type) where
  osPrivate : ι → Option EntryPtr
  /-- the allocated entries, with `oidp` in each -/
  entries : EntryPtr → Option (Option OidPtr)
  /-- the registered oids, with what each is a child of; `none` is `_hw` -/
  oids : List (OidPtr × Option OidPtr)
  nextEntry : EntryPtr
  nextOid : OidPtr
  faults : List TreeFault

/-- Whether `kfio_malloc` and `sysctl_add_oid` succeed; siblings have names of their own, so a
registration that succeeds makes a new oid. -/
structure CreateEnv where
  malloc : Bool
  addOid : Bool
deriving DecidableEq, Repr

section Functions

variable {ι : Type}

def InfoTree.fault (s : InfoTree ι) (f : TreeFault) : InfoTree ι :=
  { s with faults := s.faults ++ [f] }

def sysctlChildren (s : InfoTree ι) (oidp : OidPtr) : InfoTree ι :=
  if oidp ∈ vertices s.oids then s else s.fault (.childrenOf oidp)

/-- `sysctl_remove_oid`, with `del` and `recurse` set. -/
def sysctlRemoveOid (s : InfoTree ι) (oidp : OidPtr) : InfoTree ι :=
  if oidp ∈ vertices s.oids then { s with oids := prune oidp s.oids }
  else s.fault (.removalOf oidp)

/-- `kfio_malloc` of an entry, with `oidp` set to `NULL`. -/
def allocEntry (s : InfoTree ι) : InfoTree ι :=
  { s with
    entries := Function.update s.entries s.nextEntry (some none)
    nextEntry := s.nextEntry + 1 }

def freeEntry (s : InfoTree ι) (entry : EntryPtr) : InfoTree ι :=
  { s with entries := Function.update s.entries entry none }

/-- `SYSCTL_ADD_NODE` and `SYSCTL_ADD_PROC`, into the entry. -/
def addOid (s : InfoTree ι) (parentList : Option OidPtr) (entry : EntryPtr) : InfoTree ι :=
  { s with
    oids := (s.nextOid, parentList) :: s.oids
    nextOid := s.nextOid + 1
    entries := Function.update s.entries entry (some (some s.nextOid)) }

variable [DecidableEq ι] (info : ι → InfoNode)

/-- The part of `kfio_info_os_create_node` that has the list of the parent. -/
def createNodeUnder (s : InfoTree ι) (parentList : Option OidPtr) (node : ι) (env : CreateEnv) :
    Int32 × InfoTree ι :=
  if env.malloc = false then (-ENOMEM, s)
  else
    let nodeEntry := s.nextEntry
    let s := allocEntry s
    if nodeOid (info node) = none ∨ env.addOid = false then (- Kblock.EIO, freeEntry s nodeEntry)
    else
      let s := addOid s parentList nodeEntry
      (0, { s with osPrivate := Function.update s.osPrivate node (some nodeEntry) })

def kfioInfoOsCreateNode (s : InfoTree ι) (parent : Option ι) (node : ι) (env : CreateEnv) :
    Int32 × InfoTree ι :=
  match parent with
  | none =>
      if (info node).type ≠ .dir then (- Kblock.EIO, s) else createNodeUnder info s none node env
  | some parent =>
      match s.osPrivate parent with
      | none => (- Kblock.EIO, s)
      | some parentDir =>
          match s.entries parentDir with
          | some (some oidp) => createNodeUnder info (sysctlChildren s oidp) (some oidp) node env
          | _ => (- Kblock.EIO, s.fault (.badEntry parentDir))

def kfioInfoOsRemoveNode (s : InfoTree ι) (node : ι) : InfoTree ι :=
  match s.osPrivate node with
  -- deleting an entry that is not there is always fine
  | none => s
  | some nodeEntry =>
      let s := { s with osPrivate := Function.update s.osPrivate node none }
      match s.entries nodeEntry with
      | some (some oidp) => freeEntry (sysctlRemoveOid s oidp) nodeEntry
      | _ => s.fault (.badEntry nodeEntry)

inductive TreeEvent (ι : Type) where
  | create (parent : Option ι) (node : ι) (env : CreateEnv)
  | remove (node : ι)
deriving DecidableEq, Repr

/-- One call; a node that has an entry is not created again. -/
def treeStep (s : InfoTree ι) : TreeEvent ι → Option (InfoTree ι)
  | .create parent node env =>
      if s.osPrivate node = none then some (kfioInfoOsCreateNode info s parent node env).2 else none
  | .remove node => some (kfioInfoOsRemoveNode s node)

end Functions

/-- No node has been created. -/
def emptyTree (ι : Type) : InfoTree ι :=
  ⟨fun _ ↦ none, fun _ ↦ none, [], 0, 0, []⟩

/-! ## What the pointers point at -/

section Tree

variable {ι : Type}

/-- The entry of the node points at the oid. -/
def Owns (s : InfoTree ι) (node : ι) (oid : OidPtr) : Prop :=
  ∃ entry, s.osPrivate node = some entry ∧ s.entries entry = some (some oid)

/-- Each node that has an entry has an oid that is registered, and nothing that is gone has been
used or removed. -/
structure NodesRegistered (s : InfoTree ι) : Prop where
  registered : ∀ node entry, s.osPrivate node = some entry →
    ∃ oid, s.entries entry = some (some oid) ∧ oid ∈ vertices s.oids
  clean : s.faults = []

/-- Entries that are still to be allocated are not there. -/
def EntriesFresh (s : InfoTree ι) : Prop :=
  ∀ entry, s.entries entry ≠ none → entry < s.nextEntry

/-- Nodes and registered oids correspond, and the oids form a forest. -/
structure TreeSound (s : InfoTree ι) : Prop extends NodesRegistered s where
  entriesFresh : EntriesFresh s
  oidsFresh : ∀ entry oid, s.entries entry = some (some oid) → oid < s.nextOid
  owned : ∀ oid ∈ vertices s.oids, ∃ node, Owns s node oid
  apart : ∀ node other oid, Owns s node oid → Owns s other oid → node = other
  grown : Grown s.oids

theorem emptyTree_sound : TreeSound (emptyTree ι) where
  registered _ _ h := by cases h
  clean := rfl
  entriesFresh _ h := absurd rfl h
  oidsFresh _ _ h := by cases h
  owned _ h := absurd h List.not_mem_nil
  apart := by
    rintro node other oid ⟨entry, h, -⟩
    cases h
  grown := grown_nil

theorem Owns.unique {s : InfoTree ι} {node : ι} {oid oid' : OidPtr} (h : Owns s node oid)
    (h' : Owns s node oid') : oid = oid' := by
  obtain ⟨entry, hentry, hoid⟩ := h
  obtain ⟨entry', hentry', hoid'⟩ := h'
  cases hentry.symm.trans hentry'
  cases hoid.symm.trans hoid'
  rfl

theorem NodesRegistered.owns_registered {s : InfoTree ι} (h : NodesRegistered s) {node : ι}
    {oid : OidPtr} (hown : Owns s node oid) : oid ∈ vertices s.oids := by
  obtain ⟨entry, hentry, hoid⟩ := hown
  obtain ⟨oid', hoid', hreg⟩ := h.registered node entry hentry
  cases hoid.symm.trans hoid'
  exact hreg

theorem NodesRegistered.owns_of_private {s : InfoTree ι} (h : NodesRegistered s) {node : ι}
    (hprivate : s.osPrivate node ≠ none) : ∃ oid, Owns s node oid ∧ oid ∈ vertices s.oids := by
  obtain ⟨entry, hentry⟩ := Option.ne_none_iff_exists'.mp hprivate
  obtain ⟨oid, hoid, hreg⟩ := h.registered node entry hentry
  exact ⟨oid, ⟨entry, hentry, hoid⟩, hreg⟩

theorem registered_of_owns {s : InfoTree ι}
    (h : ∀ node, s.osPrivate node ≠ none → ∃ oid, Owns s node oid ∧ oid ∈ vertices s.oids) :
    ∀ node entry, s.osPrivate node = some entry →
      ∃ oid, s.entries entry = some (some oid) ∧ oid ∈ vertices s.oids := by
  intro node entry hentry
  obtain ⟨oid, ⟨entry', hentry', hoid⟩, hreg⟩ :=
    h node (by rw [hentry]; exact Option.some_ne_none _)
  cases hentry.symm.trans hentry'
  exact ⟨oid, hoid, hreg⟩

theorem TreeSound.registered_fresh {s : InfoTree ι} (h : TreeSound s) {oid : OidPtr}
    (hreg : oid ∈ vertices s.oids) : oid < s.nextOid := by
  obtain ⟨node, entry, -, hoid⟩ := h.owned oid hreg
  exact h.oidsFresh entry oid hoid

/-- The entries of two nodes are not the same. -/
theorem TreeSound.entry_ne {s : InfoTree ι} (h : TreeSound s) {node other : ι}
    {entry entry' : EntryPtr} (hentry : s.osPrivate node = some entry)
    (hentry' : s.osPrivate other = some entry') (hne : other ≠ node) : entry' ≠ entry := by
  intro heq
  subst heq
  obtain ⟨oid, hoid, -⟩ := h.registered node entry' hentry
  exact hne (h.apart other node oid ⟨entry', hentry', hoid⟩ ⟨entry', hentry, hoid⟩)

theorem EntriesFresh.next {s : InfoTree ι} (h : EntriesFresh s) :
    s.entries s.nextEntry = none := by
  by_contra hne
  exact lt_irrefl _ (h _ hne)

theorem EntriesFresh.free {s : InfoTree ι} (h : EntriesFresh s) (entry : EntryPtr) :
    ∀ e, Function.update s.entries entry none e ≠ none → e < s.nextEntry := by
  intro e he
  by_cases heq : e = entry
  · subst heq
    exact absurd (Function.update_self _ _ _) he
  · rw [Function.update_of_ne heq] at he
    exact h e he

/-- An entry that is freed right away leaves nothing. -/
theorem freeEntry_allocEntry {s : InfoTree ι} (h : EntriesFresh s) :
    freeEntry (allocEntry s) s.nextEntry = { s with nextEntry := s.nextEntry + 1 } := by
  unfold freeEntry allocEntry
  have hentries : Function.update (Function.update s.entries s.nextEntry (some none))
      s.nextEntry none = s.entries := by
    rw [Function.update_idem, ← h.next, Function.update_eq_self]
  dsimp only
  rw [hentries]

theorem sysctlChildren_registered {s : InfoTree ι} {oid : OidPtr}
    (hreg : oid ∈ vertices s.oids) : sysctlChildren s oid = s :=
  if_pos hreg

variable [DecidableEq ι] {info : ι → InfoNode}

/-! ## Creation -/

/-- The state once a node has been created. -/
def createdTree (s : InfoTree ι) (parentList : Option OidPtr) (node : ι) : InfoTree ι where
  osPrivate := Function.update s.osPrivate node (some s.nextEntry)
  entries := Function.update s.entries s.nextEntry (some (some s.nextOid))
  oids := (s.nextOid, parentList) :: s.oids
  nextEntry := s.nextEntry + 1
  nextOid := s.nextOid + 1
  faults := s.faults

/-- A creation succeeds and adds an entry and an oid, or fails and keeps neither. -/
theorem createNodeUnder_cases {s : InfoTree ι} (h : EntriesFresh s) (parentList : Option OidPtr)
    (node : ι) (env : CreateEnv) :
    createNodeUnder info s parentList node env = (0, createdTree s parentList node) ∨
      ∃ rc next, rc ≠ 0 ∧ s.nextEntry ≤ next ∧
        createNodeUnder info s parentList node env = (rc, { s with nextEntry := next }) := by
  unfold createNodeUnder
  dsimp only
  -- no memory for an entry; an entry but no oid; an entry with an oid
  split_ifs with hmalloc hoid
  · exact Or.inr ⟨-ENOMEM, s.nextEntry, by decide, le_refl _, rfl⟩
  · rw [freeEntry_allocEntry h]
    exact Or.inr ⟨- Kblock.EIO, s.nextEntry + 1, by decide, Nat.le_succ _, rfl⟩
  · refine Or.inl ?_
    unfold createdTree addOid allocEntry
    dsimp only
    rw [Function.update_idem]

theorem owns_createdTree {s : InfoTree ι} (h : TreeSound s) (parentList : Option OidPtr) {node : ι}
    (hnew : s.osPrivate node = none) (m : ι) (oid : OidPtr) :
    Owns (createdTree s parentList node) m oid ↔ m = node ∧ oid = s.nextOid ∨ Owns s m oid := by
  unfold Owns createdTree
  dsimp only
  by_cases hm : m = node
  · subst hm
    rw [Function.update_self, hnew]
    simp [eq_comm]
  · rw [Function.update_of_ne hm]
    constructor
    -- the entry of another node is an old one, and keeps its oid
    · rintro ⟨entry, hentry, hoid⟩
      have hne : entry ≠ s.nextEntry := by
        obtain ⟨oid', hoid', -⟩ := h.registered m entry hentry
        exact ne_of_lt (h.entriesFresh entry (by rw [hoid']; exact Option.some_ne_none _))
      rw [Function.update_of_ne hne] at hoid
      exact Or.inr ⟨entry, hentry, hoid⟩
    · rintro (⟨heq, -⟩ | ⟨entry, hentry, hoid⟩)
      · exact absurd heq hm
      · have hne : entry ≠ s.nextEntry :=
          ne_of_lt (h.entriesFresh entry (by rw [hoid]; exact Option.some_ne_none _))
        exact ⟨entry, hentry, by rw [Function.update_of_ne hne, hoid]⟩

theorem createdTree_sound {s : InfoTree ι} (h : TreeSound s) {parentList : Option OidPtr} {node : ι}
    (hnew : s.osPrivate node = none) (hparent : ∀ p ∈ parentList, p ∈ vertices s.oids) :
    TreeSound (createdTree s parentList node) := by
  have howns := owns_createdTree h parentList hnew
  refine
    { registered := registered_of_owns ?_
      clean := h.clean
      entriesFresh := ?_
      oidsFresh := ?_
      owned := ?_
      apart := ?_
      grown := h.grown.cons (fun b hb ↦ h.registered_fresh hb)
        (fun p hp ↦ h.registered_fresh (hparent p hp)) }
  · intro m hprivate
    by_cases hm : m = node
    · exact ⟨s.nextOid, (howns m _).mpr (Or.inl ⟨hm, rfl⟩), List.mem_cons_self⟩
    · have hold : s.osPrivate m ≠ none := by
        simpa [createdTree, Function.update_of_ne hm] using hprivate
      obtain ⟨oid, hoid, hreg⟩ := h.owns_of_private hold
      exact ⟨oid, (howns m oid).mpr (Or.inr hoid), List.mem_cons_of_mem _ hreg⟩
  · intro entry hentry
    by_cases hne : entry = s.nextEntry
    · rw [hne]
      exact Nat.lt_succ_self _
    · have hold : s.entries entry ≠ none := by
        simpa [createdTree, Function.update_of_ne hne] using hentry
      exact Nat.lt_succ_of_lt (h.entriesFresh entry hold)
  · intro entry oid hoid
    by_cases hne : entry = s.nextEntry
    · have heq : s.nextOid = oid := by simpa [createdTree, hne] using hoid
      rw [← heq]
      exact Nat.lt_succ_self _
    · have hold : s.entries entry = some (some oid) := by
        simpa [createdTree, Function.update_of_ne hne] using hoid
      exact Nat.lt_succ_of_lt (h.oidsFresh entry oid hold)
  · intro oid hreg
    rcases List.mem_cons.mp hreg with heq | hold
    · exact ⟨node, (howns node oid).mpr (Or.inl ⟨rfl, heq⟩)⟩
    · obtain ⟨m, hm⟩ := h.owned oid hold
      exact ⟨m, (howns m oid).mpr (Or.inr hm)⟩
  -- the new oid was not registered, so no other node owns it
  · intro m m' oid hm hm'
    have hold : ∀ n, Owns s n s.nextOid → False := fun n hn ↦
      lt_irrefl _ (h.registered_fresh (h.owns_registered hn))
    rcases (howns m oid).mp hm with ⟨hn, hoid⟩ | hn <;>
      rcases (howns m' oid).mp hm' with ⟨hn', hoid'⟩ | hn'
    · rw [hn, hn']
    · exact absurd (hoid ▸ hn') (hold m')
    · exact absurd (hoid' ▸ hn) (hold m)
    · exact h.apart m m' oid hn hn'

theorem createNodeUnder_sound {s : InfoTree ι} (h : TreeSound s) {parentList : Option OidPtr}
    {node : ι} (hnew : s.osPrivate node = none)
    (hparent : ∀ p ∈ parentList, p ∈ vertices s.oids) (env : CreateEnv) :
    TreeSound (createNodeUnder info s parentList node env).2 := by
  rcases createNodeUnder_cases h.entriesFresh parentList node env with hok |
      ⟨rc, next, -, hle, hfail⟩
  · rw [hok]
    exact createdTree_sound h hnew hparent
  · rw [hfail]
    exact
      { h with
        entriesFresh := fun entry hentry ↦
          Nat.lt_of_lt_of_le (h.entriesFresh entry hentry) hle }

theorem kfioInfoOsCreateNode_sound {s : InfoTree ι} (h : TreeSound s) {node : ι}
    (hnew : s.osPrivate node = none) (parent : Option ι) (env : CreateEnv) :
    TreeSound (kfioInfoOsCreateNode info s parent node env).2 := by
  unfold kfioInfoOsCreateNode
  cases parent with
  | none =>
      dsimp only
      split_ifs
      · exact h
      · refine createNodeUnder_sound h hnew ?_ env
        intro p hp
        cases hp
  | some parent =>
      dsimp only
      cases hdir : s.osPrivate parent with
      | none => exact h
      | some parentDir =>
          obtain ⟨oid, hoid, hreg⟩ := h.registered parent parentDir hdir
          dsimp only
          rw [hoid]
          dsimp only
          rw [sysctlChildren_registered hreg]
          refine createNodeUnder_sound h hnew ?_ env
          intro p hp
          cases hp
          exact hreg

/-! ## Removal -/

/-- The state once a node with an entry has been removed. -/
def removedTree (s : InfoTree ι) (node : ι) (entry : EntryPtr) (oid : OidPtr) : InfoTree ι :=
  { s with
    osPrivate := Function.update s.osPrivate node none
    entries := Function.update s.entries entry none
    oids := prune oid s.oids }

theorem kfioInfoOsRemoveNode_eq {s : InfoTree ι} (h : TreeSound s) {node : ι} {entry : EntryPtr}
    {oid : OidPtr} (hentry : s.osPrivate node = some entry)
    (hoid : s.entries entry = some (some oid)) :
    kfioInfoOsRemoveNode s node = removedTree s node entry oid := by
  have hreg : oid ∈ vertices s.oids := h.owns_registered ⟨entry, hentry, hoid⟩
  unfold kfioInfoOsRemoveNode
  rw [hentry]
  dsimp only
  rw [hoid]
  dsimp only
  unfold sysctlRemoveOid
  rw [if_pos hreg]
  rfl

theorem owns_removedTree {s : InfoTree ι} (h : TreeSound s) {node : ι} {entry : EntryPtr}
    (hentry : s.osPrivate node = some entry) (oid : OidPtr) (m : ι) (o : OidPtr) :
    Owns (removedTree s node entry oid) m o ↔ m ≠ node ∧ Owns s m o := by
  unfold Owns removedTree
  dsimp only
  by_cases hm : m = node
  · simp [hm]
  · rw [Function.update_of_ne hm]
    constructor
    · rintro ⟨entry', hentry', hoid'⟩
      rw [Function.update_of_ne (h.entry_ne hentry hentry' hm)] at hoid'
      exact ⟨hm, entry', hentry', hoid'⟩
    · rintro ⟨-, entry', hentry', hoid'⟩
      exact ⟨entry', hentry',
        by rw [Function.update_of_ne (h.entry_ne hentry hentry' hm), hoid']⟩

theorem removedTree_sound {s : InfoTree ι} (h : TreeSound s) {node : ι} {entry : EntryPtr}
    {oid : OidPtr} (hentry : s.osPrivate node = some entry)
    (hoid : s.entries entry = some (some oid)) (hleaf : ∀ child, ¬ Child s.oids oid child) :
    TreeSound (removedTree s node entry oid) := by
  have hown : Owns s node oid := ⟨entry, hentry, hoid⟩
  have howns := owns_removedTree h hentry oid
  -- a leaf, so pruning takes its oid and no other
  have hvertices : ∀ o, o ∈ vertices (prune oid s.oids) ↔ o ∈ vertices s.oids ∧ o ≠ oid :=
    fun o ↦ h.grown.mem_vertices_prune_leaf (h.owns_registered hown) hleaf
  refine
    { registered := registered_of_owns ?_
      clean := h.clean
      entriesFresh := h.entriesFresh.free entry
      oidsFresh := ?_
      owned := ?_
      apart := ?_
      grown := h.grown.prune oid }
  · intro m hm
    have hne : m ≠ node := by
      intro heq
      exact hm (heq ▸ Function.update_self _ _ _)
    have hold : s.osPrivate m ≠ none := by
      simpa [removedTree, Function.update_of_ne hne] using hm
    obtain ⟨o, ho, hreg⟩ := h.owns_of_private hold
    refine ⟨o, (howns m o).mpr ⟨hne, ho⟩, (hvertices o).mpr ⟨hreg, ?_⟩⟩
    intro heq
    exact hne (h.apart m node oid (heq ▸ ho) hown)
  · intro entry' oid' hoid'
    by_cases he : entry' = entry
    · simp [removedTree, he] at hoid'
    · have hold : s.entries entry' = some (some oid') := by
        simpa [removedTree, Function.update_of_ne he] using hoid'
      exact h.oidsFresh entry' oid' hold
  · intro o ho
    obtain ⟨hold, hne⟩ := (hvertices o).mp ho
    obtain ⟨m, hm⟩ := h.owned o hold
    refine ⟨m, (howns m o).mpr ⟨?_, hm⟩⟩
    intro heq
    exact hne ((heq ▸ hm).unique hown)
  · intro m m' o hm hm'
    exact h.apart m m' o ((howns m o).mp hm).2 ((howns m' o).mp hm').2

/-- The removal of a node whose oid has something registered below it. -/
def OrphansBelow (s : InfoTree ι) : TreeEvent ι → Prop
  | .create _ _ _ => False
  | .remove node => ∃ oid child, Owns s node oid ∧ Child s.oids oid child

theorem kfioInfoOsRemoveNode_sound {s : InfoTree ι} (h : TreeSound s) {node : ι}
    (hgood : ¬ OrphansBelow s (.remove node)) : TreeSound (kfioInfoOsRemoveNode s node) := by
  cases hentry : s.osPrivate node with
  | none =>
      unfold kfioInfoOsRemoveNode
      rw [hentry]
      exact h
  | some entry =>
      obtain ⟨oid, hoid, -⟩ := h.registered node entry hentry
      rw [kfioInfoOsRemoveNode_eq h hentry hoid]
      apply removedTree_sound h hentry hoid
      intro child hchild
      exact hgood ⟨oid, child, ⟨entry, hentry, hoid⟩, hchild⟩

/-- What is registered below the oid is unregistered with it, and its node is not told. -/
theorem kfioInfoOsRemoveNode_orphans {s : InfoTree ι} (h : TreeSound s) {node : ι}
    {oid child : OidPtr} (hown : Owns s node oid) (hchild : Child s.oids oid child) :
    ¬ NodesRegistered (kfioInfoOsRemoveNode s node) := by
  obtain ⟨entry, hentry, hoid⟩ := hown
  have hreg : child ∈ vertices s.oids := List.mem_map_of_mem hchild
  obtain ⟨other, entry', hentry', hoid'⟩ := h.owned child hreg
  have hne : child ≠ oid := ne_of_gt (h.grown.younger child oid hchild)
  have hother : other ≠ node := by
    intro heq
    subst heq
    exact hne (Owns.unique ⟨entry', hentry', hoid'⟩ ⟨entry, hentry, hoid⟩)
  -- its node still has an entry that points at the oid
  have hgone : child ∉ vertices (prune oid s.oids) := by
    rw [mem_vertices_prune]
    rintro ⟨-, hout⟩
    have hroot := root_mem_subtree (h.owns_registered ⟨entry, hentry, hoid⟩)
    exact hout (h.grown.child_mem_subtree hroot hchild)
  rw [kfioInfoOsRemoveNode_eq h hentry hoid]
  intro hafter
  apply hgone
  apply hafter.owns_registered
  exact (owns_removedTree h hentry oid other child).mpr ⟨hother, entry', hentry', hoid'⟩

/-! ## Runs -/

theorem treeStep_sound (s : InfoTree ι) (e : TreeEvent ι) (s' : InfoTree ι) (h : TreeSound s)
    (hgood : ¬ OrphansBelow s e) (hstep : treeStep info s e = some s') : TreeSound s' := by
  cases e with
  | create parent node env =>
      simp only [treeStep, Option.ite_none_right_eq_some, Option.some.injEq] at hstep
      obtain ⟨hnew, rfl⟩ := hstep
      exact kfioInfoOsCreateNode_sound h hnew parent env
  | remove node =>
      cases hstep
      exact kfioInfoOsRemoveNode_sound h hgood

theorem orphansBelow_unregistered (s : InfoTree ι) (e : TreeEvent ι) (h : TreeSound s)
    (hbad : OrphansBelow s e) : ∃ t, treeStep info s e = some t ∧ ¬ NodesRegistered t := by
  cases e with
  | create parent node env => exact hbad.elim
  | remove node =>
      obtain ⟨oid, child, hown, hchild⟩ := hbad
      exact ⟨_, rfl, kfioInfoOsRemoveNode_orphans h hown hchild⟩

/-- A look at the children of an oid changes nothing but the faults, so whatever has happened to
the tree before, a creation succeeds or keeps neither entry nor pointer. -/
theorem kfioInfoOsCreateNode_cases {s : InfoTree ι} (h : EntriesFresh s) (parent : Option ι)
    (node : ι) (env : CreateEnv) :
    ∃ t : InfoTree ι, t.entries = s.entries ∧ t.osPrivate = s.osPrivate ∧
      t.nextEntry = s.nextEntry ∧
      ((∃ parentList, kfioInfoOsCreateNode info s parent node env =
          (0, createdTree t parentList node)) ∨
        ∃ rc next, rc ≠ 0 ∧ s.nextEntry ≤ next ∧
          kfioInfoOsCreateNode info s parent node env = (rc, { t with nextEntry := next })) := by
  have hunder : ∀ t : InfoTree ι, t.entries = s.entries → t.osPrivate = s.osPrivate →
      t.nextEntry = s.nextEntry → ∀ parentList,
      (∃ parentList', createNodeUnder info t parentList node env =
          (0, createdTree t parentList' node)) ∨
        ∃ rc next, rc ≠ 0 ∧ s.nextEntry ≤ next ∧
          createNodeUnder info t parentList node env = (rc, { t with nextEntry := next }) := by
    intro t hentries _ hnext parentList
    have hfresh : EntriesFresh t := by
      unfold EntriesFresh
      rw [hentries, hnext]
      exact h
    rcases createNodeUnder_cases hfresh parentList node env with hok | hfail
    · exact Or.inl ⟨parentList, hok⟩
    · rw [← hnext]
      exact Or.inr hfail
  -- before anything is allocated
  have hearly : ∀ rc : Int32, rc ≠ 0 → ∃ rc' next, rc' ≠ 0 ∧ s.nextEntry ≤ next ∧
      (rc, s) = (rc', { s with nextEntry := next }) := fun rc hrc ↦
    ⟨rc, s.nextEntry, hrc, le_refl _, rfl⟩
  unfold kfioInfoOsCreateNode
  cases parent with
  | none =>
      refine ⟨s, rfl, rfl, rfl, ?_⟩
      dsimp only
      split_ifs
      · exact Or.inr (hearly _ (by decide))
      · exact hunder s rfl rfl rfl none
  | some parent =>
      dsimp only
      split
      · exact ⟨s, rfl, rfl, rfl, Or.inr (hearly _ (by decide))⟩
      · split
        · rename_i oid _
          have hkept : (sysctlChildren s oid).entries = s.entries ∧
              (sysctlChildren s oid).osPrivate = s.osPrivate ∧
              (sysctlChildren s oid).nextEntry = s.nextEntry := by
            unfold sysctlChildren
            split_ifs <;> exact ⟨rfl, rfl, rfl⟩
          obtain ⟨hentries, hprivate, hnext⟩ := hkept
          exact ⟨_, hentries, hprivate, hnext, hunder _ hentries hprivate hnext _⟩
        · rename_i parentDir _ _ _
          exact ⟨s.fault (.badEntry parentDir), rfl, rfl, rfl,
            Or.inr ⟨- Kblock.EIO, s.nextEntry, by decide, le_refl _, rfl⟩⟩

theorem kfioInfoOsCreateNode_failed {s s' : InfoTree ι} (h : EntriesFresh s) {parent : Option ι}
    {node : ι} {env : CreateEnv} {rc : Int32}
    (hcreate : kfioInfoOsCreateNode info s parent node env = (rc, s')) (hrc : rc ≠ 0) :
    s'.entries = s.entries ∧ s'.osPrivate = s.osPrivate := by
  obtain ⟨t, hentries, hprivate, -, ⟨parentList, hok⟩ | ⟨rc', next, -, -, hfail⟩⟩ :=
    @kfioInfoOsCreateNode_cases ι _ info s h parent node env
  · rw [hok] at hcreate
    cases hcreate
    exact absurd rfl hrc
  · rw [hfail] at hcreate
    cases hcreate
    exact ⟨hentries, hprivate⟩

theorem treeStep_entriesFresh (s : InfoTree ι) (e : TreeEvent ι) (s' : InfoTree ι)
    (h : EntriesFresh s) (hstep : treeStep info s e = some s') : EntriesFresh s' := by
  cases e with
  | create parent node env =>
      simp only [treeStep, Option.ite_none_right_eq_some, Option.some.injEq] at hstep
      obtain ⟨-, rfl⟩ := hstep
      obtain ⟨t, hentries, -, hnext, ⟨parentList, hok⟩ | ⟨rc, next, -, hle, hfail⟩⟩ :=
        @kfioInfoOsCreateNode_cases ι _ info s h parent node env
      · rw [hok]
        intro entry hentry
        by_cases hne : entry = t.nextEntry
        · rw [hne]
          exact Nat.lt_succ_self _
        · have hold : t.entries entry ≠ none := by
            simpa [createdTree, Function.update_of_ne hne] using hentry
          rw [hentries] at hold
          have hlt := h entry hold
          rw [← hnext] at hlt
          exact Nat.lt_succ_of_lt hlt
      · rw [hfail]
        intro entry hentry
        exact Nat.lt_of_lt_of_le (h entry (hentries ▸ hentry)) hle
  | remove node =>
      cases hstep
      unfold kfioInfoOsRemoveNode
      split
      · exact h
      · dsimp only
        split
        · unfold sysctlRemoveOid
          split_ifs
          · exact h.free _
          · exact h.free _
        · exact h

/-- In every run, each node with an entry has a registered oid and nothing that is gone is used,
exactly when no node is removed while something is registered below its oid.  A creation that fails
leaves the entries and the private pointers as they are, in any run. -/
theorem nodes_registered (info : ι → InfoNode) (es : List (TreeEvent ι)) :
    (Throughout (treeStep info) NodesRegistered (emptyTree ι) es ↔
        Along (treeStep info) (fun s e ↦ ¬ OrphansBelow s e) (emptyTree ι) es) ∧
      ∀ s s' parent node env rc, run (treeStep info) (emptyTree ι) es = some s →
        kfioInfoOsCreateNode info s parent node env = (rc, s') → rc ≠ 0 →
        s'.entries = s.entries ∧ s'.osPrivate = s.osPrivate := by
  constructor
  · exact throughout_iff_along (fun _ h ↦ h.toNodesRegistered) treeStep_sound
      orphansBelow_unregistered es emptyTree_sound
  · intro s s' parent node env rc hrun hcreate hrc
    have hfresh : EntriesFresh s :=
      run_invariant treeStep_entriesFresh (@emptyTree_sound ι).entriesFresh hrun
    exact kfioInfoOsCreateNode_failed hfresh hcreate hrc

end Tree

/-! A directory with one node in it, removed before the node. -/

def dirAndLeaf : Bool → InfoNode
  | true => ⟨"fusion", .dir, 0o555, 0⟩
  | false => ⟨"serial", .string, 0o444, 64⟩

def removedTooEarly : List (TreeEvent Bool) :=
  [.create none true ⟨true, true⟩, .create (some true) false ⟨true, true⟩, .remove true,
    .remove false]

theorem nodes_unregistered :
    (run (treeStep dirAndLeaf) (emptyTree Bool) (removedTooEarly.take 3)).map
        (fun s ↦ (s.osPrivate false, s.entries 1, s.oids)) = some (some 1, some (some 1), []) ∧
      (run (treeStep dirAndLeaf) (emptyTree Bool) removedTooEarly).map InfoTree.faults =
        some [.removalOf 1] ∧
      ¬ Throughout (treeStep dirAndLeaf) NodesRegistered (emptyTree Bool) removedTooEarly := by
  have hfaults : (run (treeStep dirAndLeaf) (emptyTree Bool) removedTooEarly).map
      InfoTree.faults = some [.removalOf 1] := by decide
  refine ⟨by decide, hfaults, not_throughout_of_last hfaults ?_⟩
  intro t ht hall
  have hclean := hall.clean
  rw [ht] at hclean
  cases hclean

end IomemoryVsl.Kinfo
