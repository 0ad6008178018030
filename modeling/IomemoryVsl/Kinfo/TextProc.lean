import IomemoryVsl.Kinfo.Node
import Mathlib.Algebra.Group.Nat.Defs

/-!
# Requests on the text nodes (`kinfo.c`)

`kfio_sysctl_text_proc` lets the handler of a `TEXT` or `SEQFILE` node write its text to a data
handle of the library, and copies what the handle has kept of it to user space.  The data handle and
the handlers are parameters.
-/

namespace IomemoryVsl.Kinfo

open Kblock Kscatter

/-- The data handles of the library: they count everything that is written to them and keep as much
of it, from the start, as their buffer holds. -/
structure DataLib (H : Type) where
  alloc : UInt64 → H
  write : H → List UInt8 → H
  sizeWritten : H → UInt64
  sizeValid : H → UInt64
  /-- the contents of the buffer -/
  data : H → List UInt8
  write_nil : ∀ h, write h [] = h
  write_write : ∀ h text more, write (write h text) more = write h (text ++ more)
  counts : ∀ size text, sizeWritten (write (alloc size) text) = UInt64.ofNat text.length
  keeps : ∀ size text, (sizeValid (write (alloc size) text)).toNat = min text.length size.toNat
  valid : ∀ size text,
    (data (write (alloc size) text)).take (min text.length size.toNat) = text.take size.toNat

/-- `struct kfio_info_seq_ops`; it is for `seq_show` to write, so it answers with what it wrote. -/
structure SeqOps (σ γ H : Type) where
  seqInit : σ → Int64 → H → Option γ × Int64 × σ
  seqNext : σ → γ → Int64 → Option γ × Int64 × σ
  seqStop : σ → Option γ → σ
  seqShow : σ → γ → H → Int32 × List UInt8 × σ

structure InfoHandlers (σ γ H : Type) where
  /-- `kfio_info_generic_text_handler` -/
  text : σ → H → Int32 × List UInt8 × σ
  seq : SeqOps σ γ H

inductive SeqCall (γ : Type) where
  | seqInit
  | seqShow (cookie : γ)
  | seqNext (cookie : γ)
  | seqStop (cookie : Option γ)
deriving DecidableEq, Repr

def SeqCall.isStop {γ : Type} : SeqCall γ → Bool
  | .seqStop _ => true
  | _ => false

/-- The cookie that the call shows. -/
def SeqCall.shown {γ : Type} : SeqCall γ → Option γ
  | .seqShow cookie => some cookie
  | _ => none

/-- The state of the node's driver, with the calls to its iterator. -/
structure TextState (σ γ : Type) where
  driver : σ
  calls : List (SeqCall γ)
deriving DecidableEq, Repr

section Procs

variable {σ γ H : Type} (k : SysctlKernel) (d : DataLib H) (ops : SeqOps σ γ H)
  (handlers : InfoHandlers σ γ H)

/-- The loop of `kfio_info_seqfile_handler`, which ends when the iterator does. -/
def seqfileLoop : Nat → Option γ → Int64 → H → TextState σ γ →
    Option (Int32 × Option γ × H × TextState σ γ)
  | 0, _, _, _, _ => none
  | _ + 1, none, _, h, s => some (0, none, h, s)
  | fuel + 1, some cookie, pos, h, s =>
      let (rc, bytes, driver) := ops.seqShow s.driver cookie h
      let h := d.write h bytes
      let s : TextState σ γ := ⟨driver, s.calls ++ [.seqShow cookie]⟩
      if rc ≠ 0 then some (rc, some cookie, h, s)
      else
        let (cookie', pos, driver) := ops.seqNext s.driver cookie pos
        seqfileLoop fuel cookie' pos h ⟨driver, s.calls ++ [.seqNext cookie]⟩

def kfioInfoSeqfileHandler (fuel : Nat) (h : H) (s : TextState σ γ) :
    Option (Int32 × H × TextState σ γ) :=
  let (cookie, pos, driver) := ops.seqInit s.driver 0 h
  (seqfileLoop d ops fuel cookie pos h ⟨driver, s.calls ++ [.seqInit]⟩).map
    fun (rc, cookie, h, s) ↦ (rc, h, ⟨ops.seqStop s.driver cookie, s.calls ++ [.seqStop cookie]⟩)

/-- The handler that `kfio_sysctl_text_proc` chooses by the type of the node. -/
def textProcHandler (node : InfoNode) (fuel : Nat) (h : H) (s : TextState σ γ) :
    Option (Int32 × H × TextState σ γ) :=
  if node.type = .text then
    let (rc, text, driver) := handlers.text s.driver h
    some (rc, d.write h text, ⟨driver, s.calls⟩)
  else kfioInfoSeqfileHandler d handlers.seq fuel h s

/-- Whether `kfio_vmalloc` succeeds, and what `kfio_info_alloc_data_handle` returns. -/
structure TextEnv where
  vmalloc : Bool
  allocHandle : Int32

structure TextResult (σ γ : Type) where
  rc : Int32
  req : SysctlReq
  state : TextState σ γ
  /-- the conditions that were asserted -/
  asserts : List Bool
deriving DecidableEq, Repr

/-- The size of the buffer; without `oldptr` there is none. -/
def textProcSize (req : SysctlReq) : UInt64 :=
  if req.oldptr then req.room else 0

/-- The part of `kfio_sysctl_text_proc` that follows a handler that has succeeded. -/
def textProcCopy (h : H) (req : SysctlReq) (s : TextState σ γ) : TextResult σ γ :=
  let size := textProcSize req
  let total := d.sizeWritten h
  let valid := d.sizeValid h
  let (rc, out) := k.sysctlOut req ((d.data h).take valid.toNat)
  let asserts := [decide (valid ≤ size), decide (rc ≠ ENOMEM)]
  if rc = 0 ∧ size < total then
    -- the overflow counts as well
    let rc : Int32 := if out.oldptr then ENOMEM else 0
    ⟨rc, { out with oldidx := out.oldidx + (total - size) }, s, asserts⟩
  else ⟨positiveErrno rc, out, s, asserts⟩

def kfioSysctlTextProc (node : InfoNode) (env : TextEnv) (fuel : Nat) (req : SysctlReq)
    (s : TextState σ γ) : Option (TextResult σ γ) :=
  if req.oldptr ∧ env.vmalloc = false then some ⟨ENOMEM, req, s, []⟩
  else if env.allocHandle ≠ 0 then some ⟨positiveErrno env.allocHandle, req, s, []⟩
  else
    (textProcHandler d handlers node fuel (d.alloc (textProcSize req)) s).map fun (rc, h, s) ↦
      if rc ≠ 0 then ⟨positiveErrno rc, req, s, []⟩ else textProcCopy k d h req s

end Procs

/-! ## The text of a handler -/

section Text

variable {σ γ H : Type} {k : SysctlKernel} {d : DataLib H} {ops : SeqOps σ γ H}
  {handlers : InfoHandlers σ γ H}

/-- An iteration from a cookie on: what each of the cookies shows, the calls that are made for it,
the first return code that is not zero, and the cookie it ends with. -/
inductive Iterates (d : DataLib H) (ops : SeqOps σ γ H) :
    σ → Option γ → Int64 → H → List (γ × List UInt8) → List (SeqCall γ) → Int32 → Option γ → σ →
      Prop
  | finished (x : σ) (pos : Int64) (h : H) : Iterates d ops x none pos h [] [] 0 none x
  | failed {x x' : σ} {cookie : γ} (pos : Int64) {h : H} {rc : Int32} {bytes : List UInt8}
      (hshow : ops.seqShow x cookie h = (rc, bytes, x')) (hrc : rc ≠ 0) :
      Iterates d ops x (some cookie) pos h [(cookie, bytes)] [.seqShow cookie] rc (some cookie) x'
  | shown {x x₁ x₂ x' : σ} {cookie : γ} {pos pos' : Int64} {h : H} {bytes : List UInt8}
      {cookie' last : Option γ} {shows : List (γ × List UInt8)} {calls : List (SeqCall γ)}
      {rc : Int32}
      (hshow : ops.seqShow x cookie h = (0, bytes, x₁))
      (hnext : ops.seqNext x₁ cookie pos = (cookie', pos', x₂))
      (hrest : Iterates d ops x₂ cookie' pos' (d.write h bytes) shows calls rc last x') :
      Iterates d ops x (some cookie) pos h ((cookie, bytes) :: shows)
        (.seqShow cookie :: .seqNext cookie :: calls) rc last x'

/-- The shows of an iteration are of its cookies, one each and in its order, and it is not stopped
from within. -/
theorem Iterates.calls_spec {x x' : σ} {cookie last : Option γ} {pos : Int64} {h : H}
    {shows : List (γ × List UInt8)} {calls : List (SeqCall γ)} {rc : Int32}
    (hi : Iterates d ops x cookie pos h shows calls rc last x') :
    calls.filterMap SeqCall.shown = shows.map Prod.fst ∧ calls.countP SeqCall.isStop = 0 := by
  induction hi with
  | finished => exact ⟨rfl, rfl⟩
  | failed => exact ⟨rfl, rfl⟩
  | shown hshow hnext hrest ih =>
      obtain ⟨hshows, hstops⟩ := ih
      refine ⟨?_, hstops⟩
      rw [List.map_cons, ← hshows]
      rfl

/-- The loop computes the iteration, given as many turns as there are cookies and one more. -/
theorem Iterates.loop {x x' : σ} {cookie last : Option γ} {pos : Int64} {h : H}
    {shows : List (γ × List UInt8)} {calls : List (SeqCall γ)} {rc : Int32}
    (hi : Iterates d ops x cookie pos h shows calls rc last x') {fuel : Nat}
    (hfuel : shows.length < fuel) (before : List (SeqCall γ)) :
    seqfileLoop d ops fuel cookie pos h ⟨x, before⟩ =
      some (rc, last, d.write h (shows.flatMap Prod.snd), ⟨x', before ++ calls⟩) := by
  induction hi generalizing fuel before with
  | finished x pos h =>
      obtain ⟨n, rfl⟩ := Nat.exists_eq_add_one_of_ne_zero (Nat.ne_zero_of_lt hfuel)
      rw [List.flatMap_nil, d.write_nil, List.append_nil]
      rfl
  | failed pos hshow hrc =>
      obtain ⟨n, rfl⟩ := Nat.exists_eq_add_one_of_ne_zero (Nat.ne_zero_of_lt hfuel)
      simp only [seqfileLoop, hshow]
      rw [if_pos hrc, List.flatMap_singleton]
  | shown hshow hnext hrest ih =>
      obtain ⟨n, rfl⟩ := Nat.exists_eq_add_one_of_ne_zero (Nat.ne_zero_of_lt hfuel)
      rw [List.length_cons] at hfuel
      simp only [seqfileLoop, hshow, hnext]
      rw [if_neg (not_not.mpr rfl), ih (by omega), d.write_write, List.flatMap_cons,
        List.append_assoc, List.append_assoc]
      rfl

/-- What the loop returns is an iteration. -/
theorem iterates_of_loop {fuel : Nat} {cookie last : Option γ} {pos : Int64} {h h' : H}
    {s s' : TextState σ γ} {rc : Int32}
    (hl : seqfileLoop d ops fuel cookie pos h s = some (rc, last, h', s')) :
    ∃ shows calls, Iterates d ops s.driver cookie pos h shows calls rc last s'.driver ∧
      h' = d.write h (shows.flatMap Prod.snd) ∧ s'.calls = s.calls ++ calls := by
  induction fuel generalizing cookie pos h s with
  | zero => cases hl
  | succ fuel ih =>
      cases cookie with
      | none =>
          cases hl
          exact ⟨[], [], .finished _ _ _, (d.write_nil _).symm, (List.append_nil _).symm⟩
      | some cookie =>
          rcases hshow : ops.seqShow s.driver cookie h with ⟨rc₁, bytes, x₁⟩
          rcases hnext : ops.seqNext x₁ cookie pos with ⟨cookie', pos', x₂⟩
          simp only [seqfileLoop, hshow, hnext] at hl
          by_cases hrc : rc₁ = 0
          · rw [if_neg (not_not.mpr hrc)] at hl
            obtain ⟨shows, calls, hi, hh, hcalls⟩ := ih hl
            refine ⟨(cookie, bytes) :: shows, .seqShow cookie :: .seqNext cookie :: calls,
              .shown (hrc ▸ hshow) hnext hi, ?_, ?_⟩
            · rw [hh, d.write_write, List.flatMap_cons]
            · rw [hcalls, List.append_assoc, List.append_assoc]
              rfl
          · rw [if_pos hrc] at hl
            cases hl
            refine ⟨[(cookie, bytes)], [.seqShow cookie], .failed pos hshow hrc, ?_, rfl⟩
            rw [List.flatMap_singleton]

/-- What the handler of a `SEQFILE` node shows: an iteration from what `seq_init` gives, and
`seq_stop` with the cookie it ends with. -/
def SeqShows (d : DataLib H) (ops : SeqOps σ γ H) (h : H) (s : TextState σ γ)
    (shows : List (γ × List UInt8)) (rc : Int32) (s' : TextState σ γ) : Prop :=
  ∃ calls last x,
    Iterates d ops (ops.seqInit s.driver 0 h).2.2 (ops.seqInit s.driver 0 h).1
        (ops.seqInit s.driver 0 h).2.1 h shows calls rc last x ∧
      s' = ⟨ops.seqStop x last, s.calls ++ (.seqInit :: calls ++ [.seqStop last])⟩

theorem SeqShows.returns {h : H} {s s' : TextState σ γ} {shows : List (γ × List UInt8)} {rc : Int32}
    (hs : SeqShows d ops h s shows rc s') {fuel : Nat} (hfuel : shows.length < fuel) :
    kfioInfoSeqfileHandler d ops fuel h s = some (rc, d.write h (shows.flatMap Prod.snd), s') := by
  obtain ⟨calls, last, x, hi, rfl⟩ := hs
  unfold kfioInfoSeqfileHandler
  dsimp only
  rw [hi.loop hfuel]
  simp

theorem seqShows_of_returns {h h' : H} {s s' : TextState σ γ} {rc : Int32} {fuel : Nat}
    (hr : kfioInfoSeqfileHandler d ops fuel h s = some (rc, h', s')) :
    ∃ shows, SeqShows d ops h s shows rc s' ∧ h' = d.write h (shows.flatMap Prod.snd) := by
  unfold kfioInfoSeqfileHandler at hr
  obtain ⟨⟨rc, last, h₁, s₁⟩, hl, heq⟩ := Option.map_eq_some_iff.mp hr
  cases heq
  obtain ⟨shows, calls, hi, hh, hcalls⟩ := iterates_of_loop hl
  refine ⟨shows, ⟨calls, last, s₁.driver, hi, ?_⟩, hh⟩
  rw [hcalls]
  simp

/-- One `seq_show` for each cookie in the order of the iteration, and one `seq_stop`. -/
theorem SeqShows.protocol {h : H} {s s' : TextState σ γ} {shows : List (γ × List UInt8)}
    {rc : Int32}
    (hs : SeqShows d ops h s shows rc s') :
    ∃ calls, s'.calls = s.calls ++ calls ∧
      calls.filterMap SeqCall.shown = shows.map Prod.fst ∧ calls.countP SeqCall.isStop = 1 := by
  obtain ⟨calls, last, x, hi, rfl⟩ := hs
  obtain ⟨hshows, hstops⟩ := hi.calls_spec
  refine ⟨_, rfl, ?_, ?_⟩
  · rw [List.filterMap_append, List.filterMap_cons, hshows]
    exact List.append_nil _
  · rw [List.countP_append, List.countP_cons, hstops]
    rfl

/-- The handler of a text node returns `rc` and has written `text`. -/
inductive HandlerWrites (d : DataLib H) (handlers : InfoHandlers σ γ H) (node : InfoNode) (h : H)
    (s : TextState σ γ) : Int32 → List UInt8 → TextState σ γ → Prop
  | text {rc : Int32} {text : List UInt8} {x : σ} (htype : node.type = .text)
      (hrun : handlers.text s.driver h = (rc, text, x)) :
      HandlerWrites d handlers node h s rc text ⟨x, s.calls⟩
  | seqfile {shows : List (γ × List UInt8)} {rc : Int32} {s' : TextState σ γ}
      (htype : node.type = .seqfile) (hrun : SeqShows d handlers.seq h s shows rc s') :
      HandlerWrites d handlers node h s rc (shows.flatMap Prod.snd) s'

theorem HandlerWrites.returns {node : InfoNode} {h : H} {s s' : TextState σ γ} {rc : Int32}
    {text : List UInt8} (hw : HandlerWrites d handlers node h s rc text s') :
    ∃ n, ∀ fuel ≥ n,
      textProcHandler d handlers node fuel h s = some (rc, d.write h text, s') := by
  unfold textProcHandler
  cases hw with
  | text htype hrun =>
      refine ⟨0, ?_⟩
      intro fuel _
      rw [if_pos htype, hrun]
  | @seqfile shows _ _ htype hrun =>
      refine ⟨shows.length + 1, ?_⟩
      intro fuel hfuel
      rw [if_neg (by rw [htype]; decide)]
      exact hrun.returns hfuel

/-! ## What reaches the caller -/

/-- The copy to user space fails on the memory there. -/
def CopyFault (k : SysctlKernel) (req : SysctlReq) (text : List UInt8) : Prop :=
  req.oldptr = true ∧ (k.sysctlOut req (text.take req.room.toNat)).1 = EFAULT

/-- The request has got as much of the text as it has room for, and says how long all of it is. -/
structure Conveys (k : SysctlKernel) (req : SysctlReq) (text : List UInt8) (r : TextResult σ γ) :
    Prop where
  asserted : ∀ b ∈ r.asserts, b = true
  advanced : ¬ CopyFault k req text → r.req.oldidx = req.oldidx + UInt64.ofNat text.length
  copied : ¬ CopyFault k req text →
    r.req.copied = req.copied ++ if req.oldptr then text.take req.room.toNat else []
  returned : ¬ CopyFault k req text →
    r.rc = if req.oldptr = true ∧ req.room.toNat < text.length then ENOMEM else 0
  faulted : CopyFault k req text → r.rc = EFAULT

theorem sysctlOut_kept {req : SysctlReq} (hidx : req.oldidx ≤ req.oldlen) (text : List UInt8) :
    let out := k.sysctlOut req (text.take (textProcSize req).toNat)
    out.1 = 0 ∧ out.2.copied =
        req.copied ++ (if req.oldptr then text.take req.room.toNat else []) ∧
        ¬ CopyFault k req text ∨
      out.1 = EFAULT ∧ CopyFault k req text := by
  unfold textProcSize CopyFault
  cases hold : req.oldptr with
  | false =>
      obtain ⟨hrc, hcopied⟩ := k.out_probe req (text.take (0 : UInt64).toNat) hold
      refine Or.inl ⟨hrc, ?_, ?_⟩
      · exact hcopied.trans (List.append_nil _).symm
      · rintro ⟨hset, -⟩
        cases hset
  | true =>
      have hlen : (text.take req.room.toNat).length ≤ req.room.toNat := by
        rw [List.length_take]
        omega
      rcases k.out_fits req _ hold hidx hlen with hrc | hrc
      · refine Or.inl ⟨hrc, k.out_copies req _ hold hrc, ?_⟩
        rintro ⟨-, hfault⟩
        rw [hrc] at hfault
        cases hfault
      · exact Or.inr ⟨hrc, rfl, hrc⟩

/-- How far the copy itself advances the index: by the size of the buffer, or by all of the text. -/
theorem sysctlOut_oldidx (req : SysctlReq) (text : List UInt8) :
    (k.sysctlOut req (text.take (textProcSize req).toNat)).2.oldidx =
      req.oldidx +
        if (textProcSize req).toNat < text.length then textProcSize req
        else UInt64.ofNat text.length := by
  rw [k.out_oldidx, List.length_take]
  by_cases hlong : (textProcSize req).toNat < text.length
  · rw [if_pos hlong, Nat.min_eq_left (Nat.le_of_lt hlong), UInt64.ofNat_toNat]
  · rw [if_neg hlong, Nat.min_eq_right (Nat.not_lt.mp hlong)]

/-- The index is advanced by what is copied, and by the overflow if there is one: in the sum, by the
length of the text. -/
theorem textProcCopy_conveys {req : SysctlReq} (hidx : req.oldidx ≤ req.oldlen) {text : List UInt8}
    (hcount : text.length < 2 ^ 64) (s : TextState σ γ) :
    Conveys k req text
      (textProcCopy k d (d.write (d.alloc (textProcSize req)) text) req s) := by
  have hkeeps := d.keeps (textProcSize req) text
  have hdata := d.valid (textProcSize req) text
  have hlength : (UInt64.ofNat text.length).toNat = text.length := UInt64.toNat_ofNat_of_lt' hcount
  have hvalid : d.sizeValid (d.write (d.alloc (textProcSize req)) text) ≤ textProcSize req := by
    rw [UInt64.le_iff_toNat_le, hkeeps]
    omega
  have hover : textProcSize req < UInt64.ofNat text.length ↔
      (textProcSize req).toNat < text.length := by
    rw [UInt64.lt_iff_toNat_lt, hlength]
  have hroom : req.oldptr = true → textProcSize req = req.room := fun hold ↦ if_pos hold
  have hmoved := sysctlOut_oldidx (k := k) req text
  have hptr := (k.out_frame req (text.take (textProcSize req).toNat)).1
  unfold textProcCopy
  dsimp only
  rw [hkeeps, hdata, d.counts]
  rcases sysctlOut_kept (k := k) hidx text with ⟨hrc, hcopied, hok⟩ | ⟨hrc, hfault⟩
  · rw [hrc]
    -- what did not fit is added to the index on top of what did
    by_cases hlong : (textProcSize req).toNat < text.length
    · rw [if_pos ⟨rfl, hover.mpr hlong⟩]
      rw [if_pos hlong] at hmoved
      exact
        { asserted := by simp [hvalid]; decide
          advanced := fun _ ↦ by rw [hmoved]; grind
          copied := fun _ ↦ hcopied
          returned := fun _ ↦ by
            rw [hptr]
            cases hold : req.oldptr with
            | false => rfl
            | true =>
                rw [hroom hold] at hlong
                rw [if_pos rfl, if_pos ⟨rfl, hlong⟩]
          faulted := fun hf ↦ absurd hf hok }
    · rw [if_neg fun h ↦ hlong (hover.mp h.2)]
      rw [if_neg hlong] at hmoved
      exact
        { asserted := by simp [hvalid]; decide
          advanced := fun _ ↦ hmoved
          copied := fun _ ↦ hcopied
          returned := fun _ ↦ by
            rw [if_neg]
            · rfl
            · rintro ⟨hold, hlt⟩
              rw [hroom hold] at hlong
              exact hlong hlt
          faulted := fun hf ↦ absurd hf hok }
  -- a fault says nothing of the index or the bytes
  · rw [hrc, if_neg (fun h ↦ absurd h.1 (by decide))]
    exact
      { asserted := by simp [hvalid]; decide
        advanced := fun hok ↦ absurd hfault hok
        copied := fun hok ↦ absurd hfault hok
        returned := fun hok ↦ absurd hfault hok
        faulted := fun _ ↦ show positiveErrno EFAULT = EFAULT from by decide }

/-- A request whose allocations succeed, on a node whose handler does. -/
theorem kfioSysctlTextProc_conveys {node : InfoNode} {req : SysctlReq} {s s' : TextState σ γ}
    {text : List UInt8} (hidx : req.oldidx ≤ req.oldlen) (hcount : text.length < 2 ^ 64)
    (hw : HandlerWrites d handlers node (d.alloc (textProcSize req)) s 0 text s') :
    ∃ n, ∀ fuel ≥ n, ∃ r,
      kfioSysctlTextProc k d handlers node ⟨true, 0⟩ fuel req s = some r ∧
        Conveys k req text r ∧ r.state = s' := by
  obtain ⟨n, hn⟩ := hw.returns
  refine ⟨n, ?_⟩
  intro fuel hfuel
  refine ⟨textProcCopy k d (d.write (d.alloc (textProcSize req)) text) req s', ?_,
    textProcCopy_conveys hidx hcount s', ?_⟩
  · unfold kfioSysctlTextProc
    rw [hn fuel hfuel, if_neg (fun h ↦ Bool.noConfusion h.2), if_neg (not_not.mpr rfl)]
    rfl
  · unfold textProcCopy
    dsimp only
    split_ifs <;> rfl

/-- A request on a node whose handler fails: nothing is copied and the error is returned. -/
theorem kfioSysctlTextProc_failed {node : InfoNode} {req : SysctlReq} {s s' : TextState σ γ}
    {rc : Int32} {text : List UInt8} (hrc : rc ≠ 0)
    (hw : HandlerWrites d handlers node (d.alloc (textProcSize req)) s rc text s') :
    ∃ n, ∀ fuel ≥ n, kfioSysctlTextProc k d handlers node ⟨true, 0⟩ fuel req s =
      some ⟨if rc < 0 then -rc else rc, req, s', []⟩ := by
  obtain ⟨n, hn⟩ := hw.returns
  refine ⟨n, ?_⟩
  intro fuel hfuel
  unfold kfioSysctlTextProc
  rw [hn fuel hfuel, if_neg (fun h ↦ Bool.noConfusion h.2), if_neg (not_not.mpr rfl)]
  exact congrArg some (if_pos hrc)

/-- A read with the room that a probe has asked for gets all of the text. -/
theorem kfioSysctlTextProc_read {node : InfoNode} {probe read : SysctlReq} {text : List UInt8}
    {s s' : TextState σ γ} {r : TextResult σ γ} (hprobe : probe.oldptr = false)
    (hconveys : Conveys k probe text r) (hcount : text.length < 2 ^ 64) (hread : read.oldptr = true)
    (hidx : read.oldidx ≤ read.oldlen) (hroom : r.req.oldidx - probe.oldidx ≤ read.room)
    (hw : HandlerWrites d handlers node (d.alloc (textProcSize read)) s 0 text s')
    (hok : ¬ CopyFault k read text) :
    ∃ n, ∀ fuel ≥ n, ∃ r',
      kfioSysctlTextProc k d handlers node ⟨true, 0⟩ fuel read s = some r' ∧
        r'.rc = 0 ∧ r'.req.copied = read.copied ++ text := by
  have hnull : ¬ CopyFault k probe text := by
    rintro ⟨hset, -⟩
    rw [hprobe] at hset
    cases hset
  have hadvanced : r.req.oldidx - probe.oldidx = UInt64.ofNat text.length := by
    rw [hconveys.advanced hnull]
    grind
  -- the probe has counted the text exactly, so the room it asks for is enough
  have hlen : text.length ≤ read.room.toNat := by
    rw [hadvanced, UInt64.le_iff_toNat_le, UInt64.toNat_ofNat_of_lt' hcount] at hroom
    exact hroom
  obtain ⟨n, hn⟩ := kfioSysctlTextProc_conveys (k := k) hidx hcount hw
  refine ⟨n, ?_⟩
  intro fuel hfuel
  obtain ⟨r', hrun, hreads, -⟩ := hn fuel hfuel
  refine ⟨r', hrun, ?_, ?_⟩
  · rw [hreads.returned hok, if_neg]
    rintro ⟨-, hlt⟩
    omega
  · rw [hreads.copied hok, hread, if_pos rfl, List.take_of_length_le hlen]

end Text

/-- A request on a text node whose allocations and whose handler succeed: the index is advanced by
the length of the text, as much of it is copied as there is room for, and the return code says
whether that was all.  The text of a `SEQFILE` node is what its cookies show, one after the other,
up to the first show that fails if there is one; the iteration is stopped once, however it ends, and
a failure is what the request returns.  So a probe for the size followed by a read with that much
room gets the whole text. -/
theorem kfioSysctlTextProc_delivers {σ γ H : Type} (k : SysctlKernel) (d : DataLib H)
    (handlers : InfoHandlers σ γ H) (node : InfoNode) :
    (∀ req s text s', req.oldidx ≤ req.oldlen → text.length < 2 ^ 64 →
      HandlerWrites d handlers node (d.alloc (textProcSize req)) s 0 text s' →
      ∃ n, ∀ fuel ≥ n, ∃ r,
        kfioSysctlTextProc k d handlers node ⟨true, 0⟩ fuel req s = some r ∧
          Conveys k req text r ∧ r.state = s') ∧
    (∀ fuel h s rc h' s',
      kfioInfoSeqfileHandler d handlers.seq fuel h s = some (rc, h', s') →
      ∃ shows, SeqShows d handlers.seq h s shows rc s' ∧
        h' = d.write h (shows.flatMap Prod.snd) ∧
        ∃ calls, s'.calls = s.calls ++ calls ∧
          calls.filterMap SeqCall.shown = shows.map Prod.fst ∧
          calls.countP SeqCall.isStop = 1) ∧
    (∀ h s shows rc s', SeqShows d handlers.seq h s shows rc s' →
      (∃ n, ∀ fuel ≥ n, kfioInfoSeqfileHandler d handlers.seq fuel h s =
        some (rc, d.write h (shows.flatMap Prod.snd), s')) ∧
      ∃ calls, s'.calls = s.calls ++ calls ∧
        calls.filterMap SeqCall.shown = shows.map Prod.fst ∧
        calls.countP SeqCall.isStop = 1) ∧
    (∀ req s rc text s', rc ≠ 0 →
      HandlerWrites d handlers node (d.alloc (textProcSize req)) s rc text s' →
      ∃ n, ∀ fuel ≥ n, kfioSysctlTextProc k d handlers node ⟨true, 0⟩ fuel req s =
        some ⟨if rc < 0 then -rc else rc, req, s', []⟩) ∧
    ∀ probe s text s₁, probe.oldptr = false → probe.oldidx ≤ probe.oldlen →
      text.length < 2 ^ 64 →
      HandlerWrites d handlers node (d.alloc (textProcSize probe)) s 0 text s₁ →
      ∃ n, ∀ fuel ≥ n, ∃ r,
        kfioSysctlTextProc k d handlers node ⟨true, 0⟩ fuel probe s = some r ∧
          ∀ read s₂, read.oldptr = true → read.oldidx ≤ read.oldlen →
            r.req.oldidx - probe.oldidx ≤ read.room →
            HandlerWrites d handlers node (d.alloc (textProcSize read)) r.state 0 text s₂ →
            ¬ CopyFault k read text →
            ∃ n', ∀ fuel ≥ n', ∃ r',
              kfioSysctlTextProc k d handlers node ⟨true, 0⟩ fuel read r.state = some r' ∧
                r'.rc = 0 ∧ r'.req.copied = read.copied ++ text := by
  refine ⟨?_, ?_, ?_, ?_, ?_⟩
  · intro req s text s' hidx hcount hw
    exact kfioSysctlTextProc_conveys hidx hcount hw
  · intro fuel h s rc h' s' hr
    obtain ⟨shows, hs, hh⟩ := seqShows_of_returns hr
    exact ⟨shows, hs, hh, hs.protocol⟩
  · intro h s shows rc s' hs
    refine ⟨⟨shows.length + 1, ?_⟩, hs.protocol⟩
    intro fuel hfuel
    exact hs.returns hfuel
  · intro req s rc text s' hrc hw
    exact kfioSysctlTextProc_failed hrc hw
  · intro probe s text s₁ hprobe hidx hcount hw
    obtain ⟨n, hn⟩ := kfioSysctlTextProc_conveys (k := k) hidx hcount hw
    refine ⟨n, ?_⟩
    intro fuel hfuel
    obtain ⟨r, hrun, hconveys, -⟩ := hn fuel hfuel
    refine ⟨r, hrun, ?_⟩
    intro read s₂ hread hidx₂ hroom hw₂ hok
    exact kfioSysctlTextProc_read hprobe hconveys hcount hread hidx₂ hroom hw₂ hok

/-! A `SEQFILE` node that counts to two, and a request with room for two of its three bytes. -/

def listData : DataLib (UInt64 × List UInt8) where
  alloc size := (size, [])
  write h text := (h.1, h.2 ++ text)
  sizeWritten h := UInt64.ofNat h.2.length
  sizeValid h := if h.2.length ≤ h.1.toNat then UInt64.ofNat h.2.length else h.1
  data h := h.2.take h.1.toNat
  write_nil h := by simp
  write_write h text more := by simp
  counts size text := by simp
  keeps size text := by
    dsimp only
    have hsize := size.toNat_lt
    rw [List.nil_append]
    split_ifs with h
    · rw [UInt64.toNat_ofNat_of_lt' (Nat.lt_of_le_of_lt h hsize)]
      omega
    · omega
  valid size text := by
    dsimp only
    rw [List.nil_append, List.take_take]
    rcases Nat.le_total text.length size.toNat with h | h
    · rw [Nat.min_eq_left h, Nat.min_eq_left h, List.take_length, List.take_of_length_le h]
    · rw [Nat.min_eq_right h, Nat.min_self]

def countHandlers : InfoHandlers Unit UInt8 (UInt64 × List UInt8) where
  text x _ := (0, [], x)
  seq :=
    { seqInit := fun x pos _ ↦ (some 0, pos, x)
      seqNext := fun x cookie pos ↦ (if cookie < 2 then some (cookie + 1) else none, pos + 1, x)
      seqStop := fun x _ ↦ x
      seqShow := fun x cookie _ ↦ (0, [cookie], x) }

def countReq : SysctlReq where
  oldptr := true
  oldlen := 2
  oldidx := 0
  copied := []
  newptr := none
  newidx := 0
  newReadable := false

def countNode : InfoNode := ⟨"count", .seqfile, 0o444, 0⟩

def countCalls : List (SeqCall UInt8) :=
  [.seqInit, .seqShow 0, .seqNext 0, .seqShow 1, .seqNext 1, .seqShow 2, .seqNext 2, .seqStop none]

theorem countHandlers_shows (h : UInt64 × List UInt8) :
    SeqShows listData countHandlers.seq h ⟨(), []⟩ [(0, [0]), (1, [1]), (2, [2])] 0
      ⟨(), countCalls⟩ :=
  ⟨_, none, (), .shown rfl rfl (.shown rfl rfl (.shown rfl rfl (.finished _ _ _))), rfl⟩

/-- The same node, but the show of the cookie 1 fails. -/
def failingHandlers : InfoHandlers Unit UInt8 (UInt64 × List UInt8) :=
  { countHandlers with
    seq := { countHandlers.seq with
      seqShow := fun x cookie _ ↦ if cookie = 1 then (-5, [], x) else (0, [cookie], x) } }

def failingCalls : List (SeqCall UInt8) :=
  [.seqInit, .seqShow 0, .seqNext 0, .seqShow 1, .seqStop (some 1)]

theorem failingHandlers_shows (h : UInt64 × List UInt8) :
    SeqShows listData failingHandlers.seq h ⟨(), []⟩ [(0, [0]), (1, [])] (-5)
      ⟨(), failingCalls⟩ :=
  ⟨_, some 1, (), .shown rfl rfl (.failed _ rfl (by decide)), rfl⟩

theorem kfioSysctlTextProc_delivers_count :
    (∃ n, ∀ fuel ≥ n, ∃ r,
      kfioSysctlTextProc userKernel listData countHandlers countNode ⟨true, 0⟩ fuel countReq
          ⟨(), []⟩ = some r ∧
        Conveys userKernel countReq [0, 1, 2] r ∧ r.state = ⟨(), countCalls⟩) ∧
    (∃ n, ∀ fuel ≥ n, kfioInfoSeqfileHandler listData failingHandlers.seq fuel (8, []) ⟨(), []⟩ =
      some (-5, (8, [0]), ⟨(), failingCalls⟩)) ∧
    ∃ n, ∀ fuel ≥ n,
      kfioSysctlTextProc userKernel listData failingHandlers countNode ⟨true, 0⟩ fuel countReq
        ⟨(), []⟩ = some ⟨5, countReq, ⟨(), failingCalls⟩, []⟩ := by
  obtain ⟨-, -, hreturns, hfails, -⟩ :=
    kfioSysctlTextProc_delivers userKernel listData failingHandlers countNode
  refine ⟨?_, ?_, ?_⟩
  · exact (kfioSysctlTextProc_delivers userKernel listData countHandlers countNode).1 countReq
      ⟨(), []⟩ ([(0, [0]), (1, [1]), (2, [2])].flatMap Prod.snd) ⟨(), countCalls⟩ (by decide)
      (by decide) (.seqfile rfl (countHandlers_shows _))
  · exact (hreturns _ _ _ _ _ (failingHandlers_shows (8, []))).1
  · exact hfails countReq _ _ _ _ (by decide) (.seqfile rfl (failingHandlers_shows _))

end IomemoryVsl.Kinfo
