import Xv6.Disk.SwapPage
import Xv6.Lib.Transition

/-!
# Concurrent swap I/O

Any number of processes inside `disk_swap_write` and `disk_swap_read` at once. The steps are the
critical sections of the code: one `enqueue_disk_req` (or one update of `parity_buf`), one
selection of `run_disk_queue` with the removal of the entry, one block transfer outside the lock,
and the selection that finds the queue empty and returns.

The queue is shared and every caller drains all of it, so a request may be served by a *helper*,
a process other than the one that enqueued it. The entry leaves the queue before its transfer is
done; a caller that then finds the queue empty returns although the helper still holds one of its
requests.

Requests are named by tags, and the ghost field `place` follows each tag from `unissued` through
the queue and a holder to `performed`, or to `dropped` when the queue is full.

## Main results

* `Inv.step` — every step keeps the bookkeeping in agreement with the queue and the processes
* `complete_on_return_iff` — when a call that returns has had all of its requests performed
-/

namespace Xv6

namespace Disk

open Function (update update_of_ne update_apply)
open SlotTable
open Transition

variable {d : DiskState} {r : DiskReq}

/-! ### The system -/

/-- The name of a request: the process, the number of its call, the number in the call. -/
structure Tag (ι : Type*) where
  proc : ι
  call : ℕ
  index : ℕ
  deriving DecidableEq

/-- Where a request is. -/
inductive Place (ι : Type*) where
  | unissued
  | queued (i : Fin ndiskreqs)
  | held (q : ι)
  | performed
  | dropped
  deriving DecidableEq

/-- Where a process is in the code. -/
inductive Phase (ι : Type*) where
  | idle
  /-- Inside a call, with these critical sections left before the next selection. -/
  | running (rest : List RaidOp)
  /-- After a selection and before its transfer. -/
  | performing (r : DiskReq) (t : Tag ι)
  deriving DecidableEq

/-- The driver, the processes, and the ghost bookkeeping. -/
structure Sys (ι : Type*) where
  d : DiskState
  phase : ι → Phase ι
  stats : ι → ProcStats
  /-- How many calls the process has begun. -/
  calls : ι → ℕ
  /-- The critical sections of the current call. -/
  current : ι → List RaidOp
  /-- How many requests of the current call have been passed to `enqueue_disk_req`. -/
  issued : ι → ℕ
  request : Tag ι → DiskReq
  place : Tag ι → Place ι
  owner : Fin ndiskreqs → Tag ι

/-- The steps. -/
inductive Act (ι : Type*) where
  | write (p : ι) (slot page : ℕ) (priority : ℤ)
  | read (p : ι) (slot page : ℕ) (priority : ℤ)
  | next (p : ι)
  | pick (p : ι)
  | perform (p : ι)
  | ret (p : ι)
  | setRaidMode (mode : ℤ)
  | setdisksched (policy : ℤ)

variable {ι : Type*} [DecidableEq ι]
variable {σ : Sys ι} {p : ι}

instance decidableIsLevel (level : ℤ) : Decidable (IsLevel level) :=
  inferInstanceAs (Decidable (0 ≤ level ∧ level ≤ 3))

namespace Sys

/-- The tag of the next request of the current call. -/
def nextTag (σ : Sys ι) (p : ι) : Tag ι := ⟨p, σ.calls p, σ.issued p⟩

/-- Enter a call. -/
def enter (σ : Sys ι) (p : ι) (ops : List RaidOp) : Sys ι :=
  { σ with
    phase := update σ.phase p (.running ops)
    calls := update σ.calls p (σ.calls p + 1)
    current := update σ.current p ops
    issued := update σ.issued p 0 }

/-- The bookkeeping of one `enqueue_disk_req`. -/
def issue (σ : Sys ι) (p : ι) (r : DiskReq) : Sys ι :=
  let t := σ.nextTag p
  let τ := { σ with
    issued := update σ.issued p (σ.issued p + 1)
    request := update σ.request t r }
  match σ.d.reqQueue.firstFree with
  | some i =>
    { τ with
      place := update σ.place t (.queued i)
      owner := update σ.owner i t }
  | none => { τ with place := update σ.place t .dropped }

/-- One critical section before the draining. -/
def execOp (σ : Sys ι) (p : ι) (op : RaidOp) (rest : List RaidOp) : Sys ι :=
  let τ := match op with
    | .enqueue blockno write data priority => σ.issue p ⟨blockno, write, priority, data⟩
    | _ => σ
  { τ with d := op.exec σ.d, phase := update σ.phase p (.running rest) }

/-- A selection: the entry leaves the queue, and the process holds the request. -/
def take (σ : Sys ι) (p : ι) (i : Fin ndiskreqs) (r : DiskReq) : Sys ι :=
  let d := extract i r { σ.d with myproc := some (σ.stats p) }
  { σ with
    d := d
    stats := update σ.stats p (d.myproc.getD (σ.stats p))
    phase := update σ.phase p (.performing r (σ.owner i))
    place := update σ.place (σ.owner i) (.held p) }

/-- The transfer of a held request; the process goes back to the head of the loop. -/
def finish (σ : Sys ι) (p : ι) (r : DiskReq) (t : Tag ι) : Sys ι :=
  { σ with
    d := Disk.perform r σ.d
    phase := update σ.phase p (.running [])
    place := update σ.place t .performed }

/-- One step; `none` when the action is not enabled. -/
def step (σ : Sys ι) : Act ι → Option (Sys ι)
  | .write p slot page priority =>
    if σ.phase p = .idle ∧ slot < nswapspace ∧ IsLevel priority then
      let mode := σ.d.raidMode
      let d := { σ.d with slotRaidMode := update σ.d.slotRaidMode slot mode }
      some ({ σ with d := d }.enter p (writePageOps mode slot page priority))
    else none
  | .read p slot page priority =>
    if σ.phase p = .idle ∧ slot < nswapspace ∧ IsLevel priority then
      some (σ.enter p (readPageOps (σ.d.slotRaidMode slot) slot page priority))
    else none
  | .next p =>
    match σ.phase p with
    | .running (op :: rest) => some (σ.execOp p op rest)
    | _ => none
  | .pick p =>
    match σ.phase p, pickRequest σ.d with
    | .running [], some i => (σ.d.reqQueue i).map (σ.take p i)
    | _, _ => none
  | .perform p =>
    match σ.phase p with
    | .performing r t => some (σ.finish p r t)
    | _ => none
  | .ret p =>
    match σ.phase p, pickRequest σ.d with
    | .running [], none => some { σ with phase := update σ.phase p .idle }
    | _, _ => none
  | .setRaidMode mode => some { σ with d := Disk.setRaidMode mode σ.d }
  | .setdisksched policy => some { σ with d := (Disk.setdisksched policy σ.d).2 }

/-- The process is at the selection that finds the queue empty: its next step returns. -/
def Returns (σ : Sys ι) (p : ι) : Prop := σ.phase p = .running [] ∧ pickRequest σ.d = none

/-- Every request of the current call of `p` has been performed. -/
def Complete (σ : Sys ι) (p : ι) : Prop :=
  ∀ k < (reqs (σ.current p)).length, σ.place ⟨p, σ.calls p, k⟩ = .performed

/-- No process has begun a call. -/
def init (d : DiskState) (stats : ι → ProcStats) (t₀ : Tag ι) : Sys ι where
  d := d
  phase := fun _ => .idle
  stats := stats
  calls := fun _ => 0
  current := fun _ => []
  issued := fun _ => 0
  request := fun _ => ⟨0, false, 0, .parityBuf⟩
  place := fun _ => .unissued
  owner := fun _ => t₀

end Sys

/-! ### The bookkeeping agrees with the system -/

/-- The critical sections a process still has to run before it drains the queue. -/
def Phase.rest : Phase ι → List RaidOp
  | .running rest => rest
  | _ => []

/-- The ghost fields describe the queue and the processes. -/
structure Inv (σ : Sys ι) : Prop where
  head : HeadInImage σ.d
  sane : ∀ i r, σ.d.reqQueue i = some r → r.Sane
  sane_rest : ∀ p, ∀ r ∈ reqs (σ.phase p).rest, r.Sane
  sane_held : ∀ p r t, σ.phase p = .performing r t → r.Sane
  /-- The tag of an occupied place is there, and names the request that is there. -/
  owner : ∀ i r, σ.d.reqQueue i = some r →
    σ.place (σ.owner i) = .queued i ∧ σ.request (σ.owner i) = r
  queued : ∀ t i, σ.place t = .queued i → (∃ r, σ.d.reqQueue i = some r) ∧ σ.owner i = t
  holder : ∀ q r t, σ.phase q = .performing r t → σ.place t = .held q ∧ σ.request t = r
  held : ∀ t q, σ.place t = .held q → ∃ r, σ.phase q = .performing r t
  /-- What has been passed to `enqueue_disk_req` is somewhere. -/
  issued : ∀ p, ∀ k < σ.issued p, σ.place ⟨p, σ.calls p, k⟩ ≠ .unissued
  fresh : ∀ p c k, σ.calls p < c ∨ c = σ.calls p ∧ σ.issued p ≤ k →
    σ.place ⟨p, c, k⟩ = .unissued
  /-- The tags of the current call name its requests, in order. -/
  requests : ∀ p, σ.phase p ≠ .idle →
    (List.range (σ.issued p)).map (fun k => σ.request ⟨p, σ.calls p, k⟩)
      ++ reqs (σ.phase p).rest = reqs (σ.current p)
  /-- A performed request is in the trace of transfers. -/
  performed : ∀ t, σ.place t = .performed → σ.request t ∈ σ.d.trace

omit [DecidableEq ι] in
theorem inv_init (hd : Quiet d) (stats : ι → ProcStats) (t₀ : Tag ι) :
    Inv (Sys.init d stats t₀) where
  head := hd.head
  sane i r hr := by
    have hr' : d.reqQueue i = some r := hr
    rw [contents_eq_nil.mp hd.empty i] at hr'
    cases hr'
  sane_rest p r hr := absurd hr (List.not_mem_nil)
  sane_held p r t h := by cases h
  owner i r hr := by
    have hr' : d.reqQueue i = some r := hr
    rw [contents_eq_nil.mp hd.empty i] at hr'
    cases hr'
  queued t i h := by cases h
  holder q r t h := by cases h
  held t q h := by cases h
  issued p k hk := absurd hk (Nat.not_lt_zero k)
  fresh p c k _ := rfl
  requests p h := absurd rfl h
  performed t h := by cases h

omit [DecidableEq ι] in
/-- A step that changes the driver only outside the queue, the head and the trace. -/
theorem Inv.of_driver (h : Inv σ) (hq : d.reqQueue = σ.d.reqQueue)
    (hh : d.diskHeadPos = σ.d.diskHeadPos) (ht : d.trace = σ.d.trace) : Inv { σ with d := d } where
  head := by
    have := h.head
    simpa only [HeadInImage, hh] using this
  sane i r hr := h.sane i r (hq ▸ hr)
  sane_rest := h.sane_rest
  sane_held := h.sane_held
  owner i r hr := h.owner i r (hq ▸ hr)
  queued t i hp := by
    have := h.queued t i hp
    simpa only [hq] using this
  holder := h.holder
  held := h.held
  issued := h.issued
  fresh := h.fresh
  requests := h.requests
  performed t hp := by
    have := h.performed t hp
    simpa only [ht] using this

/-- Entering a call. -/
theorem Inv.enter (h : Inv σ) {ops : List RaidOp} (hp : σ.phase p = .idle)
    (hops : ∀ r ∈ reqs ops, r.Sane) : Inv (σ.enter p ops) := by
  obtain ⟨hhead, hsane, hsr, hsh, howner, hqueued, hholder, hheld, hissued, hfr, hreq, hperf⟩ := h
  simp only [Sys.enter]
  refine ⟨hhead, hsane, ?_, ?_, howner, hqueued, ?_, ?_, ?_, ?_, ?_, hperf⟩ <;>
    grind [update_apply, Phase.rest]

/-- A critical section that enqueues nothing, or the return. -/
theorem Inv.setPhase (h : Inv σ) {ph : Phase ι} (hold : ∀ r t, σ.phase p ≠ .performing r t)
    (hnew : ∀ r t, ph ≠ .performing r t)
    (hrest : ph ≠ .idle → reqs ph.rest = reqs (σ.phase p).rest ∧ σ.phase p ≠ .idle)
    (hsane : ∀ r ∈ reqs ph.rest, r.Sane) : Inv { σ with phase := update σ.phase p ph } := by
  obtain ⟨hhead, hsn, hsr, hsh, howner, hqueued, hholder, hheld, hissued, hfr, hreq, hperf⟩ := h
  refine ⟨hhead, hsn, ?_, ?_, howner, hqueued, ?_, ?_, hissued, hfr, ?_, hperf⟩ <;>
    grind [update_apply]

/-- The tags of the current call, after one more request. -/
theorem Inv.requests_issue (h : Inv σ) {l : List DiskReq} (hp : σ.phase p ≠ .idle)
    (hl : reqs (σ.phase p).rest = r :: l) (q : ι) (hq : q ≠ p → σ.phase q ≠ .idle) :
    (List.range (update σ.issued p (σ.issued p + 1) q)).map
        (fun k => update σ.request (σ.nextTag p) r ⟨q, σ.calls q, k⟩)
      ++ (if q = p then l else reqs (σ.phase q).rest) = reqs (σ.current q) := by
  have hne : ∀ k < σ.issued q, (⟨q, σ.calls q, k⟩ : Tag ι) ≠ σ.nextTag p := by
    grind [Sys.nextTag]
  by_cases hqp : q = p
  · subst hqp
    rw [← h.requests q hp, hl, if_pos rfl, Function.update_self, List.range_succ,
      List.map_append, List.map_singleton, List.append_assoc]
    refine congrArg₂ _ (List.map_congr_left fun k hk => ?_) ?_
    · exact update_of_ne (hne k (List.mem_range.mp hk)) _ _
    · simp [Sys.nextTag]
  · rw [← h.requests q (hq hqp), if_neg hqp, update_of_ne hqp]
    refine congrArg (· ++ _) (List.map_congr_left fun k hk => ?_)
    exact update_of_ne (hne k (List.mem_range.mp hk)) _ _

/-- `enqueue_disk_req` with a free entry, or without one. -/
theorem Inv.enqueue (h : Inv σ) {rest : List RaidOp}
    (hp : σ.phase p = .running (.enqueue r.blockno r.write r.data r.priority :: rest)) :
    Inv (σ.execOp p (.enqueue r.blockno r.write r.data r.priority) rest) := by
  have hfresh : σ.place (σ.nextTag p) = .unissued := h.fresh _ _ _ (Or.inr ⟨rfl, le_rfl⟩)
  have hreqs : reqs (σ.phase p).rest = r :: reqs rest := by
    rw [hp]
    rfl
  have hr : r.Sane := h.sane_rest p r (by rw [hreqs]; exact List.mem_cons_self)
  have hrest : ∀ r' ∈ reqs rest, r'.Sane := fun r' hr' =>
    h.sane_rest p r' (by rw [hreqs]; exact List.mem_cons_of_mem _ hr')
  have hrequests : ∀ q, update σ.phase p (.running rest) q ≠ .idle →
      (List.range (update σ.issued p (σ.issued p + 1) q)).map
          (fun k => update σ.request (σ.nextTag p) r ⟨q, σ.calls q, k⟩)
        ++ reqs (update σ.phase p (.running rest) q).rest = reqs (σ.current q) := by
    intro q hq
    rw [← h.requests_issue (by rw [hp]; simp) hreqs q (by grind [update_apply])]
    grind [update_apply, Phase.rest]
  obtain ⟨hhead, hsane, hsr, hsh, howner, hqueued, hholder, hheld, hissued, hfr, -, hperf⟩ := h
  cases hf : σ.d.reqQueue.firstFree with
  | none =>
    simp only [Sys.execOp, Sys.issue, hf, RaidOp.exec, enqueueDiskReq, insertFirst]
    refine ⟨hhead, hsane, ?_, ?_, ?_, ?_, ?_, ?_, ?_, ?_, hrequests, ?_⟩ <;>
      grind [update_apply, Phase.rest, Sys.nextTag]
  | some i =>
    have hfree : σ.d.reqQueue i = none := firstFree_eq_some hf
    simp only [Sys.execOp, Sys.issue, hf, RaidOp.exec, enqueueDiskReq, insertFirst]
    refine ⟨hhead, ?_, ?_, ?_, ?_, ?_, ?_, ?_, ?_, ?_, hrequests, ?_⟩ <;>
      grind [update_apply, Phase.rest, Sys.nextTag]

/-- A selection. -/
theorem Inv.take (h : Inv σ) {i : Fin ndiskreqs} (hp : σ.phase p = .running [])
    (hi : σ.d.reqQueue i = some r) : Inv (σ.take p i r) := by
  have hr := h.sane i r hi
  have hnone : ∀ t, σ.place t ≠ .held p := fun t ht => by
    obtain ⟨r', hr'⟩ := h.held t p ht
    rw [hp] at hr'
    cases hr'
  obtain ⟨-, hsane, hsr, hsh, howner, hqueued, hholder, hheld, hissued, hfr, hreq, hperf⟩ := h
  simp only [Sys.take, extract, erase]
  refine ⟨⟨by simp, by simpa using hr.block⟩, ?_, ?_, ?_, ?_, ?_, ?_, ?_, ?_, ?_, ?_, ?_⟩
  case refine_7 =>
    intro t q ht
    by_cases hto : t = σ.owner i
    · obtain rfl : p = q := by simpa [hto] using ht
      exact ⟨r, by simp [hto]⟩
    · grind [update_apply]
  all_goals grind [update_apply, Phase.rest]

/-- A transfer. -/
theorem Inv.finish (h : Inv σ) {t : Tag ι} (hp : σ.phase p = .performing r t) :
    Inv (σ.finish p r t) := by
  obtain ⟨hhead, hsane, hsr, hsh, howner, hqueued, hholder, hheld, hissued, hfr, hreq, hperf⟩ := h
  simp only [Sys.finish, perform]
  refine ⟨hhead, hsane, ?_, ?_, ?_, ?_, ?_, ?_, ?_, ?_, ?_, ?_⟩ <;>
    grind [update_apply, Phase.rest, reqs]

/-- One critical section before the draining. -/
theorem Inv.execOp (h : Inv σ) {op : RaidOp} {rest : List RaidOp}
    (hp : σ.phase p = .running (op :: rest)) : Inv (σ.execOp p op rest) := by
  -- the two updates of `parity_buf` touch neither the queue nor the bookkeeping
  have hparity : ∀ v, reqs (op :: rest) = reqs rest →
      Inv { σ with
        d := setParityBuf v σ.d
        phase := update σ.phase p (.running rest) } := by
    intro v hreqs
    have hrest : reqs (σ.phase p).rest = reqs rest := by rw [hp]; exact hreqs
    have h' : Inv { σ with phase := update σ.phase p (.running rest) } :=
      h.setPhase (by simp [hp]) (by simp) (fun _ => ⟨hrest.symm, by simp [hp]⟩)
        fun r hr => h.sane_rest p r (by rw [hrest]; exact hr)
    exact h'.of_driver rfl rfl rfl
  cases op with
  | clearParity => exact hparity _ rfl
  | xorParity src => exact hparity _ rfl
  | enqueue blockno write data priority =>
    exact h.enqueue (r := ⟨blockno, write, priority, data⟩) hp

/-- **Every step keeps the bookkeeping.** -/
theorem Inv.step {σ' : Sys ι} {a : Act ι} (h : Inv σ) (hs : σ.step a = some σ') : Inv σ' := by
  cases a with
  | write p slot page priority =>
    simp only [Sys.step, Option.ite_none_right_eq_some, Option.some.injEq] at hs
    obtain ⟨⟨hp, hslot, hl⟩, rfl⟩ := hs
    refine Inv.enter ?_ hp ((pageBatch_writePageOps _ _ _ hslot).sane (modeUsed_le _) hl)
    exact h.of_driver rfl rfl rfl
  | read p slot page priority =>
    simp only [Sys.step, Option.ite_none_right_eq_some, Option.some.injEq] at hs
    obtain ⟨⟨hp, hslot, hl⟩, rfl⟩ := hs
    exact h.enter hp ((pageBatch_readPageOps _ _ _ hslot).sane (modeUsed_le _) hl)
  | next p =>
    simp only [Sys.step] at hs
    split at hs
    · cases hs
      exact h.execOp ‹_›
    · cases hs
  | pick p =>
    simp only [Sys.step] at hs
    split at hs
    · obtain ⟨r, hr, rfl⟩ := Option.map_eq_some_iff.mp hs
      exact h.take ‹_› hr
    · cases hs
  | perform p =>
    simp only [Sys.step] at hs
    split at hs
    · cases hs
      exact h.finish ‹_›
    · cases hs
  | ret p =>
    simp only [Sys.step] at hs
    split at hs
    · rename_i hp _
      cases hs
      exact h.setPhase (by simp [hp]) (by simp) (by simp) (by simp [Phase.rest, reqs])
    · cases hs
  | setRaidMode mode =>
    cases hs
    exact h.of_driver rfl rfl rfl
  | setdisksched policy =>
    cases hs
    obtain ⟨pol, hpol⟩ := setdisksched_eq policy σ.d
    rw [hpol]
    exact h.of_driver rfl rfl rfl

/-- **A run keeps the bookkeeping.** -/
theorem inv_of_run (hd : Quiet d) {stats : ι → ProcStats} {t₀ : Tag ι} {acts : List (Act ι)}
    (h : Transition.run Sys.step acts (Sys.init d stats t₀) = some σ) : Inv σ :=
  run_invariant (fun _ _ _ hi _ hs => Inv.step hi hs) (inv_init hd stats t₀)
    (meets_true _ _) h

/-! ### Returning -/

/-- Every `enqueue_disk_req` finds a free entry. -/
def RoomToEnqueue (σ : Sys ι) (a : Act ι) : Prop :=
  ∀ p blockno write data priority rest, a = .next p →
    σ.phase p = .running (.enqueue blockno write data priority :: rest) →
      σ.d.reqQueue.firstFree ≠ none

theorem step_not_dropped {σ' : Sys ι} {a : Act ι} (h : ∀ t, σ.place t ≠ .dropped)
    (ha : RoomToEnqueue σ a) (hs : σ.step a = some σ') : ∀ t, σ'.place t ≠ .dropped := by
  cases a with
  | next p =>
    simp only [Sys.step] at hs
    split at hs
    · rename_i op rest hp
      cases hs
      cases op with
      | clearParity => exact h
      | xorParity src => exact h
      | enqueue blockno write data priority =>
        cases hf : σ.d.reqQueue.firstFree with
        | none => exact absurd hf (ha p blockno write data priority rest rfl hp)
        | some i =>
          intro t
          simp only [Sys.execOp, Sys.issue, hf, update_apply]
          split
          · simp
          · exact h t
    · cases hs
  | pick p =>
    simp only [Sys.step] at hs
    split at hs
    · obtain ⟨r, -, rfl⟩ := Option.map_eq_some_iff.mp hs
      intro t
      simp only [Sys.take, update_apply]
      split
      · simp
      · exact h t
    · cases hs
  | perform p =>
    simp only [Sys.step] at hs
    split at hs
    · cases hs
      intro t
      simp only [Sys.finish, update_apply]
      split
      · simp
      · exact h t
    · cases hs
  | write p slot page priority =>
    simp only [Sys.step, Option.ite_none_right_eq_some, Option.some.injEq] at hs
    obtain ⟨-, rfl⟩ := hs
    exact h
  | read p slot page priority =>
    simp only [Sys.step, Option.ite_none_right_eq_some, Option.some.injEq] at hs
    obtain ⟨-, rfl⟩ := hs
    exact h
  | ret p =>
    simp only [Sys.step] at hs
    split at hs
    · cases hs
      exact h
    · cases hs
  | setRaidMode mode => cases hs; exact h
  | setdisksched policy => cases hs; exact h

omit [DecidableEq ι] in
/-- At a return, a request of the call is performed, dropped, or in the hands of a helper. -/
theorem Inv.place_at_return (h : Inv σ) (hret : σ.Returns p) {k : ℕ}
    (hk : k < (reqs (σ.current p)).length) :
    σ.place ⟨p, σ.calls p, k⟩ = .performed ∨ σ.place ⟨p, σ.calls p, k⟩ = .dropped ∨
      ∃ q ≠ p, ∃ r, σ.phase q = .performing r ⟨p, σ.calls p, k⟩ := by
  have hissued : k < σ.issued p := by
    have hlen := congrArg List.length (h.requests p (by rw [hret.1]; simp))
    have hrest : reqs (σ.phase p).rest = [] := by rw [hret.1]; rfl
    rw [hrest, List.append_nil, List.length_map, List.length_range] at hlen
    rwa [hlen]
  cases hp : σ.place ⟨p, σ.calls p, k⟩ with
  | unissued => exact absurd hp (h.issued p k hissued)
  | queued i =>
    -- the queue is empty
    obtain ⟨⟨r, hr⟩, -⟩ := h.queued _ i hp
    have hempty := pickRequest_eq_none h.head
      (fun r hr => by obtain ⟨j, hj⟩ := mem_contents.mp hr; exact h.sane j r hj) hret.2
    rw [contents_eq_nil.mp hempty i] at hr
    cases hr
  | held q =>
    obtain ⟨r, hr⟩ := h.held _ q hp
    refine Or.inr (Or.inr ⟨q, ?_, r, hr⟩)
    rintro rfl
    rw [hret.1] at hr
    cases hr
  | performed => exact Or.inl rfl
  | dropped => exact Or.inr (Or.inl rfl)

omit [DecidableEq ι] in
/-- The condition under which a return is complete. -/
theorem Inv.complete_iff (h : Inv σ) (hret : σ.Returns p) :
    σ.Complete p ↔
      ∀ k < (reqs (σ.current p)).length, σ.place ⟨p, σ.calls p, k⟩ ≠ .dropped ∧
        ∀ q ≠ p, ∀ r, σ.phase q ≠ .performing r ⟨p, σ.calls p, k⟩ := by
  constructor
  · intro hc k hk
    refine ⟨by rw [hc k hk]; simp, fun q _ r hq => ?_⟩
    have := (h.holder q r _ hq).1
    rw [hc k hk] at this
    cases this
  · intro hc k hk
    rcases h.place_at_return hret hk with hp | hp | ⟨q, hq, r, hr⟩
    · exact hp
    · exact absurd hp (hc k hk).1
    · exact absurd hr ((hc k hk).2 q hq r)

/-- **Swap I/O at the return of a call.** In every run, a call that returns has had all of its
requests performed exactly when none of them met a full queue and no other process is between the
selection and the transfer of one of them. In the runs in which every `enqueue_disk_req` finds a
free entry, the second condition alone decides. -/
theorem complete_on_return_iff {d : DiskState} (hd : Quiet d) {stats : ι → ProcStats} {t₀ : Tag ι}
    {acts : List (Act ι)} {σ : Sys ι}
    (hrun : Transition.run Sys.step acts (Sys.init d stats t₀) = some σ) {p : ι}
    (hret : σ.Returns p) :
    (σ.Complete p ↔
      ∀ k < (reqs (σ.current p)).length, σ.place ⟨p, σ.calls p, k⟩ ≠ .dropped ∧
        ∀ q ≠ p, ∀ r, σ.phase q ≠ .performing r ⟨p, σ.calls p, k⟩) ∧
    (Meets Sys.step RoomToEnqueue acts (Sys.init d stats t₀) →
      (σ.Complete p ↔ ∀ k < (reqs (σ.current p)).length, ∀ q ≠ p, ∀ r,
        σ.phase q ≠ .performing r ⟨p, σ.calls p, k⟩)) := by
  have h := inv_of_run hd hrun
  refine ⟨h.complete_iff hret, fun hroom => ?_⟩
  have hnd : ∀ t, σ.place t ≠ .dropped :=
    run_invariant (fun _ _ _ => step_not_dropped) (by simp [Sys.init]) hroom hrun
  rw [h.complete_iff hret]
  exact forall₂_congr fun k _ => and_iff_right (hnd _)

/-- Process `0` reads slot `0` while process `1` writes slot `1`. Process `1` takes the first
request of process `0` from the queue, and process `0` serves the rest. -/
def helperActs : List (Act (Fin 2)) :=
  [.read 0 0 0 0, .next 0, .next 0, .next 0, .next 0,
   .write 1 1 1 0, .next 1, .next 1, .next 1, .next 1, .pick 1] ++
  (List.replicate 7 [.pick 0, .perform 0]).flatten

/-- The first request of process `0` is still in the hands of process `1` when process `0`
returns. -/
theorem complete_on_return_counterexample :
    ∃ σ, Transition.run Sys.step helperActs
        (Sys.init (initState 0 (fun _ _ => 0) fun _ _ => 0) (fun _ => ⟨0, 0, 0⟩) ⟨0, 0, 0⟩)
          = some σ ∧ σ.Returns 0 ∧ ¬ σ.Complete 0 := by
  have h : (Transition.run Sys.step helperActs
      (Sys.init (initState 0 (fun _ _ => 0) fun _ _ => 0) (fun _ => ⟨0, 0, 0⟩) ⟨0, 0, 0⟩)).map
        (fun σ => (σ.phase 0, pickRequest σ.d, (reqs (σ.current 0)).length,
          σ.place ⟨0, σ.calls 0, 0⟩))
      = some (.running [], none, 4, .held 1) := by decide +kernel
  obtain ⟨σ, hσ, he⟩ := Option.map_eq_some_iff.mp h
  simp only [Prod.mk.injEq] at he
  obtain ⟨hp, hq, hl, hh⟩ := he
  refine ⟨σ, hσ, ⟨hp, hq⟩, fun hc => ?_⟩
  have := hc 0 (by rw [hl]; omega)
  rw [hh] at this
  cases this

/-- Process `1` performs the request before process `0` returns. -/
theorem complete_on_return_helped :
    ∃ σ, Transition.run Sys.step (helperActs ++ [.perform 1])
        (Sys.init (initState 0 (fun _ _ => 0) fun _ _ => 0) (fun _ => ⟨0, 0, 0⟩) ⟨0, 0, 0⟩)
          = some σ ∧ σ.Returns 0 ∧ σ.Complete 0 := by
  have h : (Transition.run Sys.step (helperActs ++ [.perform 1])
      (Sys.init (initState 0 (fun _ _ => 0) fun _ _ => 0) (fun _ => ⟨0, 0, 0⟩) ⟨0, 0, 0⟩)).map
        (fun σ => (σ.phase 0, σ.phase 1, pickRequest σ.d, (reqs (σ.current 0)).length,
          (List.range 4).all fun k => σ.place ⟨0, σ.calls 0, k⟩ != .dropped))
      = some (.running [], .running [], none, 4, true) := by decide +kernel
  obtain ⟨σ, hσ, he⟩ := Option.map_eq_some_iff.mp h
  simp only [Prod.mk.injEq] at he
  obtain ⟨hp, hp1, hq, hl, hplace⟩ := he
  refine ⟨σ, hσ, ⟨hp, hq⟩, ((complete_on_return_iff (quiet_initState _ _ _) hσ ⟨hp, hq⟩).1).mpr
    fun k hk => ⟨?_, fun q hq0 r => ?_⟩⟩
  · simpa using List.all_eq_true.mp hplace k (List.mem_range.mpr (hl ▸ hk))
  · obtain rfl : q = 1 := by omega
    simp [hp1]

end Disk

end Xv6
