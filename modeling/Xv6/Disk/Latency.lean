import Xv6.Disk.DiskStats

/-!
# The average latency of a process

`run_disk_queue` keeps `avg_disk_latency` of the current process up to date, once per block request.
It divides by the number of operations of the process, and `swap_out` and `swap_in` count those,
once per page and after the page has been transferred. The system here is one process that swaps,
alone: a step is a call up to its first selection, the service of one request, or the rest of the
call.

A latency is weighed with the number of pages and not with the number of requests. The average is
the mean of the latencies exactly if at every request the two weights make no difference
(`mean_latency_iff`). The product that the code divides is an `int`. As long as it fits, the average
is between the latencies (`avg_latency_in_range`); a process that swaps long enough makes it
overflow, since the average never falls below `ROTATIONAL_DELAY` before it does.

## Main results

* `mean_latency_iff`, `mean_latency_counterexample`
* `avg_latency_in_range`, `avg_latency_counterexample`
-/

namespace Xv6

namespace Disk

open Transition
open Function (update update_eq_self update_idem)
open SlotTable

variable {d : DiskState} {i : Fin ndiskreqs} {r : DiskReq}

/-! ### The running average -/

/-- `total_ops` -/
def ProcStats.totalOps (p : ProcStats) : ℤ := int32 (p.diskReads + p.diskWrites)

/-- The product that the code divides does not overflow. -/
def ProcStats.Fits (p : ProcStats) (lat : ℤ) : Prop :=
  p.totalOps ≤ 1 ∨ p.avgDiskLatency * (p.totalOps - 1) + lat < 2 ^ 31

/-- What the average is divided by. -/
def ProcStats.weight (p : ProcStats) : ℤ := max 1 p.totalOps

/-- A mean of `n` values from the mean of the first `n - 1`. -/
theorem mean_step (a l : ℤ) {n : ℤ} (hn : 0 < n) : (a * (n - 1) + l) / n = a + (l - a) / n := by
  rw [show a * (n - 1) + l = l - a + a * n by ring, Int.add_mul_ediv_right _ _ hn.ne', add_comm]

section

variable {p : ProcStats} {lat : ℤ}

theorem totalOps_lt (p : ProcStats) : p.totalOps < 2 ^ 31 := by
  have hlt := Int.bmod_lt (x := p.diskReads + p.diskWrites) (m := 2 ^ 32) (by norm_num)
  rw [ProcStats.totalOps, int32]
  norm_num at hlt ⊢
  exact hlt

theorem le_totalOps (p : ProcStats) : -2 ^ 31 ≤ p.totalOps := by
  have hle := Int.le_bmod (x := p.diskReads + p.diskWrites) (m := 2 ^ 32) (by norm_num)
  rw [ProcStats.totalOps, int32]
  norm_num at hle ⊢
  exact hle

theorem totalOps_write (p : ProcStats) :
    ({ p with diskWrites := int32 (p.diskWrites + 1) } : ProcStats).totalOps
      = int32 (p.totalOps + 1) := by
  simp [ProcStats.totalOps, int32, add_assoc]

theorem totalOps_read (p : ProcStats) :
    ({ p with diskReads := int32 (p.diskReads + 1) } : ProcStats).totalOps
      = int32 (p.totalOps + 1) := by
  simp [ProcStats.totalOps, int32, add_right_comm]

theorem addLatency_of_le (h : p.totalOps ≤ 1) : (p.addLatency lat).avgDiskLatency = lat := by
  rw [ProcStats.totalOps] at h
  rw [ProcStats.addLatency]
  exact if_pos h

theorem addLatency_of_lt (h : 1 < p.totalOps) : (p.addLatency lat).avgDiskLatency
    = (int32 (p.avgDiskLatency * (p.totalOps - 1) + lat)).tdiv p.totalOps := by
  have hlt := totalOps_lt p
  have hsub : int32 (p.totalOps - 1) = p.totalOps - 1 :=
    int32_of_mem (by norm_num; omega) (by omega)
  rw [ProcStats.totalOps] at h hsub ⊢
  rw [ProcStats.addLatency]
  show (if _ then _ else _) = _
  rw [if_neg (not_le.mpr h), hsub, int32_add]

/-- **One step of the average**, if the product fits: it moves towards the latency, by the
difference over the weight. -/
theorem addLatency_eq (havg : 0 ≤ p.avgDiskLatency) (hlat : 0 ≤ lat) (hfits : p.Fits lat) :
    (p.addLatency lat).avgDiskLatency
      = p.avgDiskLatency + (lat - p.avgDiskLatency) / p.weight := by
  rcases le_or_gt p.totalOps 1 with hle | hlt
  · rw [addLatency_of_le hle, ProcStats.weight, max_eq_left hle, Int.ediv_one]
    omega
  · have hsmall := hfits.resolve_left (not_le.mpr hlt)
    have hnonneg : 0 ≤ p.avgDiskLatency * (p.totalOps - 1) + lat :=
      add_nonneg (mul_nonneg havg (by omega)) hlat
    rw [addLatency_of_lt hlt, int32_of_mem (by omega) hsmall,
      Int.tdiv_eq_ediv_of_nonneg hnonneg, ProcStats.weight, max_eq_right hlt.le,
      mean_step _ _ (by omega)]

end

/-- The integer running mean: each value is weighed with the number of values. -/
def runningMean (ls : List ℤ) : ℤ :=
  (ls.foldl (fun a l => (a.1 + 1, (a.2 * a.1 + l) / (a.1 + 1))) ((0 : ℤ), (0 : ℤ))).2

/-- The running means after each of the values. -/
def means (ls : List ℤ) : List ℤ :=
  (List.range ls.length).map fun k => runningMean (ls.take (k + 1))

theorem runningMean_append (ls : List ℤ) (l : ℤ) : runningMean (ls ++ [l])
    = runningMean ls + (l - runningMean ls) / (ls.length + 1) := by
  have hcount : ∀ (ks : List ℤ) (a : ℤ × ℤ), (ks.foldl
      (fun a l => (a.1 + 1, (a.2 * a.1 + l) / (a.1 + 1))) a).1 = a.1 + ks.length := by
    intro ks
    induction ks with
    | nil => intro a; simp
    | cons k ks ih =>
      intro a
      rw [List.foldl_cons, ih, List.length_cons, Nat.cast_add_one]
      ring
  have hstep := mean_step (runningMean ls) l (n := (ls.length : ℤ) + 1) (by omega)
  rw [add_sub_cancel_right] at hstep
  rw [← hstep, runningMean, List.foldl_append, List.foldl_cons, List.foldl_nil, hcount, zero_add]
  rfl

theorem means_append (ls : List ℤ) (l : ℤ) :
    means (ls ++ [l]) = means ls ++ [runningMean (ls ++ [l])] := by
  rw [means, List.length_append, List.length_singleton, List.range_succ, List.map_append,
    List.map_singleton]
  congr 1
  · refine List.map_congr_left fun k hk => ?_
    rw [List.take_append_of_le_length (List.mem_range.mp hk)]
  · rw [List.take_of_length_le (by simp)]

theorem getLastD_means (ls : List ℤ) : (means ls).getLastD 0 = runningMean ls := by
  rcases List.eq_nil_or_concat ls with rfl | ⟨ks, l, rfl⟩
  · rfl
  · rw [List.concat_eq_append, means_append, List.getLastD_concat]

/-! ### One process that swaps -/

/-- Where the process is in a swap call. -/
inductive SwapPhase where
  | idle
  | writing
  | reading (slot : ℕ)
  deriving DecidableEq

/-- The driver, the slots, and the process; `lats` and `avgs` log the latency of every request and
the average after it. -/
structure Solo where
  d : DiskState
  /-- `swap_space[i].in_use` -/
  inUse : ℕ → Bool
  stats : ProcStats
  phase : SwapPhase
  lats : List ℤ
  avgs : List ℤ

inductive SoloAct where
  | swapOut (page : ℕ) (priority : ℤ)
  | swapIn (page slot : ℕ) (priority : ℤ)
  | serve
  | ret
  | setRaidMode (mode : ℤ)
  | setdisksched (policy : ℤ)
  deriving DecidableEq

/-- The search of `swap_out`. -/
def freeSlot (inUse : ℕ → Bool) : Option ℕ := (List.range nswapspace).find? fun i => !inUse i

namespace Solo

/-- The request that is served next. -/
def next (σ : Solo) : Option DiskReq := (pickRequest σ.d).bind σ.d.reqQueue

/-- The request at place `i` is served. -/
def serve (σ : Solo) (i : Fin ndiskreqs) (r : DiskReq) : Solo :=
  let d := extract i r { σ.d with myproc := some σ.stats }
  let stats := d.myproc.getD σ.stats
  { σ with
    d := perform r d
    stats := stats
    lats := σ.lats ++ [latency σ.d.diskHeadPos r.blockno]
    avgs := σ.avgs ++ [stats.avgDiskLatency] }

/-- One step; `none` when the action is not enabled. -/
def step (σ : Solo) : SoloAct → Option Solo
  | .swapOut page priority =>
    if σ.phase = .idle ∧ IsLevel priority then
      match freeSlot σ.inUse with
      -- `swap_out` returns -1
      | none => some σ
      | some slot =>
        let mode := σ.d.raidMode
        let d := { σ.d with slotRaidMode := update σ.d.slotRaidMode slot mode }
        some { σ with
          d := execOps (writePageOps mode slot page priority) d
          inUse := update σ.inUse slot true
          phase := .writing }
    else none
  | .swapIn page slot priority =>
    if σ.phase = .idle ∧ slot < nswapspace ∧ IsLevel priority then
      some { σ with
        d := execOps (readPageOps (σ.d.slotRaidMode slot) slot page priority) σ.d
        phase := .reading slot }
    else none
  | .serve =>
    match σ.phase, pickRequest σ.d with
    | .idle, _ => none
    | _, none => none
    | _, some i => (σ.d.reqQueue i).map (σ.serve i)
  | .ret =>
    match σ.phase, pickRequest σ.d with
    | .writing, none => some { σ with
        stats := { σ.stats with diskWrites := int32 (σ.stats.diskWrites + 1) }
        phase := .idle }
    | .reading slot, none => some { σ with
        inUse := update σ.inUse slot false
        stats := { σ.stats with diskReads := int32 (σ.stats.diskReads + 1) }
        phase := .idle }
    | _, _ => none
  | .setRaidMode mode => some { σ with d := Disk.setRaidMode mode σ.d }
  | .setdisksched policy => some { σ with d := (Disk.setdisksched policy σ.d).2 }

/-- A process that has just been created. -/
def init (d : DiskState) (inUse : ℕ → Bool) : Solo where
  d := d
  inUse := inUse
  stats := ⟨0, 0, 0⟩
  phase := .idle
  lats := []
  avgs := []

end Solo

/-- What a step can do. -/
inductive Moves (σ : Solo) : SoloAct → Solo → Prop where
  | begins {a : SoloAct} {ops : List RaidOp} {d : DiskState} {inUse : ℕ → Bool} {phase : SwapPhase}
    (ha : a ≠ .serve) (hidle : σ.phase = .idle) (hphase : phase ≠ .idle)
    (hq : d.reqQueue = σ.d.reqQueue) (hh : d.diskHeadPos = σ.d.diskHeadPos) (hne : reqs ops ≠ [])
    (hlen : (reqs ops).length ≤ ndiskreqs) (hsane : ∀ r ∈ reqs ops, r.Sane) :
    Moves σ a { σ with d := execOps ops d, inUse := inUse, phase := phase }
  | serves {i : Fin ndiskreqs} {r : DiskReq} (hphase : σ.phase ≠ .idle) (hnext : σ.next = some r)
    (hi : σ.d.reqQueue i = some r) : Moves σ .serve (σ.serve i r)
  | returns {stats : ProcStats} {inUse : ℕ → Bool} (hphase : σ.phase ≠ .idle)
    (hnone : pickRequest σ.d = none) (havg : stats.avgDiskLatency = σ.stats.avgDiskLatency)
    (hops : stats.totalOps = int32 (σ.stats.totalOps + 1)) :
    Moves σ .ret { σ with stats := stats, inUse := inUse, phase := .idle }
  | sets {a : SoloAct} {d : DiskState} (ha : a ≠ .serve) (hq : d.reqQueue = σ.d.reqQueue)
    (hh : d.diskHeadPos = σ.d.diskHeadPos) : Moves σ a { σ with d := d }

theorem reqs_writePageOps_ne_nil (mode : ℤ) (slot page : ℕ) (priority : ℤ) :
    reqs (writePageOps mode slot page priority) ≠ [] := by
  rcases mode_cases mode slot page priority with ⟨-, -, hw, -⟩ | ⟨-, -, hw, -⟩ | ⟨-, hw, -⟩
  · rw [hw, reqs_raid1WritePage]
    exact List.cons_ne_nil _ _
  · rw [hw, reqs_raid5WritePage]
    exact List.cons_ne_nil _ _
  · rw [hw, raid0WritePage, reqs_stripedPage]
    exact List.cons_ne_nil _ _

theorem freeSlot_lt {inUse : ℕ → Bool} {slot : ℕ} (h : freeSlot inUse = some slot) :
    slot < nswapspace := by
  rw [freeSlot] at h
  exact List.mem_range.mp (List.mem_of_find?_eq_some h)

section

variable {σ σ' : Solo} {a : SoloAct}

theorem moves_of_step (hs : σ.step a = some σ') : Moves σ a σ' := by
  have hbatch : ∀ {mode : ℕ} {write : Bool} {priority : ℤ} {ops : List RaidOp},
      PageBatch mode write priority (reqs ops) → (reqs ops).length ≤ ndiskreqs :=
    fun h => h.length.trans (by decide)
  cases a with
  | swapOut page priority =>
    simp only [Solo.step, Option.ite_none_right_eq_some] at hs
    obtain ⟨⟨hidle, hl⟩, hs⟩ := hs
    cases hslot : freeSlot σ.inUse with
    | none =>
      rw [hslot] at hs
      cases hs
      exact .sets (by simp) rfl rfl
    | some slot =>
      rw [hslot] at hs
      cases hs
      have hb := pageBatch_writePageOps σ.d.raidMode page priority (freeSlot_lt hslot)
      exact .begins (by simp) hidle (by simp) rfl rfl (reqs_writePageOps_ne_nil _ _ _ _)
        (hbatch hb) (hb.sane (modeUsed_le _) hl)
  | swapIn page slot priority =>
    simp only [Solo.step, Option.ite_none_right_eq_some, Option.some.injEq] at hs
    obtain ⟨⟨hidle, hslot, hl⟩, rfl⟩ := hs
    have hb := pageBatch_readPageOps (σ.d.slotRaidMode slot) page priority hslot
    refine .begins (by simp) hidle (by simp) rfl rfl ?_ (hbatch hb) (hb.sane (modeUsed_le _) hl)
    rw [reqs_readPageOps]
    exact List.cons_ne_nil _ _
  | serve =>
    simp only [Solo.step] at hs
    split at hs
    · cases hs
    · cases hs
    · rename_i i hpick hphase
      obtain ⟨r, hr, rfl⟩ := Option.map_eq_some_iff.mp hs
      exact .serves hphase (by rw [Solo.next, hpick]; exact hr) hr
  | ret =>
    simp only [Solo.step] at hs
    split at hs
    · rename_i hphase hnone
      cases hs
      exact .returns (by rw [hphase]; simp) hnone rfl (totalOps_write σ.stats)
    · rename_i slot hphase hnone
      cases hs
      exact .returns (by rw [hphase]; simp) hnone rfl (totalOps_read σ.stats)
    · cases hs
  | setRaidMode mode =>
    cases hs
    exact .sets (by simp) rfl rfl
  | setdisksched policy =>
    cases hs
    obtain ⟨pol, hpol⟩ := setdisksched_eq policy σ.d
    rw [hpol]
    exact .sets (by simp) rfl rfl

end

/-! ### What every state has -/

/-- The driver is in order, a call makes at least one request, and operations are counted after
their requests. -/
structure Solo.Ok (σ : Solo) : Prop where
  head : HeadInImage σ.d
  sane : ∀ r ∈ σ.d.reqQueue.contents, r.Sane
  idle : σ.phase = .idle → σ.d.reqQueue.contents = []
  begun : σ.phase ≠ .idle → σ.lats ≠ [] ∨ σ.d.reqQueue.contents ≠ []
  counted : σ.lats = [] → σ.stats.totalOps = 0
  logged : σ.stats.avgDiskLatency = σ.avgs.getLastD 0
  lats : ∀ l ∈ σ.lats, rotationalDelay ≤ l ∧ l ≤ 2 ^ 17

section

variable {σ σ' : Solo} {a : SoloAct}

theorem Solo.Ok.mem (h : σ.Ok) (hnext : σ.next = some r) : r.Sane := by
  obtain ⟨i, -, hr⟩ := Option.bind_eq_some_iff.mp hnext
  exact h.sane r (mem_contents.mpr ⟨i, hr⟩)

theorem Solo.Ok.latency_bounds (h : σ.Ok) (hr : r.Sane) :
    rotationalDelay ≤ latency σ.d.diskHeadPos r.blockno ∧
      latency σ.d.diskHeadPos r.blockno ≤ 2 ^ 17 :=
  Disk.latency_bounds h.head.1 h.head.2 hr.block

/-- The latency that the code computes is the latency of the request. -/
theorem Solo.Ok.serve_stats (h : σ.Ok) (hr : r.Sane) :
    (σ.serve i r).stats = σ.stats.addLatency (latency σ.d.diskHeadPos r.blockno) := by
  rw [← latency_eq h.head.1 h.head.2 hr.block]
  rfl

theorem totalOps_addLatency (p : ProcStats) (lat : ℤ) : (p.addLatency lat).totalOps = p.totalOps :=
  rfl

/-- A call fills the queue with its requests. -/
theorem Solo.Ok.contents_execOps (h : σ.Ok) (hidle : σ.phase = .idle) {ops : List RaidOp}
    (hq : d.reqQueue = σ.d.reqQueue) (hlen : (reqs ops).length ≤ ndiskreqs) :
    (execOps ops d).reqQueue.contents = reqs ops := by
  have hempty : d.reqQueue = ofList [] := by
    funext i
    rw [hq, contents_eq_nil.mp (h.idle hidle) i]
    simp [ofList]
  rw [execOps_reqQueue hempty (by simpa using hlen)]
  exact contents_ofList hlen

/-- **Every step keeps it.** -/
theorem Solo.Ok.step (h : σ.Ok) (hs : σ.step a = some σ') : σ'.Ok := by
  cases moves_of_step hs with
  | @begins _ ops d inUse phase ha hidle hphase hq hh hne hlen hsane =>
    have hcontents := h.contents_execOps hidle hq hlen
    exact
      { head := by
          have hhead := h.head
          simpa only [HeadInImage, execOps_diskHeadPos, hh] using hhead
        sane := fun r hr => hsane r (by rwa [hcontents] at hr)
        idle := fun hi => absurd hi hphase
        begun := fun _ => Or.inr (by rwa [hcontents])
        counted := h.counted
        logged := h.logged
        lats := h.lats }
  | @serves i r hphase hnext hi =>
    have hr := h.mem hnext
    have hmem : ∀ q ∈ (σ.serve i r).d.reqQueue.contents, q ∈ σ.d.reqQueue.contents :=
      fun q hq => mem_contents_erase hq
    exact
      { head := ⟨Int.natCast_nonneg _, Int.ofNat_lt.mpr hr.block⟩
        sane := fun q hq => h.sane q (hmem q hq)
        idle := fun hidle => absurd hidle hphase
        begun := fun _ => Or.inl (by simp [Solo.serve])
        counted := fun hnil => absurd hnil (by simp [Solo.serve])
        logged := by simp [Solo.serve]
        lats := fun l hl => by
          rcases List.mem_append.mp hl with hl | hl
          · exact h.lats l hl
          · rw [List.mem_singleton.mp hl]
            exact h.latency_bounds hr }
  | @returns stats inUse hphase hnone havg hops =>
    have hempty := pickRequest_eq_none h.head h.sane hnone
    exact
      { head := h.head
        sane := h.sane
        idle := fun _ => hempty
        begun := fun hne => absurd rfl hne
        counted := fun hnil => absurd hnil ((h.begun hphase).resolve_right fun hne => hne hempty)
        logged := havg.trans h.logged
        lats := h.lats }
  | @sets _ d ha hq hh =>
    exact
      { head := by
          have hhead := h.head
          simpa only [HeadInImage, hh] using hhead
        sane := fun r hr => h.sane r (by rwa [hq] at hr)
        idle := fun hidle => by
          rw [hq]
          exact h.idle hidle
        begun := fun hne => by
          rw [hq]
          exact h.begun hne
        counted := h.counted
        logged := h.logged
        lats := h.lats }

theorem Solo.ok_init (hd : Quiet d) (inUse : ℕ → Bool) :
    (Solo.init d inUse).Ok where
  head := hd.head
  sane r hr := by
    rw [show (Solo.init d inUse).d.reqQueue.contents = [] from hd.empty] at hr
    cases hr
  idle _ := hd.empty
  begun h := absurd rfl h
  counted _ := int32_zero
  logged := rfl
  lats l hl := by cases hl

end

/-! ### The mean -/

/-- No product overflows. -/
def Solo.FitsInt (σ : Solo) : SoloAct → Prop
  | .serve => ∀ r ∈ σ.next, σ.stats.Fits (latency σ.d.diskHeadPos r.blockno)
  | _ => True

/-- It makes no difference whether the next latency is weighed with the number of operations or with
the number of requests. -/
def Solo.EqualWeight (σ : Solo) : SoloAct → Prop
  | .serve => ∀ r ∈ σ.next,
    (latency σ.d.diskHeadPos r.blockno - σ.stats.avgDiskLatency) / σ.stats.weight
      = (latency σ.d.diskHeadPos r.blockno - σ.stats.avgDiskLatency) / (σ.lats.length + 1)
  | _ => True

instance (p : ProcStats) (lat : ℤ) : Decidable (p.Fits lat) := inferInstanceAs (Decidable (_ ∨ _))

instance (σ : Solo) : (a : SoloAct) → Decidable (σ.FitsInt a)
  | .serve => inferInstanceAs (Decidable (∀ r ∈ σ.next, _))
  | .swapOut _ _ | .swapIn _ _ _ | .ret | .setRaidMode _ | .setdisksched _ => isTrue trivial

instance (σ : Solo) : (a : SoloAct) → Decidable (σ.EqualWeight a)
  | .serve => inferInstanceAs (Decidable (∀ r ∈ σ.next, _))
  | .swapOut _ _ | .swapIn _ _ _ | .ret | .setRaidMode _ | .setdisksched _ => isTrue trivial

/-- What the mean needs to know of a state. -/
structure Solo.Sound (σ : Solo) : Prop extends σ.Ok where
  nonneg : 0 ≤ σ.stats.avgDiskLatency

section

variable {σ σ' : Solo} {a : SoloAct}

/-- The service of one request, if the product fits. -/
theorem Solo.Sound.serve_avg (h : σ.Sound) (hnext : σ.next = some r) (hfits : σ.FitsInt .serve) :
    (σ.serve i r).stats.avgDiskLatency = σ.stats.avgDiskLatency +
      (latency σ.d.diskHeadPos r.blockno - σ.stats.avgDiskLatency) / σ.stats.weight := by
  have hr := h.mem hnext
  have hlat := (h.latency_bounds hr).1
  simp only [rotationalDelay] at hlat
  rw [h.serve_stats hr, addLatency_eq h.nonneg (by omega) (hfits r hnext)]

/-- An average that is not negative stays so. -/
theorem avg_nonneg {avg lat w : ℤ} (havg : 0 ≤ avg) (hlat : 0 ≤ lat) (hw : 1 ≤ w) :
    0 ≤ avg + (lat - avg) / w := by
  rw [← mean_step avg lat (by omega)]
  exact Int.ediv_nonneg (add_nonneg (mul_nonneg havg (by omega)) hlat) (by omega)

theorem Solo.Sound.step (h : σ.Sound) (hfits : σ.FitsInt a) (hs : σ.step a = some σ') :
    σ'.Sound := by
  refine ⟨h.toOk.step hs, ?_⟩
  cases moves_of_step hs with
  | begins => exact h.nonneg
  | serves hphase hnext hi =>
    have hlat := (h.latency_bounds (h.mem hnext)).1
    simp only [rotationalDelay] at hlat
    rw [h.serve_avg hnext hfits]
    exact avg_nonneg h.nonneg (by omega) (le_max_left _ _)
  | returns hphase hnone havg hops =>
    rw [havg]
    exact h.nonneg
  | sets => exact h.nonneg

/-- **One step**: the averages remain the running means exactly if the weights make no
difference. -/
theorem Solo.Sound.means_iff (h : σ.Sound) (hfits : σ.FitsInt a) (hs : σ.step a = some σ') :
    σ'.avgs = means σ'.lats ↔ σ.avgs = means σ.lats ∧ σ.EqualWeight a := by
  have hother : a ≠ .serve → σ.EqualWeight a := by
    intro ha
    cases a with
    | serve => exact absurd rfl ha
    | _ => trivial
  cases moves_of_step hs with
  | begins ha => exact (and_iff_left (hother ha)).symm
  | @serves i r hphase hnext hi =>
    have hsplit : (σ.serve i r).avgs = means (σ.serve i r).lats ↔ σ.avgs = means σ.lats ∧
        (σ.serve i r).stats.avgDiskLatency
          = runningMean (σ.lats ++ [latency σ.d.diskHeadPos r.blockno]) := by
      show σ.avgs ++ [(σ.serve i r).stats.avgDiskLatency]
        = means (σ.lats ++ [latency σ.d.diskHeadPos r.blockno]) ↔ _
      rw [means_append, List.append_singleton_inj]
    rw [hsplit]
    refine and_congr_right fun hmeans => ?_
    have havg : σ.stats.avgDiskLatency = runningMean σ.lats := by
      rw [h.logged, hmeans, getLastD_means]
    rw [h.serve_avg hnext hfits, runningMean_append, ← havg, add_right_inj]
    constructor
    · intro heq q hq
      obtain rfl := Option.some.inj (hnext.symm.trans hq)
      exact heq
    · intro hweight
      exact hweight r hnext
  | returns => exact (and_iff_left trivial).symm
  | sets ha => exact (and_iff_left (hother ha)).symm

theorem Solo.sound_init (hd : Quiet d) (inUse : ℕ → Bool) :
    (Solo.init d inUse).Sound := ⟨Solo.ok_init hd inUse, le_rfl⟩

end

/-- **The average latency is the mean** after every request of a run in which no product overflows,
exactly if at every request the weights make no difference. The average of the process is the one
after its last request. -/
theorem mean_latency_iff {d : DiskState} (hd : Quiet d) (inUse : ℕ → Bool) {acts : List SoloAct}
    {σ : Solo} (hfits : Meets Solo.step Solo.FitsInt acts (Solo.init d inUse))
    (hrun : Transition.run Solo.step acts (Solo.init d inUse) = some σ) :
    (σ.avgs = means σ.lats ↔
      Meets Solo.step Solo.EqualWeight acts (Solo.init d inUse)) ∧
    σ.stats.avgDiskLatency = σ.avgs.getLastD 0 := by
  have hinit := Solo.sound_init hd inUse
  have hiff := run_iff_meets_of (P := fun σ : Solo => σ.avgs = means σ.lats)
    (fun _ _ _ h hf hs => h.step hf hs) (fun _ _ _ h hf hs => h.means_iff hf hs) hinit hfits hrun
  have hsound : σ.Sound :=
    run_invariant (fun _ _ _ h hf hs => h.step hf hs) hinit hfits hrun
  exact ⟨hiff.trans (and_iff_right rfl), hsound.logged⟩

/-- The driver after boot in RAID 0, with an empty image. -/
def emptyDisk : DiskState := initState 0 (fun _ _ => 0) fun _ _ => 0

/-- The head is as far from the first block of slot `0` as the blocks of the page are apart. -/
def nearDisk : DiskState := { emptyDisk with diskHeadPos := 15904 }

/-- The four requests of a page, which take the same time. -/
theorem mean_latency_onePage : Quiet nearDisk ∧
    ∃ σ, Transition.run Solo.step (.swapOut 0 0 :: List.replicate 4 .serve)
        (Solo.init nearDisk fun _ => false) = some σ ∧
      σ.lats = List.replicate 4 4106 ∧ σ.avgs = means σ.lats := by
  have hfits : Meets Solo.step Solo.FitsInt (.swapOut 0 0 :: List.replicate 4 .serve)
      (Solo.init nearDisk fun _ => false) := by
    decide +kernel
  have hweight : Meets Solo.step Solo.EqualWeight
      (.swapOut 0 0 :: List.replicate 4 .serve) (Solo.init nearDisk fun _ => false) := by
    decide +kernel
  obtain ⟨σ, hσ, hlats⟩ : ∃ σ, Transition.run Solo.step (.swapOut 0 0 :: List.replicate 4 .serve)
      (Solo.init nearDisk fun _ => false) = some σ ∧ σ.lats = List.replicate 4 4106 := by
    decide +kernel
  have hd : Quiet nearDisk :=
    ⟨(quiet_initState 0 (fun _ _ => 0) fun _ _ => 0).empty, by norm_num [HeadInImage, nearDisk]⟩
  exact ⟨hd, σ, hσ, hlats, (mean_latency_iff hd _ hfits hσ).1.mpr hweight⟩

/-- While the first page is written no operation has been counted, and every latency replaces the
average. -/
theorem mean_latency_counterexample :
    ∃ σ, Transition.run Solo.step [.swapOut 0 0, .serve, .serve]
        (Solo.init emptyDisk fun _ => false) = some σ ∧
      σ.lats = [20010, 4106] ∧ σ.stats.avgDiskLatency = 4106 ∧ runningMean σ.lats = 12058 := by
  have h : (Transition.run Solo.step [.swapOut 0 0, .serve, .serve]
      (Solo.init emptyDisk fun _ => false)).map
        (fun σ => (σ.lats, σ.stats.avgDiskLatency)) = some ([20010, 4106], 4106) := by
    decide +kernel
  obtain ⟨σ, hσ, he⟩ := Option.map_eq_some_iff.mp h
  obtain ⟨hlats, havg⟩ := Prod.mk.inj he
  exact ⟨σ, hσ, hlats, havg, by rw [hlats]; decide⟩

/-! ### The range -/

/-- The average is at least `ROTATIONAL_DELAY` and at most the largest latency so far. -/
def Solo.InRange (σ : Solo) : Prop :=
  σ.lats ≠ [] → rotationalDelay ≤ σ.stats.avgDiskLatency ∧ ∃ l ∈ σ.lats, σ.stats.avgDiskLatency ≤ l

/-- A mean lies between its values. -/
theorem mean_between {avg lat w lo : ℤ} (hw : 1 ≤ w) (havg : lo ≤ avg) (hlat : lo ≤ lat) :
    lo ≤ avg + (lat - avg) / w ∧ avg + (lat - avg) / w ≤ max avg lat := by
  rw [← mean_step avg lat (by omega)]
  constructor
  · rw [Int.le_ediv_iff_mul_le (by omega)]
    nlinarith
  · refine Int.ediv_le_of_le_mul (by omega) ?_
    have h1 := le_max_left avg lat
    have h2 := le_max_right avg lat
    nlinarith

section

variable {σ σ' : Solo} {a : SoloAct}

/-- **One step** keeps the average in range if the product fits. -/
theorem Solo.InRange.step (hrange : σ.InRange) (h : σ.Sound) (hfits : σ.FitsInt a)
    (hs : σ.step a = some σ') : σ'.InRange := by
  cases moves_of_step hs with
  | begins => exact hrange
  | @serves i r hphase hnext hi =>
    intro _
    have hlat := (h.latency_bounds (h.mem hnext)).1
    rw [h.serve_avg hnext hfits]
    by_cases hnil : σ.lats = []
    · -- no operation has been counted, so the latency replaces the average
      have hweight : σ.stats.weight = 1 := by rw [ProcStats.weight, h.counted hnil]; rfl
      rw [hweight, Int.ediv_one, add_sub_cancel]
      exact ⟨hlat, _, List.mem_append_right _ (List.mem_singleton_self _), le_rfl⟩
    · obtain ⟨hlo, l, hl, hhi⟩ := hrange hnil
      obtain ⟨hlo', hhi'⟩ := mean_between (w := σ.stats.weight) (le_max_left _ _) hlo hlat
      refine ⟨hlo', ?_⟩
      rcases le_total σ.stats.avgDiskLatency (latency σ.d.diskHeadPos r.blockno) with hle | hle
      · rw [max_eq_right hle] at hhi'
        exact ⟨_, List.mem_append_right _ (List.mem_singleton_self _), hhi'⟩
      · rw [max_eq_left hle] at hhi'
        exact ⟨l, List.mem_append_left _ hl, hhi'.trans hhi⟩
  | returns hphase hnone havg hops =>
    intro hne
    rw [havg]
    exact hrange hne
  | sets => exact hrange

end

/-- **The average latency stays in range** in every run in which no product overflows. -/
theorem avg_latency_in_range {d : DiskState} (hd : Quiet d) (inUse : ℕ → Bool)
    {acts : List SoloAct} {σ : Solo} (hfits : Meets Solo.step Solo.FitsInt acts (Solo.init d inUse))
    (hrun : Transition.run Solo.step acts (Solo.init d inUse) = some σ) : σ.InRange := by
  have hboth : σ.Sound ∧ σ.InRange :=
    run_invariant (P := fun σ : Solo => σ.Sound ∧ σ.InRange)
      (fun _ _ _ h hf hs => ⟨h.1.step hf hs, h.2.step h.1 hf hs⟩)
      ⟨Solo.sound_init hd inUse, fun hne => absurd rfl hne⟩ hfits hrun
  exact hboth.2

/-- One page is written. -/
def onePage : List SoloAct := [.swapOut 0 0, .serve, .serve, .serve, .serve, .ret]

theorem avg_latency_onePage : Quiet emptyDisk ∧
    Meets Solo.step Solo.FitsInt onePage (Solo.init emptyDisk fun _ => false) ∧
    ∃ σ, Transition.run Solo.step onePage (Solo.init emptyDisk fun _ => false) = some σ ∧
      σ.lats ≠ [] ∧ σ.InRange := by
  have hfits : Meets Solo.step Solo.FitsInt onePage
      (Solo.init emptyDisk fun _ => false) := by
    decide +kernel
  have hlats : (Transition.run Solo.step onePage (Solo.init emptyDisk fun _ => false)).map
      (fun σ => σ.lats) = some [20010, 4106, 4106, 4106] := by
    decide +kernel
  obtain ⟨σ, hσ, hl⟩ := Option.map_eq_some_iff.mp hlats
  have hd : Quiet emptyDisk := quiet_initState _ _ _
  exact ⟨hd, hfits, σ, hσ, by rw [hl]; simp, avg_latency_in_range hd _ hfits hσ⟩

/-! ### Swapping long enough -/

/-- The product of the average and the count is what the next division starts from. Once a request
of the current call has been served, it is small even with the operation counted. -/
structure Solo.Small (σ : Solo) : Prop where
  nonneg : 0 ≤ σ.stats.avgDiskLatency
  product : σ.stats.avgDiskLatency * (σ.stats.totalOps - 1) < 2 ^ 31
  served : σ.phase ≠ .idle → σ.d.reqQueue.contents ≠ [] ∨
    σ.stats.avgDiskLatency * σ.stats.totalOps < 2 ^ 31

section

variable {σ σ' : Solo} {a : SoloAct}

/-- A product just above the range of `int` makes the average negative. -/
theorem addLatency_of_overflow {p : ProcStats} {lat : ℤ} (hops : 1 < p.totalOps)
    (hlo : 2 ^ 31 ≤ p.avgDiskLatency * (p.totalOps - 1) + lat)
    (hhi : p.avgDiskLatency * (p.totalOps - 1) + lat < 2 ^ 32) :
    (p.addLatency lat).avgDiskLatency ≤ 0 := by
  rw [addLatency_of_lt hops]
  generalize p.avgDiskLatency * (p.totalOps - 1) + lat = x at hlo hhi
  have hwrap : int32 x = x - 2 ^ 32 := by
    rw [int32, Int.bmod_def]
    split <;> norm_num at * <;> omega
  have hneg := Int.tdiv_nonneg (a := -(x - 2 ^ 32)) (b := p.totalOps) (by omega) (by omega)
  rw [Int.neg_tdiv] at hneg
  rw [hwrap]
  omega

theorem int32_le {x : ℤ} (h : -2 ^ 31 ≤ x) : int32 x ≤ x := by
  rw [int32, Int.bmod_def]
  split <;> norm_num <;> omega

/-- **The first overflow is seen**: a step from a small state leads to a small state, or out of
range. -/
theorem Solo.Small.step (hsmall : σ.Small) (h : σ.Ok) (hs : σ.step a = some σ')
    (hrange : σ'.InRange) : σ'.Small := by
  cases moves_of_step hs with
  | begins ha hidle hphase hq hh hne hlen hsane =>
    refine ⟨hsmall.nonneg, hsmall.product, fun _ => Or.inl ?_⟩
    rw [h.contents_execOps hidle hq hlen]
    exact hne
  | @serves i r hphase hnext hi =>
    have hr := h.mem hnext
    obtain ⟨hlo, hhi⟩ := h.latency_bounds hr
    have hge := (hrange (by simp [Solo.serve])).1
    have hstats := h.serve_stats (i := i) hr
    have hops : (σ.serve i r).stats.totalOps = σ.stats.totalOps := by
      rw [hstats, totalOps_addLatency]
    rw [hstats] at hge
    generalize latency σ.d.diskHeadPos r.blockno = lat at hlo hhi hge hstats
    simp only [rotationalDelay] at hlo hge
    suffices hprod : (σ.stats.addLatency lat).avgDiskLatency * σ.stats.totalOps < 2 ^ 31 by
      refine ⟨?_, ?_, fun _ => Or.inr ?_⟩
      · rw [hstats]
        omega
      · rw [hops, hstats, mul_sub, mul_one]
        omega
      · rw [hops, hstats]
        exact hprod
    rcases le_or_gt σ.stats.totalOps 1 with hle | hlt
    · rw [addLatency_of_le hle]
      nlinarith
    · have hx : σ.stats.avgDiskLatency * (σ.stats.totalOps - 1) + lat < 2 ^ 31 := by
        by_contra hx
        have hneg := addLatency_of_overflow hlt (not_lt.mp hx) (by
          have hprod := hsmall.product
          omega)
        omega
      have hnonneg : 0 ≤ σ.stats.avgDiskLatency * (σ.stats.totalOps - 1) + lat :=
        add_nonneg (mul_nonneg hsmall.nonneg (by omega)) (by omega)
      rw [addLatency_of_lt hlt, int32_of_mem (by omega) hx, Int.tdiv_eq_ediv_of_nonneg hnonneg]
      exact (Int.ediv_mul_le _ (by omega)).trans_lt hx
  | returns hphase hnone havg hops =>
    have hempty := pickRequest_eq_none h.head h.sane hnone
    have hprod := (hsmall.served hphase).resolve_left fun hne => hne hempty
    refine ⟨by rw [havg]; exact hsmall.nonneg, ?_, fun hne => absurd rfl hne⟩
    have hle : int32 (σ.stats.totalOps + 1) - 1 ≤ σ.stats.totalOps := by
      have hlow := le_totalOps σ.stats
      have hwrap := int32_le (x := σ.stats.totalOps + 1) (by omega)
      omega
    rw [havg, hops]
    exact (mul_le_mul_of_nonneg_left hle hsmall.nonneg).trans_lt hprod
  | sets ha hq hh =>
    refine ⟨hsmall.nonneg, hsmall.product, fun hne => ?_⟩
    rw [hq]
    exact hsmall.served hne

theorem step_serve (hphase : σ.phase ≠ .idle) (hpick : pickRequest σ.d = some i)
    (hi : σ.d.reqQueue i = some r) : σ.step .serve = some (σ.serve i r) := by
  simp only [Solo.step, hpick]
  cases hp : σ.phase with
  | idle => exact absurd hp hphase
  | writing => simp only [hi, Option.map_some]
  | reading slot => simp only [hi, Option.map_some]

/-- A call ends. -/
theorem exists_drained (h : σ.Ok) (hphase : σ.phase ≠ .idle) :
    ∃ n σ', Transition.run Solo.step (List.replicate n .serve) σ = some σ' ∧ σ'.Ok ∧
      σ'.phase = σ.phase ∧ pickRequest σ'.d = none ∧
      σ'.stats.totalOps = σ.stats.totalOps ∧ σ'.inUse = σ.inUse := by
  induction hm : σ.d.reqQueue.contents.length generalizing σ with
  | zero =>
    refine ⟨0, σ, rfl, h, rfl, ?_, rfl, rfl⟩
    by_contra hne
    obtain ⟨i, hi⟩ := Option.ne_none_iff_exists'.mp hne
    obtain ⟨r, hr⟩ := pickRequest_isSome hi
    rw [contents_eq_nil.mp (List.length_eq_zero_iff.mp hm) i] at hr
    cases hr
  | succ m ih =>
    cases hpick : pickRequest σ.d with
    | none => exact ⟨0, σ, rfl, h, rfl, hpick, rfl, rfl⟩
    | some i =>
      obtain ⟨r, hr⟩ := pickRequest_isSome hpick
      have hserve := step_serve hphase hpick hr
      have hlen : (σ.serve i r).d.reqQueue.contents.length = m := by
        have herase := length_contents_erase hr
        show (σ.d.reqQueue.erase i).contents.length = m
        omega
      obtain ⟨n, σ', hrun, hok, hph, hnone, hops, hslots⟩ := ih (h.step hserve) hphase hlen
      exact ⟨n + 1, σ', run_cons_eq_some.mpr ⟨_, hserve, hrun⟩, hok, hph, hnone,
        hops, hslots⟩

end

/-- A process swaps one page out and in again. -/
def backAndForth : List SoloAct := [.swapOut 0 0, .swapIn 0 0 0, .serve, .ret]

/-- A run of these steps. -/
def Reaches (σ σ' : Solo) : Prop :=
  ∃ acts : List SoloAct, (∀ a ∈ acts, a ∈ backAndForth) ∧
    Transition.run Solo.step acts σ = some σ'

section

variable {σ σ' σ'' : Solo} {a : SoloAct}

theorem Reaches.trans (h : Reaches σ σ') (h' : Reaches σ' σ'') : Reaches σ σ'' := by
  obtain ⟨as, has, hrun⟩ := h
  obtain ⟨bs, hbs, hrun'⟩ := h'
  refine ⟨as ++ bs, fun a ha => (List.mem_append.mp ha).elim (has a) (hbs a), ?_⟩
  rw [run_append, hrun]
  exact hrun'

theorem Reaches.single (ha : a ∈ backAndForth) (hs : σ.step a = some σ') : Reaches σ σ' := by
  refine ⟨[a], fun b hb => ?_, run_cons_eq_some.mpr ⟨σ', hs, rfl⟩⟩
  rwa [List.mem_singleton.mp hb]

/-- A call that has begun returns. -/
theorem exists_returned (h : σ.Ok) (hphase : σ.phase ≠ .idle) :
    ∃ σ', Reaches σ σ' ∧ σ'.Ok ∧ σ'.phase = .idle ∧
      σ'.stats.totalOps = int32 (σ.stats.totalOps + 1) ∧
      σ'.inUse = match σ.phase with
        | .reading slot => update σ.inUse slot false
        | _ => σ.inUse := by
  obtain ⟨n, σ₁, hrun, hok, hph, hnone, hops, hslots⟩ := exists_drained h hphase
  have hdrain : Reaches σ σ₁ := by
    refine ⟨_, fun a ha => ?_, hrun⟩
    rw [List.eq_of_mem_replicate ha]
    decide
  cases hp : σ.phase with
  | idle => exact absurd hp hphase
  | writing =>
    have hret : σ₁.step .ret = some { σ₁ with
        stats := { σ₁.stats with diskWrites := int32 (σ₁.stats.diskWrites + 1) }
        phase := .idle } := by
      simp only [Solo.step, hph, hp, hnone]
    refine ⟨_, hdrain.trans (.single (by decide) hret), hok.step hret, rfl, ?_, hslots⟩
    rw [← hops]
    exact totalOps_write σ₁.stats
  | reading slot =>
    have hret : σ₁.step .ret = some { σ₁ with
        inUse := update σ₁.inUse slot false
        stats := { σ₁.stats with diskReads := int32 (σ₁.stats.diskReads + 1) }
        phase := .idle } := by
      simp only [Solo.step, hph, hp, hnone]
    refine ⟨_, hdrain.trans (.single (by decide) hret), hok.step hret, rfl, ?_, ?_⟩
    · rw [← hops]
      exact totalOps_read σ₁.stats
    · show update σ₁.inUse slot false = update σ.inUse slot false
      rw [hslots]

/-- The page goes out and comes back. -/
theorem exists_roundTrip (h : σ.Ok) (hidle : σ.phase = .idle) (hslots : σ.inUse = fun _ => false) :
    ∃ σ', Reaches σ σ' ∧ σ'.Ok ∧ σ'.phase = .idle ∧ σ'.inUse = (fun _ => false) ∧
      σ'.stats.totalOps = int32 (σ.stats.totalOps + 2) := by
  have hlevel : IsLevel 0 := ⟨le_rfl, by norm_num⟩
  have hfree : freeSlot (fun _ => false) = some 0 := by decide +kernel
  obtain ⟨σ₁, hout, hphase₁, hslots₁, hops₁⟩ : ∃ σ₁, σ.step (.swapOut 0 0) = some σ₁ ∧
      σ₁.phase = .writing ∧ σ₁.inUse = update (fun _ => false) 0 true ∧
      σ₁.stats = σ.stats := by
    simp only [Solo.step, hidle, hlevel, hslots, hfree, and_self, if_true]
    exact ⟨_, rfl, rfl, rfl, rfl⟩
  obtain ⟨σ₂, hr₂, hok₂, hidle₂, hops₂, hslots₂⟩ := exists_returned (h.step hout)
    (by rw [hphase₁]; simp)
  obtain ⟨σ₃, hin, hphase₃, hslots₃, hops₃⟩ : ∃ σ₃, σ₂.step (.swapIn 0 0 0) = some σ₃ ∧
      σ₃.phase = .reading 0 ∧ σ₃.inUse = σ₂.inUse ∧ σ₃.stats = σ₂.stats := by
    simp only [Solo.step, hidle₂, hlevel, show 0 < nswapspace by simp, and_self, if_true]
    exact ⟨_, rfl, rfl, rfl, rfl⟩
  obtain ⟨σ₄, hr₄, hok₄, hidle₄, hops₄, hslots₄⟩ := exists_returned (hok₂.step hin)
    (by rw [hphase₃]; simp)
  refine ⟨σ₄, ?_, hok₄, hidle₄, ?_, ?_⟩
  · exact (Reaches.single (by decide) hout).trans
      (hr₂.trans ((Reaches.single (by decide) hin).trans hr₄))
  · rw [hphase₃] at hslots₄
    rw [hphase₁] at hslots₂
    rw [hslots₄, hslots₃, hslots₂, hslots₁]
    show update (update (fun _ => false) 0 true) 0 false = fun _ => false
    rw [update_idem]
    exact update_eq_self 0 _
  · rw [hops₄, hops₃, hops₂, hops₁, int32_add, add_assoc]
    rfl

theorem exists_ops (hd : Quiet d) {m : ℕ} (hm : m ≤ 2 ^ 27) :
    ∃ σ, Reaches (Solo.init d fun _ => false) σ ∧ σ.Ok ∧ σ.phase = .idle ∧
      σ.inUse = (fun _ => false) ∧ σ.stats.totalOps = 2 * m := by
  induction m with
  | zero =>
    exact ⟨_, ⟨[], by simp, rfl⟩, Solo.ok_init hd _, rfl, rfl, int32_zero⟩
  | succ m ih =>
    obtain ⟨σ, hr, hok, hidle, hslots, hops⟩ := ih (by omega)
    obtain ⟨σ', hr', hok', hidle', hslots', hops'⟩ := exists_roundTrip hok hidle hslots
    refine ⟨σ', hr.trans hr', hok', hidle', hslots', ?_⟩
    rw [hops', hops, int32_of_mem (by omega) (by omega)]
    push_cast
    ring

end

/-- **The average leaves its range** when a process swaps long enough: the average is never below
`ROTATIONAL_DELAY`, so its product with the number of operations grows until it overflows, and at
the first overflow the average becomes negative. -/
theorem avg_latency_counterexample :
    ∃ acts σ, (∀ a ∈ acts, a ∈ backAndForth) ∧
      Transition.run Solo.step acts (Solo.init emptyDisk fun _ => false) = some σ ∧
      ¬ σ.InRange := by
  by_contra hall
  have hrange : ∀ σ, Reaches (Solo.init emptyDisk fun _ => false) σ → σ.InRange := by
    rintro σ ⟨acts, hacts, hrun⟩
    by_contra hnot
    exact hall ⟨acts, σ, hacts, hrun, hnot⟩
  have hd : Quiet emptyDisk := quiet_initState _ _ _
  have hsmall : ∀ σ, Reaches (Solo.init emptyDisk fun _ => false) σ → σ.Small := by
    rintro σ ⟨acts, hacts, hrun⟩
    have hinv : Reaches (Solo.init emptyDisk fun _ => false) σ ∧ σ.Ok ∧ σ.Small := by
      refine run_invariant (C := fun _ a => a ∈ backAndForth)
        (P := fun σ => Reaches (Solo.init emptyDisk fun _ => false) σ ∧ σ.Ok ∧ σ.Small)
        (fun σ a σ' h ha hs => ?_) ⟨⟨[], by simp, rfl⟩, Solo.ok_init hd _, ?_⟩
        (meets_of_forall (fun a ha _ => hacts a ha) _) hrun
      · have hr := h.1.trans (.single ha hs)
        exact ⟨hr, h.2.1.step hs, h.2.2.step h.2.1 hs (hrange σ' hr)⟩
      · exact ⟨le_rfl, by norm_num [Solo.init], fun hne => absurd rfl hne⟩
    exact hinv.2.2
  obtain ⟨σ, hr, hok, -, -, hops⟩ := exists_ops hd (m := 2 ^ 27) le_rfl
  have hne : σ.lats ≠ [] := fun hnil => by
    rw [hok.counted hnil] at hops
    norm_num at hops
  have hge := (hrange σ hr hne).1
  have hprod := (hsmall σ hr).product
  rw [hops] at hprod
  simp only [rotationalDelay] at hge
  norm_num at hprod
  nlinarith

end Disk

end Xv6
