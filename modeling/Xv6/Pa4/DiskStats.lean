import Xv6.Disk.DiskStats
import Xv6.Disk.Drain

/-!
# The disk statistics of the fourth assignment

`PA4/virtio_disk.c` has the queue, the policies and the block I/O of the final kernel. What differs
is the bookkeeping. `run_disk_queue` adds the latency of the request and moves the head before the
I/O, as in the final kernel; and then `do_disk_read` and `do_disk_write` call `update_lat_stats`,
which does so again. The head is on the block by then, so the second latency is the rotational delay
alone. The counters of reads and writes, on the other hand, are never incremented.

The head ends up where it does in the final kernel, so both kernels serve the same requests in the
same order (`drainWith_spec`), and only the statistics differ: each request counts twice.

## Main results

* `drainWith_spec` — what draining leaves of the statistics, in both kernels
* `latency_once_iff`, `latency_once_counterexample`
-/

namespace Xv6

namespace Pa4

open Disk
open SlotTable

/-! ### The loop -/

/-- `update_lat_stats` -/
def updateLatStats (targetBlock : ℕ) (s : DiskState) : DiskState :=
  let lat := int32 (seekDist s.diskHeadPos targetBlock + rotationalDelay)
  { s with
    statLatencySum := s.statLatencySum + lat
    statReqCount := s.statReqCount + 1
    diskHeadPos := targetBlock
    myproc := s.myproc.map fun p => p.addLatency lat }

/-- The part of an iteration before the I/O. The updates are those of `update_lat_stats`, written
out. -/
def extract (i : Fin ndiskreqs) (r : DiskReq) (s : DiskState) : DiskState :=
  updateLatStats r.blockno { s with reqQueue := s.reqQueue.erase i }

/-- `do_disk_write` or `do_disk_read`. -/
def perform (r : DiskReq) (s : DiskState) : DiskState :=
  updateLatStats r.blockno (Disk.perform r s)

/-- `run_disk_queue` with nobody else at the queue, when the policy of the `k`-th iteration is
`policy k`; `none` when it has not ended after `fuel` iterations. -/
def drainWith (policy : ℕ → Policy) : ℕ → DiskState → Option DiskState
  | 0, _ => none
  | fuel + 1, s =>
    match pickRequest (s.withPolicy (policy 0)) with
    | none => some (s.withPolicy (policy 0))
    | some i =>
      match s.reqQueue i with
      | none => none
      | some r => drainWith (fun k => policy (k + 1)) fuel
        (perform r (extract i r (s.withPolicy (policy 0))))

/-! ### The two kernels -/

/-- The states agree on everything but the statistics. -/
structure SameQueue (s t : DiskState) : Prop where
  reqQueue : s.reqQueue = t.reqQueue
  head : s.diskHeadPos = t.diskHeadPos
  disk : s.disk = t.disk
  ram : s.ram = t.ram
  trace : s.trace = t.trace

section

variable {s t : DiskState} {i : Fin ndiskreqs} {r : DiskReq}

theorem SameQueue.withPolicy (h : SameQueue s t) (policy : Policy) :
    SameQueue (s.withPolicy policy) (t.withPolicy policy) :=
  ⟨h.reqQueue, h.head, h.disk, h.ram, h.trace⟩

theorem SameQueue.pickRequest_eq (h : SameQueue s t) (policy : Policy) :
    pickRequest (s.withPolicy policy) = pickRequest (t.withPolicy policy) := by
  simp only [pickRequest, DiskState.withPolicy, h.reqQueue, h.head]

/-- One iteration. -/
theorem SameQueue.serve (h : SameQueue s t) :
    SameQueue (perform r (extract i r s)) (Disk.perform r (Disk.extract i r t)) where
  reqQueue := congrArg (erase · i) h.reqQueue
  head := rfl
  disk := by
    show (transfer (s.disk, s.ram) r).1 = (transfer (t.disk, t.ram) r).1
    rw [h.disk, h.ram]
  ram := by
    show (transfer (s.disk, s.ram) r).2 = (transfer (t.disk, t.ram) r).2
    rw [h.disk, h.ram]
  trace := congrArg (· ++ [r]) h.trace

/-- The second latency of a request is the rotational delay. -/
theorem seekDist_self (blockno : ℕ) : int32 (seekDist blockno blockno + rotationalDelay)
    = rotationalDelay := by
  have hzero : seekDist blockno blockno = 0 := by
    simp only [seekDist, sub_self]
    decide
  rw [hzero]
  decide

end

/-- What the two kernels have counted for the requests `order`: `s` and `t` before, `s'` and `t'`
after them. -/
structure Tally (s s' t t' : DiskState) (order : List DiskReq) : Prop where
  trace : s'.trace = s.trace ++ order
  count : s'.statReqCount = s.statReqCount + 2 * order.length
  finalCount : t'.statReqCount = t.statReqCount + order.length
  latencies : HeadInImage s → (∀ r ∈ order, r.Sane) → s'.statLatencySum =
    s.statLatencySum + latencySum s.diskHeadPos order + order.length * rotationalDelay
  finalLatencies : HeadInImage t → (∀ r ∈ order, r.Sane) →
    t'.statLatencySum = t.statLatencySum + latencySum t.diskHeadPos order
  reads : s'.statReads = s.statReads
  writes : s'.statWrites = s.statWrites
  finalOps : t'.statReads + t'.statWrites = t.statReads + t.statWrites + order.length

section

variable {s s' t t' : DiskState} {order : List DiskReq}

theorem Tally.refl (s t : DiskState) (policy : Policy) :
    Tally s (s.withPolicy policy) t (t.withPolicy policy) [] where
  trace := (List.append_nil _).symm
  count := by simp [DiskState.withPolicy]
  finalCount := by simp [DiskState.withPolicy]
  latencies _ _ := by simp [DiskState.withPolicy, latencySum]
  finalLatencies _ _ := by simp [DiskState.withPolicy, latencySum]
  reads := rfl
  writes := rfl
  finalOps := by simp [DiskState.withPolicy]

/-- One iteration in front of the rest. -/
theorem Tally.cons {i : Fin ndiskreqs} {r : DiskReq} {policy : Policy}
    (h : Tally (perform r (extract i r (s.withPolicy policy))) s'
      (Disk.perform r (Disk.extract i r (t.withPolicy policy))) t' order) :
    Tally s s' t t' (r :: order) := by
  constructor
  · rw [h.trace]
    exact List.append_assoc _ _ _
  · rw [h.count, List.length_cons, Nat.cast_add_one]
    show s.statReqCount + 1 + 1 + _ = _
    ring
  · rw [h.finalCount, List.length_cons, Nat.cast_add_one]
    show t.statReqCount + 1 + _ = _
    ring
  · intro hhead hsane
    have hr := hsane r List.mem_cons_self
    have hrest := h.latencies ⟨Int.natCast_nonneg _, Int.ofNat_lt.mpr hr.block⟩
      fun q hq => hsane q (List.mem_cons_of_mem r hq)
    rw [hrest, List.length_cons, Nat.cast_add_one, latencySum,
      ← latency_eq hhead.1 hhead.2 hr.block]
    show s.statLatencySum + int32 (seekDist s.diskHeadPos r.blockno + rotationalDelay)
      + int32 (seekDist r.blockno r.blockno + rotationalDelay) + latencySum r.blockno order + _ = _
    rw [seekDist_self]
    ring
  · intro hhead hsane
    have hr := hsane r List.mem_cons_self
    have hrest := h.finalLatencies ⟨Int.natCast_nonneg _, Int.ofNat_lt.mpr hr.block⟩
      fun q hq => hsane q (List.mem_cons_of_mem r hq)
    rw [hrest, latencySum, ← latency_eq hhead.1 hhead.2 hr.block]
    show t.statLatencySum + int32 (seekDist t.diskHeadPos r.blockno + rotationalDelay)
      + latencySum r.blockno order = _
    ring
  · exact h.reads
  · exact h.writes
  · rw [h.finalOps, List.length_cons, Nat.cast_add_one]
    show (if r.write then t.statReads else t.statReads + 1)
      + (if r.write then t.statWrites + 1 else t.statWrites) + _ = _
    split <;> ring

/-- **Draining, in both kernels.** The loops end, serve the same requests in the same order and
leave the same disk. -/
theorem drainWith_spec {fuel : ℕ} (policy : ℕ → Policy) (hsame : SameQueue s t)
    (hfuel : s.reqQueue.contents.length < fuel) :
    ∃ s' t' order, drainWith policy fuel s = some s' ∧ Disk.drainWith policy fuel t = some t' ∧
      SameQueue s' t' ∧ Tally s s' t t' order ∧ (∀ r ∈ order, r ∈ s.reqQueue.contents) ∧
      (order = [] → s' = s.withPolicy (policy 0) ∧ t' = t.withPolicy (policy 0)) := by
  induction fuel generalizing s t policy with
  | zero => omega
  | succ fuel ih =>
    rw [drainWith, Disk.drainWith, ← hsame.pickRequest_eq, ← hsame.reqQueue]
    cases hp : pickRequest (s.withPolicy (policy 0)) with
    | none =>
      exact ⟨_, _, [], rfl, rfl, hsame.withPolicy _, Tally.refl s t _, by simp, fun _ => ⟨rfl, rfl⟩⟩
    | some i =>
      obtain ⟨r, hr⟩ := pickRequest_isSome hp
      have hr' : s.reqQueue i = some r := hr
      have hlen := length_contents_erase hr'
      have hless : (s.reqQueue.erase i).contents.length < fuel := by omega
      obtain ⟨s', t', order, hs', ht', hsame', htally, hmem, -⟩ :=
        ih (fun k => policy (k + 1)) (hsame.withPolicy (policy 0)).serve hless
      simp only [hr']
      refine ⟨s', t', r :: order, hs', ht', hsame', htally.cons, fun q hq => ?_, fun hnil => ?_⟩
      · rcases List.mem_cons.mp hq with rfl | hq
        · exact mem_contents.mpr ⟨i, hr'⟩
        · exact mem_contents_erase (hmem q hq)
      · cases hnil

end

/-- Each of the requests `order` has been counted once: one more request, the modelled latency, and
the statistics of the final kernel, which has gone from `s` to `t`. -/
structure CountsOnce (s s' t : DiskState) (order : List DiskReq) : Prop where
  count : s'.statReqCount = s.statReqCount + order.length
  latencies : s'.statLatencySum = s.statLatencySum + latencySum s.diskHeadPos order
  stats : getDiskStats s' = getDiskStats t

/-- **Requests are counted twice.** For every queue and every sequence of policies the loop ends,
having served the requests `order` as the final kernel does. It has counted two for each of them,
and the rotational delay of each twice. So it has counted them once exactly if there were none. -/
theorem latency_once_iff (s : DiskState) (policy : ℕ → Policy) :
    ∃ s' t order, drainWith policy (ndiskreqs + 1) s = some s' ∧
      Disk.drainWith policy (ndiskreqs + 1) s = some t ∧
      s'.trace = s.trace ++ order ∧ t.trace = s.trace ++ order ∧
      s'.statReqCount = s.statReqCount + 2 * order.length ∧
      (HeadInImage s → (∀ i r, s.reqQueue i = some r → r.Sane) → s'.statLatencySum =
        s.statLatencySum + latencySum s.diskHeadPos order + order.length * rotationalDelay) ∧
      (CountsOnce s s' t order ↔ order = []) := by
  obtain ⟨s', t, order, hs', ht, hsame, htally, hmem, hnil⟩ := drainWith_spec policy
    (⟨rfl, rfl, rfl, rfl, rfl⟩ : SameQueue s s)
    (Nat.lt_succ_of_le (length_contents_le s.reqQueue))
  refine ⟨s', t, order, hs', ht, htally.trace, hsame.trace ▸ htally.trace, htally.count,
    fun hhead hq => htally.latencies hhead fun r hr => ?_, fun h => ?_, fun h => ?_⟩
  · obtain ⟨i, hi⟩ := mem_contents.mp (hmem r hr)
    exact hq i r hi
  · have hcount := h.count
    rw [htally.count] at hcount
    exact List.length_eq_zero_iff.mp (by omega)
  · obtain ⟨rfl, rfl⟩ := hnil h
    subst h
    exact ⟨by simp [DiskState.withPolicy], by simp [DiskState.withPolicy, latencySum], rfl⟩

/-- One read, of block `100`. -/
def oneRead : DiskState :=
  { initState 0 (fun _ _ => 0) (fun _ _ => 0) with
    reqQueue := ofList [⟨100, false, 0, .page 0 0⟩] }

/-- Its latency is `110`. Two requests are counted, with `120` together and `60` on average. -/
theorem latency_once_counterexample :
    ∃ s' t, drainWith (fun _ => .fcfs) (ndiskreqs + 1) oneRead = some s' ∧
      Disk.drainWith (fun _ => .fcfs) (ndiskreqs + 1) oneRead = some t ∧
      s'.trace = [⟨100, false, 0, .page 0 0⟩] ∧ s'.statReqCount = 2 ∧ s'.statLatencySum = 120 ∧
      getDiskStats s' = (0, 0, 60) ∧ getDiskStats t = (1, 0, 110) := by
  obtain ⟨s', hs', t, ht, hstats⟩ : ∃ s' ∈ drainWith (fun _ => .fcfs) (ndiskreqs + 1) oneRead,
      ∃ t ∈ Disk.drainWith (fun _ => .fcfs) (ndiskreqs + 1) oneRead,
        s'.trace = [⟨100, false, 0, .page 0 0⟩] ∧ s'.statReqCount = 2 ∧ s'.statLatencySum = 120 ∧
        getDiskStats s' = (0, 0, 60) ∧ getDiskStats t = (1, 0, 110) := by
    decide +kernel
  exact ⟨s', t, hs', ht, hstats⟩

end Pa4

end Xv6
