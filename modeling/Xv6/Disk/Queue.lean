import Xv6.Params
import Xv6.Lib.SlotTable
import Xv6.Lib.WriteLog

/-!
# The pending request queue of the swap disk

`kernel/virtio_disk.c`: the queue `req_queue`, `enqueue_disk_req`, the two scheduling policies
of `run_disk_queue`, the latency bookkeeping, and the block I/O itself.

A queue entry holds a *pointer* to its `BSIZE` bytes, and the bytes are read when the request is
served, not when it is enqueued. The pointer is therefore kept in the model: `Ptr.page` is one
block of a page buffer and `Ptr.parityBuf` the single global scratch buffer of RAID 5.

`bread` and `bwrite` go through a write-through buffer cache, so a block read is the block last
written; the model reads and writes the image directly.

## The order of service

FCFS serves the lowest occupied place and SSTF the least `4 * distance + priority`. Under both,
two requests for the same block and with the same priority are served in the order of their
places, since they have the same score and a later place never replaces an earlier one on a tie.
That is `Drained.stable`, and it is all that the RAID layer uses about the scheduler.

## Main definitions

* `DiskState` — the driver's globals, the disk image and the memory the requests point into
* `enqueueDiskReq`, `pickRequest`, `runDiskQueue`

## Main results

* `drained_runDiskQueue` — a run of the queue serves every pending request once
* `Drained.disk_of_writes`, `Drained.ram_of_reads` — what a batch of one kind leaves behind
-/

namespace Xv6

namespace Disk

open SlotTable

variable {i : Fin ndiskreqs} {l order : List DiskReq} {r : DiskReq} {s : DiskState}

/-- The contents of one disk block. -/
abbrev Block := Fin bsize → BitVec 8

/-- Where the bytes of a request are: block `b` of the page buffer at `pa`, or `parity_buf`. -/
inductive Ptr where
  | page (pa b : ℕ)
  | parityBuf
  deriving DecidableEq, Repr

/-- `disk_policy`. -/
inductive Policy where
  | fcfs
  | sstf
  deriving DecidableEq, Repr

/-- `struct disk_req`; an invalid entry is an empty place of the queue. -/
structure DiskReq where
  blockno : ℕ
  write : Bool
  priority : ℤ
  data : Ptr
  deriving DecidableEq, Repr

/-- The fields of `struct proc` that the driver reads and updates. -/
structure ProcStats where
  diskReads : ℤ
  diskWrites : ℤ
  avgDiskLatency : ℤ
  deriving DecidableEq, Repr

/-- The state of the swap disk. -/
structure DiskState where
  /-- The real blocks of the image. -/
  disk : ℕ → Block
  /-- The memory requests point into. -/
  ram : Ptr → Block
  reqQueue : SlotTable ndiskreqs DiskReq
  diskPolicy : Policy
  diskHeadPos : ℤ
  statReads : ℤ
  statWrites : ℤ
  statLatencySum : ℤ
  statReqCount : ℤ
  raidMode : ℤ
  slotRaidMode : ℕ → ℤ
  failedDiskMask : ℕ
  /-- `myproc()`, when there is one. -/
  myproc : Option ProcStats
  /-- The requests performed so far, oldest first. No function of the driver reads it. -/
  trace : List DiskReq

/-! ### Enqueueing -/

/-- `enqueue_disk_req`: the request goes into the first invalid entry; when there is none the
loop ends without storing it. -/
def enqueueDiskReq (blockno : ℕ) (write : Bool) (data : Ptr) (priority : ℤ) (s : DiskState) :
    DiskState :=
  { s with reqQueue := s.reqQueue.insertFirst ⟨blockno, write, priority, data⟩ }

/-! ### Selecting -/

/-- The seek distance from the head to a block. -/
def seekDist (head : ℤ) (blockno : ℕ) : ℤ :=
  let dist := int32 (blockno - head)
  if dist < 0 then int32 (-dist) else dist

/-- The SSTF score of a request. -/
def sstfScore (head : ℤ) (r : DiskReq) : ℤ :=
  int32 (int32 (seekDist head r.blockno * 4) + r.priority)

/-- The place `run_disk_queue` serves next, with its request; `none` ends the loop. -/
def pickRequest (s : DiskState) : Option (Fin ndiskreqs) :=
  match s.diskPolicy with
  | .fcfs => s.reqQueue.firstUsed
  | .sstf => s.reqQueue.minBy (sstfScore s.diskHeadPos) 0x7fffffff

/-! ### Serving -/

/-- The per-process running average. -/
def ProcStats.addLatency (p : ProcStats) (lat : ℤ) : ProcStats :=
  let totalOps := int32 (p.diskReads + p.diskWrites)
  let avg := if totalOps ≤ 1 then lat else
    (int32 (int32 (p.avgDiskLatency * int32 (totalOps - 1)) + lat)).tdiv totalOps
  { p with avgDiskLatency := avg }

/-- The part of an iteration that runs under `sched_lock`: the entry is invalidated, the
statistics and the head position are updated. -/
def extract (i : Fin ndiskreqs) (r : DiskReq) (s : DiskState) : DiskState :=
  let lat := int32 (seekDist s.diskHeadPos r.blockno + rotationalDelay)
  { s with
    reqQueue := s.reqQueue.erase i
    statWrites := if r.write then s.statWrites + 1 else s.statWrites
    statReads := if r.write then s.statReads else s.statReads + 1
    statLatencySum := s.statLatencySum + lat
    statReqCount := s.statReqCount + 1
    diskHeadPos := r.blockno
    myproc := s.myproc.map fun p => p.addLatency lat }

/-- The effect of one block transfer on the image and the memory: `do_disk_write` or
`do_disk_read`. -/
def transfer (dr : (ℕ → Block) × (Ptr → Block)) (r : DiskReq) : (ℕ → Block) × (Ptr → Block) :=
  if r.write then (Function.update dr.1 r.blockno (dr.2 r.data), dr.2)
  else (dr.1, Function.update dr.2 r.data (dr.1 r.blockno))

/-- The I/O of one request, outside the lock. -/
def perform (r : DiskReq) (s : DiskState) : DiskState :=
  { s with
    disk := (transfer (s.disk, s.ram) r).1
    ram := (transfer (s.disk, s.ram) r).2
    trace := s.trace ++ [r] }

/-- The loop of `run_disk_queue`, cut off after `fuel` iterations. -/
def runDiskQueueFor : ℕ → DiskState → DiskState
  | 0, s => s
  | fuel + 1, s =>
    match pickRequest s with
    | none => s
    | some i =>
      match s.reqQueue i with
      | none => s
      | some r => runDiskQueueFor fuel (perform r (extract i r s))

/-- `run_disk_queue` with nobody else at the queue. Every iteration invalidates one of the
`NDISKREQS` entries, so the cut-off is never reached; see `drained_runDiskQueueFor`. -/
def runDiskQueue (s : DiskState) : DiskState := runDiskQueueFor (ndiskreqs + 1) s

/-! ### Requests whose score cannot overflow

Swap blocks lie in the image, priorities are MLFQ levels, and the head stands on the block
served last; so every score is a small number and the sentinel `0x7fffffff` is never reached. -/

/-- The request's block is in the image and its priority is an MLFQ level. -/
structure DiskReq.Sane (r : DiskReq) : Prop where
  block : r.blockno < fssize
  prio_nonneg : 0 ≤ r.priority
  prio_le : r.priority ≤ 3

/-- The head stands on a block of the image. -/
def HeadInImage (s : DiskState) : Prop := 0 ≤ s.diskHeadPos ∧ s.diskHeadPos < fssize

theorem seekDist_eq {head : ℤ} {blockno : ℕ} (h0 : 0 ≤ head) (h1 : head < fssize)
    (hb : blockno < fssize) : seekDist head blockno = |(blockno : ℤ) - head| := by
  simp only [fssize_eq, Nat.cast_ofNat] at h1 hb
  have hd : int32 (blockno - head) = blockno - head :=
    int32_of_mem (by norm_num; omega) (by norm_num; omega)
  simp only [seekDist, hd]
  split
  · rw [int32_of_mem (by norm_num; omega) (by norm_num; omega), abs_of_neg (by assumption)]
  · rw [abs_of_nonneg (by omega)]

theorem sstfScore_lt {head : ℤ} (h0 : 0 ≤ head) (h1 : head < fssize) (hr : r.Sane) :
    sstfScore head r < 0x7fffffff := by
  have hb := hr.block
  have hp := hr.prio_le
  have hp0 := hr.prio_nonneg
  rw [sstfScore, seekDist_eq h0 h1 hb]
  simp only [fssize_eq, Nat.cast_ofNat] at h1 hb
  have hle : |(r.blockno : ℤ) - head| < 120000 := by rw [abs_lt]; omega
  have hge : 0 ≤ |(r.blockno : ℤ) - head| := abs_nonneg _
  have hmul : int32 (|(r.blockno : ℤ) - head| * 4) = |(r.blockno : ℤ) - head| * 4 :=
    int32_of_mem (by norm_num; omega) (by norm_num; omega)
  rw [hmul, int32_of_mem (by norm_num; omega) (by norm_num; omega)]
  omega

/-! ### What a selection says -/

/-- Requests for the same block carry the same priority. -/
def SamePriority (q : SlotTable ndiskreqs DiskReq) : Prop :=
  ∀ a ∈ q.contents, ∀ b ∈ q.contents, a.blockno = b.blockno → a.priority = b.priority

/-- An empty selection means an empty queue. -/
theorem pickRequest_eq_none (hh : HeadInImage s) (hq : ∀ r ∈ s.reqQueue.contents, r.Sane)
    (h : pickRequest s = none) : s.reqQueue.contents = [] := by
  refine contents_eq_nil.mpr ?_
  unfold pickRequest at h
  split at h
  · exact firstUsed_eq_none h
  · intro i
    by_contra hi
    obtain ⟨r, hr⟩ := Option.ne_none_iff_exists'.mp hi
    have hle := minBy_eq_none h i r hr
    have hlt := sstfScore_lt hh.1 hh.2 (hq r (mem_contents.mpr ⟨i, hr⟩))
    omega

/-- A selected place is occupied. -/
theorem pickRequest_isSome (h : pickRequest s = some i) : ∃ r, s.reqQueue i = some r := by
  unfold pickRequest at h
  split at h
  · exact Option.isSome_iff_exists.mp (firstUsed_eq_some h).1
  · obtain ⟨r, hr, -⟩ := minBy_eq_some h
    exact ⟨r, hr⟩

/-- **Both policies are stable on a block.** No earlier place holds a request for the block of
the selected one. -/
theorem pickRequest_first {j : Fin ndiskreqs} {b : DiskReq} (hsame : SamePriority s.reqQueue)
    (h : pickRequest s = some i) (hi : s.reqQueue i = some r) (hj : j < i)
    (hb : s.reqQueue j = some b) : b.blockno ≠ r.blockno := by
  intro heq
  unfold pickRequest at h
  split at h
  · rw [(firstUsed_eq_some h).2 j hj] at hb
    cases hb
  · obtain ⟨a, ha, -, -, hfirst⟩ := minBy_eq_some h
    obtain rfl : a = r := by rw [hi] at ha; exact (Option.some.inj ha).symm
    have hprio : b.priority = a.priority :=
      hsame b (mem_contents.mpr ⟨j, hb⟩) a (mem_contents.mpr ⟨i, hi⟩) heq
    have hlt := hfirst j hj b hb
    rw [sstfScore, sstfScore, heq, hprio] at hlt
    exact lt_irrefl _ hlt

/-! ### Draining -/

/-- `s'` is what draining the queue of `s` leaves, and `order` is the order of service. -/
structure Drained (s s' : DiskState) (order : List DiskReq) : Prop where
  /-- Every pending request is served exactly once. -/
  perm : order.Perm s.reqQueue.contents
  /-- Requests for one block are served in the order of their places. -/
  stable : SamePriority s.reqQueue → ∀ k,
    (order.filter fun r => r.blockno = k) = s.reqQueue.contents.filter fun r => r.blockno = k
  empty : s'.reqQueue.contents = []
  trace : s'.trace = s.trace ++ order
  io : (s'.disk, s'.ram) = order.foldl transfer (s.disk, s.ram)
  head : HeadInImage s'
  raidMode : s'.raidMode = s.raidMode
  slotRaidMode : s'.slotRaidMode = s.slotRaidMode
  diskPolicy : s'.diskPolicy = s.diskPolicy
  failedDiskMask : s'.failedDiskMask = s.failedDiskMask

theorem SamePriority.erase {q : SlotTable ndiskreqs DiskReq} (h : SamePriority q)
    (i : Fin ndiskreqs) : SamePriority (q.erase i) := fun a ha b hb =>
  h a (mem_contents_erase ha) b (mem_contents_erase hb)

/-- One iteration in front of a drained rest. -/
theorem Drained.cons {s' : DiskState} (hpick : pickRequest s = some i) (hi : s.reqQueue i = some r)
    (h : Drained (perform r (extract i r s)) s' order) : Drained s s' (r :: order) := by
  have hq : (perform r (extract i r s)).reqQueue = s.reqQueue.erase i := rfl
  obtain ⟨l₁, l₂, hc, he, hbefore⟩ := contents_erase hi
  refine
    { perm := ?_, stable := ?_, empty := h.empty, trace := ?_, io := ?_, head := h.head
      raidMode := h.raidMode, slotRaidMode := h.slotRaidMode, diskPolicy := h.diskPolicy
      failedDiskMask := h.failedDiskMask }
  · have hp := h.perm
    rw [hq] at hp
    exact (hp.cons r).trans (contents_perm_erase hi)
  · intro hsame k
    have hrest := h.stable (hsame.erase i) k
    rw [hq, he] at hrest
    rw [hc]
    by_cases hk : r.blockno = k
    · -- everything in front of `r` is for another block, so `r` heads the filtered list too
      have hl₁ : (l₁.filter fun b => b.blockno = k) = [] := by
        refine List.filter_eq_nil_iff.mpr fun b hb => ?_
        obtain ⟨j, hj, hjb⟩ := hbefore b hb
        have := pickRequest_first hsame hpick hi hj hjb
        simpa [hk] using this
      rw [List.filter_cons_of_pos (by simpa using hk), hrest]
      simp [List.filter_append, hl₁, hk]
    · rw [List.filter_cons_of_neg (by simpa using hk), hrest]
      simp [List.filter_append, hk]
  · rw [h.trace]
    simp [perform, extract]
  · rw [h.io]
    rfl

/-- **Draining.** With more iterations allowed than requests pending, the loop ends because the
queue is empty. -/
theorem drained_runDiskQueueFor {fuel : ℕ} (hh : HeadInImage s)
    (hq : ∀ r ∈ s.reqQueue.contents, r.Sane) (hfuel : s.reqQueue.contents.length < fuel) :
    ∃ order, Drained s (runDiskQueueFor fuel s) order := by
  induction fuel generalizing s with
  | zero => omega
  | succ fuel ih =>
    cases hpick : pickRequest s with
    | none =>
      have hnil := pickRequest_eq_none hh hq hpick
      simp only [runDiskQueueFor, hpick]
      exact ⟨[], by rw [hnil], fun _ k => by rw [hnil], hnil, by simp, rfl, hh, rfl, rfl, rfl, rfl⟩
    | some i =>
      obtain ⟨r, hr⟩ := pickRequest_isSome hpick
      have hrS : r.Sane := hq r (mem_contents.mpr ⟨i, hr⟩)
      simp only [runDiskQueueFor, hpick, hr]
      have hlen := length_contents_erase hr
      obtain ⟨order, hd⟩ := ih (s := perform r (extract i r s))
        ⟨Int.natCast_nonneg _, Int.ofNat_lt.mpr hrS.block⟩
        (fun b hb => hq b (mem_contents_erase hb))
        (by change (s.reqQueue.erase i).contents.length < fuel; omega)
      exact ⟨r :: order, hd.cons hpick hr⟩

/-- A run of `run_disk_queue` drains the queue. -/
theorem drained_runDiskQueue (hh : HeadInImage s) (hq : ∀ r ∈ s.reqQueue.contents, r.Sane) :
    ∃ order, Drained s (runDiskQueue s) order :=
  drained_runDiskQueueFor hh hq (Nat.lt_succ_of_le (length_contents_le _))

/-! ### Batches of one kind

`disk_swap_write` enqueues only writes and `disk_swap_read` only reads. -/

/-- The point writes a list of write requests makes on the disk, with the data they find. -/
def blockWrites (ram : Ptr → Block) (l : List DiskReq) : List (ℕ × Block) :=
  l.map fun r => (r.blockno, ram r.data)

/-- The point writes a list of read requests makes in memory. -/
def bufferWrites (disk : ℕ → Block) (l : List DiskReq) : List (Ptr × Block) :=
  l.map fun r => (r.data, disk r.blockno)

theorem foldl_transfer_writes (h : ∀ r ∈ l, r.write = true) (disk : ℕ → Block) (ram : Ptr → Block) :
    l.foldl transfer (disk, ram) = (WriteLog.applyWrites (blockWrites ram l) disk, ram) := by
  induction l generalizing disk with
  | nil => rfl
  | cons r l ih =>
    have hr : r.write = true := h r List.mem_cons_self
    rw [List.foldl_cons, show transfer (disk, ram) r
        = (Function.update disk r.blockno (ram r.data), ram) by simp [transfer, hr],
      ih fun b hb => h b (List.mem_cons_of_mem _ hb)]
    rfl

theorem foldl_transfer_reads (h : ∀ r ∈ l, r.write = false) (disk : ℕ → Block) (ram : Ptr → Block) :
    l.foldl transfer (disk, ram) = (disk, WriteLog.applyWrites (bufferWrites disk l) ram) := by
  induction l generalizing ram with
  | nil => rfl
  | cons r l ih =>
    have hr : r.write = false := h r List.mem_cons_self
    rw [List.foldl_cons, show transfer (disk, ram) r
        = (disk, Function.update ram r.data (disk r.blockno)) by simp [transfer, hr],
      ih fun b hb => h b (List.mem_cons_of_mem _ hb)]
    rfl

/-- **A batch of writes.** The image ends up as if the writes had been executed in the order of
their places, under either policy and from every head position. -/
theorem Drained.disk_of_writes {s' : DiskState} (h : Drained s s' order)
    (hw : ∀ r ∈ s.reqQueue.contents, r.write = true) (hsame : SamePriority s.reqQueue) :
    s'.disk = WriteLog.applyWrites (blockWrites s.ram s.reqQueue.contents) s.disk ∧
      s'.ram = s.ram := by
  have hio := h.io
  rw [foldl_transfer_writes (fun r hr => hw r (h.perm.mem_iff.mp hr)), Prod.mk.injEq] at hio
  refine ⟨hio.1.trans (WriteLog.applyWrites_eq_of_filter_eq (fun k => ?_) _), hio.2⟩
  have hst := h.stable hsame k
  simp only [blockWrites, List.filter_map]
  exact congrArg _ hst

/-- **A batch of reads** into pairwise different buffers. -/
theorem Drained.ram_of_reads {s' : DiskState} (h : Drained s s' order)
    (hr : ∀ r ∈ s.reqQueue.contents, r.write = false)
    (hn : (s.reqQueue.contents.map DiskReq.data).Nodup) :
    s'.ram = WriteLog.applyWrites (bufferWrites s.disk s.reqQueue.contents) s.ram ∧
      s'.disk = s.disk := by
  have hio := h.io
  rw [foldl_transfer_reads (fun r hr' => hr r (h.perm.mem_iff.mp hr')), Prod.mk.injEq] at hio
  refine ⟨hio.2.trans (WriteLog.applyWrites_eq_of_perm (h.perm.map _) ?_ _), hio.1⟩
  have hmap : (bufferWrites s.disk order).map Prod.fst = order.map DiskReq.data := by
    simp [bufferWrites, Function.comp_def]
  change ((bufferWrites s.disk order).map Prod.fst).Nodup
  rw [hmap]
  exact ((h.perm.map DiskReq.data).nodup_iff).mpr hn

end Disk

end Xv6
