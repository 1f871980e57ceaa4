import Xv6.Disk.Raid

/-!
# Reading and writing a swap slot

`disk_swap_write` and `disk_swap_read` of `kernel/virtio_disk.c`, executed one call at a time, and
the calls that configure the array.

A call enqueues the requests of its layout and then drains the queue. From a *quiet* state
(nothing pending, head inside the image) the queue holds exactly the call's requests, all of one
kind and one priority, so the draining theorems of `Queue` apply whatever the policy and the head
position are. What is left of a call is then a list of point writes: `WriteSpec` for a write,
`ReadSpec` for a read.
-/

namespace Xv6

namespace Disk

open SlotTable

variable {cs : List WriteCall} {l : List DiskReq} {mode slot x : ℕ} {ops : List RaidOp}
  {priority : ℤ} {s : DiskState} {write : Bool}

/-! ### The calls -/

/-- The `switch` of `disk_swap_write`. -/
def writePageOps (mode : ℤ) (slot page : ℕ) (priority : ℤ) : List RaidOp :=
  if mode = 0 then raid0WritePage slot page priority
  else if mode = 1 then raid1WritePage slot page priority
  else if mode = 2 then raid5WritePage slot page priority
  else raid0WritePage slot page priority

/-- The `switch` of `disk_swap_read`. -/
def readPageOps (mode : ℤ) (slot page : ℕ) (priority : ℤ) : List RaidOp :=
  if mode = 0 then raid0ReadPage slot page priority
  else if mode = 1 then raid1ReadPage slot page priority
  else if mode = 2 then raid5ReadPage slot page priority
  else raid0ReadPage slot page priority

/-- `disk_swap_write` -/
def diskSwapWrite (slot page : ℕ) (priority : ℤ) (s : DiskState) : DiskState :=
  let mode := s.raidMode
  let s₁ := if slot < 4096 then
    { s with slotRaidMode := Function.update s.slotRaidMode slot mode } else s
  runDiskQueue (execOps (writePageOps mode slot page priority) s₁)

/-- `disk_swap_read` -/
def diskSwapRead (slot page : ℕ) (priority : ℤ) (s : DiskState) : DiskState :=
  let mode := if slot < 4096 then s.slotRaidMode slot else 0
  runDiskQueue (execOps (readPageOps mode slot page priority) s)

/-- `set_raid_mode` -/
def setRaidMode (mode : ℤ) (s : DiskState) : DiskState := { s with raidMode := mode }

/-- `setdisksched`: `-1` and no change for an unknown policy. -/
def setdisksched (policy : ℤ) (s : DiskState) : ℤ × DiskState :=
  if policy = 0 then (0, { s with diskPolicy := .fcfs })
  else if policy = 1 then (0, { s with diskPolicy := .sstf })
  else (-1, s)

theorem setdisksched_eq (policy : ℤ) (s : DiskState) :
    ∃ pol, (setdisksched policy s).2 = { s with diskPolicy := pol } := by
  unfold setdisksched
  split
  · exact ⟨_, rfl⟩
  · split
    · exact ⟨_, rfl⟩
    · exact ⟨s.diskPolicy, rfl⟩

@[simp] theorem setdisksched_reqQueue (policy : ℤ) (s : DiskState) :
    (setdisksched policy s).2.reqQueue = s.reqQueue := by
  obtain ⟨pol, hpol⟩ := setdisksched_eq policy s
  rw [hpol]

/-- `set_failed_disk`: records the disk in a mask that no other function reads. -/
def setFailedDisk (disk : ℤ) (s : DiskState) : ℤ × DiskState :=
  if disk < 0 ∨ disk ≥ ndisks then (-1, s)
  else (0, { s with failedDiskMask := s.failedDiskMask ||| (1 <<< disk.toNat) })

theorem setFailedDisk_eq (disk : ℤ) (s : DiskState) :
    ∃ mask, (setFailedDisk disk s).2 = { s with failedDiskMask := mask } := by
  unfold setFailedDisk
  split
  · exact ⟨s.failedDiskMask, rfl⟩
  · exact ⟨_, rfl⟩

/-- The driver after `virtio_disk_init`, over a given image and memory, in a given RAID mode. -/
def initState (mode : ℤ) (disk : ℕ → Block) (ram : Ptr → Block) : DiskState where
  disk := disk
  ram := ram
  reqQueue := fun _ => none
  diskPolicy := .fcfs
  diskHeadPos := 0
  statReads := 0
  statWrites := 0
  statLatencySum := 0
  statReqCount := 0
  raidMode := mode
  slotRaidMode := fun _ => 0
  failedDiskMask := 0
  myproc := none
  trace := []

/-- Memory in which the page at address `0` has a last block of ones, and all else is zero. -/
def onesLast : Ptr → Block
  | .page 0 3 => fun _ => 1
  | _ => fun _ => 0

/-! ### Enqueueing from a quiet state -/

/-- Nothing is pending and the head is inside the image. -/
structure Quiet (s : DiskState) : Prop where
  empty : s.reqQueue.contents = []
  head : HeadInImage s

theorem quiet_initState (mode : ℤ) (disk : ℕ → Block) (ram : Ptr → Block) :
    Quiet (initState mode disk ram) :=
  ⟨contents_eq_nil.mpr fun _ => rfl, by norm_num [HeadInImage, initState]⟩

theorem Quiet.reqQueue_eq (h : Quiet s) : s.reqQueue = ofList [] := by
  funext i
  rw [contents_eq_nil.mp h.empty i]
  simp [ofList]

/-- What no critical section changes, a whole transfer does not change before the draining. -/
theorem execOps_field {β : Type*} (f : DiskState → β) (hf : ∀ (op : RaidOp) s, f (op.exec s) = f s)
    (ops : List RaidOp) (s : DiskState) : f (execOps ops s) = f s := by
  induction ops generalizing s with
  | nil => rfl
  | cons op ops ih => exact (ih (op.exec s)).trans (hf op s)

section

variable (ops : List RaidOp) (s : DiskState)

@[simp] theorem execOps_disk : (execOps ops s).disk = s.disk :=
  execOps_field DiskState.disk (fun op _ => by cases op <;> rfl) ops s

@[simp] theorem execOps_raidMode : (execOps ops s).raidMode = s.raidMode :=
  execOps_field DiskState.raidMode (fun op _ => by cases op <;> rfl) ops s

@[simp] theorem execOps_slotRaidMode : (execOps ops s).slotRaidMode = s.slotRaidMode :=
  execOps_field DiskState.slotRaidMode (fun op _ => by cases op <;> rfl) ops s

@[simp] theorem execOps_diskPolicy : (execOps ops s).diskPolicy = s.diskPolicy :=
  execOps_field DiskState.diskPolicy (fun op _ => by cases op <;> rfl) ops s

@[simp] theorem execOps_diskHeadPos : (execOps ops s).diskHeadPos = s.diskHeadPos :=
  execOps_field DiskState.diskHeadPos (fun op _ => by cases op <;> rfl) ops s

@[simp] theorem execOps_trace : (execOps ops s).trace = s.trace :=
  execOps_field DiskState.trace (fun op _ => by cases op <;> rfl) ops s

@[simp] theorem execOps_ram_page (pa b : ℕ) :
    (execOps ops s).ram (.page pa b) = s.ram (.page pa b) :=
  execOps_field (fun s => s.ram (.page pa b))
    (fun op _ => by cases op <;> simp [RaidOp.exec]) ops s

/-- Recording the mode of a slot and enqueueing commute. -/
theorem execOps_slotRaidMode_comm (f : ℕ → ℤ) :
    (execOps ops { s with slotRaidMode := f }).ram = (execOps ops s).ram := by
  induction ops generalizing s with
  | nil => rfl
  | cons op ops ih =>
    refine Eq.trans ?_ (ih (op.exec s))
    cases op <;> rfl

end

theorem execOps_reqQueue (hq : s.reqQueue = ofList l)
    (hlen : l.length + (reqs ops).length ≤ ndiskreqs) :
    (execOps ops s).reqQueue = ofList (l ++ reqs ops) := by
  induction ops generalizing s l with
  | nil => simpa [execOps, reqs] using hq
  | cons op ops ih =>
    change (execOps ops (op.exec s)).reqQueue = _
    cases op with
    | clearParity => exact ih hq hlen
    | xorParity src => exact ih hq hlen
    | enqueue blockno write data priority =>
      have hcons : reqs (.enqueue blockno write data priority :: ops)
          = ⟨blockno, write, priority, data⟩ :: reqs ops := rfl
      rw [hcons, List.length_cons] at hlen
      have hins : (RaidOp.exec (.enqueue blockno write data priority) s).reqQueue
          = ofList (l ++ [⟨blockno, write, priority, data⟩]) := by
        simp only [RaidOp.exec, enqueueDiskReq, hq]
        exact insertFirst_ofList (by omega) _
      rw [ih hins (by simp only [List.length_append, List.length_singleton]; omega), hcons,
        List.append_assoc]
      rfl

/-- The parity computation of RAID 5 ends with the last block of the page in `parity_buf`: the
second row holds that block alone. -/
theorem execOps_raid5_parity (slot page : ℕ) (priority : ℤ) (s : DiskState) :
    (execOps (raid5WritePage slot page priority) s).ram .parityBuf = s.ram (.page page 3) := by
  have hrow : raid5WritePage slot page priority
      = raid5WriteRow slot page priority 0 ++ raid5WriteRow slot page priority 3 := by
    simp [raid5WritePage, rowStarts_eq]
  rw [hrow, execOps_append]
  funext j
  simp [execOps, raid5WriteRow, raid5WriteBlock, List.range_succ, RaidOp.exec]

/-! ### Specifications of one call -/

/-- The region a mode uses; an unknown mode falls back to RAID 0. -/
def modeUsed (mode : ℤ) : ℕ := if mode = 1 then 1 else if mode = 2 then 2 else 0

theorem modeUsed_le (mode : ℤ) : modeUsed mode ≤ 2 := by
  simp only [modeUsed]
  split
  · omega
  · split <;> omega

/-- The three cases of the `switch`es. -/
theorem mode_cases (mode : ℤ) (slot page : ℕ) (priority : ℤ) :
    (mode = 1 ∧ modeUsed mode = 1 ∧
      writePageOps mode slot page priority = raid1WritePage slot page priority ∧
      readPageOps mode slot page priority = raid1ReadPage slot page priority) ∨
    (mode = 2 ∧ modeUsed mode = 2 ∧
      writePageOps mode slot page priority = raid5WritePage slot page priority ∧
      readPageOps mode slot page priority = raid5ReadPage slot page priority) ∨
    (modeUsed mode = 0 ∧
      writePageOps mode slot page priority = raid0WritePage slot page priority ∧
      readPageOps mode slot page priority = raid0ReadPage slot page priority) := by
  by_cases h1 : mode = 1
  · subst h1; exact Or.inl ⟨rfl, rfl, rfl, rfl⟩
  · by_cases h2 : mode = 2
    · subst h2; exact Or.inr (Or.inl ⟨rfl, rfl, rfl, rfl⟩)
    · refine Or.inr (Or.inr ⟨by simp [modeUsed, h1, h2], ?_, ?_⟩)
      · by_cases h0 : mode = 0 <;> simp [writePageOps, h0, h1, h2]
      · by_cases h0 : mode = 0 <;> simp [readPageOps, h0, h1, h2]

theorem pageBatch_writePageOps (mode : ℤ) (page : ℕ) (priority : ℤ) (hs : slot < nswapspace) :
    PageBatch (modeUsed mode) true priority (reqs (writePageOps mode slot page priority)) := by
  rcases mode_cases mode slot page priority with ⟨-, hm, hw, -⟩ | ⟨-, hm, hw, -⟩ | ⟨hm, hw, -⟩
  · rw [hm, hw]; exact pageBatch_raid1WritePage hs
  · rw [hm, hw]; exact pageBatch_raid5WritePage hs
  · rw [hm, hw]; exact pageBatch_striped hs

theorem pageBatch_readPageOps (mode : ℤ) (page : ℕ) (priority : ℤ) (hs : slot < nswapspace) :
    PageBatch (modeUsed mode) false priority (reqs (readPageOps mode slot page priority)) := by
  rcases mode_cases mode slot page priority with ⟨-, hm, -, hr⟩ | ⟨-, hm, -, hr⟩ | ⟨hm, -, hr⟩
  · rw [hm, hr]; exact pageBatch_striped hs
  · rw [hm, hr]; exact pageBatch_raid5ReadPage hs
  · rw [hm, hr]; exact pageBatch_striped hs

/-- A priority is an MLFQ level. -/
def IsLevel (priority : ℤ) : Prop := 0 ≤ priority ∧ priority ≤ 3

theorem PageBatch.sane (h : PageBatch mode write priority l) (hm : mode ≤ 2)
    (hp : IsLevel priority) : ∀ r ∈ l, r.Sane := fun r hr =>
  ⟨(h.region r hr).lt_fssize hm, by rw [h.priority r hr]; exact hp.1,
    by rw [h.priority r hr]; exact hp.2⟩

/-- **Draining a page batch.** The queue filled from a quiet state by one page transfer. -/
theorem PageBatch.drained (h : PageBatch mode write priority (reqs ops)) (hm : mode ≤ 2)
    (hp : IsLevel priority) (hs : Quiet s) :
    (execOps ops s).reqQueue.contents = reqs ops ∧ SamePriority (execOps ops s).reqQueue ∧
      ∃ order, Drained (execOps ops s) (runDiskQueue (execOps ops s)) order := by
  have hlen : (reqs ops).length ≤ ndiskreqs := le_trans h.length (by decide)
  have hq : (execOps ops s).reqQueue.contents = reqs ops := by
    rw [execOps_reqQueue hs.reqQueue_eq (by simpa using hlen)]
    exact contents_ofList hlen
  have hhead : HeadInImage (execOps ops s) := by
    simpa [HeadInImage] using hs.head
  refine ⟨hq, ?_, drained_runDiskQueue hhead ?_⟩
  · intro a ha b hb _
    rw [hq] at ha hb
    rw [h.priority a ha, h.priority b hb]
  · rw [hq]
    exact h.sane hm hp

/-- What `disk_swap_write` does: the requests of the layout, executed as point writes. -/
structure WriteSpec (slot page : ℕ) (priority : ℤ) (s s' : DiskState) : Prop where
  quiet : Quiet s'
  disk : s'.disk = WriteLog.applyWrites
    (blockWrites (execOps (writePageOps s.raidMode slot page priority) s).ram
      (reqs (writePageOps s.raidMode slot page priority))) s.disk
  ram_page : ∀ pa b, s'.ram (.page pa b) = s.ram (.page pa b)
  raidMode : s'.raidMode = s.raidMode
  slotRaidMode : s'.slotRaidMode = Function.update s.slotRaidMode slot s.raidMode
  diskPolicy : s'.diskPolicy = s.diskPolicy
  trace : ∃ order, s'.trace = s.trace ++ order ∧
    order.Perm (reqs (writePageOps s.raidMode slot page priority))

theorem diskSwapWrite_spec (page : ℕ) (hslot : slot < nswapspace) (hp : IsLevel priority)
    (hs : Quiet s) : WriteSpec slot page priority s (diskSwapWrite slot page priority s) := by
  have hlt : slot < 4096 := by simpa using hslot
  have hrun : diskSwapWrite slot page priority s
      = runDiskQueue (execOps (writePageOps s.raidMode slot page priority)
          { s with slotRaidMode := Function.update s.slotRaidMode slot s.raidMode }) := by
    simp only [diskSwapWrite, if_pos hlt]
  have hb := pageBatch_writePageOps s.raidMode page priority hslot
  obtain ⟨hc, hsame, order, hd⟩ := hb.drained (modeUsed_le _) hp
    (s := { s with slotRaidMode := Function.update s.slotRaidMode slot s.raidMode })
    ⟨hs.empty, hs.head⟩
  have hw := hd.disk_of_writes (by rw [hc]; exact hb.write) hsame
  rw [hc, execOps_slotRaidMode_comm, execOps_disk] at hw
  rw [hrun]
  refine ⟨⟨hd.empty, hd.head⟩, hw.1, fun pa b => ?_, ?_, ?_, ?_, order, ?_, ?_⟩
  · rw [hw.2, execOps_ram_page]
  · rw [hd.raidMode, execOps_raidMode]
  · rw [hd.slotRaidMode, execOps_slotRaidMode]
  · rw [hd.diskPolicy, execOps_diskPolicy]
  · rw [hd.trace, execOps_trace]
  · rw [← hc]
    exact hd.perm

/-- What `disk_swap_read` does: each request fills its own block of the buffer. -/
structure ReadSpec (slot page : ℕ) (priority : ℤ) (s s' : DiskState) : Prop where
  quiet : Quiet s'
  disk : s'.disk = s.disk
  ram : s'.ram = WriteLog.applyWrites
    (bufferWrites s.disk (reqs (readPageOps (s.slotRaidMode slot) slot page priority))) s.ram
  raidMode : s'.raidMode = s.raidMode
  slotRaidMode : s'.slotRaidMode = s.slotRaidMode
  diskPolicy : s'.diskPolicy = s.diskPolicy
  trace : ∃ order, s'.trace = s.trace ++ order ∧
    order.Perm (reqs (readPageOps (s.slotRaidMode slot) slot page priority))

/-- The real block from which block `b` of a slot is read back. -/
def homeBlock (mode slot b : ℕ) : ℕ :=
  if mode = 2 then raidRealBlock 2 (if b < 3 then raid5DataDisk (slot % 3) b else 0) (slot / 3)
  else raidRealBlock mode b slot

/-- Every layout reads the four blocks of the page into the four blocks of the buffer. -/
theorem reqs_readPageOps (mode : ℤ) (slot page : ℕ) (priority : ℤ) :
    reqs (readPageOps mode slot page priority) = (List.range 4).map fun b =>
      ⟨homeBlock (modeUsed mode) slot b, false, priority, .page page b⟩ := by
  rcases mode_cases mode slot page priority with ⟨-, hm, -, hr⟩ | ⟨-, hm, -, hr⟩ | ⟨hm, -, hr⟩
  · rw [hr, hm]; exact reqs_stripedPage 1 false slot page priority
  · rw [hr, hm, reqs_raid5ReadPage]; rfl
  · rw [hr, hm]; exact reqs_stripedPage 0 false slot page priority

theorem nodup_data_readPageOps (mode : ℤ) (slot page : ℕ) (priority : ℤ) :
    ((reqs (readPageOps mode slot page priority)).map DiskReq.data).Nodup := by
  rw [reqs_readPageOps, List.map_map]
  exact List.nodup_range.map fun a b h => by simpa using h

theorem execOps_ram_of_reads (mode : ℤ) (slot page : ℕ) (priority : ℤ) (s : DiskState) :
    (execOps (readPageOps mode slot page priority) s).ram = s.ram := by
  rcases mode_cases mode slot page priority with ⟨-, -, -, hr⟩ | ⟨-, -, -, hr⟩ | ⟨-, -, hr⟩
  · rw [hr]
    simp [execOps, raid1ReadPage, stripedPage, List.range_succ, RaidOp.exec, enqueueDiskReq]
  · rw [hr]
    simp [execOps, raid5ReadPage, rowStarts_eq, raid5ReadRow, raid5ReadBlock, List.range_succ,
      RaidOp.exec, enqueueDiskReq]
  · rw [hr]
    simp [execOps, raid0ReadPage, stripedPage, List.range_succ, RaidOp.exec, enqueueDiskReq]

theorem diskSwapRead_spec (page : ℕ) (hslot : slot < nswapspace) (hp : IsLevel priority)
    (hs : Quiet s) : ReadSpec slot page priority s (diskSwapRead slot page priority s) := by
  have hlt : slot < 4096 := by simpa using hslot
  have hrun : diskSwapRead slot page priority s
      = runDiskQueue (execOps (readPageOps (s.slotRaidMode slot) slot page priority) s) := by
    simp only [diskSwapRead, if_pos hlt]
  have hb := pageBatch_readPageOps (s.slotRaidMode slot) page priority hslot
  obtain ⟨hc, -, order, hd⟩ := hb.drained (modeUsed_le _) hp hs
  have hr := hd.ram_of_reads (by rw [hc]; exact hb.write)
    (by rw [hc]; exact nodup_data_readPageOps _ _ _ _)
  rw [hc, execOps_ram_of_reads, execOps_disk] at hr
  rw [hrun]
  refine ⟨⟨hd.empty, hd.head⟩, hr.2, hr.1, ?_, ?_, ?_, order, ?_, ?_⟩
  · rw [hd.raidMode, execOps_raidMode]
  · rw [hd.slotRaidMode, execOps_slotRaidMode]
  · rw [hd.diskPolicy, execOps_diskPolicy]
  · rw [hd.trace, execOps_trace]
  · rw [← hc]
    exact hd.perm

/-- **What a read returns.** Block `b` of the buffer holds the contents of its home block. -/
theorem ReadSpec.buffer {page : ℕ} {s' : DiskState} (h : ReadSpec slot page priority s s') {b : ℕ}
    (hb : b < 4) :
    s'.ram (.page page b) = s.disk (homeBlock (modeUsed (s.slotRaidMode slot)) slot b) := by
  rw [h.ram]
  refine WriteLog.applyWrites_apply_of_mem ?_ ?_ _
  · have hn := nodup_data_readPageOps (s.slotRaidMode slot) slot page priority
    simpa [bufferWrites, Function.comp_def] using hn
  · simp only [bufferWrites, reqs_readPageOps, List.map_map]
    exact List.mem_map.mpr ⟨b, List.mem_range.mpr hb, rfl⟩

/-- Different slots have different home blocks under RAID 0 and 1. -/
theorem homeBlock_inj {mode' slot' b b' : ℕ} (hm : mode ≠ 2) (hm' : mode' ≠ 2)
    (hs : slot < nswapspace) (hs' : slot' < nswapspace) (hb : b < 4) (hb' : b' < 4) :
    homeBlock mode slot b = homeBlock mode' slot' b' ↔ mode = mode' ∧ b = b' ∧ slot = slot' := by
  simp only [homeBlock, if_neg hm, if_neg hm']
  exact raidRealBlock_inj (by simpa using hb) (by simpa using hb') (by simpa using hs)
    (by simpa using hs')

theorem inRegion_homeBlock {b : ℕ} (hs : slot < nswapspace) (hb : b < 4) :
    InRegion mode (homeBlock mode slot b) := by
  simp only [nswapspace_eq] at hs
  unfold homeBlock
  split
  · rename_i hm
    subst hm
    refine inRegion_raidRealBlock ?_ (by simp only [blocksPerDisk_eq]; omega)
    split
    · exact raid5DataDisk_lt (by simpa using ‹b < 3›)
    · decide
  · exact inRegion_raidRealBlock (by simpa using hb) (by simpa using hs)

/-- The regions of two modes are disjoint. -/
theorem InRegion.mode_eq {mode' blockno : ℕ} (h : InRegion mode blockno)
    (h' : InRegion mode' blockno) : mode = mode' := by
  simp only [InRegion, swapStart_eq, nswapblocksPerMode_eq] at h h'
  omega

/-- A block outside the requests of a write keeps its contents. -/
theorem WriteSpec.disk_of_notMem {page : ℕ} {s' : DiskState} (h : WriteSpec slot page priority s s')
    (hx : ∀ r ∈ reqs (writePageOps s.raidMode slot page priority), r.blockno ≠ x) :
    s'.disk x = s.disk x := by
  rw [h.disk]
  refine WriteLog.applyWrites_apply_of_notMem (fun w hw => ?_) _
  obtain ⟨r, hr, rfl⟩ := List.mem_map.mp hw
  exact hx r hr

/-! ### Sequences of writes -/

/-- The real blocks that a page transfer touches. -/
def touchedBlocks (ops : List RaidOp) : List ℕ := (reqs ops).map DiskReq.blockno

/-- A `disk_swap_write` call: slot, page buffer and priority. -/
structure WriteCall where
  slot : ℕ
  page : ℕ
  priority : ℤ

/-- The slot exists and the priority is a level. -/
def WriteCall.Ok (c : WriteCall) : Prop := c.slot < nswapspace ∧ IsLevel c.priority

/-- Write calls executed one after the other. -/
def runWrites (cs : List WriteCall) (s : DiskState) : DiskState :=
  cs.foldl (fun s c => diskSwapWrite c.slot c.page c.priority s) s

/-- What every sequence of write calls keeps. -/
theorem runWrites_keeps (hcs : ∀ c ∈ cs, c.Ok) (hs : Quiet s) :
    Quiet (runWrites cs s) ∧ (runWrites cs s).raidMode = s.raidMode ∧
      (∀ pa b, (runWrites cs s).ram (.page pa b) = s.ram (.page pa b)) ∧
      ∀ t, (∀ c ∈ cs, c.slot ≠ t) → (runWrites cs s).slotRaidMode t = s.slotRaidMode t := by
  induction cs generalizing s with
  | nil => exact ⟨hs, rfl, fun _ _ => rfl, fun _ _ => rfl⟩
  | cons c cs ih =>
    have hc : c.Ok := hcs c List.mem_cons_self
    have hw := diskSwapWrite_spec c.page hc.1 hc.2 hs
    obtain ⟨hq, hm, hr, ht⟩ := ih (fun c hc => hcs c (List.mem_cons_of_mem _ hc)) hw.quiet
    refine ⟨hq, hm.trans hw.raidMode, fun pa b => (hr pa b).trans (hw.ram_page pa b),
      fun t hne => ?_⟩
    refine (ht t fun c hc => hne c (List.mem_cons_of_mem _ hc)).trans ?_
    rw [hw.slotRaidMode, Function.update_of_ne (hne c List.mem_cons_self).symm]

/-- A block that no call of a sequence touches keeps its contents. -/
theorem runWrites_disk_of_notMem (hcs : ∀ c ∈ cs, c.Ok) (hs : Quiet s)
    (hx : ∀ c ∈ cs, x ∉ touchedBlocks (writePageOps s.raidMode c.slot c.page c.priority)) :
    (runWrites cs s).disk x = s.disk x := by
  induction cs generalizing s with
  | nil => rfl
  | cons c cs ih =>
    have hc : c.Ok := hcs c List.mem_cons_self
    have hw := diskSwapWrite_spec c.page hc.1 hc.2 hs
    refine (ih (fun c hc => hcs c (List.mem_cons_of_mem _ hc)) hw.quiet fun c' hc' => ?_).trans
      (hw.disk_of_notMem fun r hr he => ?_)
    · rw [hw.raidMode]
      exact hx c' (List.mem_cons_of_mem _ hc')
    · exact hx c List.mem_cons_self (List.mem_map.mpr ⟨r, hr, he⟩)

end Disk

end Xv6
