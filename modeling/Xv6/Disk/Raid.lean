import Xv6.Disk.Queue

/-!
# RAID layouts

`kernel/virtio_disk.c`: where the blocks of a swap page go under RAID 0, 1 and 5, and the
requests that writing or reading a page enqueues.

A `raidN_write_page` or `raidN_read_page` is a list of `RaidOp`s: each is one critical section of
`sched_lock`, either an enqueue or a step of the parity computation in the global `parity_buf`.
Executed back to back by one caller (`execOps`) they are the sequential function; the same lists
are what several callers interleave.

## Where the blocks of a slot land

Four blocks make a page and three data blocks a RAID 5 row, so slot `s` starts in row `4 * s / 3`
and always reaches into the next one. The offset on every disk is the row *divided by* `NDISKS`,
so four consecutive rows share it. Both rows of a slot have the offset `s / 3`
(`raid5_row_div`), their parity disks are `s % 3` and `s % 3 + 1` (`raid5_row_mod`), and the six
blocks of the two rows are laid on the same four real blocks (`reqs_raid5WritePage`).

RAID 1 puts block `b` on disk `b` and its mirror on disk `b + 1`, at the same offset; the mirror
of one block is the primary of the next (`reqs_raid1WritePage`).
-/

namespace Xv6

namespace Disk

variable {mode page slot : ℕ} {priority : ℤ} {write : Bool}

/-! ### Geometry -/

/-- `BLOCKS_PER_PAGE`. -/
def blocksPerPage : ℕ := pgsize / bsize

/-- `BLOCKS_PER_DISK`. -/
def blocksPerDisk : ℕ := nswapblocksPerMode / ndisks

/-- `DATA_PER_ROW`: data blocks in a RAID 5 stripe row. -/
def dataPerRow : ℕ := ndisks - 1

@[simp] theorem blocksPerPage_eq : blocksPerPage = 4 := rfl
@[simp] theorem blocksPerDisk_eq : blocksPerDisk = 4096 := rfl
@[simp] theorem dataPerRow_eq : dataPerRow = 3 := rfl

/-- `raid_real_block`. -/
def raidRealBlock (mode diskId physOffset : ℕ) : ℕ :=
  let regionBase := swapStart + mode * nswapblocksPerMode
  regionBase + diskId * blocksPerDisk + physOffset

theorem raidRealBlock_eq (mode diskId physOffset : ℕ) :
    raidRealBlock mode diskId physOffset
      = 20000 + mode * 16384 + diskId * 4096 + physOffset := rfl

/-- Different positions of the array are different real blocks. -/
theorem raidRealBlock_inj {mode' d d' p p' : ℕ} (hd : d < ndisks) (hd' : d' < ndisks)
    (hp : p < blocksPerDisk) (hp' : p' < blocksPerDisk) :
    raidRealBlock mode d p = raidRealBlock mode' d' p' ↔ mode = mode' ∧ d = d' ∧ p = p' := by
  simp only [ndisks_eq, blocksPerDisk_eq] at hd hd' hp hp'
  simp only [raidRealBlock_eq]
  omega

/-- The disks of one stripe position are different real blocks. -/
@[simp] theorem raidRealBlock_disk_inj {d d' p : ℕ} :
    raidRealBlock mode d p = raidRealBlock mode d' p ↔ d = d' := by
  simp only [raidRealBlock_eq]
  omega

/-- The real blocks of a mode's region. -/
def InRegion (mode blockno : ℕ) : Prop :=
  swapStart + mode * nswapblocksPerMode ≤ blockno ∧
    blockno < swapStart + (mode + 1) * nswapblocksPerMode

theorem inRegion_raidRealBlock {d p : ℕ} (hd : d < ndisks) (hp : p < blocksPerDisk) :
    InRegion mode (raidRealBlock mode d p) := by
  simp only [ndisks_eq, blocksPerDisk_eq] at hd hp
  simp only [InRegion, raidRealBlock_eq, swapStart_eq, nswapblocksPerMode_eq]
  omega

/-- The three regions are inside the image. -/
theorem InRegion.lt_fssize {blockno : ℕ} (hm : mode ≤ 2) (h : InRegion mode blockno) :
    blockno < fssize := by
  have hle : (mode + 1) * nswapblocksPerMode ≤ 3 * nswapblocksPerMode :=
    Nat.mul_le_mul_right _ (by omega)
  have hlt := h.2
  simp only [swapStart_eq, nswapblocksPerMode_eq, fssize_eq] at *
  omega

/-! ### Critical sections -/

/-- One critical section of a page read or write. -/
inductive RaidOp where
  /-- `memset(parity_buf, 0, BSIZE)` -/
  | clearParity
  /-- `parity_buf[j] ^= blk_data[j]` for every `j` -/
  | xorParity (src : Ptr)
  /-- `enqueue_disk_req` -/
  | enqueue (blockno : ℕ) (write : Bool) (data : Ptr) (priority : ℤ)
  deriving DecidableEq, Repr

/-- Store into `parity_buf`. -/
def setParityBuf (v : Block) (s : DiskState) : DiskState :=
  { s with ram := Function.update s.ram .parityBuf v }

@[simp] theorem setParityBuf_ram_parityBuf (v : Block) (s : DiskState) :
    (setParityBuf v s).ram .parityBuf = v := by simp [setParityBuf]

@[simp] theorem setParityBuf_ram_page (v : Block) (s : DiskState) (pa b : ℕ) :
    (setParityBuf v s).ram (.page pa b) = s.ram (.page pa b) := by simp [setParityBuf]

/-- Execute one critical section. -/
def RaidOp.exec : RaidOp → DiskState → DiskState
  | .clearParity, s => setParityBuf (fun _ => 0) s
  | .xorParity src, s => setParityBuf (fun j => s.ram .parityBuf j ^^^ s.ram src j) s
  | .enqueue blockno write data priority, s => enqueueDiskReq blockno write data priority s

/-- Execute critical sections one after the other, with nobody in between. -/
def execOps (ops : List RaidOp) (s : DiskState) : DiskState := ops.foldl (fun s op => op.exec s) s

/-- The requests a list of critical sections enqueues, in order. -/
def reqs (ops : List RaidOp) : List DiskReq :=
  ops.filterMap fun
    | .enqueue blockno write data priority => some ⟨blockno, write, priority, data⟩
    | _ => none

@[simp] theorem enqueueDiskReq_ram (blockno : ℕ) (write : Bool) (data : Ptr) (priority : ℤ)
    (s : DiskState) : (enqueueDiskReq blockno write data priority s).ram = s.ram := rfl

theorem execOps_append (ops ops' : List RaidOp) (s : DiskState) :
    execOps (ops ++ ops') s = execOps ops' (execOps ops s) := List.foldl_append

/-! ### RAID 0 and the reads of RAID 1 -/

/-- Block `b` of the page at logical block `slot * BLOCKS_PER_PAGE + b`, striped over the disks. -/
def stripedPage (mode : ℕ) (write : Bool) (slot page : ℕ) (priority : ℤ) : List RaidOp :=
  let base := slot * blocksPerPage
  (List.range blocksPerPage).map fun b =>
    let logical := base + b
    let diskId := logical % ndisks
    let phys := logical / ndisks
    .enqueue (raidRealBlock mode diskId phys) write (.page page b) priority

/-- `raid0_write_page` -/
def raid0WritePage (slot page : ℕ) (priority : ℤ) : List RaidOp :=
  stripedPage 0 true slot page priority

/-- `raid0_read_page` -/
def raid0ReadPage (slot page : ℕ) (priority : ℤ) : List RaidOp :=
  stripedPage 0 false slot page priority

/-- `raid1_read_page`: the primaries only. -/
def raid1ReadPage (slot page : ℕ) (priority : ℤ) : List RaidOp :=
  stripedPage 1 false slot page priority

/-- `raid1_write_page` -/
def raid1WritePage (slot page : ℕ) (priority : ℤ) : List RaidOp :=
  let base := slot * blocksPerPage
  (List.range blocksPerPage).flatMap fun b =>
    let logical := base + b
    let diskId := logical % ndisks
    let mirror := (diskId + 1) % ndisks
    let phys := logical / ndisks
    [.enqueue (raidRealBlock 1 diskId phys) true (.page page b) priority,
      .enqueue (raidRealBlock 1 mirror phys) true (.page page b) priority]

/-! ### RAID 5 -/

/-- The values of `row_start`. -/
def rowStarts : List ℕ := (List.range blocksPerPage).filter fun r => r % dataPerRow = 0

/-- The disk of the data block at position `dataBlockInRow`, skipping the parity disk. -/
def raid5DataDisk (parDisk dataBlockInRow : ℕ) : ℕ :=
  if dataBlockInRow ≥ parDisk then dataBlockInRow + 1 else dataBlockInRow

/-- One iteration of the inner loop of `raid5_write_page`, with its counter
`data_block_in_row`. -/
def raid5WriteBlock (page : ℕ) (priority : ℤ) (rowStart parDisk phys : ℕ)
    (acc : List RaidOp × ℕ) (i : ℕ) : List RaidOp × ℕ :=
  let blockIdx := rowStart + i
  if blockIdx < blocksPerPage then
    let blkData := Ptr.page page blockIdx
    let diskId := raid5DataDisk parDisk acc.2
    (acc.1 ++ [.xorParity blkData,
      .enqueue (raidRealBlock 2 diskId phys) true blkData priority], acc.2 + 1)
  else acc

/-- One row of `raid5_write_page`. The parity request carries a pointer to `parity_buf`, which
the next row clears and reuses. -/
def raid5WriteRow (slot page : ℕ) (priority : ℤ) (rowStart : ℕ) : List RaidOp :=
  let row := (slot * blocksPerPage + rowStart) / dataPerRow
  let parDisk := row % ndisks
  let phys := row / ndisks
  .clearParity ::
    ((List.range dataPerRow).foldl (raid5WriteBlock page priority rowStart parDisk phys)
      ([], 0)).1 ++
    [.enqueue (raidRealBlock 2 parDisk phys) true .parityBuf priority]

/-- `raid5_write_page` -/
def raid5WritePage (slot page : ℕ) (priority : ℤ) : List RaidOp :=
  rowStarts.flatMap (raid5WriteRow slot page priority)

/-- One iteration of the inner loop of `raid5_read_page`. -/
def raid5ReadBlock (page : ℕ) (priority : ℤ) (rowStart parDisk phys : ℕ)
    (acc : List RaidOp × ℕ) (i : ℕ) : List RaidOp × ℕ :=
  let blockIdx := rowStart + i
  if blockIdx < blocksPerPage then
    let diskId := raid5DataDisk parDisk acc.2
    (acc.1 ++ [.enqueue (raidRealBlock 2 diskId phys) false (.page page blockIdx) priority],
      acc.2 + 1)
  else acc

/-- One row of `raid5_read_page`. -/
def raid5ReadRow (slot page : ℕ) (priority : ℤ) (rowStart : ℕ) : List RaidOp :=
  let row := (slot * blocksPerPage + rowStart) / dataPerRow
  let parDisk := row % ndisks
  let phys := row / ndisks
  ((List.range dataPerRow).foldl (raid5ReadBlock page priority rowStart parDisk phys) ([], 0)).1

/-- `raid5_read_page`: the data blocks only. -/
def raid5ReadPage (slot page : ℕ) (priority : ℤ) : List RaidOp :=
  rowStarts.flatMap (raid5ReadRow slot page priority)

/-! ### The requests, slot by slot -/

theorem reqs_stripedPage (mode : ℕ) (write : Bool) (slot page : ℕ) (priority : ℤ) :
    reqs (stripedPage mode write slot page priority) =
      (List.range 4).map fun b =>
        ⟨raidRealBlock mode b slot, write, priority, .page page b⟩ := by
  have hdiv : ∀ b < 4, (slot * 4 + b) % 4 = b ∧ (slot * 4 + b) / 4 = slot := by omega
  simp [reqs, stripedPage, List.range_succ, hdiv]

theorem reqs_raid1WritePage (slot page : ℕ) (priority : ℤ) :
    reqs (raid1WritePage slot page priority) =
      (List.range 4).flatMap fun b =>
        [⟨raidRealBlock 1 b slot, true, priority, .page page b⟩,
          ⟨raidRealBlock 1 ((b + 1) % 4) slot, true, priority, .page page b⟩] := by
  have hdiv : ∀ b < 4, (slot * 4 + b) % 4 = b ∧ (slot * 4 + b) / 4 = slot := by omega
  simp [reqs, raid1WritePage, List.range_succ, hdiv]

/-- The first row of a slot. -/
theorem raid5_row (slot : ℕ) : slot * 4 / 3 = 4 * (slot / 3) + slot % 3 := by
  have hm : slot % 3 = 0 ∨ slot % 3 = 1 ∨ slot % 3 = 2 := by omega
  rcases hm with hm | hm | hm <;> omega

/-- Both rows of a slot have the same offset on every disk. -/
theorem raid5_row_div (slot : ℕ) :
    slot * 4 / 3 / 4 = slot / 3 ∧ (slot * 4 / 3 + 1) / 4 = slot / 3 := by
  rw [raid5_row]
  omega

/-- The parity disks of the two rows of a slot. -/
theorem raid5_row_mod (slot : ℕ) :
    slot * 4 / 3 % 4 = slot % 3 ∧ (slot * 4 / 3 + 1) % 4 = slot % 3 + 1 := by
  rw [raid5_row]
  omega

theorem rowStarts_eq : rowStarts = [0, 3] := rfl

/-- **Six writes to four real blocks.** The second row starts at disk `0`, and its parity goes to
the disk after the first row's parity disk. -/
theorem reqs_raid5WritePage (slot page : ℕ) (priority : ℤ) :
    reqs (raid5WritePage slot page priority) =
      [⟨raidRealBlock 2 (raid5DataDisk (slot % 3) 0) (slot / 3), true, priority, .page page 0⟩,
        ⟨raidRealBlock 2 (raid5DataDisk (slot % 3) 1) (slot / 3), true, priority, .page page 1⟩,
        ⟨raidRealBlock 2 (raid5DataDisk (slot % 3) 2) (slot / 3), true, priority, .page page 2⟩,
        ⟨raidRealBlock 2 (slot % 3) (slot / 3), true, priority, .parityBuf⟩,
        ⟨raidRealBlock 2 0 (slot / 3), true, priority, .page page 3⟩,
        ⟨raidRealBlock 2 (slot % 3 + 1) (slot / 3), true, priority, .parityBuf⟩] := by
  obtain ⟨hd, hd'⟩ := raid5_row_div slot
  obtain ⟨hm, hm'⟩ := raid5_row_mod slot
  have hzero : raid5DataDisk (slot % 3 + 1) 0 = 0 := by simp [raid5DataDisk]
  simp [reqs, raid5WritePage, rowStarts_eq, raid5WriteRow, raid5WriteBlock, List.range_succ,
    hd, hd', hm, hm', hzero]

theorem reqs_raid5ReadPage (slot page : ℕ) (priority : ℤ) :
    reqs (raid5ReadPage slot page priority) =
      [⟨raidRealBlock 2 (raid5DataDisk (slot % 3) 0) (slot / 3), false, priority, .page page 0⟩,
        ⟨raidRealBlock 2 (raid5DataDisk (slot % 3) 1) (slot / 3), false, priority, .page page 1⟩,
        ⟨raidRealBlock 2 (raid5DataDisk (slot % 3) 2) (slot / 3), false, priority, .page page 2⟩,
        ⟨raidRealBlock 2 0 (slot / 3), false, priority, .page page 3⟩] := by
  obtain ⟨hd, hd'⟩ := raid5_row_div slot
  obtain ⟨hm, hm'⟩ := raid5_row_mod slot
  have hzero : raid5DataDisk (slot % 3 + 1) 0 = 0 := by simp [raid5DataDisk]
  simp [reqs, raid5ReadPage, rowStarts_eq, raid5ReadRow, raid5ReadBlock, List.range_succ,
    hd, hd', hm, hm', hzero]

/-! ### What every layout promises the queue -/

/-- The requests of one page transfer: one kind, one priority, at most eight of them, all in the
region of the mode. -/
structure PageBatch (mode : ℕ) (write : Bool) (priority : ℤ) (l : List DiskReq) : Prop where
  write : ∀ r ∈ l, r.write = write
  priority : ∀ r ∈ l, r.priority = priority
  region : ∀ r ∈ l, InRegion mode r.blockno
  length : l.length ≤ 8

theorem raid5DataDisk_lt {parDisk i : ℕ} (hi : i < dataPerRow) :
    raid5DataDisk parDisk i < ndisks := by
  simp only [dataPerRow_eq] at hi
  simp only [raid5DataDisk, ndisks_eq]
  split <;> omega

theorem pageBatch_striped (hs : slot < nswapspace) :
    PageBatch mode write priority (reqs (stripedPage mode write slot page priority)) := by
  have hp : slot < blocksPerDisk := by simpa using hs
  rw [reqs_stripedPage]
  refine ⟨?_, ?_, ?_, by simp⟩
  all_goals
    intro r hr
    obtain ⟨b, hb, rfl⟩ := List.mem_map.mp hr
  · rfl
  · rfl
  · exact inRegion_raidRealBlock (by simpa using hb) hp

theorem pageBatch_raid1WritePage (hs : slot < nswapspace) :
    PageBatch 1 true priority (reqs (raid1WritePage slot page priority)) := by
  have hp : slot < blocksPerDisk := by simpa using hs
  rw [reqs_raid1WritePage]
  have hmem : ∀ r ∈ (List.range 4).flatMap fun b =>
      [(⟨raidRealBlock 1 b slot, true, priority, .page page b⟩ : DiskReq),
        ⟨raidRealBlock 1 ((b + 1) % 4) slot, true, priority, .page page b⟩],
      ∃ d < 4, ∃ b, r = ⟨raidRealBlock 1 d slot, true, priority, .page page b⟩ := by
    intro r hr
    obtain ⟨b, hb, hr⟩ := List.mem_flatMap.mp hr
    rcases List.mem_cons.mp hr with rfl | hr
    · exact ⟨b, by simpa using hb, b, rfl⟩
    · obtain rfl := List.mem_singleton.mp hr
      exact ⟨(b + 1) % 4, by omega, b, rfl⟩
  refine ⟨?_, ?_, ?_, by simp [List.range_succ]⟩
  all_goals
    intro r hr
    obtain ⟨d, hd, b, rfl⟩ := hmem r hr
  · rfl
  · rfl
  · exact inRegion_raidRealBlock (by simpa using hd) hp

/-- The four real blocks of a slot's stripe position, which every RAID 5 request names. -/
theorem pageBatch_raid5 {l : List DiskReq} (hs : slot < nswapspace) (hl : l.length ≤ 8)
    (h : ∀ r ∈ l, r.write = write ∧ r.priority = priority ∧
      ∃ d < ndisks, r.blockno = raidRealBlock 2 d (slot / 3)) : PageBatch 2 write priority l := by
  have hp : slot / 3 < blocksPerDisk := by
    simp only [nswapspace_eq] at hs
    simp only [blocksPerDisk_eq]
    omega
  refine ⟨fun r hr => (h r hr).1, fun r hr => (h r hr).2.1, fun r hr => ?_, hl⟩
  obtain ⟨d, hd, hb⟩ := (h r hr).2.2
  rw [hb]
  exact inRegion_raidRealBlock hd hp

theorem pageBatch_raid5WritePage (hs : slot < nswapspace) :
    PageBatch 2 true priority (reqs (raid5WritePage slot page priority)) := by
  rw [reqs_raid5WritePage]
  have hd : ∀ i < 3, raid5DataDisk (slot % 3) i < 4 := fun i hi =>
    raid5DataDisk_lt (by simpa using hi)
  refine pageBatch_raid5 hs (by simp) ?_
  simp only [List.forall_mem_cons, List.not_mem_nil, false_imp_iff, implies_true, and_true,
    true_and, ndisks_eq, raidRealBlock_disk_inj]
  exact ⟨⟨_, hd 0 (by omega), rfl⟩, ⟨_, hd 1 (by omega), rfl⟩, ⟨_, hd 2 (by omega), rfl⟩,
    ⟨_, by omega, rfl⟩, ⟨_, by omega, rfl⟩, ⟨_, by omega, rfl⟩⟩

theorem pageBatch_raid5ReadPage (hs : slot < nswapspace) :
    PageBatch 2 false priority (reqs (raid5ReadPage slot page priority)) := by
  rw [reqs_raid5ReadPage]
  have hd : ∀ i < 3, raid5DataDisk (slot % 3) i < 4 := fun i hi =>
    raid5DataDisk_lt (by simpa using hi)
  refine pageBatch_raid5 hs (by simp) ?_
  simp only [List.forall_mem_cons, List.not_mem_nil, false_imp_iff, implies_true, and_true,
    true_and, ndisks_eq, raidRealBlock_disk_inj]
  exact ⟨⟨_, hd 0 (by omega), rfl⟩, ⟨_, hd 1 (by omega), rfl⟩, ⟨_, hd 2 (by omega), rfl⟩,
    ⟨_, by omega, rfl⟩⟩

end Disk

end Xv6
