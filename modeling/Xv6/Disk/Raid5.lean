import Xv6.Disk.SwapPage

/-!
# RAID 5: what a slot gives back

A RAID 5 write lays six blocks on the four real blocks at offset `slot / 3`. Requests for one
block are served in the order they were enqueued, so the later one stays:

* the last data block, enqueued at disk `0`, overwrites what the first row put there;
* the second parity request overwrites disk `slot % 3 + 1`, and both parity requests carry
  `parity_buf`, which by then holds the last data block.

So home block `b` ends up with block `raid5Kept slot b` of the page (`raid5_disk_home`), and the
page comes back exactly when that is no loss. Slots with the same `slot / 3` share all four real
blocks. The parity blocks of both rows hold the last data block as well: that is the parity of the
second row, which has no other data block, and in general not of the first.

## Main results

* `raid5_round_trip_iff` — when a page comes back
* `raid5_parity_iff` — when the parity blocks hold the parity
* `raid5_isolation_iff` — when writes to other slots leave a slot alone
-/

namespace Xv6

namespace Disk

variable {page slot x : ℕ} {priority : ℤ} {s : DiskState}

/-- The block of the page that home block `b` of the slot holds after a write. -/
def raid5Kept (slot b : ℕ) : ℕ := if b = 0 ∨ b = slot % 3 then 3 else b

/-- **The four real blocks after a RAID 5 write.** -/
theorem raid5_disk_home {b : ℕ} (hslot : slot < nswapspace) (hp : IsLevel priority) (hs : Quiet s)
    (hmode : s.raidMode = 2) (hb : b < 4) :
    (diskSwapWrite slot page priority s).disk (homeBlock 2 slot b)
      = s.ram (.page page (raid5Kept slot b)) := by
  have hw := diskSwapWrite_spec page hslot hp hs
  have hops : writePageOps s.raidMode slot page priority = raid5WritePage slot page priority := by
    rw [hmode]; rfl
  rw [hw.disk, hops, reqs_raid5WritePage]
  simp only [blockWrites, List.map_cons, List.map_nil, execOps_ram_page, execOps_raid5_parity]
  have hm : slot % 3 = 0 ∨ slot % 3 = 1 ∨ slot % 3 = 2 := by omega
  have hb' : b = 0 ∨ b = 1 ∨ b = 2 ∨ b = 3 := by omega
  -- twelve cases: the position in the row and the block
  rcases hm with hm | hm | hm <;> rcases hb' with rfl | rfl | rfl | rfl <;>
    simp [hm, homeBlock, raid5DataDisk, raid5Kept]

/-- What reading the slot right after the write returns. -/
theorem raid5_read {buf b : ℕ} {priority' : ℤ} (hslot : slot < nswapspace) (hp : IsLevel priority)
    (hp' : IsLevel priority') (hs : Quiet s) (hmode : s.raidMode = 2) (hb : b < 4) :
    (diskSwapRead slot buf priority' (diskSwapWrite slot page priority s)).ram (.page buf b)
      = s.ram (.page page (raid5Kept slot b)) := by
  have hw := diskSwapWrite_spec page hslot hp hs
  have hr := diskSwapRead_spec buf hslot hp' hw.quiet
  have hm : modeUsed ((diskSwapWrite slot page priority s).slotRaidMode slot) = 2 := by
    rw [hw.slotRaidMode, Function.update_self, hmode]; rfl
  rw [hr.buffer hb, hm]
  exact raid5_disk_home hslot hp hs hmode hb

/-- **Losing no block.** Every block of the page is the one its home block holds exactly when the
blocks that are overwritten equal the last one. -/
theorem raid5Kept_eq_iff (slot : ℕ) (P : ℕ → Block) :
    (∀ b < 4, P (raid5Kept slot b) = P b) ↔
      P 0 = P 3 ∧ (slot % 3 ≠ 0 → P (slot % 3) = P 3) := by
  have hlt : slot % 3 < 4 := by omega
  constructor
  · intro h
    refine ⟨?_, fun _ => ?_⟩
    · rw [← h 0 (by omega)]
      simp [raid5Kept]
    · rw [← h _ hlt]
      simp [raid5Kept]
  · rintro ⟨h0, hm⟩ b hb
    unfold raid5Kept
    split
    · rename_i hcase
      rcases hcase with rfl | rfl
      · exact h0.symm
      · by_cases hz : slot % 3 = 0
        · rw [hz]; exact h0.symm
        · exact (hm hz).symm
    · rfl

/-- **When a RAID 5 page comes back.** The first and the last block of the page have to be equal,
and for a slot that does not start a stripe position so does block `slot % 3`. -/
theorem raid5_round_trip_iff {slot page buf : ℕ} {priority priority' : ℤ} {s : DiskState}
    (hslot : slot < nswapspace) (hp : IsLevel priority) (hp' : IsLevel priority') (hs : Quiet s)
    (hmode : s.raidMode = 2) :
    (∀ b < 4, (diskSwapRead slot buf priority' (diskSwapWrite slot page priority s)).ram
        (.page buf b) = s.ram (.page page b)) ↔
      s.ram (.page page 0) = s.ram (.page page 3) ∧
        (slot % 3 ≠ 0 → s.ram (.page page (slot % 3)) = s.ram (.page page 3)) := by
  rw [← raid5Kept_eq_iff slot fun b => s.ram (.page page b)]
  refine forall₂_congr fun b hb => ?_
  rw [raid5_read hslot hp hp' hs hmode hb]

/-- Slot `0`, the page `onesLast` at address `0`, nothing pending: the first byte read back is
`1`, not `0`. -/
theorem raid5_round_trip_counterexample :
    ¬ ∀ b < 4, (diskSwapRead 0 1 0 (diskSwapWrite 0 0 0
      (initState 2 (fun _ _ => 0) onesLast))).ram (.page 1 b) =
        (initState 2 (fun _ _ => 0) onesLast).ram (.page 0 b) := by
  intro h
  have hp : IsLevel 0 := by norm_num [IsLevel]
  have h0 := h 0 (by omega)
  rw [raid5_read (by decide) hp hp (quiet_initState _ _ _) rfl (by omega)] at h0
  have h00 := congrFun h0 ⟨0, by decide⟩
  simp [raid5Kept, initState, onesLast] at h00

/-- A page of equal blocks in slot `0`: the hypotheses of `raid5_round_trip_iff` can be met, and
the page comes back. -/
theorem raid5_round_trip_zero_page :
    Quiet (initState 2 (fun _ _ => 1) fun _ _ => 0) ∧
      ∀ b < 4, (diskSwapRead 0 1 0 (diskSwapWrite 0 0 3
        (initState 2 (fun _ _ => 1) fun _ _ => 0))).ram (.page 1 b) = fun _ => 0 :=
  ⟨quiet_initState _ _ _,
    (raid5_round_trip_iff (by decide) (by norm_num [IsLevel]) (by norm_num [IsLevel])
      (quiet_initState _ _ _) rfl).mpr ⟨rfl, fun h => absurd rfl h⟩⟩

/-! ### Parity -/

/-- The real block that holds the parity of the row starting with data block `rowStart`. -/
def parityBlock (slot rowStart : ℕ) : ℕ :=
  let row := (slot * blocksPerPage + rowStart) / dataPerRow
  raidRealBlock 2 (row % ndisks) (row / ndisks)

/-- The XOR, byte for byte, of the data blocks of the page that belong to the row. -/
def rowXor (ram : Ptr → Block) (page rowStart : ℕ) : Block := fun j =>
  ((List.range dataPerRow).filter fun i => rowStart + i < blocksPerPage).foldl
    (fun x i => x ^^^ ram (.page page (rowStart + i)) j) 0

/-- The first row has three data blocks. -/
theorem rowXor_zero (ram : Ptr → Block) (page : ℕ) : rowXor ram page 0 = fun j =>
    ram (.page page 0) j ^^^ ram (.page page 1) j ^^^ ram (.page page 2) j := by
  funext j
  simp [rowXor, List.range_succ]

/-- The second row has one data block. -/
theorem rowXor_three (ram : Ptr → Block) (page : ℕ) : rowXor ram page 3 = ram (.page page 3) := by
  funext j
  simp [rowXor, List.range_succ]

/-- **Both parity blocks hold the last data block**: they are written from `parity_buf` once the
second row is in it. -/
theorem raid5_disk_parity {rowStart : ℕ} (hslot : slot < nswapspace) (hp : IsLevel priority)
    (hs : Quiet s) (hmode : s.raidMode = 2) (hrow : rowStart ∈ rowStarts) :
    (diskSwapWrite slot page priority s).disk (parityBlock slot rowStart)
      = s.ram (.page page 3) := by
  have hw := diskSwapWrite_spec page hslot hp hs
  have hops : writePageOps s.raidMode slot page priority = raid5WritePage slot page priority := by
    rw [hmode]; rfl
  obtain ⟨hd, hd'⟩ := raid5_row_div slot
  obtain ⟨hm, hm'⟩ := raid5_row_mod slot
  rw [hw.disk, hops, reqs_raid5WritePage]
  simp only [blockWrites, List.map_cons, List.map_nil, execOps_ram_page, execOps_raid5_parity]
  have hmod : slot % 3 = 0 ∨ slot % 3 = 1 ∨ slot % 3 = 2 := by omega
  rw [rowStarts_eq] at hrow
  rcases List.mem_cons.mp hrow with rfl | hrow
  · -- on disk `0` the last data block itself comes later
    rcases hmod with hmod | hmod | hmod <;> simp [parityBlock, hd, hm, hmod, raid5DataDisk]
  · obtain rfl := List.mem_singleton.mp hrow
    rcases hmod with hmod | hmod | hmod <;> simp [parityBlock, hd', hm', hmod, raid5DataDisk]

/-- **When the parity is right.** The parity block of each row holds the XOR of the data blocks of
the row exactly when the XOR of the first three blocks of the page is the last one. -/
theorem raid5_parity_iff {slot page : ℕ} {priority : ℤ} {s : DiskState}
    (hslot : slot < nswapspace) (hp : IsLevel priority) (hs : Quiet s) (hmode : s.raidMode = 2) :
    (∀ rowStart ∈ rowStarts, (diskSwapWrite slot page priority s).disk (parityBlock slot rowStart)
        = rowXor s.ram page rowStart) ↔
      rowXor s.ram page 0 = s.ram (.page page 3) := by
  constructor
  · intro h
    have h0 : 0 ∈ rowStarts := by decide
    rw [← h 0 h0, raid5_disk_parity hslot hp hs hmode h0]
  · intro h rowStart hrow
    rw [raid5_disk_parity hslot hp hs hmode hrow]
    rw [rowStarts_eq] at hrow
    rcases List.mem_cons.mp hrow with rfl | hrow
    · exact h.symm
    · obtain rfl := List.mem_singleton.mp hrow
      exact (rowXor_three s.ram page).symm

/-- Slot `0` and the page `onesLast`: the parity of its first row is zero, and the parity block of
that row is full of ones. -/
theorem raid5_parity_counterexample :
    (diskSwapWrite 0 0 0 (initState 2 (fun _ _ => 0) onesLast)).disk (parityBlock 0 0)
        = (fun _ => 1) ∧
      rowXor onesLast 0 0 = fun _ => 0 := by
  have hp : IsLevel 0 := by norm_num [IsLevel]
  refine ⟨?_, ?_⟩
  · rw [raid5_disk_parity (by decide) hp (quiet_initState _ _ _) rfl (by decide)]
    rfl
  · rw [rowXor_zero]
    funext j
    show (0 : BitVec 8) ^^^ 0 ^^^ 0 = 0
    decide

/-- Memory in which the page at address `0` has a first and a last block of ones. -/
def onesEnds : Ptr → Block
  | .page 0 0 => fun _ => 1
  | .page 0 3 => fun _ => 1
  | _ => fun _ => 0

theorem raid5_parity_onesEnds :
    Quiet (initState 2 (fun _ _ => 0) onesEnds) ∧
      ∀ rowStart ∈ rowStarts, (diskSwapWrite 0 0 3 (initState 2 (fun _ _ => 0) onesEnds)).disk
        (parityBlock 0 rowStart) = rowXor onesEnds 0 rowStart := by
  refine ⟨quiet_initState _ _ _, (raid5_parity_iff (by decide) (by norm_num [IsLevel])
    (quiet_initState _ _ _) rfl).mpr ?_⟩
  rw [rowXor_zero]
  funext j
  show (1 : BitVec 8) ^^^ 0 ^^^ 0 = 1
  decide

/-! ### Isolation -/

/-- A RAID 5 write touches all four disks at its stripe position. -/
theorem mem_touchedBlocks_raid5WritePage :
    x ∈ touchedBlocks (raid5WritePage slot page priority) ↔
      ∃ d < 4, x = raidRealBlock 2 d (slot / 3) := by
  simp only [touchedBlocks, reqs_raid5WritePage, List.map_cons, List.map_nil, List.mem_cons,
    List.not_mem_nil, or_false]
  have hm : slot % 3 = 0 ∨ slot % 3 = 1 ∨ slot % 3 = 2 := by omega
  constructor
  · have hd : ∀ i < 3, raid5DataDisk (slot % 3) i < 4 := fun i hi =>
      raid5DataDisk_lt (by simpa using hi)
    rintro (h | h | h | h | h | h)
    · exact ⟨_, hd 0 (by omega), h⟩
    · exact ⟨_, hd 1 (by omega), h⟩
    · exact ⟨_, hd 2 (by omega), h⟩
    · exact ⟨_, by omega, h⟩
    · exact ⟨_, by omega, h⟩
    · exact ⟨_, by omega, h⟩
  · rintro ⟨d, hd, rfl⟩
    have hd' : d = 0 ∨ d = 1 ∨ d = 2 ∨ d = 3 := by omega
    rcases hm with hm | hm | hm <;> rcases hd' with rfl | rfl | rfl | rfl <;>
      simp [hm, raid5DataDisk]

/-- A RAID 5 read touches the home blocks. -/
theorem mem_touchedBlocks_raid5ReadPage :
    x ∈ touchedBlocks (raid5ReadPage slot page priority) ↔ ∃ b < 4, x = homeBlock 2 slot b := by
  have hreqs := reqs_readPageOps 2 slot page priority
  have hops : readPageOps 2 slot page priority = raid5ReadPage slot page priority := rfl
  rw [hops] at hreqs
  rw [touchedBlocks, hreqs, List.map_map, List.mem_map]
  constructor
  · rintro ⟨b, hb, rfl⟩
    exact ⟨b, by simpa using hb, rfl⟩
  · rintro ⟨b, hb, rfl⟩
    exact ⟨b, by simpa using hb, rfl⟩

theorem homeBlock_two (slot b : ℕ) :
    ∃ d < 4, homeBlock 2 slot b = raidRealBlock 2 d (slot / 3) := by
  refine ⟨if b < 3 then raid5DataDisk (slot % 3) b else 0, ?_, rfl⟩
  split
  · exact raid5DataDisk_lt (by simpa using ‹b < 3›)
  · omega

/-- **When two slots do not meet.** -/
theorem raid5_disjoint_iff {s t buf : ℕ} {priority' : ℤ} (hs : s < nswapspace)
    (ht : t < nswapspace) :
    (touchedBlocks (raid5WritePage t page priority)).Disjoint
        (touchedBlocks (raid5ReadPage s buf priority')) ↔ t / 3 ≠ s / 3 := by
  simp only [nswapspace_eq] at hs ht
  constructor
  · intro h heq
    refine h (a := homeBlock 2 s 3) ?_ (mem_touchedBlocks_raid5ReadPage.mpr ⟨3, by omega, rfl⟩)
    obtain ⟨d, hd, he⟩ := homeBlock_two s 3
    exact mem_touchedBlocks_raid5WritePage.mpr ⟨d, hd, by rw [he, heq]⟩
  · intro hne x hx hx'
    obtain ⟨d, hd, rfl⟩ := mem_touchedBlocks_raid5WritePage.mp hx
    obtain ⟨b, -, he⟩ := mem_touchedBlocks_raid5ReadPage.mp hx'
    obtain ⟨d', hd', he'⟩ := homeBlock_two s b
    rw [he'] at he
    refine hne ((raidRealBlock_inj ?_ ?_ ?_ ?_).mp he).2.2
    · simpa using hd
    · simpa using hd'
    · simp only [blocksPerDisk_eq]; omega
    · simp only [blocksPerDisk_eq]; omega

/-- With all of memory zero, a RAID 5 write zeroes its four real blocks. -/
theorem raid5_disk_of_zero_ram {c : WriteCall} (hc : c.Ok) (hs : Quiet s) (hmode : s.raidMode = 2)
    (hram : ∀ pa b, s.ram (.page pa b) = fun _ => 0)
    (hx : x ∈ touchedBlocks (raid5WritePage c.slot c.page c.priority)) :
    (diskSwapWrite c.slot c.page c.priority s).disk x = fun _ => 0 := by
  have hw := diskSwapWrite_spec c.page hc.1 hc.2 hs
  have hops : writePageOps s.raidMode c.slot c.page c.priority
      = raid5WritePage c.slot c.page c.priority := by
    rw [hmode]; rfl
  rw [hw.disk, hops]
  -- every value written is zero, and `x` is among the keys
  have key : ∀ (l : List (ℕ × Block)) (f : ℕ → Block), (∀ w ∈ l, w.2 = fun _ => 0) →
      (f x = (fun _ => 0) ∨ ∃ w ∈ l, w.1 = x) → WriteLog.applyWrites l f x = fun _ => 0 := by
    intro l
    induction l with
    | nil => intro f _ h; simpa using h
    | cons w l ih =>
      intro f hl h
      rw [WriteLog.applyWrites_cons]
      refine ih _ (fun v hv => hl v (List.mem_cons_of_mem _ hv)) ?_
      by_cases hwx : w.1 = x
      · left
        rw [← hwx, Function.update_self]
        exact hl w List.mem_cons_self
      · rw [Function.update_of_ne (Ne.symm hwx)]
        rcases h with h | ⟨v, hv, he⟩
        · exact Or.inl h
        · rcases List.mem_cons.mp hv with rfl | hv
          · exact absurd he hwx
          · exact Or.inr ⟨v, hv, he⟩
  refine key _ _ (fun w hw => ?_) (Or.inr ?_)
  · rw [reqs_raid5WritePage] at hw
    simp only [blockWrites, List.map_cons, List.map_nil, execOps_ram_page, execOps_raid5_parity,
      hram, List.mem_cons, List.not_mem_nil, or_false] at hw
    rcases hw with rfl | rfl | rfl | rfl | rfl | rfl <;> rfl
  · obtain ⟨r, hr, rfl⟩ := List.mem_map.mp hx
    exact ⟨_, List.mem_map.mpr ⟨r, hr, rfl⟩, rfl⟩

theorem runWrites_disk_of_zero_ram {cs : List WriteCall} (hcs : ∀ c ∈ cs, c.Ok) (hs : Quiet s)
    (hmode : s.raidMode = 2) (hram : ∀ pa b, s.ram (.page pa b) = fun _ => 0)
    (h : s.disk x = (fun _ => 0) ∨
      ∃ c ∈ cs, x ∈ touchedBlocks (raid5WritePage c.slot c.page c.priority)) :
    (runWrites cs s).disk x = fun _ => 0 := by
  induction cs generalizing s with
  | nil => simpa [runWrites] using h
  | cons c cs ih =>
    have hc : c.Ok := hcs c List.mem_cons_self
    have hw := diskSwapWrite_spec c.page hc.1 hc.2 hs
    refine ih (fun c hc => hcs c (List.mem_cons_of_mem _ hc)) hw.quiet (hw.raidMode.trans hmode)
      (fun pa b => (hw.ram_page pa b).trans (hram pa b)) ?_
    by_cases hx : x ∈ touchedBlocks (raid5WritePage c.slot c.page c.priority)
    · exact Or.inl (raid5_disk_of_zero_ram hc hs hmode hram hx)
    · rcases h with h | ⟨c', hc', hx'⟩
      · left
        rw [hw.disk_of_notMem fun r hr he => hx ?_, h]
        rw [hmode] at hr
        exact List.mem_map.mpr ⟨r, hr, he⟩
      · rcases List.mem_cons.mp hc' with rfl | hc'
        · exact absurd hx' hx
        · exact Or.inr ⟨c', hc', hx'⟩

/-- **When a RAID 5 slot is isolated.** The blocks written for `t` and the blocks read for `s` are
disjoint, and a sequence of writes to other slots leaves the blocks of `s` alone from every state,
exactly when no other slot involved has the same `slot / 3`. -/
theorem raid5_isolation_iff {s : ℕ} {cs : List WriteCall} (hs : s < nswapspace)
    (hcs : ∀ c ∈ cs, c.Ok ∧ c.slot ≠ s) :
    ((∀ c ∈ cs, ∀ buf priority', (touchedBlocks (raid5WritePage c.slot c.page c.priority)).Disjoint
        (touchedBlocks (raid5ReadPage s buf priority'))) ↔ ∀ c ∈ cs, c.slot / 3 ≠ s / 3) ∧
    ((∀ σ, Quiet σ → σ.raidMode = 2 → ∀ buf priority',
        ∀ x ∈ touchedBlocks (raid5ReadPage s buf priority'), (runWrites cs σ).disk x = σ.disk x) ↔
      ∀ c ∈ cs, c.slot / 3 ≠ s / 3) := by
  have hok : ∀ c ∈ cs, c.Ok := fun c hc => (hcs c hc).1
  refine ⟨⟨fun h c hc => ?_, fun h c hc buf priority' => ?_⟩, fun h c hc heq => ?_,
    fun h σ hσ hmode buf priority' x hx => ?_⟩
  · exact (raid5_disjoint_iff hs (hok c hc).1).mp (h c hc 0 0)
  · exact (raid5_disjoint_iff hs (hok c hc).1).mpr (h c hc)
  · -- zero pages over an image of ones: the shared block turns to zero and stays zero
    have hone := h (initState 2 (fun _ _ => 1) fun _ _ => 0) (quiet_initState _ _ _) rfl 0 0
      (homeBlock 2 s 3) (mem_touchedBlocks_raid5ReadPage.mpr ⟨3, by omega, rfl⟩)
    obtain ⟨d, hd, he⟩ := homeBlock_two s 3
    rw [runWrites_disk_of_zero_ram hok (quiet_initState _ _ _) rfl (fun _ _ => rfl)
      (Or.inr ⟨c, hc, mem_touchedBlocks_raid5WritePage.mpr ⟨d, hd, by rw [he, heq]⟩⟩)] at hone
    have := congrFun hone ⟨0, by decide⟩
    simp [initState] at this
  · refine runWrites_disk_of_notMem hok hσ fun c hc hx' => ?_
    rw [hmode] at hx'
    exact (raid5_disjoint_iff hs (hok c hc).1).mpr (h c hc) hx' hx

/-- Slots `0` and `1` share their stripe position: the write to slot `1` touches the block from
which block `3` of slot `0` is read. -/
theorem raid5_isolation_counterexample :
    ¬ (touchedBlocks (raid5WritePage 1 0 0)).Disjoint (touchedBlocks (raid5ReadPage 0 0 0)) := by
  rw [raid5_disjoint_iff (by norm_num) (by norm_num)]
  norm_num

/-- One write to slot `3` leaves slot `0` alone. -/
theorem raid5_isolation_three :
    (WriteCall.mk 3 0 0).Ok ∧ ∀ σ, Quiet σ → σ.raidMode = 2 → ∀ buf priority',
      ∀ x ∈ touchedBlocks (raid5ReadPage 0 buf priority'),
        (runWrites [⟨3, 0, 0⟩] σ).disk x = σ.disk x :=
  ⟨by simp [WriteCall.Ok, IsLevel],
    (@raid5_isolation_iff 0 [⟨3, 0, 0⟩] (by decide)
      (by simp [WriteCall.Ok, IsLevel])).2.mpr (by simp)⟩

end Disk

end Xv6
