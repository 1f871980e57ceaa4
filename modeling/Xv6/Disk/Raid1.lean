import Xv6.Disk.SwapPage

/-!
# RAID 1: what a slot gives back

The mirror of block `b` goes to disk `b + 1 mod 4`, which is where the primary of the next block
goes, at the same offset. Every block but the last is enqueued before the primary of its
successor, so the primaries of blocks `1`, `2` and `3` stay; the mirror of block `3` comes last and
overwrites the primary of block `0`. Reads use the primaries, so block `0` of the page comes back
as block `3`.
-/

namespace Xv6

namespace Disk

/-- The block of the page that the primary of block `b` holds after a write. -/
def raid1Kept (b : ℕ) : ℕ := if b = 0 then 3 else b

/-- **The four primaries after a RAID 1 write.** -/
theorem raid1_disk_home {slot page b : ℕ} {priority : ℤ} {s : DiskState}
    (hslot : slot < nswapspace) (hp : IsLevel priority) (hs : Quiet s) (hmode : s.raidMode = 1)
    (hb : b < 4) :
    (diskSwapWrite slot page priority s).disk (homeBlock 1 slot b)
      = s.ram (.page page (raid1Kept b)) := by
  have hw := diskSwapWrite_spec page hslot hp hs
  have hops : writePageOps s.raidMode slot page priority = raid1WritePage slot page priority := by
    rw [hmode]; rfl
  rw [hw.disk, hops, reqs_raid1WritePage]
  have hb' : b = 0 ∨ b = 1 ∨ b = 2 ∨ b = 3 := by omega
  rcases hb' with rfl | rfl | rfl | rfl <;>
    simp [blockWrites, List.range_succ, homeBlock, raid1Kept]

/-- A RAID 1 write to another slot does not touch the primaries of a slot. -/
theorem homeBlock_notMem_raid1WritePage {slot slot' page b : ℕ} {priority : ℤ}
    (hs : slot < nswapspace) (hs' : slot' < nswapspace) (hne : slot' ≠ slot) (hb : b < 4) :
    homeBlock 1 slot b ∉ touchedBlocks (raid1WritePage slot' page priority) := by
  intro hmem
  rw [touchedBlocks, reqs_raid1WritePage, List.map_flatMap, List.mem_flatMap] at hmem
  obtain ⟨b', hb', hmem⟩ := hmem
  have hd : b' < 4 := by simpa using hb'
  simp only [homeBlock, List.map_cons, List.map_nil, List.mem_cons, List.not_mem_nil,
    or_false] at hmem
  have hp : slot < blocksPerDisk := by simpa using hs
  have hp' : slot' < blocksPerDisk := by simpa using hs'
  rcases hmem with h | h
  · exact hne ((raidRealBlock_inj (by simpa using hb) (by simpa using hd) hp hp').mp h).2.2.symm
  · exact hne ((raidRealBlock_inj (by simpa using hb) (by simp only [ndisks_eq]; omega) hp
      hp').mp h).2.2.symm

/-- What reading the slot returns after the write and a sequence of writes to other slots. -/
theorem raid1_read (page buf : ℕ) {slot b : ℕ} {priority priority' : ℤ} {cs : List WriteCall}
    {s : DiskState} (hslot : slot < nswapspace) (hp : IsLevel priority) (hp' : IsLevel priority')
    (hcs : ∀ c ∈ cs, c.Ok ∧ c.slot ≠ slot) (hs : Quiet s) (hmode : s.raidMode = 1) (hb : b < 4) :
    (diskSwapRead slot buf priority' (runWrites cs (diskSwapWrite slot page priority s))).ram
      (.page buf b) = s.ram (.page page (raid1Kept b)) := by
  have hw := diskSwapWrite_spec page hslot hp hs
  have hok : ∀ c ∈ cs, c.Ok := fun c hc => (hcs c hc).1
  obtain ⟨hq, -, -, hslots⟩ := runWrites_keeps hok hw.quiet
  have hr := diskSwapRead_spec buf hslot hp' hq
  have hm : modeUsed ((runWrites cs (diskSwapWrite slot page priority s)).slotRaidMode slot)
      = 1 := by
    rw [hslots slot fun c hc => (hcs c hc).2, hw.slotRaidMode, Function.update_self, hmode]
    rfl
  rw [hr.buffer hb, hm, runWrites_disk_of_notMem hok hw.quiet fun c hc => ?_,
    raid1_disk_home hslot hp hs hmode hb]
  rw [hw.raidMode, hmode]
  exact homeBlock_notMem_raid1WritePage hslot (hok c hc).1 (hcs c hc).2 hb

/-- **When a RAID 1 page comes back**, whatever is written to other slots in between: exactly when
its first and its last block are equal. -/
theorem raid1_round_trip_iff {slot page buf : ℕ} {priority priority' : ℤ} {cs : List WriteCall}
    {s : DiskState} (hslot : slot < nswapspace) (hp : IsLevel priority) (hp' : IsLevel priority')
    (hcs : ∀ c ∈ cs, c.Ok ∧ c.slot ≠ slot) (hs : Quiet s) (hmode : s.raidMode = 1) :
    (∀ b < 4, (diskSwapRead slot buf priority'
        (runWrites cs (diskSwapWrite slot page priority s))).ram (.page buf b)
          = s.ram (.page page b)) ↔
      s.ram (.page page 0) = s.ram (.page page 3) := by
  have hread : ∀ b < 4, _ := fun b hb =>
    raid1_read page buf hslot hp hp' hcs hs hmode hb
  constructor
  · intro h
    rw [← h 0 (by omega), hread 0 (by omega)]
    rfl
  · intro h0 b hb
    rw [hread b hb]
    unfold raid1Kept
    split
    · rename_i hz
      rw [hz, h0]
    · rfl

/-- Slot `0`, the page `onesLast` at address `0`, nothing pending and nothing written in between:
the first byte read back is `1`, not `0`. -/
theorem raid1_round_trip_counterexample :
    ¬ ∀ b < 4, (diskSwapRead 0 1 0 (runWrites [] (diskSwapWrite 0 0 0
      (initState 1 (fun _ _ => 0) onesLast)))).ram (.page 1 b) =
        (initState 1 (fun _ _ => 0) onesLast).ram (.page 0 b) := by
  intro h
  have hp : IsLevel 0 := by norm_num [IsLevel]
  have h0 := h 0 (by omega)
  rw [raid1_read _ _ (by decide) hp hp (by simp) (quiet_initState _ _ _) rfl (by omega)] at h0
  have h00 := congrFun h0 ⟨0, by decide⟩
  simp [raid1Kept, initState, onesLast] at h00

/-- A zero page in slot `0` comes back after a write to slot `1`. -/
theorem raid1_round_trip_zero_page :
    Quiet (initState 1 (fun _ _ => 1) fun _ _ => 0) ∧
      ∀ b < 4, (diskSwapRead 0 1 0 (runWrites [⟨1, 0, 0⟩] (diskSwapWrite 0 0 3
        (initState 1 (fun _ _ => 1) fun _ _ => 0)))).ram (.page 1 b) = fun _ => 0 :=
  ⟨quiet_initState _ _ _,
    (raid1_round_trip_iff (by decide) (by norm_num [IsLevel]) (by norm_num [IsLevel])
      (by simp [WriteCall.Ok, IsLevel]) (quiet_initState _ _ _) rfl).mpr rfl⟩

end Disk

end Xv6
