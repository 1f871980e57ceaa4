import Xv6.Disk.Raid1
import Xv6.Disk.Raid5

/-!
# Losing one disk

`set_failed_disk` sets a bit of `failed_disk_mask`, and nothing reads the mask: the read paths use
the same real blocks as before. A failed disk is therefore survived only by a page of which no
block has its home on that disk. Under RAID 1 the four home blocks are on the four disks; under
RAID 5 they are, for the slots with `slot % 3 ≠ 0`, on the three disks other than `slot % 3`.
-/

namespace Xv6

namespace Disk

/-- The real blocks of disk `d` in the region of a mode. -/
def OnDisk (mode d x : ℕ) : Prop := ∃ off < blocksPerDisk, x = raidRealBlock mode d off

/-- Two images that differ at most on disk `d`. -/
def AgreeOffDisk (mode d : ℕ) (disk disk' : ℕ → Block) : Prop :=
  ∀ x, ¬ OnDisk mode d x → disk' x = disk x

/-- The disk of home block `b`. -/
def homeDisk (mode slot b : ℕ) : ℕ :=
  if mode = 2 then (if b < 3 then raid5DataDisk (slot % 3) b else 0) else b

theorem homeDisk_lt {mode slot b : ℕ} (hb : b < 4) : homeDisk mode slot b < 4 := by
  unfold homeDisk
  split
  · split
    · exact raid5DataDisk_lt (by simpa using ‹b < 3›)
    · omega
  · exact hb

theorem onDisk_homeBlock_iff {mode slot b d : ℕ} (hs : slot < nswapspace) (hb : b < 4)
    (hd : d < 4) : OnDisk mode d (homeBlock mode slot b) ↔ homeDisk mode slot b = d := by
  simp only [nswapspace_eq] at hs
  obtain ⟨p, hp, he⟩ : ∃ p < blocksPerDisk,
      homeBlock mode slot b = raidRealBlock mode (homeDisk mode slot b) p := by
    simp only [blocksPerDisk_eq]
    by_cases hm : mode = 2
    · exact ⟨slot / 3, by omega, by simp [homeBlock, homeDisk, hm]⟩
    · exact ⟨slot, by omega, by simp [homeBlock, homeDisk, hm]⟩
  constructor
  · rintro ⟨off, hoff, hx⟩
    rw [he] at hx
    exact ((raidRealBlock_inj (by simpa using homeDisk_lt hb) (by simpa using hd) hp hoff).mp
      hx).2.1
  · rintro rfl
    exact ⟨p, hp, he⟩

/-- **Which disk a slot does without.** -/
theorem forall_homeDisk_ne_iff {mode slot d : ℕ} (hm : mode = 1 ∨ mode = 2) (hd : d < 4) :
    (∀ b < 4, homeDisk mode slot b ≠ d) ↔ mode = 2 ∧ d = slot % 3 ∧ d ≠ 0 := by
  rcases hm with rfl | rfl
  · simp only [homeDisk]
    exact ⟨fun h => absurd rfl (h d hd), by omega⟩
  · have hall : ∀ r < 3, ∀ d < 4,
        (∀ b < 4, (if b < 3 then raid5DataDisk r b else 0) ≠ d) ↔ d = r ∧ d ≠ 0 := by decide
    simpa only [homeDisk, if_true, true_and] using hall (slot % 3) (Nat.mod_lt _ (by omega)) d hd

/-- A read whose disk contents are replaced after the write, with disk `d` marked as failed. -/
def readAfterFailure (slot page buf : ℕ) (priority priority' : ℤ) (d : ℕ) (disk' : ℕ → Block)
    (s : DiskState) : DiskState :=
  diskSwapRead slot buf priority'
    { (setFailedDisk d (diskSwapWrite slot page priority s)).2 with disk := disk' }

theorem readAfterFailure_buffer (mode : ℕ) {slot page buf b d : ℕ} {priority priority' : ℤ}
    {disk' : ℕ → Block} {s : DiskState} (hm : mode = 1 ∨ mode = 2) (hslot : slot < nswapspace)
    (hp : IsLevel priority) (hp' : IsLevel priority') (hs : Quiet s) (hmode : s.raidMode = mode)
    (hb : b < 4) :
    (readAfterFailure slot page buf priority priority' d disk' s).ram (.page buf b)
      = disk' (homeBlock mode slot b) := by
  have hw := diskSwapWrite_spec page hslot hp hs
  obtain ⟨mask, hfail⟩ := setFailedDisk_eq d (diskSwapWrite slot page priority s)
  rw [readAfterFailure, hfail, (diskSwapRead_spec buf hslot hp' ?_).buffer hb]
  · have hused : modeUsed ((diskSwapWrite slot page priority s).slotRaidMode slot) = mode := by
      rw [hw.slotRaidMode, Function.update_self, hmode]
      rcases hm with rfl | rfl <;> rfl
    exact congrArg (fun m => disk' (homeBlock m slot b)) hused
  · exact ⟨hw.quiet.empty, hw.quiet.head⟩

/-- What home block `b` holds after a write in mode `1` or `2`. -/
theorem disk_home_of_write (page : ℕ) {mode slot b : ℕ} {priority : ℤ} {s : DiskState}
    (hm : mode = 1 ∨ mode = 2) (hslot : slot < nswapspace) (hp : IsLevel priority) (hs : Quiet s)
    (hmode : s.raidMode = mode) (hb : b < 4) :
    (diskSwapWrite slot page priority s).disk (homeBlock mode slot b)
      = s.ram (.page page (if mode = 2 then raid5Kept slot b else raid1Kept b)) := by
  rcases hm with rfl | rfl
  · exact raid1_disk_home hslot hp hs hmode hb
  · exact raid5_disk_home hslot hp hs hmode hb

/-- **Single-disk failure.** The page comes back from every image that agrees with the written one
off disk `d` exactly when the slot has no home block on disk `d` and loses no block to its own
write; and the result does not depend on disk `d` exactly when the first of these holds. Under
RAID 1 that never happens. -/
theorem single_failure_iff {mode slot page buf d : ℕ} {priority priority' : ℤ} {s : DiskState}
    (hm : mode = 1 ∨ mode = 2) (hslot : slot < nswapspace) (hp : IsLevel priority)
    (hp' : IsLevel priority') (hd : d < ndisks) (hs : Quiet s) (hmode : s.raidMode = mode) :
    ((∀ disk', AgreeOffDisk mode d (diskSwapWrite slot page priority s).disk disk' → ∀ b < 4,
        (readAfterFailure slot page buf priority priority' d disk' s).ram (.page buf b)
          = s.ram (.page page b)) ↔
      (mode = 2 ∧ d = slot % 3 ∧ d ≠ 0) ∧ s.ram (.page page 0) = s.ram (.page page 3) ∧
        s.ram (.page page d) = s.ram (.page page 3)) ∧
    ((∀ disk₁ disk₂, AgreeOffDisk mode d disk₁ disk₂ → ∀ b < 4,
        (readAfterFailure slot page buf priority priority' d disk₁ s).ram (.page buf b)
          = (readAfterFailure slot page buf priority priority' d disk₂ s).ram (.page buf b)) ↔
      mode = 2 ∧ d = slot % 3 ∧ d ≠ 0) := by
  have hd4 : d < 4 := by simpa using hd
  have hread : ∀ disk', ∀ b < 4,
      (readAfterFailure slot page buf priority priority' d disk' s).ram (.page buf b)
        = disk' (homeBlock mode slot b) := fun disk' b hb =>
    readAfterFailure_buffer mode hm hslot hp hp' hs hmode hb
  have hhome : ∀ b < 4, _ := fun b hb =>
    disk_home_of_write page hm hslot hp hs hmode hb
  -- an image that differs from a given one in a single block of disk `d`
  have hagree : ∀ (disk : ℕ → Block) (b : ℕ), b < 4 → homeDisk mode slot b = d → ∀ v,
      AgreeOffDisk mode d disk (Function.update disk (homeBlock mode slot b) v) := by
    intro disk b hb hbd v x hx
    refine Function.update_of_ne (fun he => hx ?_) _ _
    rw [he]
    exact (onDisk_homeBlock_iff hslot hb hd4).mpr hbd
  have hother : ∀ v : Block, ∃ w : Block, w ≠ v := fun v =>
    ⟨fun j => v j + 1, fun he => by
      have := congrFun he ⟨0, by decide⟩
      simp at this⟩
  refine ⟨⟨fun h => ?_, fun h disk' hdisk' b hb => ?_⟩, fun h => ?_,
    fun h disk₁ disk₂ hag b hb => ?_⟩
  · have hfree : mode = 2 ∧ d = slot % 3 ∧ d ≠ 0 := by
      refine (forall_homeDisk_ne_iff hm hd4).mp fun b hb hbd => ?_
      obtain ⟨w, hw⟩ := hother (s.ram (.page page b))
      have := h _ (hagree _ b hb hbd w) b hb
      rw [hread _ b hb, Function.update_self] at this
      exact hw this
    refine ⟨hfree, ?_⟩
    obtain ⟨rfl, rfl, hne⟩ := hfree
    have hkept := (raid5Kept_eq_iff slot fun b => s.ram (.page page b)).mp fun b hb => by
      have hb' := h _ (fun x _ => rfl) b hb
      rw [hread _ b hb, hhome b hb] at hb'
      exact hb'
    exact ⟨hkept.1, hkept.2 hne⟩
  · obtain ⟨hfree, h0, hdd⟩ := h
    have hoff : ¬ OnDisk mode d (homeBlock mode slot b) := fun hc =>
      (forall_homeDisk_ne_iff hm hd4).mpr hfree b hb ((onDisk_homeBlock_iff hslot hb hd4).mp hc)
    rw [hread _ b hb, hdisk' _ hoff, hhome b hb]
    obtain ⟨rfl, rfl, hne⟩ := hfree
    exact (raid5Kept_eq_iff slot fun b => s.ram (.page page b)).mpr ⟨h0, fun _ => hdd⟩ b hb
  · refine (forall_homeDisk_ne_iff hm hd4).mp fun b hb hbd => ?_
    obtain ⟨w, hw⟩ := hother ((fun _ _ => 0 : ℕ → Block) (homeBlock mode slot b))
    have := h (fun _ _ => 0) _ (hagree _ b hb hbd w) b hb
    rw [hread _ b hb, hread _ b hb, Function.update_self] at this
    exact hw this.symm
  · have hoff : ¬ OnDisk mode d (homeBlock mode slot b) := fun hc =>
      (forall_homeDisk_ne_iff hm hd4).mpr h b hb ((onDisk_homeBlock_iff hslot hb hd4).mp hc)
    rw [hread _ b hb, hread _ b hb, hag _ hoff]

/-- RAID 1, slot `0`, a zero page, disk `0` failed and its blocks replaced by ones: the page read
back is not zero. -/
theorem single_failure_counterexample :
    ¬ ∀ disk', AgreeOffDisk 1 0
        (diskSwapWrite 0 0 0 (initState 1 (fun _ _ => 0) fun _ _ => 0)).disk disk' → ∀ b < 4,
      (readAfterFailure 0 0 1 0 0 0 disk' (initState 1 (fun _ _ => 0) fun _ _ => 0)).ram
        (.page 1 b) = (initState 1 (fun _ _ => 0) fun _ _ => 0).ram (.page 0 b) := by
  intro h
  have hp : IsLevel 0 := by norm_num [IsLevel]
  have h0 := h (Function.update
    (diskSwapWrite 0 0 0 (initState 1 (fun _ _ => 0) fun _ _ => 0)).disk (homeBlock 1 0 0)
      fun _ => 1) ?_ 0 (by omega)
  · have hread := fun disk' => @readAfterFailure_buffer 1 0 0 1 0 0 0 0 disk'
      (initState 1 (fun _ _ => 0) fun _ _ => 0) (Or.inl rfl) (by decide) hp hp
      (quiet_initState _ _ _) rfl (by omega)
    rw [hread, Function.update_self] at h0
    have h00 := congrFun h0 ⟨0, by decide⟩
    simp [initState] at h00
  · intro x hx
    refine Function.update_of_ne (fun he => hx ?_) _ _
    rw [he]
    exact (onDisk_homeBlock_iff (by decide) (by omega) (by omega)).mpr rfl

/-- RAID 5, slot `1`, a zero page, disk `1` failed: the hypotheses can be met, and the page comes
back. -/
theorem single_failure_slot_one :
    Quiet (initState 2 (fun _ _ => 1) fun _ _ => 0) ∧
      ∀ disk', AgreeOffDisk 2 1
        (diskSwapWrite 1 0 0 (initState 2 (fun _ _ => 1) fun _ _ => 0)).disk disk' → ∀ b < 4,
      (readAfterFailure 1 0 1 0 0 1 disk' (initState 2 (fun _ _ => 1) fun _ _ => 0)).ram
        (.page 1 b) = fun _ => 0 :=
  ⟨quiet_initState _ _ _,
    (@single_failure_iff 2 1 0 1 1 0 0 (initState 2 (fun _ _ => 1) fun _ _ => 0) (Or.inr rfl)
      (by decide) (by norm_num [IsLevel]) (by norm_num [IsLevel]) (by decide)
      (quiet_initState _ _ _) rfl).1.mpr ⟨⟨rfl, rfl, by decide⟩, rfl, rfl⟩⟩

end Disk

end Xv6
