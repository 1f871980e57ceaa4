import Xv6.Disk.SwapPage

/-!
# Histories of swap calls

Sequences of calls on the swap disk, executed one at a time, in which the RAID mode and the
scheduling policy change freely and memory is overwritten between calls.

The driver records the mode under which each slot was written and reads it back under that mode.
RAID 0 stripes different slots over different real blocks, and the regions of the three modes are
disjoint; so what a slot written in mode `0` holds is disturbed only by the next write to that
slot. `Holds` is the invariant, `Holds.exec` its preservation by one call.

## Main results

* `raid0_faithful` — a slot written in mode `0` reads back what was written, after any history
* `Call.exec_trace` — which real blocks a call touches
-/

namespace Xv6

namespace Disk

variable {blocks : ℕ → Block} {c : Call} {cs : List Call} {priority : ℤ} {s : DiskState} {slot : ℕ}

/-! ### Calls -/

/-- One event of a history. -/
inductive Call where
  /-- The page at `pa` is overwritten by whoever owns it. -/
  | store (pa : ℕ) (blocks : ℕ → Block)
  | write (slot page : ℕ) (priority : ℤ)
  | read (slot page : ℕ) (priority : ℤ)
  | setRaidMode (mode : ℤ)
  | setdisksched (policy : ℤ)

/-- Overwrite a page of memory. -/
def storePage (pa : ℕ) (blocks : ℕ → Block) (s : DiskState) : DiskState :=
  { s with ram := fun
      | .page pa' b => if pa' = pa then blocks b else s.ram (.page pa' b)
      | .parityBuf => s.ram .parityBuf }

/-- Execute one event. -/
def Call.exec : Call → DiskState → DiskState
  | .store pa blocks, s => storePage pa blocks s
  | .write slot page priority, s => diskSwapWrite slot page priority s
  | .read slot page priority, s => diskSwapRead slot page priority s
  | .setRaidMode mode, s => Disk.setRaidMode mode s
  | .setdisksched policy, s => (Disk.setdisksched policy s).2

/-- Execute a history. -/
def run (cs : List Call) (s : DiskState) : DiskState := cs.foldl (fun s c => c.exec s) s

/-- The arguments the callers pass: existing slots, MLFQ levels, and the values that
`sys_setraidmode` and `setdisksched` accept. -/
def Call.Ok : Call → Prop
  | .store _ _ => True
  | .write slot _ priority => slot < nswapspace ∧ IsLevel priority
  | .read slot _ priority => slot < nswapspace ∧ IsLevel priority
  | .setRaidMode mode => mode = 0 ∨ mode = 1 ∨ mode = 2
  | .setdisksched policy => policy = 0 ∨ policy = 1

/-- The call is a write to the slot. -/
def Call.WritesSlot (slot : ℕ) : Call → Prop
  | .write slot' _ _ => slot' = slot
  | _ => False

/-- The mode whose region a call uses. -/
def Call.regionOf (s : DiskState) : Call → ℕ
  | .write _ _ _ => modeUsed s.raidMode
  | .read slot _ _ => modeUsed (s.slotRaidMode slot)
  | _ => 0

/-! ### One call -/

theorem Call.exec_quiet (hc : c.Ok) (hs : Quiet s) : Quiet (c.exec s) := by
  cases c with
  | store pa blocks => exact ⟨hs.empty, hs.head⟩
  | write slot page priority => exact (diskSwapWrite_spec _ hc.1 hc.2 hs).quiet
  | read slot page priority => exact (diskSwapRead_spec _ hc.1 hc.2 hs).quiet
  | setRaidMode mode => exact ⟨hs.empty, hs.head⟩
  | setdisksched policy =>
    obtain ⟨pol, he⟩ := setdisksched_eq policy s
    rw [Call.exec, he]
    exact ⟨hs.empty, hs.head⟩

theorem run_quiet (hcs : ∀ c ∈ cs, c.Ok) (hs : Quiet s) : Quiet (run cs s) := by
  induction cs generalizing s with
  | nil => exact hs
  | cons c cs ih =>
    exact ih (fun c hc => hcs c (List.mem_cons_of_mem _ hc))
      (Call.exec_quiet (hcs c List.mem_cons_self) hs)

/-- **Every real block a call touches is in the region of the mode it uses.** -/
theorem Call.exec_trace (hc : c.Ok) (hs : Quiet s) :
    ∃ order, (c.exec s).trace = s.trace ++ order ∧
      ∀ r ∈ order, InRegion (c.regionOf s) r.blockno := by
  cases c with
  | store pa blocks => exact ⟨[], (List.append_nil _).symm, by simp⟩
  | write slot page priority =>
    obtain ⟨order, ht, hp⟩ := (diskSwapWrite_spec page hc.1 hc.2 hs).trace
    exact ⟨order, ht, fun r hr => (pageBatch_writePageOps _ _ _ hc.1).region r (hp.mem_iff.mp hr)⟩
  | read slot page priority =>
    obtain ⟨order, ht, hp⟩ := (diskSwapRead_spec page hc.1 hc.2 hs).trace
    exact ⟨order, ht, fun r hr => (pageBatch_readPageOps _ _ _ hc.1).region r (hp.mem_iff.mp hr)⟩
  | setRaidMode mode => exact ⟨[], (List.append_nil _).symm, by simp⟩
  | setdisksched policy =>
    obtain ⟨pol, he⟩ := setdisksched_eq policy s
    exact ⟨[], by rw [Call.exec, he, List.append_nil], by simp⟩

theorem Call.regionOf_le (c : Call) (s : DiskState) : c.regionOf s ≤ 2 := by
  cases c with
  | write slot page priority => exact modeUsed_le _
  | read slot page priority => exact modeUsed_le _
  | _ => exact Nat.zero_le _

/-! ### What a slot written in mode `0` holds -/

/-- The slot was last written in mode `0`, and its home blocks hold `blocks`. -/
structure Holds (slot : ℕ) (blocks : ℕ → Block) (s : DiskState) : Prop where
  quiet : Quiet s
  mode : s.slotRaidMode slot = 0
  home : ∀ b < 4, s.disk (homeBlock 0 slot b) = blocks b

theorem reqs_raid0WritePage (slot page : ℕ) (priority : ℤ) :
    reqs (raid0WritePage slot page priority) = (List.range 4).map fun b =>
      ⟨homeBlock 0 slot b, true, priority, .page page b⟩ :=
  reqs_stripedPage 0 true slot page priority

/-- Writing a slot in mode `0` establishes `Holds`. -/
theorem holds_diskSwapWrite (page : ℕ) (hslot : slot < nswapspace) (hp : IsLevel priority)
    (hs : Quiet s) (hmode : s.raidMode = 0) :
    Holds slot (fun b => s.ram (.page page b)) (diskSwapWrite slot page priority s) := by
  have hw := diskSwapWrite_spec page hslot hp hs
  refine ⟨hw.quiet, by rw [hw.slotRaidMode, Function.update_self, hmode], fun b hb => ?_⟩
  have hops : writePageOps s.raidMode slot page priority = raid0WritePage slot page priority := by
    rw [hmode]; rfl
  rw [hw.disk, hops, reqs_raid0WritePage, blockWrites, List.map_map]
  refine WriteLog.applyWrites_apply_of_mem ?_ ?_ _
  · rw [List.map_map]
    refine List.Nodup.map_on (fun b hb b' hb' he => ?_) List.nodup_range
    have he' : homeBlock 0 slot b = homeBlock 0 slot b' := he
    exact ((homeBlock_inj (by omega) (by omega) hslot hslot (List.mem_range.mp hb)
      (List.mem_range.mp hb')).mp he').2.1
  · refine List.mem_map.mpr ⟨b, List.mem_range.mpr hb, ?_⟩
    simp

/-- A write to another slot, in any mode, does not touch the home blocks of the slot. -/
theorem homeBlock_notMem_writePageOps {mode : ℤ} {slot' page b : ℕ} (hs : slot < nswapspace)
    (hs' : slot' < nswapspace) (hne : slot' ≠ slot) (hb : b < 4) :
    ∀ r ∈ reqs (writePageOps mode slot' page priority), r.blockno ≠ homeBlock 0 slot b := by
  intro r hr he
  have hreg := (pageBatch_writePageOps _ _ _ hs').region r hr
  rw [he] at hreg
  have hm : modeUsed mode = 0 := hreg.mode_eq (inRegion_homeBlock hs hb)
  -- only mode `0` is left, and it stripes the other slot elsewhere
  rcases mode_cases mode slot' page priority with ⟨-, h, -⟩ | ⟨-, h, -⟩ | ⟨-, hops, -⟩
  · omega
  · omega
  · rw [hops, reqs_raid0WritePage] at hr
    obtain ⟨b', hb', rfl⟩ := List.mem_map.mp hr
    have he' : homeBlock 0 slot' b' = homeBlock 0 slot b := he
    exact hne ((homeBlock_inj (by omega) (by omega) hs' hs (List.mem_range.mp hb') hb).mp he').2.2

/-- **One call preserves what the slot holds**, unless it writes the slot. -/
theorem Holds.exec (h : Holds slot blocks s) (hslot : slot < nswapspace) (hc : c.Ok)
    (hw : ¬ c.WritesSlot slot) : Holds slot blocks (c.exec s) := by
  refine ⟨Call.exec_quiet hc h.quiet, ?_, fun b hb => ?_⟩
  · cases c with
    | store pa blocks => exact h.mode
    | write slot' page priority =>
      rw [Call.exec, (diskSwapWrite_spec _ hc.1 hc.2 h.quiet).slotRaidMode,
        Function.update_of_ne (Ne.symm hw)]
      exact h.mode
    | read slot' page priority =>
      rw [Call.exec, (diskSwapRead_spec _ hc.1 hc.2 h.quiet).slotRaidMode]
      exact h.mode
    | setRaidMode mode => exact h.mode
    | setdisksched policy =>
      obtain ⟨pol, he⟩ := setdisksched_eq policy s
      rw [Call.exec, he]
      exact h.mode
  · cases c with
    | store pa blocks => exact h.home b hb
    | write slot' page priority =>
      rw [Call.exec, (diskSwapWrite_spec _ hc.1 hc.2 h.quiet).disk_of_notMem
        (homeBlock_notMem_writePageOps hslot hc.1 hw hb)]
      exact h.home b hb
    | read slot' page priority =>
      rw [Call.exec, (diskSwapRead_spec _ hc.1 hc.2 h.quiet).disk]
      exact h.home b hb
    | setRaidMode mode => exact h.home b hb
    | setdisksched policy =>
      obtain ⟨pol, he⟩ := setdisksched_eq policy s
      rw [Call.exec, he]
      exact h.home b hb

/-- A history without a write to the slot preserves what it holds. -/
theorem Holds.run (h : Holds slot blocks s) (hslot : slot < nswapspace) (hcs : ∀ c ∈ cs, c.Ok)
    (hw : ∀ c ∈ cs, ¬ c.WritesSlot slot) : Holds slot blocks (Disk.run cs s) := by
  induction cs generalizing s with
  | nil => exact h
  | cons c cs ih =>
    exact ih (h.exec hslot (hcs c List.mem_cons_self) (hw c List.mem_cons_self))
      (fun c hc => hcs c (List.mem_cons_of_mem _ hc))
      (fun c hc => hw c (List.mem_cons_of_mem _ hc))

/-- **RAID 0 is a faithful slot store.** From any quiet state, over any history in which the last
write to the slot happened in mode `0`, the slot reads back as it was written; and at every point
of every history each call touches only real blocks of the swap area, in the region of the mode it
uses. -/
theorem raid0_faithful {s₀ : DiskState} {before after : List Call} {slot page buf : ℕ}
    {priority priority' : ℤ} (h₀ : Quiet s₀) (hbefore : ∀ c ∈ before, c.Ok)
    (hafter : ∀ c ∈ after, c.Ok) (hslot : slot < nswapspace) (hp : IsLevel priority)
    (hp' : IsLevel priority') (hmode : (run before s₀).raidMode = 0)
    (hlast : ∀ c ∈ after, ¬ c.WritesSlot slot) :
    (∀ b < 4, (diskSwapRead slot buf priority'
        (run after (diskSwapWrite slot page priority (run before s₀)))).ram (.page buf b)
          = (run before s₀).ram (.page page b)) ∧
      ∀ (cs : List Call) (c : Call), (∀ c' ∈ cs, c'.Ok) → c.Ok →
        ∃ order, (c.exec (run cs s₀)).trace = (run cs s₀).trace ++ order ∧
          ∀ r ∈ order, InRegion (c.regionOf (run cs s₀)) r.blockno ∧ swapStart ≤ r.blockno ∧
            r.blockno < swapStart + 3 * nswapblocksPerMode := by
  constructor
  · intro b hb
    have hh := (holds_diskSwapWrite page hslot hp (run_quiet hbefore h₀) hmode).run hslot
      hafter hlast
    rw [(diskSwapRead_spec _ hslot hp' hh.quiet).buffer hb, hh.mode]
    exact hh.home b hb
  · intro cs c hcs hc
    obtain ⟨order, ht, hr⟩ := Call.exec_trace hc (run_quiet hcs h₀)
    refine ⟨order, ht, fun r hmem => ?_⟩
    have hreg := hr r hmem
    have hle := c.regionOf_le (run cs s₀)
    refine ⟨hreg, ?_⟩
    simp only [InRegion, swapStart_eq, nswapblocksPerMode_eq] at hreg ⊢
    omega

/-- A page written in mode `0` survives a switch to mode `2` and a write to a neighbouring slot
under SSTF. -/
theorem raid0_faithful_mode_switch :
    Quiet (initState 0 (fun _ _ => 1) onesLast) ∧
      ∀ b < 4, (diskSwapRead 0 1 0 (run [.setRaidMode 2, .setdisksched 1, .write 1 7 3]
        (diskSwapWrite 0 0 0 (run [] (initState 0 (fun _ _ => 1) onesLast))))).ram (.page 1 b)
          = onesLast (.page 0 b) :=
  ⟨quiet_initState _ _ _,
    (raid0_faithful (quiet_initState _ _ _) (by simp) (by simp [Call.Ok, IsLevel]) (by decide)
      (by norm_num [IsLevel]) (by norm_num [IsLevel]) rfl (by simp [Call.WritesSlot])).1⟩

end Disk

end Xv6
