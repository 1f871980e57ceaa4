import Mathlib.Tactic.IntervalCases
import Xv6.Disk.SwapPage
import Xv6.Lib.Transition

/-!
# File blocks and swap blocks

`balloc` and `bfree` of `kernel/fs.c`, on the same disk image as the swap regions.

The free-block bitmap says nothing about swap: `balloc` returns the first block below `sb.size`
whose bit is clear (`balloc_spec`), and `sb.size` is the size of the whole image, swap regions
included. So a file gets a swap block as soon as all blocks below `SWAP_START` are in use.

The blocks are those that `bread` returns; the log and the buffer cache are left out.

## Main results

* `balloc_avoids_swap_iff` — when a call stays out of the swap regions, and what follows for the
  blocks of files
* `balloc_avoids_swap_counterexample` — a run of `balloc` calls that reaches the swap regions
-/

namespace Xv6

namespace Disk

open Transition

variable {d : ℕ → Block} {sb : Superblock}

/-! ### The bitmap -/

/-- `BPB`: bitmap bits per block. -/
def bpb : ℕ := bsize * 8

@[simp] theorem bpb_eq : bpb = 8192 := rfl
@[simp] theorem bsize_eq : bsize = 1024 := rfl

/-- The fields of `struct superblock` that the allocator reads. -/
structure Superblock where
  size : ℕ
  bmapstart : ℕ

/-- `BBLOCK` -/
def Superblock.bblock (sb : Superblock) (b : ℕ) : ℕ := b / bpb + sb.bmapstart

/-- The byte of a bitmap block that holds bit `bi`. -/
def byteOf (bi : ℕ) : Fin bsize := ⟨bi / 8 % bsize, Nat.mod_lt _ (by decide)⟩

/-- `1 << (bi % 8)` -/
def maskOf (bi : ℕ) : BitVec 8 := 1#8 <<< (bi % 8)

/-- The bit of block `b` is set. -/
def Used (sb : Superblock) (d : ℕ → Block) (b : ℕ) : Prop :=
  d (sb.bblock b) (byteOf (b % bpb)) &&& maskOf (b % bpb) ≠ 0#8

instance (sb : Superblock) (d : ℕ → Block) (b : ℕ) : Decidable (Used sb d b) :=
  inferInstanceAs (Decidable (_ ≠ _))

/-- Update one byte of one block. -/
def setByte (d : ℕ → Block) (blk : ℕ) (j : Fin bsize) (v : BitVec 8) : ℕ → Block :=
  Function.update d blk (Function.update (d blk) j v)

/-! ### The allocator -/

/-- The inner loop of `balloc`, with at most `n` iterations left. -/
def scanBits (size b : ℕ) (data : Block) : ℕ → ℕ → Option ℕ
  | 0, _ => none
  | n + 1, bi =>
    if b + bi < size then
      if data (byteOf bi) &&& maskOf bi = 0#8 then some bi else scanBits size b data n (bi + 1)
    else none

/-- `bzero` -/
def bzero (bno : ℕ) (d : ℕ → Block) : ℕ → Block := Function.update d bno fun _ => 0#8

/-- The outer loop of `balloc`, with at most `n` iterations left. -/
def ballocLoop (sb : Superblock) (d : ℕ → Block) : ℕ → ℕ → ℕ × (ℕ → Block)
  | 0, _ => (0, d)
  | n + 1, b =>
    if b < sb.size then
      match scanBits sb.size b (d (sb.bblock b)) bpb 0 with
      | some bi =>
        (b + bi, bzero (b + bi) (setByte d (sb.bblock b) (byteOf bi)
          (d (sb.bblock b) (byteOf bi) ||| maskOf bi)))
      | none => ballocLoop sb d n (b + bpb)
    else (0, d)

/-- `balloc`: the block number, or `0`. -/
def balloc (sb : Superblock) (d : ℕ → Block) : ℕ × (ℕ → Block) :=
  ballocLoop sb d ((sb.size + bpb - 1) / bpb) 0

/-- `bfree`; `none` is the panic for a free block. -/
def bfree (sb : Superblock) (b : ℕ) (d : ℕ → Block) : Option (ℕ → Block) :=
  let bi := b % bpb
  if d (sb.bblock b) (byteOf bi) &&& maskOf bi = 0#8 then none
  else some (setByte d (sb.bblock b) (byteOf bi) (d (sb.bblock b) (byteOf bi) &&& ~~~maskOf bi))

/-! ### What the allocator returns -/

section

/-- The inner loop looks at the bits of one bitmap block. -/
theorem used_iff {b bi : ℕ} (hb : b % bpb = 0) (hbi : bi < bpb) :
    Used sb d (b + bi) ↔ d (sb.bblock b) (byteOf bi) &&& maskOf bi ≠ 0#8 := by
  simp only [bpb_eq] at hb hbi
  have hdiv : (b + bi) / 8192 = b / 8192 := by omega
  have hmod : (b + bi) % 8192 = bi := by omega
  simp only [Used, Superblock.bblock, bpb_eq, hdiv, hmod]

theorem scanBits_spec {b n bi : ℕ} (hb : b % bpb = 0) (hn : bi + n ≤ bpb) :
    match scanBits sb.size b (d (sb.bblock b)) n bi with
    | some i => bi ≤ i ∧ i < bi + n ∧ b + i < sb.size ∧ ¬ Used sb d (b + i) ∧
        ∀ j, bi ≤ j → j < i → Used sb d (b + j)
    | none => ∀ j, bi ≤ j → j < bi + n → b + j < sb.size → Used sb d (b + j) := by
  induction n generalizing bi with
  | zero =>
    intro j h1 h2
    omega
  | succ n ih =>
    rw [scanBits]
    by_cases hsz : b + bi < sb.size
    · rw [if_pos hsz]
      by_cases hbit : d (sb.bblock b) (byteOf bi) &&& maskOf bi = 0#8
      · rw [if_pos hbit]
        refine ⟨Nat.le_refl _, by omega, hsz, ?_, fun j h1 h2 => by omega⟩
        rw [used_iff hb (by omega)]
        exact not_not.mpr hbit
      · rw [if_neg hbit]
        have hused : Used sb d (b + bi) := (used_iff hb (by omega)).mpr hbit
        have hih := @ih (bi + 1) (by omega)
        split at hih
        · obtain ⟨h1, h2, h3, h4, h5⟩ := hih
          refine ⟨by omega, by omega, h3, h4, fun j hj1 hj2 => ?_⟩
          rcases Nat.eq_or_lt_of_le hj1 with rfl | hlt
          · exact hused
          · exact h5 j hlt hj2
        · intro j hj1 hj2 hj3
          rcases Nat.eq_or_lt_of_le hj1 with rfl | hlt
          · exact hused
          · exact hih j hlt (by omega) hj3
    · rw [if_neg hsz]
      intro j hj1 hj2 hj3
      omega

/-- The disk after `balloc` has taken block `b`. -/
def taken (sb : Superblock) (b : ℕ) (d : ℕ → Block) : ℕ → Block :=
  bzero b (setByte d (sb.bblock b) (byteOf (b % bpb))
    (d (sb.bblock b) (byteOf (b % bpb)) ||| maskOf (b % bpb)))

/-- `balloc` from block `b` on returns the first free block, if there is one. -/
theorem ballocLoop_spec {n b : ℕ} (hb : b % bpb = 0) (hn : sb.size ≤ b + n * bpb) :
    (∃ x, b ≤ x ∧ x < sb.size ∧ ¬ Used sb d x ∧ (∀ y, b ≤ y → y < x → Used sb d y) ∧
      ballocLoop sb d n b = (x, taken sb x d)) ∨
    ((∀ y, b ≤ y → y < sb.size → Used sb d y) ∧ ballocLoop sb d n b = (0, d)) := by
  induction n generalizing b with
  | zero => exact Or.inr ⟨fun y h1 h2 => by omega, rfl⟩
  | succ n ih =>
    rw [ballocLoop]
    by_cases hsz : b < sb.size
    · rw [if_pos hsz]
      have hscan := @scanBits_spec d sb b bpb 0 hb (by omega)
      split at hscan
      · rename_i i hi
        obtain ⟨-, hlt, hsize, hfree, hbefore⟩ := hscan
        refine Or.inl ⟨b + i, by omega, hsize, hfree, fun y h1 h2 => ?_, ?_⟩
        · obtain ⟨j, rfl⟩ := Nat.exists_eq_add_of_le h1
          exact hbefore j (Nat.zero_le _) (by omega)
        · simp only [bpb_eq] at hb hlt
          have hmod : (b + i) % 8192 = i := by omega
          have hblk : sb.bblock (b + i) = sb.bblock b := by
            simp only [Superblock.bblock, bpb_eq]
            omega
          simp only [taken, bpb_eq, hmod, hblk]
      · have hall : ∀ y, b ≤ y → y < b + bpb → y < sb.size → Used sb d y := fun y h1 h2 h3 => by
          obtain ⟨j, rfl⟩ := Nat.exists_eq_add_of_le h1
          exact hscan j (Nat.zero_le _) (by omega) h3
        rcases @ih (b + bpb) (by simp only [bpb_eq] at hb ⊢; omega)
          (by rw [Nat.succ_mul] at hn; omega) with ⟨x, h1, h2, h3, h4, h5⟩ | ⟨h1, h2⟩
        · refine Or.inl ⟨x, by omega, h2, h3, fun y hy1 hy2 => ?_, h5⟩
          by_cases hy : y < b + bpb
          · exact hall y hy1 hy (by omega)
          · exact h4 y (by omega) hy2
        · refine Or.inr ⟨fun y hy1 hy2 => ?_, h2⟩
          by_cases hy : y < b + bpb
          · exact hall y hy1 hy hy2
          · exact h1 y (by omega) hy2
    · rw [if_neg hsz]
      exact Or.inr ⟨fun y h1 h2 => by omega, rfl⟩

/-- **`balloc`** takes the first free block of the image; without one it returns `0`. -/
theorem balloc_spec (sb : Superblock) (d : ℕ → Block) :
    (∃ x < sb.size, ¬ Used sb d x ∧ (∀ y < x, Used sb d y) ∧ balloc sb d = (x, taken sb x d)) ∨
    ((∀ y < sb.size, Used sb d y) ∧ balloc sb d = (0, d)) := by
  have hn : sb.size ≤ 0 + (sb.size + bpb - 1) / bpb * bpb := by
    simp only [bpb_eq]
    omega
  rcases @ballocLoop_spec d sb _ 0 rfl hn with ⟨x, -, h1, h2, h3, h4⟩ | ⟨h1, h2⟩
  · exact Or.inl ⟨x, h1, h2, fun y hy => h3 y (Nat.zero_le _) hy, h4⟩
  · exact Or.inr ⟨fun y hy => h1 y (Nat.zero_le _) hy, h2⟩

end

/-! ### Files and swap -/

/-- A real block of one of the three swap regions. -/
def InSwap (b : ℕ) : Prop := swapStart ≤ b ∧ b < swapStart + 3 * nswapblocksPerMode

instance (b : ℕ) : Decidable (InSwap b) := inferInstanceAs (Decidable (_ ∧ _))

/-- The next block that `balloc` takes is not a swap block: one below the swap regions is free, or
none in them is. -/
def RoomBelow (sb : Superblock) (d : ℕ → Block) : Prop :=
  (∃ b < swapStart, ¬ Used sb d b) ∨ ∀ b, InSwap b → Used sb d b

/-- Everything that `disk_swap_write` writes is in the swap regions. -/
theorem inSwap_of_touched {mode priority : ℤ} {slot page x : ℕ} (hslot : slot < nswapspace)
    (hx : x ∈ touchedBlocks (writePageOps mode slot page priority)) : InSwap x := by
  obtain ⟨r, hr, rfl⟩ := List.mem_map.mp hx
  obtain ⟨h1, h2⟩ := (pageBatch_writePageOps mode page priority hslot).region r hr
  have hm := modeUsed_le mode
  generalize modeUsed mode = m at h1 h2 hm
  simp only [InSwap, swapStart_eq, nswapblocksPerMode_eq] at h1 h2 ⊢
  interval_cases m <;> omega

/-- One call, on any bitmap. -/
theorem balloc_notInSwap_iff (hsize : sb.size = fssize) (d : ℕ → Block) :
    ((balloc sb d).1 ≠ 0 → ¬ InSwap (balloc sb d).1) ↔ RoomBelow sb d := by
  have hin : ∀ b, InSwap b → b < sb.size := fun b hb => by
    simp only [InSwap, swapStart_eq, nswapblocksPerMode_eq, hsize, fssize_eq] at hb ⊢
    omega
  rcases balloc_spec sb d with ⟨x, hx, hfree, hused, he⟩ | ⟨hall, he⟩
  · rw [he]
    constructor
    · intro h
      by_cases hlow : x < swapStart
      · exact Or.inl ⟨x, hlow, hfree⟩
      · right
        intro b hb
        by_contra hb'
        have hne : x ≠ 0 := by
          simp only [swapStart_eq] at hlow
          omega
        have hle : x ≤ b := not_lt.mp fun hlt => hb' (hused b hlt)
        refine h hne ⟨not_lt.mp hlow, ?_⟩
        exact hle.trans_lt hb.2
    · rintro (⟨b, hb, hb'⟩ | hall) - hsw
      · have hle : x ≤ b := not_lt.mp fun hlt => hb' (hused b hlt)
        have := hsw.1
        omega
      · exact hfree (hall x hsw)
  · rw [he]
    exact iff_of_true (fun h => absurd rfl h) (Or.inr fun b hb => hall b (hin b hb))

/-- The disk and the blocks that files own. -/
structure Files where
  disk : ℕ → Block
  owned : List ℕ

/-- The calls of the file system. -/
inductive FileOp where
  | balloc
  | bfree (b : ℕ)
  deriving DecidableEq

/-- A file gets the block that `balloc` returns, and gives back blocks that it owns. -/
def Files.step (sb : Superblock) (f : Files) : FileOp → Option Files
  | .balloc =>
    let r := Disk.balloc sb f.disk
    some ⟨r.2, if r.1 = 0 then f.owned else r.1 :: f.owned⟩
  | .bfree b =>
    if b ∈ f.owned then (Disk.bfree sb b f.disk).map fun d => ⟨d, f.owned.erase b⟩ else none

/-- **When files stay out of the swap regions.** For every bitmap, a non-zero block that `balloc`
returns is outside of the swap regions exactly if a block below them is free or none in them is. In
every run of `balloc` and `bfree` in which each `balloc` meets this condition no file owns a swap
block, and no `disk_swap_write` changes a block that a file owns. -/
theorem balloc_avoids_swap_iff {sb : Superblock} (hsize : sb.size = fssize) :
    (∀ d, ((balloc sb d).1 ≠ 0 → ¬ InSwap (balloc sb d).1) ↔ RoomBelow sb d) ∧
    ∀ ops f f', (∀ b ∈ f.owned, ¬ InSwap b) →
      Meets (Files.step sb) (fun f op => op = .balloc → RoomBelow sb f.disk) ops f →
      run (Files.step sb) ops f = some f' → ∀ b ∈ f'.owned, ¬ InSwap b ∧
        ∀ slot page priority (s : DiskState), slot < nswapspace → IsLevel priority → Quiet s →
          (diskSwapWrite slot page priority s).disk b = s.disk b := by
  refine ⟨balloc_notInSwap_iff hsize, fun ops f f' hf hC hrun b hb => ?_⟩
  have hsafe : ∀ b ∈ f'.owned, ¬ InSwap b := by
    refine run_invariant (P := fun f => ∀ b ∈ f.owned, ¬ InSwap b) (fun t op t' ht hop hstep => ?_)
      hf hC hrun
    cases op with
    | balloc =>
      obtain rfl := Option.some.inj hstep
      intro b hb
      by_cases h0 : (balloc sb t.disk).1 = 0
      · rw [if_pos h0] at hb
        exact ht b hb
      · rw [if_neg h0, List.mem_cons] at hb
        rcases hb with rfl | hb
        · exact (balloc_notInSwap_iff hsize t.disk).mpr (hop rfl) h0
        · exact ht b hb
    | bfree c =>
      rw [Files.step] at hstep
      split at hstep
      · obtain ⟨d, -, rfl⟩ := Option.map_eq_some_iff.mp hstep
        exact fun b hb => ht b (List.mem_of_mem_erase hb)
      · cases hstep
  refine ⟨hsafe b hb, fun slot page priority s hslot hp hs => ?_⟩
  refine (diskSwapWrite_spec page hslot hp hs).disk_of_notMem fun r hr he => hsafe b hb ?_
  rw [← he]
  exact inSwap_of_touched hslot (List.mem_map.mpr ⟨r, hr, rfl⟩)

/-! ### Reaching the swap regions -/

theorem and_maskOf_ne_zero (v : BitVec 8) (bi : ℕ) :
    v &&& maskOf bi ≠ 0#8 ↔ v.getLsbD (bi % 8) = true := by
  have hlt : bi % 8 < 8 := Nat.mod_lt _ (by omega)
  have hmask : maskOf bi = BitVec.twoPow 8 (bi % 8) := by
    rw [maskOf, BitVec.twoPow_eq]
  have hne : BitVec.twoPow 8 (bi % 8) ≠ 0#8 := by
    generalize bi % 8 = i at hlt
    interval_cases i <;> decide
  rw [hmask, BitVec.and_twoPow]
  split
  · exact iff_of_true hne ‹_›
  · exact iff_of_false (not_not.mpr rfl) ‹_›

theorem getLsbD_maskOf (bi bi' : ℕ) :
    (maskOf bi).getLsbD (bi' % 8) = decide (bi % 8 = bi' % 8) := by
  have h : bi % 8 < 8 := Nat.mod_lt _ (by omega)
  have h' : bi' % 8 < 8 := Nat.mod_lt _ (by omega)
  rw [maskOf]
  generalize bi % 8 = i at h
  generalize bi' % 8 = j at h'
  interval_cases i <;> interval_cases j <;> decide

/-- The bitmap after `balloc` has taken block `x`, at a block whose bit is not in `x` itself. -/
theorem used_taken {x b : ℕ} (hb : sb.bblock b ≠ x) :
    Used sb (taken sb x d) b ↔ Used sb d b ∨ b = x := by
  simp only [Used, and_maskOf_ne_zero, taken, bzero, Function.update_of_ne hb, setByte]
  by_cases hblk : sb.bblock b = sb.bblock x
  · rw [hblk, Function.update_self]
    by_cases hbyte : byteOf (b % bpb) = byteOf (x % bpb)
    · rw [hbyte, Function.update_self, BitVec.getLsbD_or, getLsbD_maskOf, Bool.or_eq_true,
        decide_eq_true_eq]
      refine or_congr_right ?_
      simp only [byteOf, Fin.mk.injEq, Superblock.bblock, bpb_eq, bsize_eq] at hblk hbyte ⊢
      omega
    · rw [Function.update_of_ne hbyte]
      exact (or_iff_left fun he => hbyte (by rw [he])).symm
  · rw [Function.update_of_ne hblk]
    exact (or_iff_left fun he => hblk (by rw [he])).symm

/-- Exactly the blocks below `n` are used. -/
def UsedBelow (sb : Superblock) (d : ℕ → Block) (n : ℕ) : Prop :=
  ∀ b < sb.size, Used sb d b ↔ b < n

/-- `balloc` takes the blocks in order, as long as none is freed. -/
theorem UsedBelow.balloc {n : ℕ} (h : UsedBelow sb d n) (hn : n < sb.size)
    (hmap : ∀ b < sb.size, sb.bblock b < n) :
    (Disk.balloc sb d).1 = n ∧ UsedBelow sb (Disk.balloc sb d).2 (n + 1) := by
  have hfree : ¬ Used sb d n := fun hu => absurd ((h n hn).mp hu) (lt_irrefl n)
  rcases balloc_spec sb d with ⟨x, hx, hfree', hused, he⟩ | ⟨hall, -⟩
  · have hxn : x = n := by
      rcases Nat.lt_trichotomy x n with hlt | heq | hgt
      · exact absurd ((h x hx).mpr hlt) hfree'
      · exact heq
      · exact absurd (hused n hgt) hfree
    subst hxn
    rw [he]
    refine ⟨rfl, fun b hb => ?_⟩
    rw [used_taken (hmap b hb).ne, h b hb]
    omega
  · exact absurd (hall n hn) hfree

/-- A run of `balloc` calls takes the blocks in order. -/
theorem UsedBelow.run {n k : ℕ} {f : Files} (h : UsedBelow sb f.disk n) (h0 : n ≠ 0)
    (hk : n + k ≤ sb.size) (hmap : ∀ b < sb.size, sb.bblock b < n) :
    ∃ f', Transition.run (Files.step sb) (List.replicate k .balloc) f = some f' ∧
      UsedBelow sb f'.disk (n + k) ∧ ∀ b, n ≤ b → b < n + k → b ∈ f'.owned := by
  induction k with
  | zero => exact ⟨f, rfl, h, fun b h1 h2 => by omega⟩
  | succ k ih =>
    obtain ⟨f', hrun, hused, howned⟩ := ih (by omega)
    obtain ⟨hret, hnext⟩ := hused.balloc (by omega) fun b hb => (hmap b hb).trans_le (by omega)
    refine ⟨⟨(Disk.balloc sb f'.disk).2, (n + k) :: f'.owned⟩, ?_, hnext, fun b h1 h2 => ?_⟩
    · rw [List.replicate_succ', run_append, hrun]
      simp [Transition.run, Files.step, hret, h0]
    · rcases Nat.lt_or_ge b (n + k) with hlt | hge
      · exact List.mem_cons_of_mem _ (howned b h1 hlt)
      · rw [show b = n + k by omega]
        exact List.mem_cons_self

/-- The image as `mkfs` leaves it, with 61 metadata blocks: boot block, superblock, 31 log blocks,
13 inode blocks, 15 bitmap blocks. -/
def imageSb : Superblock := ⟨fssize, 46⟩

/-- The bitmap of that image. -/
def imageDisk : ℕ → Block := fun blk j =>
  if blk = 46 then (if j.val < 7 then 0xFF#8 else if j.val = 7 then 0x1F#8 else 0#8) else 0#8

theorem usedBelow_image : UsedBelow imageSb imageDisk 61 := by
  intro b hb
  simp only [imageSb, fssize_eq] at hb
  by_cases hsmall : b < 64
  · have hall : ∀ b < 64, Used imageSb imageDisk b ↔ b < 61 := by decide
    exact hall b hsmall
  · refine iff_of_false (not_not.mpr ?_) (by omega)
    have hzero : imageDisk (imageSb.bblock b) (byteOf (b % bpb)) = 0#8 := by
      have hbyte : (byteOf (b % bpb)).val = b % 8192 / 8 % 1024 := rfl
      have hbblock : imageSb.bblock b = b / 8192 + 46 := rfl
      rw [imageDisk]
      by_cases hblk : imageSb.bblock b = 46
      · rw [hbblock] at hblk
        rw [if_pos (hbblock.trans hblk), if_neg (by omega), if_neg (by omega)]
      · rw [if_neg hblk]
    rw [hzero, BitVec.zero_and]

/-- After 19940 `balloc` calls on a fresh image a file owns the first block of slot 0. -/
theorem balloc_avoids_swap_counterexample :
    UsedBelow imageSb imageDisk 61 ∧
    ∃ f', run (Files.step imageSb) (List.replicate 19940 .balloc) ⟨imageDisk, []⟩ = some f' ∧
      20000 ∈ f'.owned ∧ InSwap 20000 ∧ 20000 ∈ touchedBlocks (writePageOps 0 0 0 0) := by
  have hmap : ∀ b < imageSb.size, imageSb.bblock b < 61 := fun b hb => by
    simp only [imageSb, fssize_eq, Superblock.bblock, bpb_eq] at hb ⊢
    omega
  obtain ⟨f', hrun, -, howned⟩ := usedBelow_image.run (f := ⟨imageDisk, []⟩) (k := 19940)
    (by decide) (by decide) hmap
  exact ⟨usedBelow_image, f', hrun, howned 20000 (by decide) (by decide), by decide, by decide⟩

/-- On the fresh image the condition holds, and the first block that a file gets is block 61. -/
theorem balloc_avoids_swap_image :
    RoomBelow imageSb imageDisk ∧
    ∃ f', run (Files.step imageSb) [.balloc] ⟨imageDisk, []⟩ = some f' ∧
      61 ∈ f'.owned ∧ ∀ b ∈ f'.owned, ¬ InSwap b := by
  have hroom : RoomBelow imageSb imageDisk :=
    Or.inl ⟨61, by decide, fun hu => absurd ((usedBelow_image 61 (by decide)).mp hu) (by decide)⟩
  have hmap : ∀ b < imageSb.size, imageSb.bblock b < 61 := fun b hb => by
    simp only [imageSb, fssize_eq, Superblock.bblock, bpb_eq] at hb ⊢
    omega
  obtain ⟨f', hrun, -, howned⟩ := usedBelow_image.run (f := ⟨imageDisk, []⟩) (k := 1)
    (by decide) (by decide) hmap
  have hsafe := (@balloc_avoids_swap_iff imageSb rfl).2 [.balloc] ⟨imageDisk, []⟩ f' (by simp)
    ⟨fun _ => hroom, fun _ _ => trivial⟩ hrun
  exact ⟨hroom, f', hrun, howned 61 (by decide) (by decide), fun b hb => (hsafe b hb).1⟩

end Disk

end Xv6
