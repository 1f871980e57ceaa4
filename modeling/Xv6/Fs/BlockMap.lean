import Xv6.Fs.Inode
import Xv6.Lib.Owners

/-!
# Where the blocks of a file are

An inode refers to its blocks by 269 *slots*: twelve direct addresses, the address of the indirect
block, and the 256 addresses that the indirect block holds. `slotAddr` reads one; zero means that
there is no block. A volume is well formed (`Wf`) when the bitmap and the slots of all inodes agree
(`Owners.Exact`): a block is marked as used exactly when it is in the metadata or is the address
in one slot of one inode.

`bmap` takes at most two blocks. Each of them is taken for one slot that was empty (`Takes`), and
this is all that later proofs need to know about it: the other slots of the file, the blocks of the
other files and the inode blocks stay as they were (`Extends`).

## Main results

* `Takes.wf`, `Takes.extends` — one block taken for one slot
* `bmap_spec` — `bmap` in a well-formed volume
-/

namespace Xv6

namespace Fs

open Disk (Block Used)
open Function (update update_self update_of_ne)

variable {b bn k x : ℕ} {blocks blocks' : ℕ → Block} {ip ip' : Inode} {v v' : Vol}

/-! ### The regions of the disk -/

/-- The order of the regions that `mkfs` lays out: the inode blocks end before the bitmap, the
bitmap before the data blocks. -/
structure Geometry (sb : Superblock) where
  ninodes : ℕ
  datastart : ℕ
  datastart_pos : 0 < datastart
  inodestart_pos : 0 < sb.inodestart
  iblock_lt : ∀ inum < ninodes, sb.iblock inum < sb.bmapstart
  bblock_lt : ∀ b < sb.size, sb.bblock b < datastart
  size_lt : sb.size < 2 ^ 32

/-- A block of the image whose bit is set. -/
def InUse (sb : Superblock) (blocks : ℕ → Block) (b : ℕ) : Prop :=
  b < sb.size ∧ Used sb.toSuperblock blocks b

/-- No bit of the bitmap is in block `b`. -/
def OffBitmap (sb : Superblock) (b : ℕ) : Prop := ∀ c < sb.size, sb.bblock c ≠ b

/-- No block is free. -/
def Full (sb : Superblock) (blocks : ℕ → Block) : Prop :=
  ∀ b < sb.size, Used sb.toSuperblock blocks b

section

variable {sb : Superblock}

theorem Geometry.offBitmap (g : Geometry sb) (hb : g.datastart ≤ b) : OffBitmap sb b := by
  intro c hc he
  have := g.bblock_lt c hc
  omega

theorem offBitmap_of_lt (hb : b < sb.bmapstart) : OffBitmap sb b := by
  intro c _ he
  have hle : sb.bmapstart ≤ sb.bblock c := Nat.le_add_left _ _
  omega

/-- Which blocks are in use is written in the bitmap blocks only. -/
theorem inUse_congr (h : ∀ c < sb.size, blocks' (sb.bblock c) = blocks (sb.bblock c)) (b : ℕ) :
    InUse sb blocks' b ↔ InUse sb blocks b := by
  refine and_congr_right fun hb => ?_
  rw [Used, Used, h b hb]

theorem inUse_update {a : ℕ} (ha : OffBitmap sb a) (x : Block) (b : ℕ) :
    InUse sb (update blocks a x) b ↔ InUse sb blocks b :=
  inUse_congr (fun c hc => update_of_ne (ha c hc) _ _) b

end

/-! ### The slots of an inode -/

/-- The number of slots. -/
def nslots : ℕ := ndirect + 1 + nindirect

@[simp] theorem nslots_eq : nslots = 269 := rfl

/-- The block address in slot `k`: direct addresses, the indirect block, its entries. -/
def slotAddr (blocks : ℕ → Block) (ip : Inode) (k : ℕ) : ℕ :=
  if k ≤ ndirect then ip.addr k
  else if ip.addr ndirect = 0 then 0
  else (word (blocks (ip.addr ndirect)) (k - (ndirect + 1))).toNat

/-- The slot of block `bn` of a file. -/
def slotOf (bn : ℕ) : ℕ := if bn < ndirect then bn else bn + 1

/-- The address of block `bn` of a file. -/
def blockOf (blocks : ℕ → Block) (ip : Inode) (bn : ℕ) : ℕ := slotAddr blocks ip (slotOf bn)

theorem slotOf_lt (h : bn < maxfile) : slotOf bn < nslots := by
  rw [maxfile_eq] at h
  rw [slotOf, nslots_eq]
  split_ifs <;> omega

theorem slotOf_ne (bn : ℕ) : slotOf bn ≠ ndirect := by
  rw [slotOf]
  split_ifs <;> omega

theorem slotOf_inj {a : ℕ} (h : slotOf a = slotOf b) : a = b := by
  unfold slotOf at h
  split at h <;> split at h <;> omega

theorem slotAddr_of_le (blocks : ℕ → Block) (ip : Inode) (hk : k ≤ ndirect) :
    slotAddr blocks ip k = ip.addr k :=
  if_pos hk

theorem slotAddr_of_zero (blocks : ℕ → Block) (hk : ndirect < k) (h : ip.addr ndirect = 0) :
    slotAddr blocks ip k = 0 := by
  rw [slotAddr, if_neg (Nat.not_le.mpr hk), if_pos h]

theorem slotAddr_entry (blocks : ℕ → Block) (hk : ndirect < k) (h : ip.addr ndirect ≠ 0) :
    slotAddr blocks ip k = (word (blocks (ip.addr ndirect)) (k - (ndirect + 1))).toNat := by
  rw [slotAddr, if_neg (Nat.not_le.mpr hk), if_neg h]

/-- The slots depend on the addresses and on the indirect block. -/
theorem slotAddr_congr (haddr : ∀ k ≤ ndirect, ip'.addr k = ip.addr k)
    (hind : ip.addr ndirect ≠ 0 → blocks' (ip.addr ndirect) = blocks (ip.addr ndirect)) (k : ℕ) :
    slotAddr blocks' ip' k = slotAddr blocks ip k := by
  by_cases hk : k ≤ ndirect
  · rw [slotAddr_of_le _ _ hk, slotAddr_of_le _ _ hk, haddr k hk]
  · have hk' : ndirect < k := Nat.not_le.mp hk
    have hn := haddr ndirect (Nat.le_refl _)
    by_cases h0 : ip.addr ndirect = 0
    · rw [slotAddr_of_zero _ hk' h0, slotAddr_of_zero _ hk' (hn.trans h0)]
    · rw [slotAddr_entry _ hk' h0, slotAddr_entry _ hk' (by rwa [hn]), hn, hind h0]

theorem Inode.addr_setAddr (ip : Inode) (hk : k ≤ ndirect) (x l : ℕ) :
    (ip.setAddr k x).addr l = if l = k then x else ip.addr l := by
  unfold addr setAddr
  by_cases hl : l < 13
  · rw [dif_pos hl, dif_pos hl]
  · have : k < 13 := Nat.lt_succ_of_le hk
    rw [dif_neg hl, dif_neg hl, if_neg (by omega)]

/-- Only the addresses have changed. -/
def Inode.Same (ip ip' : Inode) : Prop := ip' = { ip with addrs := ip'.addrs }

theorem Inode.Same.refl (ip : Inode) : ip.Same ip := rfl

theorem Inode.Same.trans {a b c : Inode} (hab : a.Same b) (hbc : b.Same c) : a.Same c := by
  unfold Inode.Same at *
  rw [hbc, hab]

theorem Inode.same_setAddr (ip : Inode) (k x : ℕ) : ip.Same (ip.setAddr k x) := rfl

theorem Inode.Same.size {a b : Inode} (h : a.Same b) : b.size = a.size := by rw [h]

theorem Inode.Same.inum {a b : Inode} (h : a.Same b) : b.inum = a.inum := by rw [h]

theorem Inode.Same.type {a b : Inode} (h : a.Same b) : b.type = a.type := by rw [h]

/-! ### Well-formed volumes -/

section Wf

variable {ι : Type} {sb : Superblock} (g : Geometry sb)

/-- Slot `p.2` of inode `p.1` is the address of block `b`. -/
def Holds (blocks : ℕ → Block) (inode : ι → Inode) (p : ι × ℕ) (b : ℕ) : Prop :=
  p.2 < nslots ∧ slotAddr blocks (inode p.1) p.2 = b ∧ b ≠ 0

/-- **The bitmap agrees with the inodes.** -/
structure Wf (blocks : ℕ → Block) (inode : ι → Inode) : Prop where
  owned : Owners.Exact (InUse sb blocks) (· < g.datastart) (Holds blocks inode)
  inum_lt : ∀ i, (inode i).inum < g.ninodes
  inum_inj : ∀ i j, (inode i).inum = (inode j).inum → i = j

variable {g} {inode : ι → Inode}

theorem holds_of_ne {i : ι} (hk : k < nslots) (h : slotAddr blocks (inode i) k ≠ 0) :
    Holds blocks inode (i, k) (slotAddr blocks (inode i) k) :=
  ⟨hk, rfl, h⟩

theorem Wf.inUse (hw : Wf g blocks inode) (i : ι) (hk : k < nslots)
    (h : slotAddr blocks (inode i) k ≠ 0) : InUse sb blocks (slotAddr blocks (inode i) k) :=
  hw.owned.used_of_holds (holds_of_ne hk h)

theorem Wf.datastart_le (hw : Wf g blocks inode) (i : ι) (hk : k < nslots)
    (h : slotAddr blocks (inode i) k ≠ 0) : g.datastart ≤ slotAddr blocks (inode i) k :=
  Nat.not_lt.mp (hw.owned.apart (holds_of_ne hk h))

theorem Wf.offBitmap (hw : Wf g blocks inode) (i : ι) (hk : k < nslots)
    (h : slotAddr blocks (inode i) k ≠ 0) : OffBitmap sb (slotAddr blocks (inode i) k) :=
  g.offBitmap (hw.datastart_le i hk h)

/-- No block is in two slots. -/
theorem Wf.slot_inj (hw : Wf g blocks inode) {i j : ι} {l : ℕ} (hk : k < nslots) (hl : l < nslots)
    (h : slotAddr blocks (inode i) k ≠ 0)
    (he : slotAddr blocks (inode i) k = slotAddr blocks (inode j) l) : i = j ∧ k = l := by
  have hj : Holds blocks inode (j, l) (slotAddr blocks (inode i) k) := ⟨hl, he.symm, h⟩
  exact Prod.mk.inj (hw.owned.inj (holds_of_ne hk h) hj)

/-- Block `0` is never free. -/
theorem Wf.inUse_zero (hw : Wf g blocks inode) : InUse sb blocks 0 :=
  hw.owned.used_of_reserved g.datastart_pos

/-! ### Taking one block -/

/-- `balloc` has taken block `x`. -/
structure Fresh (sb : Superblock) (x : ℕ) (v v' : Vol) : Prop where
  lt : x < sb.size
  free : ¬ InUse sb v.blocks x
  used : ∀ b, InUse sb v'.blocks b ↔ InUse sb v.blocks b ∨ b = x
  zero : v'.blocks x = fun _ => 0
  keep : ∀ b, b ≠ x → OffBitmap sb b → v'.blocks b = v.blocks b

/-- `balloc` finds the disk full and changes nothing, or takes a fresh block, which is not `0`. -/
theorem Wf.balloc_cases (hw : Wf g v.blocks inode) :
    (Full sb v.blocks ∧ v.balloc sb = (0, v)) ∨
    ∃ x v', v.balloc sb = (x, v') ∧ x ≠ 0 ∧ Fresh sb x v v' := by
  rcases Disk.balloc_spec sb.toSuperblock v.blocks with ⟨x, hx, hfree, -, he⟩ | ⟨hall, he⟩
  · right
    have hnot : ¬ InUse sb v.blocks x := fun h => hfree h.2
    have hlow : g.datastart ≤ x := Nat.not_lt.mp fun h => hnot (hw.owned.used_of_reserved h)
    have hpos := g.datastart_pos
    have hbal : v.balloc sb = (x, (({ v with blocks := Disk.taken sb.toSuperblock x v.blocks } :
        Vol).note (sb.bblock x)).note x) := by
      rw [Vol.balloc, he, if_pos ⟨hx, hfree⟩]
    refine ⟨x, _, hbal, by omega, hx, hnot, fun b => ?_, ?_, fun b hb hoff => ?_⟩
    · -- the taken block is a data block, so zeroing it leaves the bitmap alone
      show InUse sb (Disk.taken sb.toSuperblock x v.blocks) b ↔ _
      constructor
      · rintro ⟨hb, hu⟩
        rw [Disk.used_taken ((g.bblock_lt b hb).trans_le hlow).ne] at hu
        exact hu.imp_left fun h => ⟨hb, h⟩
      · intro h
        have hb : b < sb.size := by
          rcases h with h | rfl
          · exact h.1
          · exact hx
        rw [InUse, Disk.used_taken ((g.bblock_lt b hb).trans_le hlow).ne]
        exact ⟨hb, h.imp_left And.right⟩
    · exact update_self _ _ _
    · show Disk.taken sb.toSuperblock x v.blocks b = _
      rw [Disk.taken, Disk.bzero, update_of_ne hb, Disk.setByte,
        update_of_ne (hoff x hx).symm]
  · left
    refine ⟨hall, ?_⟩
    rw [Vol.balloc, he, if_neg fun h => h.2 (hall 0 h.1)]

/-- Block `x` is taken for the empty slot `k` of an inode. -/
structure Takes (sb : Superblock) (v v' : Vol) (ip ip' : Inode) (k x : ℕ) : Prop where
  lt : x < sb.size
  pos : x ≠ 0
  free : ¬ InUse sb v.blocks x
  used : ∀ b, InUse sb v'.blocks b ↔ InUse sb v.blocks b ∨ b = x
  empty : slotAddr v.blocks ip k = 0
  slot : ∀ l < nslots, slotAddr v'.blocks ip' l = if l = k then x else slotAddr v.blocks ip l
  keep : ∀ b, b ≠ x → OffBitmap sb b → b ≠ ip.addr ndirect → v'.blocks b = v.blocks b
  same : ip.Same ip'

/-- An address of the inode itself. -/
theorem Fresh.takes_addr (hf : Fresh sb x v v') (hx : x ≠ 0) (hk : k ≤ ndirect)
    (hempty : ip.addr k = 0) (hind : ip.addr ndirect ≠ 0 →
      InUse sb v.blocks (ip.addr ndirect) ∧ OffBitmap sb (ip.addr ndirect)) :
    Takes sb v v' ip (ip.setAddr k x) k x where
  lt := hf.lt
  pos := hx
  free := hf.free
  used := hf.used
  empty := by rw [slotAddr_of_le _ _ hk, hempty]
  slot := by
    intro l _
    by_cases hl : l ≤ ndirect
    · rw [slotAddr_of_le _ _ hl, slotAddr_of_le _ _ hl, Inode.addr_setAddr _ hk]
    · have hl' : ndirect < l := Nat.not_le.mp hl
      rw [if_neg (fun he : l = k => hl (by rwa [he]))]
      by_cases hkn : k = ndirect
      · -- the new indirect block is zero, so it has no entries
        subst hkn
        have hnew : (ip.setAddr ndirect x).addr ndirect = x := by
          rw [Inode.addr_setAddr _ hk, if_pos rfl]
        rw [slotAddr_of_zero _ hl' hempty, slotAddr_entry _ hl' (by rwa [hnew]), hnew, hf.zero,
          word_zero]
        rfl
      · have hsame : (ip.setAddr k x).addr ndirect = ip.addr ndirect := by
          rw [Inode.addr_setAddr _ hk, if_neg fun he => hkn he.symm]
        by_cases h0 : ip.addr ndirect = 0
        · rw [slotAddr_of_zero _ hl' h0, slotAddr_of_zero _ hl' (hsame.trans h0)]
        · obtain ⟨huse, hoff⟩ := hind h0
          rw [slotAddr_entry _ hl' h0, slotAddr_entry _ hl' (by rwa [hsame]), hsame,
            hf.keep _ (fun he => hf.free (by rwa [← he])) hoff]
  keep := fun b hb hoff _ => hf.keep b hb hoff
  same := ip.same_setAddr k x

/-- An entry of the indirect block. -/
theorem Fresh.takes_entry {j : ℕ} (hf : Fresh sb x v v') (hx : x ≠ 0) (hlt : sb.size < 2 ^ 32)
    (hj : j < nindirect) (hnz : ip.addr ndirect ≠ 0)
    (hempty : (word (v.blocks (ip.addr ndirect)) j).toNat = 0)
    (huse : InUse sb v.blocks (ip.addr ndirect)) (hoff : OffBitmap sb (ip.addr ndirect)) :
    Takes sb v (v'.write (ip.addr ndirect)
      (setWord (v'.blocks (ip.addr ndirect)) j (BitVec.ofNat 32 x))) ip ip (ndirect + 1 + j) x where
  lt := hf.lt
  pos := hx
  free := hf.free
  used := by
    intro b
    rw [Vol.write_blocks, inUse_update hoff, hf.used]
  empty := by
    rw [slotAddr_entry _ (by omega) hnz, Nat.add_sub_cancel_left, hempty]
  slot := by
    intro l _
    have hkeep : v'.blocks (ip.addr ndirect) = v.blocks (ip.addr ndirect) :=
      hf.keep _ (fun he => hf.free (by rwa [← he])) hoff
    by_cases hl : l ≤ ndirect
    · rw [slotAddr_of_le _ _ hl, slotAddr_of_le _ _ hl, if_neg (by omega)]
    · have hl' : ndirect < l := Nat.not_le.mp hl
      have hx32 : x < 2 ^ 32 := hf.lt.trans hlt
      rw [slotAddr_entry _ hl' hnz, slotAddr_entry _ hl' hnz, hkeep, Vol.write_blocks,
        update_self]
      by_cases he : l = ndirect + 1 + j
      · subst he
        rw [if_pos rfl, Nat.add_sub_cancel_left, word_setWord_self hj, BitVec.toNat_ofNat,
          Nat.mod_eq_of_lt hx32]
      · rw [if_neg he, word_setWord_of_ne (by omega)]
  keep := by
    intro b hb hoff' hne
    rw [Vol.write_blocks, update_of_ne hne]
    exact hf.keep b hb hoff'
  same := Inode.Same.refl ip

/-- What a file needs to know about the indirect block of an inode. -/
theorem Wf.indirect (hw : Wf g blocks inode) (i : ι) (h : (inode i).addr ndirect ≠ 0) :
    InUse sb blocks ((inode i).addr ndirect) ∧ OffBitmap sb ((inode i).addr ndirect) := by
  have hs := slotAddr_of_le blocks (inode i) (Nat.le_refl ndirect)
  have hlt : ndirect < nslots := by decide
  rw [← hs] at h ⊢
  exact ⟨hw.inUse i hlt h, hw.offBitmap i hlt h⟩

/-- The slots of the other inodes are where they were. -/
theorem Wf.slotAddr_of_keep (hw : Wf g blocks inode) {i j : ι} (hij : j ≠ i)
    (hkeep : ∀ b, InUse sb blocks b → OffBitmap sb b →
      (∀ k < nslots, slotAddr blocks (inode i) k ≠ b) → blocks' b = blocks b) (k : ℕ) :
    slotAddr blocks' (inode j) k = slotAddr blocks (inode j) k := by
  refine slotAddr_congr (fun _ _ => rfl) (fun hnz => ?_) k
  obtain ⟨huse, hoff⟩ := hw.indirect j hnz
  refine hkeep _ huse hoff fun l hl he => hij ?_
  rw [← slotAddr_of_le blocks (inode j) (Nat.le_refl ndirect)] at he hnz
  exact (hw.slot_inj (by decide) hl hnz he.symm).1

/-- What an operation on one inode may do to the volume, as far as the other inodes and the blocks
it had are concerned: slots are filled with blocks that were free, and nothing outside of its own
blocks and the bitmap changes. -/
structure Extends (sb : Superblock) (v v' : Vol) (ip ip' : Inode) : Prop where
  same : ip.Same ip'
  used : ∀ b, InUse sb v.blocks b → InUse sb v'.blocks b
  slots : ∀ k < nslots, slotAddr v.blocks ip k ≠ 0 →
    slotAddr v'.blocks ip' k = slotAddr v.blocks ip k
  fresh : ∀ k < nslots, slotAddr v.blocks ip k = 0 →
    slotAddr v'.blocks ip' k = 0 ∨ ¬ InUse sb v.blocks (slotAddr v'.blocks ip' k)
  keep : ∀ b, InUse sb v.blocks b → OffBitmap sb b → (∀ k < nslots, slotAddr v.blocks ip k ≠ b) →
    v'.blocks b = v.blocks b

theorem Extends.refl (v : Vol) (ip : Inode) : Extends sb v v ip ip where
  same := Inode.Same.refl ip
  used := fun _ h => h
  slots := fun _ _ _ => rfl
  fresh := fun _ _ h => Or.inl h
  keep := fun _ _ _ _ => rfl

theorem Extends.trans {v'' : Vol} {ip'' : Inode} (h : Extends sb v v' ip ip')
    (h' : Extends sb v' v'' ip' ip'') (hpos : InUse sb v.blocks 0) :
    Extends sb v v'' ip ip'' where
  same := h.same.trans h'.same
  used := fun b hb => h'.used b (h.used b hb)
  slots := by
    intro k hk hnz
    have hk' := h.slots k hk hnz
    rw [h'.slots k hk (by rwa [hk']), hk']
  fresh := by
    intro k hk h0
    rcases h.fresh k hk h0 with h1 | h1
    · exact (h'.fresh k hk h1).imp_right fun hn hb => hn (h.used _ hb)
    · have hnz : slotAddr v'.blocks ip' k ≠ 0 := fun he => h1 (by rwa [he])
      rw [h'.slots k hk hnz]
      exact Or.inr h1
  keep := by
    intro b hb hoff hown
    rw [h'.keep b (h.used b hb) hoff, h.keep b hb hoff hown]
    intro k hk he
    by_cases h0 : slotAddr v.blocks ip k = 0
    · rcases h.fresh k hk h0 with h1 | h1
      · exact hown k hk (by rw [h0, ← he, h1])
      · exact h1 (by rwa [he])
    · exact hown k hk ((h.slots k hk h0).symm.trans he)

theorem Takes.extends (h : Takes sb v v' ip ip' k x) :
    Extends sb v v' ip ip' where
  same := h.same
  used := fun b hb => (h.used b).mpr (Or.inl hb)
  slots := by
    intro l hl hnz
    rw [h.slot l hl, if_neg]
    rintro rfl
    exact hnz h.empty
  fresh := by
    intro l hl h0
    rw [h.slot l hl]
    by_cases hlk : l = k
    · rw [if_pos hlk]
      exact Or.inr h.free
    · rw [if_neg hlk]
      exact Or.inl h0
  keep := by
    intro b hb hoff hown
    refine h.keep b (fun he => h.free (by rwa [← he])) hoff fun he => ?_
    exact hown ndirect (by decide) ((slotAddr_of_le _ _ (Nat.le_refl _)).trans he.symm)

/-- The blocks of a file keep their bytes when one more is taken. -/
theorem Takes.data {i : ι} {l : ℕ} (hw : Wf g v.blocks inode) (h : Takes sb v v' (inode i) ip' k x)
    (hl : l < nslots) (hln : l ≠ ndirect) (hnz : slotAddr v.blocks (inode i) l ≠ 0) :
    v'.blocks (slotAddr v.blocks (inode i) l) = v.blocks (slotAddr v.blocks (inode i) l) := by
  refine h.keep _ (fun he => h.free ?_) (hw.offBitmap i hl hnz) fun he => hln ?_
  · rw [← he]
    exact hw.inUse i hl hnz
  · rw [← slotAddr_of_le v.blocks _ (Nat.le_refl ndirect)] at he
    exact (hw.slot_inj hl (by decide) hnz he).2

variable [DecidableEq ι]

theorem inum_update {i : ι} (h : ip'.inum = (inode i).inum) (j : ι) :
    (update inode i ip' j).inum = (inode j).inum := by
  by_cases hj : j = i
  · subst hj
    rw [update_self, h]
  · rw [update_of_ne hj]

/-- An operation on inode `i` keeps the numbers of the inodes. -/
theorem Wf.of_owned {i : ι} (hw : Wf g blocks inode) (h : ip'.inum = (inode i).inum)
    (howned : Owners.Exact (InUse sb blocks') (· < g.datastart)
      (Holds blocks' (update inode i ip'))) :
    Wf g blocks' (update inode i ip') where
  owned := howned
  inum_lt := by
    intro j
    rw [inum_update h]
    exact hw.inum_lt j
  inum_inj := by
    intro j l hjl
    rw [inum_update h, inum_update h] at hjl
    exact hw.inum_inj j l hjl

/-- Taking a block for a slot keeps the volume well formed. -/
theorem Takes.wf {i : ι} (hw : Wf g v.blocks inode) (hk : k < nslots)
    (h : Takes sb v v' (inode i) ip' k x) : Wf g v'.blocks (update inode i ip') := by
  refine hw.of_owned h.same.inum (hw.owned.take (k := (i, k)) h.free h.used ?_)
  rintro ⟨j, l⟩ b
  by_cases hj : j = i
  · subst hj
    rw [Prod.mk.injEq, Holds, Holds, update_self]
    constructor
    · rintro ⟨hl, he, hb⟩
      rw [h.slot l hl] at he
      by_cases hlk : l = k
      · rw [if_pos hlk] at he
        exact Or.inr ⟨⟨rfl, hlk⟩, he.symm⟩
      · rw [if_neg hlk] at he
        exact Or.inl ⟨hl, he, hb⟩
    · rintro (⟨hl, he, hb⟩ | ⟨⟨-, rfl⟩, rfl⟩)
      · refine ⟨hl, ?_, hb⟩
        rw [h.slot l hl, if_neg, he]
        rintro rfl
        exact hb (he.symm.trans h.empty)
      · exact ⟨hk, (h.slot l hk).trans (if_pos rfl), h.pos⟩
  · have hne : ¬ (j, l) = (i, k) := fun he => hj (Prod.mk.inj he).1
    rw [Holds, Holds, update_of_ne hj, hw.slotAddr_of_keep hj h.extends.keep,
      or_iff_left fun he => hne he.1]

/-! ### `bmap` -/

/-- What one call of `bmap` leaves behind, for block `bn` of a file: the address, or `0` when the
disk is full; the blocks that the file had keep their places and their bytes. -/
structure Mapped (g : Geometry sb) (inode : ι → Inode) (i : ι) (bn : ℕ) (v : Vol) (ip : Inode)
    (r : ℕ × Inode × Vol) : Prop where
  wf : Wf g r.2.2.blocks (update inode i r.2.1)
  grows : Extends sb v r.2.2 ip r.2.1
  data : ∀ k < nslots, k ≠ ndirect → slotAddr v.blocks ip k ≠ 0 →
    r.2.2.blocks (slotAddr v.blocks ip k) = v.blocks (slotAddr v.blocks ip k)
  addr : blockOf r.2.2.blocks r.2.1 bn = r.1
  full : r.1 = 0 → Full sb r.2.2.blocks

/-- Nothing had to be taken, or nothing could be. -/
theorem Wf.mapped (hw : Wf g v.blocks inode) {i : ι} {a : ℕ}
    (haddr : blockOf v.blocks (inode i) bn = a) (hfull : a = 0 → Full sb v.blocks) :
    Mapped g inode i bn v (inode i) (a, inode i, v) where
  wf := by
    rw [Function.update_eq_self]
    exact hw
  grows := Extends.refl v _
  data := fun _ _ _ _ => rfl
  addr := haddr
  full := hfull

/-- One block was taken, for block `bn` of the file itself. -/
theorem Takes.mapped {i : ι} (hw : Wf g v.blocks inode) (hbn : bn < maxfile)
    (h : Takes sb v v' (inode i) ip' (slotOf bn) x) :
    Mapped g inode i bn v (inode i) (x, ip', v') where
  wf := h.wf hw (slotOf_lt hbn)
  grows := h.extends
  data := fun _ hk hkn hnz => h.data hw hk hkn hnz
  addr := (h.slot _ (slotOf_lt hbn)).trans (if_pos rfl)
  full := fun h0 => absurd h0 h.pos

/-- One block was taken before. -/
theorem Mapped.after {i : ι} {r : ℕ × Inode × Vol} (hw : Wf g v.blocks inode)
    (ht : Takes sb v v' (inode i) ip' k x) (h : Mapped g (update inode i ip') i bn v' ip' r) :
    Mapped g inode i bn v (inode i) r where
  wf := by
    have := h.wf
    rwa [Function.update_idem] at this
  grows := ht.extends.trans h.grows hw.inUse_zero
  data := by
    intro l hl hln hnz
    have hslot := ht.extends.slots l hl hnz
    rw [← ht.data hw hl hln hnz, ← hslot]
    exact h.data l hl hln (by rwa [hslot])
  addr := h.addr
  full := h.full

/-- The part of `bmap` behind the indirect block. -/
theorem bmapIndirect_spec (hw : Wf g v.blocks inode) {i : ι} {j : ℕ} (hj : j < nindirect)
    (hnz : (inode i).addr ndirect ≠ 0) :
    Mapped g inode i (ndirect + j) v (inode i)
      ((bmapIndirect sb ((inode i).addr ndirect) j v).1, inode i,
        (bmapIndirect sb ((inode i).addr ndirect) j v).2) := by
  have hslot : slotOf (ndirect + j) = ndirect + 1 + j := by
    rw [slotOf, if_neg (by omega)]
    omega
  have hmax : ndirect + j < maxfile := Nat.add_lt_add_left hj _
  have hentry : blockOf v.blocks (inode i) (ndirect + j) =
      (word (v.blocks ((inode i).addr ndirect)) j).toNat := by
    rw [blockOf, hslot, slotAddr_entry _ (by omega) hnz, Nat.add_sub_cancel_left]
  unfold bmapIndirect
  by_cases h0 : (word (v.blocks ((inode i).addr ndirect)) j).toNat = 0
  · rw [if_pos h0]
    rcases hw.balloc_cases with ⟨hfull, he⟩ | ⟨x, v', he, hx, hf⟩
    · rw [he, if_pos rfl]
      exact hw.mapped (hentry.trans h0) fun _ => hfull
    · rw [he, if_neg hx]
      obtain ⟨huse, hoff⟩ := hw.indirect i hnz
      refine Takes.mapped hw hmax ?_
      rw [hslot]
      exact hf.takes_entry hx g.size_lt hj hnz h0 huse hoff
  · rw [if_neg h0]
    exact hw.mapped hentry fun h => absurd h h0

/-- **`bmap`** in a well-formed volume. -/
theorem bmap_spec (hw : Wf g v.blocks inode) (i : ι) (hbn : bn < maxfile) :
    ∃ r, bmap sb bn (inode i) v = some r ∧ Mapped g inode i bn v (inode i) r := by
  unfold bmap
  by_cases hdir : bn < ndirect
  · rw [if_pos hdir]
    have hslot : slotOf bn = bn := if_pos hdir
    have haddr : blockOf v.blocks (inode i) bn = (inode i).addr bn := by
      rw [blockOf, hslot, slotAddr_of_le _ _ hdir.le]
    by_cases h0 : (inode i).addr bn = 0
    · rw [if_pos h0]
      rcases hw.balloc_cases with ⟨hfull, he⟩ | ⟨x, v', he, hx, hf⟩
      · rw [he, if_pos rfl]
        exact ⟨_, rfl, hw.mapped (haddr.trans h0) fun _ => hfull⟩
      · rw [he, if_neg hx]
        refine ⟨_, rfl, Takes.mapped hw hbn ?_⟩
        rw [hslot]
        exact hf.takes_addr hx hdir.le h0 (hw.indirect i)
    · rw [if_neg h0]
      exact ⟨_, rfl, hw.mapped haddr fun h => absurd h h0⟩
  · have hj : bn - ndirect < nindirect := by
      rw [maxfile] at hbn
      omega
    have hbn' : ndirect + (bn - ndirect) = bn := Nat.add_sub_cancel' (Nat.not_lt.mp hdir)
    rw [if_neg hdir, if_pos hj]
    by_cases h0 : (inode i).addr ndirect = 0
    · rw [if_pos h0]
      rcases hw.balloc_cases with ⟨hfull, he⟩ | ⟨x, v', he, hx, hf⟩
      · rw [he, if_pos rfl]
        refine ⟨_, rfl, hw.mapped ?_ fun _ => hfull⟩
        rw [blockOf, slotOf, if_neg hdir, slotAddr_of_zero _ (by omega) h0]
      · rw [he, if_neg hx]
        have ht := hf.takes_addr hx (Nat.le_refl ndirect) h0 (hw.indirect i)
        have hind : ((inode i).setAddr ndirect x).addr ndirect = x := by
          rw [Inode.addr_setAddr _ (Nat.le_refl ndirect), if_pos rfl]
        have hw' := ht.wf hw (by decide)
        have h := bmapIndirect_spec hw' (i := i) hj
        rw [update_self, hind, hbn'] at h
        exact ⟨_, rfl, (h hx).after hw ht⟩
    · rw [if_neg h0]
      have h := bmapIndirect_spec hw hj h0
      rw [hbn'] at h
      exact ⟨_, rfl, h⟩

end Wf

end Fs

end Xv6
