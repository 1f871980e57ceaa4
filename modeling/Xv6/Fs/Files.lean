import Xv6.Fs.FileContent

/-!
# One call on the files of a volume

What `writei`, `readi`, `itrunc` and the load of an inode do to all files of a volume. The invariant
(`Files.Ok`) says that the bitmap agrees with the inodes, that files have no holes, and that the
inodes on the disk are those in memory. A call changes its own file and keeps the others
(`Keeps`), and each call that changes an inode ends with `iupdate`; `Files.Ok.close` is this end,
for any call.

Two things about a write come from the code. It may stop early, when the disk is full or when the
source cannot be read; and in the second case it may overwrite bytes that it does not count
(`written`).

The main results are `writei_spec`, `readi_spec` and `itrunc_spec`, one call each; whole runs are in
`Xv6.Fs.FileRuns`.
-/

namespace Xv6

namespace Fs

open Disk (Block Used)
open Function (update update_self update_of_ne update_eq_self)

variable {ip : Inode} {p : ℕ} {v : Vol}

/-! ### Freeing blocks -/

/-- The disk after `bfree` has freed block `x`. -/
def freed (sb : Disk.Superblock) (x : ℕ) (d : ℕ → Block) : ℕ → Block :=
  Disk.setByte d (sb.bblock x) (Disk.byteOf (x % Disk.bpb))
    (d (sb.bblock x) (Disk.byteOf (x % Disk.bpb)) &&& ~~~Disk.maskOf (x % Disk.bpb))

theorem used_freed (sb : Disk.Superblock) (d : ℕ → Block) (x b : ℕ) :
    Used sb (freed sb x d) b ↔ Used sb d b ∧ b ≠ x := by
  simp only [Used, Disk.and_maskOf_ne_zero, freed, Disk.setByte]
  by_cases hblk : sb.bblock b = sb.bblock x
  · rw [hblk, update_self]
    by_cases hbyte : Disk.byteOf (b % Disk.bpb) = Disk.byteOf (x % Disk.bpb)
    · have h8 : b % Disk.bpb % 8 < 8 := Nat.mod_lt _ (by omega)
      rw [hbyte, update_self, BitVec.getLsbD_and, BitVec.getLsbD_not, Disk.getLsbD_maskOf,
        decide_eq_true h8, Bool.true_and, Bool.and_eq_true, Bool.not_eq_true',
          decide_eq_false_iff_not]
      refine and_congr_right fun _ => not_congr ?_
      simp only [Disk.byteOf, Fin.mk.injEq, Disk.Superblock.bblock, Disk.bpb_eq, Disk.bsize_eq]
        at hblk hbyte ⊢
      omega
    · rw [update_of_ne hbyte]
      exact (and_iff_left fun he => hbyte (by rw [he])).symm
  · rw [update_of_ne hblk]
    exact (and_iff_left fun he => hblk (by rw [he])).symm

/-- The blocks in `bs` are freed, their bitmap blocks are logged, and nothing else changes outside
of the bitmap. -/
structure Frees (sb : Superblock) (bs : List ℕ) (v v' : Vol) : Prop where
  used : ∀ b, InUse sb v'.blocks b ↔ InUse sb v.blocks b ∧ ¬ (b ∈ bs ∧ b ≠ 0)
  keep : ∀ b, OffBitmap sb b → v'.blocks b = v.blocks b
  logged : ∀ c, c ∈ v'.logged ↔ c ∈ v.logged ∨ ∃ b ∈ bs, b ≠ 0 ∧ sb.bblock b = c
  nodup : v.logged.Nodup → v'.logged.Nodup
  fits : v.Fits → v'.Fits

variable {sb : Superblock}

theorem bfree_spec {x : ℕ} (hx : InUse sb v.blocks x) (h0 : x ≠ 0) :
    ∃ v', v.bfree sb x = some v' ∧ Frees sb [x] v v' := by
  have heq : v.bfree sb x =
      some (({ v with blocks := freed sb.toSuperblock x v.blocks } : Vol).note (sb.bblock x)) := by
    rw [Vol.bfree, Disk.bfree, if_neg hx.2]
    rfl
  refine ⟨_, heq, fun b => ?_, fun b hb => update_of_ne (hb x hx.1).symm _ _, fun c => ?_,
    Vol.nodup_note _, fun h => Vol.Fits.note h _⟩
  · rw [Vol.note_blocks, InUse, used_freed, InUse, List.mem_singleton]
    constructor
    · rintro ⟨hb, hu, hne⟩
      exact ⟨⟨hb, hu⟩, fun h => hne h.1⟩
    · rintro ⟨⟨hb, hu⟩, hn⟩
      exact ⟨hb, hu, fun he => hn ⟨he, by rwa [he]⟩⟩
  · rw [Vol.mem_note, or_comm]
    refine or_congr_right ⟨?_, ?_⟩
    · rintro rfl
      exact ⟨x, List.mem_singleton.mpr rfl, h0, rfl⟩
    · rintro ⟨b, hb, -, rfl⟩
      rw [List.mem_singleton.mp hb]

theorem Frees.nil (v : Vol) : Frees sb [] v v where
  used := fun b => by simp
  keep := fun _ _ => rfl
  logged := fun c => by simp
  nodup := id
  fits := id

theorem Frees.append {as bs : List ℕ} {v' v'' : Vol} (h : Frees sb as v v')
    (h' : Frees sb bs v' v'') : Frees sb (as ++ bs) v v'' where
  used := by
    intro b
    rw [h'.used, h.used, List.mem_append, and_assoc, ← not_or, or_and_right]
  keep := fun b hb => (h'.keep b hb).trans (h.keep b hb)
  logged := by
    intro c
    rw [h'.logged, h.logged, or_assoc]
    simp only [List.mem_append, or_and_right, exists_or]
  nodup := fun hnd => h'.nodup (h.nodup hnd)
  fits := fun hfits => h'.fits (h.fits hfits)

/-- `bfree` does not panic on blocks that are in use, each of them listed once. -/
theorem freeAll_spec {bs : List ℕ} (hnd : bs.Pairwise fun a b => a ≠ 0 → a ≠ b)
    (huse : ∀ b ∈ bs, b ≠ 0 → InUse sb v.blocks b) :
    ∃ v', freeAll sb bs v = some v' ∧ Frees sb bs v v' := by
  induction bs generalizing v with
  | nil => exact ⟨v, rfl, Frees.nil v⟩
  | cons a bs ih =>
    obtain ⟨ha, hnd⟩ := List.pairwise_cons.mp hnd
    by_cases h0 : a = 0
    · obtain ⟨v', hv', hf⟩ := ih hnd fun b hb => huse b (List.mem_cons_of_mem _ hb)
      have hiff : ∀ b, b ∈ a :: bs ∧ b ≠ 0 ↔ b ∈ bs ∧ b ≠ 0 := by
        intro b
        rw [List.mem_cons, h0, or_and_right]
        exact or_iff_right fun h => h.2 h.1
      refine ⟨v', by rw [freeAll, if_pos h0, hv'], fun b => by rw [hf.used, hiff], hf.keep,
        fun c => ?_, hf.nodup, hf.fits⟩
      simp only [hf.logged, ← and_assoc, hiff]
    · obtain ⟨v₁, hv₁, h₁⟩ := bfree_spec (huse a List.mem_cons_self h0) h0
      obtain ⟨v', hv', hf⟩ := @ih v₁ hnd fun b hb hb0 =>
        (h₁.used b).mpr ⟨huse b (List.mem_cons_of_mem _ hb) hb0, fun h => ha b hb h0
          (List.mem_singleton.mp h.1).symm⟩
      exact ⟨v', by rw [freeAll, if_neg h0, hv₁, Option.bind_some, hv'], h₁.append hf⟩

/-! ### The inodes and the volume together -/

/-- The volume and all its inodes, as the inode table has them. -/
structure Files (ι : Type) where
  vol : Vol
  inode : ι → Inode

namespace Files

variable {ι : Type}

/-- The bytes of file `i`. -/
def bytes (s : Files ι) (i : ι) : List (BitVec 8) :=
  (List.range (s.inode i).size).map (content s.vol.blocks (s.inode i))

/-- **The invariant of the file system**: the bitmap agrees with the inodes, no file has holes or
is too large, and the inodes on the disk are those in memory. -/
structure Ok (g : Geometry sb) (s : Files ι) : Prop where
  wf : Wf g s.vol.blocks s.inode
  dense : ∀ i, Dense s.vol.blocks (s.inode i) (s.inode i).size
  size_le : ∀ i, (s.inode i).size ≤ maxfile * bsize
  synced : ∀ i, loadInode (s.inode i).inum (s.vol.blocks (sb.iblock (s.inode i).inum)) = s.inode i

variable {g : Geometry sb} {s : Files ι}

theorem length_bytes (s : Files ι) (i : ι) : (s.bytes i).length = (s.inode i).size := by
  rw [bytes, List.length_map, List.length_range]

theorem getElem?_bytes (s : Files ι) {i : ι} (hp : p < (s.inode i).size) :
    (s.bytes i)[p]? = some (content s.vol.blocks (s.inode i) p) := by
  rw [bytes, List.getElem?_map, List.getElem?_range hp]
  rfl

end Files

section Update

variable {ι : Type} {g : Geometry sb} {blocks blocks' : ℕ → Block} {inode : ι → Inode} {i j : ι}

/-- The inode blocks come before the data blocks. -/
theorem Wf.iblock_lt (hw : Wf g blocks inode) (j : ι) :
    sb.iblock (inode j).inum < sb.bmapstart ∧ sb.iblock (inode j).inum < g.datastart := by
  have h1 := g.iblock_lt _ (hw.inum_lt j)
  have h2 := g.bblock_lt 0 hw.inUse_zero.1
  have h3 : sb.bmapstart ≤ sb.bblock 0 := Nat.le_add_left _ _
  exact ⟨h1, by omega⟩

theorem iblock_pos (g : Geometry sb) (inum : ℕ) : 0 < sb.iblock inum :=
  Nat.add_pos_right _ g.inodestart_pos

/-- The address in a slot is not that of an inode block. -/
theorem Wf.slotAddr_ne_iblock (hw : Wf g blocks inode) (i j : ι) {k : ℕ} (hk : k < nslots) :
    slotAddr blocks (inode i) k ≠ sb.iblock (inode j).inum := by
  have h1 := hw.iblock_lt j
  have h2 := iblock_pos g (inode j).inum
  by_cases h0 : slotAddr blocks (inode i) k = 0
  · omega
  · have := hw.datastart_le i hk h0
    omega

/-- What a call on file `i` leaves alone. -/
def Keeps (sb : Superblock) (ip : Inode) (blocks blocks' : ℕ → Block) : Prop :=
  ∀ b, InUse sb blocks b → OffBitmap sb b → (∀ k < nslots, slotAddr blocks ip k ≠ b) →
    blocks' b = blocks b

/-- The inode blocks are left alone. -/
theorem Keeps.iblock (hk : Keeps sb (inode i) blocks blocks') (hw : Wf g blocks inode) (j : ι) :
    blocks' (sb.iblock (inode j).inum) = blocks (sb.iblock (inode j).inum) := by
  obtain ⟨h1, h2⟩ := hw.iblock_lt j
  exact hk _ (hw.owned.used_of_reserved h2) (offBitmap_of_lt h1) fun k hk =>
    hw.slotAddr_ne_iblock i j hk

/-- The bytes of another file are left alone. -/
theorem Keeps.content (hk : Keeps sb (inode i) blocks blocks') (hw : Wf g blocks inode)
    (hij : j ≠ i) (hp : p < maxfile * bsize) (hnz : blockOf blocks (inode j) (p / bsize) ≠ 0) :
    content blocks' (inode j) p = content blocks (inode j) p := by
  have hslot : blockOf blocks' (inode j) (p / bsize) = blockOf blocks (inode j) (p / bsize) :=
    hw.slotAddr_of_keep hij hk _
  have hlt := slotOf_lt (div_bsize_lt hp)
  unfold Fs.content
  rw [hslot]
  refine congrArg (fun b => byte b (p % bsize)) ?_
  refine hk _ (hw.inUse j hlt hnz) (hw.offBitmap j hlt hnz) fun k hk' he => hij ?_
  exact (hw.slot_inj hlt hk' hnz he.symm).1

theorem Wf.indirect_ne_iblock (hw : Wf g blocks inode) (i l : ι) :
    (inode l).addr ndirect ≠ sb.iblock (inode i).inum := by
  rw [← slotAddr_of_le blocks (inode l) (Nat.le_refl ndirect)]
  exact hw.slotAddr_ne_iblock l i (by decide)

section Iupdate

variable (hw : Wf g v.blocks inode)

include hw

/-- Storing an inode moves no block of a file. -/
theorem Wf.slotAddr_iupdate (i j : ι) (k : ℕ) :
    slotAddr (iupdate sb (inode i) v).blocks (inode j) k = slotAddr v.blocks (inode j) k :=
  slotAddr_update (fun l _ => hw.indirect_ne_iblock i l) _ j k

theorem Wf.iupdate (i : ι) : Wf g (Fs.iupdate sb (inode i) v).blocks inode :=
  hw.write (offBitmap_of_lt (hw.iblock_lt i).1) (fun l _ => hw.indirect_ne_iblock i l) _

theorem Wf.dense_iupdate (i j : ι) {n : ℕ} (hd : Dense v.blocks (inode j) n) :
    Dense (Fs.iupdate sb (inode i) v).blocks (inode j) n := by
  intro bn hbn
  rw [blockOf, hw.slotAddr_iupdate]
  exact hd bn hbn

/-- Storing an inode changes no byte of a file. -/
theorem Wf.content_iupdate (i j : ι) (hp : p < maxfile * bsize) :
    content (Fs.iupdate sb (inode i) v).blocks (inode j) p = content v.blocks (inode j) p := by
  have hslot : blockOf (Fs.iupdate sb (inode i) v).blocks (inode j) (p / bsize) =
      blockOf v.blocks (inode j) (p / bsize) := hw.slotAddr_iupdate i j _
  unfold content
  rw [hslot]
  refine congrArg (fun b => byte b (p % bsize)) (update_of_ne ?_ _ _)
  exact hw.slotAddr_ne_iblock j i (slotOf_lt (div_bsize_lt hp))

end Iupdate

/-- The numbers in an inode fit in their fields. -/
theorem Wf.fits (hw : Wf g blocks inode) (hsize : (inode i).size ≤ maxfile * bsize) :
    (inode i).Fits := by
  refine ⟨?_, fun k => ?_⟩
  · rw [maxfile_eq, Disk.bsize_eq] at hsize
    omega
  · have hk : k.val ≤ ndirect := Nat.le_of_lt_succ k.isLt
    have haddr : slotAddr blocks (inode i) k.val = (inode i).addrs k := by
      rw [slotAddr_of_le _ _ hk, Inode.addr, dif_pos k.isLt]
    rw [← haddr]
    by_cases h0 : slotAddr blocks (inode i) k.val = 0
    · rw [h0]
      decide
    · exact (hw.inUse i (by rw [nslots_eq]; omega) h0).1.trans g.size_lt

/-- `iupdate` stores the inode. -/
theorem Wf.load_iupdate_self (hw : Wf g v.blocks inode) (hsize : (inode i).size ≤ maxfile * bsize) :
    loadInode (inode i).inum ((Fs.iupdate sb (inode i) v).blocks (sb.iblock (inode i).inum)) =
      inode i := by
  unfold Fs.iupdate
  rw [Vol.write_blocks, update_self]
  exact loadInode_setWords (hw.fits hsize) _

/-- `iupdate` leaves the other inodes on the disk as they are. -/
theorem Wf.load_iupdate_of_ne (hw : Wf g v.blocks inode) (hij : j ≠ i) :
    loadInode (inode j).inum ((Fs.iupdate sb (inode i) v).blocks (sb.iblock (inode j).inum)) =
      loadInode (inode j).inum (v.blocks (sb.iblock (inode j).inum)) := by
  unfold Fs.iupdate
  rw [Vol.write_blocks]
  by_cases hblk : sb.iblock (inode j).inum = sb.iblock (inode i).inum
  · rw [hblk, update_self]
    refine loadInode_setWords_of_ne (fun hmod => hij (hw.inum_inj j i ?_)) _
    unfold Superblock.iblock at hblk
    rw [← Nat.div_add_mod (inode j).inum ipb, ← Nat.div_add_mod (inode i).inum ipb, hmod,
      Nat.add_right_cancel hblk]
  · rw [update_of_ne hblk]

end Update

section Close

variable {ι : Type} {g : Geometry sb} {s : Files ι} {i : ι} {f : ι → Inode}

/-- **The end of a call** on file `i` that has changed its inode, so that the inodes are `f` now,
and the volume to `v`: after `iupdate` the invariant holds again. -/
theorem Files.Ok.close (h : s.Ok g) (hother : ∀ j, j ≠ i → f j = s.inode j)
    (hk : Keeps sb (s.inode i) s.vol.blocks v.blocks) (hw : Wf g v.blocks f)
    (hd : Dense v.blocks (f i) (f i).size) (hsize : (f i).size ≤ maxfile * bsize) :
    Files.Ok g ⟨iupdate sb (f i) v, f⟩ where
  wf := hw.iupdate i
  dense := by
    intro j
    refine hw.dense_iupdate i j ?_
    show Dense v.blocks (f j) (f j).size
    by_cases hj : j = i
    · rwa [hj]
    · intro bn hbn
      rw [hother j hj] at hbn ⊢
      rw [blockOf, h.wf.slotAddr_of_keep hj hk]
      exact h.dense j bn hbn
  size_le := by
    intro j
    by_cases hj : j = i
    · rwa [hj]
    · show (f j).size ≤ _
      rw [hother j hj]
      exact h.size_le j
  synced := by
    intro j
    by_cases hj : j = i
    · rw [hj]
      exact hw.load_iupdate_self hsize
    · refine (hw.load_iupdate_of_ne hj).trans ?_
      show loadInode (f j).inum (v.blocks (sb.iblock (f j).inum)) = f j
      rw [hother j hj, hk.iblock h.wf]
      exact h.synced j

/-- The other files have the bytes they had. -/
theorem Files.Ok.close_bytes (h : s.Ok g) {j : ι} (hj : j ≠ i) (hother : f j = s.inode j)
    (hk : Keeps sb (s.inode i) s.vol.blocks v.blocks) (hw : Wf g v.blocks f) :
    Files.bytes ⟨iupdate sb (f i) v, f⟩ j = s.bytes j := by
  unfold Files.bytes
  show (List.range (f j).size).map (content (iupdate sb (f i) v).blocks (f j)) = _
  rw [hother]
  refine List.map_congr_left fun p hp => ?_
  have hp' : p < (s.inode j).size := List.mem_range.mp hp
  have hlt : p < maxfile * bsize := hp'.trans_le (h.size_le j)
  have hup := hw.content_iupdate i j hlt
  rw [hother] at hup
  rw [hup]
  exact hk.content h.wf hj hlt ((h.dense j).block hp')

/-- And the file itself has those of the volume that the call has made. -/
theorem Files.close_bytes_self (hw : Wf g v.blocks f) (hsize : (f i).size ≤ maxfile * bsize) :
    Files.bytes ⟨iupdate sb (f i) v, f⟩ i =
      (List.range (f i).size).map (content v.blocks (f i)) := by
  refine List.map_congr_left fun p hp => ?_
  have hp' : p < (f i).size := List.mem_range.mp hp
  exact hw.content_iupdate i i (hp'.trans_le hsize)

end Close

/-! ### Writing -/

/-- The bytes `bs` in the place of those from byte `off` on. -/
def overwrite (c : List (BitVec 8)) (off : ℕ) (bs : List (BitVec 8)) : List (BitVec 8) :=
  c.take off ++ bs ++ c.drop (off + bs.length)

theorem getElem?_overwrite {old bs : List (BitVec 8)} {off : ℕ} (hoff : off ≤ old.length) (p : ℕ) :
    (overwrite old off bs)[p]? =
      if off ≤ p ∧ p < off + bs.length then bs[p - off]? else old[p]? := by
  have htake : (old.take off).length = off := List.length_take_of_le hoff
  rw [overwrite, List.append_assoc]
  rcases Nat.lt_or_ge p off with hp | hp
  · rw [if_neg (by omega), List.getElem?_append_left (by rwa [htake]), List.getElem?_take_of_lt hp]
  · rw [List.getElem?_append_right (by rwa [htake]), htake]
    rcases Nat.lt_or_ge p (off + bs.length) with hp' | hp'
    · rw [if_pos ⟨hp, hp'⟩, List.getElem?_append_left (by omega)]
    · rw [if_neg (by omega), List.getElem?_append_right (by omega), List.getElem?_drop]
      congr 1
      omega

/-- A file after a write at byte `off` that has counted `tot` bytes of `src` and left `cnt` in the
blocks: it does not grow beyond what is counted. -/
def written (c : List (BitVec 8)) (off : ℕ) (src : List (BitVec 8)) (tot cnt : ℕ) :
    List (BitVec 8) :=
  (overwrite c off (src.take cnt)).take (max c.length (off + tot))

section Writei

variable {ι : Type} [DecidableEq ι] {g : Geometry sb} {s : Files ι} {i : ι} {src : List (BitVec 8)}
  {off n tot cnt : ℕ}

theorem slotAddr_size (blocks : ℕ → Block) (ip : Inode) (m k : ℕ) :
    slotAddr blocks { ip with size := m } k = slotAddr blocks ip k :=
  slotAddr_congr (fun _ _ => rfl) (fun _ => rfl) k

/-- The size of a file says nothing about its blocks. -/
theorem Wf.resize {inode : ι → Inode} {blocks : ℕ → Block}
    (hw : Wf g blocks (update inode i ip)) (m : ℕ) :
    Wf g blocks (update inode i { ip with size := m }) := by
  have hslot : ∀ j k, slotAddr blocks (update inode i { ip with size := m } j) k =
      slotAddr blocks (update inode i ip j) k := by
    intro j k
    by_cases hj : j = i
    · subst hj
      rw [update_self, update_self, slotAddr_size]
    · rw [update_of_ne hj, update_of_ne hj]
  have hinum : ∀ j, (update inode i { ip with size := m } j).inum =
      (update inode i ip j).inum := by
    intro j
    by_cases hj : j = i
    · subst hj
      rw [update_self, update_self]
    · rw [update_of_ne hj, update_of_ne hj]
  have hh : Holds blocks (update inode i { ip with size := m }) =
      Holds blocks (update inode i ip) := by
    funext p b
    rw [Holds, Holds, hslot]
  refine ⟨?_, fun j => ?_, fun j l hjl => ?_⟩
  · rw [hh]
    exact hw.owned
  · rw [hinum]
    exact hw.inum_lt j
  · rw [hinum, hinum] at hjl
    exact hw.inum_inj j l hjl

/-- The bytes at the end of a write. -/
theorem Written.bytes_eq (hoff : off ≤ (s.inode i).size) (hcnt : cnt ≤ src.length)
    (htot : tot ≤ cnt) (h : Written g s.inode i src off s.vol tot cnt ip v) :
    (List.range (max (s.inode i).size (off + tot))).map (content v.blocks ip) =
      written (s.bytes i) off src tot cnt := by
  have hlen := s.length_bytes i
  have htake : (src.take cnt).length = cnt := List.length_take_of_le hcnt
  refine List.ext_getElem? fun p => ?_
  rw [written, List.getElem?_map, List.getElem?_take, hlen]
  by_cases hp : p < max (s.inode i).size (off + tot)
  · rw [if_pos hp, List.getElem?_range hp, getElem?_overwrite (by rwa [hlen]), htake,
      Option.map_some, h.bytes p hp]
    by_cases hin : off ≤ p ∧ p < off + cnt
    · have hlt : p - off < src.length := by omega
      rw [if_pos hin, if_pos hin, List.getElem?_take_of_lt (by omega),
        List.getElem?_eq_getElem hlt]
      rfl
    · rw [if_neg hin, if_neg hin, s.getElem?_bytes (by omega)]
  · rw [if_neg hp, List.getElem?_eq_none (by rw [List.length_range]; omega)]
    rfl

theorem Written.start (h : s.Ok g) (src : List (BitVec 8)) (hoff : off ≤ (s.inode i).size) :
    Written g s.inode i src off s.vol 0 0 (s.inode i) s.vol where
  wf := by
    rw [update_eq_self]
    exact h.wf
  grows := Extends.refl _ _
  dense := by
    rw [Nat.add_zero, max_eq_left hoff]
    exact h.dense i
  bytes := fun p _ => by rw [if_neg (by omega)]

/-- A write that is refused. -/
theorem writei_refused (h : ip.size < off ∨ maxfile * bsize < off + n) :
    writei sb src off n ip v = some (-1, ip, v) := by
  unfold writei
  by_cases h1 : ip.size < off ∨ 2 ^ 32 ≤ off + n
  · rw [if_pos h1]
  · rw [if_neg h1, if_pos (h.resolve_left fun h2 => h1 (Or.inl h2))]

/-- **`writei`** on a well-formed volume, when it does not refuse. -/
theorem writei_spec (h : s.Ok g) (i : ι) (src : List (BitVec 8))
    (hoff : off ≤ (s.inode i).size) (hmax : off + n ≤ maxfile * bsize) :
    ∃ (tot cnt : ℕ) (ip' : Inode) (v' : Vol),
      writei sb src off n (s.inode i) s.vol = some ((tot : ℤ), ip', v') ∧
      Files.Ok g ⟨v', update s.inode i ip'⟩ ∧
      (∀ j, Files.bytes ⟨v', update s.inode i ip'⟩ j =
        update s.bytes i (written (s.bytes i) off src tot cnt) j) ∧
      Outcome src.length n (Full sb v'.blocks) tot cnt ∧ ip'.type = (s.inode i).type := by
  have hz := h.wf.inUse_zero
  obtain ⟨tot, cnt, ip, v, hloop, hwr, hout⟩ := writeLoop_spec n n hz hmax (h.size_le i)
    (Written.start h src hoff) (by omega) (Nat.zero_le _) (Nat.zero_le _)
  have hsame := hwr.grows.same.size
  have hw' := hwr.wf.resize (max (s.inode i).size (off + tot))
  set ip' : Inode := { ip with size := max (s.inode i).size (off + tot) } with hip'
  have hgrow : (if ip.size < off + tot then { ip with size := off + tot } else ip) = ip' := by
    rw [hip']
    split_ifs with hlt
    · rw [max_eq_right (by omega)]
    · rw [max_eq_left (by omega), ← hsame]
  have hip : update s.inode i ip' i = ip' := update_self _ _ _
  have hother : ∀ j, j ≠ i → update s.inode i ip' j = s.inode j :=
    fun j hj => update_of_ne hj _ _
  have hdense : Dense v.blocks (update s.inode i ip' i)
      (update s.inode i ip' i).size := by
    rw [hip]
    intro bn hbn
    rw [blockOf, slotAddr_size]
    exact hwr.dense bn hbn
  have hsize : (update s.inode i ip' i).size ≤ maxfile * bsize := by
    rw [hip]
    exact max_le (h.size_le i) (by have := hout.tot_le; omega)
  refine ⟨tot, cnt, ip', iupdate sb ip' v, ?_, ?_, fun j => ?_, ?_, hwr.grows.same.type⟩
  · rw [writei, if_neg (by simp only [maxfile_eq, Disk.bsize_eq] at hmax; omega),
      if_neg (Nat.not_lt.mpr hmax), show writeLoop sb src n n 0 off
        (s.inode i) s.vol = _ from hloop,
      Option.map_some]
    dsimp only
    rw [hgrow]
  · have hok := h.close hother hwr.grows.keep hw' hdense hsize
    rwa [hip] at hok
  · by_cases hj : j = i
    · subst hj
      have hb := Files.close_bytes_self hw' hsize
      rw [hip] at hb
      rw [update_self, hb, ← hwr.bytes_eq hoff hout.cnt_le hout.le_cnt]
      exact List.map_congr_left fun p _ => by rw [content, content, blockOf, slotAddr_size, blockOf]
    · have hb := h.close_bytes hj (hother j hj) hwr.grows.keep hw'
      rw [hip] at hb
      rw [update_of_ne hj, hb]
  · refine { hout with short := fun hlt => (hout.short hlt).imp_left fun hfull b hb => ?_ }
    have hoffb := offBitmap_of_lt (hw'.iblock_lt i).1
    rw [hip] at hoffb
    exact ((inUse_update hoffb _ b).mpr ⟨hb, hfull b hb⟩).2

end Writei

/-! ### Reading -/

/-- What a read of `n` bytes from byte `off` on returns and delivers when there is room for `room`
bytes. -/
def readBytes (c : List (BitVec 8)) (room off n : ℕ) : ℤ × List (BitVec 8) :=
  if c.length < off ∨ 2 ^ 32 ≤ off + n then (0, [])
  else
    (if ((c.drop off).take n).length ≤ room then (((c.drop off).take n).length : ℤ) else -1,
      ((c.drop off).take n).take room)

/-- **`readi`** delivers bytes of the file and changes nothing. -/
theorem readi_spec {ι : Type} {g : Geometry sb} {s : Files ι} (h : s.Ok g) (i : ι)
    (room off n : ℕ) :
    readi sb room off n (s.inode i) s.vol =
      some ((readBytes (s.bytes i) room off n).1, (readBytes (s.bytes i) room off n).2,
        s.inode i, s.vol) := by
  have hlen := s.length_bytes i
  unfold readi readBytes
  rw [hlen]
  by_cases hout : (s.inode i).size < off ∨ 2 ^ 32 ≤ off + n
  · rw [if_pos hout, if_pos hout]
  · rw [if_neg hout, if_neg hout]
    have hsize := h.size_le i
    have hbs : (((s.bytes i).drop off).take n).length =
        if (s.inode i).size < off + n then (s.inode i).size - off else n := by
      rw [List.length_take, List.length_drop, hlen]
      split_ifs <;> omega
    rw [hbs]
    have hle : off + (if (s.inode i).size < off + n then (s.inode i).size - off else n) ≤
        (s.inode i).size := by
      split_ifs <;> omega
    generalize (if (s.inode i).size < off + n then (s.inode i).size - off else n) = m at hbs hle
    have hloop := @readLoop_spec (s.inode i) sb s.vol m room m 0 off
      (fun bn hbn => h.dense i bn (by omega)) (by omega) (by omega) (Nat.zero_le _) (Nat.zero_le _)
    have hbytes : (List.range (min m room - 0)).map (fun j => content s.vol.blocks (s.inode i)
        (off + j)) = (((s.bytes i).drop off).take n).take room := by
      have hmn : m ≤ n := by
        rw [← hbs]
        exact List.length_take_le _ _
      refine List.ext_getElem? fun p => ?_
      rw [List.getElem?_map, Nat.sub_zero, List.getElem?_take]
      by_cases hp : p < min m room
      · rw [List.getElem?_range hp, if_pos (by omega), List.getElem?_take_of_lt (by omega),
          List.getElem?_drop, s.getElem?_bytes (by omega)]
        rfl
      · rw [List.getElem?_eq_none (by rw [List.length_range]; omega)]
        split_ifs with hroom
        · rw [List.getElem?_eq_none (by omega)]
          rfl
        · rfl
    dsimp only
    rw [hloop, Option.map_some, hbytes]
    by_cases hroom : m ≤ room
    · rw [if_pos hroom]
      simp [hroom, hbs]
    · rw [if_neg hroom]
      simp [hroom]

/-! ### Truncating -/

section Itrunc

variable {ι : Type} {g : Geometry sb} {blocks : ℕ → Block} {inode : ι → Inode}

/-- The addresses in `len` slots from slot `lo` on. -/
def slotList (blocks : ℕ → Block) (ip : Inode) (lo len : ℕ) : List ℕ :=
  (List.range len).map fun j => slotAddr blocks ip (lo + j)

theorem mem_slotList {lo len b : ℕ} :
    b ∈ slotList blocks ip lo len ↔ ∃ k, lo ≤ k ∧ k < lo + len ∧ slotAddr blocks ip k = b := by
  rw [slotList, List.mem_map]
  constructor
  · rintro ⟨j, hj, rfl⟩
    exact ⟨lo + j, Nat.le_add_right _ _, Nat.add_lt_add_left (List.mem_range.mp hj) _, rfl⟩
  · rintro ⟨k, hlo, hk, rfl⟩
    exact ⟨k - lo, List.mem_range.mpr (by omega), by rw [Nat.add_sub_cancel' hlo]⟩

theorem Wf.pairwise_slotList (hw : Wf g blocks inode) (i : ι) (lo len : ℕ) (h : lo + len ≤ nslots) :
    (slotList blocks (inode i) lo len).Pairwise fun a b => a ≠ 0 → a ≠ b := by
  rw [slotList, List.pairwise_map]
  refine List.pairwise_lt_range.imp_of_mem fun {a b} ha hb hab hnz he => ?_
  have ha' := List.mem_range.mp ha
  have hb' := List.mem_range.mp hb
  have := (hw.slot_inj (by omega) (by omega) hnz he).2
  omega

theorem Wf.inUse_slotList (hw : Wf g blocks inode) (i : ι) {lo len : ℕ} (h : lo + len ≤ nslots) :
    ∀ b ∈ slotList blocks (inode i) lo len, b ≠ 0 → InUse sb blocks b := by
  intro b hb hnz
  obtain ⟨k, -, hk, rfl⟩ := mem_slotList.mp hb
  exact hw.inUse i (by omega) hnz

/-- A block is in one slot only. -/
theorem Wf.notMem_slotList (hw : Wf g blocks inode) (i : ι) {lo len k : ℕ} (h : lo + len ≤ nslots)
    (hk : k < nslots) (hnz : slotAddr blocks (inode i) k ≠ 0) (hout : k < lo ∨ lo + len ≤ k) :
    slotAddr blocks (inode i) k ∉ slotList blocks (inode i) lo len := by
  intro hmem
  obtain ⟨l, hlo, hl, he⟩ := mem_slotList.mp hmem
  have := (hw.slot_inj hk (by omega) hnz he.symm).2
  omega

/-- The blocks of a file that `itrunc` frees, in its order. -/
def fileBlocks (blocks : ℕ → Block) (ip : Inode) : List ℕ :=
  slotList blocks ip 0 ndirect ++
    if ip.addr ndirect = 0 then [] else
      slotList blocks ip (ndirect + 1) nindirect ++ [ip.addr ndirect]

/-- They are the addresses in the slots. -/
theorem mem_fileBlocks {b : ℕ} (hb : b ≠ 0) :
    b ∈ fileBlocks blocks ip ↔ ∃ k < nslots, slotAddr blocks ip k = b := by
  have hind := slotAddr_of_le blocks ip (Nat.le_refl ndirect)
  rw [fileBlocks, List.mem_append, mem_slotList]
  by_cases h0 : ip.addr ndirect = 0
  · rw [if_pos h0, or_iff_left List.not_mem_nil]
    constructor
    · rintro ⟨k, -, hk, he⟩
      exact ⟨k, by rw [nslots]; omega, he⟩
    · rintro ⟨k, -, he⟩
      refine ⟨k, Nat.zero_le _, ?_, he⟩
      by_contra hk
      rcases Nat.eq_or_lt_of_le (Nat.not_lt.mp hk) with hk | hk
      · rw [← hk, Nat.zero_add, hind, h0] at he
        exact hb he.symm
      · rw [slotAddr_of_zero _ (by omega) h0] at he
        exact hb he.symm
  · rw [if_neg h0, List.mem_append, mem_slotList, List.mem_singleton]
    constructor
    · rintro (⟨k, -, hk, he⟩ | ⟨k, -, hk, he⟩ | he)
      · exact ⟨k, by rw [nslots]; omega, he⟩
      · exact ⟨k, hk, he⟩
      · exact ⟨ndirect, by decide, hind.trans he.symm⟩
    · rintro ⟨k, hk, he⟩
      rcases Nat.lt_trichotomy k ndirect with hlt | rfl | hgt
      · exact Or.inl ⟨k, Nat.zero_le _, by omega, he⟩
      · exact Or.inr (Or.inr (he.symm.trans hind))
      · exact Or.inr (Or.inl ⟨k, hgt, hk, he⟩)

/-- The addresses that the two loops of `itrunc` go through. -/
theorem map_addr_eq (blocks : ℕ → Block) (ip : Inode) :
    (List.range ndirect).map ip.addr = slotList blocks ip 0 ndirect := by
  refine List.map_congr_left fun j hj => ?_
  rw [Nat.zero_add, slotAddr_of_le _ _ (List.mem_range.mp hj).le]

theorem entries_eq (h0 : ip.addr ndirect ≠ 0) :
    entries (blocks (ip.addr ndirect)) = slotList blocks ip (ndirect + 1) nindirect := by
  refine List.map_congr_left fun j _ => ?_
  rw [slotAddr_entry _ (by omega) h0, Nat.add_sub_cancel_left]

/-- **The frees of `itrunc`** do not panic. -/
theorem itrunc_frees (hw : Wf g v.blocks inode) (i : ι) :
    ∃ v', Frees sb (fileBlocks v.blocks (inode i)) v v' ∧
      itrunc sb (inode i) v =
        some ({ inode i with size := 0, addrs := fun _ => 0 },
          iupdate sb { inode i with size := 0, addrs := fun _ => 0 } v') := by
  obtain ⟨v₁, hv₁, h₁⟩ := freeAll_spec (hw.pairwise_slotList i 0 ndirect (by decide))
    (hw.inUse_slotList i (by decide))
  unfold itrunc fileBlocks
  rw [map_addr_eq v.blocks, hv₁, Option.bind_some]
  by_cases h0 : (inode i).addr ndirect = 0
  · rw [if_pos h0, if_pos h0, List.append_nil]
    exact ⟨v₁, h₁, rfl⟩
  · obtain ⟨huse, hoff⟩ := hw.indirect i h0
    have hind := slotAddr_of_le v.blocks (inode i) (Nat.le_refl ndirect)
    obtain ⟨v₂, hv₂, h₂⟩ := @freeAll_spec v₁ sb _
      (hw.pairwise_slotList i (ndirect + 1) nindirect (by decide)) fun b hb hnz => by
        refine (h₁.used b).mpr ⟨hw.inUse_slotList i (by decide) b hb hnz, fun hd => ?_⟩
        obtain ⟨k, hlo, hk, rfl⟩ := mem_slotList.mp hb
        exact hw.notMem_slotList i (by decide) hk hnz (Or.inr (by omega)) hd.1
    have hind₂ : InUse sb v₂.blocks ((inode i).addr ndirect) := by
      rw [h₂.used, h₁.used]
      rw [← hind] at h0 huse ⊢
      exact ⟨⟨huse, fun hd => hw.notMem_slotList i (by decide) (by decide) h0
          (Or.inr (by omega)) hd.1⟩,
        fun hd => hw.notMem_slotList i (by decide) (by decide) h0 (Or.inl (by omega)) hd.1⟩
    obtain ⟨v₃, hv₃, h₃⟩ := bfree_spec hind₂ h0
    rw [if_neg h0, if_neg h0, h₁.keep _ hoff, entries_eq h0, hv₂, Option.bind_some, hv₃]
    exact ⟨v₃, h₁.append (h₂.append h₃), rfl⟩

variable [DecidableEq ι]

/-- An inode without blocks. -/
theorem slotAddr_empty (blocks : ℕ → Block) (ip : Inode) (k : ℕ) :
    slotAddr blocks { ip with size := 0, addrs := fun _ => 0 } k = 0 := by
  have haddr : ∀ k, ({ ip with size := 0, addrs := fun _ => 0 } : Inode).addr k = 0 := fun k => by
    unfold Inode.addr
    split_ifs <;> rfl
  unfold slotAddr
  rw [haddr, haddr, if_pos rfl, ite_self]

/-- **`itrunc`** gives back every block of the file, and the file is empty. -/
theorem itrunc_spec {s : Files ι} (h : s.Ok g) (i : ι) :
    ∃ ip' v', itrunc sb (s.inode i) s.vol = some (ip', v') ∧
      Files.Ok g ⟨v', update s.inode i ip'⟩ ∧
      (∀ j, Files.bytes ⟨v', update s.inode i ip'⟩ j = update s.bytes i [] j) ∧
      ip'.type = (s.inode i).type := by
  obtain ⟨v', hf, heq⟩ := itrunc_frees h.wf i
  have hslot := slotAddr_empty v'.blocks (s.inode i)
  have hinum : ({ s.inode i with size := 0, addrs := fun _ => 0 } : Inode).inum =
      (s.inode i).inum := rfl
  have hsize : ({ s.inode i with size := 0, addrs := fun _ => 0 } : Inode).size = 0 := rfl
  have htype : ({ s.inode i with size := 0, addrs := fun _ => 0 } : Inode).type =
      (s.inode i).type := rfl
  generalize ({ s.inode i with size := 0, addrs := fun _ => 0 } : Inode) = ip' at *
  have hkeep : Keeps sb (s.inode i) s.vol.blocks v'.blocks := fun b _ hoff _ => hf.keep b hoff
  have hip : update s.inode i ip' i = ip' := update_self _ _ _
  have hother : ∀ j, j ≠ i → update s.inode i ip' j = s.inode j := fun j hj =>
    update_of_ne hj _ _
  have hw : Wf g v'.blocks (update s.inode i ip') := by
    refine h.wf.of_owned hinum (h.wf.owned.release (fun p => p.1 = i) (fun b => ?_) ?_)
    · rw [hf.used]
      refine and_congr_right fun _ => not_congr ?_
      constructor
      · rintro ⟨hmem, hnz⟩
        obtain ⟨k, hk, he⟩ := (mem_fileBlocks hnz).mp hmem
        exact ⟨(i, k), rfl, hk, he, hnz⟩
      · rintro ⟨⟨j, k⟩, hj, hk, he, hnz⟩
        subst hj
        exact ⟨(mem_fileBlocks hnz).mpr ⟨k, hk, he⟩, hnz⟩
    · rintro ⟨j, k⟩ b
      by_cases hj : j = i
      · subst hj
        rw [Holds, hip, hslot]
        exact iff_of_false (fun h => h.2.2 h.2.1.symm) fun h => h.2 rfl
      · rw [Holds, Holds, hother j hj, h.wf.slotAddr_of_keep hj hkeep, and_iff_left hj]
  refine ⟨ip', iupdate sb ip' v', heq, ?_, fun j => ?_, htype⟩
  · have hok := h.close (i := i) hother hkeep hw
      (by rw [hip, hsize]; exact fun bn hbn => absurd hbn (Nat.not_lt_zero _))
      (by rw [hip, hsize]; exact Nat.zero_le _)
    rwa [hip] at hok
  · by_cases hj : j = i
    · subst hj
      rw [update_self, Files.bytes]
      show (List.range (update s.inode j ip' j).size).map _ = _
      rw [hip, hsize]
      rfl
    · have hb := h.close_bytes hj (hother j hj) hkeep hw
      rw [hip] at hb
      rw [update_of_ne hj, hb]

end Itrunc

/-! ### A fresh file system -/

/-- A file system without blocks in files is sound when the bitmap has the metadata only. -/
theorem Files.Ok.fresh {ι : Type} (g : Geometry sb) (s : Files ι)
    (hempty : ∀ i, (s.inode i).size = 0 ∧ (s.inode i).addrs = fun _ => 0)
    (hle : g.datastart ≤ sb.size)
    (hused : ∀ b < sb.size, Used sb.toSuperblock s.vol.blocks b ↔ b < g.datastart)
    (hlt : ∀ i, (s.inode i).inum < g.ninodes)
    (hinj : ∀ i j, (s.inode i).inum = (s.inode j).inum → i = j)
    (hsynced : ∀ i, loadInode (s.inode i).inum (s.vol.blocks (sb.iblock (s.inode i).inum)) =
      s.inode i) : s.Ok g := by
  have hnone : ∀ p b, ¬ Holds s.vol.blocks s.inode p b := by
    rintro ⟨i, k⟩ b ⟨-, he, hb⟩
    have hip : s.inode i = { s.inode i with size := 0, addrs := fun _ => 0 } := by
      rw [← (hempty i).2, ← (hempty i).1]
    dsimp only at he
    rw [hip, slotAddr_empty] at he
    exact hb he.symm
  refine ⟨⟨⟨fun h => absurd h (hnone _ _), fun h => absurd h (hnone _ _), fun b => ?_⟩, hlt, hinj⟩,
    fun i bn hbn => ?_, fun i => ?_, hsynced⟩
  · rw [or_iff_left fun h => hnone _ _ h.choose_spec]
    constructor
    · rintro ⟨hb, hu⟩
      exact (hused b hb).mp hu
    · intro hb
      exact ⟨hb.trans_le hle, (hused b (hb.trans_le hle)).mpr hb⟩
  · rw [(hempty i).1] at hbn
    exact absurd hbn (Nat.not_lt_zero _)
  · rw [(hempty i).1]
    exact Nat.zero_le _

/-- A disk of 8 blocks: boot block, one inode block, one bitmap block, five data blocks. -/
def smallSb : Superblock := ⟨⟨8, 2⟩, 1⟩

def smallGeometry : Geometry smallSb where
  ninodes := 16
  datastart := 3
  datastart_pos := by decide
  inodestart_pos := by decide
  iblock_lt := by decide
  bblock_lt := by decide
  size_lt := by decide

/-- An empty file (`T_FILE`) with one link. -/
def emptyInode (inum : ℕ) : Inode := ⟨inum, 2, 0, 0, 1, 0, fun _ => 0⟩

/-- Two empty files. -/
def smallFiles : Files Bool where
  vol := ⟨fun b =>
    if b = 1 then setWords 32 (emptyInode 2).words (setWords 16 (emptyInode 1).words fun _ => 0)
    else fun j => if b = 2 ∧ j.val = 0 then 7 else 0, [], false⟩
  inode := fun i => emptyInode (if i then 2 else 1)

theorem smallFiles_ok : smallFiles.Ok smallGeometry := by
  refine Files.Ok.fresh smallGeometry smallFiles (fun _ => ⟨rfl, rfl⟩) (by decide) (by decide)
    (by decide) (by decide) fun i => ?_
  have hfits : ∀ inum, (emptyInode inum).Fits := fun _ =>
    ⟨Nat.two_pow_pos 32, fun _ => Nat.two_pow_pos 32⟩
  cases i with
  | true => exact loadInode_setWords (hfits 2) _
  | false =>
    have hne : 1 % ipb ≠ (emptyInode 2).inum % ipb := by decide
    exact (loadInode_setWords_of_ne hne _).trans (loadInode_setWords (hfits 1) _)

end Fs

end Xv6
