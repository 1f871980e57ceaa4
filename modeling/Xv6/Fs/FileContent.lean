import Xv6.Fs.BlockMap

/-!
# The bytes of a file

Byte `p` of a file is byte `p % BSIZE` of its block `p / BSIZE`, wherever that lies (`content`).
This module follows the two loops that move bytes.

The loop of `writei` is described by what holds between two of its iterations (`Written`): of the
bytes from `start` on, `cnt` are in the blocks and `tot` are counted; all other bytes below the
size are what they were. The two numbers differ in one case only. When the source cannot be read
to its end, `either_copyin` has stored the bytes before the bad address in the buffer, and the
loop leaves without counting them.

The loop of `readi` delivers bytes and changes nothing, since every block below the size is there.

## Main results

* `writeLoop_spec` — the loop of `writei`, with the ways in which it may end (`Outcome`)
* `readLoop_spec` — the loop of `readi`
-/

namespace Xv6

namespace Fs

open Disk (Block Used)
open Function (update update_self update_of_ne)

variable {a bn p : ℕ} {ip : Inode} {r : ℕ × Inode × Vol}

/-! ### Contents -/

/-- Byte `p` of a file. -/
def content (blocks : ℕ → Block) (ip : Inode) (p : ℕ) : BitVec 8 :=
  byte (blocks (blockOf blocks ip (p / bsize))) (p % bsize)

/-- The file has all blocks up to byte `n`. -/
def Dense (blocks : ℕ → Block) (ip : Inode) (n : ℕ) : Prop :=
  ∀ bn, bn * bsize < n → blockOf blocks ip bn ≠ 0

theorem Dense.block {blocks : ℕ → Block} {n : ℕ} (h : Dense blocks ip n) (hp : p < n) :
    blockOf blocks ip (p / bsize) ≠ 0 :=
  h _ ((Nat.div_mul_le_self p bsize).trans_lt hp)

theorem byte_copyBytes (o : ℕ) (src : List (BitVec 8)) (b : Block) {j : ℕ} (hj : j < bsize) :
    byte (copyBytes o src b) j = if o ≤ j then (src[j - o]?).getD (byte b j) else byte b j := by
  unfold byte copyBytes
  rw [dif_pos hj, dif_pos hj]

section

variable {ι : Type} {sb : Superblock} {g : Geometry sb} {blocks blocks' : ℕ → Block}
  {inode : ι → Inode}

/-- Writing a block that is no indirect block moves no file. -/
theorem slotAddr_update (ha : ∀ j, (inode j).addr ndirect ≠ 0 → (inode j).addr ndirect ≠ a)
    (x : Block) (j : ι) (k : ℕ) :
    slotAddr (update blocks a x) (inode j) k = slotAddr blocks (inode j) k :=
  slotAddr_congr (fun _ _ => rfl) (fun h => update_of_ne (ha j h) _ _) k

/-- Writing a block that is neither in the bitmap nor an indirect block. -/
theorem Wf.write (hw : Wf g blocks inode) (hoff : OffBitmap sb a)
    (ha : ∀ j, (inode j).addr ndirect ≠ 0 → (inode j).addr ndirect ≠ a) (x : Block) :
    Wf g (update blocks a x) inode where
  owned := by
    have hu : InUse sb (update blocks a x) = InUse sb blocks := by
      funext b
      exact propext (inUse_update hoff x b)
    have hh : Holds (update blocks a x) inode = Holds blocks inode := by
      funext p b
      rw [Holds, Holds, slotAddr_update ha]
    rw [hu, hh]
    exact hw.owned
  inum_lt := hw.inum_lt
  inum_inj := hw.inum_inj

/-! ### The blocks of one file

`ip` is the inode of file `i`; during a call it differs from the one before the call. -/

variable {i : ι}

theorem div_bsize_lt (hp : p < maxfile * bsize) : p / bsize < maxfile :=
  Nat.div_lt_of_lt_mul (by rwa [Nat.mul_comm])

theorem Wf.offBitmap_blockOf (hw : Wf g blocks inode) (hi : inode i = ip) (hbn : bn < maxfile)
    (hnz : blockOf blocks ip bn ≠ 0) : OffBitmap sb (blockOf blocks ip bn) := by
  subst hi
  exact hw.offBitmap i (slotOf_lt hbn) hnz

/-- The block behind a data slot is no indirect block. -/
theorem Wf.ne_indirect (hw : Wf g blocks inode) (hi : inode i = ip) (hbn : bn < maxfile)
    (hnz : blockOf blocks ip bn ≠ 0) (j : ι) : (inode j).addr ndirect ≠ blockOf blocks ip bn := by
  subst hi
  intro he
  rw [← slotAddr_of_le blocks (inode j) (Nat.le_refl ndirect)] at he
  exact slotOf_ne bn (hw.slot_inj (slotOf_lt hbn) (by decide) hnz he.symm).2

/-- Different blocks of a file are different blocks of the disk. -/
theorem Wf.blockOf_ne (hw : Wf g blocks inode) (hi : inode i = ip) {b : ℕ} (ha : a < maxfile)
    (hb : b < maxfile) (hnz : blockOf blocks ip a ≠ 0) (hab : b ≠ a) :
    blockOf blocks ip b ≠ blockOf blocks ip a := by
  subst hi
  intro he
  exact hab (slotOf_inj (hw.slot_inj (slotOf_lt ha) (slotOf_lt hb) hnz he.symm).2).symm

/-- Overwriting a block of a file moves no block. -/
theorem Wf.blockOf_update (hw : Wf g blocks inode) (hi : inode i = ip) (hbn : bn < maxfile)
    (hnz : blockOf blocks ip bn ≠ 0) (x : Block) (k : ℕ) :
    slotAddr (update blocks (blockOf blocks ip bn) x) ip k = slotAddr blocks ip k := by
  have h := @slotAddr_update _ ι blocks inode (fun j _ => hw.ne_indirect hi hbn hnz j) x i k
  rwa [hi] at h

/-- The bytes of a file after one of its blocks was overwritten. -/
theorem Wf.content_update (hw : Wf g blocks inode) (hi : inode i = ip) (hbn : bn < maxfile)
    (hnz : blockOf blocks ip bn ≠ 0) (hp : p < maxfile * bsize) (x : Block) :
    content (update blocks (blockOf blocks ip bn) x) ip p =
      if p / bsize = bn then byte x (p % bsize) else content blocks ip p := by
  have hblk : blockOf (update blocks (blockOf blocks ip bn) x) ip (p / bsize) =
      blockOf blocks ip (p / bsize) := hw.blockOf_update hi hbn hnz x _
  unfold content
  rw [hblk]
  by_cases he : p / bsize = bn
  · rw [if_pos he, he, update_self]
  · rw [if_neg he, update_of_ne (hw.blockOf_ne hi hbn (div_bsize_lt hp) hnz he)]

/-- A block of the file itself may be overwritten. -/
theorem Wf.extends_update (hw : Wf g blocks inode) (hi : inode i = ip) {v v' : Vol}
    (hbn : bn < maxfile) (hnz : blockOf v.blocks ip bn ≠ 0) (hb : v.blocks = blocks) {x : Block}
    (hv : v'.blocks = update v.blocks (blockOf v.blocks ip bn) x) : Extends sb v v' ip ip := by
  subst hb
  refine ⟨Inode.Same.refl _, fun b hb => ?_, fun k _ _ => ?_, fun k _ h0 => ?_,
    fun b _ _ hown => ?_⟩
  · rwa [hv, inUse_update (hw.offBitmap_blockOf hi hbn hnz)]
  · rw [hv, hw.blockOf_update hi hbn hnz]
  · rw [hv, hw.blockOf_update hi hbn hnz]
    exact Or.inl h0
  · have hne : b ≠ blockOf v.blocks ip bn := (hown _ (slotOf_lt hbn)).symm
    rw [hv, update_of_ne hne]

variable [DecidableEq ι]

/-- The bytes of a file while one more block is mapped. -/
theorem Mapped.content {i : ι} {v : Vol} (h : Mapped g inode i bn v ip r) (hp : p < maxfile * bsize)
    (hnz : blockOf v.blocks ip (p / bsize) ≠ 0) :
    blockOf r.2.2.blocks r.2.1 (p / bsize) = blockOf v.blocks ip (p / bsize) ∧
      Fs.content r.2.2.blocks r.2.1 p = Fs.content v.blocks ip p := by
  have hlt := div_bsize_lt hp
  have hblk := h.grows.slots _ (slotOf_lt hlt) hnz
  refine ⟨hblk, ?_⟩
  unfold Fs.content
  rw [show blockOf r.2.2.blocks r.2.1 (p / bsize) = _ from hblk,
    h.data _ (slotOf_lt hlt) (slotOf_ne _) hnz]
  rfl

/-! ### Writing -/

/-- The state of a write that began at byte `start` in volume `v₀`: `tot` bytes of `src` are
written and counted, `cnt` bytes are in the blocks. -/
structure Written (g : Geometry sb) (inode : ι → Inode) (i : ι) (src : List (BitVec 8))
    (start : ℕ) (v₀ : Vol) (tot cnt : ℕ) (ip : Inode) (v : Vol) : Prop where
  wf : Wf g v.blocks (update inode i ip)
  grows : Extends sb v₀ v (inode i) ip
  dense : Dense v.blocks ip (max (inode i).size (start + tot))
  bytes : ∀ p < max (inode i).size (start + tot), content v.blocks ip p =
    if start ≤ p ∧ p < start + cnt then (src[p - start]?).getD 0
    else content v₀.blocks (inode i) p

variable {i : ι} {src : List (BitVec 8)} {start tot : ℕ} {v₀ v : Vol}

theorem Written.mapped (hz : InUse sb v₀.blocks 0)
    (hmax : max (inode i).size (start + tot) ≤ maxfile * bsize)
    (h : Written g inode i src start v₀ tot tot ip v)
    (hm : Mapped g (update inode i ip) i bn v ip r) :
    Written g inode i src start v₀ tot tot r.2.1 r.2.2 where
  wf := by
    have := hm.wf
    rwa [Function.update_idem] at this
  grows := h.grows.trans hm.grows hz
  dense := by
    intro b hb
    have hdiv : b * bsize / bsize = b := Nat.mul_div_cancel b (by decide)
    have hc := (hm.content (p := b * bsize) (hb.trans_le hmax) (by rw [hdiv]; exact h.dense b hb)).1
    rw [hdiv] at hc
    rw [hc]
    exact h.dense b hb
  bytes := by
    intro p hp
    rw [(hm.content (hp.trans_le hmax) (h.dense.block hp)).2]
    exact h.bytes p hp

/-- One piece is copied into the block at `start + tot`. It counts when all of it could be
read. -/
theorem Written.store {m tot' : ℕ} (hz : InUse sb v₀.blocks 0)
    (h : Written g inode i src start v₀ tot tot ip v) (v' : Vol)
    (hmax : start + tot < maxfile * bsize) (hsize : (inode i).size ≤ maxfile * bsize)
    (hm : (start + tot) % bsize + m ≤ bsize) (hnz : blockOf v.blocks ip ((start + tot) / bsize) ≠ 0)
    (hv : v'.blocks = update v.blocks (blockOf v.blocks ip ((start + tot) / bsize))
      (copyBytes ((start + tot) % bsize) ((src.drop tot).take m)
        (v.blocks (blockOf v.blocks ip ((start + tot) / bsize)))))
    (htot : tot' = tot ∨ (tot' = tot + m ∧ ((src.drop tot).take m).length = m)) :
    Written g inode i src start v₀ tot' (tot + ((src.drop tot).take m).length) ip v' := by
  have hip : update inode i ip i = ip := update_self _ _ _
  have hbn := div_bsize_lt hmax
  have hw := h.wf
  have hlen : ((src.drop tot).take m).length ≤ m := List.length_take_le _ _
  refine ⟨?_, h.grows.trans (hw.extends_update hip hbn hnz rfl hv) hz, fun b hb => ?_,
    fun p hp => ?_⟩
  · rw [hv]
    exact hw.write (hw.offBitmap_blockOf hip hbn hnz) (fun j _ => hw.ne_indirect hip hbn hnz j) _
  · rw [blockOf, hv, hw.blockOf_update hip hbn hnz]
    by_cases hold : b * bsize < max (inode i).size (start + tot)
    · exact h.dense b hold
    · -- beyond the blocks the file had there is only the one that is written
      have hb' : b = (start + tot) / bsize := by
        simp only [Disk.bsize_eq] at *
        omega
      rw [hb']
      exact hnz
  · have hp' : p < maxfile * bsize := by
      simp only [Disk.bsize_eq, maxfile_eq] at *
      omega
    rw [hv, hw.content_update hip hbn hnz hp']
    have hmod : p % bsize < bsize := Nat.mod_lt _ (by decide)
    by_cases hblk : p / bsize = (start + tot) / bsize
    · have hold : byte (v.blocks (blockOf v.blocks ip ((start + tot) / bsize))) (p % bsize) =
          content v.blocks ip p := by rw [content, hblk]
      rw [if_pos hblk, byte_copyBytes _ _ _ hmod, hold]
      by_cases hle : start + tot ≤ p
      · have hidx : p % bsize - (start + tot) % bsize = p - (start + tot) := by
          simp only [Disk.bsize_eq] at *
          omega
        rw [if_pos (by simp only [Disk.bsize_eq] at *; omega), hidx]
        by_cases hin : p - (start + tot) < ((src.drop tot).take m).length
        · have hsrc : ((src.drop tot).take m)[p - (start + tot)]? = src[p - start]? := by
            rw [List.getElem?_take_of_lt (hin.trans_le hlen), List.getElem?_drop]
            congr 1
            omega
          have hlt : p - start < src.length := by
            rw [List.length_take, List.length_drop] at hin
            omega
          rw [hsrc, if_pos (by omega), List.getElem?_eq_getElem hlt]
          rfl
        · rw [List.getElem?_eq_none (Nat.not_lt.mp hin), Option.getD_none, h.bytes p (by omega),
            if_neg (by omega), if_neg (by omega)]
      · rw [if_neg (by simp only [Disk.bsize_eq] at *; omega), h.bytes p (by omega)]
        exact if_congr (by omega) rfl rfl
    · rw [if_neg hblk, h.bytes p (by simp only [Disk.bsize_eq] at *; omega)]
      refine if_congr ?_ rfl rfl
      simp only [Disk.bsize_eq] at *
      omega

/-- How a write of `n` bytes of which `len` can be read may end: `tot` bytes are counted, `cnt`
are in the blocks. It stops early when the disk is full or the source ends, and only in the second
case bytes are left in the blocks that are not counted. -/
structure Outcome (len n : ℕ) (full : Prop) (tot cnt : ℕ) : Prop where
  tot_le : tot ≤ n
  le_cnt : tot ≤ cnt
  cnt_le : cnt ≤ len
  short : tot < n → full ∨ len < n
  uncounted : cnt = tot ∨ (cnt = len ∧ len < n)

/-- **The loop of `writei`.** -/
theorem writeLoop_spec (n fuel : ℕ) (hz : InUse sb v₀.blocks 0)
    (hmax : start + n ≤ maxfile * bsize) (hsize : (inode i).size ≤ maxfile * bsize)
    (h : Written g inode i src start v₀ tot tot ip v) (hfuel : n ≤ tot + fuel) (htot : tot ≤ n)
    (hsrc : tot ≤ src.length) :
    ∃ tot' cnt ip' v',
      writeLoop sb src n fuel tot (start + tot) ip v = some (tot', start + tot', ip', v') ∧
      Written g inode i src start v₀ tot' cnt ip' v' ∧
      Outcome src.length n (Full sb v'.blocks) tot' cnt := by
  induction fuel generalizing tot ip v with
  | zero =>
    exact ⟨tot, tot, ip, v, rfl, h, htot, Nat.le_refl _, hsrc, fun hlt => by omega, Or.inl rfl⟩
  | succ fuel ih =>
    unfold writeLoop
    by_cases hlt : tot < n
    · have hoff : start + tot < maxfile * bsize := by omega
      have hip : update inode i ip i = ip := update_self _ _ _
      obtain ⟨r, hr, hm⟩ := bmap_spec h.wf i (div_bsize_lt hoff)
      rw [hip] at hr hm
      rw [if_pos hlt, hr, Option.bind_some]
      have h' := h.mapped hz (max_le hsize hoff.le) hm
      by_cases h0 : r.1 = 0
      · rw [if_pos h0]
        exact ⟨tot, tot, _, _, rfl, h', htot, Nat.le_refl _, hsrc, fun _ => Or.inl (hm.full h0),
          Or.inl rfl⟩
      · rw [if_neg h0]
        have hm0 : 0 < min (n - tot) (bsize - (start + tot) % bsize) := by
          have : (start + tot) % bsize < bsize := Nat.mod_lt _ (by decide)
          omega
        have hfit : (start + tot) % bsize + min (n - tot)
          (bsize - (start + tot) % bsize) ≤ bsize := by
          have : (start + tot) % bsize < bsize := Nat.mod_lt _ (by decide)
          omega
        have hmn : min (n - tot) (bsize - (start + tot) % bsize) ≤ n - tot := min_le_left _ _
        generalize min (n - tot) (bsize - (start + tot) % bsize) = m at hm0 hfit hmn
        have hlen : ((src.drop tot).take m).length = min m (src.length - tot) := by
          rw [List.length_take, List.length_drop]
        have hnz : blockOf r.2.2.blocks r.2.1 ((start + tot) / bsize) ≠ 0 := by rwa [hm.addr]
        by_cases hshort : ((src.drop tot).take m).length < m
        · rw [if_pos hshort]
          have hst := h'.store hz (r.2.2.poke r.1
            (copyBytes ((start + tot) % bsize) ((src.drop tot).take m) (r.2.2.blocks r.1)))
            hoff hsize hfit hnz (by rw [hm.addr, Vol.poke_blocks]) (Or.inl rfl)
          refine ⟨tot, _, _, _, rfl, hst, htot, Nat.le_add_right _ _, by omega,
            fun _ => Or.inr (by omega), Or.inr (by omega)⟩
        · rw [if_neg hshort]
          have hst := h'.store hz (r.2.2.write r.1
            (copyBytes ((start + tot) % bsize) ((src.drop tot).take m) (r.2.2.blocks r.1)))
            hoff hsize hfit hnz (by rw [hm.addr, Vol.write_blocks]) (Or.inr ⟨rfl, by omega⟩)
          rw [show tot + ((src.drop tot).take m).length = tot + m by omega] at hst
          rw [Nat.add_assoc start tot m]
          exact ih hst (by omega) (by omega) (by omega)
    · rw [if_neg hlt]
      exact ⟨tot, tot, ip, v, rfl, h, htot, Nat.le_refl _, hsrc, fun h => absurd h hlt,
        Or.inl rfl⟩

end

/-! ### Reading -/

section

variable {sb : Superblock} {v : Vol} {n : ℕ}

/-- `bmap` of a block that is there. -/
theorem bmap_of_ne (hbn : bn < maxfile) (hnz : blockOf v.blocks ip bn ≠ 0) :
    bmap sb bn ip v = some (blockOf v.blocks ip bn, ip, v) := by
  unfold bmap
  by_cases hdir : bn < ndirect
  · have haddr : blockOf v.blocks ip bn = ip.addr bn := by
      rw [blockOf, slotOf, if_pos hdir, slotAddr_of_le _ _ hdir.le]
    rw [haddr] at hnz ⊢
    rw [if_pos hdir, if_neg hnz]
  · have hlt : ndirect < bn + 1 := by omega
    have hj : bn - ndirect < nindirect := by
      rw [maxfile] at hbn
      omega
    have hslot : blockOf v.blocks ip bn = slotAddr v.blocks ip (bn + 1) := by
      rw [blockOf, slotOf, if_neg hdir]
    have hind : ip.addr ndirect ≠ 0 := fun h0 => hnz (hslot.trans (slotAddr_of_zero _ hlt h0))
    rw [hslot, slotAddr_entry _ hlt hind, Nat.add_sub_add_right] at hnz ⊢
    rw [if_neg hdir, if_pos hj, if_neg hind, bmapIndirect, if_neg hnz]

/-- The bytes of one block are a piece of the file. -/
theorem piece_eq (blocks : ℕ → Block) (ip : Inode) {off m : ℕ} (hm : off % bsize + m ≤ bsize) :
    (List.range m).map (fun j => byte (blocks (blockOf blocks ip (off / bsize)))
    (off % bsize + j)) =
      (List.range m).map fun j => content blocks ip (off + j) := by
  refine List.map_congr_left fun j hj => ?_
  have hj' := List.mem_range.mp hj
  have hdiv : (off + j) / bsize = off / bsize := by
    simp only [Disk.bsize_eq] at *
    omega
  have hmod : (off + j) % bsize = off % bsize + j := by
    simp only [Disk.bsize_eq] at *
    omega
  rw [content, hdiv, hmod]

/-- **The loop of `readi`** delivers the bytes of the file in order, as many as there is room
for. -/
theorem readLoop_spec {room fuel tot off : ℕ} (hdense : Dense v.blocks ip (off + (n - tot)))
    (hmax : off + (n - tot) ≤ maxfile * bsize) (hfuel : n ≤ tot + fuel) (hroom : tot ≤ room)
    (htot : tot ≤ n) :
    readLoop sb room n fuel tot off ip v =
      some (((List.range (min n room - tot)).map fun j => content v.blocks ip (off + j),
        decide (n ≤ room)), ip, v) := by
  induction fuel generalizing tot off with
  | zero =>
    have hn : tot = n := by omega
    subst hn
    rw [readLoop, decide_eq_true hroom, Nat.min_eq_left hroom, Nat.sub_self]
    rfl
  | succ fuel ih =>
    unfold readLoop
    by_cases hlt : tot < n
    · have hoff : off < maxfile * bsize := by omega
      have hnz := hdense.block (p := off) (by omega)
      rw [if_pos hlt, bmap_of_ne (div_bsize_lt hoff) hnz, Option.bind_some, if_neg hnz]
      have hpos : off % bsize < bsize := Nat.mod_lt _ (by decide)
      have hfit : off % bsize + min (n - tot) (bsize - off % bsize) ≤ bsize := by omega
      have hm0 : 0 < min (n - tot) (bsize - off % bsize) := by omega
      have hmn : min (n - tot) (bsize - off % bsize) ≤ n - tot := min_le_left _ _
      generalize min (n - tot) (bsize - off % bsize) = m at hfit hm0 hmn
      dsimp only
      rw [piece_eq _ _ hfit]
      by_cases hshort : room < tot + m
      · rw [if_pos hshort, decide_eq_false (by omega), ← List.map_take, List.take_range,
          show min (room - tot) m = min n room - tot by omega]
      · have hrest : off + m + (n - (tot + m)) = off + (n - tot) := by omega
        rw [if_neg hshort, ih (by rwa [hrest]) (by rwa [hrest]) (by omega) (by omega) (by omega),
          show min n room - tot = m + (min n room - (tot + m)) by omega, List.range_add,
          List.map_append, List.map_map]
        simp only [Option.map_some, Function.comp_def, Nat.add_assoc]
    · have hn : tot = n := by omega
      subst hn
      rw [if_neg hlt, decide_eq_true hroom, Nat.min_eq_left hroom, Nat.sub_self]
      rfl

end

end Fs

end Xv6
