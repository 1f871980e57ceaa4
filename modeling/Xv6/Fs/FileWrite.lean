import Mathlib.Order.Interval.Finset.Nat
import Xv6.Fs.Files

/-!
# How much a file call logs

`filewrite` cuts a write into pieces and makes one transaction of each, "to avoid exceeding the
maximum log transaction size, including i-node, indirect block, allocation blocks, and 2 blocks of
slop for non-aligned writes". `writei_logs_le` shows that the arithmetic works out: a piece logs at
most `MAXOPBLOCKS` blocks. The argument is by a potential. What a piece may still have to log for
the indirect block (its bitmap block and the block itself) is counted in advance; then a block of
the file that is there costs one more logged block, one that has to be allocated two.

`itrunc` is not cut into pieces. It logs one block for each bitmap block under which the file has
blocks, and the inode block (`itrunc_logs`), which is within the limit exactly when the file has
blocks under fewer than `MAXOPBLOCKS` bitmap blocks. An image of `FSSIZE` blocks has 15 of them.
-/

namespace Xv6

namespace Fs

open Disk (Block Used)
open Function (update update_self update_of_ne)

variable {blocks : ℕ → Block} {bn fuel off tot : ℕ} {c old src : List (BitVec 8)} {ip : Inode}
  {r : ℕ × Inode × Vol}

/-! ### `filewrite` -/

/-- `max`: the bytes of one transaction of `filewrite`. -/
def filewriteMax : ℕ := (maxopblocks - 1 - 1 - 2) / 2 * bsize

@[simp] theorem filewriteMax_eq : filewriteMax = 3072 := rfl

/-- A transaction begins with nothing logged. -/
def Vol.beginOp (v : Vol) : Vol := ⟨v.blocks, [], false⟩

/-- The loop of `filewrite`, with at most the given number of iterations left: how far it got, the
offset of the open file, the blocks that each transaction has logged, the inode and the volume.
`none` is a panic, be it of `log_write`. -/
def filewriteLoop (sb : Superblock) (src : List (BitVec 8)) (n : ℕ) :
    ℕ → ℕ → ℕ → Inode → Vol → Option ((ℕ × ℕ) × List (List ℕ) × Inode × Vol)
  | 0, i, off, ip, v => some ((i, off), [], ip, v)
  | fuel + 1, i, off, ip, v =>
    if i < n then
      let n1 := min (n - i) filewriteMax
      (writei sb (src.drop i) off n1 ip v.beginOp).bind fun r =>
        let off' := if 0 < r.1 then off + r.1.toNat else off
        if r.2.2.tooBig = true then none
        else if r.1 ≠ n1 then some ((i, off'), [r.2.2.logged], r.2.1, r.2.2)
        else (filewriteLoop sb src n fuel (i + n1) off' r.2.1 r.2.2).map fun q =>
          (q.1, r.2.2.logged :: q.2.1, q.2.2)
    else some ((i, off), [], ip, v)

/-- `filewrite` on a file: the value it returns, and the rest of what the loop leaves. -/
def filewrite (sb : Superblock) (writable : Bool) (src : List (BitVec 8)) (n : ℤ) (off : ℕ)
    (ip : Inode) (v : Vol) : Option (ℤ × ℕ × List (List ℕ) × Inode × Vol) :=
  if writable = false then some (-1, off, [], ip, v)
  else (filewriteLoop sb src n.toNat n.toNat 0 off ip v).map fun r =>
    (if r.1.1 = n then n else -1, r.1.2, r.2)

/-! ### The cost of a piece -/

/-- At most `k` more blocks are logged. -/
structure Logs (k : ℕ) (v v' : Vol) : Prop where
  length : v'.logged.length ≤ v.logged.length + k
  mono : ∀ c ∈ v.logged, c ∈ v'.logged

theorem Logs.trans {k l : ℕ} {v v' v'' : Vol} (h : Logs k v v') (h' : Logs l v' v'') :
    Logs (k + l) v v'' where
  length := by
    have h1 := h.length
    have h2 := h'.length
    omega
  mono := fun c hc => h'.mono c (h.mono c hc)

namespace Vol

variable {v : Vol} {b c : ℕ}

theorem logs_note (b : ℕ) (v : Vol) : Logs 1 v (v.note b) where
  length := by
    unfold note
    dsimp only
    split_ifs with h
    · exact Nat.le_succ _
    · exact Nat.le_refl _
  mono := fun _ hc => mem_note.mpr (Or.inr hc)

theorem logs_note_of_mem (h : b ∈ v.logged) : Logs 0 v (v.note b) where
  length := by
    unfold note
    rw [if_pos h]
    exact Nat.le_refl _
  mono := fun _ hc => mem_note.mpr (Or.inr hc)

theorem logs_write (b : ℕ) (x : Block) (v : Vol) : Logs 1 v (v.write b x) :=
  ⟨(logs_note b (v.poke b x)).length, (logs_note b (v.poke b x)).mono⟩

theorem logs_write_of_mem (x : Block) (h : b ∈ v.logged) : Logs 0 v (v.write b x) :=
  ⟨(logs_note_of_mem (v := v.poke b x) h).length, (logs_note_of_mem (v := v.poke b x) h).mono⟩

theorem mem_write (b : ℕ) (x : Block) (v : Vol) : b ∈ (v.write b x).logged :=
  mem_note.mpr (Or.inl rfl)

/-- `balloc` logs the bitmap block and the block itself, which it zeroes. -/
theorem balloc_logs (sb : Superblock) (v : Vol) :
    Logs 2 v (v.balloc sb).2 ∧ ((v.balloc sb).1 ≠ 0 →
      (v.balloc sb).1 ∈ (v.balloc sb).2.logged ∧
        (v.balloc sb).2.blocks (v.balloc sb).1 = fun _ => 0) := by
  rcases Disk.balloc_spec sb.toSuperblock v.blocks with ⟨x, hx, hfree, -, he⟩ | ⟨hall, he⟩
  · rw [Vol.balloc, he, if_pos ⟨hx, hfree⟩]
    have h := (logs_note (sb.bblock x)
      { v with blocks := Disk.taken sb.toSuperblock x v.blocks }).trans (logs_note x _)
    exact ⟨⟨h.length, h.mono⟩,
      fun _ => ⟨mem_note.mpr (Or.inl rfl), update_self _ _ _⟩⟩
  · rw [Vol.balloc, he, if_neg fun h => h.2 (hall 0 h.1)]
    exact ⟨⟨Nat.le_add_right _ _, fun _ hc => hc⟩, fun h => absurd rfl h⟩

end Vol

/-! ### The panic of `log_write` -/

section Fits

variable {sb : Superblock} {v : Vol} (h : v.Fits)

include h

theorem Vol.Fits.write (b : ℕ) (x : Block) : (v.write b x).Fits := Fits.note (v := v.poke b x) h b

theorem Vol.Fits.balloc (sb : Superblock) : (v.balloc sb).2.Fits := by
  unfold Vol.balloc
  dsimp only
  split_ifs
  · exact (Fits.note (v := { v with blocks := _ }) h _).note _
  · exact h

theorem Vol.Fits.bmapIndirect (sb : Superblock) (ind j : ℕ) : (bmapIndirect sb ind j v).2.Fits := by
  unfold Fs.bmapIndirect
  dsimp only
  split_ifs
  · exact h.balloc sb
  · exact (h.balloc sb).write _ _
  · exact h

theorem Vol.Fits.bmap (hr : bmap sb bn ip v = some r) : r.2.2.Fits := by
  unfold Fs.bmap at hr
  dsimp only at hr
  split_ifs at hr <;> obtain rfl := Option.some.inj hr
  · exact h.balloc sb
  · exact h.balloc sb
  · exact h
  · exact h.balloc sb
  · exact (h.balloc sb).bmapIndirect sb _ _
  · exact h.bmapIndirect sb _ _

theorem Vol.Fits.writeLoop {n : ℕ} {r : ℕ × ℕ × Inode × Vol}
    (hr : writeLoop sb src n fuel tot off ip v = some r) : r.2.2.2.Fits := by
  induction fuel generalizing tot off ip v with
  | zero =>
    obtain rfl := Option.some.inj hr
    exact h
  | succ fuel ih =>
    unfold Fs.writeLoop at hr
    split_ifs at hr
    · obtain ⟨q, hq, hr⟩ := Option.bind_eq_some_iff.mp hr
      have hq' := h.bmap hq
      dsimp only at hr
      split_ifs at hr
      · obtain rfl := Option.some.inj hr
        exact hq'
      · obtain rfl := Option.some.inj hr
        exact hq'
      · exact ih (hq'.write _ _) hr
    · obtain rfl := Option.some.inj hr
      exact h

theorem Vol.Fits.writei {n : ℕ} {r : ℤ × Inode × Vol} (hr : writei sb src off n ip v = some r) :
    r.2.2.Fits := by
  unfold Fs.writei at hr
  split_ifs at hr
  · obtain rfl := Option.some.inj hr
    exact h
  · obtain rfl := Option.some.inj hr
    exact h
  · obtain ⟨q, hq, rfl⟩ := Option.map_eq_some_iff.mp hr
    exact (h.writeLoop hq).write _ _

end Fits

/-- A log with room has seen no panic. -/
theorem Vol.Fits.not_tooBig {v : Vol} (h : v.Fits) (hlt : v.logged.length < logblocks) :
    v.tooBig = false :=
  Bool.eq_false_iff.mpr fun hbig => Nat.not_le.mpr hlt (h hbig)

theorem Vol.fits_beginOp (v : Vol) : v.beginOp.Fits := fun h => absurd h Bool.false_ne_true

/-! ### The potential -/

/-- The blocks logged so far, and those that may still have to be for the indirect block. -/
def charged (ip : Inode) (v : Vol) : ℕ :=
  v.logged.length + if ip.addr ndirect ≠ 0 ∧ ip.addr ndirect ∈ v.logged then 0 else 2

section Charged

variable {sb : Superblock} {ip' : Inode} {v v' : Vol} {k : ℕ}

theorem charged_le (h : Logs k v v') (hind : ip'.addr ndirect = ip.addr ndirect) :
    charged ip' v' ≤ charged ip v + k := by
  have hlen := h.length
  have hmono := h.mono (ip.addr ndirect)
  unfold charged
  rw [hind]
  split_ifs with h1 h2 h2
  · omega
  · omega
  · exact absurd ⟨h2.1, hmono h2.2⟩ h1
  · omega

/-- The indirect block is logged. -/
theorem charged_of_mem (h0 : ip.addr ndirect ≠ 0) (h : ip.addr ndirect ∈ v.logged) :
    charged ip v = v.logged.length := by
  rw [charged, if_pos ⟨h0, h⟩, Nat.add_zero]

theorem length_le_charged (ip : Inode) (v : Vol) : v.logged.length ≤ charged ip v :=
  Nat.le_add_right _ _

theorem charged_le_add_two (ip : Inode) (v : Vol) : charged ip v ≤ v.logged.length + 2 := by
  unfold charged
  split_ifs <;> omega

/-- A new block behind the indirect block. -/
theorem bmapIndirect_charged {j : ℕ} (hnz : ip.addr ndirect ≠ 0)
    (h0 : (word (v.blocks (ip.addr ndirect)) j).toNat = 0) :
    charged ip (bmapIndirect sb (ip.addr ndirect) j v).2 ≤ charged ip v + 2 ∧
    ((bmapIndirect sb (ip.addr ndirect) j v).1 ≠ 0 →
      (bmapIndirect sb (ip.addr ndirect) j v).1 ∈
        (bmapIndirect sb (ip.addr ndirect) j v).2.logged) := by
  obtain ⟨hlogs, hmem⟩ := Vol.balloc_logs sb v
  unfold bmapIndirect
  rw [if_pos h0]
  dsimp only
  by_cases hx : (v.balloc sb).1 = 0
  · rw [if_pos hx]
    exact ⟨charged_le hlogs rfl, fun h => absurd rfl h⟩
  · rw [if_neg hx]
    refine ⟨?_, fun _ => (Vol.logs_write _ _ _).mono _ (hmem hx).1⟩
    dsimp only
    generalize hblk : setWord ((v.balloc sb).2.blocks (ip.addr ndirect)) j
      (BitVec.ofNat 32 (v.balloc sb).1) = blk
    by_cases hind : ip.addr ndirect ∈ v.logged
    · exact charged_le (hlogs.trans (Vol.logs_write_of_mem blk (hlogs.mono _ hind))) rfl
    · rw [charged_of_mem hnz (Vol.mem_write _ _ _), charged, if_neg fun h => hind h.2]
      have := (hlogs.trans (Vol.logs_write (ip.addr ndirect) blk _)).length
      omega

/-- `bmap` of a block that has to be allocated. -/
theorem bmap_charged (h0 : blockOf v.blocks ip bn = 0) (hr : bmap sb bn ip v = some r) :
    charged r.2.1 r.2.2 ≤ charged ip v + 2 ∧ (r.1 ≠ 0 → r.1 ∈ r.2.2.logged) := by
  obtain ⟨hlogs, hmem⟩ := Vol.balloc_logs sb v
  unfold bmap at hr
  by_cases hdir : bn < ndirect
  · have ha : ip.addr bn = 0 := by
      rwa [blockOf, slotOf, if_pos hdir, slotAddr_of_le _ _ hdir.le] at h0
    rw [if_pos hdir, if_pos ha] at hr
    by_cases hx : (v.balloc sb).1 = 0
    · obtain rfl := Option.some.inj ((if_pos hx).symm.trans hr)
      exact ⟨charged_le hlogs rfl, fun h => absurd rfl h⟩
    · obtain rfl := Option.some.inj ((if_neg hx).symm.trans hr)
      refine ⟨charged_le hlogs ?_, fun _ => (hmem hx).1⟩
      rw [Inode.addr_setAddr _ hdir.le, if_neg hdir.ne']
  · rw [if_neg hdir] at hr
    by_cases hj : bn - ndirect < nindirect
    · rw [if_pos hj] at hr
      by_cases hi0 : ip.addr ndirect = 0
      · rw [if_pos hi0] at hr
        by_cases hx : (v.balloc sb).1 = 0
        · obtain rfl := Option.some.inj ((if_pos hx).symm.trans hr)
          exact ⟨charged_le hlogs rfl, fun h => absurd rfl h⟩
        · -- the indirect block is new: it was counted in advance
          obtain rfl := Option.some.inj ((if_neg hx).symm.trans hr)
          obtain ⟨hlogged, hzero⟩ := hmem hx
          have hind : (ip.setAddr ndirect (v.balloc sb).1).addr ndirect = (v.balloc sb).1 := by
            rw [Inode.addr_setAddr _ (Nat.le_refl _), if_pos rfl]
          have hbefore : charged (ip.setAddr ndirect (v.balloc sb).1) (v.balloc sb).2 ≤
              charged ip v := by
            rw [charged_of_mem (by rwa [hind]) (by rwa [hind]), charged,
              if_neg fun h => h.1 hi0]
            exact hlogs.length
          have h := @bmapIndirect_charged (ip.setAddr ndirect (v.balloc sb).1) sb
            (v.balloc sb).2 (bn - ndirect) (by rwa [hind])
            (by rw [hind, hzero, word_zero]; rfl)
          rw [hind] at h
          exact ⟨h.1.trans (Nat.add_le_add_right hbefore 2), h.2⟩
      · rw [if_neg hi0] at hr
        obtain rfl := Option.some.inj hr
        refine bmapIndirect_charged hi0 ?_
        rwa [blockOf, slotOf, if_neg hdir, slotAddr_entry _ (by omega) hi0,
          Nat.add_sub_add_right] at h0
    · rw [if_neg hj] at hr
      cases hr

theorem bmap_charged_le (hbn : bn < maxfile) (hr : bmap sb bn ip v = some r) :
    charged r.2.1 r.2.2 ≤ charged ip v + 2 := by
  by_cases h0 : blockOf v.blocks ip bn = 0
  · exact (bmap_charged h0 hr).1
  · rw [bmap_of_ne hbn h0] at hr
    obtain rfl := Option.some.inj hr
    exact Nat.le_add_right _ _

/-- One iteration costs at most two blocks, and one when the block is there. -/
theorem write_charged (hbn : bn < maxfile) (hr : bmap sb bn ip v = some r) (hx : r.1 ≠ 0)
    (x : Block) :
    charged r.2.1 (r.2.2.write r.1 x) ≤
      charged ip v + if blockOf v.blocks ip bn = 0 then 2 else 1 := by
  by_cases h0 : blockOf v.blocks ip bn = 0
  · obtain ⟨h1, h2⟩ := bmap_charged h0 hr
    rw [if_pos h0]
    exact (charged_le (Vol.logs_write_of_mem x (h2 hx)) rfl).trans h1
  · rw [bmap_of_ne hbn h0] at hr
    obtain rfl := Option.some.inj hr
    rw [if_neg h0]
    exact charged_le (Vol.logs_write _ x v) rfl

/-- The loop of `writei` from the beginning of a block on. -/
theorem writeLoop_charged {n : ℕ} {r : ℕ × ℕ × Inode × Vol} (hal : off % bsize = 0 ∨ n ≤ tot)
    (hmax : off + (n - tot) ≤ maxfile * bsize)
    (hr : writeLoop sb src n fuel tot off ip v = some r) :
    charged r.2.2.1 r.2.2.2 ≤ charged ip v + 2 * ((n - tot + (bsize - 1)) / bsize) := by
  induction fuel generalizing tot off ip v with
  | zero =>
    obtain rfl := Option.some.inj hr
    exact Nat.le_add_right _ _
  | succ fuel ih =>
    unfold writeLoop at hr
    by_cases hlt : tot < n
    · rw [if_pos hlt] at hr
      have hmod : off % bsize = 0 := hal.resolve_right (Nat.not_le.mpr hlt)
      obtain ⟨q, hq, hr⟩ := Option.bind_eq_some_iff.mp hr
      have hone : 1 ≤ (n - tot + (bsize - 1)) / bsize := by
        simp only [Disk.bsize_eq]
        omega
      have hbn : off / bsize < maxfile := div_bsize_lt (by omega)
      have hbmap := bmap_charged_le hbn hq
      by_cases hx : q.1 = 0
      · rw [if_pos hx] at hr
        obtain rfl := Option.some.inj hr
        exact hbmap.trans (by omega)
      · rw [if_neg hx] at hr
        dsimp only at hr
        split_ifs at hr with hshort
        · obtain rfl := Option.some.inj hr
          exact hbmap.trans (by omega)
        · have hm : min (n - tot) (bsize - off % bsize) = min (n - tot) bsize := by
            rw [hmod, Nat.sub_zero]
          rw [hm] at hr
          have hstep := write_charged hbn hq hx (copyBytes (off % bsize)
            ((src.drop tot).take (min (n - tot) bsize)) (q.2.2.blocks q.1))
          have htwo : (if blockOf v.blocks ip (off / bsize) = 0 then 2 else 1) ≤ 2 := by
            split_ifs <;> omega
          have hrest := ih (by simp only [Disk.bsize_eq] at *; omega) (by omega) hr
          refine hrest.trans ((Nat.add_le_add_right hstep _).trans ?_)
          have hblocks : 2 + 2 * ((n - (tot + min (n - tot) bsize) + (bsize - 1)) / bsize) ≤
              2 * ((n - tot + (bsize - 1)) / bsize) := by
            simp only [Disk.bsize_eq]
            omega
          omega
    · rw [if_neg hlt] at hr
      obtain rfl := Option.some.inj hr
      exact Nat.le_add_right _ _

/-- A write of at most three blocks, wherever it begins. The first block, when the write begins in
the middle of it, is there already. -/
theorem writeLoop_logs_le {n : ℕ} {r : ℕ × ℕ × Inode × Vol} (hn : n ≤ filewriteMax)
    (hmax : off + n ≤ maxfile * bsize)
    (hthere : off % bsize ≠ 0 → blockOf v.blocks ip (off / bsize) ≠ 0)
    (hr : writeLoop sb src n n 0 off ip v = some r) :
    charged r.2.2.1 r.2.2.2 ≤ charged ip v + 7 := by
  rw [filewriteMax_eq] at hn
  by_cases hal : off % bsize = 0
  · refine (writeLoop_charged (Or.inl hal) hmax hr).trans ?_
    simp only [Disk.bsize_eq]
    omega
  · have hnz := hthere hal
    cases n with
    | zero =>
      obtain rfl := Option.some.inj hr
      exact Nat.le_add_right _ _
    | succ n =>
      have hbn : off / bsize < maxfile := div_bsize_lt (by omega)
      rw [writeLoop, if_pos (Nat.succ_pos n), bmap_of_ne hbn hnz, Option.bind_some,
        if_neg hnz] at hr
      dsimp only at hr
      split_ifs at hr with hshort
      · obtain rfl := Option.some.inj hr
        exact Nat.le_add_right _ _
      · have hwrite := @charged_le ip ip v _ 1 (Vol.logs_write (blockOf v.blocks ip (off / bsize))
          (copyBytes (off % bsize) ((src.drop 0).take (min (n + 1 - 0) (bsize - off % bsize)))
            (v.blocks (blockOf v.blocks ip (off / bsize)))) v) rfl
        have hrest := writeLoop_charged (by simp only [Disk.bsize_eq] at *; omega) (by omega) hr
        refine hrest.trans ((Nat.add_le_add_right hwrite _).trans ?_)
        have hblocks : (n + 1 - (0 + min (n + 1 - 0) (bsize - off % bsize)) + (bsize - 1)) / bsize ≤
            3 := by
          simp only [Disk.bsize_eq] at *
          omega
        omega

end Charged

/-! ### Whole calls of `filewrite` -/

section Filewrite

variable {ι : Type} {sb : Superblock} {g : Geometry sb} {s : Files ι} {f : ι} {n : ℕ}

theorem Files.Ok.beginOp (h : s.Ok g) : Files.Ok g ⟨s.vol.beginOp, s.inode⟩ :=
  ⟨h.wf, h.dense, h.size_le, h.synced⟩

theorem writei_logs_le (h : s.Ok g) (hn : n ≤ filewriteMax) {r : ℤ × Inode × Vol}
    (hr : writei sb src off n (s.inode f) s.vol.beginOp = some r) :
    r.2.2.logged.length ≤ maxopblocks := by
  unfold writei at hr
  split_ifs at hr with h1 h2
  · obtain rfl := Option.some.inj hr
    exact Nat.zero_le _
  · obtain rfl := Option.some.inj hr
    exact Nat.zero_le _
  · obtain ⟨q, hq, rfl⟩ := Option.map_eq_some_iff.mp hr
    have hthere : off % bsize ≠ 0 →
        blockOf s.vol.beginOp.blocks (s.inode f) (off / bsize) ≠ 0 := by
      intro hmod
      refine h.dense f _ ?_
      have hle : off ≤ (s.inode f).size := by omega
      simp only [Disk.bsize_eq] at *
      omega
    have hcost := writeLoop_logs_le hn (Nat.not_lt.mp h2) hthere hq
    have hstart : charged (s.inode f) s.vol.beginOp ≤ 0 + 2 := charged_le_add_two _ _
    have hend := length_le_charged q.2.2.1 q.2.2.2
    dsimp only
    generalize (if q.2.2.1.size < q.2.1 then _ else _ : Inode) = ip'
    have hlast := (Vol.logs_write (sb.iblock ip'.inum) (setWords (dinodeWords * (ip'.inum % ipb))
      ip'.words (q.2.2.2.blocks (sb.iblock ip'.inum))) q.2.2.2).length
    rw [maxopblocks_eq]
    refine hlast.trans ?_
    omega

/-- **A piece of `filewrite` fits in a transaction.** -/
theorem writei_fits (h : s.Ok g) (hn : n ≤ filewriteMax) {r : ℤ × Inode × Vol}
    (hr : writei sb src off n (s.inode f) s.vol.beginOp = some r) :
    r.2.2.logged.length ≤ maxopblocks ∧ r.2.2.tooBig = false := by
  have hle := writei_logs_le h hn hr
  exact ⟨hle, (s.vol.fits_beginOp.writei hr).not_tooBig (hle.trans_lt (by decide))⟩

theorem getElem?_written {cnt : ℕ} (hoff : off ≤ old.length) (hcnt : cnt ≤ src.length) (p : ℕ) :
    (written old off src tot cnt)[p]? =
      if p < max old.length (off + tot) then
        if off ≤ p ∧ p < off + cnt then src[p - off]? else old[p]?
      else none := by
  have htake : (src.take cnt).length = cnt := List.length_take_of_le hcnt
  rw [written, List.getElem?_take, getElem?_overwrite hoff, htake]
  refine if_congr Iff.rfl ?_ rfl
  by_cases hin : off ≤ p ∧ p < off + cnt
  · rw [if_pos hin, if_pos hin, List.getElem?_take_of_lt (by omega)]
  · rw [if_neg hin, if_neg hin]

theorem length_written {i : ℕ} (hoff : off ≤ c.length) (hi : i ≤ src.length) :
    (written c off src i i).length = max c.length (off + i) := by
  rw [written, List.length_take, overwrite, List.length_append, List.length_append,
    List.length_take_of_le hoff, List.length_take_of_le hi, List.length_drop]
  omega

/-- Two writes, one after the other. -/
theorem written_written {i cnt : ℕ} (hoff : off ≤ c.length) (hcnt : i + cnt ≤ src.length)
    (htot : tot ≤ cnt) :
    written (written c off src i i) (off + i) (src.drop i) tot cnt =
      written c off src (i + tot) (i + cnt) := by
  have hi : i ≤ src.length := by omega
  have hlen := length_written hoff hi
  refine List.ext_getElem? fun p => ?_
  rw [getElem?_written (by rw [hlen]; omega) (by rw [List.length_drop]; omega),
    getElem?_written hoff hcnt, getElem?_written hoff hi, hlen, List.getElem?_drop]
  by_cases hp : p < max c.length (off + (i + tot))
  · rw [if_pos (by omega), if_pos hp]
    by_cases hin : off + i ≤ p ∧ p < off + i + cnt
    · rw [if_pos hin, if_pos (by omega), show i + (p - (off + i)) = p - off by omega]
    · rw [if_neg hin, if_pos (by omega)]
      exact if_congr (by omega) rfl rfl
  · rw [if_neg (by omega), if_neg hp]

theorem written_zero (c : List (BitVec 8)) (off : ℕ) (src : List (BitVec 8)) :
    written c off src 0 0 = c := by
  rw [written, List.take_zero, overwrite, List.append_nil, List.length_nil, Nat.add_zero,
    List.take_append_drop]
  exact List.take_of_length_le (le_max_left _ _)

variable [DecidableEq ι]

/-- How a call of `filewrite` may end: with all `n` bytes in the file, or before. -/
structure Ended (g : Geometry sb) (s : Files ι) (f : ι) (src : List (BitVec 8)) (n off : ℕ)
    (i off' : ℕ) (ip' : Inode) (v' : Vol) : Prop where
  ok : Files.Ok g ⟨v', update s.inode f ip'⟩
  wrote : ∃ tot cnt, off' = off + tot ∧ tot ≤ cnt ∧ cnt ≤ src.length ∧
    (∀ j, Files.bytes ⟨v', update s.inode f ip'⟩ j =
      update s.bytes f (written (s.bytes f) off src tot cnt) j) ∧
    ((i = n ∧ tot = n ∧ cnt = n) ∨
      (i < n ∧ i ≤ tot ∧ tot < n ∧ (Full sb v'.blocks ∨ src.length < n ∨ (s.bytes f).length < off ∨
        maxfile * bsize < off + n)))

/-- The loop has written `i` bytes. -/
structure Reached (g : Geometry sb) (s₀ s : Files ι) (f : ι) (src : List (BitVec 8)) (off i : ℕ) :
    Prop where
  ok : s.Ok g
  other : ∀ j, j ≠ f → s.inode j = s₀.inode j
  bytes : ∀ j, s.bytes j = update s₀.bytes f (written (s₀.bytes f) off src i i) j
  le : i ≤ src.length

section Loop

variable {s₀ : Files ι} {i m : ℕ}

theorem Reached.refl (h : s.Ok g) (f : ι) (src : List (BitVec 8)) (off : ℕ) :
    Reached g s s f src off 0 where
  ok := h
  other := fun _ _ => rfl
  bytes := fun j => by rw [written_zero, Function.update_eq_self]
  le := Nat.zero_le _

theorem Reached.beginOp (h : Reached g s₀ s f src off i) :
    Reached g s₀ ⟨s.vol.beginOp, s.inode⟩ f src off i :=
  ⟨h.ok.beginOp, h.other, h.bytes, h.le⟩

theorem Reached.update_inode (h : Reached g s₀ s f src off i) (ip : Inode) :
    update s₀.inode f ip = update s.inode f ip := by
  funext j
  by_cases hj : j = f
  · rw [hj, update_self, update_self]
  · rw [update_of_ne hj, update_of_ne hj, h.other j hj]

/-- The loop stops with `i` bytes written and nothing else. -/
theorem Reached.stop (h : Reached g s₀ s f src off i)
    (hend : i = n ∨ (i < n ∧ (Full sb s.vol.blocks ∨ src.length < n ∨ (s₀.bytes f).length < off ∨
      maxfile * bsize < off + n))) : Ended g s₀ f src n off i (off + i) (s.inode f) s.vol := by
  have hinode := (h.update_inode (s.inode f)).trans (Function.update_eq_self f s.inode)
  refine ⟨by rw [hinode]; exact h.ok, i, i, rfl, Nat.le_refl _, h.le,
    by rw [hinode]; exact h.bytes, ?_⟩
  rcases hend with rfl | ⟨hlt, hwhy⟩
  · exact Or.inl ⟨rfl, rfl, rfl⟩
  · exact Or.inr ⟨hlt, Nat.le_refl _, hlt, hwhy⟩

/-- The bytes after a piece of which `tot` bytes are counted and `cnt` are in the blocks. -/
theorem Reached.bytes_piece (hoff : off ≤ (s₀.bytes f).length) (h : Reached g s₀ s f src off i)
    {cnt : ℕ} {s' : Files ι} (hcnt : i + cnt ≤ src.length) (htot : tot ≤ cnt)
    (hb : ∀ j, s'.bytes j =
      update s.bytes f (written (s.bytes f) (off + i) (src.drop i) tot cnt) j) (j : ι) :
    s'.bytes j = update s₀.bytes f (written (s₀.bytes f) off src (i + tot) (i + cnt)) j := by
  rw [hb]
  by_cases hj : j = f
  · subst hj
    rw [update_self, update_self, h.bytes, update_self, written_written hoff hcnt htot]
  · rw [update_of_ne hj, update_of_ne hj, h.bytes, update_of_ne hj]

/-- **One iteration.** The piece is written as a whole, or the loop ends. -/
theorem Reached.piece (hoff : off ≤ (s₀.bytes f).length) (h : Reached g s₀ s f src off i)
    (hm : m ≤ filewriteMax) (hpos : 0 < m) (hle : i + m ≤ n) :
    ∃ ret ip' v', writei sb (src.drop i) (off + i) m (s.inode f) s.vol.beginOp =
        some (ret, ip', v') ∧
      v'.logged.length ≤ maxopblocks ∧ v'.tooBig = false ∧
      ((ret = m ∧ Reached g s₀ ⟨v', update s.inode f ip'⟩ f src off (i + m)) ∨
        (ret ≠ m ∧ Ended g s₀ f src n off i
          (if 0 < ret then off + i + ret.toNat else off + i) ip' v')) := by
  by_cases hbig : maxfile * bsize < off + i + m
  · refine ⟨-1, _, _, writei_refused (Or.inr hbig), Nat.zero_le _, rfl, Or.inr ⟨by omega, ?_⟩⟩
    rw [if_neg (show ¬ (0 : ℤ) < -1 by decide)]
    exact h.beginOp.stop (Or.inr ⟨by omega, Or.inr (Or.inr (Or.inr (by omega)))⟩)
  · have hsize : off + i ≤ (s.inode f).size := by
      rw [← s.length_bytes, h.bytes, update_self, length_written hoff h.le]
      exact le_max_right _ _
    obtain ⟨tot, cnt, ip', v', heq, hok', hbytes, hout, -⟩ :=
      writei_spec h.ok.beginOp f (src.drop i) hsize (Nat.not_lt.mp hbig)
    obtain ⟨hlogs, hfits⟩ := writei_fits h.ok hm heq
    have hcnt : i + cnt ≤ src.length := by
      have := hout.cnt_le
      rw [List.length_drop] at this
      have := h.le
      omega
    have htot := hout.tot_le
    have hb := h.bytes_piece hoff hcnt hout.le_cnt hbytes
    refine ⟨tot, ip', v', heq, hlogs, hfits, ?_⟩
    by_cases hne : (tot : ℤ) = m
    · have htm : tot = m := by omega
      have hcm : cnt = m := by
        have := hout.le_cnt
        rcases hout.uncounted with h | ⟨h, h'⟩ <;> omega
      rw [htm, hcm] at hb
      rw [hcm] at hcnt
      exact Or.inl ⟨hne, hok', fun j hj => (update_of_ne hj _ _).trans (h.other j hj), hb, hcnt⟩
    · have hoff' : (if (0 : ℤ) < (tot : ℤ) then off + i + (tot : ℤ).toNat else off + i) =
          off + (i + tot) := by
        split_ifs <;> omega
      rw [hoff']
      have hinode := h.update_inode ip'
      refine Or.inr ⟨hne, by rw [hinode]; exact hok', i + tot, i + cnt, rfl,
        Nat.add_le_add_left hout.le_cnt i, hcnt, by rw [hinode]; exact hb,
        Or.inr ⟨by omega, Nat.le_add_right _ _, by omega, ?_⟩⟩
      refine (hout.short (by omega)).imp_right fun hshort => Or.inl ?_
      rw [List.length_drop] at hshort
      omega

/-- The loop of `filewrite`, after `i` bytes. -/
theorem filewriteLoop_spec (hoff : off ≤ (s₀.bytes f).length) (h : Reached g s₀ s f src off i)
    (hi : i ≤ n) (hfuel : n ≤ i + fuel) :
    ∃ i' off' txns ip' v',
      filewriteLoop sb src n fuel i (off + i) (s.inode f) s.vol = some ((i', off'), txns, ip', v') ∧
      (∀ l ∈ txns, l.length ≤ maxopblocks) ∧ Ended g s₀ f src n off i' off' ip' v' := by
  induction fuel generalizing s i with
  | zero =>
    exact ⟨i, off + i, [], _, _, rfl, fun l hl => absurd hl List.not_mem_nil,
      h.stop (Or.inl (by omega))⟩
  | succ fuel ih =>
    unfold filewriteLoop
    by_cases hlt : i < n
    · have hm : min (n - i) filewriteMax ≤ filewriteMax := min_le_right _ _
      have hpos : 0 < min (n - i) filewriteMax := by
        rw [filewriteMax_eq]
        omega
      have hle : i + min (n - i) filewriteMax ≤ n := by omega
      rw [if_pos hlt]
      dsimp only
      generalize min (n - i) filewriteMax = m at hm hpos hle
      obtain ⟨ret, ip', v', heq, hlogs, hfits, hcase⟩ := h.piece hoff hm hpos hle
      rw [heq, Option.bind_some]
      dsimp only
      rw [hfits, if_neg Bool.false_ne_true]
      rcases hcase with ⟨rfl, hnext⟩ | ⟨hne, hend⟩
      · obtain ⟨i', off', txns, ip'', v'', hloop, htx, hend⟩ := ih hnext hle (by omega)
        dsimp only at hloop
        rw [update_self] at hloop
        rw [if_neg (not_not.mpr rfl), if_pos (by omega), Int.toNat_natCast, Nat.add_assoc, hloop]
        refine ⟨i', off', _, ip'', v'', rfl, fun l hl => ?_, hend⟩
        rcases List.mem_cons.mp hl with rfl | hl
        · exact hlogs
        · exact htx l hl
      · rw [if_pos hne]
        refine ⟨i, _, _, _, _, rfl, fun l hl => ?_, hend⟩
        rw [List.mem_singleton.mp hl]
        exact hlogs
    · rw [if_neg hlt]
      exact ⟨i, off + i, [], _, _, rfl, fun l hl => absurd hl List.not_mem_nil,
        h.stop (Or.inl (by omega))⟩

end Loop

/-- **`filewrite`** writes all `n` bytes and returns `n`, or returns `-1`; in that case a part of
the bytes may be in the file, the offset has moved past those that were counted, and the disk is
full, the source ends early or the file would be too large. None of its transactions logs more than
`MAXOPBLOCKS` blocks. -/
theorem filewrite_in_transactions (g : Geometry sb) (s : Files ι) (h : s.Ok g) (f : ι)
    (src : List (BitVec 8)) (n off : ℕ) :
    ∃ ret off' txns ip' v',
      filewrite sb true src n off (s.inode f) s.vol = some (ret, off', txns, ip', v') ∧
      (∀ l ∈ txns, l.length ≤ maxopblocks) ∧
      Files.Ok g ⟨v', update s.inode f ip'⟩ ∧
      ∃ tot cnt, off' = off + tot ∧ tot ≤ cnt ∧ cnt ≤ src.length ∧
        (∀ j, Files.bytes ⟨v', update s.inode f ip'⟩ j =
          update s.bytes f (written (s.bytes f) off src tot cnt) j) ∧
        ((ret = n ∧ tot = n ∧ cnt = n) ∨
          (ret = -1 ∧ tot < n ∧ (Full sb v'.blocks ∨ src.length < n ∨ (s.bytes f).length < off ∨
            maxfile * bsize < off + n))) := by
  have hstart := Reached.refl h f src off
  obtain ⟨i, off', txns, ip', v', hloop, htx, hend⟩ : ∃ i off' txns ip' v',
      filewriteLoop sb src n n 0 off (s.inode f) s.vol = some ((i, off'), txns, ip', v') ∧
      (∀ l ∈ txns, l.length ≤ maxopblocks) ∧ Ended g s f src n off i off' ip' v' := by
    by_cases hoff : off ≤ (s.bytes f).length
    · exact filewriteLoop_spec hoff hstart (Nat.zero_le _) (by omega)
    · cases n with
      | zero =>
        exact ⟨0, off, [], _, _, rfl, fun l hl => absurd hl List.not_mem_nil,
          hstart.stop (Or.inl rfl)⟩
      | succ n =>
        -- the first piece is refused
        have hlt := Nat.not_le.mp hoff
        have hrefuse := @writei_refused (s.inode f) s.vol.beginOp sb (src.drop 0) off
          (min (n + 1 - 0) filewriteMax) (Or.inl (by rwa [s.length_bytes] at hlt))
        refine ⟨0, off, [[]], s.inode f, s.vol.beginOp, ?_, fun l hl => ?_,
          hstart.beginOp.stop (Or.inr ⟨Nat.succ_pos n, Or.inr (Or.inr (Or.inl hlt))⟩)⟩
        · rw [filewriteLoop, if_pos (Nat.succ_pos n)]
          dsimp only
          rw [hrefuse, Option.bind_some, if_neg (show s.vol.beginOp.tooBig ≠ true from
            Bool.false_ne_true), if_pos (by omega), if_neg (show ¬ (0 : ℤ) < -1 by decide)]
          rfl
        · rw [List.mem_singleton.mp hl]
          exact Nat.zero_le _
  obtain ⟨hok, tot, cnt, hoff', htot, hcnt, hb, hwhy⟩ := hend
  have heq : filewrite sb true src n off (s.inode f) s.vol =
      some (if (i : ℤ) = n then (n : ℤ) else -1, off', txns, ip', v') := by
    rw [filewrite, if_neg (by decide), Int.toNat_natCast, hloop]
    rfl
  refine ⟨_, off', txns, ip', v', heq, htx, hok, tot, cnt, hoff', htot, hcnt, hb, ?_⟩
  rcases hwhy with ⟨rfl, hrest⟩ | ⟨hlt, -, hrest⟩
  · rw [if_pos rfl]
    exact Or.inl ⟨rfl, hrest⟩
  · rw [if_neg (by omega)]
    exact Or.inr ⟨rfl, hrest⟩

/-- Two transactions, of five and three blocks. -/
theorem filewrite_in_transactions_small :
    ∃ off' txns ip' v', filewrite smallSb true (List.replicate 4000 1) (4000 : ℕ) 0
        (smallFiles.inode true) smallFiles.vol = some (4000, off', txns, ip', v') ∧
      txns.map List.length = [5, 3] ∧ (∀ l ∈ txns, l.length ≤ maxopblocks) ∧ off' = 4000 := by
  obtain ⟨ret, off', txns, ip', v', heq, htx, -⟩ := filewrite_in_transactions smallGeometry
    smallFiles smallFiles_ok true (List.replicate 4000 1) 4000 0
  obtain ⟨r, hr, hret, hoff, hlen⟩ : ∃ r ∈ filewrite smallSb true (List.replicate 4000 1)
    (4000 : ℕ) 0
      (smallFiles.inode true) smallFiles.vol,
      r.1 = 4000 ∧ r.2.1 = 4000 ∧ r.2.2.1.map List.length = [5, 3] := by decide +kernel
  obtain rfl := Option.some.inj (heq.symm.trans hr)
  refine ⟨off', txns, ip', v', ?_, hlen, htx, hoff⟩
  rw [heq, show ret = 4000 from hret]

end Filewrite

/-! ### What `itrunc` logs -/

section Itrunc

variable {ι : Type} {sb : Superblock} {g : Geometry sb}

/-- The bitmap blocks under which a file has blocks. -/
def bitmapBlocks (sb : Superblock) (blocks : ℕ → Block) (ip : Inode) : Finset ℕ :=
  ((Finset.range nslots).filter fun k => slotAddr blocks ip k ≠ 0).image fun k =>
    sb.bblock (slotAddr blocks ip k)

theorem mem_bitmapBlocks {c : ℕ} :
    c ∈ bitmapBlocks sb blocks ip ↔ ∃ b ∈ fileBlocks blocks ip, b ≠ 0 ∧ sb.bblock b = c := by
  simp only [bitmapBlocks, Finset.mem_image, Finset.mem_filter, Finset.mem_range]
  constructor
  · rintro ⟨k, ⟨hk, hnz⟩, hc⟩
    exact ⟨_, (mem_fileBlocks hnz).mpr ⟨k, hk, rfl⟩, hnz, hc⟩
  · rintro ⟨b, hb, hnz, hc⟩
    obtain ⟨k, hk, rfl⟩ := (mem_fileBlocks hnz).mp hb
    exact ⟨k, ⟨hk, hnz⟩, hc⟩

theorem Wf.card_bitmapBlocks_le {inode : ι → Inode} (hw : Wf g blocks inode) (i : ι) {k : ℕ}
    (hk : sb.size ≤ k * Disk.bpb) : (bitmapBlocks sb blocks (inode i)).card ≤ k := by
  have hsub : bitmapBlocks sb blocks (inode i) ⊆ Finset.Ico sb.bmapstart (sb.bmapstart + k) := by
    intro c hc
    obtain ⟨b, hb, hnz, rfl⟩ := mem_bitmapBlocks.mp hc
    obtain ⟨l, hl, rfl⟩ := (mem_fileBlocks hnz).mp hb
    have hlt := (hw.inUse i hl hnz).1.trans_le hk
    have hdiv := Nat.div_lt_of_lt_mul (Nat.mul_comm _ _ ▸ hlt)
    rw [Finset.mem_Ico, Disk.Superblock.bblock, Nat.add_comm]
    exact ⟨Nat.le_add_right _ _, Nat.add_lt_add_left hdiv _⟩
  refine (Finset.card_le_card hsub).trans ?_
  rw [Nat.card_Ico, Nat.add_sub_cancel_left]

/-- What `itrunc` logs, and when `log_write` panics in it. -/
theorem itrunc_logged {s : Files ι} (h : s.Ok g) (i : ι) :
    ∃ ip' v', itrunc sb (s.inode i) s.vol.beginOp = some (ip', v') ∧
      v'.logged.toFinset =
        insert (sb.iblock (s.inode i).inum) (bitmapBlocks sb s.vol.blocks (s.inode i)) ∧
      v'.logged.length = (bitmapBlocks sb s.vol.blocks (s.inode i)).card + 1 ∧
      (v'.tooBig = true ↔ logblocks ≤ (bitmapBlocks sb s.vol.blocks (s.inode i)).card) := by
  obtain ⟨v', hf, heq⟩ := itrunc_frees h.beginOp.wf i
  have hinum : ({ s.inode i with size := 0, addrs := fun _ => 0 } : Inode).inum =
      (s.inode i).inum := rfl
  dsimp only at hf heq
  generalize ({ s.inode i with size := 0, addrs := fun _ => 0 } : Inode) = ip' at heq hinum
  have hnd : v'.logged.Nodup := hf.nodup List.nodup_nil
  have hset : v'.logged.toFinset = bitmapBlocks sb s.vol.blocks (s.inode i) := by
    ext c
    rw [List.mem_toFinset, hf.logged, mem_bitmapBlocks]
    exact or_iff_right List.not_mem_nil
  have hcard : v'.logged.length = (bitmapBlocks sb s.vol.blocks (s.inode i)).card := by
    rw [← hset, List.toFinset_card_of_nodup hnd]
  have hnot : sb.iblock ip'.inum ∉ v'.logged := by
    intro hmem
    obtain hnil | ⟨b, -, -, hb⟩ := (hf.logged _).mp hmem
    · exact List.not_mem_nil hnil
    · have h1 := (h.wf.iblock_lt i).1
      have h2 : sb.bmapstart ≤ sb.bblock b := Nat.le_add_left _ _
      rw [hinum] at hb
      omega
  have hlog : (iupdate sb ip' v').logged = sb.iblock ip'.inum :: v'.logged := if_neg hnot
  have hbig : (iupdate sb ip' v').tooBig =
      (v'.tooBig || decide (logblocks ≤ v'.logged.length)) := rfl
  refine ⟨ip', iupdate sb ip' v', heq, ?_, ?_, ?_⟩
  · rw [hlog, List.toFinset_cons, hset, hinum]
  · rw [hlog, List.length_cons, hcard]
  · rw [hbig, Bool.or_eq_true, decide_eq_true_iff, ← hcard]
    exact or_iff_right_of_imp (hf.fits s.vol.fits_beginOp)

/-- **`itrunc`** logs the inode block and the bitmap blocks of the file. So it keeps to
`MAXOPBLOCKS` exactly when these are fewer than `MAXOPBLOCKS`, and alone in the log it panics
exactly when they are `LOGBLOCKS` or more. -/
theorem itrunc_logs (g : Geometry sb) (s : Files ι) (h : s.Ok g) (i : ι) :
    ∃ ip' v', itrunc sb (s.inode i) s.vol.beginOp = some (ip', v') ∧
      v'.logged.toFinset =
        insert (sb.iblock (s.inode i).inum) (bitmapBlocks sb s.vol.blocks (s.inode i)) ∧
      v'.logged.length = (bitmapBlocks sb s.vol.blocks (s.inode i)).card + 1 ∧
      (v'.logged.length ≤ maxopblocks ↔
        (bitmapBlocks sb s.vol.blocks (s.inode i)).card < maxopblocks) ∧
      (v'.tooBig = true ↔ logblocks ≤ (bitmapBlocks sb s.vol.blocks (s.inode i)).card) := by
  obtain ⟨ip', v', heq, hset, hlen, hbig⟩ := itrunc_logged h i
  refine ⟨ip', v', heq, hset, hlen, ?_, hbig⟩
  rw [hlen]
  exact Nat.succ_le_iff

/-! A file whose blocks are far apart, as `balloc` places them when the disk is nearly full. -/

/-- The image as `mkfs` lays it out. -/
def imageSb : Superblock := ⟨Disk.imageSb, 33⟩

def imageGeometry : Geometry imageSb where
  ninodes := 200
  datastart := 61
  datastart_pos := by decide
  inodestart_pos := by decide
  iblock_lt := fun inum hi => by
    show inum / 16 + 33 < 46
    omega
  bblock_lt := fun b hb => by
    have hb' : b < 120000 := hb
    show b / 8192 + 46 < 61
    omega
  size_lt := by decide

/-- Twelve direct blocks, each under another bitmap block. -/
def farInode : Inode := ⟨1, 2, 0, 0, 1, 12288, fun k => if k.val < 12 then 61 + 8192 * k.val else 0⟩

/-- Byte `j` of bitmap block `q`. -/
def farByte (q j : ℕ) : BitVec 8 :=
  if j < 7 then (if q = 0 then 0xFF#8 else 0#8)
  else if j = 7 then (if q = 0 then 0x3F#8 else if q < 12 then 0x20#8 else 0#8)
  else 0#8

def farFiles : Files Unit where
  vol := ⟨fun b =>
    if b = 33 then setWords 16 farInode.words fun _ => 0
    else if 46 ≤ b ∧ b < 61 then fun j => farByte (b - 46) j.val
    else fun _ => 0, [], false⟩
  inode := fun _ => farInode

theorem used_far {b : ℕ} (hb : b < fssize) :
    Used imageSb.toSuperblock farFiles.vol.blocks b ↔ b < 61 ∨ (b % 8192 = 61 ∧ b / 8192 < 12) := by
  rw [fssize_eq] at hb
  have hbyte : farFiles.vol.blocks (imageSb.bblock b) (Disk.byteOf (b % Disk.bpb)) =
      farByte (b / 8192) (b % 8192 / 8) := by
    have hblk : imageSb.bblock b = b / 8192 + 46 := rfl
    have hj : (Disk.byteOf (b % Disk.bpb)).val = b % 8192 / 8 := by
      show b % 8192 / 8 % 1024 = _
      omega
    simp only [farFiles]
    rw [hblk, if_neg (by omega), if_pos (by omega), Nat.add_sub_cancel, hj]
  have hr : b % 8192 % 8 < 8 := Nat.mod_lt _ (by decide)
  rw [Used, Disk.and_maskOf_ne_zero, hbyte, Disk.bpb_eq, farByte]
  by_cases h1 : b % 8192 / 8 < 7
  · rw [if_pos h1]
    by_cases h0 : b / 8192 = 0
    · rw [if_pos h0]
      refine iff_of_true ?_ (by omega)
      generalize b % 8192 % 8 = r at hr
      interval_cases r <;> rfl
    · rw [if_neg h0, BitVec.getLsbD_zero]
      exact iff_of_false Bool.false_ne_true (by omega)
  · rw [if_neg h1]
    by_cases h2 : b % 8192 / 8 = 7
    · rw [if_pos h2]
      have hb8 : b % 8192 = 56 + b % 8192 % 8 := by omega
      generalize b % 8192 % 8 = r at hr hb8
      by_cases h0 : b / 8192 = 0
      · rw [if_pos h0, show (b < 61 ∨ b % 8192 = 61 ∧ b / 8192 < 12) ↔ r < 6 by omega]
        clear hb8
        interval_cases r <;> decide
      · rw [if_neg h0]
        by_cases h12 : b / 8192 < 12
        · rw [if_pos h12, show (b < 61 ∨ b % 8192 = 61 ∧ b / 8192 < 12) ↔ r = 5 by omega]
          clear hb8
          interval_cases r <;> decide
        · rw [if_neg h12, BitVec.getLsbD_zero]
          exact iff_of_false Bool.false_ne_true (by omega)
    · rw [if_neg h2, BitVec.getLsbD_zero]
      exact iff_of_false Bool.false_ne_true (by omega)

theorem slotAddr_far (blocks : ℕ → Block) (k : ℕ) :
    slotAddr blocks farInode k = if k < 12 then 61 + 8192 * k else 0 := by
  have hind : farInode.addr ndirect = 0 := rfl
  rcases Nat.lt_or_ge ndirect k with hk | hk
  · rw [slotAddr_of_zero _ hk hind, if_neg (by rw [ndirect_eq] at hk; omega)]
  · have hk' : k < 13 := Nat.lt_succ_of_le hk
    rw [slotAddr_of_le _ _ hk, Inode.addr, dif_pos hk']
    rfl

theorem farFiles_ok : farFiles.Ok imageGeometry := by
  have hholds : ∀ p b, Holds farFiles.vol.blocks farFiles.inode p b ↔
      p.2 < 12 ∧ b = 61 + 8192 * p.2 := by
    rintro ⟨⟨⟩, k⟩ b
    rw [Holds]
    show k < nslots ∧ slotAddr _ farInode k = b ∧ b ≠ 0 ↔ k < 12 ∧ _
    rw [slotAddr_far, nslots_eq]
    by_cases hk : k < 12
    · rw [if_pos hk]
      omega
    · rw [if_neg hk]
      omega
  refine ⟨⟨⟨?_, ?_, fun b => ?_⟩, fun _ => ?_, fun _ _ _ => rfl⟩, fun _ bn hbn => ?_,
    fun _ => ?_, fun _ => ?_⟩
  · rintro ⟨⟨⟩, k⟩ ⟨⟨⟩, l⟩ b hk hl
    rw [hholds] at hk hl
    have : k = l := by omega
    rw [this]
  · rintro ⟨⟨⟩, k⟩ b hk
    rw [hholds] at hk
    show ¬ b < 61
    omega
  · show b < fssize ∧ _ ↔ b < 61 ∨ _
    have hex : (∃ p, Holds farFiles.vol.blocks farFiles.inode p b) ↔
        b % 8192 = 61 ∧ b / 8192 < 12 := by
      constructor
      · rintro ⟨⟨⟨⟩, k⟩, hk⟩
        rw [hholds] at hk
        omega
      · intro hb
        exact ⟨((), b / 8192), (hholds _ _).mpr ⟨hb.2, by omega⟩⟩
    rw [hex]
    constructor
    · rintro ⟨hb, hu⟩
      exact (used_far hb).mp hu
    · intro hb
      have hlt : b < fssize := by
        rw [fssize_eq]
        omega
      exact ⟨hlt, (used_far hlt).mpr hb⟩
  · show 1 < 200
    decide
  · have hbn' : bn * 1024 < 12288 := hbn
    have hslot : slotOf bn = bn := if_pos (by rw [ndirect_eq]; omega)
    show slotAddr _ farInode (slotOf bn) ≠ 0
    rw [slotAddr_far, hslot, if_pos (by omega)]
    omega
  · show 12288 ≤ maxfile * bsize
    decide
  · have hblk : farFiles.vol.blocks (imageSb.iblock farInode.inum) =
        setWords (dinodeWords * (farInode.inum % ipb)) farInode.words fun _ => 0 := by
      simp only [farFiles]
      exact if_pos rfl
    refine (congrArg (loadInode farInode.inum) hblk).trans (loadInode_setWords ⟨?_, fun k => ?_⟩ _)
    · show 12288 < 2 ^ 32
      decide
    · show (if k.val < 12 then 61 + 8192 * k.val else 0) < 2 ^ 32
      split_ifs <;> omega

/-- To truncate it logs 13 blocks. -/
theorem itrunc_logs_far :
    ∃ ip' v', itrunc imageSb (farFiles.inode ()) farFiles.vol.beginOp = some (ip', v') ∧
      v'.logged.length = 13 ∧ maxopblocks < v'.logged.length ∧ v'.tooBig = false := by
  obtain ⟨ip', v', heq, -, hlen, -, hbig⟩ := itrunc_logs imageGeometry farFiles farFiles_ok ()
  have hcard : (bitmapBlocks imageSb farFiles.vol.blocks (farFiles.inode ())).card = 12 := by
    decide +kernel
  rw [hcard] at hlen hbig
  exact ⟨ip', v', heq, hlen, by rw [hlen]; decide,
    Bool.eq_false_iff.mpr fun h => absurd (hbig.mp h) (by decide)⟩

end Itrunc

end Fs

end Xv6
